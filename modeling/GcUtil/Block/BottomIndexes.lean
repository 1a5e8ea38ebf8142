import GcUtil.Block.HeaderTable
import GcUtil.Library.DoublyLinked

/-! The bottom indices as records linked in both directions, found through the hashed top
index. `get_index` inserts a record in front of the first one with a larger key, and what it
builds represents the list of keys that the block level works with. -/
namespace GcUtil.Block.BottomIndexes
open Basic Headers HeaderTable Library.DoublyLinked Function List

/-- The links of a `bottom_index`; its entries are those of the hblks with this key. -/
structure BottomIndex where
  key : Nat
  ascLink : Option Nat
  descLink : Option Nat
deriving DecidableEq, Repr

/-- `GC_all_bottom_indices`, `GC_all_bottom_indices_end` and `GC_top_index`, whose chains run
through `hash_link`. Records are numbered as `GC_scratch_alloc` gives them, `scratch` being the
next one. -/
structure Indexes where
  node : Nat → BottomIndex
  scratch : Nat
  all : Option Nat
  allEnd : Option Nat
  topIndex : Nat → List Nat

def Indexes.init : Indexes := ⟨fun _ => ⟨0, none, none⟩, 0, none, none, fun _ => []⟩

/-- `TOP_SZ`, with `TL_HASH` the remainder by it. -/
def topSz : Nat := 2048

/-- `GET_BI`, with `none` for `GC_all_nils`. -/
def getBi (B : Indexes) (hi : Nat) : Option Nat :=
  (B.topIndex (hi % topSz)).find? fun p => (B.node p).key == hi

/-- The loop of `get_index` that looks for the first key that is not below `hi`, with the record
before it. -/
def seek (node : Nat → BottomIndex) (hi : Nat) : Nat → Option Nat → Option Nat → Option Nat × Option Nat
  | 0, pi, p => (pi, p)
  | _ + 1, pi, none => (pi, none)
  | fuel + 1, pi, some p =>
    if (node p).key < hi then seek node hi fuel (some p) (node p).ascLink else (pi, some p)

def setDesc (node : Nat → BottomIndex) (p : Option Nat) (r : Nat) : Nat → BottomIndex :=
  match p with
  | none => node
  | some q => Function.update node q { node q with descLink := some r }

def setAsc (node : Nat → BottomIndex) (pi : Option Nat) (r : Nat) : Nat → BottomIndex :=
  match pi with
  | none => node
  | some q => Function.update node q { node q with ascLink := some r }

def addIndex (B : Indexes) (hi : Nat) : Indexes :=
  let r := B.scratch
  let at_ := seek B.node hi (B.scratch + 1) none B.all
  { node := setAsc (setDesc (Function.update B.node r ⟨hi, at_.2, at_.1⟩) at_.2 r) at_.1 r
    scratch := r + 1
    all := if at_.1 = none then some r else B.all
    allEnd := if at_.2 = none then some r else B.allEnd
    topIndex := Function.update B.topIndex (hi % topSz) (r :: B.topIndex (hi % topSz)) }

def getIndex (B : Indexes) (h : Nat) : Indexes :=
  if (getBi B (h / bottomSz)).isSome then B else addIndex B (h / bottomSz)

def insertKey (keys : List Nat) (key : Nat) : List Nat :=
  if key ∈ keys then keys else keys.takeWhile (· < key) ++ key :: keys.dropWhile (· < key)

def Indexes.asc (B : Indexes) (p : Nat) : Option Nat := (B.node p).ascLink
def Indexes.desc (B : Indexes) (p : Nat) : Option Nat := (B.node p).descLink
def Indexes.key (B : Indexes) (p : Nat) : Nat := (B.node p).key

/-- The records `ids` are linked in both directions in the order of their keys `keys`, and the top
index finds each of them. -/
structure Represents (B : Indexes) (ids keys : List Nat) : Prop where
  linked : Linked B.asc B.desc B.all ids
  last : B.allEnd = ids.getLast?
  keys_eq : ids.map B.key = keys
  low : ∀ p ∈ ids, p < B.scratch
  hashed : ∀ p i, p ∈ B.topIndex i ↔ p ∈ ids ∧ B.key p % topSz = i

variable {B : Indexes} {ids keys : List Nat} {hi p : Nat}

theorem represents_init : Represents Indexes.init [] [] where
  linked := linked_nil _ _
  last := rfl
  keys_eq := rfl
  low _ h := by cases h
  hashed _ _ := by simp [Indexes.init]

theorem Represents.getBi_eq_none (h : Represents B ids keys) : getBi B hi = none ↔ hi ∉ keys := by
  unfold getBi
  rw [List.find?_eq_none,← h.keys_eq]
  simp only [h.hashed,mem_map,not_exists,beq_iff_eq]
  constructor
  · rintro hnone p ⟨hp,hkey⟩
    exact hnone p ⟨hp,by rw [hkey]⟩ hkey
  · intro hnone p ⟨hp,_⟩ hkey
    exact hnone p ⟨hp,hkey⟩

theorem Represents.of_getBi (h : Represents B ids keys) (hp : getBi B hi = some p) : p ∈ ids ∧ B.key p = hi := by
  have hmem := List.mem_of_find?_eq_some hp
  have hkey := List.find?_some hp
  exact ⟨((h.hashed p _).mp hmem).1,by simpa [Indexes.key] using hkey⟩

theorem length_le_of_lt {l : List Nat} {n : Nat} (hnodup : l.Nodup) (hlt : ∀ p ∈ l, p < n) : l.length ≤ n := by
  have hsub : l ⊆ List.range n := fun p hp => mem_range.mpr (hlt p hp)
  have hlen := (hnodup.subperm hsub).length_le
  rwa [length_range] at hlen

theorem Represents.length_le (h : Represents B ids keys) : ids.length ≤ B.scratch :=
  length_le_of_lt h.linked.nodup h.low

theorem seek_spec {B : Indexes} {prev : Option Nat} {l : List Nat} {fuel : Nat}
    (hseg : Segment B.asc B.desc prev l none) (hfuel : l.length < fuel) :
    seek B.node hi fuel prev l.head? =
      ((l.takeWhile fun p => B.key p < hi).getLast?.or prev, (l.dropWhile fun p => B.key p < hi).head?) := by
  induction fuel generalizing prev l with
  | zero => omega
  | succ fuel ih =>
    cases l with
    | nil => simp [seek]
    | cons p l =>
      obtain ⟨-,hasc,hrest⟩ := hseg
      rw [List.head?_cons,seek]
      rw [Option.or_none] at hasc
      by_cases hlt : (B.node p).key < hi
      · have hkey : B.key p < hi := hlt
        have hnext : (B.node p).ascLink = l.head? := hasc
        rw [if_pos hlt,hnext,ih hrest (by simpa using hfuel)]
        rw [takeWhile_cons,dropWhile_cons]
        simp only [hkey,decide_true,if_true]
        cases (l.takeWhile fun p => B.key p < hi) using List.reverseRecOn <;> simp [List.getLast?_cons]
      · have hkey : ¬ B.key p < hi := hlt
        rw [if_neg hlt,takeWhile_cons,dropWhile_cons]
        simp [hkey]

section Insertion

theorem setDesc_apply (node : Nat → BottomIndex) (p : Option Nat) (r x : Nat) :
    setDesc node p r x = if p = some x then { node x with descLink := some r } else node x := by
  cases p with
  | none => simp [setDesc]
  | some q =>
    simp only [setDesc,update_apply,Option.some.injEq,@eq_comm _ q]
    split
    · next h => rw [h]
    · rfl

theorem setAsc_apply (node : Nat → BottomIndex) (pi : Option Nat) (r x : Nat) :
    setAsc node pi r x = if pi = some x then { node x with ascLink := some r } else node x := by
  cases pi with
  | none => simp [setAsc]
  | some q =>
    simp only [setAsc,update_apply,Option.some.injEq,@eq_comm _ q]
    split
    · next h => rw [h]
    · rfl

variable (B hi) in
def before (ids : List Nat) : List Nat := ids.takeWhile fun p => B.key p < hi

variable (B hi) in
def behind (ids : List Nat) : List Nat := ids.dropWhile fun p => B.key p < hi

theorem before_append_behind (B : Indexes) (hi : Nat) (ids : List Nat) : before B hi ids ++ behind B hi ids = ids :=
  takeWhile_append_dropWhile

section

variable (h : Represents B ids keys)
include h

theorem Represents.seek_eq (hi : Nat) :
    seek B.node hi (B.scratch + 1) none B.all = ((before B hi ids).getLast?, (behind B hi ids).head?) := by
  rw [h.linked.head_eq,seek_spec h.linked.segment (Nat.lt_succ_of_le h.length_le),Option.or_none]
  rfl

theorem Represents.addIndex_node (hi x : Nat) :
    (addIndex B hi).node x =
      if (before B hi ids).getLast? = some x then
        { setDesc (update B.node B.scratch ⟨hi, (behind B hi ids).head?, (before B hi ids).getLast?⟩)
            (behind B hi ids).head? B.scratch x with ascLink := some B.scratch }
      else if (behind B hi ids).head? = some x then
        { update B.node B.scratch ⟨hi, (behind B hi ids).head?, (before B hi ids).getLast?⟩ x with
          descLink := some B.scratch }
      else update B.node B.scratch ⟨hi, (behind B hi ids).head?, (before B hi ids).getLast?⟩ x := by
  simp only [addIndex,h.seek_eq hi,setAsc_apply,setDesc_apply]

theorem Represents.scratch_fresh : B.scratch ∉ ids :=
  fun hmem => Nat.lt_irrefl _ (h.low _ hmem)

theorem Represents.addIndex_new (hi : Nat) :
    (addIndex B hi).node B.scratch = ⟨hi, (behind B hi ids).head?, (before B hi ids).getLast?⟩ := by
  have hsplit := before_append_behind B hi ids
  have hbefore : (before B hi ids).getLast? ≠ some B.scratch := fun heq =>
    h.scratch_fresh (hsplit ▸ mem_append_left _ (List.mem_of_getLast? heq))
  have hbehind : (behind B hi ids).head? ≠ some B.scratch := fun heq =>
    h.scratch_fresh (hsplit ▸ mem_append_right _ (List.mem_of_head? heq))
  rw [h.addIndex_node,if_neg hbefore,if_neg hbehind,update_self]

theorem Represents.addIndex_old (hi : Nat) {x : Nat} (hx : x ∈ ids) :
    (addIndex B hi).key x = B.key x ∧
      ((before B hi ids).getLast? = some x → (addIndex B hi).asc x = some B.scratch) ∧
      ((before B hi ids).getLast? ≠ some x → (addIndex B hi).asc x = B.asc x) ∧
      ((behind B hi ids).head? = some x → (addIndex B hi).desc x = some B.scratch) ∧
      ((behind B hi ids).head? ≠ some x → (addIndex B hi).desc x = B.desc x) := by
  have hne : x ≠ B.scratch := fun heq => h.scratch_fresh (heq ▸ hx)
  unfold Indexes.key Indexes.asc Indexes.desc
  rw [h.addIndex_node,setDesc_apply,update_of_ne hne]
  split_ifs <;> simp_all

theorem Represents.addIndex (hnew : hi ∉ keys) :
    Represents (addIndex B hi) (before B hi ids ++ B.scratch :: behind B hi ids) (insertKey keys hi) := by
  have hsplit := before_append_behind B hi ids
  have hlinked : Linked B.asc B.desc B.all (before B hi ids ++ behind B hi ids) := hsplit.symm ▸ h.linked
  have hfresh : B.scratch ∉ before B hi ids ++ behind B hi ids := hsplit.symm ▸ h.scratch_fresh
  have hnode := h.addIndex_new hi
  have hkey : (BottomIndexes.addIndex B hi).key B.scratch = hi := by rw [Indexes.key,hnode]
  have hold : ∀ x ∈ ids, (BottomIndexes.addIndex B hi).key x = B.key x := fun x hx => (h.addIndex_old hi hx).1
  constructor
  case linked =>
    apply hlinked.insert hfresh
    · simp only [BottomIndexes.addIndex,h.seek_eq hi,List.getLast?_eq_none_iff]
    · rw [Indexes.asc,hnode]
    · rw [Indexes.desc,hnode]
    · intro y hy
      rw [hsplit] at hy
      exact ⟨(h.addIndex_old hi hy).2.1,(h.addIndex_old hi hy).2.2.1⟩
    · intro y hy
      rw [hsplit] at hy
      exact (h.addIndex_old hi hy).2.2.2
  case last =>
    simp only [BottomIndexes.addIndex,h.seek_eq hi,List.head?_eq_none_iff,h.last]
    rw [List.getLast?_append]
    by_cases hend : behind B hi ids = []
    · simp [hend]
    · obtain ⟨y,hy⟩ := Option.ne_none_iff_exists'.mp (mt List.getLast?_eq_none_iff.mp hend)
      have hlast : ids.getLast? = some y := by
        rw [← hsplit,List.getLast?_append,hy]
        rfl
      rw [if_neg hend,hlast,List.getLast?_cons]
      simp [hy]
  case keys_eq =>
    have hbefore : (before B hi ids).map (BottomIndexes.addIndex B hi).key = keys.takeWhile (· < hi) := by
      rw [← h.keys_eq,takeWhile_map]
      exact map_congr_left fun x hx => hold x (hsplit ▸ mem_append_left _ hx)
    have hbehind : (behind B hi ids).map (BottomIndexes.addIndex B hi).key = keys.dropWhile (· < hi) := by
      rw [← h.keys_eq,dropWhile_map]
      exact map_congr_left fun x hx => hold x (hsplit ▸ mem_append_right _ hx)
    rw [insertKey,if_neg hnew,map_append,map_cons,hbefore,hbehind,hkey]
  case low =>
    intro x hx
    show x < B.scratch + 1
    rcases mem_append.mp hx with hx | hx
    · exact Nat.lt_succ_of_lt (h.low x (hsplit ▸ mem_append_left _ hx))
    · rcases mem_cons.mp hx with rfl | hx
      · exact Nat.lt_succ_self _
      · exact Nat.lt_succ_of_lt (h.low x (hsplit ▸ mem_append_right _ hx))
  case hashed =>
    intro x i
    have hids : x ∈ ids ↔ x ∈ before B hi ids ∨ x ∈ behind B hi ids := by rw [← mem_append,hsplit]
    have hmem : x ∈ before B hi ids ++ B.scratch :: behind B hi ids ↔ x = B.scratch ∨ x ∈ ids := by
      rw [mem_append,mem_cons,hids]
      tauto
    have htop : x ∈ (BottomIndexes.addIndex B hi).topIndex i ↔ (x = B.scratch ∧ hi % topSz = i) ∨ x ∈ B.topIndex i := by
      simp only [BottomIndexes.addIndex,update_apply]
      split
      · next heq => simp [heq]
      · next hne => simp [Ne.symm hne]
    rw [hmem,htop,h.hashed]
    by_cases hx : x = B.scratch
    · subst hx
      simp [hkey,h.scratch_fresh]
    · by_cases hin : x ∈ ids
      · simp [hx,hin,hold x hin]
      · simp [hx,hin]

theorem Represents.getIndex (n : Nat) :
    ∃ ids', Represents (getIndex B n) ids' (insertKey keys (n / bottomSz)) := by
  unfold BottomIndexes.getIndex
  split
  · next hfound =>
    have hmem : n / bottomSz ∈ keys := by
      by_contra hnot
      rw [h.getBi_eq_none.mpr hnot] at hfound
      cases hfound
    refine ⟨ids,?_⟩
    rw [insertKey,if_pos hmem]
    exact h
  · next hnone => exact ⟨_,h.addIndex (h.getBi_eq_none.mp (by simpa using hnone))⟩

end

end Insertion

section Calls

def indexesOf (calls : List Nat) : Indexes := calls.foldl getIndex Indexes.init

def keysOf (calls : List Nat) : List Nat := calls.foldl (fun keys n => insertKey keys (n / bottomSz)) []

theorem indexesOf_represents (calls : List Nat) : ∃ ids, Represents (indexesOf calls) ids (keysOf calls) := by
  induction calls using List.reverseRecOn with
  | nil => exact ⟨[],represents_init⟩
  | append_singleton calls n ih =>
    obtain ⟨ids,h⟩ := ih
    unfold indexesOf keysOf at h ⊢
    rw [foldl_append,foldl_append]
    exact h.getIndex n

theorem keysOf_map_mul (hsorted : keys.Pairwise (· < ·)) : keysOf (keys.map (· * bottomSz)) = keys := by
  induction keys using List.reverseRecOn with
  | nil => rfl
  | append_singleton keys key ih =>
    obtain ⟨hkeys,-,hlast⟩ := pairwise_append.mp hsorted
    have hlow : ∀ k ∈ keys, k < key := fun k hk => hlast k hk key (by simp)
    have hnew : key ∉ keys := fun hmem => Nat.lt_irrefl _ (hlow key hmem)
    have hcut : keys.takeWhile (· < key) = keys := takeWhile_eq_self_iff.mpr (by simpa using hlow)
    have hrest : keys.dropWhile (· < key) = [] := dropWhile_eq_nil_iff.mpr (by simpa using hlow)
    unfold keysOf at ih ⊢
    rw [map_append,foldl_append,ih hkeys,map_singleton,foldl_cons,foldl_nil,
      Nat.mul_div_cancel _ (by decide),insertKey,if_neg hnew,hcut,hrest]

end Calls

end GcUtil.Block.BottomIndexes
