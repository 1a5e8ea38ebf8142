import GcUtil.Basic
import GcUtil.Library.SwapRemove
import GcUtil.Library.ThreadedIndex

/-! The table of static roots of `mark_rts.c` with its hash index (not the one of Windows): adding a
range, removing the ranges inside a given one and removing the temporary ones. -/
namespace GcUtil.Roots.StaticRoots
open Basic Library.SwapRemove Library.ThreadedIndex List Option

section Model

/-- `struct roots` without `r_next`, which is part of the index. -/
structure Root where
  rStart : Nat
  rEnd : Nat
  rTmp : Bool
deriving DecidableEq, Repr

def Root.length (r : Root) : Nat := r.rEnd - r.rStart

def Root.Contains (r : Root) (a : Nat) : Prop := r.rStart ≤ a ∧ a < r.rEnd

/-- `GC_static_roots[0 .. n_root_sets)`, `GC_root_index` with the `r_next` fields, and `GC_root_size`,
which is a word. -/
structure RootTable where
  roots : List Root
  index : Index Nat
  rootSize : BitVec 64

def emptyTable : RootTable := ⟨[], ⟨fun _ => none, fun _ => none⟩, 0⟩

/-- `PTR_ALIGN_UP` and `PTR_ALIGN_DOWN` to `ALIGNMENT`. -/
def alignUp (p : Nat) : Nat := wordAdd p (alignment - 1) / alignment * alignment

def alignDown (p : Nat) : Nat := p / alignment * alignment

def logRtSize : Nat := 6

def rtHash (addr : Nat) : Nat :=
  let val := addr ^^^ (addr >>> (8 * logRtSize))
  let val := val ^^^ (val >>> (4 * logRtSize))
  let val := val ^^^ (val >>> (2 * logRtSize))
  ((val >>> logRtSize) ^^^ val) &&& (2 ^ logRtSize - 1)

def startAt (roots : List Root) (i : Nat) : Nat := (roots[i]?.map Root.rStart).getD 0

def hashAt (roots : List Root) (i : Nat) : Nat := rtHash (startAt roots i)

/-- `GC_roots_present`: the entry found with its position. -/
def rootsPresent (t : RootTable) (b : Nat) : Option (Nat × Root) :=
  (t.index.search (fun i => decide (startAt t.roots i = b)) t.roots.length (t.index.head (rtHash b))).bind
    fun i => t.roots[i]?.map fun old => (i, old)

/-- The end of `GC_add_roots_inner`: a new entry, or no result if the table is full. -/
def appendRoot (maxRootSets : Nat) (t : RootTable) (r : Root) : Option RootTable :=
  if t.roots.length = maxRootSets then none
  else
    let roots := t.roots ++ [r]
    some ⟨roots, t.index.link (hashAt roots) t.roots.length, t.rootSize + BitVec.ofNat 64 r.length⟩

def addRootsInner (maxRootSets : Nat) (t : RootTable) (b e : Nat) (tmp : Bool) : Option RootTable :=
  let b := alignUp b
  let e := alignDown e
  if e ≤ b then some t
  else
    match rootsPresent t b with
    | none => appendRoot maxRootSets t ⟨b, e, tmp⟩
    | some (i, old) =>
        if e ≤ old.rEnd then
          some { t with roots := t.roots.set i { old with rTmp := old.rTmp && tmp } }
        else if old.rTmp = tmp ∨ tmp = false then
          some { t with
            roots := t.roots.set i { old with rEnd := e, rTmp := tmp }
            rootSize := t.rootSize + BitVec.ofNat 64 (e - old.rEnd) }
        else appendRoot maxRootSets t ⟨old.rEnd, e, tmp⟩

/-- The loop of removals by `GC_remove_root_at_pos`, and the index rebuilt if there was one. -/
def removeWhere (p : Root → Bool) (t : RootTable) : RootTable :=
  let swept := sweep p t.roots.length 0 t.roots
  { roots := swept.2
    index := if swept.2.length < t.roots.length then t.index.rebuild (hashAt swept.2) swept.2.length else t.index
    rootSize := swept.1.foldl (fun size r => size - BitVec.ofNat 64 r.length) t.rootSize }

def insideOf (b e : Nat) (r : Root) : Bool := decide (b ≤ r.rStart) && decide (r.rEnd ≤ e)

def removeRootsInner (t : RootTable) (b e : Nat) : RootTable := removeWhere (insideOf b e) t

def removeTmpRoots (t : RootTable) : RootTable := removeWhere Root.rTmp t

inductive Op where
  | add (b e : Nat) (tmp : Bool)
  | remove (b e : Nat)
  | removeTmp
deriving Repr

def Op.takes : Op → Root → Bool
  | .add _ _ _, _ => false
  | .remove b e, r => insideOf b e r
  | .removeTmp, r => r.rTmp

def apply (maxRootSets : Nat) (t : RootTable) : Op → Option RootTable
  | .add b e tmp => addRootsInner maxRootSets t b e tmp
  | .remove b e => some (removeRootsInner t b e)
  | .removeTmp => some (removeTmpRoots t)

def applyAll (maxRootSets : Nat) (t : RootTable) (ops : List Op) : Option RootTable :=
  ops.foldlM (apply maxRootSets) t

end Model

section Invariant

def totalLength (roots : List Root) : Nat := (roots.map Root.length).sum

structure RootTable.Sound (t : RootTable) : Prop where
  proper : ∀ r ∈ t.roots, r.rStart < r.rEnd
  index : t.index.Threads (hashAt t.roots) t.roots.length
  size : t.rootSize = BitVec.ofNat 64 (totalLength t.roots)

def RootTable.Covers (t : RootTable) (a : Nat) : Prop := ∃ r ∈ t.roots, r.Contains a

variable {t t' : RootTable} {roots : List Root} {maxRootSets b e i : Nat} {tmp : Bool} {r old : Root}

theorem emptyTable_sound : emptyTable.Sound where
  proper _ hr := absurd hr not_mem_nil
  index := Index.cleared_threads ⟨fun _ => none,fun _ => none⟩ _
  size := rfl

theorem startAt_of_get (h : roots[i]? = some r) : startAt roots i = r.rStart := by
  rw [startAt,h]
  rfl

theorem startAt_set (h : roots[i]? = some old) (stop : Nat) (tmp : Bool) :
    startAt (roots.set i ⟨old.rStart, stop, tmp⟩) = startAt roots := by
  funext j
  by_cases hij : i = j
  · subst hij
    have hlt := (List.getElem?_eq_some_iff.mp h).1
    rw [startAt_of_get h,startAt_of_get (List.getElem?_set_self hlt)]
  · rw [startAt,startAt,List.getElem?_set_ne hij]

theorem startAt_append (h : i < roots.length) : startAt (roots ++ [r]) i = startAt roots i := by
  rw [startAt,startAt,List.getElem?_append_left h]

theorem startAt_append_self : startAt (roots ++ [r]) roots.length = r.rStart :=
  startAt_of_get (by simp)

theorem rootsPresent_eq (h : t.Sound) (b : Nat) :
    rootsPresent t b =
      (newest (startAt t.roots) b t.roots.length).bind fun i => t.roots[i]?.map fun old => (i, old) := by
  have hindex : t.index.Threads (fun i => rtHash (startAt t.roots i)) t.roots.length := h.index
  rw [rootsPresent,hindex.search_head]

theorem rootsPresent_eq_some (h : t.Sound) :
    rootsPresent t b = some (i, old) ↔
      newest (startAt t.roots) b t.roots.length = some i ∧ t.roots[i]? = some old := by
  rw [rootsPresent_eq h,bind_eq_some_iff]
  constructor
  · rintro ⟨j,hj,hold⟩
    obtain ⟨r,hr,heq⟩ := map_eq_some_iff.mp hold
    cases heq
    exact ⟨hj,hr⟩
  · rintro ⟨hi,hold⟩
    exact ⟨i,hi,by rw [hold]; rfl⟩

theorem rootsPresent_start (h : t.Sound) (hfound : rootsPresent t b = some (i, old)) : old.rStart = b := by
  obtain ⟨hi,hold⟩ := (rootsPresent_eq_some h).mp hfound
  rw [← startAt_of_get hold]
  exact (newest_eq_some.mp hi).2.1

theorem rootsPresent_set (h : t.Sound) (hfound : rootsPresent t b = some (i, old)) {stop : Nat}
    (ht' : t'.Sound) (hroots : t'.roots = t.roots.set i ⟨old.rStart, stop, tmp⟩) :
    rootsPresent t' b = some (i, ⟨old.rStart, stop, tmp⟩) := by
  obtain ⟨hi,hold⟩ := (rootsPresent_eq_some h).mp hfound
  rw [rootsPresent_eq_some ht',hroots,length_set,startAt_set hold]
  exact ⟨hi,List.getElem?_set_self (List.getElem?_eq_some_iff.mp hold).1⟩

theorem rootsPresent_append (h : t.Sound) (ht' : t'.Sound) (hroots : t'.roots = t.roots ++ [r]) :
    rootsPresent t' b = if r.rStart = b then some (t.roots.length, r) else rootsPresent t b := by
  rw [rootsPresent_eq ht',rootsPresent_eq h,hroots,length_append,length_singleton,newest,
    startAt_append_self]
  split
  · simp
  · rw [newest_congr fun i hi => startAt_append hi]
    cases hnewest : newest (startAt t.roots) b t.roots.length with
    | none => rfl
    | some i =>
      rw [bind_some,bind_some,List.getElem?_append_left (newest_eq_some.mp hnewest).1]

theorem addRootsInner_cases (hadd : addRootsInner maxRootSets t b e tmp = some t') :
    (alignDown e ≤ alignUp b ∧ t' = t) ∨
    (alignUp b < alignDown e ∧ rootsPresent t (alignUp b) = none ∧
      appendRoot maxRootSets t ⟨alignUp b, alignDown e, tmp⟩ = some t') ∨
    ∃ i old, alignUp b < alignDown e ∧ rootsPresent t (alignUp b) = some (i, old) ∧
      ((alignDown e ≤ old.rEnd ∧ t' = { t with roots := t.roots.set i { old with rTmp := old.rTmp && tmp } }) ∨
      (old.rEnd < alignDown e ∧ (old.rTmp = tmp ∨ tmp = false) ∧
        t' = { t with
          roots := t.roots.set i { old with rEnd := alignDown e, rTmp := tmp }
          rootSize := t.rootSize + BitVec.ofNat 64 (alignDown e - old.rEnd) }) ∨
      (old.rEnd < alignDown e ∧ old.rTmp = false ∧ tmp = true ∧
        appendRoot maxRootSets t ⟨old.rEnd, alignDown e, tmp⟩ = some t')) := by
  unfold addRootsInner at hadd
  dsimp only at hadd
  split at hadd
  · rename_i hle
    cases hadd
    exact .inl ⟨hle,rfl⟩
  · rename_i hlt
    refine .inr ?_
    cases hfound : rootsPresent t (alignUp b) with
    | none =>
      rw [hfound] at hadd
      exact .inl ⟨by omega,rfl,hadd⟩
    | some found =>
      obtain ⟨i,old⟩ := found
      rw [hfound] at hadd
      dsimp only at hadd
      refine .inr ⟨i,old,by omega,rfl,?_⟩
      split at hadd
      · rename_i hle
        cases hadd
        exact .inl ⟨hle,rfl⟩
      · split at hadd
        · rename_i hold
          cases hadd
          exact .inr (.inl ⟨by omega,hold,rfl⟩)
        · rename_i hold
          refine .inr (.inr ⟨by omega,?_,?_,hadd⟩)
          · cases htmp : old.rTmp <;> cases tmp <;> simp_all
          · cases tmp <;> simp_all

theorem appendRoot_cases (happend : appendRoot maxRootSets t r = some t') :
    t.roots.length ≠ maxRootSets ∧ t' = ⟨t.roots ++ [r], t.index.link (hashAt (t.roots ++ [r])) t.roots.length,
      t.rootSize + BitVec.ofNat 64 r.length⟩ := by
  unfold appendRoot at happend
  split at happend
  · cases happend
  · rename_i hroom
    cases happend
    exact ⟨hroom,rfl⟩

theorem totalLength_append (l l' : List Root) : totalLength (l ++ l') = totalLength l + totalLength l' := by
  simp [totalLength]

theorem totalLength_perm {l l' : List Root} (h : l.Perm l') : totalLength l = totalLength l' :=
  (h.map Root.length).sum_eq

theorem totalLength_set_add (hold : roots[i]? = some old) (r : Root) :
    totalLength (roots.set i r) + old.length = totalLength roots + r.length := by
  induction roots generalizing i with
  | nil => simp at hold
  | cons x xs ih =>
    cases i with
    | zero =>
      cases hold
      simp only [totalLength,set_cons_zero,map_cons,sum_cons]
      omega
    | succ i =>
      have hxs := ih hold
      simp only [totalLength,set_cons_succ,map_cons,sum_cons] at hxs ⊢
      omega

theorem totalLength_set (hold : roots[i]? = some old) {k : Nat} (hlen : r.length = old.length + k) :
    totalLength (roots.set i r) = totalLength roots + k := by
  have hadd := totalLength_set_add hold r
  omega

theorem appendRoot_sound (h : t.Sound) (hr : r.rStart < r.rEnd) (happend : appendRoot maxRootSets t r = some t') :
    t'.Sound := by
  obtain ⟨_,rfl⟩ := appendRoot_cases happend
  refine ⟨?_,?_,?_⟩
  · simpa [or_imp,forall_and] using ⟨h.proper,hr⟩
  · rw [length_append]
    refine (h.index.congr fun i hi => ?_).link
    rw [hashAt,hashAt,startAt_append hi]
  · rw [h.size,totalLength_append,BitVec.ofNat_add]
    simp [totalLength]

theorem RootTable.Sound.set (h : t.Sound) (hold : t.roots[i]? = some old) {stop : Nat} (hstop : old.rEnd ≤ stop)
    (tmp : Bool) :
    RootTable.Sound ⟨t.roots.set i ⟨old.rStart, stop, tmp⟩, t.index,
      t.rootSize + BitVec.ofNat 64 (stop - old.rEnd)⟩ := by
  have hproper := h.proper old (mem_of_getElem? hold)
  refine ⟨fun x hx => ?_,?_,?_⟩
  · rcases mem_or_eq_of_mem_set hx with hx | rfl
    · exact h.proper x hx
    · dsimp only
      omega
  · rw [length_set]
    exact h.index.congr fun j _ => by rw [hashAt,hashAt,startAt_set hold]
  · have hlen : Root.length ⟨old.rStart,stop,tmp⟩ = old.length + (stop - old.rEnd) := by
      unfold Root.length
      dsimp only
      omega
    rw [totalLength_set hold hlen,h.size,BitVec.ofNat_add]

theorem addRootsInner_sound (h : t.Sound) (hadd : addRootsInner maxRootSets t b e tmp = some t') : t'.Sound := by
  rcases addRootsInner_cases hadd with ⟨_,rfl⟩ | ⟨hlt,_,happend⟩ |
    ⟨i,old,hlt,hfound,⟨_,rfl⟩ | ⟨hend,_,rfl⟩ | ⟨hend,_,_,happend⟩⟩
  · exact h
  · exact appendRoot_sound h hlt happend
  · have hset := h.set ((rootsPresent_eq_some h).mp hfound).2 (Nat.le_refl _) (old.rTmp && tmp)
    rwa [Nat.sub_self,BitVec.add_zero] at hset
  · exact h.set ((rootsPresent_eq_some h).mp hfound).2 (Nat.le_of_lt hend) tmp
  · exact appendRoot_sound h hend happend

theorem foldl_sub_length (taken : List Root) (n : Nat) :
    taken.foldl (fun size r => size - BitVec.ofNat 64 r.length) (BitVec.ofNat 64 (totalLength taken + n)) =
      BitVec.ofNat 64 n := by
  induction taken with
  | nil => simp [totalLength]
  | cons r taken ih =>
    have hsum : totalLength (r :: taken) + n = totalLength taken + n + r.length := by
      simp only [totalLength,map_cons,sum_cons]
      omega
    rw [foldl_cons,hsum,BitVec.ofNat_add _ r.length,BitVec.add_sub_cancel,ih]

theorem removeWhere_sound (p : Root → Bool) (h : t.Sound) : (removeWhere p t).Sound := by
  have hperm := sweep_perm p t.roots
  refine ⟨fun r hr => ?_,?_,?_⟩
  · exact h.proper r (hperm.mem_iff.mp (mem_append_right _ hr))
  · rw [removeWhere]
    dsimp only
    split
    · exact Index.rebuild_threads _ _ _
    · rename_i hlen
      have hnil : (sweep p t.roots.length 0 t.roots).1 = [] := by
        have hsum := hperm.length_eq
        rw [length_append] at hsum
        exact eq_nil_of_length_eq_zero (by omega)
      rw [sweep_eq_of_nil _ _ _ _ hnil]
      exact h.index
  · rw [removeWhere]
    dsimp only
    rw [h.size,← totalLength_perm hperm,totalLength_append,foldl_sub_length]

theorem apply_sound (h : t.Sound) {op : Op} (happly : apply maxRootSets t op = some t') : t'.Sound := by
  cases op with
  | add b e tmp => exact addRootsInner_sound h happly
  | remove b e =>
    cases happly
    exact removeWhere_sound _ h
  | removeTmp =>
    cases happly
    exact removeWhere_sound _ h

theorem applyAll_sound (h : t.Sound) {ops : List Op} (happly : applyAll maxRootSets t ops = some t') :
    t'.Sound := by
  induction ops generalizing t with
  | nil =>
    cases happly
    exact h
  | cons op ops ih =>
    obtain ⟨mid,hmid,hrest⟩ := bind_eq_some_iff.mp happly
    exact ih (apply_sound h hmid) hrest

end Invariant

section Coverage

variable {t t' : RootTable} {maxRootSets b e a i : Nat} {tmp : Bool} {r old : Root} {op : Op} {ops : List Op}

theorem alignUp_le (ha : alignment ∣ a) (hb : b ≤ a) : alignUp b ≤ a := by
  unfold alignUp wordAdd wordMax alignment at *
  omega

theorem lt_alignDown (ha : alignment ∣ a) (he : a + alignment ≤ e) : a < alignDown e := by
  unfold alignDown alignment at *
  omega

theorem covers_set (hold : t.roots[i]? = some old) {stop : Nat} (hstop : old.rEnd ≤ stop)
    (hroots : t'.roots = t.roots.set i ⟨old.rStart, stop, tmp⟩)
    (hcovers : t.Covers a ∨ old.rStart ≤ a ∧ a < stop) : t'.Covers a := by
  have hlt := (List.getElem?_eq_some_iff.mp hold).1
  have hnew : ⟨old.rStart,stop,tmp⟩ ∈ t'.roots := hroots ▸ mem_set hlt _
  rcases hcovers with ⟨x,hx,hxa⟩ | hr
  · obtain ⟨j,hj⟩ := mem_iff_getElem?.mp hx
    by_cases hij : i = j
    · subst hij
      rw [hold] at hj
      cases hj
      exact ⟨_,hnew,hxa.1,Nat.lt_of_lt_of_le hxa.2 hstop⟩
    · refine ⟨x,?_,hxa⟩
      rw [hroots]
      exact mem_of_getElem? (by rw [List.getElem?_set_ne hij]; exact hj)
  · exact ⟨_,hnew,hr⟩

theorem covers_append (happend : appendRoot maxRootSets t r = some t') (hcovers : t.Covers a ∨ r.Contains a) :
    t'.Covers a := by
  obtain ⟨_,rfl⟩ := appendRoot_cases happend
  rcases hcovers with ⟨x,hx,hxa⟩ | hr
  · exact ⟨x,mem_append_left _ hx,hxa⟩
  · exact ⟨r,mem_append_right _ (mem_singleton.mpr rfl),hr⟩

theorem addRootsInner_covers (h : t.Sound) (hadd : addRootsInner maxRootSets t b e tmp = some t')
    (hcovers : t.Covers a ∨ alignUp b ≤ a ∧ a < alignDown e) : t'.Covers a := by
  rcases addRootsInner_cases hadd with ⟨hempty,rfl⟩ | ⟨hlt,_,happend⟩ | ⟨i,old,hlt,hfound,hcase⟩
  · rcases hcovers with hcovers | hrange
    · exact hcovers
    · omega
  · exact covers_append happend hcovers
  · obtain ⟨_,hold⟩ := (rootsPresent_eq_some h).mp hfound
    have hstart := rootsPresent_start h hfound
    rcases hcase with ⟨hend,rfl⟩ | ⟨hend,_,rfl⟩ | ⟨hend,_,_,happend⟩
    · refine covers_set hold (Nat.le_refl _) rfl (hcovers.imp_right fun hrange => ?_)
      exact ⟨hstart ▸ hrange.1,Nat.lt_of_lt_of_le hrange.2 hend⟩
    · refine covers_set hold (Nat.le_of_lt hend) rfl (hcovers.imp_right fun hrange => ?_)
      exact ⟨hstart ▸ hrange.1,hrange.2⟩
    · apply covers_append happend
      rcases hcovers with hcovers | hrange
      · exact .inl hcovers
      · rcases Nat.lt_or_ge a old.rEnd with hin | hout
        · exact .inl ⟨old,mem_of_getElem? hold,hstart ▸ hrange.1,hin⟩
        · exact .inr ⟨hout,hrange.2⟩

theorem removeWhere_covers (p : Root → Bool) (hr : r ∈ t.roots) (hkeep : p r = false) (ha : r.Contains a) :
    (removeWhere p t).Covers a := by
  refine ⟨r,?_,ha⟩
  rw [removeWhere]
  refine (sweep_kept p t.roots).mem_iff.mpr (mem_filter.mpr ⟨hr,?_⟩)
  rw [hkeep]
  rfl

def KeptBy (maxRootSets a : Nat) : List Op → RootTable → Prop
  | [], _ => True
  | op :: ops, t =>
      (∀ r ∈ t.roots, op.takes r = true → ¬ r.Contains a) ∧
        ∀ t', apply maxRootSets t op = some t' → KeptBy maxRootSets a ops t'

theorem apply_covers (h : t.Sound) (happly : apply maxRootSets t op = some t') (hcovers : t.Covers a)
    (hkept : ∀ r ∈ t.roots, op.takes r = true → ¬ r.Contains a) : t'.Covers a := by
  cases op with
  | add b e tmp => exact addRootsInner_covers h happly (.inl hcovers)
  | remove b e =>
    cases happly
    obtain ⟨r,hr,ha⟩ := hcovers
    exact removeWhere_covers _ hr (Bool.eq_false_iff.mpr fun htakes => hkept r hr htakes ha) ha
  | removeTmp =>
    cases happly
    obtain ⟨r,hr,ha⟩ := hcovers
    exact removeWhere_covers _ hr (Bool.eq_false_iff.mpr fun htakes => hkept r hr htakes ha) ha

theorem applyAll_covers (h : t.Sound) (happly : applyAll maxRootSets t ops = some t') (hcovers : t.Covers a)
    (hkept : KeptBy maxRootSets a ops t) : t'.Covers a := by
  induction ops generalizing t with
  | nil =>
    cases happly
    exact hcovers
  | cons op ops ih =>
    obtain ⟨mid,hmid,hrest⟩ := bind_eq_some_iff.mp happly
    exact ih (apply_sound h hmid) hrest (apply_covers h hmid hcovers hkept.1) (hkept.2 mid hmid)

end Coverage

section Repeating

variable {t t' : RootTable} {maxRootSets b e i : Nat} {tmp : Bool} {r old : Root}

/-- The last entry that starts where the range does is permanent and shorter, and the range is
temporary: only the rest of the range is recorded, at another start. -/
def Splits (t : RootTable) (b e : Nat) (tmp : Bool) : Prop :=
  tmp = true ∧ ∃ (i : Nat) (old : Root), t.roots[i]? = some old ∧ old.rStart = alignUp b ∧
    (∀ (j : Nat) (r : Root), i < j → t.roots[j]? = some r → r.rStart ≠ alignUp b) ∧
    old.rTmp = false ∧ old.rEnd < alignDown e

theorem splits_iff (h : t.Sound) :
    Splits t b e tmp ↔ tmp = true ∧ ∃ i old, rootsPresent t (alignUp b) = some (i, old) ∧
      old.rTmp = false ∧ old.rEnd < alignDown e := by
  refine and_congr_right fun _ => exists_congr fun i => exists_congr fun old => ?_
  rw [rootsPresent_eq_some h,newest_eq_some]
  constructor
  · rintro ⟨hget,hstart,hlater,hrest⟩
    refine ⟨⟨⟨(List.getElem?_eq_some_iff.mp hget).1,?_,fun j hij hj => ?_⟩,hget⟩,hrest⟩
    · rw [startAt_of_get hget,hstart]
    · have hr := List.getElem?_eq_getElem hj
      rw [startAt_of_get hr]
      exact hlater j _ hij hr
  · rintro ⟨⟨⟨_,hstart,hlater⟩,hget⟩,hrest⟩
    refine ⟨hget,?_,fun j r hij hr => ?_,hrest⟩
    · rw [← startAt_of_get hget,hstart]
    · rw [← startAt_of_get hr]
      exact hlater j hij (List.getElem?_eq_some_iff.mp hr).1

/-- Nothing changes if the last entry that starts there goes up to the end of the range and is
temporary only if the range is. -/
theorem addRootsInner_present (h : t.Sound) (hfound : rootsPresent t (alignUp b) = some (i, old))
    (hend : alignDown e ≤ old.rEnd) (htmp : (old.rTmp && tmp) = old.rTmp) :
    addRootsInner maxRootSets t b e tmp = some t := by
  obtain ⟨hlt,hold⟩ := List.getElem?_eq_some_iff.mp ((rootsPresent_eq_some h).mp hfound).2
  unfold addRootsInner
  dsimp only
  split
  · rfl
  · rw [hfound]
    dsimp only
    rw [if_pos hend,htmp,← hold,set_getElem_self]

theorem addRootsInner_split (hlt : alignUp b < alignDown e) (hfound : rootsPresent t (alignUp b) = some (i, old))
    (hend : old.rEnd < alignDown e) (htmp : old.rTmp = false) :
    addRootsInner maxRootSets t b e true = appendRoot maxRootSets t ⟨old.rEnd, alignDown e, true⟩ := by
  unfold addRootsInner
  dsimp only
  rw [if_neg (by omega),hfound]
  dsimp only
  rw [if_neg (by omega),if_neg (by simp [htmp])]

theorem appendRoot_ne (t : RootTable) : appendRoot maxRootSets t r ≠ some t := by
  intro happend
  obtain ⟨_,heq⟩ := appendRoot_cases happend
  have hlen := congrArg (fun t => t.roots.length) heq
  simp at hlen

theorem addRootsInner_twice (h : t.Sound) (hadd : addRootsInner maxRootSets t b e tmp = some t') :
    addRootsInner maxRootSets t' b e tmp = some t' ↔ ¬ Splits t b e tmp := by
  have h' := addRootsInner_sound h hadd
  rw [splits_iff h]
  rcases addRootsInner_cases hadd with ⟨hempty,rfl⟩ | ⟨hlt,hnone,happend⟩ | ⟨i,old,hlt,hfound,hcase⟩
  · refine iff_of_true hadd ?_
    rintro ⟨_,i,old,hfound,_,hend⟩
    have hproper := h.proper old (mem_of_getElem? ((rootsPresent_eq_some h).mp hfound).2)
    have hstart := rootsPresent_start h hfound
    omega
  · refine iff_of_true ?_ ?_
    · obtain ⟨_,heq⟩ := appendRoot_cases happend
      have hfound : rootsPresent t' (alignUp b) = some (t.roots.length, ⟨alignUp b,alignDown e,tmp⟩) := by
        rw [rootsPresent_append h h' (congrArg RootTable.roots heq),if_pos rfl]
      exact addRootsInner_present h' hfound (Nat.le_refl _) (Bool.and_self tmp)
    · rintro ⟨_,i,old,hfound,_⟩
      rw [hnone] at hfound
      cases hfound
  · rw [hfound]
    simp only [Option.some.injEq,Prod.mk.injEq]
    rcases hcase with ⟨hend,rfl⟩ | ⟨hend,hsame,rfl⟩ | ⟨hend,hperm,rfl,happend⟩
    · refine iff_of_true ?_ ?_
      · refine addRootsInner_present h' (rootsPresent_set h hfound h' rfl) hend ?_
        rw [Bool.and_assoc,Bool.and_self]
      · rintro ⟨_,_,_,⟨rfl,rfl⟩,_,hlt⟩
        omega
    · refine iff_of_true ?_ ?_
      · exact addRootsInner_present h' (rootsPresent_set h hfound h' rfl) (Nat.le_refl _) (Bool.and_self tmp)
      · rintro ⟨htmp,_,_,⟨rfl,rfl⟩,hold,_⟩
        rw [hold,htmp] at hsame
        simp at hsame
    · refine iff_of_false ?_ (not_not.mpr ⟨rfl,i,old,⟨rfl,rfl⟩,hperm,hend⟩)
      have hproper := h.proper old (mem_of_getElem? ((rootsPresent_eq_some h).mp hfound).2)
      have hstart := rootsPresent_start h hfound
      obtain ⟨_,heq⟩ := appendRoot_cases happend
      have hfound' : rootsPresent t' (alignUp b) = some (i, old) := by
        rw [rootsPresent_append h h' (congrArg RootTable.roots heq),if_neg (show old.rEnd ≠ alignUp b by omega),hfound]
      rw [addRootsInner_split hlt hfound' hend hperm]
      exact appendRoot_ne t'

end Repeating

section Runs

variable {maxRootSets : Nat} {ops : List Op} {t : RootTable}

/-- Every chain of the index holds the positions of its hash value, each once. -/
theorem RootTable.Sound.chain (h : t.Sound) (k : Nat) :
    ∃ chain, t.index.walk t.roots.length (t.index.head k) = some chain ∧ chain.Nodup ∧
      ∀ i, i ∈ chain ↔ i < t.roots.length ∧ hashAt t.roots i = k :=
  ⟨_,h.index.walk_head k,positions_nodup _ _ _,fun _ => mem_positions⟩

theorem applyAll_append (ops ops' : List Op) (t : RootTable) :
    applyAll maxRootSets t (ops ++ ops') = (applyAll maxRootSets t ops).bind (applyAll maxRootSets · ops') :=
  foldlM_append

theorem applyAll_add_covers {pre post : List Op} {b e a : Nat} {tmp : Bool}
    (hrun : applyAll maxRootSets emptyTable (pre ++ .add b e tmp :: post) = some t) (ha : alignment ∣ a)
    (hb : b ≤ a) (he : a + alignment ≤ e)
    (hkept : ∀ mid, applyAll maxRootSets emptyTable (pre ++ [.add b e tmp]) = some mid →
      KeptBy maxRootSets a post mid) : t.Covers a := by
  rw [applyAll_append] at hrun
  obtain ⟨before,hbefore,hrest⟩ := bind_eq_some_iff.mp hrun
  obtain ⟨mid,hmid,hpost⟩ := bind_eq_some_iff.mp hrest
  have hsound := applyAll_sound emptyTable_sound hbefore
  refine applyAll_covers (apply_sound hsound hmid) hpost ?_ (hkept mid ?_)
  · exact addRootsInner_covers hsound hmid (.inr ⟨alignUp_le ha hb,lt_alignDown ha he⟩)
  · rw [applyAll_append,hbefore,bind_some]
    exact bind_eq_some_iff.mpr ⟨mid,hmid,rfl⟩

/-- In every state reached `GC_root_size` is the sum of the lengths, the index reaches the recorded
entries, each word of an added range is covered until an entry with it is taken out, and adding a
range twice is adding it once unless the range is split. -/
theorem applyAll_accounted (hrun : applyAll maxRootSets emptyTable ops = some t) :
    t.rootSize = BitVec.ofNat 64 (totalLength t.roots) ∧
    (∀ k, ∃ chain, t.index.walk t.roots.length (t.index.head k) = some chain ∧ chain.Nodup ∧
      ∀ i, i ∈ chain ↔ i < t.roots.length ∧ hashAt t.roots i = k) ∧
    (∀ pre b e tmp post a, ops = pre ++ .add b e tmp :: post → alignment ∣ a → b ≤ a → a + alignment ≤ e →
      (∀ mid, applyAll maxRootSets emptyTable (pre ++ [.add b e tmp]) = some mid →
        KeptBy maxRootSets a post mid) → t.Covers a) ∧
    ∀ b e tmp t', addRootsInner maxRootSets t b e tmp = some t' →
      (addRootsInner maxRootSets t' b e tmp = some t' ↔ ¬ Splits t b e tmp) := by
  have hsound := applyAll_sound emptyTable_sound hrun
  refine ⟨hsound.size,hsound.chain,?_,fun b e tmp t' hadd => addRootsInner_twice hsound hadd⟩
  intro pre b e tmp post a hops ha hb he hkept
  subst hops
  exact applyAll_add_covers hrun ha hb he hkept

theorem applyAll_accounted_threeOps :
    ∃ t, applyAll 2048 emptyTable [.add 8 16 false, .add 32 48 true, .removeTmp] = some t ∧
      t.rootSize = BitVec.ofNat 64 (totalLength t.roots) ∧ t.roots = [⟨8, 16, false⟩] := by
  obtain ⟨t,hrun⟩ : ∃ t, applyAll 2048 emptyTable [.add 8 16 false,.add 32 48 true,.removeTmp] = some t :=
    ⟨_,rfl⟩
  refine ⟨t,hrun,(applyAll_accounted hrun).1,?_⟩
  have hroots : (applyAll 2048 emptyTable [.add 8 16 false,.add 32 48 true,.removeTmp]).map RootTable.roots =
      some [⟨8,16,false⟩] := by decide +kernel
  rw [hrun] at hroots
  exact Option.some.inj hroots

/-- A temporary range over a permanent one: each repetition records its rest once more. -/
theorem applyAll_add_repeated :
    (applyAll 2048 emptyTable [.add 8 16 false, .add 8 24 true]).map RootTable.roots =
        some [⟨8, 16, false⟩, ⟨16, 24, true⟩] ∧
      (applyAll 2048 emptyTable [.add 8 16 false, .add 8 24 true, .add 8 24 true]).map RootTable.roots =
        some [⟨8, 16, false⟩, ⟨16, 24, true⟩, ⟨16, 24, true⟩] :=
  ⟨by decide +kernel,by decide +kernel⟩

end Runs

end GcUtil.Roots.StaticRoots
