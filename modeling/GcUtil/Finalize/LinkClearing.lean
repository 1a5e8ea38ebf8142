import GcUtil.Finalize.Collection

/-! `GC_make_disappearing_links_disappear` on the memory the links are in: which bytes the two
passes write, which entries they unlink, and which mark bits they clear. -/
namespace GcUtil.Finalize.LinkClearing
open Tables Collection Library.ChainedTable

/-- `struct disappearing_link`, itself an object of the heap at `addr`. -/
structure Link where
  addr : Nat
  hiddenLink : Nat
  hiddenObj : Nat
  compressed : Bool
deriving DecidableEq, Repr

instance : HashChainEntry Link := ⟨Link.hiddenLink⟩

namespace Link

def location (e : Link) : Nat := revealPointer e.hiddenLink

def target (e : Link) : Nat := revealPointer e.hiddenObj

def width (e : Link) : Nat := if e.compressed then 4 else 8

def Occupies (e : Link) (x : Nat) : Prop := e.location ≤ x ∧ x < e.location + e.width
deriving Decidable

end Link

structure Store where
  isMarked : Nat → Bool
  mem : Nat → UInt8

namespace Store

def clearMarkBit (s : Store) (p : Nat) : Store := { s with isMarked := Function.update s.isMarked p false }

def clearLink (s : Store) (e : Link) : Store :=
  { s with mem := fun x => if e.Occupies x then 0 else s.mem x }

end Store

/-- The links themselves and the mark bits of the entries. `base` is `GC_base`. -/
def storeOps (base : Nat → Option Nat) : LinkOps Link Store where
  isMarked := Store.isMarked
  base _ := base
  location := Link.location
  target := Link.target
  clearLink e s := s.clearLink e
  clearMarkBit e s := s.clearMarkBit e.addr

def makeDisappearingLinksDisappear (base : Nat → Option Nat) :
    HashTbl Link → Bool → Store → HashTbl Link × Store :=
  Collection.makeDisappearingLinksDisappear (storeOps base)

/-- A table of links. Its entries are objects of the collector: no link refers to one of them
or is in one of them. -/
structure LinkTable (base : Nat → Option Nat) where
  tbl : HashTbl Link
  chained : tbl.Chained
  target_ne : ∀ e ∈ tbl.all, ∀ x ∈ tbl.all, e.target ≠ x.addr
  base_ne : ∀ e ∈ tbl.all, ∀ x ∈ tbl.all, base e.location ≠ some x.addr

def keeps (base : Nat → Option Nat) (isMarked : Nat → Bool) (isRemoveDangling : Bool) (e : Link) : Bool :=
  if isRemoveDangling then (base e.location).all isMarked else isMarked e.target

def dropLink (isRemoveDangling : Bool) (s : Store) (e : Link) : Store :=
  if isRemoveDangling then s.clearMarkBit e.addr else (s.clearLink e).clearMarkBit e.addr

section Removal

variable {base : Nat → Option Nat} {d : Bool} {s : Store} {e : Link} {l : List Link} {p x : Nat}

theorem disappear_eq : disappear (storeOps base) d s e =
    if keeps base s.isMarked d e then (true, s) else (false, dropLink d s e) := by
  unfold disappear storeOps
  cases d with
  | true => cases h : base e.location <;> simp [keeps,dropLink,h]
  | false => simp [keeps,dropLink]

theorem isMarked_dropLink (h : p ≠ e.addr) : (dropLink d s e).isMarked p = s.isMarked p := by
  cases d <;> simp [dropLink,Store.clearMarkBit,Store.clearLink,h]

theorem keeps_congr (L : LinkTable base) {isMarked isMarked' : Nat → Bool}
    (h : ∀ p, (∀ x ∈ L.tbl.all, p ≠ x.addr) → isMarked p = isMarked' p) (he : e ∈ L.tbl.all) :
    keeps base isMarked d e = keeps base isMarked' d e := by
  cases d with
  | false => exact h _ (L.target_ne e he)
  | true =>
    cases hbase : base e.location with
    | none => simp [keeps,hbase]
    | some b =>
      have hb := h b fun x hx hbx => L.base_ne e he x hx (hbx ▸ hbase)
      simp [keeps,hbase,hb]

theorem mem_foldl_clear : (l.foldl (dropLink false) s).mem x =
    if ∃ e ∈ l, e.Occupies x then 0 else s.mem x := by
  induction l generalizing s with
  | nil => simp
  | cons e es ih =>
    have hmem : (dropLink false s e).mem x = if e.Occupies x then 0 else s.mem x := rfl
    rw [List.foldl_cons,ih,hmem]
    simp only [List.exists_mem_cons_iff]
    by_cases he : e.Occupies x
    · simp [he]
    · simp [he]

theorem mem_foldl_dangling : (l.foldl (dropLink true) s).mem = s.mem := by
  induction l generalizing s with
  | nil => rfl
  | cons e es ih =>
    rw [List.foldl_cons,ih]
    rfl

end Removal

section Passes

variable {base : Nat → Option Nat} (L : LinkTable base) (d : Bool) (s : Store)

theorem sweepChain_disappear : sweepChain (disappear (storeOps base) d) L.tbl.all s =
    (L.tbl.all.filter (keeps base s.isMarked d),
      (L.tbl.all.filter fun e => !keeps base s.isMarked d e).foldl (dropLink d) s) := by
  apply sweepChain_eq_filter fun a => ∀ p, (∀ x ∈ L.tbl.all, p ≠ x.addr) → a.isMarked p = s.isMarked p
  · intro a ha e he
    rw [disappear_eq,keeps_congr L ha he]
  · intro a ha e he p hp
    rw [isMarked_dropLink (hp e he)]
    exact ha p hp
  · intro p _
    rfl

/-- A table from which exactly the entries that fail a test are gone, each chain keeping the
others in their order. -/
structure Removes (keep : Link → Bool) (t t' : HashTbl Link) : Prop where
  chain : ∀ i, t'.chain i = (t.chain i).filter keep
  entries : t'.entries + (t.all.filter fun e => !keep e).length = t.entries

theorem makeDisappearingLinksDisappear_removes :
    Removes (keeps base s.isMarked d) L.tbl (makeDisappearingLinksDisappear base L.tbl d s).1 where
  chain i := L.chained.chain_sweep (congrArg Prod.fst (sweepChain_disappear L d s)) i
  entries := by
    obtain ⟨_,_,_,_,hentries⟩ := HashTbl.sweep_eq (disappear (storeOps base) d) L.tbl s
    have hlen := List.length_eq_length_filter_add (l := L.tbl.all) (keeps base s.isMarked d)
    have hcounted := L.chained.counted
    rw [makeDisappearingLinksDisappear,Collection.makeDisappearingLinksDisappear,hentries,sweepChain_disappear]
    dsimp only
    omega

theorem makeDisappearingLinksDisappear_store : (makeDisappearingLinksDisappear base L.tbl d s).2 =
    (L.tbl.all.filter fun e => !keeps base s.isMarked d e).foldl (dropLink d) s := by
  rw [makeDisappearingLinksDisappear,Collection.makeDisappearingLinksDisappear,(HashTbl.sweep_eq _ _ _).2.1,
    sweepChain_disappear]

theorem makeDisappearingLinksDisappear_subset :
    (makeDisappearingLinksDisappear base L.tbl d s).1.all ⊆ L.tbl.all := by
  rw [makeDisappearingLinksDisappear,Collection.makeDisappearingLinksDisappear,(HashTbl.sweep_eq _ _ _).1]
  exact (sweepChain_sublist _ _ _).subset

def LinkTable.pass : LinkTable base where
  tbl := (makeDisappearingLinksDisappear base L.tbl d s).1
  chained := L.chained.sweep _ _
  target_ne e he x hx := L.target_ne e (makeDisappearingLinksDisappear_subset L d s he) x
    (makeDisappearingLinksDisappear_subset L d s hx)
  base_ne e he x hx := L.base_ne e (makeDisappearingLinksDisappear_subset L d s he) x
    (makeDisappearingLinksDisappear_subset L d s hx)

/-- Disappearing links are cleared exactly, and dangling ones forgotten exactly. -/
theorem makeDisappearingLinksDisappear_exact :
    (Removes (fun e => s.isMarked e.target) L.tbl (makeDisappearingLinksDisappear base L.tbl false s).1 ∧
      ∀ x, (makeDisappearingLinksDisappear base L.tbl false s).2.mem x =
        if ∃ e ∈ L.tbl.all, s.isMarked e.target = false ∧ e.Occupies x then 0 else s.mem x) ∧
    Removes (fun e => (base e.location).all s.isMarked) L.tbl
        (makeDisappearingLinksDisappear base L.tbl true s).1 ∧
      (makeDisappearingLinksDisappear base L.tbl true s).2.mem = s.mem := by
  refine ⟨⟨makeDisappearingLinksDisappear_removes L false s,?_⟩,
    makeDisappearingLinksDisappear_removes L true s,?_⟩
  · intro x
    rw [makeDisappearingLinksDisappear_store,mem_foldl_clear]
    simp [List.mem_filter,keeps,and_assoc]
  · rw [makeDisappearingLinksDisappear_store,mem_foldl_dangling]

/-- Objects of a page each from 4096 on. -/
def pageBase (p : Nat) : Option Nat := if p < 4096 then none else some (p / 4096 * 4096)

def cleared : Link := ⟨16, hidePointer 100, hidePointer 4096, true⟩

def dangling : Link := ⟨32, hidePointer 8200, hidePointer 12288, false⟩

def kept : Link := ⟨48, hidePointer 200, hidePointer 12288, false⟩

def threeLinks : LinkTable pageBase where
  tbl := ⟨some fun i => if i = 0 then [cleared, dangling, kept] else [], 0, 3⟩
  chained :=
    { fresh := fun _ => rfl
      placed := fun i e he => by
        by_cases hi : i = 0
        · subst hi
          exact Nat.and_zero _
        · simp [HashTbl.chain,hi] at he
      counted := rfl }
  target_ne := by decide
  base_ne := by decide

/-- Only the object at 12288 is marked. -/
def oneMarked : Store := ⟨fun p => p == 12288, fun _ => 1⟩

theorem makeDisappearingLinksDisappear_exact_links :
    let first := makeDisappearingLinksDisappear pageBase threeLinks.tbl false oneMarked
    let second := makeDisappearingLinksDisappear pageBase threeLinks.tbl true oneMarked
    first.1.chain 0 = [dangling, kept] ∧ first.1.entries = 2 ∧
      [99, 100, 103, 104, 200, 8200].map first.2.mem = [1, 0, 0, 1, 1, 1] ∧
      second.1.chain 0 = [cleared, kept] ∧ second.2.mem = oneMarked.mem := by
  obtain ⟨⟨hfirst,hmem⟩,hsecond,hsame⟩ := makeDisappearingLinksDisappear_exact threeLinks oneMarked
  refine ⟨(hfirst.chain 0).trans (by decide +kernel),Nat.add_right_cancel hfirst.entries,?_,
    (hsecond.chain 0).trans (by decide +kernel),hsame⟩
  simp only [List.map_cons,List.map_nil,hmem]
  decide +kernel

end Passes

end GcUtil.Finalize.LinkClearing
