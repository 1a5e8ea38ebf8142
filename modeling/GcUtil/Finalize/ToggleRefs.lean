import GcUtil.Finalize.Tables

/-! The array of toggle references of `finalize.c`: adding a reference with the growth of the array,
the pass that asks the callback about every object, and the pass that clears weak references. An
allocation may start a collection, so that passes also run while the array is being replaced. -/
namespace GcUtil.Finalize.ToggleRefs
open Basic Tables Function List

section Model

inductive Status where
  | drop
  | strong
  | weak
deriving DecidableEq, Repr

/-- `GC_toggleref_arr` with what its positions hold, and the length it was allocated with;
`nullCalled` says that `GC_toggleref_callback` was called while it was 0. -/
structure RefArray where
  cells : Nat → Nat
  allocated : Option Nat
  size : Nat
  capacity : Nat
  callbackSet : Bool
  nullCalled : Bool

def initial : RefArray := ⟨fun _ => 0, none, 0, 0, false, false⟩

def RefArray.length (s : RefArray) : Nat := s.allocated.getD 0

def RefArray.entries (s : RefArray) : List Nat := (List.range s.size).map s.cells

/-- The object of a reference. -/
def objOf (ref : Nat) : Option Nat :=
  let obj := if ref % 2 = 1 then revealPointer ref else ref
  if obj = 0 then none else some obj

def refFor : Status → Nat → Option Nat
  | .drop, _ => none
  | .strong, obj => some obj
  | .weak, obj => some (hidePointer obj)

/-- The loop of `GC_process_togglerefs` over the `left` positions from `i` on, the answers of the
callback given by the position. -/
def processLoop (answer : Nat → Status) : (left i newSize : Nat) → (Nat → Nat) → (Nat → Nat) × Nat
  | 0, _, newSize, cells => (cells, newSize)
  | left + 1, i, newSize, cells =>
      match (objOf (cells i)).bind (refFor (answer i)) with
      | none => processLoop answer left (i + 1) newSize cells
      | some ref => processLoop answer left (i + 1) (newSize + 1) (Function.update cells newSize ref)

def processTogglerefs (answer : Nat → Status) (s : RefArray) : RefArray :=
  let done := processLoop answer s.size 0 0 s.cells
  { s with
    cells := fun i => if done.2 ≤ i ∧ i < s.size then 0 else done.1 i
    size := done.2
    -- the callback is not tested before it is called
    nullCalled := s.nullCalled || (!s.callbackSet && s.entries.any fun ref => (objOf ref).isSome) }

def clearTogglerefs (marked : Nat → Bool) (s : RefArray) : RefArray :=
  { s with cells := fun i => if i < s.size then clearToggleref marked (s.cells i) else s.cells i }

inductive Pass where
  | process (answer : Nat → Status)
  | clear (marked : Nat → Bool)

def Pass.run : Pass → RefArray → RefArray
  | .process answer => processTogglerefs answer
  | .clear marked => clearTogglerefs marked

structure Allocation where
  passes : List Pass
  succeeds : Bool

def Allocation.collect (a : Allocation) (s : RefArray) : RefArray := a.passes.foldl (fun s p => p.run s) s

def arrayLength (capacity : Nat) : Nat := capacity * 8 % (wordMax + 1) / 8

/-- The loop that doubles the capacity, with `FALSE` on an overflow. More than 64 doublings do not occur. -/
def doubleCapacity (target : Nat) : Nat → Nat → Bool × Nat
  | 0, capacity => (false, capacity)
  | turns + 1, capacity =>
      if capacity < target then
        let doubled := capacity * 2 % (wordMax + 1)
        if sizetSignb ≤ doubled then (false, doubled) else doubleCapacity target turns doubled
      else (true, capacity)

def ensureArray (a : Allocation) (s : RefArray) : Bool × RefArray :=
  match s.allocated with
  | some _ => (true, s)
  | none =>
      let s := a.collect { s with capacity := 32 }
      if a.succeeds then (true, { s with cells := fun _ => 0, allocated := some (arrayLength s.capacity) })
      else (false, s)

/-- The second part: the array is replaced by one of the present capacity. -/
def growArray (a : Allocation) (inc : Nat) (s : RefArray) : Bool × RefArray :=
  if s.capacity ≤ s.size + inc then
    let doubled := doubleCapacity (s.size + inc) 64 s.capacity
    let s := { s with capacity := doubled.2 }
    if doubled.1 then
      let s := a.collect s
      if a.succeeds then
        (true, { s with
          cells := fun i => if i < s.size then s.cells i else 0
          allocated := some (arrayLength s.capacity) })
      else (false, s)
    else (false, s)
  else (true, s)

def ensureTogglerefCapacity (first second : Allocation) (inc : Nat) (s : RefArray) : Bool × RefArray :=
  let array := ensureArray first s
  if array.1 then growArray second inc array.2 else array

/-- `GC_toggleref_add`, with whether the result is `GC_SUCCESS`. -/
def togglerefAdd (first second : Allocation) (obj : Nat) (isStrongRef : Bool) (s : RefArray) : Bool × RefArray :=
  if s.callbackSet then
    let ensured := ensureTogglerefCapacity first second 1 s
    if ensured.1 then
      let s := ensured.2
      let ref := if isStrongRef then obj else hidePointer obj
      (true, { s with cells := Function.update s.cells s.size ref, size := s.size + 1 })
    else ensured
  else (true, s)

inductive Op where
  | setFunc (callbackSet : Bool)
  | add (first second : Allocation) (obj : Nat) (isStrongRef : Bool)
  | pass (p : Pass)

def Op.run : Op → RefArray → RefArray
  | .setFunc callbackSet, s => { s with callbackSet := callbackSet }
  | .add first second obj isStrongRef, s => (togglerefAdd first second obj isStrongRef s).2
  | .pass p, s => p.run s

def states : RefArray → List Op → List RefArray
  | s, [] => [s]
  | s, op :: ops => s :: states (op.run s) ops

end Model

section Passes

variable {answer : Nat → Status} {marked : Nat → Bool} {s : RefArray} {cells : Nat → Nat}

def kept (answer : Nat → Status) (cells : Nat → Nat) (i : Nat) : Option Nat :=
  (objOf (cells i)).bind (refFor (answer i))

theorem processLoop_spec (left i newSize : Nat) (hle : newSize ≤ i) :
    (List.range (processLoop answer left i newSize cells).2).map (processLoop answer left i newSize cells).1 =
      (List.range newSize).map cells ++ (List.range' i left).filterMap (kept answer cells) := by
  induction left generalizing i newSize cells with
  | zero => simp [processLoop]
  | succ left ih =>
    have hrest : ∀ ref, (List.range' (i + 1) left).filterMap (kept answer (update cells newSize ref)) =
        (List.range' (i + 1) left).filterMap (kept answer cells) := by
      intro ref
      refine filterMap_congr fun j hj => ?_
      have hij := (mem_range'_1.mp hj).1
      rw [kept,kept,update_of_ne (by omega)]
    rw [range'_succ,filterMap_cons]
    cases hkept : kept answer cells i with
    | none =>
      have hstep : processLoop answer (left + 1) i newSize cells = processLoop answer left (i + 1) newSize cells := by
        rw [processLoop,← kept,hkept]
      rw [hstep]
      exact ih (i + 1) newSize (by omega)
    | some ref =>
      have hstep : processLoop answer (left + 1) i newSize cells =
          processLoop answer left (i + 1) (newSize + 1) (update cells newSize ref) := by
        rw [processLoop,← kept,hkept]
      rw [hstep,ih (i + 1) (newSize + 1) (by omega),hrest,range_succ,map_append,append_assoc]
      congr 1
      · refine map_congr_left fun j hj => ?_
        rw [update_of_ne (by have := mem_range.mp hj; omega)]
      · simp

theorem processLoop_size (left i newSize : Nat) :
    (processLoop answer left i newSize cells).2 ≤ newSize + left := by
  induction left generalizing i newSize cells with
  | zero => exact Nat.le_refl _
  | succ left ih =>
    rw [processLoop]
    split
    · have := @ih cells (i + 1) newSize
      omega
    · rename_i ref _
      have := @ih (update cells newSize ref) (i + 1) (newSize + 1)
      omega

theorem processTogglerefs_entries (answer : Nat → Status) (s : RefArray) :
    (processTogglerefs answer s).entries = (List.range s.size).filterMap (kept answer s.cells) := by
  have hloop := @processLoop_spec answer s.cells s.size 0 0 (Nat.le_refl 0)
  rw [range_zero,map_nil,nil_append,← range_eq_range'] at hloop
  rw [← hloop,RefArray.entries]
  refine map_congr_left fun i hi => ?_
  have hi := mem_range.mp hi
  rw [processTogglerefs] at hi ⊢
  dsimp only at hi ⊢
  rw [if_neg (by omega)]

end Passes

section Bounds

variable {s s' : RefArray} {a first second : Allocation}

structure RefArray.Within (s : RefArray) : Prop where
  size_le : s.size ≤ s.capacity
  fits : s.capacity ≤ s.length
  safe : s.nullCalled = false

structure RefArray.Inv (s : RefArray) : Prop where
  size_le : s.size ≤ s.capacity
  fits : s.capacity = s.length
  bound : s.allocated ≠ none → 0 < s.capacity ∧ s.capacity < 2 ^ 61
  safe : s.nullCalled = false

theorem RefArray.Inv.within (h : s.Inv) : s.Within := ⟨h.size_le,Nat.le_of_eq h.fits,h.safe⟩

structure Shrunk (s s' : RefArray) : Prop where
  allocated : s'.allocated = s.allocated
  capacity : s'.capacity = s.capacity
  callbackSet : s'.callbackSet = s.callbackSet
  size : s'.size ≤ s.size
  safe : s.callbackSet = true → s'.nullCalled = s.nullCalled

theorem Pass.run_shrunk (p : Pass) (s : RefArray) : Shrunk s (p.run s) := by
  cases p with
  | process answer =>
    have hsize := @processLoop_size answer s.cells s.size 0 0
    rw [Nat.zero_add] at hsize
    exact ⟨rfl,rfl,rfl,hsize,fun hset => by simp [Pass.run,processTogglerefs,hset]⟩
  | clear marked => exact ⟨rfl,rfl,rfl,Nat.le_refl _,fun _ => rfl⟩

theorem Allocation.collect_shrunk (a : Allocation) (s : RefArray) : Shrunk s (a.collect s) := by
  unfold Allocation.collect
  generalize a.passes = passes
  induction passes generalizing s with
  | nil => exact ⟨rfl,rfl,rfl,Nat.le_refl _,fun _ => rfl⟩
  | cons p passes ih =>
    have hp := p.run_shrunk s
    have hrest := ih (p.run s)
    exact ⟨hrest.allocated.trans hp.allocated,hrest.capacity.trans hp.capacity,
      hrest.callbackSet.trans hp.callbackSet,Nat.le_trans hrest.size hp.size,
      fun hset => (hrest.safe (hp.callbackSet.trans hset)).trans (hp.safe hset)⟩

theorem Shrunk.inv (h : Shrunk s s') (hinv : s.Inv) (hsafe : s'.nullCalled = false) : s'.Inv where
  size_le := by
    have := hinv.size_le
    rw [h.capacity]
    exact Nat.le_trans h.size this
  fits := by
    rw [RefArray.length,h.allocated,h.capacity]
    exact hinv.fits
  bound hn := by
    rw [h.capacity]
    exact hinv.bound (h.allocated ▸ hn)
  safe := hsafe

theorem doubleCapacity_of_le {target capacity turns : Nat} (h : target ≤ capacity) :
    doubleCapacity target (turns + 1) capacity = (true, capacity) := by
  rw [doubleCapacity,if_neg (by omega)]

theorem doubleCapacity_once {capacity turns : Nat} (hpos : 0 < capacity) (hlt : capacity < 2 ^ 61) :
    doubleCapacity (capacity + 1) (turns + 2) capacity = (true, capacity * 2) := by
  have hdoubled : capacity * 2 % (wordMax + 1) = capacity * 2 := Nat.mod_eq_of_lt (by unfold wordMax; omega)
  rw [doubleCapacity,if_pos (by omega),hdoubled,if_neg (by unfold sizetSignb; omega),doubleCapacity_of_le (by omega)]

theorem arrayLength_of_lt {capacity : Nat} (h : capacity < 2 ^ 61) : arrayLength capacity = capacity := by
  unfold arrayLength wordMax
  omega

theorem le_arrayLength_double {capacity : Nat} (hpos : 0 < capacity) (h : capacity < 2 ^ 61) :
    capacity * 2 ≤ arrayLength (capacity * 2) ↔ capacity < 2 ^ 60 := by
  unfold arrayLength wordMax
  omega

theorem ensureArray_none (hnone : s.allocated = none) :
    (ensureArray a s).1 = a.succeeds ∧ (ensureArray a s).2.capacity = 32 ∧ (ensureArray a s).2.size ≤ s.size ∧
      (ensureArray a s).2.allocated = if a.succeeds then some 32 else none := by
  obtain ⟨cells,allocated,size,capacity,callbackSet,nullCalled⟩ := s
  obtain rfl : allocated = none := hnone
  have hshrunk := a.collect_shrunk ⟨cells,none,size,32,callbackSet,nullCalled⟩
  rw [ensureArray]
  dsimp only
  split
  · rename_i hok
    refine ⟨hok.symm,hshrunk.capacity,hshrunk.size,?_⟩
    rw [hshrunk.capacity]
    exact congrArg some (arrayLength_of_lt (by norm_num))
  · rename_i hfail
    exact ⟨(Bool.eq_false_iff.mpr hfail).symm,hshrunk.capacity,hshrunk.size,hshrunk.allocated⟩

theorem ensureArray_some {n : Nat} (hsome : s.allocated = some n) : ensureArray a s = (true, s) := by
  rw [ensureArray,hsome]

theorem growArray_cases (h : s.Inv) (hsome : s.allocated ≠ none) :
    (s.size + 1 < s.capacity ∧ growArray a 1 s = (true, s)) ∨
    (s.size + 1 = s.capacity ∧ (growArray a 1 s).1 = a.succeeds ∧
      Shrunk s { (growArray a 1 s).2 with allocated := s.allocated } ∧
      (growArray a 1 s).2.allocated = if a.succeeds then some s.capacity else s.allocated) ∨
    (s.size = s.capacity ∧ (growArray a 1 s).1 = a.succeeds ∧
      Shrunk { s with capacity := s.capacity * 2 } { (growArray a 1 s).2 with allocated := s.allocated } ∧
      (growArray a 1 s).2.allocated = if a.succeeds then some (arrayLength (s.capacity * 2)) else s.allocated) := by
  obtain ⟨hpos,hcap⟩ := h.bound hsome
  have hsize := h.size_le
  have hgrow : ∀ doubled, doubleCapacity (s.size + 1) 64 s.capacity = (true, doubled) → s.capacity ≤ s.size + 1 →
      (growArray a 1 s).1 = a.succeeds ∧
      Shrunk { s with capacity := doubled } { (growArray a 1 s).2 with allocated := s.allocated } ∧
      (growArray a 1 s).2.allocated = if a.succeeds then some (arrayLength doubled) else s.allocated := by
    intro doubled hdoubled hle
    have hshrunk := a.collect_shrunk { s with capacity := doubled }
    rw [growArray,if_pos hle,hdoubled]
    dsimp only
    rw [if_pos rfl]
    split
    · rename_i hok
      refine ⟨hok.symm,⟨rfl,hshrunk.capacity,hshrunk.callbackSet,hshrunk.size,hshrunk.safe⟩,?_⟩
      rw [hshrunk.capacity]
    · rename_i hfail
      exact ⟨(Bool.eq_false_iff.mpr hfail).symm,
        ⟨rfl,hshrunk.capacity,hshrunk.callbackSet,hshrunk.size,hshrunk.safe⟩,hshrunk.allocated⟩
  rcases Nat.lt_trichotomy (s.size + 1) s.capacity with hroom | hlast | hfull
  · refine .inl ⟨hroom,?_⟩
    rw [growArray,if_neg (by omega)]
  · have hsame := hgrow s.capacity (doubleCapacity_of_le (by omega)) (by omega)
    rw [arrayLength_of_lt hcap] at hsame
    exact .inr (.inl ⟨hlast,hsame⟩)
  · have heq : s.size = s.capacity := by omega
    refine .inr (.inr ⟨heq,hgrow _ ?_ (by omega)⟩)
    rw [heq]
    exact doubleCapacity_once hpos hcap

/-- The condition on an operation: an array that is missing or full gets its memory, the bytes of
the new one do not wrap around, and references are processed with a callback set. -/
def Served (s : RefArray) : Op → Prop
  | .add first second _ _ => s.callbackSet = true →
      (s.allocated = none → first.succeeds = true) ∧
      (s.allocated ≠ none → s.capacity ≤ s.size → second.succeeds = true ∧ s.capacity < 2 ^ 60)
  | .pass (.process _) => s.callbackSet = true ∨ ∀ ref ∈ s.entries, objOf ref = none
  | _ => True

theorem initial_inv : initial.Inv where
  size_le := Nat.le_refl 0
  fits := rfl
  bound h := absurd rfl h
  safe := rfl

theorem ensureArray_safe (hset : s.callbackSet = true) :
    (ensureArray a s).2.callbackSet = true ∧ (ensureArray a s).2.nullCalled = s.nullCalled := by
  have hshrunk := a.collect_shrunk { s with capacity := 32 }
  unfold ensureArray
  split
  · exact ⟨hset,rfl⟩
  · dsimp only
    split <;> exact ⟨hshrunk.callbackSet.trans hset,hshrunk.safe hset⟩

theorem growArray_safe (hset : s.callbackSet = true) (inc : Nat) :
    (growArray a inc s).2.nullCalled = s.nullCalled := by
  have hshrunk := a.collect_shrunk { s with capacity := (doubleCapacity (s.size + inc) 64 s.capacity).2 }
  unfold growArray
  dsimp only
  split_ifs
  · exact hshrunk.safe hset
  · exact hshrunk.safe hset
  · rfl
  · rfl

theorem togglerefAdd_safe (hset : s.callbackSet = true) (obj : Nat) (isStrongRef : Bool) :
    (togglerefAdd first second obj isStrongRef s).2.nullCalled = s.nullCalled := by
  obtain ⟨hset',hfirst⟩ := @ensureArray_safe s first hset
  have hensured : (ensureTogglerefCapacity first second 1 s).2.nullCalled = s.nullCalled := by
    unfold ensureTogglerefCapacity
    dsimp only
    split
    · exact (growArray_safe hset' 1).trans hfirst
    · exact hfirst
  unfold togglerefAdd
  rw [if_pos hset]
  dsimp only
  split <;> exact hensured

theorem togglerefAdd_run (hset : s.callbackSet = true) (obj : Nat) (isStrongRef : Bool) :
    let ensured := ensureTogglerefCapacity first second 1 s
    let s' := (togglerefAdd first second obj isStrongRef s).2
    s'.allocated = ensured.2.allocated ∧ s'.capacity = ensured.2.capacity ∧
      s'.size = ensured.2.size + ensured.1.toNat := by
  dsimp only
  rw [togglerefAdd,if_pos hset]
  dsimp only
  split
  · rename_i hok
    rw [hok]
    exact ⟨rfl,rfl,rfl⟩
  · rename_i hfail
    rw [Bool.eq_false_iff.mpr hfail]
    exact ⟨rfl,rfl,rfl⟩

theorem ensureTogglerefCapacity_cases (h : s.Inv) :
    let ensured := ensureTogglerefCapacity first second 1 s
    (s.allocated = none ∧ ensured.1 = first.succeeds ∧ ensured.2.capacity = 32 ∧ ensured.2.size = 0 ∧
      ensured.2.length = if first.succeeds then 32 else 0) ∨
    (s.allocated ≠ none ∧ s.size < s.capacity ∧ ensured.2.capacity = s.capacity ∧
      ensured.2.size + ensured.1.toNat ≤ s.capacity ∧ ensured.2.length = s.capacity) ∨
    (s.allocated ≠ none ∧ s.size = s.capacity ∧ ensured.2.capacity = s.capacity * 2 ∧
      ensured.2.size + ensured.1.toNat ≤ s.capacity * 2 ∧
      ensured.2.length = if second.succeeds then arrayLength (s.capacity * 2) else s.capacity) := by
  dsimp only
  cases hallocated : s.allocated with
  | none =>
    have hzero : s.size = 0 := by
      have hsize := h.size_le
      rw [h.fits,RefArray.length,hallocated,Option.getD_none] at hsize
      omega
    obtain ⟨hok,hcap,hsize,harray⟩ := @ensureArray_none s first hallocated
    rw [hzero,Nat.le_zero] at hsize
    refine .inl ⟨rfl,?_⟩
    rw [ensureTogglerefCapacity,hok]
    cases hfirst : first.succeeds with
    | false =>
      rw [hfirst] at hok harray
      rw [if_neg Bool.false_ne_true]
      exact ⟨hok,hcap,hsize,by rw [RefArray.length,harray]; rfl⟩
    | true =>
      rw [hfirst] at harray
      rw [if_pos rfl,growArray,if_neg (by omega)]
      exact ⟨rfl,hcap,hsize,by rw [RefArray.length,harray]; rfl⟩
  | some n =>
    have hsome : s.allocated ≠ none := by rw [hallocated]; exact Option.some_ne_none n
    obtain ⟨hpos,_⟩ := h.bound hsome
    have hlen : s.length = s.capacity := h.fits.symm
    refine .inr ?_
    rw [ensureTogglerefCapacity,ensureArray_some hallocated]
    dsimp only
    rw [if_pos rfl]
    rcases @growArray_cases s second h hsome with ⟨hroom,heq⟩ | ⟨hlast,hok,hshrunk,harray⟩ |
      ⟨hfull,hok,hshrunk,harray⟩
    · rw [heq]
      exact .inl ⟨Option.some_ne_none n,by omega,rfl,Nat.le_of_lt hroom,hlen⟩
    · have hsize : (growArray second 1 s).2.size ≤ s.size := hshrunk.size
      have hbit := Bool.toNat_le (growArray second 1 s).1
      refine .inl ⟨Option.some_ne_none n,by omega,hshrunk.capacity,by omega,?_⟩
      rw [RefArray.length,harray]
      split
      · rfl
      · exact hlen
    · have hsize : (growArray second 1 s).2.size ≤ s.size := hshrunk.size
      have hbit := Bool.toNat_le (growArray second 1 s).1
      refine .inr ⟨Option.some_ne_none n,hfull,hshrunk.capacity,by omega,?_⟩
      rw [RefArray.length,harray]
      split
      · rfl
      · exact hlen

theorem togglerefAdd_iff (h : s.Inv) (hset : s.callbackSet = true) (obj : Nat) (isStrongRef : Bool) :
    (Served s (.add first second obj isStrongRef) → (togglerefAdd first second obj isStrongRef s).2.Inv) ∧
    ((togglerefAdd first second obj isStrongRef s).2.Within → Served s (.add first second obj isStrongRef)) := by
  obtain ⟨hallocated,hcap,hsize⟩ := @togglerefAdd_run s first second hset obj isStrongRef
  have hlen : (togglerefAdd first second obj isStrongRef s).2.length =
      (ensureTogglerefCapacity first second 1 s).2.length := congrArg (Option.getD · 0) hallocated
  have hsafe := (@togglerefAdd_safe s first second hset obj isStrongRef).trans h.safe
  rcases @ensureTogglerefCapacity_cases s first second h with ⟨hnone,hok,hcap',hsize',hlen'⟩ |
    ⟨hsome,hroom,hcap',hsize',hlen'⟩ | ⟨hsome,hfull,hcap',hsize',hlen'⟩
  · rw [hok] at hsize
    constructor
    · intro hserved
      rw [(hserved hset).1 hnone] at hsize hlen'
      rw [if_pos rfl] at hlen'
      exact ⟨by rw [hsize,hsize',hcap,hcap']; decide,by rw [hcap,hcap',hlen,hlen'],
        fun _ => by rw [hcap,hcap']; norm_num,hsafe⟩
    · intro hwithin
      have hfits := hwithin.fits
      rw [hcap,hcap',hlen,hlen'] at hfits
      refine fun _ => ⟨fun _ => ?_,fun hsome => absurd hnone hsome⟩
      by_contra hfail
      rw [if_neg hfail] at hfits
      omega
  · constructor
    · intro _
      exact ⟨by omega,by omega,fun _ => by rw [hcap,hcap']; exact h.bound hsome,hsafe⟩
    · intro _
      exact fun _ => ⟨fun hnone => absurd hnone hsome,fun _ hle => by omega⟩
  · obtain ⟨hpos,hlt⟩ := h.bound hsome
    have hdouble := le_arrayLength_double hpos hlt
    constructor
    · intro hserved
      obtain ⟨hok,hbytes⟩ := (hserved hset).2 hsome (Nat.le_of_eq hfull.symm)
      rw [if_pos hok,arrayLength_of_lt (by omega)] at hlen'
      exact ⟨by omega,by omega,fun _ => by omega,hsafe⟩
    · intro hwithin
      have hfits := hwithin.fits
      rw [hcap,hcap',hlen,hlen'] at hfits
      refine fun _ => ⟨fun hnone => absurd hnone hsome,fun _ _ => ?_⟩
      by_cases hok : second.succeeds = true
      · rw [if_pos hok] at hfits
        exact ⟨hok,hdouble.mp hfits⟩
      · rw [if_neg hok] at hfits
        omega

theorem processTogglerefs_safe (hsafe : s.nullCalled = false) (answer : Nat → Status) :
    (processTogglerefs answer s).nullCalled = false ↔ Served s (.pass (.process answer)) := by
  simp only [processTogglerefs,hsafe,Served,Bool.false_or]
  cases s.callbackSet <;> simp

theorem Op.run_iff (h : s.Inv) (op : Op) :
    (Served s op → (op.run s).Inv) ∧ ((op.run s).Within → Served s op) := by
  cases op with
  | setFunc callbackSet => exact ⟨fun _ => ⟨h.size_le,h.fits,h.bound,h.safe⟩,fun _ => trivial⟩
  | pass p =>
    cases p with
    | process answer =>
      have hsafe := processTogglerefs_safe h.safe answer
      exact ⟨fun hserved => (Pass.run_shrunk (.process answer) s).inv h (hsafe.mpr hserved),
        fun hwithin => hsafe.mp hwithin.safe⟩
    | clear marked => exact ⟨fun _ => (Pass.run_shrunk (.clear marked) s).inv h h.safe,fun _ => trivial⟩
  | add first second obj isStrongRef =>
    by_cases hset : s.callbackSet = true
    · exact togglerefAdd_iff h hset obj isStrongRef
    · have hrun : (Op.add first second obj isStrongRef).run s = s := by
        rw [Op.run,togglerefAdd,if_neg hset]
      rw [hrun]
      exact ⟨fun _ => h,fun _ hset' => absurd hset' hset⟩

end Bounds

section Runs

variable {s : RefArray}

def AllServed : RefArray → List Op → Prop
  | _, [] => True
  | s, op :: ops => Served s op ∧ AllServed (op.run s) ops

theorem states_within_iff (h : s.Inv) (ops : List Op) : (∀ x ∈ states s ops, x.Within) ↔ AllServed s ops := by
  induction ops generalizing s with
  | nil => simp [states,AllServed,h.within]
  | cons op ops ih =>
    obtain ⟨hserved,hwithin⟩ := op.run_iff h
    have hhead : op.run s ∈ states (op.run s) ops := by cases ops <;> exact mem_cons_self
    simp only [states,AllServed,forall_mem_cons]
    constructor
    · rintro ⟨_,hall⟩
      have hop := hwithin (hall _ hhead)
      exact ⟨hop,(ih (hserved hop)).mp hall⟩
    · rintro ⟨hop,hops⟩
      exact ⟨h.within,(ih (hserved hop)).mpr hops⟩

/-- In all states of a run the size is at most the capacity, the capacity at most the length of the
array and no missing callback was called, if and only if every operation met its condition. Where
the callback can be called, processing is exact. -/
theorem states_exact (ops : List Op) :
    ((∀ s ∈ states initial ops, s.size ≤ s.capacity ∧ s.capacity ≤ s.length ∧ s.nullCalled = false) ↔
      AllServed initial ops) ∧
    ∀ s ∈ states initial ops, ∀ answer, (processTogglerefs answer s).nullCalled = false →
      (processTogglerefs answer s).entries =
        (List.range s.size).filterMap fun i => (objOf (s.cells i)).bind (refFor (answer i)) := by
  refine ⟨?_,fun s _ answer _ => processTogglerefs_entries answer s⟩
  rw [← states_within_iff initial_inv]
  exact forall₂_congr fun s _ => ⟨fun ⟨hsize,hfits,hsafe⟩ => ⟨hsize,hfits,hsafe⟩,fun h => ⟨h.size_le,h.fits,h.safe⟩⟩

def served : Allocation := ⟨[], true⟩

def refused : Allocation := ⟨[], false⟩

/-- 32 references, the array for the 33rd one refused: the capacity is doubled all the same, and the
next reference is stored behind the end of the array. -/
theorem states_beyond_array :
    ∃ s ∈ states initial (.setFunc true :: List.replicate 32 (.add served served 16 true) ++
        [.add served refused 16 true, .add served served 16 true]),
      s.length = 32 ∧ s.capacity = 64 ∧ s.size = 33 := by
  decide +kernel

end Runs

end GcUtil.Finalize.ToggleRefs
