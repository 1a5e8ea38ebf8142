import GcUtil.Malloc.SizeMap
import GcUtil.Typed.ArrayDescriptors

/-! `GC_calloc_explicitly_typed` and `GC_array_mark_proc`: the array with its descriptor at the end of
the object, the entries pushed for it, and what is examined in the end. -/
namespace GcUtil.Typed.Arrays
open Basic Mark.Ranges Mark.Machine Mark.Compressed Malloc.SizeMap Descriptors ArrayDescriptors

section Marking

def signedWord (n : Nat) : Int := if n < 2 ^ 63 then n else n - 2 ^ 64

/-- `GC_push_complex_descriptor`: the stores to the mark stack, and the new top or `NULL`. -/
def pushComplexDescriptor : ComplexDescriptor → Nat → Nat → Nat → List (Nat × Mse) × Option Nat
  | .leaf size nelements d, current, msp, msl =>
      if (msl : Int) - msp ≤ signedWord nelements then ([], none)
      else ((List.range nelements).map fun i => (msp + 1 + i, ⟨current + i * size, d.toNat⟩), some (msp + nelements))
  | .sequence first second, current, msp, msl =>
      let pushed := pushComplexDescriptor first current msp msl
      match pushed.2 with
      | none => (pushed.1, none)
      | some msp =>
          let pushed' := pushComplexDescriptor second (current + first.objSize) msp msl
          (pushed.1 ++ pushed'.1, pushed'.2)

/-- What `GC_array_mark_proc` does to the mark stack, and whether it sets `GC_mark_stack_too_small`. -/
structure Pushed where
  stores : List (Nat × Mse)
  top : Nat
  tooSmall : Bool

def lastWord (addr sz : Nat) : Mse := ⟨addr + 8 * (sz / 8 - 1), 8⟩

/-- `GC_array_mark_proc` on an object of `sz` bytes, `none` where its last word is `NULL`. -/
def arrayMarkProc (addr sz : Nat) (complexD : Option ComplexDescriptor) (top limit : Nat) : Pushed :=
  match complexD with
  | none => ⟨[], top, false⟩
  | some c =>
      let pushed := pushComplexDescriptor c addr top (limit - 1)
      match pushed.2 with
      | none => ⟨pushed.1 ++ [(top + 1, ⟨addr, sz⟩)], top + 1, true⟩
      | some newTop => ⟨pushed.1 ++ [(newTop + 1, lastWord addr sz)], newTop + 1, false⟩

def applyStores (stack : Nat → Mse) (stores : List (Nat × Mse)) : Nat → Mse :=
  stores.foldl (fun stack store => Function.update stack store.1 store.2) stack

def Pushed.entries (r : Pushed) (stack : Nat → Mse) (top : Nat) : List Mse :=
  (List.range (r.top - top)).map fun k => applyStores stack r.stores (top + 1 + k)

end Marking

section Stores

variable {c : ComplexDescriptor} {current top limit addr sz : Nat} {l : List Mse} {stack : Nat → Mse}

def place (k : Nat) (l : List Mse) : List (Nat × Mse) := (l.zipIdx k).map Prod.swap

theorem place_append (k : Nat) (l l' : List Mse) : place k (l ++ l') = place k l ++ place (k + l.length) l' := by
  simp [place,List.zipIdx_append]

theorem place_map_range (k n : Nat) (f : Nat → Mse) :
    place k ((List.range n).map f) = (List.range n).map fun i => (k + i, f i) := by
  apply List.ext_getElem
  · simp [place]
  · intro i h h'
    simp [place]

theorem place_lt {k x : Nat} {e : Mse} (h : (x, e) ∈ place k l) : x < k + l.length := by
  obtain ⟨⟨e',x'⟩,hmem,heq⟩ := List.mem_map.mp h
  obtain ⟨rfl,rfl⟩ := Prod.mk.inj heq
  have := List.mem_zipIdx hmem
  omega

theorem applyStores_append (stores stores' : List (Nat × Mse)) :
    applyStores stack (stores ++ stores') = applyStores (applyStores stack stores) stores' :=
  List.foldl_append

theorem applyStores_place (k : Nat) {i : Nat} (hi : i < l.length) :
    applyStores stack (place k l) (k + i) = l[i] := by
  induction l using List.reverseRecOn with
  | nil => cases hi
  | append_singleton l e ih =>
    have hlast : applyStores stack (place k (l ++ [e])) =
        Function.update (applyStores stack (place k l)) (k + l.length) e := by
      rw [place_append,applyStores_append]
      rfl
    rw [hlast,Function.update_apply]
    by_cases h : i < l.length
    · rw [if_neg (by omega),ih h,List.getElem_append_left h]
    · have heq : i = l.length := by
        rw [List.length_append,List.length_singleton] at hi
        omega
      subst heq
      simp

theorem pushComplexDescriptor_spec (msp msl : Nat) (h : (c.entries current).length < 2 ^ 63) :
    if msp + (c.entries current).length < msl then
      pushComplexDescriptor c current msp msl =
        (place (msp + 1) (c.entries current), some (msp + (c.entries current).length))
    else (pushComplexDescriptor c current msp msl).2 = none ∧
      ∀ store ∈ (pushComplexDescriptor c current msp msl).1, store.1 < msl := by
  induction c generalizing current msp with
  | leaf size nelements d =>
    have hlen : ((ComplexDescriptor.leaf size nelements d).entries current).length = nelements := by
      simp [ComplexDescriptor.entries]
    rw [hlen] at h ⊢
    rw [pushComplexDescriptor,signedWord,if_pos h]
    split
    · rw [if_neg (by omega),ComplexDescriptor.entries,place_map_range]
    · rw [if_pos (by omega)]
      simp
  | sequence first second ihFirst ihSecond =>
    have hlen : ((ComplexDescriptor.sequence first second).entries current).length =
        (first.entries current).length + (second.entries (current + first.objSize)).length := by
      simp [ComplexDescriptor.entries]
    rw [hlen] at h ⊢
    have hfirst := @ihFirst current msp (by omega)
    rw [pushComplexDescriptor]
    by_cases hroom : msp + (first.entries current).length < msl
    · have hsecond := @ihSecond (current + first.objSize) (msp + (first.entries current).length) (by omega)
      rw [if_pos hroom] at hfirst
      rw [hfirst]
      dsimp only
      rw [Nat.add_assoc] at hsecond
      split
      · next hall =>
        rw [if_pos hall] at hsecond
        rw [hsecond,ComplexDescriptor.entries,place_append,Nat.add_right_comm msp]
      · next hall =>
        rw [if_neg hall] at hsecond
        refine ⟨hsecond.1,fun store hstore => ?_⟩
        rcases List.mem_append.mp hstore with hmem | hmem
        · have := place_lt (x := store.1) (e := store.2) hmem
          omega
        · exact hsecond.2 store hmem
    · rw [if_neg hroom] at hfirst
      rw [if_neg (by omega)]
      dsimp only
      rw [hfirst.1]
      exact ⟨rfl,hfirst.2⟩

theorem entries_place (stack : Nat → Mse) (top : Nat) (l : List Mse) (tooSmall : Bool) :
    (Pushed.mk (place (top + 1) l) (top + l.length) tooSmall).entries stack top = l := by
  apply List.ext_getElem
  · simp [Pushed.entries]
  · intro i h h'
    simp only [Pushed.entries,List.getElem_map,List.getElem_range]
    exact applyStores_place _ h'

theorem entries_replaced (stack : Nat → Mse) (top : Nat) (stores : List (Nat × Mse)) (e : Mse) (tooSmall : Bool) :
    (Pushed.mk (stores ++ [(top + 1, e)]) (top + 1) tooSmall).entries stack top = [e] := by
  simp [Pushed.entries,applyStores]

theorem arrayMarkProc_room (h : (c.entries addr).length < 2 ^ 63)
    (hroom : top + (c.entries addr).length + 1 < limit) :
    arrayMarkProc addr sz (some c) top limit =
      ⟨place (top + 1) (c.entries addr ++ [lastWord addr sz]),
        top + (c.entries addr ++ [lastWord addr sz]).length, false⟩ := by
  have hpush := pushComplexDescriptor_spec top (limit - 1) h
  rw [if_pos (by omega)] at hpush
  simp only [arrayMarkProc,hpush]
  rw [place_append,List.length_append,List.length_singleton,Nat.add_right_comm top 1]
  rfl

theorem arrayMarkProc_noRoom (sz : Nat) (h : (c.entries addr).length < 2 ^ 63)
    (hroom : limit ≤ top + (c.entries addr).length + 1) :
    ∃ stores, arrayMarkProc addr sz (some c) top limit = ⟨stores ++ [(top + 1, ⟨addr, sz⟩)], top + 1, true⟩ ∧
      ∀ store ∈ stores, store.1 < limit - 1 := by
  have hpush := pushComplexDescriptor_spec top (limit - 1) h
  rw [if_neg (by omega)] at hpush
  refine ⟨(pushComplexDescriptor c addr top (limit - 1)).1,?_,hpush.2⟩
  simp only [arrayMarkProc,hpush.1]

theorem arrayMarkProc_stores (h : (c.entries addr).length < 2 ^ 63) (htop : top + 1 < limit) :
    ∀ store ∈ (arrayMarkProc addr sz (some c) top limit).stores, store.1 < limit := by
  intro store hstore
  by_cases hroom : top + (c.entries addr).length + 1 < limit
  · rw [arrayMarkProc_room h hroom] at hstore
    have hlt := place_lt (x := store.1) (e := store.2) hstore
    rw [List.length_append,List.length_singleton] at hlt
    omega
  · obtain ⟨stores,heq,hstores⟩ := arrayMarkProc_noRoom sz h (Nat.le_of_not_lt hroom)
    rw [heq] at hstore
    rcases List.mem_append.mp hstore with hmem | hmem
    · have := hstores store hmem
      omega
    · rw [List.mem_singleton.mp hmem]
      exact htop

end Stores

section Allocation

/-- An object that `GC_malloc_kind` returns, with its size `hb_sz`. -/
structure Memory where
  addr : Nat
  hbSz : Nat
deriving DecidableEq, Repr

/-- `GC_calloc_typed_descr_s`; there is no descriptor for `NO_MEM`. -/
structure Prepared where
  descr : Option ArrayDescr
  allocLb : Nat

/-- An array with its descriptor, which is at the end of the object. -/
structure TypedArray extends Memory where
  descr : ArrayDescr
deriving DecidableEq, Repr

def sqrtSizeMax : Nat := 2 ^ 32 - 1

variable (interior : Bool)

def callocPrepareExplicitlyTyped (n lb : Nat) (d : BitVec 64) (answers : List Bool) : Prepared :=
  let count := if lb = 0 ∨ n = 0 then 1 else n
  let size := if lb = 0 ∨ n = 0 then 1 else lb
  if sqrtSizeMax < size ||| count ∧ wordMax / size < count then ⟨none, wordMax⟩
  else
    match makeArrayDescriptor count size d answers with
    | none => ⟨none, size * count⟩
    | some (.simple simpleD, _) => ⟨some (.simple simpleD), size * count⟩
    | some (.leaf ldSize nelements ldDescriptor, _) =>
        ⟨some (.leaf ldSize nelements ldDescriptor), sizetSatAdd (size * count) (40 - extraBytes interior)⟩
    | some (.complex complexD, _) =>
        ⟨some (.complex complexD), sizetSatAdd (size * count) (8 - extraBytes interior)⟩

def explicitlyTypedRequest (lb : Nat) : Nat := sizetSatAdd (max lb 1) (8 - extraBytes interior)

/-- `GC_calloc_do_explicitly_typed`; `registered` tells whether the disappearing link for a complex
descriptor got memory. -/
def callocDoExplicitlyTyped (malloc : Nat → Option Memory) (registered : Bool) (ctd : Prepared) : Option TypedArray :=
  match ctd.descr with
  | none => none
  | some (.simple d) => (malloc (explicitlyTypedRequest interior ctd.allocLb)).map fun op => ⟨op, .simple d⟩
  | some (.leaf size nelements d) => (malloc ctd.allocLb).map fun op => ⟨op, .leaf size nelements d⟩
  | some (.complex c) => if registered then (malloc ctd.allocLb).map fun op => ⟨op, .complex c⟩ else none

def callocExplicitlyTyped (malloc : Nat → Option Memory) (registered : Bool) (answers : List Bool)
    (n lb : Nat) (d : BitVec 64) : Option TypedArray :=
  callocDoExplicitlyTyped interior malloc registered (callocPrepareExplicitlyTyped interior n lb d answers)

/-- What `GC_malloc_kind` promises for a request: whole granules with room for it and `EXTRA_BYTES`, and
the granules of `GC_size_map` where that is filled in from the beginning. -/
structure Memory.Valid (op : Memory) (lb : Nat) : Prop where
  addr_dvd : granuleBytes ∣ op.addr
  hbSz_dvd : granuleBytes ∣ op.hbSz
  room : lb + extraBytes interior ≤ op.hbSz
  hbSz_lt : op.hbSz < 2 ^ 63
  tiny : initSizeMap (extraBytes interior) lb ≠ 0 →
    op.hbSz = granuleBytes * initSizeMap (extraBytes interior) lb

end Allocation

section Scanning

/-- What the mark procedure does for an array; the marker does without it if the descriptor is simple. -/
def TypedArray.pushed (o : TypedArray) (top limit : Nat) : Pushed :=
  match o.descr with
  | .simple _ => ⟨[], top, false⟩
  | .leaf size nelements d => arrayMarkProc o.addr o.hbSz (some (.leaf size nelements d)) top limit
  | .complex c => arrayMarkProc o.addr o.hbSz (some c) top limit

/-- The bytes at the end of the object that hold the descriptor or lead to it. -/
def TypedArray.keptBytes (o : TypedArray) : Nat :=
  match o.descr with
  | .simple _ => 8
  | .leaf _ _ _ => 40
  | .complex _ => 8

/-- The entry for the array: the descriptors of `GC_explicit_kind` and `GC_array_kind`. -/
def TypedArray.entry (o : TypedArray) (index : Nat) : Mse :=
  match o.descr with
  | .simple _ => ⟨o.addr, o.hbSz - 8 + 3⟩
  | _ => ⟨o.addr, makeProc index 0⟩

/-- The marker finds a simple descriptor in the last word, or runs the mark procedure on a stack that
has a given room. -/
def TypedArray.MarkedBy (o : TypedArray) (M : Marker) (index : Nat) (stack : Nat → Mse) (top limit : Nat) : Prop :=
  match o.descr with
  | .simple d => M.mem (o.addr + (o.hbSz - 8)) = d.toNat
  | _ => M.markProcs index o.addr 0 = ⟨[], (o.pushed top limit).entries stack top⟩

structure Scanned (M : Marker) (o : TypedArray) (index n size : Nat) (d : BitVec 64) (top limit : Nat) : Prop where
  stores : ∀ store ∈ (o.pushed top limit).stores, store.1 < limit
  complete : ∀ a, ArraySlot n size d o.addr a → M.Examined (o.entry index) a
  exact : ∀ a, M.Examined (o.entry index) a → o.addr ≤ a → a < o.addr + (o.hbSz - o.keptBytes) →
    ArraySlot n size d o.addr a ∨ (o.pushed top limit).tooSmall = true
  noRoom : (o.pushed top limit).tooSmall = true → limit ≤ top + n + 1
  whole : (o.pushed top limit).tooSmall = true →
    ∀ a, M.Examined (o.entry index) a ↔ ∃ i, 8 * (i + 1) ≤ o.hbSz ∧ a = o.addr + 8 * i
  apart : n * size + o.keptBytes ≤ o.hbSz

variable {M : Marker} {c : ComplexDescriptor} {d d' : BitVec 64} {op : Memory}
  {n size index top limit a p : Nat} {stack : Nat → Mse}

theorem keptBytes_ge (o : TypedArray) : 8 ≤ o.keptBytes := by
  unfold TypedArray.keptBytes
  split <;> decide

theorem arraySlot_inside (hd : Designates d size) (h8 : 8 ∣ size) (h : ArraySlot n size d p a) :
    ∃ i, 8 * (i + 1) ≤ n * size ∧ a = p + 8 * i := by
  obtain ⟨i,hi,j,hj,rfl⟩ := h
  obtain ⟨w,rfl⟩ := h8
  have hinside := hd.inside j hj
  have hle : (i + 1) * w ≤ n * w := Nat.mul_le_mul_right w hi
  rw [Nat.add_mul] at hle
  refine ⟨i * w + j,?_,by ring⟩
  rw [show n * (8 * w) = 8 * (n * w) by ring]
  omega

theorem examined_simple (hd : Designates d' size) (hp : 8 ∣ p) (hsz : op.hbSz < 2 ^ 63) (h16 : 16 ∣ op.hbSz)
    (h8 : 8 ≤ op.hbSz) (hmem : M.mem (p + (op.hbSz - 8)) = d'.toNat) :
    M.Examined ⟨p, op.hbSz - 8 + 3⟩ a ↔ ∃ j, Slot d' j ∧ a = p + 8 * j := by
  have hstored : storedDescr M.mem p (op.hbSz - 8 + 3) = d'.toNat := by
    rw [storedDescr,if_pos (by omega),← hmem]
    congr 1
  rw [examined_perObject (by omega),hstored,examined_iff_slot hd hp]
  constructor
  · exact And.right
  · intro hslot
    refine ⟨fun hzero => ?_,hslot⟩
    obtain ⟨j,hj,_⟩ := hslot
    have hd0 : d' = 0 := BitVec.eq_of_toNat_eq (by rw [hzero]; rfl)
    rw [hd0] at hj
    exact slot_zero j hj

theorem examined_pushed {r : Pushed} (hindex : index < 64)
    (hproc : M.markProcs index p 0 = ⟨[], r.entries stack top⟩) :
    M.Examined ⟨p, makeProc index 0⟩ a ↔ ∃ e ∈ r.entries stack top, M.Examined e a := by
  have hn : 0 ≤ maxEnv := Nat.zero_le _
  have hscan : M.markProcs (procIndex (makeProc index 0)) p (env (makeProc index 0)) =
      ⟨[],r.entries stack top⟩ := by
    rw [procIndex_makeProc hindex hn,env_makeProc hindex hn,hproc]
  rw [examined_proc (makeProc_mod hindex hn) hscan]
  simp

theorem examined_lastWord (hp : 16 ∣ p) (h16 : 16 ∣ op.hbSz) (h8 : 8 ≤ op.hbSz) :
    M.Examined (lastWord p op.hbSz) a ↔ a = p + (op.hbSz - 8) := by
  rw [lastWord,examined_length (by omega) (by decide)]
  constructor
  · rintro ⟨i,hi,rfl⟩
    omega
  · rintro rfl
    exact ⟨0,by decide,by omega⟩

theorem examined_tree {o : TypedArray} (hdesc : Describes M c n size d) (hindex : index < 64) (hn : n < 2 ^ 63)
    (hp : 16 ∣ o.addr) (h16 : 16 ∣ o.hbSz) (h8 : 8 ≤ o.hbSz) (hentry : o.entry index = ⟨o.addr, makeProc index 0⟩)
    (hpushed : o.pushed top limit = arrayMarkProc o.addr o.hbSz (some c) top limit)
    (hmarked : M.markProcs index o.addr 0 = ⟨[], (o.pushed top limit).entries stack top⟩) :
    M.Examined (o.entry index) a ↔
      if (o.pushed top limit).tooSmall then ∃ i, 8 * (i + 1) ≤ o.hbSz ∧ a = o.addr + 8 * i
      else ArraySlot n size d o.addr a ∨ a = o.addr + (o.hbSz - 8) := by
  have hlen : (c.entries o.addr).length < 2 ^ 63 := Nat.lt_of_le_of_lt (hdesc.length_le _) hn
  rw [hentry,examined_pushed hindex hmarked,hpushed]
  by_cases hroom : top + (c.entries o.addr).length + 1 < limit
  · rw [arrayMarkProc_room hlen hroom,entries_place,if_neg (by simp)]
    simp only [List.mem_append,List.mem_singleton,or_and_right,exists_or,exists_eq_left]
    rw [hdesc.examined _ _ (Dvd.dvd.trans (by decide) hp),examined_lastWord hp h16 h8]
  · obtain ⟨stores,heq,_⟩ := arrayMarkProc_noRoom o.hbSz hlen (Nat.le_of_not_lt hroom)
    rw [heq,entries_replaced,if_pos rfl]
    simp only [List.mem_singleton,exists_eq_left]
    exact examined_length (Dvd.dvd.trans (by decide) hp) (Dvd.dvd.trans (by decide) h16)

theorem scanned_tree {o : TypedArray} (hdesc : Describes M c n size d) (hd : Designates d size) (h8 : 8 ∣ size)
    (hindex : index < 64) (hn : n < 2 ^ 63) (hp : 16 ∣ o.addr) (h16 : 16 ∣ o.hbSz) (hkept : 8 ≤ o.keptBytes)
    (hapart : n * size + o.keptBytes ≤ o.hbSz) (htop : top + 1 < limit)
    (hentry : o.entry index = ⟨o.addr, makeProc index 0⟩)
    (hpushed : o.pushed top limit = arrayMarkProc o.addr o.hbSz (some c) top limit)
    (hmarked : M.markProcs index o.addr 0 = ⟨[], (o.pushed top limit).entries stack top⟩) :
    Scanned M o index n size d top limit := by
  have hlen : (c.entries o.addr).length < 2 ^ 63 := Nat.lt_of_le_of_lt (hdesc.length_le _) hn
  have hexamined := fun a => examined_tree (a := a) hdesc hindex hn hp h16 (by omega) hentry hpushed hmarked
  constructor
  · rw [hpushed]
    exact arrayMarkProc_stores hlen htop
  · intro a ha
    rw [hexamined]
    split
    · obtain ⟨i,hi,rfl⟩ := arraySlot_inside hd h8 ha
      exact ⟨i,by omega,rfl⟩
    · exact .inl ha
  · intro a ha _ hlt
    rw [hexamined] at ha
    split at ha
    · next hsmall => exact Or.inr hsmall
    · apply Or.inl
      apply ha.resolve_right
      omega
  · intro hsmall
    rw [hpushed] at hsmall
    have hle := hdesc.length_le o.addr
    by_contra hroom
    rw [arrayMarkProc_room hlen (by omega)] at hsmall
    cases hsmall
  · intro hsmall a
    rw [hexamined,if_pos hsmall]
  · exact hapart

theorem scanned_simple {o : TypedArray} (hdescr : o.descr = .simple d') (hd' : Designates d' (n * size))
    (hslots : ∀ p a, (∃ j, Slot d' j ∧ a = p + 8 * j) ↔ ArraySlot n size d p a)
    (hp : 16 ∣ o.addr) (h16 : 16 ∣ o.hbSz) (hlt : o.hbSz < 2 ^ 63) (hapart : n * size + 8 ≤ o.hbSz)
    (hmarked : o.MarkedBy M index stack top limit) : Scanned M o index n size d top limit := by
  have hpushed : o.pushed top limit = ⟨[],top,false⟩ := by rw [TypedArray.pushed,hdescr]
  have hkept : o.keptBytes = 8 := by rw [TypedArray.keptBytes,hdescr]
  rw [TypedArray.MarkedBy,hdescr] at hmarked
  have hexamined : ∀ a, M.Examined (o.entry index) a ↔ ArraySlot n size d o.addr a := by
    intro a
    rw [TypedArray.entry,hdescr]
    exact (examined_simple hd' (Dvd.dvd.trans (by decide) hp) hlt h16 (by omega) hmarked).trans (hslots _ _)
  constructor
  · rw [hpushed]
    simp
  · exact fun a ha => (hexamined a).mpr ha
  · exact fun a ha _ _ => .inl ((hexamined a).mp ha)
  · rw [hpushed]
    simp
  · rw [hpushed]
    simp
  · rw [hkept]
    exact hapart

end Scanning

section Calloc

variable {interior registered : Bool} {malloc : Nat → Option Memory} {answers : List Bool} {n size index : Nat}
  {d : BitVec 64} {o : TypedArray}

theorem makeArrayDescriptor_one (d : BitVec 64) (answers : List Bool) :
    makeArrayDescriptor 1 1 d answers = some (.simple d, answers) := by
  rw [makeArrayDescriptor]
  split
  · next h =>
    have := dsTag_eq_length.mp h.1
    omega
  · split
    · next h => rw [h.2]
    · rfl

theorem request_room {lb k : Nat} {op : Memory} (h : op.Valid interior (sizetSatAdd lb (k - extraBytes interior)))
    (hk : 0 < k) : lb + k ≤ op.hbSz := by
  have hroom := h.room
  have hlt := h.hbSz_lt
  have hextra : extraBytes interior ≤ 1 := by
    unfold extraBytes
    split <;> decide
  unfold sizetSatAdd wordMax at hroom
  split at hroom <;> omega

theorem count_lt (h : ¬ (sqrtSizeMax < size ||| n ∧ wordMax / size < n)) (hsize : 0 < size) : n * size < 2 ^ 64 := by
  rw [not_and_or,Nat.not_lt,Nat.not_lt] at h
  rcases h with h | h
  · have hs : size ≤ 2 ^ 32 - 1 := Nat.left_le_or.trans h
    have hn : n ≤ 2 ^ 32 - 1 := Nat.right_le_or.trans h
    calc n * size ≤ (2 ^ 32 - 1) * (2 ^ 32 - 1) := Nat.mul_le_mul hn hs
      _ < 2 ^ 64 := by decide
  · have := (Nat.le_div_iff_mul_le hsize).mp h
    unfold wordMax at this
    omega

section

variable (hmalloc : ∀ lb op, malloc lb = some op → op.Valid interior lb)
  (h : callocExplicitlyTyped interior malloc registered answers n size d = some o)
include hmalloc h

theorem calloc_empty (hempty : size = 0 ∨ n = 0) :
    o.descr = .simple d ∧ 16 ∣ o.addr ∧ o.hbSz = 16 := by
  have hprepared : callocPrepareExplicitlyTyped interior n size d answers = ⟨some (.simple d),1⟩ := by
    unfold callocPrepareExplicitlyTyped
    simp only [hempty,if_true,makeArrayDescriptor_one]
    rfl
  rw [callocExplicitlyTyped,hprepared,callocDoExplicitlyTyped] at h
  obtain ⟨op,hop,rfl⟩ := Option.map_eq_some_iff.mp h
  have hvalid := hmalloc _ _ hop
  have hgranule : initSizeMap (extraBytes interior) (explicitlyTypedRequest interior 1) = 1 := by
    cases interior <;> decide
  refine ⟨rfl,hvalid.addr_dvd,?_⟩
  dsimp only at hvalid
  rw [hvalid.tiny (by rw [hgranule]; decide),hgranule]
  rfl

theorem calloc_elements (hsize : 0 < size) (hn : 0 < n) :
    n * size < 2 ^ 64 ∧ (∃ rest, makeArrayDescriptor n size d answers = some (o.descr, rest)) ∧
      16 ∣ o.addr ∧ 16 ∣ o.hbSz ∧ o.hbSz < 2 ^ 63 ∧ n * size + o.keptBytes ≤ o.hbSz := by
  have hnonempty : ¬ (size = 0 ∨ n = 0) := by omega
  unfold callocExplicitlyTyped callocPrepareExplicitlyTyped at h
  simp only [hnonempty,if_false] at h
  split at h
  · cases h
  · next hcheck =>
    refine ⟨count_lt hcheck hsize,?_⟩
    rw [Nat.mul_comm n size]
    split at h
    · cases h
    · next simpleD rest hmake =>
      obtain ⟨op,hop,rfl⟩ := Option.map_eq_some_iff.mp h
      have hvalid := hmalloc _ _ hop
      have hroom : max (size * n) 1 + 8 ≤ op.hbSz := request_room hvalid (by decide)
      refine ⟨⟨rest,hmake⟩,hvalid.addr_dvd,hvalid.hbSz_dvd,hvalid.hbSz_lt,?_⟩
      change size * n + 8 ≤ op.hbSz
      omega
    · next ldSize nelements ldDescriptor rest hmake =>
      obtain ⟨op,hop,rfl⟩ := Option.map_eq_some_iff.mp h
      have hvalid := hmalloc _ _ hop
      exact ⟨⟨rest,hmake⟩,hvalid.addr_dvd,hvalid.hbSz_dvd,hvalid.hbSz_lt,
        request_room (k := 40) hvalid (by decide)⟩
    · next complexD rest hmake =>
      rw [callocDoExplicitlyTyped] at h
      dsimp only at h
      split at h
      · obtain ⟨op,hop,rfl⟩ := Option.map_eq_some_iff.mp h
        have hvalid := hmalloc _ _ hop
        exact ⟨⟨rest,hmake⟩,hvalid.addr_dvd,hvalid.hbSz_dvd,hvalid.hbSz_lt,
          request_room (k := 8) hvalid (by decide)⟩
      · cases h

variable {M : Marker} {stack : Nat → Mse} {top limit : Nat} (hd : Designates d size)
  (hmarked : o.MarkedBy M index stack top limit)
include hd hmarked

theorem calloc_scanned_elements (h8 : 8 ∣ size) (hindex : index < 64) (hsize : 0 < size) (hn : 0 < n)
    (htop : top + 1 < limit) : Scanned M o index n size d top limit := by
  obtain ⟨hlt,⟨rest,hmake⟩,hp,h16,hsz,hapart⟩ := calloc_elements hmalloc h hsize hn
  have hmeans := (makeArrayDescriptor_spec (M := M) hmake hd h8 hsize hn hlt).1
  have hcount : n < 2 ^ 63 := by
    have : n * 8 ≤ n * size := Nat.mul_le_mul_left n (Nat.le_of_dvd hsize h8)
    omega
  obtain ⟨op,descr⟩ := o
  cases descr with
  | simple d' => exact scanned_simple rfl hmeans.1 hmeans.2 hp h16 hsz hapart hmarked
  | leaf ldSize nelements d' =>
    exact scanned_tree hmeans hd h8 hindex hcount hp h16 (keptBytes_ge _) hapart htop rfl rfl hmarked
  | complex c => exact scanned_tree hmeans hd h8 hindex hcount hp h16 (keptBytes_ge _) hapart htop rfl rfl hmarked

theorem examined_empty (hempty : size = 0 ∨ n = 0) (a : Nat) :
    M.Examined (o.entry index) a ↔ ∃ j, Slot d j ∧ a = o.addr + 8 * j := by
  obtain ⟨hdescr,hp,hsz⟩ := calloc_empty hmalloc h hempty
  rw [TypedArray.MarkedBy,hdescr] at hmarked
  rw [TypedArray.entry,hdescr]
  exact examined_simple hd (Dvd.dvd.trans (by decide) hp) (by rw [hsz]; decide) (by rw [hsz])
    (by rw [hsz]; decide) hmarked

theorem calloc_scanned_empty (hempty : size = 0 ∨ n = 0) (hfirst : n = 0 → ¬ Slot d 0) :
    Scanned M o index n size d top limit := by
  obtain ⟨hdescr,hp,hsz⟩ := calloc_empty hmalloc h hempty
  have hexamined := examined_empty hmalloc h hd hmarked hempty
  have hpushed : o.pushed top limit = ⟨[],top,false⟩ := by rw [TypedArray.pushed,hdescr]
  have hkept : o.keptBytes = 8 := by rw [TypedArray.keptBytes,hdescr]
  have hslot : ¬ Slot d 0 := by
    rcases hempty with rfl | hn
    · intro hslot
      have := hd.inside 0 hslot
      omega
    · exact hfirst hn
  constructor
  · rw [hpushed]
    simp
  · rintro a ⟨i,hi,j,hj,rfl⟩
    have := hd.inside j hj
    omega
  · intro a ha _ hlt
    obtain ⟨j,hj,rfl⟩ := (hexamined a).mp ha
    rw [hkept,hsz] at hlt
    obtain rfl : j = 0 := by omega
    exact absurd hj hslot
  · rw [hpushed]
    simp
  · rw [hpushed]
    simp
  · rw [hkept,hsz]
    rcases hempty with rfl | rfl <;> omega

end

/-- An array is scanned element by element, whatever the room on the mark stack, unless it has no elements
and the descriptor of an element designates the first word. -/
theorem callocExplicitlyTyped_scanned (interior registered : Bool) (malloc : Nat → Option Memory)
    (answers : List Bool) (n size : Nat) (d : BitVec 64) (o : TypedArray) (index : Nat) (stack : Nat → Mse)
    (M : Nat → Nat → Marker) (hmalloc : ∀ lb op, malloc lb = some op → op.Valid interior lb)
    (h8 : 8 ∣ size) (hd : Designates d size) (hindex : index < 64)
    (h : callocExplicitlyTyped interior malloc registered answers n size d = some o)
    (hmarked : ∀ top limit, o.MarkedBy (M top limit) index stack top limit) :
    (∀ top limit, top + 1 < limit → Scanned (M top limit) o index n size d top limit) ↔ (n = 0 → ¬ Slot d 0) := by
  constructor
  · rintro hall rfl hslot
    have hexamined := (examined_empty hmalloc h hd (hmarked 0 2) (.inr rfl) o.addr).mpr ⟨0,hslot,rfl⟩
    obtain ⟨hdescr,_,hsz⟩ := calloc_empty hmalloc h (.inr rfl)
    have hscanned := (hall 0 2 (by decide)).exact o.addr hexamined (Nat.le_refl _)
    rw [TypedArray.keptBytes,TypedArray.pushed,hdescr,hsz] at hscanned
    rcases hscanned (show o.addr < o.addr + (16 - 8) by omega) with ⟨i,hi,_⟩ | hsmall
    · cases hi
    · cases hsmall
  · intro hfirst top limit htop
    by_cases hempty : size = 0 ∨ n = 0
    · exact calloc_scanned_empty hmalloc h hd (hmarked top limit) hempty hfirst
    · exact calloc_scanned_elements hmalloc h hd (hmarked top limit) h8 hindex (by omega) (by omega) htop

def granules (lb : Nat) : Option Memory :=
  if lb ≤ 4000 then some ⟨65536, granuleBytes * allocRequestGrans (extraBytes true) lb⟩ else none

theorem granules_valid (lb : Nat) (op : Memory) (h : granules lb = some op) : op.Valid true lb := by
  unfold granules at h
  split at h
  · next hle =>
    cases h
    have hextra : extraBytes true = 1 := rfl
    simp only [hextra,allocRequestGrans,granuleBytes]
    refine ⟨show 16 ∣ 65536 by decide,Nat.dvd_mul_right _ _,?_,?_,?_⟩
    · dsimp only
      omega
    · dsimp only
      omega
    · unfold initSizeMap allocRequestGrans tinyFreelists granuleBytes
      dsimp only
      intro hfilled
      split
      · next hzero =>
        subst hzero
        rfl
      · next hpos =>
        rw [if_neg hpos] at hfilled
        rw [if_pos (not_not.mp fun hlarge => hfilled (if_neg hlarge)),hextra]
  · cases h

def markerOf (o : TypedArray) (top limit : Nat) : Marker where
  compressed := false
  around := ⟨fun _ => 0, fun _ _ => false⟩
  mem _ :=
    match o.descr with
    | .simple d => d.toNat
    | _ => 0
  markProcs _ _ _ := ⟨[], (o.pushed top limit).entries (fun _ => ⟨0, 0⟩) top⟩

theorem markedBy_markerOf (o : TypedArray) (index top limit : Nat) :
    o.MarkedBy (markerOf o top limit) index (fun _ => ⟨0, 0⟩) top limit := by
  obtain ⟨op,descr⟩ := o
  cases descr <;> rfl

theorem designates_length {w : Nat} (hw : 8 * w < 2 ^ 64) (hle : 8 * w ≤ size) :
    Designates (BitVec.ofNat 64 (8 * w)) size := by
  have hnat : (BitVec.ofNat 64 (8 * w)).toNat = 8 * w := by
    rw [BitVec.toNat_ofNat,Nat.mod_eq_of_lt hw]
  have htag : dsTag (BitVec.ofNat 64 (8 * w)).toNat = .length := by
    rw [hnat]
    exact dsTag_of_dvd (Dvd.dvd.mul_right (by decide) w)
  refine ⟨.inl ⟨htag,by simp [hnat]⟩,fun j hj => ?_⟩
  rw [slot_length htag,hnat] at hj
  omega

/-- An odd number of elements: the descriptor is doubled and one element follows. -/
theorem callocExplicitlyTyped_scanned_odd :
    ∃ o, callocExplicitlyTyped true granules true [true, true, true] 51 16 8#64 = some o ∧
      ∀ top limit, top + 1 < limit → Scanned (markerOf o top limit) o 5 51 16 8#64 top limit := by
  have hsome : (callocExplicitlyTyped true granules true [true,true,true] 51 16 8#64).isSome = true := by
    decide +kernel
  obtain ⟨o,ho⟩ := Option.isSome_iff_exists.mp hsome
  refine ⟨o,ho,?_⟩
  apply (callocExplicitlyTyped_scanned true true granules _ 51 16 8#64 o 5 _ (markerOf o) granules_valid
    (by decide) (designates_length (w := 1) (by decide) (by decide)) (by decide) ho
    (markedBy_markerOf o 5)).mpr
  intro h
  cases h

/-- An array without elements: the words of an element are examined, of which the object has one. -/
theorem callocExplicitlyTyped_examines_element :
    ∃ o, callocExplicitlyTyped true granules true [] 0 64 64#64 = some o ∧ o.addr = 65536 ∧ o.hbSz = 16 ∧
      Designates 64#64 64 ∧ o.MarkedBy (markerOf o 0 2) 5 (fun _ => ⟨0, 0⟩) 0 2 ∧
      ¬ Scanned (markerOf o 0 2) o 5 0 64 64#64 0 2 ∧
      (markerOf o 0 2).Examined (o.entry 5) 65536 ∧ (markerOf o 0 2).Examined (o.entry 5) 65592 := by
  have hd : Designates 64#64 64 := designates_length (w := 8) (by decide) (by decide)
  have hcalloc : callocExplicitlyTyped true granules true [] 0 64 64#64 = some ⟨⟨65536,16⟩,.simple 64#64⟩ := by
    decide +kernel
  have hexamined := examined_empty granules_valid hcalloc hd
    (markedBy_markerOf ⟨⟨65536,16⟩,.simple 64#64⟩ 5 0 2) (.inr rfl)
  have hslot : ∀ j < 8, Slot 64#64 j := fun j hj => (slot_length (by decide)).mpr (show 8 * (j + 1) ≤ 64 by omega)
  have hfirst := (hexamined 65536).mpr ⟨0,hslot 0 (by decide),rfl⟩
  have hlast := (hexamined 65592).mpr ⟨7,hslot 7 (by decide),rfl⟩
  refine ⟨_,hcalloc,rfl,rfl,hd,markedBy_markerOf _ _ _ _,?_,hfirst,hlast⟩
  intro hscanned
  rcases hscanned.exact 65536 hfirst (Nat.le_refl _) (by decide) with ⟨i,hi,_⟩ | hsmall
  · cases hi
  · cases hsmall

end Calloc

end GcUtil.Typed.Arrays
