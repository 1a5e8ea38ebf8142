import GcUtil.Library.Intervals
import GcUtil.Malloc.SizeMap

/-! The heap as the client sees it: objects with their headers and the bytes of memory, allocation by
kind and explicit deallocation. What happens below (free lists, the size map, blocks) is given by the
answers to allocation requests. The 64-bit build without threads. -/
namespace GcUtil.Malloc.Objects
open Basic SizeMap Library.Intervals List

section Model

structure ObjKind where
  okDescriptor : BitVec 64
  okRelocateDescr : Bool
  okInit : Bool

/-- `GC_obj_kinds` with the flags that allocation reads; pointer-free objects are not cleared. -/
structure Kinds where
  allInteriorPointers : Bool
  debuggingStarted : Bool
  objKinds : Nat → ObjKind
  ptrfree_init : (objKinds ptrfree).okInit = false

def Kinds.extra (ks : Kinds) : Nat := extraBytes ks.allInteriorPointers

/-- An object with the fields of its header, and the size that the client asked for last. -/
structure Obj where
  base : Nat
  hbSz : Nat
  kind : Nat
  ignoreOffPage : Bool
  hbDescr : BitVec 64
  requested : Nat

def Obj.extent (o : Obj) : Nat := if maxObjBytes < o.hbSz then objSzToBlocks o.hbSz * hblkSize else o.hbSz

def Obj.stop (o : Obj) : Nat := o.base + o.extent

structure Heap where
  objs : List Obj
  mem : Nat → UInt8
  nonGcBytes : BitVec 64

/-- The answer to a request: where the object is, the granules that `GC_size_map` has for a small
one, and whether the first look at the free list finds it. -/
structure Answer where
  base : Nat
  granules : Nat
  onFreeList : Bool

variable (ks : Kinds) (h : Heap) (a : Answer)

def Kinds.addExtraBytes (lb : Nat) : Nat := sizetSatAdd lb ks.extra

/-- `BZERO`. -/
def zero (mem : Nat → UInt8) (a n : Nat) (x : Nat) : UInt8 := if a ≤ x ∧ x < a + n then 0 else mem x

/-- `BCOPY`. -/
def copy (mem : Nat → UInt8) (src dst n : Nat) (x : Nat) : UInt8 :=
  if dst ≤ x ∧ x < dst + n then mem (src + (x - dst)) else mem x

def Kinds.descrFor (kind : Nat) (ignoreOffPage : Bool) (sz : Nat) : BitVec 64 :=
  let ok := ks.objKinds kind
  let descr := ok.okDescriptor +
    if ks.extra ≠ 0 ∧ ignoreOffPage = true ∧ kind = normal ∧ hblkSize ≤ sz then 8 else 0
  if ok.okRelocateDescr then descr + BitVec.ofNat 64 sz else descr

/-- An object of a small size class; its link to the next free object is cleared. -/
def allocSmall (kind requested : Nat) (clearLink : Bool) : Heap :=
  let sz := a.granules * granuleBytes
  { h with
    objs := ⟨a.base, sz, kind, false, ks.descrFor kind false sz, requested⟩ :: h.objs
    mem := if clearLink then zero h.mem a.base 8 else h.mem }

/-- `GC_alloc_large`, and the clearing of the blocks by its caller. -/
def allocLarge (lbAdjusted kind : Nat) (ignoreOffPage : Bool) (requested : Nat) : Heap :=
  { h with
    objs := ⟨a.base, lbAdjusted, kind, ignoreOffPage, ks.descrFor kind ignoreOffPage lbAdjusted, requested⟩ :: h.objs
    mem :=
      if ks.debuggingStarted ∨ (ks.objKinds kind).okInit then zero h.mem a.base (hblkSize * objSzToBlocks lbAdjusted)
      else h.mem }

/-- `GC_generic_malloc_aligned` without an alignment; `requested` is what the client asked for. -/
def genericMallocAligned (lb kind : Nat) (ignoreOffPage : Bool) (requested : Nat) : Heap :=
  if smallObj ks.extra lb then allocSmall ks h a kind requested true
  else
    let lbAdjusted :=
      if ignoreOffPage ∧ hblkSize ≤ lb then sizetSatAdd lb (granuleBytes - 1) / granuleBytes * granuleBytes
      else sizetSatAdd lb (granuleBytes - 1 + ks.extra) / granuleBytes * granuleBytes
    allocLarge ks h a lbAdjusted kind ignoreOffPage requested

def mallocKind (lb kind : Nat) : Heap :=
  if smallObj ks.extra lb ∧ a.onFreeList then allocSmall ks h a kind lb (decide (kind ≠ ptrfree))
  else genericMallocAligned ks h a lb kind false lb

def Kinds.withoutExtra (lb : Nat) : Nat := if ks.extra ≠ 0 ∧ lb ≠ 0 then lb - 1 else lb

def genericMallocUncollectable (lbOrig kind : Nat) : Heap :=
  let lb := ks.withoutExtra lbOrig
  if smallObj ks.extra lb then
    let h := allocSmall ks h a kind lbOrig true
    if a.onFreeList then { h with nonGcBytes := h.nonGcBytes + BitVec.ofNat 64 (a.granules * granuleBytes) } else h
  else genericMallocAligned ks h a lb kind false lbOrig

def genericOrSpecialMalloc (lb kind : Nat) : Heap :=
  if kind = ptrfree ∨ kind = normal then mallocKind ks h a lb kind
  else if isUncollectable kind then genericMallocUncollectable ks h a lb kind
  else genericMallocAligned ks h a lb kind false lb

def Heap.lookup (h : Heap) (p : Nat) : Option Obj := h.objs.find? fun o => decide (o.base = p)

def Heap.others (h : Heap) (p : Nat) : List Obj := h.objs.filter fun o => decide (o.base ≠ p)

/-- `GC_free` of an object; `link` are the bytes of the free-list link. -/
def freeObj (o : Obj) (link : Nat → UInt8) : Heap where
  objs := h.others o.base
  mem :=
    if maxObjBytes < o.hbSz then h.mem
    else
      let cleared := if (ks.objKinds o.kind).okInit ∧ 8 < o.hbSz then zero h.mem (o.base + 8) (o.hbSz - 8) else h.mem
      fun x => if o.base ≤ x ∧ x < o.base + 8 then link (x - o.base) else cleared x
  nonGcBytes := if isUncollectable o.kind then h.nonGcBytes - BitVec.ofNat 64 o.hbSz else h.nonGcBytes

end Model

section Memory

variable {mem : Nat → UInt8} {a n src dst x : Nat}

theorem zero_inside (hlo : a ≤ x) (hhi : x < a + n) : zero mem a n x = 0 := if_pos ⟨hlo,hhi⟩

theorem zero_outside (h : x < a ∨ a + n ≤ x) : zero mem a n x = mem x := if_neg (by omega)

theorem zero_of_zero (h : mem x = 0) : zero mem a n x = 0 := by
  unfold zero
  split
  · rfl
  · exact h

theorem copy_inside {i : Nat} (h : i < n) : copy mem src dst n (dst + i) = mem (src + i) := by
  rw [copy,if_pos (by omega),Nat.add_sub_cancel_left]

theorem copy_outside (h : x < dst ∨ dst + n ≤ x) : copy mem src dst n x = mem x := if_neg (by omega)

end Memory

section Invariant

variable {ks : Kinds} {h h' : Heap} {o o' : Obj} {a : Answer} {p lb kind requested sz : Nat} {ignoreOffPage : Bool}

def Distinct (o o' : Obj) : Prop := Apart Obj.base Obj.stop o o'

instance : DecidableRel Distinct := fun _ _ => inferInstanceAs (Decidable (_ ∨ _))

structure Obj.Good (ks : Kinds) (o : Obj) : Prop where
  base_pos : 0 < o.base
  stop_le : o.stop ≤ wordMax + 1
  size_pos : granuleBytes ≤ o.hbSz
  usable : o.requested ≤ o.hbSz
  descr : o.hbDescr = ks.descrFor o.kind o.ignoreOffPage o.hbSz

/-- Behind the requested bytes an object of a cleared kind is zero, up to the end of its blocks. -/
def Obj.ZeroTail (ks : Kinds) (mem : Nat → UInt8) (o : Obj) : Prop :=
  (ks.objKinds o.kind).okInit = true → ∀ x, o.base + o.requested ≤ x → x < o.stop → mem x = 0

structure Heap.Inv (ks : Kinds) (h : Heap) : Prop where
  distinct : h.objs.Pairwise Distinct
  good : ∀ o ∈ h.objs, o.Good ks
  tail : ∀ o ∈ h.objs, o.ZeroTail ks h.mem

theorem Obj.hbSz_le_extent (o : Obj) : o.hbSz ≤ o.extent := by
  unfold Obj.extent objSzToBlocks divHblksz hblkSize
  split <;> omega

theorem Obj.Good.lt_stop (hgood : o.Good ks) : o.base < o.stop := by
  have hle := o.hbSz_le_extent
  have hpos := hgood.size_pos
  unfold granuleBytes at hpos
  unfold Obj.stop
  omega

theorem Distinct.base_ne (hdistinct : Distinct o o') (hgood : o.Good ks) (hgood' : o'.Good ks) :
    o.base ≠ o'.base := by
  have := hgood.lt_stop
  have := hgood'.lt_stop
  unfold Distinct Apart at hdistinct
  omega

theorem Heap.lookup_some (hfound : h.lookup p = some o) : o ∈ h.objs ∧ o.base = p :=
  ⟨List.mem_of_find?_eq_some hfound,by simpa using List.find?_some hfound⟩

theorem Heap.mem_others : o ∈ h.others p ↔ o ∈ h.objs ∧ o.base ≠ p := by
  simp [Heap.others]

section

variable (hinv : h.Inv ks) (ho : o ∈ h.objs)
include hinv ho

theorem Heap.Inv.perm_others : h.objs.Perm (o :: h.others o.base) := by
  obtain ⟨pre,post,hsplit⟩ := append_of_mem ho
  have hdistinct := hinv.distinct
  rw [hsplit,pairwise_append,pairwise_cons] at hdistinct
  obtain ⟨_,⟨hpost,_⟩,hpre⟩ := hdistinct
  have hgood : ∀ x ∈ pre ++ o :: post, x.Good ks := hsplit ▸ hinv.good
  have hothers : h.others o.base = pre ++ post := by
    rw [Heap.others,hsplit,filter_append,filter_cons_of_neg (by simp)]
    congr 1 <;> refine filter_eq_self.mpr fun x hx => decide_eq_true ?_
    · exact (hpre x hx o mem_cons_self).base_ne (hgood x (by simp [hx])) (hgood o (by simp))
    · exact ((hpost x hx).base_ne (hgood o (by simp)) (hgood x (by simp [hx]))).symm
  rw [hothers,hsplit]
  exact perm_middle

theorem Heap.Inv.distinct_others (ho' : o' ∈ h.others o.base) :
    Distinct o o' := by
  have hperm := pairwise_apart_perm Obj.base Obj.stop (hinv.perm_others ho) hinv.distinct
  exact (pairwise_cons.mp hperm).1 o' ho'

theorem Heap.Inv.lookup_mem : h.lookup o.base = some o := by
  cases hfound : h.lookup o.base with
  | none =>
    have hne := List.find?_eq_none.mp hfound o ho
    simp at hne
  | some x =>
    obtain ⟨hx,hbase⟩ := Heap.lookup_some hfound
    by_contra hne
    rcases mem_cons.mp ((hinv.perm_others ho).mem_iff.mp hx) with rfl | hother
    · exact hne rfl
    · exact (Heap.mem_others.mp hother).2 hbase

end

/-- The objects at other addresses, in a memory that is the same where they are. -/
theorem Heap.Inv.restrict (hinv : h.Inv ks) (hobjs : h'.objs = h.others p)
    (hmem : ∀ o ∈ h.others p, ∀ x, o.base ≤ x → x < o.stop → h'.mem x = h.mem x) : h'.Inv ks where
  distinct := hobjs ▸ hinv.distinct.filter _
  good o ho := hinv.good o (Heap.mem_others.mp (hobjs ▸ ho)).1
  tail o ho hinit x hlo hhi := by
    rw [hobjs] at ho
    rw [hmem o ho x (by omega) hhi]
    exact hinv.tail o (Heap.mem_others.mp ho).1 hinit x hlo hhi

theorem Heap.Inv.cons (hinv : h.Inv ks) (hgood : o.Good ks) (hdistinct : ∀ x ∈ h.objs, Distinct o x)
    (htail : o.ZeroTail ks h'.mem) (hobjs : h'.objs = o :: h.objs)
    (hmem : ∀ x, x < o.base ∨ o.stop ≤ x → h'.mem x = h.mem x) : h'.Inv ks where
  distinct := hobjs ▸ pairwise_cons.mpr ⟨hdistinct,hinv.distinct⟩
  good x hx := by
    rw [hobjs] at hx
    rcases mem_cons.mp hx with rfl | hx
    · exact hgood
    · exact hinv.good x hx
  tail x hx := by
    rw [hobjs] at hx
    rcases mem_cons.mp hx with rfl | hx
    · exact htail
    · intro hinit y hlo hhi
      have hapart : o.stop ≤ x.base ∨ x.stop ≤ o.base := hdistinct x hx
      rw [hmem y (by omega)]
      exact hinv.tail x hx hinit y hlo hhi

theorem freeObj_mem (hgood : o.Good ks) (link : Nat → UInt8) {x : Nat} (hx : x < o.base ∨ o.stop ≤ x) :
    (freeObj ks h o link).mem x = h.mem x := by
  have hle := o.hbSz_le_extent
  have hpos := hgood.size_pos
  unfold granuleBytes at hpos
  unfold Obj.stop at hx
  unfold freeObj
  dsimp only
  split
  · rfl
  · dsimp only
    rw [if_neg (show ¬ (o.base ≤ x ∧ x < o.base + 8) by omega)]
    split
    · exact zero_outside (by omega)
    · rfl

theorem Heap.Inv.freeObj (hinv : h.Inv ks) (ho : o ∈ h.objs) (link : Nat → UInt8) :
    (freeObj ks h o link).Inv ks := by
  refine hinv.restrict rfl fun x hx y hlo hhi => freeObj_mem (hinv.good o ho) link ?_
  have hapart : o.stop ≤ x.base ∨ x.stop ≤ o.base := hinv.distinct_others ho hx
  omega

end Invariant

section Allocation

variable {ks : Kinds} {h : Heap} {a : Answer} {lb kind requested : Nat} {ignoreOffPage : Bool}

def Kinds.sizeFor (ks : Kinds) (a : Answer) (lb : Nat) (ignoreOffPage : Bool) : Nat :=
  if smallObj ks.extra lb then a.granules * granuleBytes
  else if ignoreOffPage ∧ hblkSize ≤ lb then sizetSatAdd lb (granuleBytes - 1) / granuleBytes * granuleBytes
  else sizetSatAdd lb (granuleBytes - 1 + ks.extra) / granuleBytes * granuleBytes

def Kinds.newObj (ks : Kinds) (a : Answer) (lb kind : Nat) (ignoreOffPage : Bool) (requested : Nat) : Obj :=
  let off := ignoreOffPage && !smallObj ks.extra lb
  ⟨a.base, ks.sizeFor a lb ignoreOffPage, kind, off, ks.descrFor kind off (ks.sizeFor a lb ignoreOffPage), requested⟩

/-- What the allocator below promises: room that is not in use, in the address space and, for a small
request, in an object of the size class; a free object of a cleared kind is zero but for its link. -/
@[mk_iff]
structure Answer.Valid (ks : Kinds) (h : Heap) (a : Answer) (lb kind : Nat) (ignoreOffPage : Bool) : Prop where
  base_pos : 0 < a.base
  stop_le : (ks.newObj a lb kind ignoreOffPage 0).stop ≤ wordMax + 1
  unused : ∀ x ∈ h.objs, Distinct (ks.newObj a lb kind ignoreOffPage 0) x
  enough : smallObj ks.extra lb = true →
    lb + ks.extra ≤ a.granules * granuleBytes ∧ a.granules * granuleBytes ≤ maxObjBytes ∧ 0 < a.granules
  cleared : smallObj ks.extra lb = true → (ks.objKinds kind).okInit = true →
    ∀ x, a.base + 8 ≤ x → x < a.base + a.granules * granuleBytes → h.mem x = 0

instance (ks : Kinds) (h : Heap) (lb kind : Nat) (ignoreOffPage : Bool) :
    DecidablePred fun a : Answer => a.Valid ks h lb kind ignoreOffPage :=
  fun a => decidable_of_iff' _ (a.valid_iff ks h lb kind ignoreOffPage)

structure Allocates (ks : Kinds) (h h' : Heap) (o : Obj) : Prop where
  objs : h'.objs = o :: h.objs
  mem : ∀ x, x < o.base ∨ o.stop ≤ x → h'.mem x = h.mem x
  cleared : (ks.objKinds o.kind).okInit = true → ∀ x, o.base ≤ x → x < o.stop → h'.mem x = 0

theorem allocSmall_allocates (hvalid : a.Valid ks h lb kind ignoreOffPage) (hsmall : smallObj ks.extra lb = true)
    {clearLink : Bool} (hlink : clearLink = true ∨ (ks.objKinds kind).okInit = false) :
    Allocates ks h (allocSmall ks h a kind requested clearLink) (ks.newObj a lb kind ignoreOffPage requested) := by
  obtain ⟨_,hle,hpos⟩ := hvalid.enough hsmall
  have hsz : ks.sizeFor a lb ignoreOffPage = a.granules * granuleBytes := if_pos hsmall
  have hstop : (ks.newObj a lb kind ignoreOffPage requested).stop = a.base + a.granules * granuleBytes := by
    rw [Obj.stop,Obj.extent,Kinds.newObj]
    dsimp only
    rw [hsz,if_neg (by omega)]
  have hgranule : 8 ≤ a.granules * granuleBytes := by
    unfold granuleBytes
    omega
  refine ⟨?_,fun x hx => ?_,fun hinit x hlo hhi => ?_⟩
  · simp only [allocSmall,Kinds.newObj,hsz,hsmall,Bool.not_true,Bool.and_false]
  · rw [hstop] at hx
    have hx' : x < a.base ∨ a.base + a.granules * granuleBytes ≤ x := hx
    unfold allocSmall
    dsimp only
    split
    · exact zero_outside (by omega)
    · rfl
  · have hinit' : (ks.objKinds kind).okInit = true := hinit
    have hlo' : a.base ≤ x := hlo
    rw [hstop] at hhi
    rcases hlink with hlink | hnot
    · rw [allocSmall,hlink]
      dsimp only
      rw [if_pos rfl]
      rcases Nat.lt_or_ge x (a.base + 8) with hword | hrest
      · exact zero_inside hlo' hword
      · exact zero_of_zero (hvalid.cleared hsmall hinit' x hrest hhi)
    · rw [hnot] at hinit'
      cases hinit'

theorem maxObjBytes_lt_sizeFor (hbig : smallObj ks.extra lb = false) :
    maxObjBytes < ks.sizeFor a lb ignoreOffPage := by
  have hextra : ks.extra ≤ 1 := by unfold Kinds.extra extraBytes; split <;> omega
  have hlb : maxObjBytes - ks.extra < lb := by simpa [smallObj] using hbig
  unfold Kinds.sizeFor sizetSatAdd
  rw [if_neg (by simp [hbig])]
  unfold maxObjBytes hblkSize granuleBytes wordMax at *
  split
  · split <;> omega
  · split <;> omega

theorem genericMallocAligned_allocates (hvalid : a.Valid ks h lb kind ignoreOffPage) :
    Allocates ks h (genericMallocAligned ks h a lb kind ignoreOffPage requested)
      (ks.newObj a lb kind ignoreOffPage requested) := by
  by_cases hsmall : smallObj ks.extra lb = true
  · rw [genericMallocAligned,if_pos hsmall]
    exact allocSmall_allocates hvalid hsmall (.inl rfl)
  · have hbig := Bool.eq_false_iff.mpr hsmall
    have hsz : ks.sizeFor a lb ignoreOffPage =
        if ignoreOffPage ∧ hblkSize ≤ lb then sizetSatAdd lb (granuleBytes - 1) / granuleBytes * granuleBytes
        else sizetSatAdd lb (granuleBytes - 1 + ks.extra) / granuleBytes * granuleBytes := if_neg hsmall
    have hstop : (ks.newObj a lb kind ignoreOffPage requested).stop =
        a.base + hblkSize * objSzToBlocks (ks.sizeFor a lb ignoreOffPage) := by
      rw [Obj.stop,Obj.extent,Kinds.newObj]
      dsimp only
      rw [if_pos (maxObjBytes_lt_sizeFor hbig),Nat.mul_comm]
    rw [genericMallocAligned,if_neg hsmall,← hsz,allocLarge]
    refine ⟨?_,fun x hx => ?_,fun hinit x hlo hhi => ?_⟩
    · simp only [Kinds.newObj,hbig,Bool.not_false,Bool.and_true]
    · rw [hstop] at hx
      have hx' : x < a.base ∨ a.base + hblkSize * objSzToBlocks (ks.sizeFor a lb ignoreOffPage) ≤ x := hx
      dsimp only
      split
      · exact zero_outside hx'
      · rfl
    · have hinit' : (ks.objKinds kind).okInit = true := hinit
      rw [hstop] at hhi
      dsimp only
      rw [if_pos (.inr hinit')]
      exact zero_inside hlo hhi

theorem lt_of_sat_fits {base lb k : Nat} (hbase : 0 < base)
    (hfits : base + objSzToBlocks (sizetSatAdd lb k / granuleBytes * granuleBytes) * hblkSize ≤ wordMax + 1) :
    sizetSatAdd lb k = lb + k := by
  unfold sizetSatAdd at *
  split
  · rfl
  · rename_i hsat
    rw [if_neg hsat] at hfits
    unfold objSzToBlocks divHblksz hblkSize granuleBytes wordMax at hfits
    omega

theorem newObj_good (hvalid : a.Valid ks h lb kind ignoreOffPage)
    (hreq : requested ≤ lb ∨ ignoreOffPage = false ∧ requested ≤ lb + ks.extra) :
    (ks.newObj a lb kind ignoreOffPage requested).Good ks := by
  have hextra : ks.extra ≤ 1 := by unfold Kinds.extra extraBytes; split <;> omega
  have hsize : granuleBytes ≤ ks.sizeFor a lb ignoreOffPage ∧ requested ≤ ks.sizeFor a lb ignoreOffPage := by
    by_cases hsmall : smallObj ks.extra lb = true
    · obtain ⟨henough,_,hpos⟩ := hvalid.enough hsmall
      rw [Kinds.sizeFor,if_pos hsmall]
      exact ⟨Nat.le_mul_of_pos_left _ hpos,by omega⟩
    · have hbig := @maxObjBytes_lt_sizeFor ks a lb ignoreOffPage (Bool.eq_false_iff.mpr hsmall)
      have hfits : a.base + objSzToBlocks (ks.sizeFor a lb ignoreOffPage) * hblkSize ≤ wordMax + 1 := by
        have hstop := hvalid.stop_le
        rw [Obj.stop,Obj.extent,Kinds.newObj] at hstop
        dsimp only at hstop
        rwa [if_pos hbig] at hstop
      refine ⟨by unfold maxObjBytes hblkSize granuleBytes at *; omega,?_⟩
      rw [Kinds.sizeFor,if_neg hsmall] at hfits ⊢
      split at hfits
      · rename_i hoff
        rw [if_pos hoff,lt_of_sat_fits hvalid.base_pos hfits]
        rcases hreq with hreq | ⟨hnot,_⟩
        · unfold granuleBytes
          omega
        · rw [hnot] at hoff
          simp at hoff
      · rename_i hoff
        rw [if_neg hoff,lt_of_sat_fits hvalid.base_pos hfits]
        unfold granuleBytes
        omega
  exact ⟨hvalid.base_pos,hvalid.stop_le,hsize.1,hsize.2,rfl⟩

theorem Allocates.inv {o : Obj} {h' : Heap} (halloc : Allocates ks h h' o) (hinv : h.Inv ks) (hgood : o.Good ks)
    (hunused : ∀ x ∈ h.objs, Distinct o x) : h'.Inv ks :=
  hinv.cons hgood hunused (fun hinit x hlo hhi => halloc.cleared hinit x (by omega) hhi) halloc.objs halloc.mem

def Kinds.passedDown (ks : Kinds) (lb kind : Nat) : Nat :=
  if isUncollectable kind then ks.withoutExtra lb else lb

def Kinds.counted (ks : Kinds) (a : Answer) (lb kind : Nat) : Bool :=
  isUncollectable kind && smallObj ks.extra (ks.passedDown lb kind) && a.onFreeList

theorem genericMallocAligned_nonGcBytes :
    (genericMallocAligned ks h a lb kind ignoreOffPage requested).nonGcBytes = h.nonGcBytes := by
  unfold genericMallocAligned
  split <;> rfl

theorem mallocKind_allocates (hvalid : a.Valid ks h lb kind false) :
    Allocates ks h (mallocKind ks h a lb kind) (ks.newObj a lb kind false lb) ∧
      (mallocKind ks h a lb kind).nonGcBytes = h.nonGcBytes := by
  unfold mallocKind
  split
  · rename_i hfast
    refine ⟨allocSmall_allocates hvalid hfast.1 ?_,rfl⟩
    by_cases hkind : kind = ptrfree
    · exact .inr (hkind ▸ ks.ptrfree_init)
    · exact .inl (decide_eq_true hkind)
  · exact ⟨genericMallocAligned_allocates hvalid,genericMallocAligned_nonGcBytes⟩

theorem genericMallocUncollectable_allocates (hvalid : a.Valid ks h (ks.withoutExtra lb) kind false) :
    Allocates ks h (genericMallocUncollectable ks h a lb kind) (ks.newObj a (ks.withoutExtra lb) kind false lb) ∧
      (genericMallocUncollectable ks h a lb kind).nonGcBytes = h.nonGcBytes +
        BitVec.ofNat 64 (if smallObj ks.extra (ks.withoutExtra lb) && a.onFreeList
          then ks.sizeFor a (ks.withoutExtra lb) false else 0) := by
  unfold genericMallocUncollectable
  dsimp only
  by_cases hsmall : smallObj ks.extra (ks.withoutExtra lb) = true
  · have halloc := @allocSmall_allocates ks h a (ks.withoutExtra lb) kind lb false hvalid hsmall true (.inl rfl)
    have hsz : ks.sizeFor a (ks.withoutExtra lb) false = a.granules * granuleBytes := if_pos hsmall
    rw [if_pos hsmall,hsmall,Bool.true_and,hsz]
    split
    · exact ⟨⟨halloc.objs,halloc.mem,halloc.cleared⟩,rfl⟩
    · exact ⟨halloc,(BitVec.add_zero _).symm⟩
  · rw [if_neg hsmall,Bool.eq_false_iff.mpr hsmall]
    exact ⟨genericMallocAligned_allocates hvalid,
      genericMallocAligned_nonGcBytes.trans (BitVec.add_zero _).symm⟩

theorem genericOrSpecialMalloc_allocates (hvalid : a.Valid ks h (ks.passedDown lb kind) kind false) :
    Allocates ks h (genericOrSpecialMalloc ks h a lb kind) (ks.newObj a (ks.passedDown lb kind) kind false lb) ∧
      (genericOrSpecialMalloc ks h a lb kind).nonGcBytes = h.nonGcBytes +
        BitVec.ofNat 64 (if ks.counted a lb kind then ks.sizeFor a (ks.passedDown lb kind) false else 0) := by
  unfold genericOrSpecialMalloc Kinds.counted Kinds.passedDown at *
  by_cases hunc : isUncollectable kind = true
  · have hkind : ¬ (kind = ptrfree ∨ kind = normal) := by
      rintro (rfl | rfl) <;> exact absurd hunc (by decide)
    rw [if_pos hunc] at hvalid
    rw [if_neg hkind,hunc,if_pos rfl,if_pos rfl,Bool.true_and]
    exact genericMallocUncollectable_allocates hvalid
  · rw [if_neg hunc] at hvalid
    rw [Bool.eq_false_iff.mpr hunc,Bool.false_and,Bool.false_and,if_neg Bool.false_ne_true,if_neg Bool.false_ne_true,
      if_neg Bool.false_ne_true,BitVec.add_zero]
    split
    · exact mallocKind_allocates hvalid
    · exact ⟨genericMallocAligned_allocates hvalid,genericMallocAligned_nonGcBytes⟩

theorem special_newObj_good (hvalid : a.Valid ks h (ks.passedDown lb kind) kind false) :
    (ks.newObj a (ks.passedDown lb kind) kind false lb).Good ks := by
  refine newObj_good hvalid (.inr ⟨rfl,?_⟩)
  unfold Kinds.passedDown Kinds.withoutExtra
  split
  · split <;> omega
  · omega

end Allocation

end GcUtil.Malloc.Objects
