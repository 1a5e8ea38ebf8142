import GcUtil.Malloc.Objects

/-! `GC_realloc` and `GC_realloc_no_shrink`, and the runs of a client that allocates, resizes, writes
and frees objects. -/
namespace GcUtil.Malloc.Realloc
open Basic SizeMap Library.Intervals Objects List

section Model

variable (ks : Kinds)

def wholeSize (sz : Nat) : Nat :=
  if maxObjBytes < sz then wordAdd sz (hblkSize - 1) / hblkSize * hblkSize else sz

def rounded (o : Obj) : Obj :=
  if maxObjBytes < o.hbSz then
    let ok := ks.objKinds o.kind
    let descr := ok.okDescriptor + if ks.extra ≠ 0 ∧ o.ignoreOffPage = true ∧ o.kind = normal then 8 else 0
    { o with
      hbSz := wholeSize o.hbSz
      hbDescr := if ok.okRelocateDescr then descr + BitVec.ofNat 64 (wholeSize o.hbSz) else descr }
  else o

/-- The part of both functions that is about large objects. -/
def roundHeader (h : Heap) (o : Obj) : Heap :=
  if maxObjBytes < o.hbSz then
    { h with
      objs := rounded ks o :: h.others o.base
      nonGcBytes :=
        if isUncollectable o.kind then h.nonGcBytes + (BitVec.ofNat 64 (wholeSize o.hbSz) - BitVec.ofNat 64 o.hbSz)
        else h.nonGcBytes }
  else h

def keepInPlace (h : Heap) (o : Obj) (origSz lb : Nat) : Heap :=
  { h with
    objs := { o with requested := lb } :: h.others o.base
    mem := if lb < origSz then zero h.mem (o.base + lb) (origSz - lb) else h.mem }

structure Env where
  answer : Option Answer
  link : Nat → UInt8

/-- A new object with the first `n` bytes of the old one, which is freed. -/
def moveObj (h : Heap) (o : Obj) (lb n : Nat) (env : Env) : Option Nat × Heap :=
  match env.answer with
  | none => (none, h)
  | some a =>
      let h := genericOrSpecialMalloc ks h a lb o.kind
      (some a.base, freeObj ks { h with mem := copy h.mem o.base a.base n } o env.link)

/-- `GC_malloc_kind` and the like, with no result if there is no memory. -/
def mallocWith (h : Heap) (lb kind : Nat) (answer : Option Answer) : Option Nat × Heap :=
  match answer with
  | none => (none, h)
  | some a => (some a.base, genericOrSpecialMalloc ks h a lb kind)

def free (h : Heap) (p : Nat) (link : Nat → UInt8) : Heap :=
  match h.lookup p with
  | none => h
  | some o => freeObj ks h o link

/-- Both functions: one that shrinks objects moves those of which less than half is asked for. -/
def reallocWith (shrinks : Bool) (ks : Kinds) (h : Heap) (p lb : Nat) (env : Env) : Option Nat × Heap :=
  if p = 0 then mallocWith ks h lb normal env.answer
  else if lb = 0 then (none, free ks h p env.link)
  else
    match h.lookup p with
    | none => (none, h)
    | some o =>
        let sz := wholeSize o.hbSz
        let h := roundHeader ks h o
        if ks.addExtraBytes lb ≤ sz then
          if shrinks ∧ lb < sz / 2 then moveObj ks h (rounded ks o) lb lb env
          else (some p, keepInPlace h (rounded ks o) o.hbSz lb)
        else moveObj ks h (rounded ks o) lb sz env

def realloc : Kinds → Heap → Nat → Nat → Env → Option Nat × Heap := reallocWith true

def reallocNoShrink : Kinds → Heap → Nat → Nat → Env → Option Nat × Heap := reallocWith false

/-- What a client does. A write goes to a byte that was asked for. -/
inductive Op where
  | malloc (lb kind : Nat) (answer : Option Answer)
  | mallocIgnoreOffPage (lb kind : Nat) (answer : Option Answer)
  | realloc (p lb : Nat) (env : Env)
  | reallocNoShrink (p lb : Nat) (env : Env)
  | free (p : Nat) (link : Nat → UInt8)
  | write (p i : Nat) (byte : UInt8)

def writeByte (h : Heap) (p i : Nat) (byte : UInt8) : Heap :=
  match h.lookup p with
  | none => h
  | some o => if i < o.requested then { h with mem := Function.update h.mem (p + i) byte } else h

def Op.run (h : Heap) : Op → Heap
  | .malloc lb kind answer => (mallocWith ks h lb kind answer).2
  | .mallocIgnoreOffPage lb kind answer =>
      match answer with
      | none => h
      | some a => genericMallocAligned ks h a lb kind true lb
  | .realloc p lb env => (Realloc.realloc ks h p lb env).2
  | .reallocNoShrink p lb env => (Realloc.reallocNoShrink ks h p lb env).2
  | .free p link => Realloc.free ks h p link
  | .write p i byte => writeByte h p i byte

def emptyHeap (mem : Nat → UInt8) : Heap := ⟨[], mem, 0⟩

def ValidAnswer (h : Heap) (lb kind : Nat) (answer : Option Answer) : Prop :=
  ∀ a, answer = some a → a.Valid ks h (ks.passedDown lb kind) kind false

def reallocKind (h : Heap) (p : Nat) : Nat := ((h.lookup p).map Obj.kind).getD normal

def Op.Valid (h : Heap) : Op → Prop
  | .malloc lb kind answer => ValidAnswer ks h lb kind answer
  | .mallocIgnoreOffPage lb kind answer => ∀ a, answer = some a → a.Valid ks h lb kind true
  | .realloc p lb env => ValidAnswer ks h lb (reallocKind h p) env.answer
  | .reallocNoShrink p lb env => ValidAnswer ks h lb (reallocKind h p) env.answer
  | .free _ _ => True
  | .write _ _ _ => True

def AllValid : Heap → List Op → Prop
  | _, [] => True
  | h, op :: ops => op.Valid ks h ∧ AllValid (op.run ks h) ops

instance (h : Heap) (lb kind : Nat) (answer : Option Answer) :
    Decidable (ValidAnswer ks h lb kind answer) :=
  inferInstanceAs (Decidable (∀ a ∈ answer, a.Valid ks h (ks.passedDown lb kind) kind false))

instance (h : Heap) : DecidablePred (Op.Valid ks h)
  | .malloc _ _ _ | .realloc _ _ _ | .reallocNoShrink _ _ _ => inferInstanceAs (Decidable (ValidAnswer ..))
  | .mallocIgnoreOffPage lb kind answer => inferInstanceAs (Decidable (∀ a ∈ answer, a.Valid ks h lb kind true))
  | .free _ _ | .write _ _ _ => instDecidableTrue

instance decidableAllValid : (h : Heap) → (ops : List Op) → Decidable (AllValid ks h ops)
  | _, [] => instDecidableTrue
  | h, op :: ops =>
    have := decidableAllValid (op.run ks h) ops
    inferInstanceAs (Decidable (_ ∧ _))

def runOps (h : Heap) (ops : List Op) : Heap := ops.foldl (fun h op => op.run ks h) h

end Model

section Rounding

variable {ks : Kinds} {h h' : Heap} {o o' : Obj} {p lb : Nat}

theorem wholeSize_eq_extent (hgood : o.Good ks) : wholeSize o.hbSz = o.extent := by
  have hstop := hgood.stop_le
  have hbase := hgood.base_pos
  unfold wholeSize Obj.stop Obj.extent at *
  split
  · rename_i hlarge
    rw [if_pos hlarge] at hstop
    unfold wordAdd objSzToBlocks divHblksz hblkSize wordMax at *
    omega
  · rfl

theorem rounded_base (ks : Kinds) (o : Obj) : (rounded ks o).base = o.base := by
  unfold rounded
  split <;> rfl

theorem rounded_kind (ks : Kinds) (o : Obj) : (rounded ks o).kind = o.kind := by
  unfold rounded
  split <;> rfl

theorem rounded_requested (ks : Kinds) (o : Obj) : (rounded ks o).requested = o.requested := by
  unfold rounded
  split <;> rfl

theorem rounded_hbSz (ks : Kinds) (o : Obj) : (rounded ks o).hbSz = wholeSize o.hbSz := by
  unfold rounded
  split
  · rfl
  · rename_i hsmall
    exact (if_neg hsmall).symm

theorem extent_extent (o : Obj) (hsz : o'.hbSz = o.extent) : o'.extent = o.extent := by
  rw [Obj.extent,hsz,Obj.extent]
  split
  · rename_i hlarge
    have hle : maxObjBytes < objSzToBlocks o.hbSz * hblkSize := by
      unfold objSzToBlocks divHblksz maxObjBytes hblkSize at *
      omega
    rw [if_pos hle,objSzToBlocks_mul]
  · rfl

theorem rounded_stop (hgood : o.Good ks) : (rounded ks o).stop = o.stop := by
  rw [Obj.stop,Obj.stop,rounded_base,extent_extent o (by rw [rounded_hbSz,wholeSize_eq_extent hgood])]

theorem rounded_good (hgood : o.Good ks) : (rounded ks o).Good ks := by
  have hsz := rounded_hbSz ks o
  have hextent := wholeSize_eq_extent hgood
  have hle := o.hbSz_le_extent
  refine ⟨by rw [rounded_base]; exact hgood.base_pos,by rw [rounded_stop hgood]; exact hgood.stop_le,?_,?_,?_⟩
  · have := hgood.size_pos
    omega
  · rw [rounded_requested]
    have := hgood.usable
    omega
  · unfold rounded
    split
    · rename_i hlarge
      have hblock : hblkSize ≤ wholeSize o.hbSz := by
        rw [hextent,Obj.extent,if_pos hlarge]
        unfold objSzToBlocks divHblksz maxObjBytes hblkSize at *
        omega
      simp only [Kinds.descrFor,hblock,and_true]
    · exact hgood.descr

theorem replace_inv (hinv : h.Inv ks) (ho : o ∈ h.objs) (hgood : o'.Good ks) (hbase : o'.base = o.base)
    (hstop : o'.stop = o.stop) (hobjs : h'.objs = o' :: h.others o.base) (htail : o'.ZeroTail ks h'.mem)
    (hmem : ∀ x, x < o.base ∨ o.stop ≤ x → h'.mem x = h.mem x) : h'.Inv ks := by
  have hrest : Heap.Inv ks { h with objs := h.others o.base } := hinv.restrict rfl fun _ _ _ _ _ => rfl
  refine hrest.cons hgood (fun x hx => ?_) htail hobjs fun x hx => hmem x (by omega)
  have hapart : o.stop ≤ x.base ∨ x.stop ≤ o.base := hinv.distinct_others ho hx
  unfold Distinct Apart
  omega

theorem roundHeader_inv (hinv : h.Inv ks) (ho : o ∈ h.objs) : (roundHeader ks h o).Inv ks := by
  unfold Realloc.roundHeader
  split
  · refine replace_inv hinv ho (rounded_good (hinv.good o ho)) (rounded_base ks o)
      (rounded_stop (hinv.good o ho)) rfl ?_ fun _ _ => rfl
    intro hinit x hlo hhi
    rw [rounded_kind] at hinit
    rw [rounded_base,rounded_requested] at hlo
    rw [rounded_stop (hinv.good o ho)] at hhi
    exact hinv.tail o ho hinit x hlo hhi
  · exact hinv

theorem roundHeader_mem (ks : Kinds) (h : Heap) (o : Obj) : (roundHeader ks h o).mem = h.mem := by
  unfold Realloc.roundHeader
  split <;> rfl

theorem rounded_mem_roundHeader (ho : o ∈ h.objs) : rounded ks o ∈ (roundHeader ks h o).objs := by
  unfold Realloc.roundHeader
  split
  · exact mem_cons_self
  · rename_i hsmall
    rw [rounded,if_neg hsmall]
    exact ho

theorem exists_of_mem_roundHeader (hinv : h.Inv ks) (ho : o ∈ h.objs) {x : Obj}
    (hx : x ∈ (roundHeader ks h o).objs) : ∃ y ∈ h.objs, y.base = x.base ∧ y.stop = x.stop := by
  unfold Realloc.roundHeader at hx
  split at hx
  · rcases mem_cons.mp hx with rfl | hx
    · exact ⟨o,ho,(rounded_base ks o).symm,(rounded_stop (hinv.good o ho)).symm⟩
    · exact ⟨x,(Heap.mem_others.mp hx).1,rfl,rfl⟩
  · exact ⟨x,hx,rfl,rfl⟩

end Rounding

section Resizing

variable {ks : Kinds} {h : Heap} {o : Obj} {a : Answer} {p lb n : Nat} {env : Env}

def Preserves (ks : Kinds) (h : Heap) (o : Obj) (lb : Nat) : Option Nat × Heap → Prop
  | (none, h') => h'.mem = h.mem ∧ ∃ o' ∈ h'.objs, o'.base = o.base ∧ o'.kind = o.kind ∧
      o.hbSz ≤ o'.hbSz ∧ o'.requested = o.requested
  | (some q, h') => (∀ i < min o.hbSz lb, h'.mem (q + i) = h.mem (o.base + i)) ∧
      ∃ o' ∈ h'.objs, o'.base = q ∧ o'.kind = o.kind ∧ lb ≤ o'.hbSz ∧
        (q = o.base → o'.hbSz = wholeSize o.hbSz ∧ o'.hbDescr = ks.descrFor o'.kind o'.ignoreOffPage o'.hbSz ∧
          ∀ i, lb ≤ i → i < o.hbSz → h'.mem (q + i) = 0)

theorem le_of_addExtraBytes_le (hgood : o.Good ks) (hle : ks.addExtraBytes lb ≤ wholeSize o.hbSz) :
    lb ≤ wholeSize o.hbSz := by
  have hextent := wholeSize_eq_extent hgood
  unfold Kinds.addExtraBytes sizetSatAdd at hle
  split at hle
  · omega
  · unfold wholeSize at *
    split at hle
    · unfold wordAdd hblkSize wordMax at *
      omega
    · rename_i hsmall
      unfold maxObjBytes hblkSize wordMax at *
      omega

/-- A request that does not fit is at least as large as the object. -/
theorem le_of_lt_addExtraBytes (hgood : o.Good ks) (hlt : wholeSize o.hbSz < ks.addExtraBytes lb) :
    wholeSize o.hbSz ≤ lb := by
  have hextra : ks.extra ≤ 1 := by unfold Kinds.extra extraBytes; split <;> omega
  have hextent := wholeSize_eq_extent hgood
  unfold Kinds.addExtraBytes sizetSatAdd at hlt
  split at hlt
  · omega
  · unfold wordMax at *
    omega

theorem keepInPlace_mem (ks : Kinds) (h : Heap) (o : Obj) (lb x : Nat) :
    (keepInPlace (roundHeader ks h o) (rounded ks o) o.hbSz lb).mem x =
      if o.base + lb ≤ x ∧ x < o.base + o.hbSz then 0 else h.mem x := by
  unfold keepInPlace
  dsimp only
  rw [roundHeader_mem,rounded_base]
  by_cases hlt : lb < o.hbSz
  · have hsum : o.base + lb + (o.hbSz - lb) = o.base + o.hbSz := by omega
    rw [if_pos hlt,zero,hsum]
  · rw [if_neg hlt,if_neg (by omega)]

section

variable (hinv : h.Inv ks) (ho : o ∈ h.objs)
include hinv ho

theorem keepInPlace_inv (hlb : lb ≤ wholeSize o.hbSz) :
    (keepInPlace (roundHeader ks h o) (rounded ks o) o.hbSz lb).Inv ks := by
  have hgood := hinv.good o ho
  have hround := rounded_good hgood
  have hstop := rounded_stop hgood
  have hgood' : Obj.Good ks { rounded ks o with requested := lb } :=
    ⟨hround.base_pos,hround.stop_le,hround.size_pos,hlb.trans (Nat.le_of_eq (rounded_hbSz ks o).symm),hround.descr⟩
  have hsize : o.base + o.hbSz ≤ o.stop := Nat.add_le_add_left o.hbSz_le_extent _
  refine replace_inv (roundHeader_inv hinv ho) (rounded_mem_roundHeader ho) hgood' rfl rfl rfl ?_ ?_
  · intro hinit x hlo hhi
    have hinit' : (ks.objKinds o.kind).okInit = true := rounded_kind ks o ▸ hinit
    have hlo' : o.base + lb ≤ x := rounded_base ks o ▸ hlo
    have hhi' : x < o.stop := hstop ▸ hhi
    have husable := hgood.usable
    rw [keepInPlace_mem]
    split
    · rfl
    · exact hinv.tail o ho hinit' x (by omega) hhi'
  · intro x hx
    rw [rounded_base,hstop] at hx
    rw [keepInPlace_mem,roundHeader_mem,if_neg (by omega)]

theorem keepInPlace_preserves (hlb : lb ≤ wholeSize o.hbSz) :
    Preserves ks h o lb (some o.base, keepInPlace (roundHeader ks h o) (rounded ks o) o.hbSz lb) := by
  refine ⟨fun i hi => ?_,{ rounded ks o with requested := lb },mem_cons_self,rounded_base ks o,
    rounded_kind ks o,hlb.trans (Nat.le_of_eq (rounded_hbSz ks o).symm),
    fun _ => ⟨rounded_hbSz ks o,(rounded_good (hinv.good o ho)).descr,fun i hlo hhi => ?_⟩⟩
  · rw [keepInPlace_mem,if_neg (by omega)]
  · rw [keepInPlace_mem,if_pos (by omega)]

theorem valid_roundHeader {kind : Nat}
    (hvalid : a.Valid ks h lb kind false) : a.Valid ks (roundHeader ks h o) lb kind false where
  base_pos := hvalid.base_pos
  stop_le := hvalid.stop_le
  unused x hx := by
    obtain ⟨y,hy,hbase,hstop⟩ := exists_of_mem_roundHeader hinv ho hx
    have hdistinct := hvalid.unused y hy
    unfold Distinct Apart at hdistinct ⊢
    rwa [hbase,hstop] at hdistinct
  enough := hvalid.enough
  cleared hsmall hinit x hlo hhi := by
    rw [roundHeader_mem]
    exact hvalid.cleared hsmall hinit x hlo hhi

end

/-- The heap in which the new object has its bytes and the old one is still there. -/
theorem copied_inv {h' : Heap} {new : Obj} (hinv : h.Inv ks) (halloc : Allocates ks h h' new) (hgood : new.Good ks)
    (hunused : ∀ x ∈ h.objs, Distinct new x) (hn : n ≤ new.requested) (src : Nat) :
    Heap.Inv ks { h' with mem := copy h'.mem src new.base n } := by
  have hsize : new.base + n ≤ new.stop :=
    Nat.add_le_add_left ((hn.trans hgood.usable).trans new.hbSz_le_extent) _
  refine hinv.cons hgood hunused (fun hinit x hlo hhi => ?_) halloc.objs fun x hx => ?_
  · dsimp only
    rw [copy_outside (by omega)]
    exact halloc.cleared hinit x (by omega) hhi
  · dsimp only
    rw [copy_outside (by omega)]
    exact halloc.mem x hx

section

variable (hinv : h.Inv ks) (ho : o ∈ h.objs)
include hinv ho

theorem moveObj_cases (hvalid : ValidAnswer ks h lb o.kind env.answer)
    (hn : n ≤ lb) (hn' : n ≤ o.hbSz) :
    moveObj ks h o lb n env = (none, h) ∨
    ∃ new h', moveObj ks h o lb n env = (some new.base, h') ∧ h'.Inv ks ∧ new ∈ h'.objs ∧ new.base ≠ o.base ∧
      new.kind = o.kind ∧ lb ≤ new.hbSz ∧ ∀ i < n, h'.mem (new.base + i) = h.mem (o.base + i) := by
  unfold moveObj
  cases hanswer : env.answer with
  | none => exact .inl rfl
  | some a =>
    have hvalid := hvalid a hanswer
    have hgood := special_newObj_good hvalid
    obtain ⟨halloc,_⟩ := genericOrSpecialMalloc_allocates hvalid
    have hunused : ∀ x ∈ h.objs, Distinct (ks.newObj a (ks.passedDown lb o.kind) o.kind false lb) x := hvalid.unused
    have hcopied := copied_inv hinv halloc hgood hunused hn o.base
    have hmem : o ∈ (genericOrSpecialMalloc ks h a lb o.kind).objs := by
      rw [halloc.objs]
      exact mem_cons_of_mem _ ho
    have hne := (hunused o ho).base_ne hgood (hinv.good o ho)
    refine .inr ⟨ks.newObj a (ks.passedDown lb o.kind) o.kind false lb,_,rfl,
      hcopied.freeObj hmem env.link,?_,hne,rfl,hgood.usable,fun i hi => ?_⟩
    · refine Heap.mem_others.mpr ⟨?_,hne⟩
      dsimp only
      rw [halloc.objs]
      exact mem_cons_self
    · have hapart : (ks.newObj a (ks.passedDown lb o.kind) o.kind false lb).stop ≤ o.base ∨
          o.stop ≤ (ks.newObj a (ks.passedDown lb o.kind) o.kind false lb).base := hunused o ho
      have hnew : (ks.newObj a (ks.passedDown lb o.kind) o.kind false lb).base + n ≤
          (ks.newObj a (ks.passedDown lb o.kind) o.kind false lb).stop :=
        Nat.add_le_add_left ((hn.trans hgood.usable).trans (Obj.hbSz_le_extent _)) _
      have hold : o.base + n ≤ o.stop := Nat.add_le_add_left (hn'.trans o.hbSz_le_extent) _
      rw [freeObj_mem (hinv.good o ho) env.link (by omega)]
      exact (copy_inside hi).trans (halloc.mem _ (by omega))

theorem moveRounded_preserves (hvalid : ValidAnswer ks h lb o.kind env.answer)
    (hn : n ≤ lb) (hn' : n ≤ wholeSize o.hbSz) (hmin : min o.hbSz lb ≤ n) :
    Preserves ks h o lb (moveObj ks (roundHeader ks h o) (rounded ks o) lb n env) ∧
      (moveObj ks (roundHeader ks h o) (rounded ks o) lb n env).2.Inv ks := by
  have hround := roundHeader_inv hinv ho
  have hvalid' : ValidAnswer ks (roundHeader ks h o) lb (rounded ks o).kind env.answer := by
    rw [rounded_kind]
    exact fun a ha => valid_roundHeader hinv ho (hvalid a ha)
  rcases moveObj_cases hround (rounded_mem_roundHeader ho) hvalid' hn (by rwa [rounded_hbSz]) with heq |
    ⟨new,h',heq,hinv',hnew,hne,hkind,husable,hbytes⟩
  · rw [heq]
    refine ⟨⟨roundHeader_mem ks h o,rounded ks o,rounded_mem_roundHeader ho,rounded_base ks o,rounded_kind ks o,
      ?_,rounded_requested ks o⟩,hround⟩
    rw [rounded_hbSz,wholeSize_eq_extent (hinv.good o ho)]
    exact o.hbSz_le_extent
  · rw [heq]
    rw [rounded_base] at hne
    refine ⟨⟨fun i hi => ?_,new,hnew,rfl,hkind.trans (rounded_kind ks o),husable,fun hq => absurd hq hne⟩,hinv'⟩
    rw [hbytes i (by omega),roundHeader_mem,rounded_base]

theorem reallocKind_of_mem : reallocKind h o.base = o.kind := by
  rw [reallocKind,hinv.lookup_mem ho]
  rfl

theorem reallocWith_of_mem (shrinks : Bool) (hlb : 0 < lb) :
    reallocWith shrinks ks h o.base lb env =
      if ks.addExtraBytes lb ≤ wholeSize o.hbSz then
        if shrinks ∧ lb < wholeSize o.hbSz / 2 then moveObj ks (roundHeader ks h o) (rounded ks o) lb lb env
        else (some o.base, keepInPlace (roundHeader ks h o) (rounded ks o) o.hbSz lb)
      else moveObj ks (roundHeader ks h o) (rounded ks o) lb (wholeSize o.hbSz) env := by
  have hbase := (hinv.good o ho).base_pos
  rw [reallocWith,if_neg (by omega),if_neg (by omega),hinv.lookup_mem ho]

theorem reallocWith_preserves (shrinks : Bool) (hlb : 0 < lb)
    (hvalid : ValidAnswer ks h lb (reallocKind h o.base) env.answer) :
    Preserves ks h o lb (reallocWith shrinks ks h o.base lb env) ∧
      (reallocWith shrinks ks h o.base lb env).2.Inv ks := by
  have hgood := hinv.good o ho
  rw [reallocKind_of_mem hinv ho] at hvalid
  rw [reallocWith_of_mem hinv ho shrinks hlb]
  split
  · rename_i hfits
    have hle := le_of_addExtraBytes_le hgood hfits
    split
    · exact moveRounded_preserves hinv ho hvalid (Nat.le_refl _) hle (Nat.min_le_right _ _)
    · exact ⟨keepInPlace_preserves hinv ho hle,keepInPlace_inv hinv ho hle⟩
  · rename_i hfits
    have hle := le_of_lt_addExtraBytes hgood (Nat.lt_of_not_le hfits)
    have hextent := wholeSize_eq_extent hgood
    have hsize := o.hbSz_le_extent
    exact moveRounded_preserves hinv ho hvalid hle (Nat.le_refl _) (by omega)

end

end Resizing

section Runs

variable {ks : Kinds} {h : Heap}

theorem emptyHeap_inv (ks : Kinds) (mem : Nat → UInt8) : (emptyHeap mem).Inv ks where
  distinct := List.Pairwise.nil
  good _ ho := absurd ho not_mem_nil
  tail _ ho := absurd ho not_mem_nil

section

variable (hinv : h.Inv ks)
include hinv

theorem mallocWith_inv {lb kind : Nat} {answer : Option Answer}
    (hvalid : ValidAnswer ks h lb kind answer) : (mallocWith ks h lb kind answer).2.Inv ks := by
  unfold mallocWith
  cases hanswer : answer with
  | none => exact hinv
  | some a =>
    have hvalid := hvalid a hanswer
    exact (genericOrSpecialMalloc_allocates hvalid).1.inv hinv (special_newObj_good hvalid) hvalid.unused

theorem free_inv (p : Nat) (link : Nat → UInt8) : (free ks h p link).Inv ks := by
  unfold free
  cases hfound : h.lookup p with
  | none => exact hinv
  | some o => exact hinv.freeObj (Heap.lookup_some hfound).1 link

theorem writeByte_inv (p i : Nat) (byte : UInt8) : (writeByte h p i byte).Inv ks := by
  unfold writeByte
  cases hfound : h.lookup p with
  | none => exact hinv
  | some o =>
    obtain ⟨ho,rfl⟩ := Heap.lookup_some hfound
    dsimp only
    split
    · rename_i hi
      have husable := (hinv.good o ho).usable
      have hsize := o.hbSz_le_extent
      refine ⟨hinv.distinct,hinv.good,fun x hx hinit y hlo hhi => ?_⟩
      have hne : y ≠ o.base + i := by
        by_cases hbase : x.base = o.base
        · have hsame : x = o := Option.some.inj ((hbase ▸ hinv.lookup_mem hx).symm.trans hfound)
          rw [hsame] at hlo
          omega
        · have hapart : o.stop ≤ x.base ∨ x.stop ≤ o.base := hinv.distinct_others ho (Heap.mem_others.mpr ⟨hx,hbase⟩)
          unfold Obj.stop at *
          omega
      dsimp only
      rw [Function.update_of_ne hne]
      exact hinv.tail x hx hinit y hlo hhi
    · exact hinv

theorem reallocWith_inv (shrinks : Bool) {p lb : Nat} {env : Env}
    (hvalid : ValidAnswer ks h lb (reallocKind h p) env.answer) : (reallocWith shrinks ks h p lb env).2.Inv ks := by
  by_cases hp : p = 0
  · have hkind : reallocKind h p = normal := by
      rw [reallocKind]
      cases hfound : h.lookup p with
      | none => rfl
      | some o =>
        obtain ⟨ho,hbase⟩ := Heap.lookup_some hfound
        have := (hinv.good o ho).base_pos
        omega
    rw [hkind] at hvalid
    rw [reallocWith,if_pos hp]
    exact mallocWith_inv hinv hvalid
  · by_cases hlb : lb = 0
    · rw [reallocWith,if_neg hp,if_pos hlb]
      exact free_inv hinv p env.link
    · cases hfound : h.lookup p with
      | none =>
        rw [reallocWith,if_neg hp,if_neg hlb,hfound]
        exact hinv
      | some o =>
        obtain ⟨ho,rfl⟩ := Heap.lookup_some hfound
        exact (reallocWith_preserves hinv ho shrinks (Nat.pos_of_ne_zero hlb) hvalid).2

theorem Op.run_inv (op : Op) (hvalid : op.Valid ks h) : (op.run ks h).Inv ks := by
  cases op with
  | malloc lb kind answer => exact mallocWith_inv hinv hvalid
  | mallocIgnoreOffPage lb kind answer =>
    cases hanswer : answer with
    | none => exact hinv
    | some a =>
      have hvalid := hvalid a hanswer
      exact (genericMallocAligned_allocates hvalid).inv hinv (newObj_good hvalid (.inl (Nat.le_refl lb))) hvalid.unused
  | realloc p lb env => exact reallocWith_inv hinv true hvalid
  | reallocNoShrink p lb env => exact reallocWith_inv hinv false hvalid
  | free p link => exact free_inv hinv p link
  | write p i byte => exact writeByte_inv hinv p i byte

theorem runOps_inv (ops : List Op) (hvalid : AllValid ks h ops) : (runOps ks h ops).Inv ks := by
  induction ops generalizing h with
  | nil => exact hinv
  | cons op ops ih => exact ih (op.run_inv hinv hvalid.1) hvalid.2

end

/-- In the heap after any run every byte of a cleared kind behind the last requested size is zero; a
reallocation of any object has no result and leaves the bytes as they are, or it gives an object of the
requested size with the old bytes; and the two functions differ only if less than half is asked for. -/
theorem runOps_realloc (ks : Kinds) (mem : Nat → UInt8) (ops : List Op) (hvalid : AllValid ks (emptyHeap mem) ops) :
    let h := runOps ks (emptyHeap mem) ops
    (∀ o ∈ h.objs, o.ZeroTail ks h.mem) ∧
    ∀ o ∈ h.objs, ∀ lb env, 0 < lb → ValidAnswer ks h lb o.kind env.answer →
      Preserves ks h o lb (realloc ks h o.base lb env) ∧
      Preserves ks h o lb (reallocNoShrink ks h o.base lb env) ∧
      (wholeSize o.hbSz / 2 ≤ lb → realloc ks h o.base lb env = reallocNoShrink ks h o.base lb env) := by
  have hinv := runOps_inv (emptyHeap_inv ks mem) ops hvalid
  refine ⟨hinv.tail,fun o ho lb env hlb hanswer => ?_⟩
  rw [← reallocKind_of_mem hinv ho] at hanswer
  refine ⟨(reallocWith_preserves hinv ho true hlb hanswer).1,(reallocWith_preserves hinv ho false hlb hanswer).1,
    fun hhalf => ?_⟩
  rw [realloc,reallocNoShrink,reallocWith_of_mem hinv ho true hlb,reallocWith_of_mem hinv ho false hlb]
  simp [Nat.not_lt.mpr hhalf]

def initialKinds : Kinds where
  allInteriorPointers := true
  debuggingStarted := false
  objKinds kind := if kind = ptrfree ∨ kind = auncollectable then ⟨0, false, false⟩ else ⟨0, true, true⟩
  ptrfree_init := rfl

/-- An object for 100 bytes that shrinks in place and moves to a class of 13 granules. -/
def resizes (kind : Nat) : List Op :=
  [.malloc 100 kind (some ⟨4096, 7, true⟩), .write 4096 80 5, .realloc 4096 90 ⟨none, fun _ => 0⟩,
    .realloc 4096 200 ⟨some ⟨8192, 13, true⟩, fun _ => 0⟩]

/-- Another 195 bytes fit into the object; for 300 it moves, with all that it has. -/
theorem runOps_realloc_resizes :
    let h := runOps initialKinds (emptyHeap fun _ => 0) (resizes normal)
    let inPlace : Env := ⟨none, fun _ => 0⟩
    let moving : Env := ⟨some ⟨12288, 20, true⟩, fun _ => 0⟩
    AllValid initialKinds (emptyHeap fun _ => 0) (resizes normal) ∧ h.objs.length = 1 ∧ h.mem 8272 = 5 ∧
    ∀ o ∈ h.objs, o.ZeroTail initialKinds h.mem ∧
      (realloc initialKinds h o.base 195 inPlace).1 = some 8192 ∧
      Preserves initialKinds h o 195 (realloc initialKinds h o.base 195 inPlace) ∧
      (realloc initialKinds h o.base 300 moving).1 = some 12288 ∧
      Preserves initialKinds h o 300 (realloc initialKinds h o.base 300 moving) := by
  intro h inPlace moving
  have hvalid : AllValid initialKinds (emptyHeap fun _ => 0) (resizes normal) := by decide +kernel
  obtain ⟨htail,hall⟩ := runOps_realloc initialKinds _ _ hvalid
  have hanswer : ∀ o ∈ h.objs, ValidAnswer initialKinds h 300 o.kind moving.answer := by decide +kernel
  have hplace : ∀ o ∈ h.objs, (realloc initialKinds h o.base 195 inPlace).1 = some 8192 := by decide +kernel
  have hmove : ∀ o ∈ h.objs, (realloc initialKinds h o.base 300 moving).1 = some 12288 := by decide +kernel
  exact ⟨hvalid,by decide +kernel,by decide +kernel,fun o ho => ⟨htail o ho,hplace o ho,
    (hall o ho 195 inPlace (by decide) nofun).1,hmove o ho,(hall o ho 300 moving (by decide) (hanswer o ho)).1⟩⟩

end Runs

end GcUtil.Malloc.Realloc
