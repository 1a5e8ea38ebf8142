import GcUtil.Malloc.Realloc

/-! `GC_non_gc_bytes` against the uncollectable objects of the heap. The counter is raised only by the
fast path of `GC_generic_malloc_uncollectable` and by a reallocation that rounds a size up, and lowered
by every `GC_free`. -/
namespace GcUtil.Malloc.NonGcBytes
open Basic SizeMap Library.Intervals Objects Realloc

section Drift

variable {ks : Kinds} {h h' : Heap} {o : Obj} {a : Answer} {l l' : List Obj} {p lb kind n : Nat} {env : Env}

def uncollectableSize (o : Obj) : Nat := if isUncollectable o.kind then o.hbSz else 0

def uncollectableBytes (l : List Obj) : Nat := (l.map uncollectableSize).sum

def Accurate (h : Heap) : Prop := h.nonGcBytes.toNat = uncollectableBytes h.objs

instance (h : Heap) : Decidable (Accurate h) := inferInstanceAs (Decidable (_ = _))

def drift (h : Heap) : BitVec 64 := BitVec.ofNat 64 (uncollectableBytes h.objs) - h.nonGcBytes

theorem uncollectableBytes_cons (o : Obj) (l : List Obj) :
    uncollectableBytes (o :: l) = uncollectableSize o + uncollectableBytes l := by
  simp [uncollectableBytes]

theorem uncollectableBytes_perm (h : l.Perm l') : uncollectableBytes l = uncollectableBytes l' :=
  (h.map uncollectableSize).sum_eq

theorem uncollectableBytes_le (hinv : h.Inv ks) : uncollectableBytes h.objs ≤ wordMax := by
  have hbound : ∀ o ∈ h.objs, 1 ≤ o.base ∧ o.base ≤ o.stop ∧ o.stop ≤ wordMax + 1 := fun o ho =>
    ⟨(hinv.good o ho).base_pos,Nat.le_add_right _ _,(hinv.good o ho).stop_le⟩
  have hsum := sum_length_le Obj.base Obj.stop hinv.distinct hbound
  refine Nat.le_trans (List.sum_le_sum fun o _ => ?_) hsum
  have hsize := o.hbSz_le_extent
  unfold uncollectableSize Obj.stop
  split <;> omega

theorem accurate_iff (hinv : h.Inv ks) : Accurate h ↔ drift h = 0#64 := by
  have hle := uncollectableBytes_le hinv
  unfold Accurate drift
  rw [BitVec.sub_eq_iff_eq_add,BitVec.zero_add,← BitVec.toNat_inj,BitVec.toNat_ofNat,
    Nat.mod_eq_of_lt (by unfold wordMax at hle; omega),eq_comm]

theorem drift_change (out counted missed : Nat)
    (hobjs : uncollectableBytes h'.objs + out = uncollectableBytes h.objs + (counted + missed))
    (hcount : h'.nonGcBytes + BitVec.ofNat 64 out = h.nonGcBytes + BitVec.ofNat 64 counted) :
    drift h' = drift h + BitVec.ofNat 64 missed := by
  have hobjs' := congrArg (BitVec.ofNat 64) hobjs
  simp only [BitVec.ofNat_add] at hobjs'
  unfold drift
  linear_combination hobjs' - hcount

theorem drift_same (hobjs : uncollectableBytes h'.objs = uncollectableBytes h.objs)
    (hcount : h'.nonGcBytes = h.nonGcBytes) : drift h' = drift h := by
  rw [drift,drift,hobjs,hcount]

def uncounted (ks : Kinds) (a : Answer) (lb kind : Nat) : Nat :=
  if isUncollectable kind = true ∧ ks.counted a lb kind = false then ks.sizeFor a (ks.passedDown lb kind) false else 0

theorem drift_malloc (hvalid : a.Valid ks h (ks.passedDown lb kind) kind false) :
    drift (genericOrSpecialMalloc ks h a lb kind) = drift h + BitVec.ofNat 64 (uncounted ks a lb kind) := by
  obtain ⟨halloc,hcount⟩ := genericOrSpecialMalloc_allocates hvalid
  have hnew : uncollectableSize (ks.newObj a (ks.passedDown lb kind) kind false lb) =
      (if ks.counted a lb kind then ks.sizeFor a (ks.passedDown lb kind) false else 0) + uncounted ks a lb kind := by
    unfold uncollectableSize uncounted
    cases hunc : isUncollectable kind <;> cases hc : ks.counted a lb kind <;> simp_all [Kinds.newObj,Kinds.counted]
  refine drift_change 0 (if ks.counted a lb kind then ks.sizeFor a (ks.passedDown lb kind) false else 0) _ ?_ ?_
  · rw [halloc.objs,uncollectableBytes_cons,hnew]
    omega
  · rw [hcount,BitVec.add_zero]

section

variable (hinv : h.Inv ks) (ho : o ∈ h.objs)
include hinv ho

theorem drift_free (link : Nat → UInt8) : drift (freeObj ks h o link) = drift h := by
  have hsum := uncollectableBytes_perm (hinv.perm_others ho)
  rw [uncollectableBytes_cons] at hsum
  have hchange := @drift_change h (freeObj ks h o link) (uncollectableSize o) 0 0 ?_ ?_
  · simpa using hchange
  · rw [hsum,show (freeObj ks h o link).objs = h.others o.base from rfl]
    omega
  · unfold uncollectableSize freeObj
    dsimp only
    split
    · rw [BitVec.sub_add_cancel,BitVec.add_zero]
    · rfl

theorem drift_roundHeader : drift (roundHeader ks h o) = drift h := by
  have hsum := uncollectableBytes_perm (hinv.perm_others ho)
  rw [uncollectableBytes_cons] at hsum
  by_cases hlarge : maxObjBytes < o.hbSz
  · have hchange := @drift_change h (roundHeader ks h o) (uncollectableSize o)
      (uncollectableSize (rounded ks o)) 0 ?_ ?_
    · simpa using hchange
    · rw [roundHeader,if_pos hlarge]
      dsimp only
      rw [uncollectableBytes_cons,hsum]
      omega
    · unfold uncollectableSize
      rw [roundHeader,if_pos hlarge,rounded_kind,rounded_hbSz]
      dsimp only
      split
      · rw [BitVec.add_assoc,BitVec.sub_add_cancel]
      · rfl
  · rw [roundHeader,if_neg hlarge]

theorem drift_keepInPlace (origSz lb : Nat) :
    drift (keepInPlace h o origSz lb) = drift h := by
  refine drift_same ?_ rfl
  rw [uncollectableBytes_perm (hinv.perm_others ho),keepInPlace,uncollectableBytes_cons,uncollectableBytes_cons]
  rfl

theorem drift_moveObj (hvalid : ValidAnswer ks h lb o.kind env.answer) (hn : n ≤ lb) :
    drift (moveObj ks h o lb n env).2 =
      drift h + BitVec.ofNat 64 (env.answer.elim 0 fun a => uncounted ks a lb o.kind) := by
  unfold moveObj
  cases hanswer : env.answer with
  | none => simp
  | some a =>
    have hvalid := hvalid a hanswer
    obtain ⟨halloc,_⟩ := genericOrSpecialMalloc_allocates hvalid
    have hcopied := copied_inv hinv halloc (special_newObj_good hvalid) hvalid.unused hn o.base
    have hmem : o ∈ (genericOrSpecialMalloc ks h a lb o.kind).objs := by
      rw [halloc.objs]
      exact List.mem_cons_of_mem _ ho
    refine (drift_free hcopied hmem env.link).trans ?_
    exact drift_malloc hvalid

end

end Drift

section Runs

variable {ks : Kinds} {h : Heap} {o : Obj} {p lb kind n : Nat} {env : Env} {answer : Option Answer}

def FastPath (ks : Kinds) (a : Answer) (lb kind : Nat) : Prop :=
  smallObj ks.extra (ks.passedDown lb kind) = true ∧ a.onFreeList = true

def CountedAnswer (ks : Kinds) (lb kind : Nat) (answer : Option Answer) : Prop :=
  isUncollectable kind = true → ∀ a, answer = some a → FastPath ks a lb kind

/-- The condition on an operation: a request for an uncollectable object that it makes is counted. -/
def Counted (ks : Kinds) (h : Heap) : Op → Prop
  | .malloc lb kind answer => CountedAnswer ks lb kind answer
  | .mallocIgnoreOffPage _ kind answer => isUncollectable kind = true → answer = none
  | .realloc p lb env => ∀ o, h.lookup p = some o → 0 < lb →
      ¬ (ks.addExtraBytes lb ≤ wholeSize o.hbSz ∧ wholeSize o.hbSz / 2 ≤ lb) → CountedAnswer ks lb o.kind env.answer
  | .reallocNoShrink p lb env => ∀ o, h.lookup p = some o → 0 < lb →
      ¬ ks.addExtraBytes lb ≤ wholeSize o.hbSz → CountedAnswer ks lb o.kind env.answer
  | .free _ _ => True
  | .write _ _ _ => True

theorem hbSz_le_wordMax (hgood : o.Good ks) : o.hbSz ≤ wordMax := by
  have hextent := o.hbSz_le_extent
  have hstop := hgood.stop_le
  have hbase := hgood.base_pos
  unfold Obj.stop at hstop
  omega

theorem uncounted_eq_zero_iff {a : Answer} (hvalid : a.Valid ks h (ks.passedDown lb kind) kind false) :
    uncounted ks a lb kind ≤ wordMax ∧
      (uncounted ks a lb kind = 0 ↔ (isUncollectable kind = true → FastPath ks a lb kind)) := by
  have hgood := special_newObj_good hvalid
  have hpos : granuleBytes ≤ ks.sizeFor a (ks.passedDown lb kind) false := hgood.size_pos
  have hle : ks.sizeFor a (ks.passedDown lb kind) false ≤ wordMax := hbSz_le_wordMax hgood
  have hcounted : isUncollectable kind = true → (ks.counted a lb kind = true ↔ FastPath ks a lb kind) := by
    intro hunc
    rw [Kinds.counted,hunc,Bool.true_and,Bool.and_eq_true,FastPath]
  unfold uncounted
  split
  · rename_i hmissed
    refine ⟨hle,iff_of_false (by unfold granuleBytes at hpos; omega) fun hfast => ?_⟩
    have htrue := (hcounted hmissed.1).mpr (hfast hmissed.1)
    rw [hmissed.2] at htrue
    cases htrue
  · rename_i hmissed
    refine ⟨Nat.zero_le _,iff_of_true rfl fun hunc => (hcounted hunc).mp ?_⟩
    by_contra hnot
    exact hmissed ⟨hunc,Bool.eq_false_iff.mpr hnot⟩

def missedBy (ks : Kinds) (lb kind : Nat) (answer : Option Answer) : Nat :=
  answer.elim 0 fun a => uncounted ks a lb kind

theorem missedBy_spec (hvalid : ValidAnswer ks h lb kind answer) :
    missedBy ks lb kind answer ≤ wordMax ∧ (missedBy ks lb kind answer = 0 ↔ CountedAnswer ks lb kind answer) := by
  cases hanswer : answer with
  | none => exact ⟨Nat.zero_le _,iff_of_true rfl fun _ a ha => by cases ha⟩
  | some a =>
    obtain ⟨hle,hiff⟩ := uncounted_eq_zero_iff (hvalid a hanswer)
    refine ⟨hle,hiff.trans ?_⟩
    constructor
    · intro hfast hunc b hb
      cases hb
      exact hfast hunc
    · intro hcounted hunc
      exact hcounted hunc a rfl

theorem drift_mallocWith (hvalid : ValidAnswer ks h lb kind answer) :
    drift (mallocWith ks h lb kind answer).2 = drift h + BitVec.ofNat 64 (missedBy ks lb kind answer) := by
  cases hanswer : answer with
  | none => exact (BitVec.add_zero _).symm
  | some a => exact drift_malloc (hvalid a hanswer)

theorem drift_moveRounded (hinv : h.Inv ks) (ho : o ∈ h.objs) (hvalid : ValidAnswer ks h lb o.kind env.answer)
    (hn : n ≤ lb) :
    drift (moveObj ks (roundHeader ks h o) (rounded ks o) lb n env).2 =
      drift h + BitVec.ofNat 64 (missedBy ks lb o.kind env.answer) := by
  have hvalid' : ValidAnswer ks (roundHeader ks h o) lb (rounded ks o).kind env.answer := by
    rw [rounded_kind]
    exact fun a ha => valid_roundHeader hinv ho (hvalid a ha)
  rw [drift_moveObj (roundHeader_inv hinv ho) (rounded_mem_roundHeader ho) hvalid' hn,drift_roundHeader hinv ho,
    rounded_kind]
  rfl

def Drifts (h h' : Heap) (counted : Prop) : Prop :=
  ∃ missed ≤ wordMax, drift h' = drift h + BitVec.ofNat 64 missed ∧ (missed = 0 ↔ counted)

theorem Drifts.of_eq {h' : Heap} {counted : Prop} (heq : drift h' = drift h) (hcounted : counted) :
    Drifts h h' counted := ⟨0,Nat.zero_le _,by rw [heq,BitVec.add_zero],iff_of_true rfl hcounted⟩

theorem Drifts.of_missedBy {h' : Heap} (hvalid : ValidAnswer ks h lb kind answer)
    (heq : drift h' = drift h + BitVec.ofNat 64 (missedBy ks lb kind answer)) :
    Drifts h h' (CountedAnswer ks lb kind answer) :=
  ⟨_,(missedBy_spec hvalid).1,heq,(missedBy_spec hvalid).2⟩

theorem Drifts.congr {h' : Heap} {counted counted' : Prop} (hdrifts : Drifts h h' counted) (hiff : counted ↔ counted') :
    Drifts h h' counted' := by
  obtain ⟨missed,hle,heq,hzero⟩ := hdrifts
  exact ⟨missed,hle,heq,hzero.trans hiff⟩

theorem reallocWith_drifts (hinv : h.Inv ks) (ho : o ∈ h.objs) (shrinks : Bool) (hlb : 0 < lb)
    (hvalid : ValidAnswer ks h lb o.kind env.answer) :
    Drifts h (reallocWith shrinks ks h o.base lb env).2
      (¬ (ks.addExtraBytes lb ≤ wholeSize o.hbSz ∧ (shrinks = true → wholeSize o.hbSz / 2 ≤ lb)) →
        CountedAnswer ks lb o.kind env.answer) := by
  rw [reallocWith_of_mem hinv ho shrinks hlb]
  split
  · rename_i hfits
    split
    · rename_i hshrink
      refine (Drifts.of_missedBy hvalid (drift_moveRounded hinv ho hvalid (Nat.le_refl lb))).congr ?_
      simp [hfits,hshrink]
    · rename_i hshrink
      refine Drifts.of_eq ?_ fun hnot => absurd ⟨hfits,fun hs => Nat.le_of_not_lt fun hlt => hshrink ⟨hs,hlt⟩⟩ hnot
      rw [drift_keepInPlace (roundHeader_inv hinv ho) (rounded_mem_roundHeader ho),drift_roundHeader hinv ho]
  · rename_i hfits
    have hle := le_of_lt_addExtraBytes (hinv.good o ho) (Nat.lt_of_not_le hfits)
    refine (Drifts.of_missedBy hvalid (drift_moveRounded hinv ho hvalid hle)).congr ?_
    simp [hfits]

theorem drift_free_lookup (hinv : h.Inv ks) (p : Nat) (link : Nat → UInt8) : drift (free ks h p link) = drift h := by
  unfold free
  cases hfound : h.lookup p with
  | none => rfl
  | some o => exact drift_free hinv (Heap.lookup_some hfound).1 link

theorem drift_reallocWith_of_none (hinv : h.Inv ks) (shrinks : Bool) (hnone : ∀ o, h.lookup p = some o → lb = 0)
    (hvalid : ValidAnswer ks h lb (reallocKind h p) env.answer) :
    drift (reallocWith shrinks ks h p lb env).2 = drift h := by
  by_cases hp : p = 0
  · have hnormal : missedBy ks lb normal env.answer = 0 := by
      cases env.answer <;> rfl
    have hlookup : h.lookup p = none := by
      by_contra hsome
      obtain ⟨o,hfound⟩ := Option.ne_none_iff_exists'.mp hsome
      obtain ⟨ho,hbase⟩ := Heap.lookup_some hfound
      have hpos := (hinv.good o ho).base_pos
      omega
    have hkind : reallocKind h p = normal := by rw [reallocKind,hlookup]; rfl
    rw [hkind] at hvalid
    rw [reallocWith,if_pos hp,drift_mallocWith hvalid,hnormal,BitVec.add_zero]
  · by_cases hlb : lb = 0
    · rw [reallocWith,if_neg hp,if_pos hlb]
      exact drift_free_lookup hinv p env.link
    · have hlookup : h.lookup p = none :=
        Option.eq_none_iff_forall_ne_some.mpr fun o hfound => hlb (hnone o hfound)
      rw [reallocWith,if_neg hp,if_neg hlb,hlookup]

theorem reallocWith_drifts_lookup (hinv : h.Inv ks) (shrinks : Bool)
    (hvalid : ValidAnswer ks h lb (reallocKind h p) env.answer) :
    Drifts h (reallocWith shrinks ks h p lb env).2 (∀ o, h.lookup p = some o → 0 < lb →
      ¬ (ks.addExtraBytes lb ≤ wholeSize o.hbSz ∧ (shrinks = true → wholeSize o.hbSz / 2 ≤ lb)) →
        CountedAnswer ks lb o.kind env.answer) := by
  by_cases hnone : ∀ o, h.lookup p = some o → lb = 0
  · refine Drifts.of_eq (drift_reallocWith_of_none hinv shrinks hnone hvalid) fun o hfound hlb => ?_
    have := hnone o hfound
    omega
  · simp only [not_forall] at hnone
    obtain ⟨o,hfound,hlb⟩ := hnone
    obtain ⟨ho,rfl⟩ := Heap.lookup_some hfound
    rw [reallocKind_of_mem hinv ho] at hvalid
    refine (reallocWith_drifts hinv ho shrinks (Nat.pos_of_ne_zero hlb) hvalid).congr ?_
    simp [hfound,Nat.pos_of_ne_zero hlb]

theorem mallocIgnoreOffPage_drifts (hvalid : Op.Valid ks h (.mallocIgnoreOffPage lb kind answer)) :
    Drifts h (Op.run ks h (.mallocIgnoreOffPage lb kind answer)) (isUncollectable kind = true → answer = none) := by
  cases hanswer : answer with
  | none => exact Drifts.of_eq rfl fun _ => rfl
  | some a =>
    have hvalid := hvalid a hanswer
    have hgood := newObj_good hvalid (.inl (Nat.le_refl lb))
    have hobjs := (@genericMallocAligned_allocates ks h a lb kind lb true hvalid).objs
    refine ⟨uncollectableSize (ks.newObj a lb kind true lb),?_,drift_change 0 0 _ ?_ ?_,?_⟩
    · unfold uncollectableSize
      split
      · exact hbSz_le_wordMax hgood
      · exact Nat.zero_le _
    · rw [Op.run,hobjs,uncollectableBytes_cons]
      omega
    · exact congrArg (· + 0#64) genericMallocAligned_nonGcBytes
    · have hpos := hgood.size_pos
      unfold granuleBytes at hpos
      have hkind : (ks.newObj a lb kind true lb).kind = kind := rfl
      rw [uncollectableSize,hkind]
      cases isUncollectable kind with
      | false => simp
      | true =>
        simp only [if_true,true_implies,reduceCtorEq,iff_false]
        omega

theorem Op.run_drifts (hinv : h.Inv ks) (op : Op) (hvalid : op.Valid ks h) :
    Drifts h (op.run ks h) (Counted ks h op) := by
  cases op with
  | malloc lb kind answer => exact Drifts.of_missedBy hvalid (drift_mallocWith hvalid)
  | mallocIgnoreOffPage lb kind answer => exact mallocIgnoreOffPage_drifts hvalid
  | realloc p lb env => exact (reallocWith_drifts_lookup hinv true hvalid).congr (by simp [Counted])
  | reallocNoShrink p lb env => exact (reallocWith_drifts_lookup hinv false hvalid).congr (by simp [Counted])
  | free p link => exact Drifts.of_eq (drift_free_lookup hinv p link) trivial
  | write p i byte =>
    refine Drifts.of_eq ?_ trivial
    rw [Op.run,writeByte]
    split
    · rfl
    · split <;> rfl

theorem accurate_iff_of_drifts {h' : Heap} {counted : Prop} (hinv : h.Inv ks) (hinv' : h'.Inv ks) (hacc : Accurate h)
    (hdrifts : Drifts h h' counted) : Accurate h' ↔ counted := by
  obtain ⟨missed,hle,heq,hzero⟩ := hdrifts
  rw [accurate_iff hinv',heq,(accurate_iff hinv).mp hacc,BitVec.zero_add,← hzero,← BitVec.toNat_inj,
    BitVec.toNat_ofNat,Nat.mod_eq_of_lt (by unfold wordMax at hle; omega)]
  rfl

def heaps (ks : Kinds) : Heap → List Op → List Heap
  | h, [] => [h]
  | h, op :: ops => h :: heaps ks (op.run ks h) ops

def AllCounted (ks : Kinds) : Heap → List Op → Prop
  | _, [] => True
  | h, op :: ops => Counted ks h op ∧ AllCounted ks (op.run ks h) ops

theorem heaps_accurate_iff (hinv : h.Inv ks) (hacc : Accurate h) (ops : List Op) (hvalid : AllValid ks h ops) :
    (∀ x ∈ heaps ks h ops, Accurate x) ↔ AllCounted ks h ops := by
  induction ops generalizing h with
  | nil => simp [heaps,AllCounted,hacc]
  | cons op ops ih =>
    obtain ⟨hop,hops⟩ := hvalid
    have hinv' := op.run_inv hinv hop
    have hiff := accurate_iff_of_drifts hinv hinv' hacc (Op.run_drifts hinv op hop)
    have hhead : op.run ks h ∈ heaps ks (op.run ks h) ops := by cases ops <;> exact List.mem_cons_self
    simp only [heaps,AllCounted,List.forall_mem_cons]
    constructor
    · rintro ⟨_,hall⟩
      have hacc' := hall _ hhead
      exact ⟨hiff.mp hacc',(ih hinv' hacc' hops).mp hall⟩
    · rintro ⟨hcounted,hrest⟩
      exact ⟨hacc,(ih hinv' (hiff.mpr hcounted) hops).mpr hrest⟩

/-- In all heaps of a run `GC_non_gc_bytes` is the size of the uncollectable objects, if and only if
every request for an uncollectable object that is served takes the fast path. -/
theorem heaps_nonGcBytes (ks : Kinds) (mem : Nat → UInt8) (ops : List Op) (hvalid : AllValid ks (emptyHeap mem) ops) :
    (∀ h ∈ heaps ks (emptyHeap mem) ops, h.nonGcBytes.toNat = uncollectableBytes h.objs) ↔
      AllCounted ks (emptyHeap mem) ops :=
  heaps_accurate_iff (emptyHeap_inv ks mem) rfl ops hvalid

/-- An uncollectable object that is resized in place and by moving, and freed. -/
theorem heaps_nonGcBytes_resizes :
    let ops := resizes uncollectable ++ [.free 8192 fun _ => 0]
    AllValid initialKinds (emptyHeap fun _ => 0) ops ∧ AllCounted initialKinds (emptyHeap fun _ => 0) ops ∧
      (heaps initialKinds (emptyHeap fun _ => 0) ops).map (·.nonGcBytes.toNat) = [0, 112, 112, 112, 208, 0] := by
  intro ops
  have hvalid : AllValid initialKinds (emptyHeap fun _ => 0) ops := by decide +kernel
  exact ⟨hvalid,(heaps_nonGcBytes initialKinds _ ops hvalid).mp (by decide +kernel),by decide +kernel⟩

/-- A large uncollectable object is allocated and freed: the heap is empty, and the counter has wrapped
around. -/
theorem heaps_nonGcBytes_wraps :
    let ops := [.malloc 5000 uncollectable (some ⟨4096,0,false⟩),.free 4096 fun _ => 0]
    AllValid initialKinds (emptyHeap fun _ => 0) ops ∧
      (runOps initialKinds (emptyHeap fun _ => 0) ops).objs.length = 0 ∧
      (runOps initialKinds (emptyHeap fun _ => 0) ops).nonGcBytes.toNat = 2 ^ 64 - 5008 := by
  decide +kernel

end Runs

end GcUtil.Malloc.NonGcBytes
