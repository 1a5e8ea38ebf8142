import GcUtil.Block.BlockWalk

/-! `GC_change_kind_descriptor`: new descriptor templates for object kinds go to the kind table and,
by a copy of the walk over all blocks, to the headers of the blocks in use. -/
namespace GcUtil.Block.KindDescriptors
open List Option
open Basic Headers Allocator HeaderTable BlockMap JointInvariant LinkedLists UsedBlocks Merging Searching Runs
open IndexLookup BottomIndexes BlockWalk Library.Outcome

section Changing

/-- One element of `kinds` and the one of `new_descriptors` that belongs to it. -/
structure Change where
  kind : Nat
  descr : Nat
  isWord : descr < 2 ^ 64

variable (changes : List Change)

def changeKinds (kinds : Nat → ObjKind) : Nat → ObjKind :=
  changes.foldl (fun kinds c => Function.update kinds c.kind { kinds c.kind with okDescriptor := c.descr }) kinds

def changeHdr (b : Hdr) : Hdr :=
  changes.foldl (fun b c => if b.hbObjKind = c.kind then { b with hbDescr := c.descr } else b) b

theorem changeHdr_eq (b : Hdr) :
    changeHdr changes b = { b with hbDescr := (changeHdr changes b).hbDescr } := by
  unfold changeHdr
  induction changes generalizing b with
  | nil => rfl
  | cons c changes ih =>
    rw [foldl_cons,ih]
    split <;> rfl

def rewriting : Callback where
  update _ _ := changeHdr changes
  frees _ _ := false
  update_blk _ _ b := by
    rw [changeHdr_eq]
    rfl
  update_mapped _ _ b := by
    rw [changeHdr_eq]
    rfl

def changeHeaders (B : Indexes) (s : Heap) : Option Heap :=
  (applyToAllBlocks (rewriting changes) B s).map Progress.heap

/-- `GC_change_kind_descriptor`; the kind table is part of the environment. -/
def changeKindDescriptor (B : Indexes) (env : AllocEnv) (s : Heap) :
    Option (AllocEnv × Heap) :=
  (changeHeaders changes B s).map fun s => ({ env with kinds := changeKinds changes env.kinds }, s)

end Changing

section Runs

inductive KindOp where
  | heap (op : HeapOp)
  | change (changes : List Change) (calls : List Nat)

def kindStep (fuel : Nat) (s : Heap) : KindOp → Option Heap
  | .heap op => heapStep fuel s op
  | .change changes calls => changeHeaders changes (indexesOf calls) s

def kindRun (fuel : Nat) : List KindOp → Heap → Option Heap
  | [], s => some s
  | op :: ops, s => (kindStep fuel s op).bind (kindRun fuel ops)

def KindStepAllowed (fuel : Nat) (s : Heap) : KindOp → Prop
  | .heap op => StepAllowed fuel s op
  | .change _ calls => keysOf calls = s.bottomKeys

def KindRunAllowed (fuel : Nat) : List KindOp → Heap → Prop
  | [], _ => True
  | op :: ops, s => KindStepAllowed fuel s op ∧ ∀ t, kindStep fuel s op = some t → KindRunAllowed fuel ops t

theorem kindRun_map (fuel : Nat) (ops : List HeapOp) (s : Heap) :
    kindRun fuel (ops.map .heap) s = heapRun fuel ops s := by
  induction ops generalizing s with
  | nil => rfl
  | cons op ops ih =>
    rw [map_cons,kindRun,heapRun,kindStep]
    simp only [ih]

theorem kindRunAllowed_map {fuel : Nat} {ops : List HeapOp} {s : Heap} (h : RunAllowed fuel ops s) :
    KindRunAllowed fuel (ops.map .heap) s := by
  induction ops generalizing s with
  | nil => trivial
  | cons op ops ih =>
    refine ⟨h.1,fun t ht => ih ?_⟩
    have hrest := h.2
    rw [show heapStep fuel s op = some t from ht] at hrest
    exact hrest

end Runs

section Listed

variable {changes : List Change} {kinds : Nat → ObjKind} {k : Nat} {b : Hdr}

def Listed (changes : List Change) (kind : Nat) : Prop := ∃ c ∈ changes, c.kind = kind

theorem changeHdr_of_not_listed (h : ¬ Listed changes b.hbObjKind) : changeHdr changes b = b := by
  unfold changeHdr
  induction changes with
  | nil => rfl
  | cons c changes ih =>
    rw [foldl_cons,if_neg fun heq => h ⟨c,mem_cons_self,heq.symm⟩]
    exact ih fun ⟨d,hd,hkind⟩ => h ⟨d,mem_cons_of_mem _ hd,hkind⟩

theorem changeKinds_concat (c : Change) : changeKinds (changes ++ [c]) kinds =
    Function.update (changeKinds changes kinds) c.kind
      { changeKinds changes kinds c.kind with okDescriptor := c.descr } := by
  rw [changeKinds,foldl_concat]
  rfl

theorem changeHdr_concat (c : Change) : changeHdr (changes ++ [c]) b =
    if b.hbObjKind = c.kind then { changeHdr changes b with hbDescr := c.descr } else changeHdr changes b := by
  have hkind : (changeHdr changes b).hbObjKind = b.hbObjKind := by
    rw [changeHdr_eq]
  rw [changeHdr,foldl_concat]
  change (if (changeHdr changes b).hbObjKind = c.kind then _ else _) = _
  rw [hkind]
  rfl

theorem changeKinds_okRelocateDescr (changes : List Change) (kinds : Nat → ObjKind) (k : Nat) :
    (changeKinds changes kinds k).okRelocateDescr = (kinds k).okRelocateDescr := by
  induction changes using List.reverseRecOn with
  | nil => rfl
  | append_singleton changes c ih =>
    rw [changeKinds_concat,Function.update_apply]
    split
    · next heq =>
      rw [← heq]
      exact ih
    · exact ih

theorem changeHdr_descr (kinds : Nat → ObjKind) (h : Listed changes b.hbObjKind) :
    (changeHdr changes b).hbDescr = (changeKinds changes kinds b.hbObjKind).okDescriptor ∧
      (changeHdr changes b).hbDescr < 2 ^ 64 := by
  induction changes using List.reverseRecOn with
  | nil =>
    obtain ⟨c,hc,-⟩ := h
    cases hc
  | append_singleton changes c ih =>
    rw [changeHdr_concat,changeKinds_concat,Function.update_apply]
    by_cases hkind : b.hbObjKind = c.kind
    · rw [if_pos hkind,if_pos hkind]
      exact ⟨rfl,c.isWord⟩
    · rw [if_neg hkind,if_neg hkind]
      apply ih
      obtain ⟨d,hd,hdkind⟩ := h
      rcases mem_append.mp hd with hd | hd
      · exact ⟨d,hd,hdkind⟩
      · rw [mem_singleton.mp hd] at hdkind
        exact absurd hdkind.symm hkind

end Listed

section Rewriting

variable {changes : List Change} {s s' t : Heap} {cells : Finset Nat} {calls : List Nat} {n p fuel : Nat}

theorem foldlM_rewriting {l : List Nat} (hok : HdrsOk s) (hnodup : l.Nodup)
    (h : l.foldlM (rewriting changes).call s = some s') :
    s'.index = s.index ∧ s' = { s with hdrs := s'.hdrs } ∧
      (∀ n p, s.index n = .hdr p → n ∈ l → s'.hdrs p = changeHdr changes (s.hdrs p)) ∧
      ∀ p, (∀ n, s.index n = .hdr p → n ∉ l) → s'.hdrs p = s.hdrs p := by
  induction l generalizing s with
  | nil =>
    cases h
    exact ⟨rfl,rfl,fun _ _ _ hn => absurd hn not_mem_nil,fun _ _ => rfl⟩
  | cons m l ih =>
    rw [foldlM_cons] at h
    obtain ⟨t,ht,h⟩ := bind_eq_some_iff.mp h
    obtain ⟨u,hu,ht⟩ := bind_eq_some_iff.mp ht
    cases ht
    unfold Heap.updAt at hu
    split at hu
    · next q hq =>
      cases hu
      obtain ⟨hm,hnodup⟩ := nodup_cons.mp hnodup
      obtain ⟨hindex,hrest,hin,hout⟩ := ih (hok.updHdr q _) hnodup h
      refine ⟨hindex,hrest,fun n p hp hn => ?_,fun p hp => ?_⟩
      · by_cases hnm : n = m
        · -- The rest of the walk does not come to this header again.
          obtain rfl : p = q := by
            rw [hnm,hq] at hp
            exact (Entry.hdr.inj hp).symm
          rw [hout p fun x hx hxl => hm (hok.inj hx hq ▸ hxl)]
          exact updHdr_hdrs_self s p _
        · rw [hin n p hp ((mem_cons.mp hn).resolve_left hnm)]
          rw [updHdr_hdrs_of_ne s _ fun (hpq : p = q) => hnm (hok.inj (hpq ▸ hp) hq)]
      · rw [hout p fun x hx hxl => hp x hx (mem_cons_of_mem _ hxl)]
        exact updHdr_hdrs_of_ne s _ fun (hpq : p = q) => hp m (hpq ▸ hq) mem_cons_self
    · cases hu

structure Rewritten (changes : List Change) (s s' : Heap) : Prop where
  rest : s' = { s with hdrs := s'.hdrs }
  inUse : ∀ n p, s.index n = .hdr p → (s.hdrs p).isFree = false → s'.hdrs p = changeHdr changes (s.hdrs p)
  other : ∀ p, (∀ n, s.index n = .hdr p → (s.hdrs p).isFree = true) → s'.hdrs p = s.hdrs p

theorem usedAt_isSome (hp : s.index n = .hdr p) : (usedAt s n).isSome ↔ (s.hdrs p).isFree = false := by
  rw [usedAt_of_index hp,used]
  cases (s.hdrs p).isFree <;> simp

theorem changeHeaders_spec (changes : List Change) (hok : Ok cells s) (hcalls : keysOf calls = s.bottomKeys) :
    ∃ s', changeHeaders changes (indexesOf calls) s = some s' ∧ Ok cells s' ∧ Rewritten changes s s' := by
  obtain ⟨w,hw,hpassed⟩ := applyToAllBlocks_passed (rewriting changes) hok hcalls
  obtain ⟨L,hheap⟩ := hok
  obtain ⟨-,hrest,hin,hout⟩ := foldlM_rewriting hheap.blocks.hdrs hpassed.nodup (applyToAllBlocks_calls hw)
  have hmem : ∀ n p, s.index n = .hdr p → (n ∈ w.visits.map Prod.fst ↔ (s.hdrs p).isFree = false) := by
    intro n p hp
    rw [hpassed.mem,and_iff_left trivial,usedAt_isSome hp]
  refine ⟨w.heap,by rw [changeHeaders,hw]; rfl,hpassed.ok,hrest,fun n p hp hused => ?_,fun p hp => ?_⟩
  · exact hin n p hp ((hmem n p hp).mpr hused)
  · refine hout p fun n hn hmemn => ?_
    rw [hmem n p hn,hp n hn] at hmemn
    cases hmemn

theorem kindStep_ok {op : KindOp} (h : Ok cells s) (hallowed : KindStepAllowed fuel s op)
    (hs : kindStep fuel s op = some s') : ∃ cells', Ok cells' s' := by
  cases op with
  | heap op => exact heapStep_ok h hallowed hs
  | change changes calls =>
    obtain ⟨t,ht,hok,-⟩ := changeHeaders_spec changes h hallowed
    rw [kindStep,ht] at hs
    cases hs
    exact ⟨cells,hok⟩

theorem kindRun_ok {ops : List KindOp} (h : Ok cells s) (hallowed : KindRunAllowed fuel ops s)
    (hs : kindRun fuel ops s = some s') : ∃ cells', Ok cells' s' := by
  induction ops generalizing s cells with
  | nil =>
    cases hs
    exact ⟨cells,h⟩
  | cons op ops ih =>
    obtain ⟨t,ht,hs⟩ := bind_eq_some_iff.mp hs
    obtain ⟨cells',hok⟩ := kindStep_ok h hallowed.1 ht
    exact ih hok (hallowed.2 t ht) hs

end Rewriting

section Exactness

variable {changes : List Change} {env env' : AllocEnv} {s s' : Heap} {cells : Finset Nat} {n p : Nat} {b : Hdr}

/-- The descriptor that `setup_header` gives a block of the size, kind and flags of `b`. -/
def allocDescr (env : AllocEnv) (s : Heap) (p : Nat) (b : Hdr) : Nat :=
  ((setupHeader env s p b.hbBlock b.hbSz b.hbObjKind b.hbFlags.ignoreOffPage).hdrs p).hbDescr

/-- `setup_header` adds something to the template of the kind. -/
def Adjusted (env : AllocEnv) (b : Hdr) : Prop :=
  (env.kinds b.hbObjKind).okRelocateDescr = true ∨
    env.blackLists.allInteriorPointers = true ∧ b.hbFlags.ignoreOffPage = true ∧ b.hbObjKind = normal ∧
      hblkSize ≤ b.hbSz

def SameKinds (env env' : AllocEnv) : Prop :=
  env'.kinds = env.kinds ∧ env'.blackLists.allInteriorPointers = env.blackLists.allInteriorPointers

/-- Old blocks of the listed kinds have the descriptor that they would now be allocated with, the
blocks that `GC_allochblk` makes later get it too, and nothing else has changed. -/
structure Exact (changes : List Change) (s : Heap) (env' : AllocEnv) (s' : Heap) : Prop where
  current : ∀ n p, s'.index n = .hdr p → (s'.hdrs p).isFree = false → Listed changes (s'.hdrs p).hbObjKind →
    (s'.hdrs p).hbDescr = allocDescr env' s' p (s'.hdrs p)
  later : ∀ fuel ops t, RunAllowed fuel ops s' → heapRun fuel ops s' = some t →
    ∀ env₁ req collects collection env₂, SameKinds env' env₁ → SameKinds env' env₂ →
      Allowed fuel (.allochblk env₁ req collects collection env₂) t → ∀ m u,
      allochblk env₁ fuel req (if collects then some (execAll fuel collection, env₂) else none) t = some (some m, u) →
      ∃ q, u.index m = .hdr q ∧ (u.hdrs q).isFree = false ∧ (u.hdrs q).hbObjKind = req.kind ∧
        (u.hdrs q).hbDescr = allocDescr env' s' q (u.hdrs q)
  rest : s' = { s with hdrs := s'.hdrs }
  fields : ∀ p, s'.hdrs p = { s.hdrs p with hbDescr := (s'.hdrs p).hbDescr }
  other : ∀ p, (∀ n, s.index n = .hdr p → (s.hdrs p).isFree = false → ¬ Listed changes (s.hdrs p).hbObjKind) →
    s'.hdrs p = s.hdrs p

theorem allocDescr_eq (env : AllocEnv) (s : Heap) (p : Nat) (b : Hdr) : allocDescr env s p b =
    ((env.kinds b.hbObjKind).okDescriptor +
      (if env.blackLists.allInteriorPointers && b.hbFlags.ignoreOffPage && b.hbObjKind == normal &&
        decide (hblkSize ≤ b.hbSz) then 8 else 0) +
      if (env.kinds b.hbObjKind).okRelocateDescr then b.hbSz else 0) % 2 ^ 64 := by
  unfold allocDescr setupHeader
  rw [updHdr_hdrs_self,setupHdr]

theorem hbSz_bounds (hok : Ok cells s) (hp : s.index n = .hdr p) :
    0 < (s.hdrs p).hbSz ∧ (s.hdrs p).hbSz + 8 < 2 ^ 64 := by
  obtain ⟨L,h⟩ := hok
  have hb := blkAt_of_index hp
  have hpos : 0 < (s.hdrs p).hbSz := (h.blocks.layout.blocks hb).pos
  have hblocks : (s.hdrs p).hbSz ≤ objSzToBlocks (s.hdrs p).hbSz * hblkSize := by
    unfold objSzToBlocks divHblksz hblkSize
    omega
  have hmem : n + (objSzToBlocks (s.hdrs p).hbSz - 1) ∈ cells := by
    refine (h.blocks.layout.tiles.covers _).mpr ⟨n,objSzToBlocks (s.hdrs p).hbSz,?_,by omega,?_⟩
    · rw [hb]
      rfl
    · have : 0 < objSzToBlocks (s.hdrs p).hbSz := by
        by_contra hzero
        rw [show objSzToBlocks (s.hdrs p).hbSz = 0 by omega] at hblocks
        omega
      omega
  have hhigh := h.accounts.high _ hmem
  unfold hblkSize wordMax at *
  omega

theorem allocDescr_eq_template (env : AllocEnv) (hsz : 0 < b.hbSz ∧ b.hbSz + 8 < 2 ^ 64)
    (hword : (env.kinds b.hbObjKind).okDescriptor < 2 ^ 64) :
    (env.kinds b.hbObjKind).okDescriptor = allocDescr env s p b ↔ ¬ Adjusted env b := by
  rw [allocDescr_eq]
  unfold Adjusted
  by_cases hextra : env.blackLists.allInteriorPointers = true ∧ b.hbFlags.ignoreOffPage = true ∧
      b.hbObjKind = normal ∧ hblkSize ≤ b.hbSz
  · rw [if_pos (by simpa [and_assoc] using hextra)]
    simp only [hextra,and_self,or_true,not_true_eq_false,iff_false]
    split <;> omega
  · rw [if_neg (by simpa [and_assoc] using hextra)]
    rw [or_iff_left hextra]
    cases (env.kinds b.hbObjKind).okRelocateDescr with
    | false =>
      simp only [Bool.false_eq_true,if_false,not_false_eq_true,iff_true]
      omega
    | true =>
      simp only [if_true,not_true_eq_false,iff_false]
      omega

theorem allochblk_setUp {fuel m : Nat} {req : Request} {collects : Bool} {collection : List Op} {u : Heap}
    (hok : Ok cells s) (hallowed : Allowed fuel (.allochblk env req collects collection env') s)
    (h : allochblk env fuel req (if collects then some (execAll fuel collection, env') else none) s =
      some (some m, u)) :
    ∃ env₁, (env₁ = env ∨ env₁ = env') ∧ SetUp env₁ u m req.lbAdjusted req.kind req.ignoreOffPage := by
  rw [Allowed] at hallowed
  obtain ⟨hlegal,hall⟩ := hallowed
  refine (?_ : Returns False _ fun r => ∀ x, r.1 = some x → ∃ env₁, (env₁ = env ∨ env₁ = env') ∧
    SetUp env₁ r.2 x req.lbAdjusted req.kind req.ignoreOffPage).of_eq h m rfl
  unfold allochblk Search.allochblk
  split
  · simp
  · next hno =>
    have hfits := sizeNeeded_lt (Bool.eq_false_iff.mpr hno)
    refine ((allochblkBeforeCollect_spec env fuel hlegal.sound hfits hok).mono False.elim fun _ => id).orTry
      (fun a t ht x hx => ?_) fun t heq ht => ?_
    · cases hx
      obtain ⟨-,_,-,-,halloc⟩ := ht
      exact ⟨env,.inl rfl,halloc.setUp⟩
    · rw [heq] at hall
      cases collects with
      | false => simp
      | true =>
        refine ((execAll_spec fuel collection t cells ht.1 hall).mono False.elim fun _ => id).bind fun v hv => ?_
        obtain ⟨cells',hok',-⟩ := hv
        refine (allochblkFromFreeLists_spec env' fuel hlegal.sound hfits _ hok').mono False.elim
          fun r hr x hx => ?_
        obtain ⟨found,u⟩ := r
        cases hx
        obtain ⟨-,_,-,-,halloc⟩ := hr
        exact ⟨env',.inr rfl,halloc.setUp⟩

theorem allocDescr_of_setUp {m lb kind : Nat} {ignoreOffPage : Bool} {u : Heap}
    (h : SetUp env u m lb kind ignoreOffPage) (hsame : SameKinds env' env) (s : Heap) :
    ∃ q, u.index m = .hdr q ∧ (u.hdrs q).isFree = false ∧ (u.hdrs q).hbObjKind = kind ∧
      (u.hdrs q).hbDescr = allocDescr env' s q (u.hdrs q) := by
  obtain ⟨gcNo,h⟩ := h
  obtain ⟨hhdr,hat,hused⟩ := bind_eq_some_iff.mp h
  obtain ⟨q,hq,rfl⟩ := hdrAt_eq_some.mp hat
  unfold used at hused
  split at hused
  · cases hused
  · next hfree =>
    have hbody : unlinked (u.hdrs q) = freshHdr env gcNo m lb kind ignoreOffPage := Option.some.inj hused
    have hkind : (u.hdrs q).hbObjKind = kind := congrArg Hdr.hbObjKind hbody
    have hsz : (u.hdrs q).hbSz = lb := congrArg Hdr.hbSz hbody
    have hignore : (u.hdrs q).hbFlags.ignoreOffPage = ignoreOffPage :=
      congrArg (fun b => b.hbFlags.ignoreOffPage) hbody
    have hdescr : (unlinked (u.hdrs q)).hbDescr = _ := congrArg Hdr.hbDescr hbody
    refine ⟨q,hq,by simpa using hfree,hkind,?_⟩
    rw [allocDescr_eq,hkind,hsz,hignore,← hsame.1,← hsame.2]
    exact hdescr

theorem Rewritten.fields (h : Rewritten changes s s') (p : Nat) :
    s'.hdrs p = { s.hdrs p with hbDescr := (s'.hdrs p).hbDescr } := by
  by_cases hused : ∃ n, s.index n = .hdr p ∧ (s.hdrs p).isFree = false
  · obtain ⟨n,hp,hused⟩ := hused
    rw [h.inUse n p hp hused]
    exact changeHdr_eq changes _
  · rw [h.other p fun n hn => by simpa using fun hfree => hused ⟨n,hn,hfree⟩]

theorem Rewritten.current_iff (h : Rewritten changes s s') (hok : Ok cells s) (hp : s.index n = .hdr p)
    (hused : (s.hdrs p).isFree = false) (hlisted : Listed changes (s.hdrs p).hbObjKind) :
    (s'.hdrs p).hbDescr = allocDescr { env with kinds := changeKinds changes env.kinds } s' p (s'.hdrs p) ↔
      ¬ Adjusted env (s.hdrs p) := by
  obtain ⟨htemplate,hword⟩ := changeHdr_descr env.kinds hlisted
  have hadjusted : Adjusted { env with kinds := changeKinds changes env.kinds } (s.hdrs p) ↔
      Adjusted env (s.hdrs p) := by
    unfold Adjusted
    rw [changeKinds_okRelocateDescr]
  rw [← h.inUse n p hp hused] at htemplate hword
  rw [htemplate] at hword
  have hsame : ∀ env' : AllocEnv, allocDescr env' s' p (s'.hdrs p) = allocDescr env' s' p (s.hdrs p) := by
    intro env'
    rw [allocDescr_eq,allocDescr_eq,h.fields p]
  rw [hsame,htemplate,← hadjusted]
  exact allocDescr_eq_template { env with kinds := changeKinds changes env.kinds } (hbSz_bounds hok hp) hword

/-- In every heap reached, the change is exact if and only if `setup_header` adds nothing to the
template for any block in use of the listed kinds. -/
theorem changeKindDescriptor_exact_iff (hdrs : Nat → Hdr) (fuel : Nat) (ops : List KindOp)
    (hallowed : KindRunAllowed fuel ops (Heap.init hdrs)) (s : Heap)
    (hs : kindRun fuel ops (Heap.init hdrs) = some s) (calls : List Nat) (hcalls : keysOf calls = s.bottomKeys)
    (env : AllocEnv) (changes : List Change) :
    ∃ env' s', changeKindDescriptor changes (indexesOf calls) env s = some (env', s') ∧
      (Exact changes s env' s' ↔ ∀ n p, s.index n = .hdr p → (s.hdrs p).isFree = false →
        Listed changes (s.hdrs p).hbObjKind → ¬ Adjusted env (s.hdrs p)) := by
  obtain ⟨cells,hok⟩ := kindRun_ok ⟨_,heapOk_init hdrs⟩ hallowed hs
  obtain ⟨s',hs',hok',hrewritten⟩ := changeHeaders_spec changes hok hcalls
  have hindex : s'.index = s.index := by rw [hrewritten.rest]
  have hfree : ∀ p, (s'.hdrs p).isFree = (s.hdrs p).isFree := fun p => by rw [hrewritten.fields p]; rfl
  have hkind : ∀ p, (s'.hdrs p).hbObjKind = (s.hdrs p).hbObjKind := fun p => by rw [hrewritten.fields p]
  refine ⟨_,s',by rw [changeKindDescriptor,hs']; rfl,?_⟩
  constructor
  · intro hexact n p hp hused hlisted
    rw [← hrewritten.current_iff hok hp hused hlisted]
    exact hexact.current n p (hindex ▸ hp) (hfree p ▸ hused) (hkind p ▸ hlisted)
  · intro hplain
    refine ⟨fun n p hp hused hlisted => ?_,?_,hrewritten.rest,hrewritten.fields,fun p hp => ?_⟩
    · rw [hindex] at hp
      rw [hfree] at hused
      rw [hkind] at hlisted
      exact (hrewritten.current_iff hok hp hused hlisted).mpr (hplain n p hp hused hlisted)
    · intro fuel ops t hops ht env₁ req collects collection env₂ h₁ h₂ hreq m u hu
      obtain ⟨cells',hokt⟩ := heapRun_ok hok' hops ht
      obtain ⟨env₃,henv,hset⟩ := allochblk_setUp hokt hreq hu
      refine allocDescr_of_setUp hset ?_ s'
      rcases henv with rfl | rfl
      · exact h₁
      · exact h₂
    · by_cases hused : ∃ n, s.index n = .hdr p ∧ (s.hdrs p).isFree = false
      · obtain ⟨n,hn,hused⟩ := hused
        rw [hrewritten.inUse n p hn hused]
        exact changeHdr_of_not_listed (hp n hn hused)
      · exact hrewritten.other p fun n hn => by simpa using fun hfree => hused ⟨n,hn,hfree⟩

def bareEnv : AllocEnv := { quietEnv with blackLists := { quietEnv.blackLists with allInteriorPointers := false } }

theorem changeKindDescriptor_exact_bareEnv :
    KindRunAllowed 400 (neighboursRun.map .heap) blankHeap ∧
    keysOf [1024, 1020] = neighboursState.bottomKeys ∧
    ∃ env' s', changeKindDescriptor [⟨normal, 24, by decide⟩] (indexesOf [1024, 1020]) bareEnv neighboursState =
      some (env', s') ∧ Exact [⟨normal, 24, by decide⟩] neighboursState env' s' := by
  have hallowed : KindRunAllowed 400 (neighboursRun.map .heap) blankHeap :=
    kindRunAllowed_map (by decide +kernel)
  have hrun : kindRun 400 (neighboursRun.map .heap) blankHeap = some neighboursState := by
    have hsome : (heapRun 400 neighboursRun blankHeap).isSome = true := by decide +kernel
    obtain ⟨s,hs⟩ := isSome_iff_exists.mp hsome
    rw [kindRun_map,neighboursState,hs]
    rfl
  have hkeys : keysOf [1024,1020] = neighboursState.bottomKeys := by decide +kernel
  obtain ⟨env',s',hs',hexact⟩ := changeKindDescriptor_exact_iff (fun _ => blankHdr) 400 (neighboursRun.map .heap)
    hallowed neighboursState hrun [1024,1020] hkeys bareEnv [⟨normal,24,by decide⟩]
  refine ⟨hallowed,hkeys,env',s',hs',hexact.mpr fun n p _ _ _ hadjusted => ?_⟩
  simp [Adjusted,bareEnv,quietEnv] at hadjusted

/-- `NORMAL` objects are described by their length, which `setup_header` adds to the template 0. -/
def lengthEnv : AllocEnv := { quietEnv with kinds := fun _ => ⟨0, true, false, false⟩ }

def lengthRun : List HeapOp := [
  .block (.addToHeap 16 8),
  .block (.allochblk lengthEnv ⟨64, normal, false, 0⟩ false [] lengthEnv)]

def lengthState : Heap :=
  (heapRun 400 lengthRun blankHeap).getD blankHeap

/-- Given its own template again, the kind loses the size: the block counts as free of pointers. -/
theorem changeKindDescriptor_relocated :
    KindRunAllowed 400 (lengthRun.map .heap) blankHeap ∧
    kindRun 400 (lengthRun.map .heap) blankHeap = some lengthState ∧
    keysOf [16] = lengthState.bottomKeys ∧
    ∃ env' s' p, changeKindDescriptor [⟨normal, 0, by decide⟩] (indexesOf [16]) lengthEnv lengthState = some (env', s') ∧
      s'.index 16 = .hdr p ∧ (s'.hdrs p).isFree = false ∧ (s'.hdrs p).hbObjKind = normal ∧
      (s'.hdrs p).hbDescr = 0 ∧ allocDescr env' s' p (s'.hdrs p) = 64 := by
  have hrun : heapRun 400 lengthRun blankHeap = some lengthState := by
    have hsome : (heapRun 400 lengthRun blankHeap).isSome = true := by decide +kernel
    obtain ⟨s,hs⟩ := isSome_iff_exists.mp hsome
    rw [lengthState,hs]
    rfl
  have hchanged : (changeKindDescriptor [⟨normal,0,by decide⟩] (indexesOf [16]) lengthEnv lengthState).any
      (fun r => decide (r.2.index 16 = .hdr 0) && !(r.2.hdrs 0).isFree && (r.2.hdrs 0).hbObjKind == normal &&
        (r.2.hdrs 0).hbDescr == 0 && allocDescr r.1 r.2 0 (r.2.hdrs 0) == 64) = true := by
    decide +kernel
  obtain ⟨⟨env',s'⟩,hs',hblock⟩ := (any_eq_true _ _).mp hchanged
  simp only [Bool.and_eq_true,decide_eq_true_eq,Bool.not_eq_true',beq_iff_eq] at hblock
  obtain ⟨⟨⟨⟨hindex,hfree⟩,hkind⟩,hdescr⟩,halloc⟩ := hblock
  refine ⟨kindRunAllowed_map (by decide +kernel),?_,by decide +kernel,env',s',0,hs',hindex,hfree,hkind,
    hdescr,halloc⟩
  rw [kindRun_map,hrun]

end Exactness

end GcUtil.Block.KindDescriptors
