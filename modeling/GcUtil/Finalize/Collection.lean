import GcUtil.Finalize.Tables

/-! `GC_finalize`: the passes it makes over the tables once marking is complete. The marker
is a parameter, of which only the calls that `finalize.c` makes are known. -/
namespace GcUtil.Finalize.Collection
open Basic Tables Library.ChainedTable List

inductive MarkProc where
  | normal
  | ignoreSelf
  | null
  | unreachable
deriving DecidableEq, Repr

structure DisappearingLink where
  hiddenLink : Nat
  hiddenObj : Nat
deriving DecidableEq, Repr

/-- `struct finalizable_object`. The base is no longer hidden once the entry is queued. -/
structure FinalizableObject where
  hiddenBase : Nat
  fn : Nat
  markProc : MarkProc
  clientData : Nat
  objectSz : Nat
deriving DecidableEq, Repr

instance : HashChainEntry DisappearingLink := ⟨DisappearingLink.hiddenLink⟩

instance : HashChainEntry FinalizableObject := ⟨FinalizableObject.hiddenBase⟩

def sizeofFinalizableObject : Nat := 48

def bytes (e : FinalizableObject) : Nat := e.objectSz + sizeofFinalizableObject

/-- `finalize_now` and `GC_bytes_finalized`. -/
abbrev Queue := List FinalizableObject × BitVec 64

/-- The marker as `finalize.c` uses it. `clearLink` is the store of `NULL` to a link. -/
structure Marker (M : Type) where
  isMarked : M → Nat → Bool
  setMarkBit : Nat → M → M
  markFo : MarkProc → Nat → M → M
  completeOngoingCollection : M → M
  base : M → Nat → Option Nat
  clearLink : Nat → M → M
  isMarked_setMarkBit : ∀ p m q, isMarked (setMarkBit p m) q = (decide (q = p) || isMarked m q)
  isMarked_markFo : ∀ proc p m q, isMarked m q = true → isMarked (markFo proc p m) q = true
  isMarked_complete : ∀ m q, isMarked m q = true → isMarked (completeOngoingCollection m) q = true
  isMarked_clearLink : ∀ p m q, isMarked (clearLink p m) q = isMarked m q

/-- The tables, the queue `finalize_now`, and the settings that `GC_finalize` reads. -/
structure Fnlz where
  dl : HashTbl DisappearingLink
  ll : HashTbl DisappearingLink
  fo : HashTbl FinalizableObject
  finalizeNow : List FinalizableObject
  bytesFinalized : BitVec 64
  toggleRefs : List Nat
  javaFinalization : Bool
  needUnreachableFinalization : Bool

variable {M ε : Type} (K : Marker M)

def markTogglerefs (refs : List Nat) (m : M) : M :=
  refs.foldl (fun m obj =>
    if obj ≠ 0 ∧ obj % 2 = 0 then
      K.completeOngoingCollection (K.setMarkBit obj (K.markFo .normal obj m))
    else m) m

def clearTogglerefs (refs : List Nat) (m : M) : List Nat := refs.map (clearToggleref (K.isMarked m))

/-- What `GC_make_disappearing_links_disappear` does with an entry of a table of links. -/
structure LinkOps (ε M : Type) where
  isMarked : M → Nat → Bool
  base : M → Nat → Option Nat
  location : ε → Nat
  target : ε → Nat
  clearLink : ε → M → M
  clearMarkBit : ε → M → M

/-- The test on one link, and what happens when it fails. -/
def disappear (ops : LinkOps ε M) (isRemoveDangling : Bool) (m : M) (e : ε) : Bool × M :=
  if isRemoveDangling then
    match ops.base m (ops.location e) with
    | none => (true, m)
    | some realLink => if ops.isMarked m realLink then (true, m) else (false, ops.clearMarkBit e m)
  else if ops.isMarked m (ops.target e) then (true, m)
  else (false, ops.clearMarkBit e (ops.clearLink e m))

def makeDisappearingLinksDisappear [HashChainEntry ε] (ops : LinkOps ε M) (t : HashTbl ε)
    (isRemoveDangling : Bool) (m : M) : HashTbl ε × M :=
  t.sweep (disappear ops isRemoveDangling) m

/-- The links of the tables; the mark bits of their entries are not followed. -/
def linkOps : LinkOps DisappearingLink M where
  isMarked := K.isMarked
  base := K.base
  location e := revealPointer e.hiddenLink
  target e := revealPointer e.hiddenObj
  clearLink e := K.clearLink (revealPointer e.hiddenLink)
  clearMarkBit _ := id

def markFromFinalizable (l : List FinalizableObject) (m : M) : M :=
  l.foldl (fun m e =>
    if K.isMarked m (revealPointer e.hiddenBase) then m
    else K.markFo e.markProc (revealPointer e.hiddenBase) m) m

/-- Enqueue an object that is still unmarked, at the front of `finalize_now`. -/
def enqueue (java : Bool) (acc : M × Queue) (e : FinalizableObject) : Bool × M × Queue :=
  if K.isMarked acc.1 (revealPointer e.hiddenBase) then (true, acc)
  else
    (false, if java then acc.1 else K.setMarkBit (revealPointer e.hiddenBase) acc.1,
      { e with hiddenBase := revealPointer e.hiddenBase } :: acc.2.1, acc.2.2 + BitVec.ofNat 64 (bytes e))

def enqueueUnmarked (s : Fnlz) (m : M) : HashTbl FinalizableObject × M × Queue :=
  s.fo.sweep (enqueue K s.javaFinalization) (markFromFinalizable K s.fo.all m, s.finalizeNow, 0)

/-- Mark the queued objects, and what is reachable from those without an order. -/
def markQueued (queue : List FinalizableObject) (m : M) : M :=
  queue.foldl (fun m e =>
    if K.isMarked m e.hiddenBase then m
    else
      let m := if e.markProc = .null then K.markFo .normal e.hiddenBase m else m
      if e.markProc = .unreachable then m else K.setMarkBit e.hiddenBase m) m

/-- Put queued finalize-when-unreachable objects that are marked back into the table. -/
def revive : List FinalizableObject → M → HashTbl FinalizableObject → BitVec 64 →
    Queue × M × HashTbl FinalizableObject
  | [], m, t, n => (([], n), m, t)
  | e :: es, m, t, n =>
      if e.markProc = .unreachable then
        if K.isMarked m e.hiddenBase then
          revive es m (t.insertAt (hash2 e.hiddenBase t.logSize)
            { e with hiddenBase := hidePointer e.hiddenBase }) (n - BitVec.ofNat 64 (bytes e))
        else
          let rest := revive es (K.setMarkBit e.hiddenBase m) t n
          ((e :: rest.1.1, rest.1.2), rest.2)
      else
        let rest := revive es m t n
        ((e :: rest.1.1, rest.1.2), rest.2)

def Fnlz.withQueue (s : Fnlz) (fo : HashTbl FinalizableObject) (queue : Queue) : Fnlz :=
  { s with fo := fo, finalizeNow := queue.1, bytesFinalized := queue.2 }

def finalizeObjects (s : Fnlz) (m : M) : M × Fnlz :=
  let enqueued := enqueueUnmarked K s m
  if s.javaFinalization then
    let marked := markQueued K enqueued.2.2.1 enqueued.2.1
    if s.needUnreachableFinalization then
      let revived := revive K enqueued.2.2.1 marked enqueued.1 enqueued.2.2.2
      (revived.2.1, s.withQueue revived.2.2 revived.1)
    else (marked, s.withQueue enqueued.1 enqueued.2.2)
  else (enqueued.2.1, s.withQueue enqueued.1 enqueued.2.2)

/-- The end of `GC_finalize`: dangling links, toggle references and long links. -/
def finishLinks (s : Fnlz) (m : M) : M × Fnlz :=
  let dl := makeDisappearingLinksDisappear (linkOps K) s.dl true m
  let ll := makeDisappearingLinksDisappear (linkOps K) s.ll false dl.2
  let ll' := makeDisappearingLinksDisappear (linkOps K) ll.1 true ll.2
  (ll'.2, { s with dl := dl.1, toggleRefs := clearTogglerefs K s.toggleRefs dl.2, ll := ll'.1 })

/-- The beginning of `GC_finalize`: toggle references and links to unmarked objects. -/
def startLinks (s : Fnlz) (m : M) : M × Fnlz :=
  let dl := makeDisappearingLinksDisappear (linkOps K) s.dl false (markTogglerefs K s.toggleRefs m)
  (dl.2, { s with dl := dl.1 })

def finalize (s : Fnlz) (m : M) : M × Fnlz :=
  let started := startLinks K s m
  let done := finalizeObjects K started.2 started.1
  finishLinks K done.2 done.1

/-- `GC_enqueue_all_finalizers`, which enqueues the objects whether or not they are marked. -/
def enqueueAllFinalizers (s : Fnlz) (m : M) : M × Fnlz :=
  (s.fo.all.foldl (fun m e =>
      K.completeOngoingCollection
        (K.setMarkBit (revealPointer e.hiddenBase) (K.markFo .normal (revealPointer e.hiddenBase) m))) m,
    { s with
      fo := s.fo.clear
      finalizeNow := s.fo.all.foldl (fun queue e =>
        { e with hiddenBase := revealPointer e.hiddenBase } :: queue) s.finalizeNow
      bytesFinalized := s.fo.all.foldl (fun n e => n + BitVec.ofNat 64 (bytes e)) 0 })

section Marks

variable {K} {m : M} {q : Nat}

theorem isMarked_markFromFinalizable (l : List FinalizableObject) (h : K.isMarked m q = true) :
    K.isMarked (markFromFinalizable K l m) q = true := by
  unfold markFromFinalizable
  induction l generalizing m with
  | nil => exact h
  | cons e es ih =>
    apply ih
    dsimp only
    split
    · exact h
    · exact K.isMarked_markFo _ _ _ _ h

theorem isMarked_markQueued (queue : List FinalizableObject) (h : K.isMarked m q = true) :
    K.isMarked (markQueued K queue m) q = true := by
  unfold markQueued
  induction queue generalizing m with
  | nil => exact h
  | cons e es ih =>
    apply ih
    dsimp only
    have hfo : K.isMarked (if e.markProc = .null then K.markFo .normal e.hiddenBase m else m) q = true := by
      split
      · exact K.isMarked_markFo _ _ _ _ h
      · exact h
    split
    · exact h
    · split
      · exact hfo
      · rw [K.isMarked_setMarkBit,hfo,Bool.or_true]

theorem isMarked_markTogglerefs (refs : List Nat) (h : K.isMarked m q = true) :
    K.isMarked (markTogglerefs K refs m) q = true := by
  unfold markTogglerefs
  induction refs generalizing m with
  | nil => exact h
  | cons r refs ih =>
    apply ih
    dsimp only
    split
    · apply K.isMarked_complete
      rw [K.isMarked_setMarkBit,K.isMarked_markFo _ _ _ _ h,Bool.or_true]
    · exact h

theorem isMarked_disappear (d : Bool) (m : M) (e : DisappearingLink) :
    K.isMarked (disappear (linkOps K) d m e).2 q = K.isMarked m q := by
  unfold disappear
  split
  · split
    · rfl
    · split <;> rfl
  · split
    · rfl
    · exact K.isMarked_clearLink _ _ _

theorem isMarked_makeDisappearingLinksDisappear (t : HashTbl DisappearingLink) (d : Bool) :
    K.isMarked (makeDisappearingLinksDisappear (linkOps K) t d m).2 q = K.isMarked m q := by
  rw [makeDisappearingLinksDisappear,(HashTbl.sweep_eq _ t m).2.1]
  induction t.all generalizing m with
  | nil => rfl
  | cons e es ih =>
    rw [sweepChain]
    exact ih.trans (isMarked_disappear d m e)

theorem isMarked_startLinks (s : Fnlz) (h : K.isMarked m q = true) :
    K.isMarked (startLinks K s m).1 q = true := by
  rw [startLinks,isMarked_makeDisappearingLinksDisappear]
  exact isMarked_markTogglerefs _ h

theorem isMarked_enqueue (java : Bool) (l : List FinalizableObject) (acc : M × Queue)
    (h : K.isMarked acc.1 q = true) : K.isMarked (sweepChain (enqueue K java) l acc).2.1 q = true := by
  induction l generalizing acc with
  | nil => exact h
  | cons e es ih =>
    rw [sweepChain]
    apply ih
    unfold enqueue
    split
    · exact h
    · dsimp only
      split
      · exact h
      · rw [K.isMarked_setMarkBit,h,Bool.or_true]

end Marks

section Queue

def unhide (e : FinalizableObject) : FinalizableObject :=
  { e with hiddenBase := revealPointer e.hiddenBase }

@[simp] theorem unhide_unhide (e : FinalizableObject) : unhide (unhide e) = e := by
  change { e with hiddenBase := revealPointer (hidePointer e.hiddenBase) } = e
  rw [revealPointer_hidePointer]

def registrations (s : Fnlz) : List FinalizableObject := s.fo.all.map unhide ++ s.finalizeNow

def waiting (queue : List FinalizableObject) : List Nat :=
  (queue.filter fun e => e.markProc = .unreachable).map fun e => hidePointer e.hiddenBase

def claimed (fo : HashTbl FinalizableObject) (queue : List FinalizableObject) : List Nat :=
  fo.all.map HashChainEntry.hiddenKey ++ waiting queue

variable {K} {m : M} {q : Nat} {queue : List FinalizableObject} {e : FinalizableObject}

theorem waiting_append (queue queue' : List FinalizableObject) :
    waiting (queue ++ queue') = waiting queue ++ waiting queue' := by
  simp [waiting]

theorem waiting_perm {queue queue' : List FinalizableObject} (h : queue.Perm queue') :
    (waiting queue).Perm (waiting queue') :=
  (h.filter _).map _

theorem waiting_sublist {queue queue' : List FinalizableObject} (h : queue'.Sublist queue) :
    (waiting queue').Sublist (waiting queue) :=
  (h.filter _).map _

theorem mem_waiting : hidePointer q ∈ waiting queue ↔
    ∃ e ∈ queue, e.markProc = .unreachable ∧ e.hiddenBase = q := by
  simp only [waiting,mem_map,mem_filter,decide_eq_true_eq]
  constructor
  · rintro ⟨e,⟨he,hproc⟩,hkey⟩
    exact ⟨e,he,hproc,hidePointer_injective hkey⟩
  · rintro ⟨e,he,hproc,rfl⟩
    exact ⟨e,⟨he,hproc⟩,rfl⟩

/-- Entries that are enqueued claim at most the keys they had. -/
theorem waiting_unhide_sublist (l : List FinalizableObject) :
    (waiting (l.map unhide)).Sublist (l.map HashChainEntry.hiddenKey) := by
  have hkeys : l.map HashChainEntry.hiddenKey = (l.map unhide).map fun e => hidePointer e.hiddenBase := by
    rw [map_map]
    apply map_congr_left
    intro e _
    exact (hidePointer_revealPointer _).symm
  rw [hkeys]
  exact filter_sublist.map _

theorem waiting_eq_map (h : ∀ e ∈ queue, e.markProc = .unreachable) :
    waiting queue = (queue.map unhide).map HashChainEntry.hiddenKey := by
  rw [waiting,filter_eq_self.mpr (by simpa using h),map_map]
  rfl

theorem enqueue_split (java : Bool) (l : List FinalizableObject) (acc : M × Queue) :
    ∃ moved, l.Perm ((sweepChain (enqueue K java) l acc).1 ++ moved) ∧
      (sweepChain (enqueue K java) l acc).2.2.1.Perm (moved.map unhide ++ acc.2.1) ∧
      ∀ e ∈ moved, K.isMarked acc.1 (revealPointer e.hiddenBase) = false := by
  induction l generalizing acc with
  | nil => exact ⟨[],List.Perm.refl _,List.Perm.refl _,by simp⟩
  | cons e es ih =>
    obtain ⟨moved,hkept,hqueue,hunmarked⟩ := ih (enqueue K java acc e).2
    simp only [sweepChain]
    by_cases h : K.isMarked acc.1 (revealPointer e.hiddenBase) = true
    · simp only [enqueue,h,if_true] at hkept hqueue hunmarked ⊢
      exact ⟨moved,hkept.cons e,hqueue,hunmarked⟩
    · simp only [enqueue,h,Bool.false_eq_true,if_false] at hkept hqueue hunmarked ⊢
      refine ⟨e :: moved,?_,?_,?_⟩
      · exact (hkept.cons e).trans perm_middle.symm
      · exact hqueue.trans perm_middle
      · intro x hx
        rcases mem_cons.mp hx with rfl | hx
        · simpa using h
        · have := hunmarked x hx
          split at this
          · exact this
          · rw [K.isMarked_setMarkBit] at this
            exact (Bool.or_eq_false_iff.mp this).2

end Queue

section Tables

variable {K} {m : M} {s : Fnlz} {n : BitVec 64}

structure TablesOk (s : Fnlz) : Prop where
  dl : s.dl.WellFormed
  ll : s.ll.WellFormed
  fo : s.fo.Chained
  queued : s.finalizeNow ≠ [] → s.fo.head ≠ none

def Once (s : Fnlz) : Prop := (claimed s.fo s.finalizeNow).Nodup

theorem Once.wellFormed (h : Once s) (hok : TablesOk s) : s.fo.WellFormed :=
  { hok.fo with unique := (nodup_append.mp h).1 }

theorem perm_rotate {α : Type} (a b c : List α) : ((b ++ a) ++ c).Perm (a ++ (c ++ b)) := by
  have h : (b ++ (a ++ c)).Perm ((a ++ c) ++ b) := perm_append_comm
  rwa [← append_assoc,append_assoc a c b] at h

theorem nodup_of_subperm {α : Type} {l l' : List α} (h : l.Subperm l') (hl : l'.Nodup) : l.Nodup := by
  obtain ⟨c,hc,hsub⟩ := h
  exact hc.nodup_iff.mp (hl.sublist hsub)

theorem revive_sublist (queue : List FinalizableObject) (m : M) (fo : HashTbl FinalizableObject) (n : BitVec 64) :
    (revive K queue m fo n).1.1.Sublist queue := by
  induction queue generalizing m fo n with
  | nil => exact List.Sublist.refl _
  | cons e es ih =>
    rw [revive]
    split
    · split
      · exact (ih _ _ _).cons e
      · exact (ih _ _ _).cons_cons e
    · exact (ih _ _ _).cons_cons e

/-- A finalize-when-unreachable entry stays on the queue only if its object is unmarked. -/
theorem revive_unmarked {queue : List FinalizableObject} {fo : HashTbl FinalizableObject}
    {e : FinalizableObject} (he : e ∈ (revive K queue m fo n).1.1) (hproc : e.markProc = .unreachable) :
    K.isMarked m e.hiddenBase = false := by
  induction queue generalizing m fo n with
  | nil => simp [revive] at he
  | cons x xs ih =>
    rw [revive] at he
    split at he
    · split at he
      · exact ih he
      · next hm =>
        rcases mem_cons.mp he with rfl | he
        · simpa using hm
        · have hlater := ih he
          rw [K.isMarked_setMarkBit] at hlater
          exact (Bool.or_eq_false_iff.mp hlater).2
    · next hx =>
      rcases mem_cons.mp he with rfl | he
      · exact absurd hproc hx
      · exact ih he

theorem revive_split {fo : HashTbl FinalizableObject} {queue : List FinalizableObject} (hfo : fo.Chained)
    (hhead : queue ≠ [] → fo.head ≠ none) :
    (revive K queue m fo n).2.2.Chained ∧ (revive K queue m fo n).2.2.SameShape fo ∧
      ∃ back, queue.Perm ((revive K queue m fo n).1.1 ++ back) ∧
        (revive K queue m fo n).2.2.all.Perm (back.map unhide ++ fo.all) ∧
        ∀ e ∈ back, e.markProc = .unreachable := by
  induction queue generalizing m fo n with
  | nil => exact ⟨hfo,HashTbl.SameShape.refl _,[],List.Perm.refl _,List.Perm.refl _,by simp⟩
  | cons e es ih =>
    have hhead' := hhead (cons_ne_nil e es)
    rw [revive]
    split
    · next hproc =>
      split
      · obtain ⟨hchained,hperm⟩ := hfo.insertAt (e := unhide e) hhead' rfl
        have hshape : (fo.insertAt (hash2 e.hiddenBase fo.logSize) (unhide e)).SameShape fo :=
          ⟨by simp [HashTbl.insertAt,HashTbl.setChain],rfl⟩
        obtain ⟨hrest,hshape',back,hqueue,hall,hback⟩ := ih (m := m) hchained
          (fun _ => by rwa [Ne,hshape.1])
        refine ⟨hrest,hshape'.trans hshape,e :: back,?_,?_,?_⟩
        · exact (hqueue.cons e).trans perm_middle.symm
        · exact (hall.trans (hperm.append_left _)).trans perm_middle
        · simpa [hproc] using hback
      · obtain ⟨hrest,hshape',back,hqueue,hall,hback⟩ :=
          ih (m := K.setMarkBit e.hiddenBase m) hfo (fun _ => hhead')
        exact ⟨hrest,hshape',back,hqueue.cons e,hall,hback⟩
    · obtain ⟨hrest,hshape',back,hqueue,hall,hback⟩ := ih (m := m) hfo (fun _ => hhead')
      exact ⟨hrest,hshape',back,hqueue.cons e,hall,hback⟩

structure Finalized (s s' : Fnlz) : Prop where
  ok : TablesOk s'
  claimed : (claimed s'.fo s'.finalizeNow).Subperm (claimed s.fo s.finalizeNow)
  registrations : (registrations s').Perm (registrations s)
  fo : s'.fo.SameShape s.fo
  dl : s'.dl.SameShape s.dl
  ll : s'.ll.SameShape s.ll
  dlSublist : s'.dl.all.Sublist s.dl.all
  llSublist : s'.ll.all.Sublist s.ll.all

theorem Finalized.refl (h : TablesOk s) : Finalized s s where
  ok := h
  claimed := List.Subperm.refl _
  registrations := List.Perm.refl _
  fo := HashTbl.SameShape.refl _
  dl := HashTbl.SameShape.refl _
  ll := HashTbl.SameShape.refl _
  dlSublist := List.Sublist.refl _
  llSublist := List.Sublist.refl _

theorem Finalized.trans {s' s'' : Fnlz} (h : Finalized s s') (h' : Finalized s' s'') : Finalized s s'' where
  ok := h'.ok
  claimed := h'.claimed.trans h.claimed
  registrations := h'.registrations.trans h.registrations
  fo := h'.fo.trans h.fo
  dl := h'.dl.trans h.dl
  ll := h'.ll.trans h.ll
  dlSublist := h'.dlSublist.trans h.dlSublist
  llSublist := h'.llSublist.trans h.llSublist

theorem Finalized.of_fo {fo : HashTbl FinalizableObject} {queue : Queue} (h : TablesOk s)
    (hfo : fo.Chained) (hshape : fo.SameShape s.fo) (hqueue : queue.1 ≠ [] → s.fo.head ≠ none)
    (hclaimed : (Collection.claimed fo queue.1).Subperm (Collection.claimed s.fo s.finalizeNow))
    (hkept : (fo.all.map unhide ++ queue.1).Perm (Collection.registrations s)) :
    Finalized s (s.withQueue fo queue) where
  ok :=
    { dl := h.dl
      ll := h.ll
      fo := hfo
      queued := fun hne hnone => hqueue hne (hshape.1.mp hnone) }
  claimed := hclaimed
  registrations := hkept
  fo := hshape
  dl := HashTbl.SameShape.refl _
  ll := HashTbl.SameShape.refl _
  dlSublist := List.Sublist.refl _
  llSublist := List.Sublist.refl _

theorem enqueueUnmarked_split (s : Fnlz) (m : M) :
    (enqueueUnmarked K s m).1.SameShape s.fo ∧ ∃ moved,
      s.fo.all.Perm ((enqueueUnmarked K s m).1.all ++ moved) ∧
      (enqueueUnmarked K s m).2.2.1.Perm (moved.map unhide ++ s.finalizeNow) ∧
      ∀ e ∈ moved, ∀ q, revealPointer e.hiddenBase = q → K.isMarked m q = false := by
  obtain ⟨hall,hacc,hlog,hhead,_⟩ := HashTbl.sweep_eq (enqueue K s.javaFinalization) s.fo
    (markFromFinalizable K s.fo.all m, s.finalizeNow, 0)
  obtain ⟨moved,hkept,hqueue,hunmarked⟩ := enqueue_split (K := K) s.javaFinalization s.fo.all
    (markFromFinalizable K s.fo.all m, s.finalizeNow, 0)
  unfold enqueueUnmarked
  rw [hall,hacc]
  refine ⟨⟨hhead,hlog⟩,moved,hkept,hqueue,fun e he q hq => ?_⟩
  rw [← Bool.not_eq_true]
  intro hm
  have := hunmarked e he
  rw [hq,isMarked_markFromFinalizable _ hm] at this
  cases this

theorem isMarked_enqueueUnmarked {q : Nat} (s : Fnlz) (h : K.isMarked m q = true) :
    K.isMarked (enqueueUnmarked K s m).2.1 q = true := by
  rw [enqueueUnmarked,(HashTbl.sweep_eq _ _ _).2.1]
  exact isMarked_enqueue _ _ _ (isMarked_markFromFinalizable _ h)

theorem enqueued_finalized (h : TablesOk s) (m : M) :
    Finalized s (s.withQueue (enqueueUnmarked K s m).1 (enqueueUnmarked K s m).2.2) := by
  obtain ⟨hshape,moved,hkept,hqueue,_⟩ := enqueueUnmarked_split (K := K) s m
  apply Finalized.of_fo h (h.fo.sweep _ _) hshape
  · intro hne hnone
    rw [enqueueUnmarked,(HashTbl.sweep_eq _ _ _).2.1,HashTbl.all_of_head hnone] at hne
    exact h.queued hne hnone
  · apply List.Subperm.trans ((waiting_perm hqueue).append_left _).subperm
    rw [waiting_append,← append_assoc]
    apply List.Subperm.trans _ ((hkept.map HashChainEntry.hiddenKey).append_right _).symm.subperm
    rw [map_append]
    exact (((waiting_unhide_sublist moved).append_left _).append_right _).subperm
  · apply List.Perm.trans (hqueue.append_left _)
    rw [← append_assoc,← map_append]
    exact (hkept.symm.map unhide).append_right _

theorem revived_finalized (h : TablesOk s) (m : M) (n : BitVec 64) :
    Finalized s (s.withQueue (revive K s.finalizeNow m s.fo n).2.2 (revive K s.finalizeNow m s.fo n).1) := by
  obtain ⟨hchained,hshape,back,hqueue,hall,hback⟩ := revive_split (K := K) (m := m) (n := n) h.fo h.queued
  apply Finalized.of_fo h hchained hshape
  · intro hne
    obtain ⟨e,he⟩ := exists_mem_of_ne_nil _ hne
    exact h.queued (ne_nil_of_mem ((revive_sublist _ _ _ _).subset he))
  · have hwaiting := waiting_perm hqueue
    rw [waiting_append,waiting_eq_map hback] at hwaiting
    have hkeys := hall.map HashChainEntry.hiddenKey
    rw [map_append] at hkeys
    apply List.Perm.subperm
    apply (hkeys.append_right _).trans
    apply (perm_rotate _ _ _).trans
    exact (hwaiting.append_left _).symm
  · have hback' : (back.map unhide).map unhide = back := by simp [Function.comp_def]
    have hentries := hall.map unhide
    rw [map_append,hback'] at hentries
    apply (hentries.append_right _).trans
    apply (perm_rotate _ _ _).trans
    exact (hqueue.append_left _).symm

theorem finalizeObjects_finalized (h : TablesOk s) (m : M) : Finalized s (finalizeObjects K s m).2 := by
  have henq := enqueued_finalized (K := K) h m
  unfold finalizeObjects
  dsimp only
  split
  · split
    · exact henq.trans (revived_finalized henq.ok _ _)
    · exact henq
  · exact henq

theorem finalizeObjects_waiting {q : Nat} (hm : K.isMarked m q = true)
    (hmem : hidePointer q ∈ waiting (finalizeObjects K s m).2.finalizeNow) :
    hidePointer q ∈ waiting s.finalizeNow := by
  have hwait : hidePointer q ∈ waiting (enqueueUnmarked K s m).2.2.1 → hidePointer q ∈ waiting s.finalizeNow := by
    obtain ⟨_,moved,_,hqueue,hunmarked⟩ := enqueueUnmarked_split (K := K) s m
    intro hq
    rw [(waiting_perm hqueue).mem_iff,waiting_append,mem_append] at hq
    apply hq.resolve_left
    intro hmoved
    obtain ⟨x,hx,_,hbase⟩ := mem_waiting.mp hmoved
    obtain ⟨e,he,rfl⟩ := mem_map.mp hx
    have := hunmarked e he q hbase
    rw [hm] at this
    cases this
  unfold finalizeObjects at hmem
  dsimp only at hmem
  apply hwait
  split at hmem
  · split at hmem
    · exact (waiting_sublist (revive_sublist _ _ _ _)).subset hmem
    · exact hmem
  · exact hmem

theorem finalizeObjects_twice {q : Nat} (h : TablesOk s) (hjava : s.javaFinalization = true)
    (hneed : s.needUnreachableFinalization = true) (hm : K.isMarked m q = true)
    (hwaiting : hidePointer q ∈ waiting s.finalizeNow) {e : FinalizableObject} (he : e ∈ s.fo.all)
    (hkey : e.hiddenBase = hidePointer q) : ¬ (finalizeObjects K s m).2.fo.WellFormed := by
  have henq := enqueued_finalized (K := K) h m
  obtain ⟨_,moved,hkept,hqueue,hunmarked⟩ := enqueueUnmarked_split (K := K) s m
  have hstays : e ∈ (enqueueUnmarked K s m).1.all := by
    apply (mem_append.mp (hkept.mem_iff.mp he)).resolve_right
    intro hmoved
    have := hunmarked e hmoved q (by rw [hkey,revealPointer_hidePointer])
    rw [hm] at this
    cases this
  obtain ⟨x,hx,hproc,hbase⟩ := mem_waiting.mp hwaiting
  have hx' : x ∈ (enqueueUnmarked K s m).2.2.1 := hqueue.mem_iff.mpr (mem_append_right _ hx)
  have hm2 := isMarked_markQueued (enqueueUnmarked K s m).2.2.1 (isMarked_enqueueUnmarked s hm)
  obtain ⟨_,_,back,hback,hrevived,_⟩ := revive_split (K := K) (n := (enqueueUnmarked K s m).2.2.2)
    (m := markQueued K (enqueueUnmarked K s m).2.2.1 (enqueueUnmarked K s m).2.1) henq.ok.fo henq.ok.queued
  have hxback : x ∈ back := by
    apply (mem_append.mp (hback.mem_iff.mp hx')).resolve_left
    intro hleft
    have := revive_unmarked hleft hproc
    rw [hbase,hm2] at this
    cases this
  intro hwf
  unfold finalizeObjects at hwf
  simp only [hjava,hneed,if_true] at hwf
  have hnodup := (hrevived.map HashChainEntry.hiddenKey).nodup_iff.mp hwf.unique
  rw [map_append,nodup_append] at hnodup
  apply hnodup.2.2 (hidePointer q) _ (hidePointer q) _ rfl
  · rw [mem_map]
    exact ⟨unhide x,mem_map_of_mem hxback,congrArg hidePointer hbase⟩
  · rw [mem_map]
    exact ⟨e,hstays,hkey⟩

theorem makeDisappearingLinksDisappear_shape (t : HashTbl DisappearingLink) (d : Bool) (m : M) :
    (makeDisappearingLinksDisappear (linkOps K) t d m).1.SameShape t ∧
      (makeDisappearingLinksDisappear (linkOps K) t d m).1.all.Sublist t.all := by
  obtain ⟨hall,_,hlog,hhead,_⟩ := HashTbl.sweep_eq (disappear (linkOps K) d) t m
  refine ⟨⟨hhead,hlog⟩,?_⟩
  rw [makeDisappearingLinksDisappear,hall]
  exact sweepChain_sublist _ _ _

theorem startLinks_finalized (h : TablesOk s) (m : M) : Finalized s (startLinks K s m).2 where
  ok := { h with dl := h.dl.sweep _ _ }
  claimed := List.Subperm.refl _
  registrations := List.Perm.refl _
  fo := HashTbl.SameShape.refl _
  dl := (makeDisappearingLinksDisappear_shape _ _ _).1
  ll := HashTbl.SameShape.refl _
  dlSublist := (makeDisappearingLinksDisappear_shape _ _ _).2
  llSublist := List.Sublist.refl _

theorem finishLinks_finalized (h : TablesOk s) (m : M) : Finalized s (finishLinks K s m).2 where
  ok := { h with dl := h.dl.sweep _ _, ll := (h.ll.sweep _ _).sweep _ _ }
  claimed := List.Subperm.refl _
  registrations := List.Perm.refl _
  fo := HashTbl.SameShape.refl _
  dl := (makeDisappearingLinksDisappear_shape _ _ _).1
  ll := (makeDisappearingLinksDisappear_shape _ _ _).1.trans (makeDisappearingLinksDisappear_shape _ _ _).1
  dlSublist := (makeDisappearingLinksDisappear_shape _ _ _).2
  llSublist := (makeDisappearingLinksDisappear_shape _ _ _).2.trans (makeDisappearingLinksDisappear_shape _ _ _).2

theorem finalize_finalized (h : TablesOk s) (m : M) : Finalized s (finalize K s m).2 := by
  have hstart := startLinks_finalized (K := K) h m
  have hobj := finalizeObjects_finalized (K := K) hstart.ok (startLinks K s m).1
  exact (hstart.trans hobj).trans (finishLinks_finalized hobj.ok _)

theorem finalize_waiting {q : Nat} (hm : K.isMarked m q = true)
    (hmem : hidePointer q ∈ waiting (finalize K s m).2.finalizeNow) :
    hidePointer q ∈ waiting s.finalizeNow :=
  finalizeObjects_waiting (s := (startLinks K s m).2) (isMarked_startLinks s hm) hmem

theorem finalize_twice {q : Nat} (h : TablesOk s) (hjava : s.javaFinalization = true)
    (hneed : s.needUnreachableFinalization = true) (hm : K.isMarked m q = true)
    (hwaiting : hidePointer q ∈ waiting s.finalizeNow) {e : FinalizableObject} (he : e ∈ s.fo.all)
    (hkey : e.hiddenBase = hidePointer q) : ¬ (finalize K s m).2.fo.WellFormed :=
  finalizeObjects_twice (s := (startLinks K s m).2) (startLinks_finalized h m).ok hjava hneed
    (isMarked_startLinks s hm) hwaiting he hkey

end Tables

end GcUtil.Finalize.Collection
