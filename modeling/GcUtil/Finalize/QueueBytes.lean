import GcUtil.Finalize.FiniteMaps
import GcUtil.Library.Intervals

/-! `GC_bytes_finalized` and the queue `finalize_now` over collections between which no
finalizer is invoked. The counter always tells by how much the queue has grown; the question
is whether a collection leaves the entries of the earlier ones on the queue. -/
namespace GcUtil.Finalize.QueueBytes
open Basic Tables Collection Registration FiniteMaps Library.ChainedTable Library.Intervals List

section Totals

def total (l : List FinalizableObject) : Nat := (l.map bytes).sum

variable {M : Type} {K : Marker M} {m : M} {s : Fnlz} {l : List FinalizableObject}
  {t : HashTbl FinalizableObject}

@[simp] theorem total_cons (e : FinalizableObject) (l : List FinalizableObject) :
    total (e :: l) = bytes e + total l := rfl

@[simp] theorem total_append (l l' : List FinalizableObject) : total (l ++ l') = total l + total l' := by
  simp [total]

theorem total_sublist {l l' : List FinalizableObject} (h : l.Sublist l') : total l ≤ total l' :=
  (h.map bytes).sum_le_sum fun _ _ => Nat.zero_le _

theorem enqueue_bytes (java : Bool) (acc : M × Queue) :
    (sweepChain (enqueue K java) l acc).2.2.2 - BitVec.ofNat 64 (total (sweepChain (enqueue K java) l acc).2.2.1) =
      acc.2.2 - BitVec.ofNat 64 (total acc.2.1) := by
  induction l generalizing acc with
  | nil => rfl
  | cons e es ih =>
    rw [sweepChain]
    apply (ih _).trans
    unfold enqueue
    split
    · rfl
    · have hbytes : bytes { e with hiddenBase := revealPointer e.hiddenBase } = bytes e := rfl
      simp only [total_cons,hbytes,BitVec.ofNat_add]
      ring

theorem revive_bytes (queue : List FinalizableObject) (n : BitVec 64) :
    (revive K queue m t n).1.2 - BitVec.ofNat 64 (total (revive K queue m t n).1.1) =
      n - BitVec.ofNat 64 (total queue) := by
  induction queue generalizing m t n with
  | nil => rfl
  | cons e es ih =>
    rw [revive]
    split
    · split
      · rw [ih,total_cons,BitVec.ofNat_add]
        ring
      · have hrest := ih (m := K.setMarkBit e.hiddenBase m) (t := t) n
        simp only [total_cons,BitVec.ofNat_add]
        linear_combination hrest
    · have hrest := ih (m := m) (t := t) n
      simp only [total_cons,BitVec.ofNat_add]
      linear_combination hrest

theorem finalizeObjects_bytes : (finalizeObjects K s m).2.bytesFinalized =
    BitVec.ofNat 64 (total (finalizeObjects K s m).2.finalizeNow) - BitVec.ofNat 64 (total s.finalizeNow) := by
  have henq := enqueue_bytes (K := K) (l := s.fo.all) s.javaFinalization
    (markFromFinalizable K s.fo.all m, s.finalizeNow, 0)
  rw [← (HashTbl.sweep_eq _ _ _).2.1] at henq
  unfold finalizeObjects enqueueUnmarked
  dsimp only [Fnlz.withQueue] at henq ⊢
  generalize s.fo.sweep _ _ = enqueued at henq ⊢
  split
  · split
    · have hrevived := revive_bytes (K := K) enqueued.2.2.1
        (m := markQueued K enqueued.2.2.1 enqueued.2.1) (t := enqueued.1) enqueued.2.2.2
      linear_combination henq + hrevived
    · linear_combination henq
  · linear_combination henq

end Totals

section Queue

/-- No entry that an earlier collection has queued is one that this collection may put back. -/
def Quiet (s : Fnlz) : Prop :=
  s.javaFinalization = true → s.needUnreachableFinalization = true →
    ∀ e ∈ s.finalizeNow, e.markProc ≠ .unreachable

variable {M : Type} {K : Marker M} {m : M} {s : Fnlz} {queue : List FinalizableObject}
  {t : HashTbl FinalizableObject} {e : FinalizableObject} {n : BitVec 64}

instance (s : Fnlz) : Decidable (Quiet s) :=
  inferInstanceAs (Decidable (s.javaFinalization = true → s.needUnreachableFinalization = true →
    ∀ e ∈ s.finalizeNow, e.markProc ≠ .unreachable))

theorem enqueue_queue (java : Bool) (l : List FinalizableObject) (acc : M × Queue) :
    ∃ front, (sweepChain (enqueue K java) l acc).2.2.1 = front ++ acc.2.1 ∧ total front ≤ total l := by
  induction l generalizing acc with
  | nil => exact ⟨[],rfl,Nat.le_refl _⟩
  | cons e es ih =>
    obtain ⟨front,hfront,hle⟩ := ih (enqueue K java acc e).2
    rw [sweepChain]
    dsimp only
    rw [hfront]
    by_cases h : K.isMarked acc.1 (revealPointer e.hiddenBase) = true
    · refine ⟨front,by simp [enqueue,h],?_⟩
      rw [total_cons]
      omega
    · refine ⟨front ++ [unhide e],by simp [enqueue,h,unhide],?_⟩
      have hbytes : bytes (unhide e) = bytes e := rfl
      simp only [total_append,total_cons,hbytes]
      change total front + (bytes e + 0) ≤ _
      omega

theorem revive_ordered (hqueue : ∀ e ∈ queue, e.markProc ≠ .unreachable) :
    (revive K queue m t n).1.1 = queue := by
  induction queue generalizing m t n with
  | nil => rfl
  | cons e es ih =>
    rw [revive,if_neg (hqueue e mem_cons_self)]
    dsimp only
    rw [ih fun x hx => hqueue x (mem_cons_of_mem e hx)]

theorem revive_append (front : List FinalizableObject) (hqueue : ∀ e ∈ queue, e.markProc ≠ .unreachable) :
    (revive K (front ++ queue) m t n).1.1 = (revive K front m t n).1.1 ++ queue := by
  induction front generalizing m t n with
  | nil => exact revive_ordered hqueue
  | cons e es ih =>
    rw [cons_append,revive,revive]
    split
    · split
      · exact ih
      · exact congrArg (e :: ·) ih
    · exact congrArg (e :: ·) ih

theorem finalizeObjects_queue (h : Quiet s) :
    ∃ new, (finalizeObjects K s m).2.finalizeNow = new ++ s.finalizeNow ∧ total new ≤ total s.fo.all := by
  obtain ⟨front,hfront,hle⟩ := enqueue_queue (K := K) s.javaFinalization s.fo.all
    (markFromFinalizable K s.fo.all m, s.finalizeNow, 0)
  rw [← (HashTbl.sweep_eq _ _ _).2.1] at hfront
  change (enqueueUnmarked K s m).2.2.1 = _ at hfront
  unfold finalizeObjects
  dsimp only [Fnlz.withQueue]
  split
  · next hjava =>
    split
    · next hneed =>
      rw [hfront,revive_append front (h hjava hneed)]
      exact ⟨_,rfl,(total_sublist (revive_sublist _ _ _ _)).trans hle⟩
    · exact ⟨front,hfront,hle⟩
  · exact ⟨front,hfront,hle⟩

theorem finalizeObjects_taken (hjava : s.javaFinalization = true) (hneed : s.needUnreachableFinalization = true)
    (hproc : e.markProc = .unreachable) (hm : K.isMarked m e.hiddenBase = true) :
    e ∉ (finalizeObjects K s m).2.finalizeNow := by
  intro hmem
  unfold finalizeObjects at hmem
  simp only [hjava,hneed,if_true] at hmem
  have hunmarked := revive_unmarked hmem hproc
  rw [isMarked_markQueued _ (isMarked_enqueueUnmarked s hm)] at hunmarked
  cases hunmarked

end Queue

section Calls

variable {M : Type} (K : Marker M)

/-- `finalize_now` is a root and its entries do not hide their objects, so that the objects
are marked when `GC_finalize` is called. -/
def Rooted (s : Fnlz) (m : M) : Prop := ∀ e ∈ s.finalizeNow, K.isMarked m e.hiddenBase = true

instance (s : Fnlz) (m : M) : Decidable (Rooted K s m) :=
  inferInstanceAs (Decidable (∀ e ∈ s.finalizeNow, K.isMarked m e.hiddenBase = true))

/-- The objects with a finalizer and the entries for them are in the address space. -/
def Fits (s : Fnlz) : Prop := total s.fo.all < 2 ^ 64

instance (s : Fnlz) : Decidable (Fits s) := inferInstanceAs (Decidable (total s.fo.all < 2 ^ 64))

/-- A call leaves the entries of earlier calls on the queue, and counts the bytes of those it
adds to them. -/
def Kept (s : Fnlz) (m : M) : Prop :=
  ∃ new, (finalize K s m).2.finalizeNow = new ++ s.finalizeNow ∧
    (finalize K s m).2.bytesFinalized.toNat = total new

variable {K} {m : M} {s : Fnlz}

def ranges (record : FinalizableObject → Nat) (l : List FinalizableObject) : List (Nat × Nat) :=
  l.flatMap fun e => [(revealPointer e.hiddenBase, e.objectSz), (record e, sizeofFinalizableObject)]

theorem sum_ranges (record : FinalizableObject → Nat) (l : List FinalizableObject) :
    ((ranges record l).map fun r => r.1 + r.2 - r.1).sum = total l := by
  induction l with
  | nil => rfl
  | cons e es ih =>
    have hcons : ranges record (e :: es) = (revealPointer e.hiddenBase, e.objectSz) ::
        (record e, sizeofFinalizableObject) :: ranges record es := rfl
    rw [hcons,map_cons,map_cons,sum_cons,sum_cons,ih,total_cons,bytes]
    omega

theorem fits_of_apart {record : FinalizableObject → Nat}
    (hapart : (ranges record s.fo.all).Pairwise (Apart Prod.fst fun r => r.1 + r.2))
    (hbounds : ∀ r ∈ ranges record s.fo.all, 0 < r.1 ∧ r.1 + r.2 ≤ 2 ^ 64) : Fits s := by
  have hsum := sum_length_le Prod.fst (fun r => r.1 + r.2) (a := 1) (b := 2 ^ 64) hapart fun r hr => by
    have := hbounds r hr
    omega
  rw [sum_ranges] at hsum
  unfold Fits
  omega

theorem finalize_bytes : (finalize K s m).2.bytesFinalized =
    BitVec.ofNat 64 (total (finalize K s m).2.finalizeNow) - BitVec.ofNat 64 (total s.finalizeNow) :=
  finalizeObjects_bytes

theorem kept_iff (hroot : Rooted K s m) (hfits : Fits s) : Kept K s m ↔ Quiet s := by
  constructor
  · rintro ⟨new,hnew,-⟩ hjava hneed e he hproc
    apply finalizeObjects_taken (K := K) (s := (startLinks K s m).2) (m := (startLinks K s m).1) hjava hneed
      hproc (isMarked_startLinks s (hroot e he))
    change e ∈ (finalize K s m).2.finalizeNow
    rw [hnew]
    exact mem_append_right new he
  · intro hquiet
    obtain ⟨new,hnew,hle⟩ := finalizeObjects_queue (K := K) (s := (startLinks K s m).2)
      (m := (startLinks K s m).1) hquiet
    have hnew : (finalize K s m).2.finalizeNow = new ++ s.finalizeNow := hnew
    have hle : total new ≤ total s.fo.all := hle
    refine ⟨new,hnew,?_⟩
    have hbytes : (finalize K s m).2.bytesFinalized = BitVec.ofNat 64 (total new) := by
      rw [finalize_bytes,hnew,total_append,BitVec.ofNat_add]
      ring
    rw [hbytes,BitVec.toNat_ofNat]
    exact Nat.mod_eq_of_lt (Nat.lt_of_le_of_lt hle hfits)

end Calls

section Rounds

/-- What the client does before a collection, and the marks when `GC_finalize` is called. -/
structure Round (M : Type) where
  client : Fnlz → Fnlz
  marks : M

/-- The client may change the tables and the settings, but invokes no finalizer. -/
def Round.before {M : Type} (r : Round M) (s : Fnlz) : Fnlz := { r.client s with finalizeNow := s.finalizeNow }

variable {M : Type} (K : Marker M)

def Along (P : Fnlz → M → Prop) : List (Round M) → Fnlz → Prop
  | [], _ => True
  | r :: rs, s => P (r.before s) r.marks ∧ Along P rs (finalize K (r.before s) r.marks).2

instance {P : Fnlz → M → Prop} [∀ s m, Decidable (P s m)] : ∀ (rs : List (Round M)) (s : Fnlz),
    Decidable (Along K P rs s)
  | [], _ => isTrue trivial
  | r :: rs, s =>
      have := instDecidableAlong (P := P) rs (finalize K (r.before s) r.marks).2
      inferInstanceAs (Decidable (P (r.before s) r.marks ∧ _))

variable {K}

theorem along_congr {A P Q : Fnlz → M → Prop} (h : ∀ s m, A s m → (P s m ↔ Q s m)) {rs : List (Round M)}
    {s : Fnlz} (hA : Along K A rs s) : Along K P rs s ↔ Along K Q rs s := by
  induction rs generalizing s with
  | nil => exact Iff.rfl
  | cons r rs ih => exact and_congr (h _ _ hA.1) (ih hA.2)

/-- Every call of a run leaves the queue of the earlier calls and counts the bytes it adds, if and
only if no call finds a finalize-when-unreachable entry of an earlier one. -/
theorem along_kept (rs : List (Round M)) (s : Fnlz)
    (h : Along K (fun s m => Rooted K s m ∧ Fits s) rs s) :
    Along K (Kept K) rs s ↔ Along K (fun s _ => Quiet s) rs s :=
  along_congr (fun _ _ h => kept_iff h.1 h.2) h

def register (obj size : Nat) (proc : MarkProc) (s : Fnlz) : Fnlz :=
  ((exec plainMarker { init true false with fnlz := s }
    (.registerFinalizer obj 1 0 proc (some size) ⟨none, allocated⟩ allocated)).map fun r => r.2.fnlz).getD s

/-- A normal entry is queued by the first collection and a finalize-when-unreachable one by the second. -/
theorem along_kept_mixed : Along plainMarker (Kept plainMarker)
    [⟨register 4096 16 .normal, fun _ => false⟩, ⟨register 8192 32 .unreachable, fun p => p == 4096⟩]
    (init true false).fnlz :=
  (along_kept _ _ (by decide +kernel)).mpr (by decide +kernel)

def queueing : Round (Nat → Bool) := ⟨register 4096 16 .unreachable, fun _ => false⟩

def rooting : Round (Nat → Bool) := ⟨id, fun _ => true⟩

def queuedOnce : Fnlz := (finalize plainMarker (queueing.before (init true false).fnlz) queueing.marks).2

/-- The second collection takes the entry of the first one off the queue, and the counter wraps. -/
theorem along_taken :
    Along plainMarker (fun s m => Rooted plainMarker s m ∧ Fits s) [queueing, rooting] (init true false).fnlz ∧
      ¬ Along plainMarker (Kept plainMarker) [queueing, rooting] (init true false).fnlz ∧
      queuedOnce.finalizeNow = [⟨4096, 1, .unreachable, 0, 16⟩] ∧
      (finalize plainMarker (rooting.before queuedOnce) rooting.marks).2.finalizeNow = [] ∧
      (finalize plainMarker (rooting.before queuedOnce) rooting.marks).2.bytesFinalized.toNat = 2 ^ 64 - 64 := by
  have hallowed : Along plainMarker (fun s m => Rooted plainMarker s m ∧ Fits s) [queueing,rooting]
      (init true false).fnlz := by
    decide +kernel
  refine ⟨hallowed,?_,by decide +kernel,by decide +kernel,by decide +kernel⟩
  intro hkept
  have hquiet := (kept_iff hallowed.2.1.1 hallowed.2.1.2).mp hkept.2.1
  revert hquiet
  decide +kernel

end Rounds

end GcUtil.Finalize.QueueBytes
