import GcUtil.Isolate.Registry
import Mathlib.Logic.Function.Basic

/-! The queue through which a thread that writes into another isolate's heap hands
the written pages to their owner. `pending_lock` makes every operation atomic. -/
namespace GcUtil.Isolate.Pending
open Basic Registry Library.SwapRemove Function List

structure PendingQueue where
  entries : List Nat
  pendingCapacity : Nat
  reallocs : Nat
deriving DecidableEq, Repr

def emptyQueue : PendingQueue := ⟨[], 0, 0⟩

/-- The part of an isolate's thread-local collector that the queue consults:
`headers` tells for which addresses `GC_find_header` succeeds. -/
structure IsolateHeap where
  incremental : Bool
  headers : Nat → Bool
  heapSects : List HeapSect
  dirtyPages : Nat → Bool

def ensurePendingCapacity (realloc : Nat → Bool) (q : PendingQueue) (needed : Nat) :
    Bool × PendingQueue :=
  let grown := ensureCapacity realloc q.entries.length needed q.pendingCapacity q.reallocs
  (grown.1, { q with pendingCapacity := grown.2.1, reallocs := grown.2.2 })

def hblksFrom (h n : Nat) : List Nat :=
  (List.range n).map fun i => h + i * hblkSize

def pushPending (realloc : Nat → Bool) (q : PendingQueue) (h n : Nat) : Bool × PendingQueue :=
  let grown := ensurePendingCapacity realloc q n
  if grown.1 then (true, { grown.2 with entries := q.entries ++ hblksFrom h n })
  else (false, grown.2)

section Bitmap

variable (phtEntries : Nat)

def phtHash (a : Nat) : Nat := a / hblkSize % phtEntries

def dirtyPage (dirtyPages : Nat → Bool) (a : Nat) : Nat → Bool :=
  Function.update dirtyPages (phtHash phtEntries a) true

def dirtyAll (dirtyPages : Nat → Bool) (addrs : List Nat) : Nat → Bool :=
  addrs.foldl (dirtyPage phtEntries) dirtyPages

theorem dirtyPage_mono (dirtyPages : Nat → Bool) (a i : Nat) (h : dirtyPages i = true) :
    dirtyPage phtEntries dirtyPages a i = true := by
  unfold dirtyPage
  by_cases hi : i = phtHash phtEntries a
  · rw [hi,update_self]
  · rw [update_of_ne hi,h]

theorem dirtyAll_mono (addrs : List Nat) (dirtyPages : Nat → Bool) (i : Nat)
    (h : dirtyPages i = true) : dirtyAll phtEntries dirtyPages addrs i = true := by
  induction addrs generalizing dirtyPages with
  | nil => exact h
  | cons a addrs ih => exact ih _ (dirtyPage_mono phtEntries dirtyPages a i h)

theorem dirtyAll_mem (addrs : List Nat) (dirtyPages : Nat → Bool) (a : Nat) (ha : a ∈ addrs) :
    dirtyAll phtEntries dirtyPages addrs (phtHash phtEntries a) = true := by
  induction addrs generalizing dirtyPages with
  | nil => cases ha
  | cons b addrs ih =>
    rcases mem_cons.mp ha with rfl | ha
    · exact dirtyAll_mono phtEntries addrs _ _ (update_self ..)
    · exact ih _ ha

end Bitmap

def drainSweep (iso : IsolateHeap) (entries : List Nat) : List Nat × List Nat :=
  sweep iso.headers entries.length 0 entries

def drainPending (phtEntries : Nat) (iso : IsolateHeap) (q : PendingQueue) : IsolateHeap × PendingQueue :=
  ({ iso with dirtyPages := dirtyAll phtEntries iso.dirtyPages (drainSweep iso q.entries).1 },
    { q with entries := (drainSweep iso q.entries).2 })

/-- The inner loop of `GC_isolate_vdb_deinit` over `GC_heap_sects`. -/
def owned (heapSects : List HeapSect) (a : Nat) : Bool :=
  heapSects.any fun sect => sect.hsStart ≤ a && a < sect.hsStart + sect.hsBytes

theorem owned_iff {heapSects : List HeapSect} {a : Nat} :
    owned heapSects a = true ↔ ∃ sect ∈ heapSects, sect.Contains a := by
  simp [owned,HeapSect.Contains]

def deinitSweep (iso : IsolateHeap) (entries : List Nat) : List Nat × List Nat :=
  if !iso.incremental then ([], entries)
  else sweep (owned iso.heapSects) entries.length 0 entries

def deinitPending (iso : IsolateHeap) (q : PendingQueue) : PendingQueue :=
  { q with entries := (deinitSweep iso q.entries).2 }

theorem deinitSweep_perm (iso : IsolateHeap) (entries : List Nat) :
    ((deinitSweep iso entries).1 ++ (deinitSweep iso entries).2).Perm entries := by
  unfold deinitSweep
  split
  · exact List.Perm.refl _
  · exact sweep_perm _ _

theorem deinitSweep_owned (iso : IsolateHeap) (entries : List Nat) :
    ∀ a ∈ (deinitSweep iso entries).1, ∃ sect ∈ iso.heapSects, sect.Contains a := by
  unfold deinitSweep
  split
  · simp
  · exact fun a ha => owned_iff.mp (sweep_taken _ _ a ha)

structure Removal where
  iso : Nat
  tables : IsolateHeap
  addr : Nat

def removals (iso : Nat) (tables : IsolateHeap) (addrs : List Nat) : List Removal :=
  addrs.map fun a => ⟨iso, tables, a⟩

@[simp] theorem removals_addr (iso : Nat) (tables : IsolateHeap) (addrs : List Nat) :
    (removals iso tables addrs).map Removal.addr = addrs := by
  simp [removals,comp_def]

/-- The process: the queue and all isolates, with the history of the hblks of
successful pushes and of what was removed by drains and by deinits. -/
structure HandOff where
  queue : PendingQueue
  isolates : Nat → IsolateHeap
  pushed : List Nat
  claimed : List Removal
  dropped : List Removal

def HandOff.init (isolates : Nat → IsolateHeap) : HandOff := ⟨emptyQueue, isolates, [], [], []⟩

/-- An isolate's own heap activity between the calls changes its header table and
its sections. -/
inductive Step where
  | push (h n : Nat)
  | drain (iso : Nat)
  | deinit (iso : Nat)
  | heapChange (iso : Nat) (headers : Nat → Bool) (heapSects : List HeapSect)

def step (realloc : Nat → Bool) (phtEntries : Nat) (s : HandOff) : Step → HandOff
  | .push h n =>
      let pushed := pushPending realloc s.queue h n
      { s with queue := pushed.2, pushed := s.pushed ++ if pushed.1 then hblksFrom h n else [] }
  | .drain i =>
      let iso := s.isolates i
      let drained := drainPending phtEntries iso s.queue
      { s with
        queue := drained.2
        isolates := Function.update s.isolates i drained.1
        claimed := s.claimed ++ removals i iso (drainSweep iso s.queue.entries).1 }
  | .deinit i =>
      let iso := s.isolates i
      { s with
        queue := deinitPending iso s.queue
        dropped := s.dropped ++ removals i iso (deinitSweep iso s.queue.entries).1 }
  | .heapChange i headers heapSects =>
      let iso := s.isolates i
      { s with
        isolates := Function.update s.isolates i { iso with headers := headers, heapSects := heapSects } }

def run (realloc : Nat → Bool) (phtEntries : Nat) (isolates : Nat → IsolateHeap) (steps : List Step) :
    HandOff :=
  steps.foldl (step realloc phtEntries) (HandOff.init isolates)

/-- Every pushed hblk is in exactly one place, and it was removed for a reason. -/
structure Accounted (phtEntries : Nat) (s : HandOff) : Prop where
  conserved : s.pushed.Perm
    (s.queue.entries ++ s.claimed.map Removal.addr ++ s.dropped.map Removal.addr)
  claimed : ∀ c ∈ s.claimed, c.tables.headers c.addr = true ∧
    (s.isolates c.iso).dirtyPages (phtHash phtEntries c.addr) = true
  dropped : ∀ d ∈ s.dropped, ∃ sect ∈ d.tables.heapSects, sect.Contains d.addr

section Steps

variable {realloc : Nat → Bool} {phtEntries : Nat} {s : HandOff}

theorem pushPending_entries (realloc : Nat → Bool) (q : PendingQueue) (h n : Nat) :
    (pushPending realloc q h n).2.entries =
      q.entries ++ if (pushPending realloc q h n).1 then hblksFrom h n else [] := by
  unfold pushPending
  dsimp only
  split
  · rfl
  · simp [ensurePendingCapacity]

theorem perm_push (queue added claimed dropped : List Nat) :
    (queue ++ claimed ++ dropped ++ added).Perm (queue ++ added ++ claimed ++ dropped) := by
  simp only [append_assoc]
  apply List.Perm.append_left
  rw [← append_assoc]
  exact perm_append_comm

section

variable {queue taken kept : List Nat} (claimed dropped : List Nat) (h : (taken ++ kept).Perm queue)
include claimed dropped h

theorem perm_drain :
    (queue ++ claimed ++ dropped).Perm (kept ++ (claimed ++ taken) ++ dropped) := by
  apply List.Perm.append_right
  refine (h.symm.append_right claimed).trans ?_
  rw [append_assoc]
  refine perm_append_comm.trans ?_
  rw [append_assoc]

theorem perm_deinit :
    (queue ++ claimed ++ dropped).Perm (kept ++ claimed ++ (dropped ++ taken)) := by
  rw [append_assoc,append_assoc,← append_assoc claimed]
  refine (h.symm.append_right (claimed ++ dropped)).trans ?_
  rw [append_assoc]
  refine perm_append_comm.trans ?_
  rw [append_assoc]

end

theorem step_push_accounted (h n : Nat) (hs : Accounted phtEntries s) :
    Accounted phtEntries (step realloc phtEntries s (.push h n)) where
  conserved := by
    dsimp only [step]
    rw [pushPending_entries]
    exact (hs.conserved.append_right _).trans (perm_push ..)
  claimed := hs.claimed
  dropped := hs.dropped

theorem step_drain_accounted (i : Nat) (hs : Accounted phtEntries s) :
    Accounted phtEntries (step realloc phtEntries s (.drain i)) where
  conserved := by
    dsimp only [step,drainPending]
    rw [map_append,removals_addr]
    exact hs.conserved.trans (perm_drain _ _ (sweep_perm _ _))
  claimed := by
    intro c hc
    dsimp only [step] at hc ⊢
    rcases mem_append.mp hc with hc | hc
    · obtain ⟨hknown,hdirty⟩ := hs.claimed c hc
      refine ⟨hknown,?_⟩
      by_cases hi : c.iso = i
      · rw [hi,update_self]
        rw [hi] at hdirty
        exact dirtyAll_mono _ _ _ _ hdirty
      · rw [update_of_ne hi]
        exact hdirty
    · obtain ⟨a,ha,rfl⟩ := mem_map.mp hc
      refine ⟨sweep_taken _ _ a ha,?_⟩
      rw [update_self]
      exact dirtyAll_mem _ _ _ a ha
  dropped := hs.dropped

theorem step_deinit_accounted (i : Nat) (hs : Accounted phtEntries s) :
    Accounted phtEntries (step realloc phtEntries s (.deinit i)) where
  conserved := by
    dsimp only [step,deinitPending]
    rw [map_append,removals_addr]
    exact hs.conserved.trans (perm_deinit _ _ (deinitSweep_perm _ _))
  claimed := hs.claimed
  dropped := by
    intro d hd
    rcases mem_append.mp hd with hd | hd
    · exact hs.dropped d hd
    · obtain ⟨a,ha,rfl⟩ := mem_map.mp hd
      exact deinitSweep_owned _ _ a ha

theorem step_heapChange_accounted (i : Nat) (headers : Nat → Bool) (heapSects : List HeapSect)
    (hs : Accounted phtEntries s) :
    Accounted phtEntries (step realloc phtEntries s (.heapChange i headers heapSects)) where
  conserved := hs.conserved
  claimed := by
    intro c hc
    obtain ⟨hknown,hdirty⟩ := hs.claimed c hc
    refine ⟨hknown,?_⟩
    dsimp only [step]
    by_cases hi : c.iso = i
    · rw [hi,update_self]
      rwa [hi] at hdirty
    · rwa [update_of_ne hi]
  dropped := hs.dropped

theorem step_accounted (st : Step) (hs : Accounted phtEntries s) :
    Accounted phtEntries (step realloc phtEntries s st) := by
  cases st with
  | push h n => exact step_push_accounted h n hs
  | drain i => exact step_drain_accounted i hs
  | deinit i => exact step_deinit_accounted i hs
  | heapChange i headers heapSects => exact step_heapChange_accounted i headers heapSects hs

theorem accounted_init (isolates : Nat → IsolateHeap) :
    Accounted phtEntries (HandOff.init isolates) where
  conserved := List.Perm.refl _
  claimed := by simp [HandOff.init]
  dropped := by simp [HandOff.init]

theorem runFrom_accounted (steps : List Step) (hs : Accounted phtEntries s) :
    Accounted phtEntries (steps.foldl (step realloc phtEntries) s) := by
  induction steps generalizing s with
  | nil => exact hs
  | cons st steps ih => exact ih (step_accounted st hs)

end Steps

/-- In every interleaving each hblk of a successful push is still queued, claimed
into the bitmap of an isolate whose table knew it, or dropped by the deinit of the
isolate whose section holds it; a failed push adds nothing. -/
theorem run_accounted (realloc : Nat → Bool) (phtEntries : Nat) (isolates : Nat → IsolateHeap)
    (steps : List Step) :
    Accounted phtEntries (run realloc phtEntries isolates steps) ∧
      ∀ h n, (pushPending realloc (run realloc phtEntries isolates steps).queue h n).2.entries =
        (run realloc phtEntries isolates steps).queue.entries ++
          if (pushPending realloc (run realloc phtEntries isolates steps).queue h n).1 then
            hblksFrom h n
          else [] :=
  ⟨runFrom_accounted steps (accounted_init isolates),fun h n => pushPending_entries realloc _ h n⟩

end GcUtil.Isolate.Pending
