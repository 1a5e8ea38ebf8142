import GcUtil.Basic
import GcUtil.Library.SwapRemove
import Mathlib.Data.List.Sort

/-! The process-global registry of heap sections in `vdb_isolate.c`. The array
`range_registry[0 .. range_count)` is a list; `realloc` is the allocator, given
as the outcome of its n-th call. Each public operation is one critical section
under `range_lock`. -/
namespace GcUtil.Isolate.Registry
open Basic Library.SwapRemove

/-- `GC_isolate_range`, with the exclusive `end` called `stop`. -/
structure IsolateRange where
  start : Nat
  stop : Nat
  committed : Bool
deriving DecidableEq, Repr

def IsolateRange.Contains (r : IsolateRange) (a : Nat) : Prop :=
  r.start ≤ a ∧ a < r.stop

instance (r : IsolateRange) (a : Nat) : Decidable (r.Contains a) :=
  inferInstanceAs (Decidable (_ ∧ _))

structure RangeRegistry where
  ranges : List IsolateRange
  rangeCapacity : Nat
  reallocs : Nat
deriving DecidableEq, Repr

def initialCapacity : Nat := 256

def emptyRegistry : RangeRegistry := ⟨[], 0, 0⟩

/-- `while (new_capacity < target) new_capacity *= 2`. -/
def growCapacity (target : Nat) : Nat → Nat → Nat
  | 0, capacity => capacity
  | fuel + 1, capacity =>
      if capacity < target then growCapacity target fuel (capacity * 2) else capacity

section Changes

variable (realloc : Nat → Bool)

/-- `ensure_range_capacity_locked` and `ensure_pending_capacity_locked` on their
own array: whether there is room for `needed` more entries, and the capacity and
the number of `realloc` calls after it. A failed `realloc` leaves the array. -/
def ensureCapacity (count needed capacity reallocs : Nat) : Bool × Nat × Nat :=
  if count + needed ≤ capacity then (true, capacity, reallocs)
  else
    let first := if capacity = 0 then initialCapacity else capacity * 2
    if realloc reallocs then
      (true, growCapacity (count + needed) (count + needed) first, reallocs + 1)
    else (false, capacity, reallocs + 1)

theorem ensureCapacity_of_total (htotal : ∀ n, realloc n = true) (count needed capacity reallocs : Nat) :
    (ensureCapacity realloc count needed capacity reallocs).1 = true := by
  unfold ensureCapacity
  split
  · rfl
  · simp [htotal]

def ensureRangeCapacity (st : RangeRegistry) (needed : Nat) : Bool × RangeRegistry :=
  let grown := ensureCapacity realloc st.ranges.length needed st.rangeCapacity st.reallocs
  (grown.1, { st with rangeCapacity := grown.2.1, reallocs := grown.2.2 })

@[simp] theorem ensureRangeCapacity_ranges (st : RangeRegistry) (needed : Nat) :
    (ensureRangeCapacity realloc st needed).2.ranges = st.ranges :=
  rfl

theorem ensureRangeCapacity_of_total (htotal : ∀ n, realloc n = true)
    (st : RangeRegistry) (needed : Nat) : (ensureRangeCapacity realloc st needed).1 = true :=
  ensureCapacity_of_total realloc htotal _ _ _ _

/-- `compare_ranges` orders by start address only. -/
def startsBefore (a b : IsolateRange) : Prop := a.start ≤ b.start

instance : DecidableRel startsBefore := fun a b => Nat.decLe a.start b.start

/-- The compaction pass: `cur` is `range_registry[write_idx]`. -/
def coalescePass (cur : IsolateRange) : List IsolateRange → List IsolateRange
  | [] => [cur]
  | r :: rest =>
      if cur.committed = r.committed ∧ cur.stop = r.start then
        coalescePass { cur with stop := r.stop } rest
      else cur :: coalescePass r rest

def coalesceRanges (st : RangeRegistry) : RangeRegistry :=
  if st.ranges.length ≤ 1 then st
  else
    match st.ranges.insertionSort startsBefore with
    | [] => st
    | cur :: rest => { st with ranges := coalescePass cur rest }

structure Visit where
  kept : Option IsolateRange
  appended : List IsolateRange
  registry : RangeRegistry

/-- The loop that `mark_range_locked` and `delete_range_locked` share. Its bound
is the current count, which appended entries increase and a hole decreases. -/
def scanLoop (visit : RangeRegistry → IsolateRange → Visit) :
    Nat → Nat → RangeRegistry → RangeRegistry
  | 0, _, st => st
  | fuel + 1, i, st =>
      match st.ranges[i]? with
      | none => st
      | some r =>
          match (visit st r).kept with
          | some kept => scanLoop visit fuel (i + 1) { (visit st r).registry with
              ranges := st.ranges.set i kept ++ (visit st r).appended }
          | none => scanLoop visit fuel i { (visit st r).registry with
              ranges := swapRemove st.ranges i }

def markVisit (start stop : Nat) (committed : Bool) (st : RangeRegistry) (r : IsolateRange) : Visit :=
  if r.stop ≤ start ∨ stop ≤ r.start then ⟨some r, [], st⟩
  else if r.start < start ∧ stop < r.stop then
    let grown := ensureRangeCapacity realloc st 2
    if grown.1 then
      ⟨some { r with stop := start },
        [⟨start, stop, committed⟩, ⟨stop, r.stop, r.committed⟩], grown.2⟩
    else ⟨none, [], grown.2⟩
  else if r.start < start then
    let grown := ensureRangeCapacity realloc st 1
    ⟨some { r with stop := start },
      if grown.1 then [⟨start, r.stop, committed⟩] else [], grown.2⟩
  else if stop < r.stop then
    let grown := ensureRangeCapacity realloc st 1
    ⟨some { r with start := stop },
      if grown.1 then [⟨r.start, stop, committed⟩] else [], grown.2⟩
  else ⟨some { r with committed := committed }, [], st⟩

def markRange (start stop : Nat) (committed : Bool) (st : RangeRegistry) : RangeRegistry :=
  scanLoop (markVisit realloc start stop committed) (3 * st.ranges.length) 0 st

def deleteVisit (start stop : Nat) (st : RangeRegistry) (r : IsolateRange) : Visit :=
  if r.stop ≤ start ∨ stop ≤ r.start then ⟨some r, [], st⟩
  else if r.start < start ∧ stop < r.stop then
    let grown := ensureRangeCapacity realloc st 1
    ⟨some { r with stop := start },
      if grown.1 then [⟨stop, r.stop, r.committed⟩] else [], grown.2⟩
  else if r.start < start then ⟨some { r with stop := start }, [], st⟩
  else if stop < r.stop then ⟨some { r with start := stop }, [], st⟩
  else ⟨none, [], st⟩

def deleteRange (start stop : Nat) (st : RangeRegistry) : RangeRegistry :=
  scanLoop (deleteVisit realloc start stop) (3 * st.ranges.length) 0 st

def registerHeapSect (incremental : Bool) (start bytes : Nat) (st : RangeRegistry) : RangeRegistry :=
  if !incremental then st
  else
    let grown := ensureRangeCapacity realloc st 1
    if grown.1 then
      coalesceRanges { grown.2 with ranges := st.ranges ++ [⟨start, start + bytes, true⟩] }
    else grown.2

/-- `GC_isolate_vdb_note_unmap` and `GC_isolate_vdb_note_remap` differ in the
state they record. `NULL` (address 0) stands for "no page to note". -/
def noteRange (incremental : Bool) (committed : Bool) (start bytes : Nat)
    (st : RangeRegistry) : RangeRegistry :=
  if !incremental || start == 0 || bytes == 0 then st
  else coalesceRanges (markRange realloc start (start + bytes) committed st)

def noteUnmap (incremental : Bool) (start bytes : Nat) (st : RangeRegistry) : RangeRegistry :=
  noteRange realloc incremental false start bytes st

def noteRemap (incremental : Bool) (start bytes : Nat) (st : RangeRegistry) : RangeRegistry :=
  noteRange realloc incremental true start bytes st

def deinitRanges (incremental : Bool) (heapSects : List HeapSect) (st : RangeRegistry) : RangeRegistry :=
  if !incremental then st
  else coalesceRanges (heapSects.foldl (fun st sect =>
    deleteRange realloc sect.hsStart (sect.hsStart + sect.hsBytes) st) st)

end Changes

inductive FaultKind where
  | unknown
  | decommitted
  | crossIsolate
deriving DecidableEq, Repr

def faultKindOf (committed : Bool) : FaultKind :=
  if committed then .crossIsolate else .decommitted

def classifyLoop (ranges : List IsolateRange) (a : Nat) : Nat → Nat → Nat → FaultKind
  | 0, _, _ => .unknown
  | fuel + 1, low, high =>
      if low < high then
        let mid := low + (high - low) / 2
        match ranges[mid]? with
        | none => .unknown
        | some r =>
            if r.start ≤ a ∧ a < r.stop then faultKindOf r.committed
            else if a < r.start then classifyLoop ranges a fuel low mid
            else classifyLoop ranges a fuel (mid + 1) high
      else .unknown

def classifyFault (st : RangeRegistry) (a : Nat) : FaultKind :=
  classifyLoop st.ranges a st.ranges.length 0 st.ranges.length

end GcUtil.Isolate.Registry
