import GcUtil.Library.DiscardStack
import GcUtil.Mark.Pointers
import GcUtil.Mark.Ranges

/-! The marker: its stack, the loop that empties it, the routines that refill it from
blocks and roots, and the state machine `GC_mark_some`. The configuration is the 64-bit
one without parallel marking, with or without compressed pointers; addresses of words are
multiples of 8. -/
namespace GcUtil.Mark.Machine
open Basic Pointers Ranges Compressed Library.DiscardStack

/-- The tags of a mark descriptor, `GC_DS_LENGTH` and its companions. -/
inductive Tag where
  | length
  | bitmap
  | proc
  | perObject
deriving DecidableEq, Repr

def dsTag (descr : Nat) : Tag :=
  match descr % 4 with
  | 0 => .length
  | 1 => .bitmap
  | 2 => .proc
  | _ => .perObject

/-- `INITIAL_MARK_STACK_SIZE` and `GC_MARK_STACK_DISCARDS`. -/
def markStackLimits (cfg : Config) : Limits where
  floor := cfg.initialMarkStackSize
  discards := cfg.initialMarkStackSize / 8
  discards_pos := by
    have := cfg.eight_le_initial
    omega
  discards_le := by omega

inductive MarkState where
  | none
  | pushRescuers
  | pushUncollectable
  | rootsPushed
  | partiallyInvalid
  | invalid
deriving DecidableEq, Repr

/-- What marking reads and does not change. A root is a range of addresses; the stacks
are scanned at once, the static roots are pushed. -/
structure World (cfg : Config) where
  table : BlockTable cfg
  mem : Nat → Nat
  staticRoots : List (Nat × Nat)
  stackRoots : List (Nat × Nat)
  dirtyPages : Nat → Bool
  grungyPages : Nat → Bool

structure State (cfg : Config) where
  world : World cfg
  marks : Nat → Bool
  nMarks : Nat → Nat
  markStack : BoundedStack Mse (markStackLimits cfg)
  markStackTooSmall : Bool
  markState : MarkState
  scanPtr : Nat
  objectsAreMarked : Bool

/-- What one call of `GC_mark_some` takes from outside: whether memory for a larger mark
stack is found, and the pointers pushed by `GC_on_mark_stack_empty` if it is set. -/
structure StepInput where
  grows : Bool
  onMsEmpty : Option (List Nat)
deriving DecidableEq, Repr

variable {cfg : Config}

section Pushing

/-- `GC_ms_push_obj_descr`, with `GC_signal_mark_stack_overflow` for a full stack. -/
def msPushObjDescr (obj descr : Nat) (s : State cfg) : State cfg :=
  if s.markStack.full then
    { s with
      markStack := s.markStack.push ⟨obj, descr⟩
      markState := .invalid
      markStackTooSmall := true }
  else { s with markStack := s.markStack.push ⟨obj, descr⟩ }

def msPushObjHdr (obj : Nat) (b : Block) (s : State cfg) : State cfg :=
  if b.descr = 0 then s else msPushObjDescr (b.entryStart obj) b.descr s

/-- `SET_MARK_BIT_EXIT_IF_SET` and `INCR_MARKS`, where the bit was clear. -/
def setMark (obj : Nat) (b : Block) (s : State cfg) : State cfg :=
  { s with
    marks := Function.update s.marks obj true
    nMarks := Function.update s.nMarks b.start (s.nMarks b.start + 1) }

/-- `GC_ms_push_contents_hdr` once the base of the object is known. -/
def msPushContentsHdr (obj : Nat) (b : Block) (s : State cfg) : State cfg :=
  if s.marks obj then s else msPushObjHdr obj b (setMark obj b s)

/-- One candidate pointer: the plausibility test, the lookup and the push. -/
def pushWord (find : Nat → Option (Block × Nat)) (s : State cfg) (q : Nat) : State cfg :=
  if plausibleHeapAddr cfg q then
    match find q with
    | none => s
    | some (b, obj) => msPushContentsHdr obj b s
  else s

def pushWords (find : Nat → Option (Block × Nat)) (s : State cfg) (qs : List Nat) : State cfg :=
  qs.foldl (pushWord find) s

def wordsAt (p n : Nat) : List Nat := (List.range n).map fun i => p + 8 * i

end Pushing

section MarkFrom

def procBytes : Nat := 100

def bitmapSlots (p descr : Nat) : List Nat :=
  ((List.range 62).filter fun i => descr.testBit (63 - i)).map fun i => p + 8 * i

/-- The descriptor a `GC_DS_PER_OBJECT` descriptor leads to, 0 where there is none. -/
def perObjectDescr (cfg : Config) (mem : Nat → Nat) (p descr : Nat) : Nat :=
  if descr < 2 ^ 63 then mem (p + (descr - 3))
  else if mem p = 0 then 0
  else cfg.typeDescr (mem p) descr

def scanSlots (s : State cfg) (slots : List Nat) : State cfg :=
  pushWords (heapTarget s.world.table) s (slots.map s.world.mem)

def World.half (w : World cfg) (a : Nat) : BitVec 32 :=
  BitVec.ofNat 32 (w.mem (a / 8 * 8) / 2 ^ (8 * (a % 8)))

def formatted (cfg : Config) (p : Nat) : Bool := cfg.compressed && decide (p % 4 ≠ 0)

structure FormattedTurn where
  ptrs : List Nat
  rest : Option Mse
  bytes : Nat

def formattedTurn (w : World cfg) (e : Mse) : FormattedTurn :=
  if e.mseStart.testBit 1 then
    let turn := compressedTurn (wordBuild true) (fun a => w.half a ≠ 0 && !(w.half a).getLsbD 0)
      e.mseStart e.mseDescr
    let upper := (e.mseStart - 2) / 2 ^ 32 * 2 ^ 32
    ⟨turn.pushed.map fun a => upper ||| (w.half a).toNat, turn.rest.head?, turn.bytes⟩
  else if e.mseDescr = 0 then ⟨[], none, 0⟩
  else
    let bitmap := cfg.bitmapDescr e.mseDescr
    ⟨(compressedScan w.half (e.mseStart - 1) bitmap).map Prod.snd, none, min bitmap.objectSize hblkSize⟩

/-- The stack a turn goes on with: `mark_stack_top--`, or the entry it writes there. -/
def afterTurn (s : State cfg) : Option Mse → State cfg
  | none => { s with markStack := s.markStack.pop }
  | some part => { s with markStack := s.markStack.replaceTop part }

/-- The turn of `GC_mark_from` on an entry with a format. -/
def markFormatted (s : State cfg) (e : Mse) : State cfg × Nat :=
  let turn := formattedTurn s.world e
  (pushWords (heapTarget s.world.table) (afterTurn s turn.rest) turn.ptrs, turn.bytes)

/-- The turn of `GC_mark_from` on an entry without one. `goto retry` leaves the new descriptor
on the stack for the next turn. -/
def markDescribed (s : State cfg) (e : Mse) : State cfg × Nat :=
  let p := e.mseStart
  let descr := e.mseDescr
  let popped : State cfg := { s with markStack := s.markStack.pop }
  match dsTag descr with
  | .length =>
      let turn := lengthTurn (wordBuild false) (fun a => plausibleHeapAddr cfg (s.world.mem a)) 0 p descr
      match turn.rest with
      | [] => (scanSlots popped turn.pushed, turn.bytes)
      | part :: _ => (scanSlots { s with markStack := s.markStack.replaceTop part } turn.pushed, turn.bytes)
  | .bitmap => (scanSlots popped (bitmapSlots p descr), 8 * 32)
  | .proc =>
      (pushWords (clientTarget s.world.table) popped
        (cfg.markProc descr ((wordsAt p (cfg.procWords descr)).map s.world.mem)), procBytes)
  | .perObject =>
      let descr' := perObjectDescr cfg s.world.mem p descr
      if descr' = 0 then (popped, 0)
      else ({ s with markStack := s.markStack.replaceTop ⟨p, descr'⟩ }, 0)

/-- One turn of the loop of `GC_mark_from`, on the top entry: the new state and what is
taken off the credit. -/
def markEntry (s : State cfg) (e : Mse) : State cfg × Nat :=
  if formatted cfg e.mseStart then markFormatted s e else markDescribed s e

/-- The loop of `GC_mark_from`; `none` is a loop that does not end within `fuel` turns. -/
def markLoop : Nat → Int → State cfg → Option (State cfg)
  | 0, _, _ => none
  | fuel + 1, credit, s =>
      match s.markStack.entries with
      | [] => some s
      | e :: _ =>
          if credit < 0 then some s
          else markLoop fuel (credit - (markEntry s e).2) (markEntry s e).1

def markFromFuel (size : Nat) : Nat := (hblkSize + 2) * (2 * size + 2)

/-- `MARK_FROM_MARK_STACK`, that is `GC_mark_from` on the whole stack. -/
def markFrom (s : State cfg) : Option (State cfg) :=
  markLoop (markFromFuel s.markStack.size) hblkSize { s with objectsAreMarked := true }

end MarkFrom

section Blocks

/-- `GC_push_marked1` and its companions for objects of `n` granules: the mark bits are
read a word at a time, and both words of every granule of a marked object are pushed. -/
def pushMarkedGranules (n : Nat) (b : Block) (s : State cfg) : State cfg :=
  (List.range 4).foldl (fun s k =>
    let markWord := s.marks
    (List.range (64 / n)).foldl (fun s j =>
      let q := b.start + granuleBytes * (64 * k + n * j)
      if markWord q then
        pushWords (clientTarget s.world.table) s ((wordsAt q (2 * n)).map s.world.mem)
      else s) s) s

def pushMarked1 : Block → State cfg → State cfg := pushMarkedGranules 1

def pushMarked2 : Block → State cfg → State cfg := pushMarkedGranules 2

def pushMarked4 : Block → State cfg → State cfg := pushMarkedGranules 4

def pushMarked (b : Block) (s : State cfg) : State cfg :=
  if b.descr = 0 then s
  else if s.nMarks b.start = 0 then s
  else
    let s := { s with objectsAreMarked := true }
    match (if b.format ≠ .words ∨ dsTag b.descr = .proc then 0 else b.sz / granuleBytes) with
    | 1 => pushMarked1 b s
    | 2 => pushMarked2 b s
    | 4 => pushMarked4 b s
    | _ => b.objs.foldl (fun s p => if s.marks p then msPushObjHdr p b s else s) s

def pushUnconditionally (b : Block) (s : State cfg) : State cfg :=
  if b.descr = 0 then s
  else
    b.objs.foldl (fun s p => if s.world.mem p % 4 ≠ 0 then msPushObjHdr p b s else s)
      { s with objectsAreMarked := true }

def blockWasDirty (pages : Nat → Bool) (b : Block) : Bool :=
  if maxObjBytes < b.sz then
    (List.range (objSzToBlocks b.sz)).any fun i => pages (divHblksz b.start + i)
  else pages (divHblksz b.start)

def nextBlock (t : BlockTable cfg) (h : Nat) (keep : Block → Bool) : Option Block :=
  t.blocks.find? fun b => decide (h ≤ b.start) && keep b

/-- A block is handed to `push` and the scan pointer moves past it; 0 stands for `NULL`. -/
def pushBlock (push : Block → State cfg → State cfg) (s : State cfg) (next : Option Block) :
    State cfg :=
  match next with
  | none => { s with scanPtr := 0 }
  | some b => { push b s with scanPtr := b.start + b.bytes }

/-- `GC_scan_ptr = GC_push_next_marked(GC_scan_ptr)`. -/
def pushNextMarked (s : State cfg) : State cfg :=
  pushBlock pushMarked s (nextBlock s.world.table s.scanPtr fun _ => true)

/-- `GC_scan_ptr = GC_push_next_marked_dirty(GC_scan_ptr)`. -/
def pushNextMarkedDirty (s : State cfg) : State cfg :=
  pushBlock (fun b => if b.markUnconditionally then pushUnconditionally b else pushMarked b) s
    (nextBlock s.world.table s.scanPtr (blockWasDirty s.world.grungyPages))

/-- `GC_scan_ptr = GC_push_next_marked_uncollectable(GC_scan_ptr)`. -/
def pushNextMarkedUncollectable (s : State cfg) : State cfg :=
  pushBlock (fun b => if b.objKind = uncollectable then pushMarked b else pushUnconditionally b) s
    (nextBlock s.world.table s.scanPtr fun b =>
      decide (b.objKind = uncollectable) || b.markUnconditionally)

end Blocks

section Roots

def pushAll (s : State cfg) (range : Nat × Nat) : State cfg :=
  let bottom := (range.1 + 7) / 8 * 8
  let top := range.2 / 8 * 8
  if top ≤ bottom then s else msPushObjDescr bottom (top - bottom) s

def rangeSlots (range : Nat × Nat) : List Nat :=
  wordsAt ((range.1 + 7) / 8 * 8) ((range.2 / 8 * 8 - (range.1 + 7) / 8 * 8) / 8)

/-- The pointers a word of a stack may hold: the word itself and, where there is a cage, its
two halves. -/
def stackCandidates (cfg : Config) (q : Nat) : List Nat :=
  q :: if cfg.compressed = true ∧ cfg.cageBase ≠ 0 then
    ([q % 2 ^ 32, q / 2 ^ 32 % 2 ^ 32].filter fun half => decide (0x1e < half) && decide (half % 2 = 0)).map
      (cfg.cageBase + ·)
  else []

def pushAllEager (s : State cfg) (range : Nat × Nat) : State cfg :=
  pushWords (stackTarget s.world.table) s
    ((rangeSlots range).flatMap fun a => stackCandidates cfg (s.world.mem a))

/-- `GC_push_roots`, which comes to the same for all roots and for the dirty ones where
static roots have no dirty bits. -/
def pushRoots (s : State cfg) : State cfg :=
  s.world.stackRoots.foldl pushAllEager (s.world.staticRoots.foldl pushAll s)

def pushRootsAndAdvance (s : State cfg) : State cfg :=
  if s.scanPtr ≠ 0 then s
  else
    let s := { pushRoots s with objectsAreMarked := true }
    if s.markState = .invalid then s else { s with markState := .rootsPushed }

end Roots

section MarkSome

def allocMarkStack (grows : Bool) (s : State cfg) : State cfg :=
  { s with
    markStackTooSmall := false
    markStack :=
      if grows then .resized (2 * s.markStack.size) (by have := s.markStack.floor_le; omega)
      else .resized s.markStack.size s.markStack.floor_le }

/-- `alloc_mark_stack`, called if the stack was found too small. -/
def growMarkStack (grows : Bool) (s : State cfg) : State cfg :=
  if s.markStackTooSmall then allocMarkStack grows s else s

def onMarkStackEmpty (ptrs : Option (List Nat)) (s : State cfg) : State cfg :=
  pushWords (clientTarget s.world.table) s (ptrs.getD [])

/-- `GC_mark_some` in the states `MS_INVALID` and `MS_PARTIALLY_INVALID`. -/
def markSomeInvalid (inp : StepInput) (s : State cfg) : Option (Bool × State cfg) :=
  if s.objectsAreMarked = false then some (false, { s with markState := .pushUncollectable })
  else if s.markStack.entries ≠ [] then (markFrom s).map fun s => (false, s)
  else
    let s :=
      if s.scanPtr = 0 ∧ s.markState = .invalid then
        { growMarkStack inp.grows s with markState := .partiallyInvalid }
      else s
    let s := pushNextMarked s
    some (false, if s.markState = .partiallyInvalid then pushRootsAndAdvance s else s)

def markSome (inp : StepInput) (s : State cfg) : Option (Bool × State cfg) :=
  match s.markState with
  | .none => some (true, s)
  | .pushRescuers =>
      if s.markStack.size + 1 ≤ s.markStack.entries.length + cfg.initialMarkStackSize / 2 then
        (markFrom { s with markStackTooSmall := true }).map fun s => (false, s)
      else some (false, pushRootsAndAdvance (pushNextMarkedDirty s))
  | .pushUncollectable =>
      if s.markStack.size / 4 + 1 ≤ s.markStack.entries.length then
        (markFrom s).map fun s => (false, s)
      else some (false, pushRootsAndAdvance (pushNextMarkedUncollectable s))
  | .rootsPushed =>
      if s.markStack.entries ≠ [] then (markFrom s).map fun s => (false, s)
      else
        let s := onMarkStackEmpty inp.onMsEmpty s
        if s.markStack.entries ≠ [] then some (false, s)
        else some (true, { growMarkStack inp.grows s with markState := .none })
  | .invalid => markSomeInvalid inp s
  | .partiallyInvalid => markSomeInvalid inp s

end MarkSome

section Collection

def invalidateMarkState (s : State cfg) : State cfg :=
  { s with markState := .invalid, markStack := .resized s.markStack.size s.markStack.floor_le }

/-- `clear_marks_for_block`; the bit of the partial object at the end of a block is set. -/
def clearMarksForBlock (s : State cfg) (b : Block) : State cfg :=
  if isUncollectable b.objKind then s
  else
    { s with
      marks := fun a => if b.Contains a then decide (a = b.finalMark) else s.marks a
      nMarks := Function.update s.nMarks b.start 0 }

def clearMarks (s : State cfg) : State cfg :=
  { s.world.table.blocks.foldl clearMarksForBlock s with
    objectsAreMarked := false
    markState := .invalid
    scanPtr := 0 }

def readDirty (outputUnneeded : Bool) (w : World cfg) : World cfg :=
  { w with
    grungyPages := if outputUnneeded then w.grungyPages else w.dirtyPages
    dirtyPages := fun _ => false }

def initiateGc (incremental : Bool) (s : State cfg) : State cfg :=
  { s with
    world := if incremental then readDirty (decide (s.markState = .invalid)) s.world else s.world
    markState := if s.markState = .none then .pushRescuers else s.markState
    scanPtr := 0 }

/-- The loop of `GC_stopped_mark`: one input for each time the stop function lets it go on.
The answer is whether marking was completed. -/
def markWhile : List StepInput → State cfg → Option (Bool × State cfg)
  | [], s => some (false, s)
  | inp :: inps, s =>
      match markSome inp s with
      | none => none
      | some (true, s') => some (true, s')
      | some (false, s') => markWhile inps s'

def stoppedMark (incremental : Bool) (inps : List StepInput) (s : State cfg) :
    Option (Bool × State cfg) :=
  markWhile inps (initiateGc incremental s)

/-- The marking of `GC_try_to_collect_inner` outside the incremental mode. -/
def fullMark (inps : List StepInput) (s : State cfg) : Option (Bool × State cfg) :=
  stoppedMark false inps (clearMarks (invalidateMarkState s))

end Collection

end GcUtil.Mark.Machine
