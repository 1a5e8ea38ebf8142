import GcUtil.Library.Outcome
import GcUtil.Block.FreeLists

/-! The heap-block allocator of `allchblk.c` and `GC_add_to_heap`. A loop takes the
number of iterations it may make and gives `none` when that is not enough; `none`
also stands for an abort and for a read through a link that is no header. The calls
of `GC_unmap`, `GC_remap` and `GC_unmap_gap` are recorded; what they do to the memory is
modelled with the isolates. -/
namespace GcUtil.Block.Allocator
open Basic Headers FreeLists Library.Outcome

/-- `struct obj_kind`, as far as a header is set up from it. -/
structure ObjKind where
  okDescriptor : Nat
  okRelocateDescr : Bool
  okDisclaimProc : Bool
  okMarkUnconditionally : Bool

/-- The tables of `blacklst.c`, read by `PHT_HASH`. -/
structure BlackLists where
  phtEntries : Nat
  allInteriorPointers : Bool
  oldNormal : Nat → Bool
  incompleteNormal : Nat → Bool
  oldStack : Nat → Bool
  incompleteStack : Nat → Bool

/-- The variables of other components that an allocation reads. -/
structure AllocEnv where
  kinds : Nat → ObjKind
  blackLists : BlackLists
  blackListSpacing : Nat
  findLeakInner : Bool
  useEntireHeap : Bool
  dontGc : Bool
  incremental : Bool
  shouldCollect : Bool
  requestedHeapsize : Nat
  finalizerBytesFreed : Nat
  largeAllocdBytes : Nat
  maxLargeAllocdBytes : Nat
  /-- The hblks of a page, where `DONT_PROTECT_PTRFREE` keeps pages free of mixed blocks. -/
  unmixedPage : Option Nat := none

/-- The arguments of `GC_allochblk`; its flags are `IGNORE_OFF_PAGE` or 0. -/
structure Request where
  lbAdjusted : Nat
  kind : Nat
  ignoreOffPage : Bool
  alignM1 : Nat

def Request.sizeNeeded (req : Request) : Nat := objSzToBlocks req.lbAdjusted * hblkSize

inductive MaySplit where
  | no
  | yes
  | avoidSplitRemapped
deriving DecidableEq

section BlackListing

def stackWordZero (bl : BlackLists) (w : Nat) : Bool :=
  (List.range 64).all fun k => !bl.oldStack (w * 64 + k) && !bl.incompleteStack (w * 64 + k)

def isBlackListedLoop (bl : BlackLists) (h nblocks : Nat) : Nat → Nat → Option Nat
  | 0, _ => none
  | fuel + 1, i =>
      let index := (h + i) % bl.phtEntries
      if stackWordZero bl (index / 64) then
        if nblocks ≤ i + (64 - index % 64) then none
        else isBlackListedLoop bl h nblocks fuel (i + (64 - index % 64))
      else if bl.oldStack index || bl.incompleteStack index then some (h + i + 1)
      else if nblocks ≤ i + 1 then none
      else isBlackListedLoop bl h nblocks fuel (i + 1)

/-- `GC_is_black_listed`. The loop advances by at least one hblk of the block. -/
def isBlackListed (bl : BlackLists) (h len : Nat) : Option Nat :=
  let index := h % bl.phtEntries
  if !bl.allInteriorPointers && (bl.oldNormal index || bl.incompleteNormal index) then some (h + 1)
  else isBlackListedLoop bl h (divHblksz len) (divHblksz len + 1) 0

end BlackListing

def setupHdr (env : AllocEnv) (gcNoShort block lbAdjusted kind : Nat) (ignoreOffPage : Bool) (b : Hdr) : Hdr :=
  let ok := env.kinds kind
  let large := decide (hblkSize / 2 < lbAdjusted)
  let extra := if env.blackLists.allInteriorPointers && ignoreOffPage && kind == normal &&
    decide (hblkSize ≤ lbAdjusted) then 8 else 0
  let finalMarkBit := if large then hblkSize / 16 else hblkSize / lbAdjusted * lbAdjusted / 16
  { b with
    hbSz := lbAdjusted
    hbObjKind := kind
    hbFlags := {
      ignoreOffPage := ignoreOffPage
      wasUnmapped := false
      freeBlk := false
      hasDisclaim := ok.okDisclaimProc
      markUnconditionally := ok.okMarkUnconditionally
      largeBlock := large }
    hbBlock := block
    hbDescr := (ok.okDescriptor + extra + if ok.okRelocateDescr then lbAdjusted else 0) % 2 ^ 64
    hbMap := if large then 0 else lbAdjusted / 16
    hbMarks := fun i => i == finalMarkBit
    hbNMarks := 0
    hbLastReclaimed := gcNoShort }

/-- `setup_header`; the map entry for the size exists. -/
def setupHeader (env : AllocEnv) (s : Heap) (p block lbAdjusted kind : Nat) (ignoreOffPage : Bool) : Heap :=
  s.updHdr p (setupHdr env s.gcNoShort block lbAdjusted kind ignoreOffPage)

section Unmapping

def setUnmapped (s : Heap) (p : Nat) (unmapped : Bool) : Heap :=
  s.updHdr p fun b => { b with hbFlags := { b.hbFlags with wasUnmapped := unmapped } }

def unmapOldLoop (threshold : Nat) : Nat → Option Nat → Heap → Option Heap
  | _, none, s => some s
  | 0, some _, _ => none
  | fuel + 1, some h, s =>
      match s.index h with
      | .hdr p =>
          let hhdr := s.hdrs p
          let age := (s.gcNo + (2 ^ 16 - hhdr.hbLastReclaimed % 2 ^ 16)) % 2 ^ 16
          let s := if hhdr.isMapped && decide (threshold % 2 ^ 16 ≤ age) then
              setUnmapped (s.call [.unmap (h * hblkSize) hhdr.hbSz]) p true
            else s
          unmapOldLoop threshold fuel hhdr.hbNext s
      | _ => none

def forLists {σ : Type} (f : Nat → σ → Option σ) (s : σ) : Option σ :=
  (List.range (nHblkFls + 1)).foldlM (fun s i => f i s) s

def unmapOld (fuel threshold : Nat) (s : Heap) : Option Heap :=
  forLists (fun i s => unmapOldLoop threshold fuel (s.hblkfreelist i) s) s

/-- The five statements that both merging functions end with. -/
def mergeWithNext (s : Heap) (h p index next q : Nat) : Option Heap := do
  let nextSize := (s.hdrs q).hbSz
  let s ← removeFromFlAt s p index
  let s ← removeFromFl s q
  let s := s.updHdr p fun b => { b with hbSz := b.hbSz + nextSize }
  let s ← removeHeader s next
  addToFl s h p

/-- `GC_unmap` for the block of header `r` at hblk `x`, one of the two neighbours `h` and
`next`, and `GC_unmap_gap` for both. -/
def unmapWithGap (s : Heap) (x r h p next q : Nat) : Heap :=
  s.call [.unmap (x * hblkSize) (s.hdrs r).hbSz,
    .unmapGap (h * hblkSize) (s.hdrs p).hbSz (next * hblkSize) (s.hdrs q).hbSz]

def unmapGap (s : Heap) (h p next q : Nat) : Heap :=
  s.call [.unmapGap (h * hblkSize) (s.hdrs p).hbSz (next * hblkSize) (s.hdrs q).hbSz]

/-- How `GC_merge_unmapped` makes the neighbours `h` and `next` consistent: the smaller
one is changed. -/
def matchSmaller (s : Heap) (h p next q : Nat) : Heap :=
  let hhdr := s.hdrs p
  let nexthdr := s.hdrs q
  if hhdr.isMapped && !nexthdr.isMapped then
    if nexthdr.hbSz < hhdr.hbSz then s.call [.remap (next * hblkSize) nexthdr.hbSz]
    else setUnmapped (unmapWithGap s h p h p next q) p true
  else if nexthdr.isMapped && !hhdr.isMapped then
    if nexthdr.hbSz < hhdr.hbSz then unmapWithGap s next q h p next q
    else
      (setUnmapped (s.call [.remap (h * hblkSize) hhdr.hbSz]) p false).updHdr p fun b =>
        { b with hbLastReclaimed := nexthdr.hbLastReclaimed }
  else if !hhdr.isMapped && !nexthdr.isMapped then unmapGap s h p next q
  else s

/-- A state that contains the heap. -/
class HasHeap (σ : Type) where
  heap : σ → Heap
  put : σ → Heap → σ
  heap_put : ∀ x s, heap (put x s) = s

instance : HasHeap Heap := ⟨id, fun _ s => s, fun _ _ => rfl⟩

@[simp]
theorem heap_self (s : Heap) : HasHeap.heap s = s := rfl

@[simp]
theorem put_self (s t : Heap) : HasHeap.put s t = t := rfl

section Loops

open HasHeap

variable {σ : Type} [HasHeap σ]

/-- The loop of `GC_merge_unmapped`; `fix` makes two neighbours consistent. -/
def mergeUnmappedLoop (fix : σ → Nat → Nat → Nat → Nat → σ) (i : Nat) :
    Nat → Option Nat → Bool → σ → Option (Bool × σ)
  | _, none, merged, x => some (merged, x)
  | 0, some _, _, _ => none
  | fuel + 1, some h, merged, x =>
      match (heap x).index h with
      | .hdr p =>
          let hhdr := (heap x).hdrs p
          let next := h + divHblksz hhdr.hbSz
          match (heap x).index next with
          | .nil => mergeUnmappedLoop fix i fuel hhdr.hbNext merged x
          | .forward _ => none
          | .hdr q =>
              let nexthdr := (heap x).hdrs q
              if !nexthdr.isFree || blocksMergeOverflow hhdr nexthdr then
                mergeUnmappedLoop fix i fuel hhdr.hbNext merged x
              else
                let x := fix x h p next q
                match mergeWithNext (heap x) h p i next q with
                | none => none
                | some s => mergeUnmappedLoop fix i fuel (s.hblkfreelist i) true (put x s)
      | _ => none

def mergeUnmappedWith (fix : σ → Nat → Nat → Nat → Nat → σ) (fuel : Nat) (x : σ) : Option (Bool × σ) :=
  forLists (fun i (merged, x) => mergeUnmappedLoop fix i fuel ((heap x).hblkfreelist i) merged x) (false, x)

end Loops

def mergeUnmapped : Nat → Heap → Option (Bool × Heap) := mergeUnmappedWith matchSmaller

/-- `ALIGN_PAD_SZ` for the alignment `alignM1 + 1`, a power of two. -/
def alignPadSz (h alignM1 : Nat) : Nat :=
  (alignM1 + 1 - h * hblkSize % (alignM1 + 1)) % (alignM1 + 1)

/-- The loop that looks for a chain of free blocks behind `h`: whether it ends at a
free block with `requiredSize` bytes in total. -/
def chainReaches (s : Heap) (hhdr : Hdr) (requiredSize : Nat) : Nat → Nat → Nat → Option Bool
  | 0, _, _ => none
  | fuel + 1, next, totalSize =>
      match s.index next with
      | .nil => some false
      | .forward _ => none
      | .hdr q =>
          let nexthdr := s.hdrs q
          if !nexthdr.isFree then some false
          else if blocksMergeOverflow hhdr nexthdr then some (decide (requiredSize ≤ totalSize))
          else if requiredSize ≤ totalSize + nexthdr.hbSz then some true
          else chainReaches s hhdr requiredSize fuel (next + divHblksz nexthdr.hbSz)
            (totalSize + nexthdr.hbSz)

/-- How `GC_merge_free_blocks_for_alloc` makes the neighbours consistent: both are
unmapped if one of them is. -/
def matchUnmapped (s : Heap) (h p next q : Nat) : Heap :=
  let hhdr := s.hdrs p
  let nexthdr := s.hdrs q
  if hhdr.isMapped && !nexthdr.isMapped then setUnmapped (unmapWithGap s h p h p next q) p true
  else if !hhdr.isMapped && nexthdr.isMapped then unmapWithGap s next q h p next q
  else if !hhdr.isMapped then unmapGap s h p next q
  else s

section Loops

open HasHeap

variable {σ : Type} [HasHeap σ] (fix : σ → Nat → Nat → Nat → Nat → σ)

def mergeChain (h p requiredSize : Nat) : Nat → σ → Option σ
  | 0, _ => none
  | fuel + 1, x =>
      let hhdr := (heap x).hdrs p
      let next := h + divHblksz hhdr.hbSz
      match (heap x).index next with
      | .hdr q =>
          let x := fix x h p next q
          match mergeWithNext (heap x) h p (flOf hhdr.hbSz) next q with
          | none => none
          | some s =>
              if (s.hdrs p).hbSz < requiredSize then mergeChain h p requiredSize fuel (put x s) else some (put x s)
      | _ => none

def mergeForAllocLoop (sizeNeeded alignM1 fuel : Nat) : Nat → Option Nat → σ → Option (Bool × σ)
  | _, none, x => some (false, x)
  | 0, some _, _ => none
  | k + 1, some h, x =>
      match (heap x).index h with
      | .hdr p =>
          let hhdr := (heap x).hdrs p
          let requiredSize := sizeNeeded + alignPadSz h alignM1
          if requiredSize ≤ hhdr.hbSz then mergeForAllocLoop sizeNeeded alignM1 fuel k hhdr.hbNext x
          else
            match chainReaches (heap x) hhdr requiredSize fuel (h + divHblksz hhdr.hbSz) hhdr.hbSz with
            | none => none
            | some false => mergeForAllocLoop sizeNeeded alignM1 fuel k hhdr.hbNext x
            | some true => (mergeChain fix h p requiredSize fuel x).map fun x => (true, x)
      | _ => none

def mergeFreeBlocksWith (fuel sizeNeeded alignM1 : Nat) (x : σ) : Option (Bool × σ) :=
  forLists (fun i (merged, x) =>
    if merged then some (merged, x)
    else mergeForAllocLoop fix sizeNeeded alignM1 fuel fuel ((heap x).hblkfreelist i) x) (false, x)

end Loops

def mergeFreeBlocksForAlloc : Nat → Nat → Nat → Heap → Option (Bool × Heap) := mergeFreeBlocksWith matchUnmapped

end Unmapping

section Splitting

/-- `GC_get_first_part`; header allocation succeeds. -/
def getFirstPart (s : Heap) (h p sizeNeeded index : Nat) : Option Heap := do
  let totalSize := (s.hdrs p).hbSz
  let s ← removeFromFlAt s p index
  if totalSize = sizeNeeded then some s
  else
    let rest := h + divHblksz sizeNeeded
    let (q, s) := installHeader s rest
    let s := s.updHdr q fun b =>
      { b with hbBlock := rest, hbSz := totalSize - sizeNeeded, hbFlags := noFlags }
    addToFl s rest q

def splitBlock (s : Heap) (hbp p lastHbp lastHdr index : Nat) : Option Heap := do
  let hhdr := s.hdrs p
  let hSize := (lastHbp - hbp) * hblkSize
  let s := s.updHdr lastHdr fun b => { b with
    hbPrev := hhdr.hbPrev
    hbNext := hhdr.hbNext
    hbBlock := lastHbp
    hbSz := hhdr.hbSz - hSize
    hbFlags := noFlags }
  let s ← linkNext s index hhdr.hbPrev (some lastHbp)
  let s ← linkPrev s hhdr.hbNext (some lastHbp)
  let s := { s with freeBytes := Function.update s.freeBytes index (s.freeBytes index - hSize) }
  let s := s.updHdr p fun b => { b with hbLastReclaimed := s.gcNoShort, hbSz := hSize }
  let s ← addToFl s hbp p
  some (s.updHdr lastHdr setFree)

end Splitting

section Searching

def nextHblkFitsBetter (env : AllocEnv) (s : Heap) (hhdr : Hdr) (sizeAvail sizeNeeded alignM1 : Nat) :
    Option Bool :=
  match hhdr.hbNext with
  | none => some false
  | some nextHbp => do
      let nexthdr ← s.hdrAt nextHbp
      let nextOfs := alignPadSz nextHbp alignM1
      some (!decide (sizeAvail ≤ nexthdr.hbSz) && !decide (nexthdr.hbSz < sizeNeeded + nextOfs) &&
        (isBlackListed env.blackLists (nextHbp + divHblksz nextOfs) sizeNeeded).isNone)

/-- `find_non_bl_hblk`, from `search_end` on. -/
def findNonBlLoop (bl : BlackLists) (searchEnd effSizeNeeded alignM1 : Nat) :
    Nat → Nat → Option (Option Nat)
  | 0, _ => none
  | fuel + 1, lastHbp =>
      let lastHbp := lastHbp + divHblksz (alignPadSz lastHbp alignM1)
      match isBlackListed bl lastHbp effSizeNeeded with
      | none => some (some lastHbp)
      | some nextHbp =>
          if nextHbp * hblkSize ≤ searchEnd then
            findNonBlLoop bl searchEnd effSizeNeeded alignM1 fuel nextHbp
          else some none

def findNonBlHblk (bl : BlackLists) (fuel lastHbp sizeRemain effSizeNeeded alignM1 : Nat) :
    Option (Option Nat) :=
  let searchEnd := (lastHbp * hblkSize + sizeRemain) / (alignM1 + 1) * (alignM1 + 1)
  findNonBlLoop bl searchEnd effSizeNeeded alignM1 fuel lastHbp

/-- What the search of `GC_allochblk_nth` makes of one block: go on, allocate at the
given hblk, or the whole block is black-listed. -/
inductive Verdict where
  | skip
  | take (lastHbp : Nat)
  | blackListed

/-- `is_hblks_mix_in_page` for a page of `pageHblks` hblks. -/
def isHblksMixInPage (pageHblks : Nat) (s : Heap) (hbp : Nat) (isPtrfree : Bool) : Bool :=
  let occupied := (List.range' (hblkPageAligned pageHblks hbp) pageHblks).findSome? fun h =>
    (findStartingHblk s (h + 1) h).bind fun (_, p) => if (s.hdrs p).isFree then none else some (s.hdrs p)
  occupied.any fun hhdr => (hhdr.hbDescr == 0) != isPtrfree

def judge (env : AllocEnv) (fuel : Nat) (req : Request) (maySplit : MaySplit) (s : Heap) (hbp : Nat)
    (hhdr : Hdr) : Option Verdict :=
  let sizeNeeded := req.sizeNeeded
  let sizeAvail := hhdr.hbSz
  let alignOfs := alignPadSz hbp req.alignM1
  if maySplit = .no ∧ sizeAvail ≠ sizeNeeded then some .skip
  else if sizeAvail < sizeNeeded + alignOfs then some .skip
  else
    match if sizeAvail = sizeNeeded then some false
      else nextHblkFitsBetter env s hhdr sizeAvail sizeNeeded req.alignM1 with
    | none => none
    | some true => some .skip
    | some false =>
        if env.unmixedPage.any fun n => isHblksMixInPage n s hbp (req.kind == ptrfree) then some .skip
        else if isUncollectable req.kind || (req.kind == ptrfree && decide (sizeNeeded ≤ 2 * hblkSize)) then
          some (.take (hbp + divHblksz alignOfs))
        else
          match findNonBlHblk env.blackLists fuel hbp (sizeAvail - sizeNeeded)
              (if req.ignoreOffPage then hblkSize else sizeNeeded) req.alignM1 with
          | none => none
          | some none => some .blackListed
          | some (some lastHbp) =>
              if maySplit = .avoidSplitRemapped ∧ lastHbp ≠ hbp ∧ !hhdr.isMapped then some .skip
              else some (.take lastHbp)

/-- The loop of `drop_hblk_in_chunks` with `n` chunks still to follow this one. -/
def chunkLoop (env : AllocEnv) : Nat → Nat → Nat → Heap → Heap
  | 0, hbp, p, s => setupHeader env s p hbp hblkSize ptrfree false
  | n + 1, hbp, p, s =>
      let s := setupHeader env s p hbp hblkSize ptrfree false
      let (q, s) := installHeader s (hbp + 1)
      chunkLoop env n (hbp + 1) q s

def dropInChunks (chunks : Nat → Nat → Nat → Heap → Heap) (s : Heap) (n hbp p : Nat) : Option Heap := do
  let totalSize := (s.hdrs p).hbSz
  let s := { s with
    largeFreeBytes := s.largeFreeBytes - totalSize
    bytesDropped := s.bytesDropped + totalSize }
  let s ← removeFromFlAt s p n
  some (chunks (divHblksz totalSize - 1) hbp p s)

def dropHblkInChunks (env : AllocEnv) : Heap → Nat → Nat → Nat → Option Heap := dropInChunks (chunkLoop env)

def countDrop (s : Heap) (mayDrop : Prop) [Decidable mayDrop] : Heap :=
  { s with dropBlacklistedCount := if mayDrop then s.dropBlacklistedCount + 1 else s.dropBlacklistedCount }

/-- Where the search goes on after a drop: at the head of the list, or behind `prev`. -/
def resumeAt (s : Heap) (index : Nat) : Option Nat → Option (Option Nat)
  | none => some (s.hblkfreelist index)
  | some prev => (s.hdrAt prev).map (·.hbNext)

/-- The search of `GC_allochblk_nth`: the block found and where to allocate in it. -/
def searchLoop (drop : Heap → Nat → Nat → Nat → Option Heap) (env : AllocEnv) (fuel : Nat) (req : Request)
    (index : Nat) (maySplit : MaySplit) : Nat → Option Nat → Heap → Option (Option (Nat × Nat) × Heap)
  | _, none, s => some (none, s)
  | 0, some _, _ => none
  | k + 1, some hbp, s =>
      match s.index hbp with
      | .hdr p =>
          let hhdr := s.hdrs p
          match judge env fuel req maySplit s hbp hhdr with
          | none => none
          | some .skip => searchLoop drop env fuel req index maySplit k hhdr.hbNext s
          | some (.take lastHbp) => some (some (hbp, lastHbp), s)
          | some .blackListed =>
              let mayDrop := req.sizeNeeded = hblkSize ∧ req.alignM1 = 0 ∧ !env.findLeakInner ∧
                hhdr.isMapped
              let s := countDrop s mayDrop
              if mayDrop ∧ s.dropBlacklistedCount % 4 = 0 then
                (drop s index hbp p).bind fun s => (resumeAt s index hhdr.hbPrev).bind fun next =>
                  searchLoop drop env fuel req index maySplit k next s
              else if env.blackListSpacing < req.sizeNeeded ∧
                  env.blackListSpacing < hhdr.hbSz - req.sizeNeeded then
                some (some (hbp, hbp + divHblksz (alignPadSz hbp req.alignM1)), s)
              else searchLoop drop env fuel req index maySplit k hhdr.hbNext s
      | _ => none

def remapBlock (s : Heap) (h p : Nat) : Heap :=
  if (s.hdrs p).isMapped then s
  else setUnmapped (s.call [.remap (h * hblkSize) (s.hdrs p).hbSz]) p false

/-- Splits `hbp` at `lastHbp` unless they are the same: the header to allocate from. -/
def splitAt (s : Heap) (hbp p lastHbp index : Nat) : Option (Nat × Heap) :=
  if lastHbp = hbp then some (p, s)
  else
    let (lastHdr, s) := installHeader s lastHbp
    (splitBlock (remapBlock s hbp p) hbp p lastHbp lastHdr index).map fun s => (lastHdr, s)

/-- The rest of `GC_allochblk_nth`, for the block and the hblk that were found. -/
def takeBlock (env : AllocEnv) (req : Request) (index hbp lastHbp : Nat) (s : Heap) :
    Option (Nat × Heap) :=
  match s.index hbp with
  | .hdr p => do
      let (p, s) ← splitAt s hbp p lastHbp index
      let s ← getFirstPart (remapBlock s lastHbp p) lastHbp p req.sizeNeeded index
      let s := installCounts s lastHbp req.sizeNeeded
      let s := setupHeader env s p lastHbp req.lbAdjusted req.kind req.ignoreOffPage
      some (lastHbp, { s with largeFreeBytes := s.largeFreeBytes - req.sizeNeeded })
  | _ => none

def allochblkNth (env : AllocEnv) (fuel : Nat) (req : Request) (index : Nat) (maySplit : MaySplit)
    (s : Heap) : Option (Option Nat × Heap) :=
  match searchLoop (dropHblkInChunks env) env fuel req index maySplit fuel (s.hblkfreelist index) s with
  | none => none
  | some (none, s) => some (none, s)
  | some (some (hbp, lastHbp), s) =>
      (takeBlock env req index hbp lastHbp s).map fun r => (some r.1, r.2)

end Searching

section Allocating

/-- `GC_enough_large_bytes_left`, down from list `n`. -/
def enoughLargeBytesLeft (env : AllocEnv) (s : Heap) : Nat → Nat → Nat
  | 0, _ => 0
  | n + 1, bytes =>
      if env.maxLargeAllocdBytes ≤ bytes + s.freeBytes (n + 1) then n + 1
      else enoughLargeBytesLeft env s n (bytes + s.freeBytes (n + 1))

def splitLimit (env : AllocEnv) (s : Heap) (startList : Nat) : Nat × MaySplit :=
  if env.useEntireHeap || env.dontGc || decide (s.heapsize - s.largeFreeBytes < env.requestedHeapsize) ||
      env.incremental || !env.shouldCollect then (nHblkFls, .yes)
  else if s.heapsize / 16 < env.finalizerBytesFreed then (0, .yes)
  else
    let limit := enoughLargeBytesLeft env s nHblkFls env.largeAllocdBytes
    let limit := if startList < uniqueThreshold ∧ limit < uniqueThreshold then uniqueThreshold else limit
    (limit, if 0 < limit then .avoidSplitRemapped else .yes)

def Request.startList (req : Request) : Nat :=
  hblkFlFromBlocks (divHblksz (sizetSatAdd req.lbAdjusted (hblkSize - 1)))

def Request.overflows (req : Request) : Bool :=
  decide (wordMax / 2 ≤ sizetSatAdd
    (divHblksz (sizetSatAdd req.lbAdjusted (hblkSize - 1)) * hblkSize) req.alignM1)

/-- What `GC_allochblk` searches with, in a state that contains the heap:
`GC_allochblk_nth` and `merge_free_blocks_for_alloc`. -/
structure Search (σ : Type) where
  req : Request
  heap : σ → Heap
  nth : AllocEnv → Nat → MaySplit → σ → Option (Option Nat × σ)
  merge : σ → Option (Bool × σ)

namespace Search

variable {σ : Type} (S : Search σ)

def listsLoop (env : AllocEnv) (maySplit : MaySplit) : Nat → Nat → σ → Option (Option Nat × σ)
  | 0, _, s => some (none, s)
  | n + 1, startList, s => orTry (S.nth env startList maySplit s) (listsLoop env maySplit n (startList + 1))

def fromFreeLists (env : AllocEnv) (startList : Nat) (s : σ) : Option (Option Nat × σ) :=
  orTry (S.nth env startList .no s) fun s =>
    let (limit, maySplit) := splitLimit env (S.heap s) startList
    let startList := if startList < uniqueThreshold ∧ S.req.alignM1 = 0 then startList + 1 else startList
    S.listsLoop env maySplit (limit + 1 - startList) startList s

def beforeCollect (env : AllocEnv) (s : σ) : Option (Option Nat × σ) :=
  orTry (S.fromFreeLists env S.req.startList s) fun s =>
    (S.merge s).bind fun (merged, s) =>
      if merged then S.fromFreeLists env S.req.startList s else some (none, s)

/-- `GC_allochblk`. When it collects before growing the heap, `collect` is what
`GC_gcollect_inner` does to the state and the environment after it. -/
def allochblk (env : AllocEnv) (collect : Option ((σ → Option σ) × AllocEnv)) (s : σ) :
    Option (Option Nat × σ) :=
  if S.req.overflows then some (none, s)
  else
    orTry (S.beforeCollect env s) fun s =>
      match collect with
      | none => some (none, s)
      | some (gcollectInner, env) => (gcollectInner s).bind (S.fromFreeLists env S.req.startList)

end Search

def heapSearch (fuel : Nat) (req : Request) : Search Heap :=
  ⟨req, id, fun env => allochblkNth env fuel req, mergeFreeBlocksForAlloc fuel req.sizeNeeded req.alignM1⟩

def allochblkFromFreeLists (env : AllocEnv) (fuel : Nat) (req : Request) :
    Nat → Heap → Option (Option Nat × Heap) :=
  (heapSearch fuel req).fromFreeLists env

def allochblkBeforeCollect (env : AllocEnv) (fuel : Nat) (req : Request) : Heap → Option (Option Nat × Heap) :=
  (heapSearch fuel req).beforeCollect env

def allochblk (env : AllocEnv) (fuel : Nat) (req : Request) :
    Option ((Heap → Option Heap) × AllocEnv) → Heap → Option (Option Nat × Heap) :=
  (heapSearch fuel req).allochblk env

end Allocating

section Freeing

def coalesceNext (s : Heap) (hbp p : Nat) : Option Heap :=
  let next := hbp + divHblksz (s.hdrs p).hbSz
  match s.index next with
  | .nil => some s
  | .forward _ => none
  | .hdr q =>
      let nexthdr := s.hdrs q
      if nexthdr.isFree && nexthdr.isMapped && !blocksMergeOverflow (s.hdrs p) nexthdr then do
        let s ← removeFromFl s q
        let s := s.updHdr p fun b => { b with hbSz := b.hbSz + nexthdr.hbSz }
        removeHeader s next
      else some s

def coalescePrev (s : Heap) (prev : Option Nat) (hbp p : Nat) : Option (Nat × Nat × Heap) :=
  match prev with
  | none => some (hbp, p, s)
  | some prev =>
      match s.index prev with
      | .hdr q =>
          let prevhdr := s.hdrs q
          if prevhdr.isMapped && !blocksMergeOverflow prevhdr (s.hdrs p) then do
            let size := (s.hdrs p).hbSz
            let s ← removeFromFl s q
            let s := s.updHdr q fun b =>
              { b with hbSz := b.hbSz + size, hbLastReclaimed := s.gcNoShort }
            let s ← removeHeader s hbp
            some (prev, q, s)
          else some (hbp, p, s)
      | _ => none

/-- The rest of `GC_freehblk` for a block that has been flagged free. -/
def linkFreed (s : Heap) (hbp p size : Nat) : Option Heap := do
  let prev := freeBlockEndingAt s hbp
  let s ← coalesceNext s hbp p
  let (hbp, p, s) ← coalescePrev s prev hbp p
  addToFl { s with largeFreeBytes := s.largeFreeBytes + size } hbp p

/-- `GC_freehblk`; the two aborts and a block without a header are errors. -/
def freehblk (s : Heap) (hbp : Nat) : Option Heap :=
  let s := s.invalidateHdrCache
  match s.index hbp with
  | .hdr p =>
      let size := hblkSize * objSzToBlocks (s.hdrs p).hbSz
      if sizetSignb ≤ size then none
      else
        let s := removeCounts s hbp size
        let s := s.updHdr p fun b => { b with hbSz := size, hbLastReclaimed := s.gcNoShort }
        if (s.hdrs p).isFree then none else linkFreed (s.updHdr p setFree) hbp p size
  | _ => none

/-- The first loop of `GC_add_to_heap`, on a section of `n` hblks. -/
def skipLow : Nat → Nat → Nat × Nat
  | h, 0 => (h, 0)
  | h, n + 1 => if h * hblkSize ≤ hblkSize then skipLow (h + 1) n else (h, n + 1)

def trimHigh (h : Nat) : Nat → Nat
  | 0 => 0
  | n + 1 => if wordMax - (n + 1) * hblkSize ≤ h * hblkSize then trimHigh h n else n + 1

/-- `GC_add_to_heap` for `n` hblks from `h`, without the growth of the section array. -/
def addToHeap (s : Heap) (h n : Nat) : Option Heap :=
  let (h, n) := skipLow h n
  let n := trimHigh h n
  if n = 0 then some s
  else do
    let sz := n * hblkSize
    let (p, s) := installHeader s h
    let sect : HeapSect := ⟨h * hblkSize, sz⟩
    let s := { s with heapSects := s.heapSects ++ [sect] }
    let s := s.updHdr p fun b => { b with hbBlock := h, hbSz := sz, hbFlags := noFlags }
    let s ← freehblk s h
    some { s with heapsize := s.heapsize + sz }

end Freeing

end GcUtil.Block.Allocator
