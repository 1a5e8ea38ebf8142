import GcUtil.Basic
import Mathlib.Logic.Function.Basic

/-! `headers.c` and `gc_hdrs.h`: the map from hblks to block headers and the cache
in front of it. Header and bottom-index allocation succeed. Hblk pointers are hblk
numbers with `none` for `NULL`, header pointers are numbers of their own. -/
namespace GcUtil.Block.Headers
open Basic

/-- An entry of a bottom index: nil, a forwarding count, or a header pointer. -/
inductive Entry where
  | nil
  | forward (n : Nat)
  | hdr (p : Nat)
deriving DecidableEq, Repr

structure HbFlags where
  ignoreOffPage : Bool
  wasUnmapped : Bool
  freeBlk : Bool
  hasDisclaim : Bool
  markUnconditionally : Bool
  largeBlock : Bool
deriving DecidableEq, Repr

def noFlags : HbFlags := ⟨false, false, false, false, false, false⟩

/-- `struct hblkhdr`. `hbMap` is the index of the map in `GC_obj_map`. -/
structure Hdr where
  hbNext : Option Nat
  hbPrev : Option Nat
  hbBlock : Nat
  hbObjKind : Nat
  hbFlags : HbFlags
  hbLastReclaimed : Nat
  hbSz : Nat
  hbDescr : Nat
  hbMap : Nat
  hbNMarks : Nat
  hbMarks : Nat → Bool

def blankHdr : Hdr := ⟨none, none, 0, 0, noFlags, 0, 0, 0, 0, 0, fun _ => false⟩

def Hdr.isFree (b : Hdr) : Bool := b.hbFlags.freeBlk

def Hdr.isMapped (b : Hdr) : Bool := !b.hbFlags.wasUnmapped

structure HdrCacheEntry where
  blockAddr : Nat
  hceHdr : Option Nat
deriving DecidableEq, Repr

/-- A call of `os_dep.c` that gives memory back to the system or takes it again. -/
inductive MapCall where
  | unmap (start bytes : Nat)
  | remap (start bytes : Nat)
  | unmapGap (start1 bytes1 start2 bytes2 : Nat)
deriving DecidableEq, Repr

/-- The heap-block level of one collector instance. `hdrFreeList` is the list that
`GC_hdr_free_list` threads through `hb_next`, `hdrScratch` the next header that
`GC_scratch_alloc` gives, `bottomKeys` the keys along `asc_link`, and `mapCalls` the
calls that have changed the mapping, in their order. -/
structure Heap where
  index : Nat → Entry
  bottomKeys : List Nat
  hdrs : Nat → Hdr
  hdrFreeList : List Nat
  hdrScratch : Nat
  hdrCache : Nat → HdrCacheEntry
  hblkfreelist : Nat → Option Nat
  freeBytes : Nat → Nat
  largeFreeBytes : Nat
  heapsize : Nat
  heapSects : List HeapSect
  gcNo : Nat
  dropBlacklistedCount : Nat
  bytesDropped : Nat
  mapCalls : List MapCall

def bottomSz : Nat := 1024

def maxJump : Nat := hblkSize - 1

def hdrCacheSize : Nat := 64

def zeroHdrCache : Nat → HdrCacheEntry := fun _ => ⟨0, none⟩

def Heap.init (hdrs : Nat → Hdr) : Heap where
  index := fun _ => .nil
  bottomKeys := []
  hdrs := hdrs
  hdrFreeList := []
  hdrScratch := 0
  hdrCache := zeroHdrCache
  hblkfreelist := fun _ => none
  freeBytes := fun _ => 0
  largeFreeBytes := 0
  heapsize := 0
  heapSects := []
  gcNo := 0
  dropBlacklistedCount := 0
  bytesDropped := 0
  mapCalls := []

abbrev blankHeap : Heap := Heap.init fun _ => blankHdr

variable (s : Heap)

def Heap.gcNoShort : Nat := s.gcNo % 2 ^ 16

def Heap.invalidateHdrCache : Heap := { s with hdrCache := zeroHdrCache }

def Heap.setEntry (h : Nat) (e : Entry) : Heap :=
  { s with index := Function.update s.index h e }

def Heap.updHdr (p : Nat) (f : Hdr → Hdr) : Heap :=
  { s with hdrs := Function.update s.hdrs p (f (s.hdrs p)) }

def Heap.call (calls : List MapCall) : Heap := { s with mapCalls := s.mapCalls ++ calls }

def Heap.updAt (h : Nat) (f : Hdr → Hdr) : Option Heap :=
  match s.index h with
  | .hdr p => some (s.updHdr p f)
  | _ => none

/-- A read through `HDR(h)` that expects a header. -/
def Heap.hdrAt (h : Nat) : Option Hdr :=
  match s.index h with
  | .hdr p => some (s.hdrs p)
  | _ => none

def getIndex (h : Nat) : Heap :=
  let key := h / bottomSz
  if key ∈ s.bottomKeys then s
  else { s with bottomKeys :=
    s.bottomKeys.takeWhile (· < key) ++ key :: s.bottomKeys.dropWhile (· < key) }

def allocHdr : Nat × Heap :=
  match s.hdrFreeList with
  | [] => (s.hdrScratch, { s with hdrScratch := s.hdrScratch + 1 })
  | p :: rest => (p, { s with hdrFreeList := rest })

def installHeader (h : Nat) : Nat × Heap :=
  let s := getIndex s.invalidateHdrCache h
  let (p, s) := allocHdr s
  (p, (s.setEntry h (.hdr p)).updHdr p fun b => { b with hbLastReclaimed := s.gcNoShort })

/-- The first loop of `GC_install_counts`: bottom indices for the whole block. -/
def indexBlock (stop : Nat) : Nat → Nat → Heap → Heap
  | 0, _, s => s
  | fuel + 1, hbp, s =>
      if hbp * hblkSize < stop then
        let s := getIndex s hbp
        if hbp * hblkSize > wordMax - bottomSz * hblkSize then s
        else indexBlock stop fuel (hbp + bottomSz) s
      else s

/-- The second loop of `GC_install_counts`, over the `n` hblks behind `h`. -/
def forwardLoop (h : Nat) : Nat → Heap → Heap
  | 0, s => s
  | n + 1, s => (forwardLoop h n s).setEntry (h + (n + 1)) (.forward (min (n + 1) maxJump))

def installCounts (h sz : Nat) : Heap :=
  let stop := h * hblkSize + sz
  let s := indexBlock stop (divHblksz sz + 1) h s.invalidateHdrCache
  let s := getIndex s ((stop - 1) / hblkSize)
  forwardLoop h (objSzToBlocks sz - 1) s

/-- `GC_remove_header`, an error unless `h` has a header. -/
def removeHeader (h : Nat) : Option Heap :=
  match s.index h with
  | .hdr p => some (({ s with hdrFreeList := p :: s.hdrFreeList }).invalidateHdrCache.setEntry h .nil)
  | _ => none

/-- The loop of `GC_remove_counts` over the `n` hblks behind `h`. -/
def nilLoop (h : Nat) : Nat → Heap → Heap
  | 0, s => s
  | n + 1, s => (nilLoop h n s).setEntry (h + (n + 1)) .nil

def removeCounts (h sz : Nat) : Heap :=
  let s := s.invalidateHdrCache
  if sz ≤ hblkSize then s
  else if s.index (h + 1) = .nil then s
  else nilLoop h (objSzToBlocks sz - 1) s

/-- `GC_find_starting_hblk`. The count is at most the hblk number, so `h + 1`
iterations are enough. -/
def findStartingHblk (s : Heap) : Nat → Nat → Option (Nat × Nat)
  | 0, _ => none
  | fuel + 1, h =>
      match s.index h with
      | .nil => none
      | .forward n => findStartingHblk s fuel (h - n)
      | .hdr p => some (h, p)

/-- The inner loop of `GC_prev_block` in the bottom index `key`, where `j` is one
more than the source's index. -/
def prevInBottom (s : Heap) (key : Nat) : Nat → Nat → Option Nat
  | 0, _ => none
  | fuel + 1, j =>
      if j = 0 then none
      else
        match s.index (key * bottomSz + (j - 1)) with
        | .nil => prevInBottom s key fuel (j - 1)
        | .forward n => prevInBottom s key fuel (j - n)
        | .hdr p => some (s.hdrs p).hbBlock

/-- `GC_prev_block`, with the bottom indices from `keys` in descending order. -/
def prevBlockLoop (s : Heap) (j : Nat) : List Nat → Option Nat
  | [] => none
  | key :: keys =>
      match prevInBottom s key bottomSz j with
      | some h => some h
      | none => prevBlockLoop s bottomSz keys

def prevBlock (h : Nat) : Option Nat :=
  let hi := h / bottomSz
  let keys := (s.bottomKeys.filter (· ≤ hi)).reverse
  prevBlockLoop s (if hi ∈ s.bottomKeys then h % bottomSz + 1 else bottomSz) keys

def nextInBottom (s : Heap) (allowFree : Bool) (key : Nat) : Nat → Nat → Option Nat
  | 0, _ => none
  | fuel + 1, j =>
      if j < bottomSz then
        match s.index (key * bottomSz + j) with
        | .hdr p =>
            if allowFree || !(s.hdrs p).isFree then some (s.hdrs p).hbBlock
            else nextInBottom s allowFree key fuel (j + divHblksz (s.hdrs p).hbSz)
        | _ => nextInBottom s allowFree key fuel (j + 1)
      else none

/-- `GC_next_block`, with the bottom indices from `keys` in ascending order. -/
def nextBlockLoop (s : Heap) (allowFree : Bool) (j : Nat) : List Nat → Option Nat
  | [] => none
  | key :: keys =>
      match nextInBottom s allowFree key bottomSz j with
      | some h => some h
      | none => nextBlockLoop s allowFree 0 keys

def nextBlock (h : Nat) (allowFree : Bool) : Option Nat :=
  let hi := h / bottomSz
  nextBlockLoop s allowFree (if hi ∈ s.bottomKeys then h % bottomSz else 0)
    (s.bottomKeys.filter (hi ≤ ·))

section Cache

def hce (h : Nat) : HdrCacheEntry := s.hdrCache (h % hdrCacheSize)

/-- `GC_header_cache_miss(p, hce)` for an address with hblk `h` and offset `ofs` in
it. Black-listing the address is left out. -/
def headerCacheMiss (allInteriorPointers : Bool) (s : Heap) (h ofs : Nat) : Option Nat × Heap :=
  match s.index h with
  | .hdr p =>
      if (s.hdrs p).isFree then (none, s)
      else (some p, { s with hdrCache := Function.update s.hdrCache (h % hdrCacheSize) ⟨h, some p⟩ })
  | .nil => (none, s)
  | .forward _ =>
      if allInteriorPointers then
        match findStartingHblk s (h + 1) h with
        | none => (none, s)
        | some (current, p) =>
            let hhdr := s.hdrs p
            if hhdr.hbFlags.ignoreOffPage then (none, s)
            else if hhdr.isFree || decide (hhdr.hbSz ≤ (h - current) * hblkSize + ofs) then (none, s)
            else (some p, s)
      else (none, s)

/-- `HC_GET_HDR`: whether the cache was hit, the header found and the new state. -/
def hcGetHdr (allInteriorPointers : Bool) (s : Heap) (h ofs : Nat) : Bool × Option Nat × Heap :=
  if (hce s h).blockAddr = h then (true, (hce s h).hceHdr, s)
  else (false, headerCacheMiss allInteriorPointers s h ofs)

end Cache

end GcUtil.Block.Headers
