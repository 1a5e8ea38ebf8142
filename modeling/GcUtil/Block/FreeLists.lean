import GcUtil.Block.Headers

/-! The free lists of `allchblk.c`: doubly linked through the block headers, one for
each size up to 32 hblks, one for eight sizes above that, one for the rest. -/
namespace GcUtil.Block.FreeLists
open Basic Headers

def uniqueThreshold : Nat := 32
def hugeThreshold : Nat := 256
def flCompression : Nat := 8

def nHblkFls : Nat := (hugeThreshold - uniqueThreshold) / flCompression + uniqueThreshold

def hblkFlFromBlocks (blocksNeeded : Nat) : Nat :=
  if blocksNeeded ≤ uniqueThreshold then blocksNeeded
  else if hugeThreshold ≤ blocksNeeded then nHblkFls
  else (blocksNeeded - uniqueThreshold) / flCompression + uniqueThreshold

theorem hblkFlFromBlocks_le (n : Nat) : hblkFlFromBlocks n ≤ nHblkFls := by
  unfold hblkFlFromBlocks nHblkFls uniqueThreshold hugeThreshold flCompression
  split
  · omega
  · split <;> omega

def flOf (sz : Nat) : Nat := hblkFlFromBlocks (divHblksz sz)

theorem flOf_mono {a b : Nat} (h : a ≤ b) : flOf a ≤ flOf b := by
  have hdiv : divHblksz a ≤ divHblksz b := Nat.div_le_div_right h
  unfold flOf hblkFlFromBlocks nHblkFls uniqueThreshold hugeThreshold flCompression
  split_ifs <;> omega

/-- Makes `target` the successor of `prev`, or the head of list `index` for `NULL`. -/
def linkNext (s : Heap) (index : Nat) (prev target : Option Nat) : Option Heap :=
  match prev with
  | none => some { s with hblkfreelist := Function.update s.hblkfreelist index target }
  | some prev => s.updAt prev fun b => { b with hbNext := target }

/-- Makes `target` the predecessor of `next` unless that is `NULL`. -/
def linkPrev (s : Heap) (next target : Option Nat) : Option Heap :=
  match next with
  | none => some s
  | some next => s.updAt next fun b => { b with hbPrev := target }

/-- `GC_remove_from_fl_at`; the links must lead to headers. -/
def removeFromFlAt (s : Heap) (p index : Nat) : Option Heap := do
  let hhdr := s.hdrs p
  let s ← linkNext s index hhdr.hbPrev hhdr.hbNext
  let s := { s with freeBytes := Function.update s.freeBytes index (s.freeBytes index - hhdr.hbSz) }
  linkPrev s hhdr.hbNext hhdr.hbPrev

def removeFromFl (s : Heap) (p : Nat) : Option Heap :=
  removeFromFlAt s p (flOf (s.hdrs p).hbSz)

def setFree (b : Hdr) : Hdr := { b with hbFlags := { b.hbFlags with freeBlk := true } }

def addToFl (s : Heap) (h p : Nat) : Option Heap := do
  let index := flOf (s.hdrs p).hbSz
  let second := s.hblkfreelist index
  let s := { s with
    hblkfreelist := Function.update s.hblkfreelist index (some h)
    freeBytes := Function.update s.freeBytes index (s.freeBytes index + (s.hdrs p).hbSz) }
  let s := s.updHdr p fun b => { b with hbNext := second, hbPrev := none }
  let s ← linkPrev s second (some h)
  some (s.updHdr p setFree)

def getBlockEndingAt (s : Heap) (h : Nat) : Option Nat :=
  match s.index (h - 1) with
  | .nil => do
      let p ← prevBlock s (h - 1)
      let hhdr ← s.hdrAt p
      if p * hblkSize + hhdr.hbSz = h * hblkSize then some p else none
  | _ => (findStartingHblk s h (h - 1)).map Prod.fst

def freeBlockEndingAt (s : Heap) (h : Nat) : Option Nat := do
  let p ← getBlockEndingAt s h
  let hhdr ← s.hdrAt p
  if hhdr.isFree then some p else none

def blocksMergeOverflow (hhdr nexthdr : Hdr) : Bool :=
  decide (sizetSignb ≤ hhdr.hbSz + nexthdr.hbSz)

end GcUtil.Block.FreeLists
