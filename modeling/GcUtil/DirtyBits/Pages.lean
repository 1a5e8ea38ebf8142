import Mathlib
import GcUtil.Block.Runs

/-! The dirty bits of `os_dep.c` in the build with `MPROTECT_VDB` and automatic
incremental mode, for one thread. Memory is seen in hblks and pages by their numbers;
a page is a whole number of hblks. A system call succeeds. -/
namespace GcUtil.DirtyBits.Pages
open Basic Block.Headers Block.Allocator Block.HeaderTable Block.LinkedLists Block.BlockMap List
open Block.JointInvariant Block.UsedBlocks Block.Merging Isolate.Mapping Library.Outcome

structure Config where
  pageHblks : Nat
  pageHblks_pos : 0 < pageHblks
  phtEntries : Nat
  /-- `DONT_PROTECT_PTRFREE`. -/
  dontProtectPtrfree : Bool

namespace Config

variable (cfg : Config)

def pageSize : Nat := cfg.pageHblks * hblkSize

def page (h : Nat) : Nat := h / cfg.pageHblks

def hblkPageAligned (h : Nat) : Nat := Basic.hblkPageAligned cfg.pageHblks h

def pageAlignUp (h : Nat) : Nat := cfg.hblkPageAligned (h + (cfg.pageHblks - 1))

def phtHash (h : Nat) : Nat := h % cfg.phtEntries

def ProtectsSects : Prop := cfg.dontProtectPtrfree = false ∧ cfg.pageSize ≠ hblkSize

instance : Decidable cfg.ProtectsSects := inferInstanceAs (Decidable (_ ∧ _))

end Config

/-- `dirtyPages` and `grungyPages` are the page hash tables. `writeProtected` tells whether
a write to a page faults. `written` has the hblks that the client has written to since the
last `GC_read_dirty`; no function of the source reads it. -/
structure Vdb where
  heap : Heap
  dirtyPages : Nat → Bool
  grungyPages : Nat → Bool
  writeProtected : Nat → Bool
  written : Nat → Bool

def Vdb.init (hdrs : Nat → Hdr) : Vdb :=
  ⟨Heap.init hdrs, fun _ => false, fun _ => false, fun _ => false, fun _ => false⟩

section Model

variable (cfg : Config)

def setDirty (pages : Nat → Bool) (h : Nat) : Nat → Bool := Function.update pages (cfg.phtHash h) true

def dirtyLoop (select : Nat → Bool) (hblks : List Nat) (pages : Nat → Bool) : Nat → Bool :=
  hblks.foldl (fun pages h => if select h then setDirty cfg pages h else pages) pages

def mpProtect (lo hi : Nat) (value : Bool) (prot : Nat → Bool) : Nat → Bool := fun page =>
  if page * cfg.pageHblks < hi ∧ lo < (page + 1) * cfg.pageHblks then value else prot page

/-- `GC_write_fault_handler` for a write to the hblk `h`; a fault outside the heap is an
error. -/
def writeFaultHandler (h : Nat) (v : Vdb) : Option Vdb :=
  match v.heap.index h with
  | .nil => none
  | _ =>
      let first := cfg.hblkPageAligned h
      some { v with
        writeProtected := mpProtect cfg first (first + cfg.pageHblks) false v.writeProtected
        dirtyPages := dirtyLoop cfg (fun _ => true) (List.range' first cfg.pageHblks) v.dirtyPages }

def faults (v : Vdb) (h : Nat) : Bool := v.writeProtected (cfg.page h)

def write (h : Nat) (v : Vdb) : Option Vdb :=
  (if faults cfg v h then writeFaultHandler cfg h v else some v).map fun v =>
    { v with written := Function.update v.written h true }

/-- What `GC_protect_heap` protects for the hblks from `lo` up to `hi`. -/
def protect (lo hi : Nat) (prot : Nat → Bool) : Nat → Bool :=
  if lo < hi then
    if cfg.dontProtectPtrfree then mpProtect cfg (cfg.hblkPageAligned lo) (cfg.pageAlignUp hi) true prot
    else mpProtect cfg lo hi true prot
  else prot

/-- The loop of `GC_protect_heap` over the blocks of a section that ends at `limit`. -/
def protectLoop (s : Heap) (limit : Nat) : Nat → Nat → Nat → (Nat → Bool) → Option (Nat → Bool)
  | 0, _, _, _ => none
  | fuel + 1, currentStart, current, prot =>
      if current * hblkSize < limit then
        match s.index current with
        | .hdr p =>
            let hhdr := s.hdrs p
            let nblocks := if hhdr.isFree then divHblksz hhdr.hbSz else objSzToBlocks hhdr.hbSz
            if hhdr.isFree || hhdr.hbDescr == 0 then
              protectLoop s limit fuel (current + nblocks) (current + nblocks)
                (protect cfg currentStart current prot)
            else protectLoop s limit fuel currentStart (current + nblocks) prot
        | _ => protectLoop s limit fuel (current + 1) (current + 1) prot
      else some (protect cfg currentStart current prot)

def protectSect (fuel : Nat) (s : Heap) (prot : Nat → Bool) (sect : HeapSect) : Option (Nat → Bool) :=
  let start := sect.hsStart / hblkSize
  if cfg.ProtectsSects then
    some (mpProtect cfg start (start + divHblksz sect.hsBytes) true prot)
  else protectLoop cfg s (sect.hsStart + sect.hsBytes) fuel start start prot

def protectHeap (fuel : Nat) (s : Heap) (prot : Nat → Bool) : Option (Nat → Bool) :=
  s.heapSects.foldlM (protectSect cfg fuel s) prot

def readDirty (fuel : Nat) (outputUnneeded : Bool) (v : Vdb) : Option Vdb :=
  (protectHeap cfg fuel v.heap v.writeProtected).map fun prot =>
    { v with
      grungyPages := if outputUnneeded then v.grungyPages else v.dirtyPages
      dirtyPages := fun _ => false
      writeProtected := prot
      written := fun _ => false }

def pageWasDirty (v : Vdb) (h : Nat) : Bool :=
  match v.heap.index h with
  | .nil => true
  | _ => v.grungyPages (cfg.phtHash h)

def removeProtection (h nblocks : Nat) (isPtrfree : Bool) (v : Vdb) : Vdb :=
  let trunc := cfg.hblkPageAligned h
  let stop := cfg.pageAlignUp (h + nblocks)
  if cfg.dontProtectPtrfree && isPtrfree then v
  else
    { v with
      dirtyPages := dirtyLoop cfg (fun current => !isPtrfree || !(decide (h ≤ current ∧ current < h + nblocks)))
        (List.range' trunc (stop - trunc)) v.dirtyPages
      writeProtected := mpProtect cfg trunc stop false v.writeProtected }

/-- The whole pages of an address range as `block_unmap_inner` and `GC_remap` see them. -/
def setPages (range : Nat × Nat) (value : Bool) (prot : Nat → Bool) : Nat → Bool := fun page =>
  if range.1 ≠ 0 ∧ range.1 ≤ page * cfg.pageSize ∧ page * cfg.pageSize < range.2 then value else prot page

/-- What a change of the mapping does to the protection: unmapped pages cannot be written,
remapped ones can. -/
def remapPages (prot : Nat → Bool) : MapCall → Nat → Bool
  | .unmap start bytes =>
      setPages cfg (unmapStart cfg.pageSize start bytes, unmapEnd cfg.pageSize start bytes) true prot
  | .remap start bytes =>
      setPages cfg (unmapStart cfg.pageSize start bytes, unmapEnd cfg.pageSize start bytes) false prot
  | .unmapGap start1 bytes1 start2 bytes2 =>
      setPages cfg (gapRange cfg.pageSize start1 bytes1 start2 bytes2) true prot

def Vdb.onHeap (v : Vdb) (s : Heap) : Vdb :=
  { v with
    heap := s
    writeProtected := (s.mapCalls.drop v.heap.mapCalls.length).foldl (remapPages cfg) v.writeProtected }

end Model

section Blocks

def isPtrfree (s : Heap) (h : Nat) : Bool := (s.hdrAt h).any fun hhdr => hhdr.hbDescr == 0

/-- The hblk `x` is one of a block in use that may contain pointers. -/
def InPointerBlock (s : Heap) (x : Nat) : Prop :=
  ∃ n hhdr, s.hdrAt n = some hhdr ∧ hhdr.isFree = false ∧ hhdr.hbDescr ≠ 0 ∧
    n ≤ x ∧ x < n + objSzToBlocks hhdr.hbSz

variable {s : Heap} {n x : Nat} {L : Nat → List Nat} {cells : Finset Nat} {off : Set Nat}

theorem inPointerBlock_iff : InPointerBlock s x ↔
    ∃ n b, usedAt s n = some b ∧ b.hbDescr ≠ 0 ∧ n ≤ x ∧ x < n + objSzToBlocks b.hbSz := by
  constructor
  · rintro ⟨n,hhdr,hn,hused,hin⟩
    refine ⟨n,unlinked hhdr,?_,hin⟩
    rw [usedAt,hn,Option.bind_some,used,if_neg (by rw [hused]; decide)]
  · rintro ⟨n,b,hn,hin⟩
    obtain ⟨hhdr,hhdr',hused⟩ := Option.bind_eq_some_iff.mp hn
    unfold used at hused
    split at hused
    · cases hused
    · rename_i hfree
      cases hused
      exact ⟨n,hhdr,hhdr',Bool.eq_false_iff.mpr hfree,hin⟩

theorem InPointerBlock.inUse (h : InPointerBlock s x) : InUse s x := by
  obtain ⟨n,b,hb,_,hin⟩ := inPointerBlock_iff.mp h
  exact ⟨n,b,hb,hin⟩

theorem usedAt_unique (h : Blocks s L cells off) {m : Nat} {b c : Hdr} (hb : usedAt s n = some b)
    (hc : usedAt s m = some c) (hn : n ≤ x ∧ x < n + objSzToBlocks b.hbSz)
    (hm : m ≤ x ∧ x < m + objSzToBlocks c.hbSz) : n = m := by
  obtain ⟨b',hb',_,hblocks⟩ := usedAt_eq_some hb
  obtain ⟨c',hc',_,hcblocks⟩ := usedAt_eq_some hc
  rw [← hblocks] at hn
  rw [← hcblocks] at hm
  exact h.layout.tiles.unique (Layout.len_eq hb') (Layout.len_eq hc') hn hm

theorem InUse.mem_cells (h : Blocks s L cells off) (hx : InUse s x) : x ∈ cells := by
  obtain ⟨n,b,hb,hin⟩ := hx
  obtain ⟨c,hc,_,hblocks⟩ := usedAt_eq_some hb
  rw [← hblocks] at hin
  exact (h.layout.tiles.covers x).mpr ⟨n,c.blocks,Layout.len_eq hc,hin⟩

/-- `HDR` finds an entry for every hblk of a block in use. -/
theorem InUse.index_ne_nil (h : Blocks s L cells off) (hx : InUse s x) : s.index x ≠ .nil := by
  obtain ⟨n,b,hb,hle,hlt⟩ := hx
  obtain ⟨c,hc,hfree,hblocks⟩ := usedAt_eq_some hb
  rw [← hblocks] at hlt
  rcases Nat.eq_or_lt_of_le hle with rfl | hlt'
  · obtain ⟨p,hp,_⟩ := blkAt_eq_some.mp hc
    rw [hp]
    simp
  · have hfill := (h.layout.blocks hc).fill (x - n) (by omega) (by omega)
    rw [Nat.add_sub_cancel' hle] at hfill
    rw [hfill,Blk.fill,if_neg (by rw [hfree]; decide)]
    simp

end Blocks

section Bits

variable {cfg : Config} {select : Nat → Bool} {hblks : List Nat} {pages prot : Nat → Bool} {h j lo hi : Nat}
variable {value : Bool}

theorem dirtyLoop_apply : dirtyLoop cfg select hblks pages j =
    (pages j || hblks.any fun h => select h && cfg.phtHash h == j) := by
  unfold dirtyLoop
  induction hblks generalizing pages with
  | nil => simp
  | cons h hblks ih =>
    rw [foldl_cons,ih,any_cons,← Bool.or_assoc]
    congr 1
    by_cases hsel : select h
    · by_cases hj : cfg.phtHash h = j
      · simp [hsel,hj,setDirty]
      · simp [hsel,hj,setDirty,Function.update_of_ne (Ne.symm hj)]
    · simp [hsel]

theorem dirtyLoop_mono (h : pages j = true) : dirtyLoop cfg select hblks pages j = true := by
  rw [dirtyLoop_apply,h,Bool.true_or]

theorem dirtyLoop_of_mem (hmem : h ∈ hblks) (hsel : select h = true) :
    dirtyLoop cfg select hblks pages (cfg.phtHash h) = true := by
  rw [dirtyLoop_apply,Bool.or_eq_true,any_eq_true]
  exact .inr ⟨h,hmem,by simp [hsel]⟩

theorem page_le (cfg : Config) (h : Nat) : cfg.page h * cfg.pageHblks ≤ h := Nat.div_mul_le_self h _

theorem lt_page_succ (cfg : Config) (h : Nat) : h < (cfg.page h + 1) * cfg.pageHblks := by
  rw [Nat.mul_comm]
  exact Nat.lt_mul_div_succ h cfg.pageHblks_pos

theorem mpProtect_of_mem (hlo : lo ≤ h) (hhi : h < hi) :
    mpProtect cfg lo hi value prot (cfg.page h) = value := by
  have := page_le cfg h
  have := lt_page_succ cfg h
  exact if_pos ⟨by omega,by omega⟩

theorem mpProtect_mono (h : prot j = true) : mpProtect cfg lo hi true prot j = true := by
  unfold mpProtect
  split
  · rfl
  · exact h

/-- Pages outside a range that begins and ends on page boundaries stay as they are. -/
theorem mpProtect_of_not_mem {m n : Nat}
    (hout : ¬ (m * cfg.pageHblks ≤ h ∧ h < n * cfg.pageHblks)) :
    mpProtect cfg (m * cfg.pageHblks) (n * cfg.pageHblks) value prot (cfg.page h) = prot (cfg.page h) := by
  apply if_neg
  rintro ⟨hhi,hlo⟩
  apply hout
  have hm : m ≤ cfg.page h := Nat.le_of_lt_succ (Nat.lt_of_mul_lt_mul_right hlo)
  have hn : cfg.page h + 1 ≤ n := Nat.lt_of_mul_lt_mul_right hhi
  exact ⟨(Nat.mul_le_mul_right _ hm).trans (page_le cfg h),
    (lt_page_succ cfg h).trans_le (Nat.mul_le_mul_right _ hn)⟩

theorem hblkPageAligned_le (cfg : Config) (h : Nat) : cfg.hblkPageAligned h ≤ h := Nat.div_mul_le_self h _

theorem lt_hblkPageAligned (cfg : Config) (h : Nat) : h < cfg.hblkPageAligned h + cfg.pageHblks := by
  have := lt_page_succ cfg h
  rw [Nat.add_mul,Nat.one_mul] at this
  exact this

theorem le_pageAlignUp (cfg : Config) (h : Nat) : h ≤ cfg.pageAlignUp h := by
  have := lt_hblkPageAligned cfg (h + (cfg.pageHblks - 1))
  have := cfg.pageHblks_pos
  unfold Config.pageAlignUp
  omega

end Bits

section Remapping

variable {cfg : Config} {s : Heap} {prot : Nat → Bool} {x : Nat} {call : MapCall}

theorem pageSize_pos (cfg : Config) : 0 < cfg.pageSize := Nat.mul_pos cfg.pageHblks_pos (by decide)

theorem page_bytes (cfg : Config) (x : Nat) : cfg.page x * cfg.pageSize ≤ x * hblkSize ∧
    x * hblkSize < cfg.page x * cfg.pageSize + cfg.pageSize := by
  have hle := Nat.mul_le_mul_right hblkSize (page_le cfg x)
  have hlt := Nat.mul_lt_mul_of_pos_right (lt_page_succ cfg x) (by decide : 0 < hblkSize)
  rw [Nat.mul_assoc] at hle hlt
  rw [Nat.add_mul,Nat.one_mul] at hlt
  exact ⟨hle,hlt⟩

theorem setPages_of_outside {range : Nat × Nat} {value : Bool} {start stop k : Nat}
    (hstart : range.1 ≠ 0 → start ≤ range.1) (hend : range.2 = k * cfg.pageSize) (hstop : range.2 ≤ stop)
    (hout : start ≤ x * hblkSize → ¬ x * hblkSize < stop) :
    setPages cfg range value prot (cfg.page x) = prot (cfg.page x) := by
  apply if_neg
  rintro ⟨hne,hlo,hhi⟩
  have hx := page_bytes cfg x
  have hstart := hstart hne
  have hpages := multiples_apart cfg.pageSize (cfg.page x) k
  exact hout (by omega) (by omega)

theorem unmapRange_inside (cfg : Config) (start bytes : Nat) :
    (unmapStart cfg.pageSize start bytes ≠ 0 → start ≤ unmapStart cfg.pageSize start bytes) ∧
      ∃ k, unmapEnd cfg.pageSize start bytes = k * cfg.pageSize ∧
        unmapEnd cfg.pageSize start bytes ≤ start + bytes := by
  obtain ⟨i,hi,hile,_⟩ := alignUp_spec (pageSize_pos cfg) start
  obtain ⟨k,hk,hkle,_⟩ := alignDown_spec (pageSize_pos cfg) (start + bytes)
  refine ⟨fun hne => ?_,k,hk,by unfold unmapEnd; omega⟩
  unfold unmapStart at hne ⊢
  split
  · rename_i hshort
    exact absurd (if_pos hshort) hne
  · omega

theorem gapRange_inside (cfg : Config) {start1 bytes1 start2 : Nat} (hadj : start1 + bytes1 = start2)
    (bytes2 : Nat) :
    ((gapRange cfg.pageSize start1 bytes1 start2 bytes2).1 ≠ 0 →
        start1 ≤ (gapRange cfg.pageSize start1 bytes1 start2 bytes2).1) ∧
      ∃ k, (gapRange cfg.pageSize start1 bytes1 start2 bytes2).2 = k * cfg.pageSize ∧
        (gapRange cfg.pageSize start1 bytes1 start2 bytes2).2 ≤ start2 + bytes2 := by
  obtain ⟨i,hi,hile,_⟩ := alignUp_spec (pageSize_pos cfg) start1
  obtain ⟨j,hj,hjle,hjlt⟩ := alignDown_spec (pageSize_pos cfg) (start1 + bytes1)
  obtain ⟨i',hi',hile',_⟩ := alignUp_spec (pageSize_pos cfg) start2
  obtain ⟨j',hj',hjle',_⟩ := alignDown_spec (pageSize_pos cfg) (start1 + (bytes1 + bytes2))
  have hwhole := (unmapRange_inside cfg start1 (bytes1 + bytes2)).1
  constructor
  · unfold gapRange
    dsimp only
    split
    · exact hwhole
    · rename_i hne
      unfold unmapStart at hne
      unfold unmapEnd
      split at hne <;> omega
  · unfold gapRange
    dsimp only
    split
    · exact ⟨j',hj',by unfold unmapEnd; omega⟩
    · rename_i hne
      unfold unmapStart at hne ⊢
      split at hne
      · omega
      · rename_i hroom
        rw [if_neg hroom]
        exact ⟨i',hi',by omega⟩

theorem remapPages_of_inUse (hcall : Vacant s call) (hx : InUse s x) :
    remapPages cfg prot call (cfg.page x) = prot (cfg.page x) := by
  cases call with
  | unmap start bytes | remap start bytes =>
    obtain ⟨hstart,k,hk,hstop⟩ := unmapRange_inside cfg start bytes
    exact setPages_of_outside hstart hk hstop fun hlo hhi => hcall x hlo hhi hx
  | unmapGap start1 bytes1 start2 bytes2 =>
    obtain ⟨hstart,k,hk,hstop⟩ := gapRange_inside cfg hcall.1 bytes2
    exact setPages_of_outside hstart hk hstop fun hlo hhi => hcall.2 x hlo hhi hx

theorem onHeap_of_inUse {v : Vdb} {s' : Heap} (hremaps : Remaps v.heap s') (hx : InUse v.heap x) :
    (v.onHeap cfg s').writeProtected (cfg.page x) = v.writeProtected (cfg.page x) := by
  obtain ⟨calls,hcalls,hvacant⟩ := hremaps
  unfold Vdb.onHeap
  rw [hcalls,drop_left]
  dsimp only
  clear hcalls
  generalize v.writeProtected = prot
  induction calls generalizing prot with
  | nil => rfl
  | cons call calls ih =>
    rw [forall_mem_cons] at hvacant
    rw [foldl_cons,ih hvacant.2,remapPages_of_inUse hvacant.1 hx]

end Remapping

section Protecting

variable {cfg : Config} {s : Heap} {prot : Nat → Bool} {n e currentStart current fuel : Nat}
variable {L : Nat → List Nat} {cells : Finset Nat}

/-- The walk over a section from `a` to `e` has come to `current`: the blocks behind it
that may contain pointers are protected, but for the hblks from `currentStart` on. -/
structure Walked (cfg : Config) (s : Heap) (a e currentStart current : Nat) (prot : Nat → Bool) : Prop where
  le : currentStart ≤ current
  boundary : currentStart = current ∨ (current < e → ∃ b, blkAt s current = some b)
  ends : ∀ n b, usedAt s n = some b → b.hbDescr ≠ 0 → a ≤ n → n < current →
    n + objSzToBlocks b.hbSz ≤ current
  done : ∀ n b, usedAt s n = some b → b.hbDescr ≠ 0 → a ≤ n → n < current →
    ∀ x, n ≤ x → x < n + objSzToBlocks b.hbSz → prot (cfg.page x) = true ∨ currentStart ≤ x

theorem walked_start (a : Nat) : Walked cfg s a e a a prot where
  le := le_refl a
  boundary := .inl rfl
  ends n b _ _ hle hlt := by omega
  done n b _ _ hle hlt := by omega

/-- The first hblk of the section belongs to a block of the section before. -/
theorem Walked.skip {a : Nat} (h : Walked cfg s a e currentStart current prot) (hlt : current < e)
    (hnone : blkAt s current = none) : Walked cfg s a e (current + 1) (current + 1) prot := by
  have hstart : currentStart = current := by
    rcases h.boundary with heq | hblk
    · exact heq
    · obtain ⟨b,hb⟩ := hblk hlt
      rw [hnone] at hb
      cases hb
  have hold : ∀ {n b}, usedAt s n = some b → n < current + 1 → n < current := by
    intro n b hb hn
    obtain ⟨c,hc,_⟩ := usedAt_eq_some hb
    refine lt_of_le_of_ne (by omega) ?_
    rintro rfl
    rw [hnone] at hc
    cases hc
  refine ⟨le_refl _,.inl rfl,fun n b hb hdescr hle hn => ?_,fun n b hb hdescr hle hn x hx hxn => ?_⟩
  · have := h.ends n b hb hdescr hle (hold hb hn)
    omega
  · have := h.ends n b hb hdescr hle (hold hb hn)
    exact .inl ((h.done n b hb hdescr hle (hold hb hn) x hx hxn).resolve_right (by omega))

theorem protect_mono {lo hi page : Nat} (h : prot page = true) : protect cfg lo hi prot page = true := by
  unfold Pages.protect
  split
  · split <;> exact mpProtect_mono h
  · exact h

theorem protect_of_mem {lo hi x : Nat} (hlo : lo ≤ x) (hhi : x < hi) : protect cfg lo hi prot (cfg.page x) = true := by
  unfold Pages.protect
  rw [if_pos (by omega)]
  split
  · exact mpProtect_of_mem ((hblkPageAligned_le cfg lo).trans hlo) (hhi.trans_le (le_pageAlignUp cfg hi))
  · exact mpProtect_of_mem hlo hhi

theorem Walked.protect {a : Nat} (h : Walked cfg s a e currentStart current prot) :
    Walked cfg s a e current current (protect cfg currentStart current prot) := by
  refine { h with le := le_refl _, boundary := .inl rfl, done := ?_ }
  intro n b hb hdescr hle hn x hx hxn
  left
  have hend := h.ends n b hb hdescr hle hn
  rcases h.done n b hb hdescr hle hn x hx hxn with hprot | hfrom
  · exact protect_mono hprot
  · exact protect_of_mem hfrom (by omega)

section

variable {a : Nat} {c : Blk} (hblocks : Blocks s L cells ∅) (hsect : ∀ x, a ≤ x → x < e → x ∈ cells)
  (ha : a ≤ current)
include hblocks hsect ha

/-- The block at `current` joins those that are to be protected, if it must be. -/
theorem Walked.extend (h : Walked cfg s a e currentStart current prot) (hc : blkAt s current = some c) :
    Walked cfg s a e currentStart (current + c.blocks) prot := by
  have hcases : ∀ {n b}, usedAt s n = some b → n < current + c.blocks →
      n < current ∨ n = current ∧ objSzToBlocks b.hbSz = c.blocks := by
    intro n b hb hn
    obtain ⟨d,hd,_,hlen⟩ := usedAt_eq_some hb
    rcases Nat.lt_trichotomy n current with hlt | rfl | hgt
    · exact .inl hlt
    · rw [hc] at hd
      cases hd
      exact .inr ⟨rfl,hlen.symm⟩
    · have hnone := hblocks.layout.interior_none hc (i := n - current) (by omega) (by omega)
      rw [Nat.add_sub_cancel' (by omega),hd] at hnone
      cases hnone
  have hle := h.le
  refine ⟨by omega,.inr fun hlt => ?_,fun n b hb hdescr han hn => ?_,
    fun n b hb hdescr han hn x hx hxn => ?_⟩
  · obtain ⟨l,hl⟩ := hblocks.layout.tiles.behind (Layout.len_eq hc) (hsect _ (by omega) hlt)
    obtain ⟨d,hd,_⟩ := Option.map_eq_some_iff.mp hl
    exact ⟨d,hd⟩
  · rcases hcases hb hn with hold | ⟨rfl,hlen⟩
    · have := h.ends n b hb hdescr han hold
      omega
    · omega
  · rcases hcases hb hn with hold | ⟨rfl,_⟩
    · exact h.done n b hb hdescr han hold x hx hxn
    · exact .inr (by omega)

theorem Walked.pass (h : Walked cfg s a e current current prot) (hc : blkAt s current = some c)
    (hfree : ∀ b, usedAt s current = some b → b.hbDescr = 0) :
    Walked cfg s a e (current + c.blocks) (current + c.blocks) prot := by
  have hext := h.extend hblocks hsect ha hc
  refine { hext with le := le_refl _, boundary := .inl rfl, done := ?_ }
  intro n b hb hdescr han hn x hx hxn
  left
  have hne : n ≠ current := by
    rintro rfl
    exact hdescr (hfree b hb)
  have hlt : n < current := by
    obtain ⟨d,hd,_⟩ := usedAt_eq_some hb
    by_contra hge
    have hnone := hblocks.layout.interior_none hc (i := n - current) (by omega) (by omega)
    rw [Nat.add_sub_cancel' (by omega),hd] at hnone
    cases hnone
  have hend := h.ends n b hb hdescr han hlt
  exact (h.done n b hb hdescr han hlt x hx hxn).resolve_right (by omega)

end

def Protected (cfg : Config) (s : Heap) (a e : Nat) (prot : Nat → Bool) : Prop :=
  ∀ n b, usedAt s n = some b → b.hbDescr ≠ 0 → a ≤ n → n < e →
    ∀ x, n ≤ x → x < n + objSzToBlocks b.hbSz → prot (cfg.page x) = true

theorem Walked.protected {a : Nat} (h : Walked cfg s a e current current prot) (he : e ≤ current) :
    Protected cfg s a e prot := by
  intro n b hb hdescr han hn x hx hxn
  have hend := h.ends n b hb hdescr han (by omega)
  exact (h.done n b hb hdescr han (by omega) x hx hxn).resolve_right (by omega)

theorem protectLoop_spec {a : Nat} (hblocks : Blocks s L cells ∅)
    (hsect : ∀ x, a ≤ x → x < e → x ∈ cells) (ha : a ≤ current)
    (h : Walked cfg s a e currentStart current prot) :
    Returns (e - current < fuel) (protectLoop cfg s (e * hblkSize) fuel currentStart current prot)
      fun prot' => Protected cfg s a e prot' ∧ ∀ page, prot page = true → prot' page = true := by
  induction fuel generalizing currentStart current prot with
  | zero => simp [protectLoop]
  | succ fuel ih =>
    rw [protectLoop]
    dsimp only
    split
    · rename_i hin
      have hlt : current < e := Nat.lt_of_mul_lt_mul_right hin
      split
      · rename_i p hp
        have hc := blkAt_of_index hp
        have hpos := (hblocks.layout.blocks hc).blocks_pos
        have hlen : (if (s.hdrs p).isFree then divHblksz (s.hdrs p).hbSz
            else objSzToBlocks (s.hdrs p).hbSz) = (blk (s.hdrs p)).blocks := by
          split
          · rename_i hfree
            exact divHblksz_eq_blocks ((hblocks.layout.blocks hc).whole hfree)
          · rfl
        rw [hlen]
        split
        · rename_i hptrfree
          refine (ih (by omega) (h.protect.pass hblocks hsect ha hc fun b hb => ?_)).mono
            (fun henough => by omega) fun prot' hprot' => ⟨hprot'.1,fun page hpage => ?_⟩
          · rw [usedAt_of_index hp,used] at hb
            split at hb
            · cases hb
            · rename_i hfree
              cases hb
              rw [Bool.or_eq_true,beq_iff_eq] at hptrfree
              exact hptrfree.resolve_left hfree
          · exact hprot'.2 page (protect_mono hpage)
        · exact (ih (by omega) (h.extend hblocks hsect ha hc)).mono (fun henough => by omega) fun _ => id
      · rename_i hnot
        have hnone : blkAt s current = none := by
          rw [blkAt_eq_none,hdrAt_eq_none]
          exact hnot
        exact (ih (by omega) (h.skip hlt hnone)).mono (fun henough => by omega) fun _ => id
    · rename_i hout
      have hge : e ≤ current := Nat.le_of_mul_le_mul_right (Nat.le_of_not_lt hout) (by decide)
      exact ⟨h.protect.protected hge,fun _ => protect_mono⟩

theorem sect_hblks (h : HeapOk s L cells) {sect : HeapSect} (hsect : sect ∈ s.heapSects) :
    ∃ a l, sect.hsStart = a * hblkSize ∧ sect.hsBytes = l * hblkSize ∧
      ∀ x, sect.Contains (x * hblkSize) ↔ a ≤ x ∧ x < a + l := by
  obtain ⟨⟨a,ha⟩,⟨l,hl⟩⟩ := h.aligned sect hsect
  refine ⟨a,l,by rw [ha,Nat.mul_comm],by rw [hl,Nat.mul_comm],fun x => ?_⟩
  unfold HeapSect.Contains
  rw [ha,hl]
  unfold hblkSize
  omega

/-- The hblk by which `GC_protect_heap` finds the hblk `x` of block `n` in a section. -/
def anchor (cfg : Config) (n x : Nat) : Nat := if cfg.ProtectsSects then x else n

theorem protectSect_spec (h : HeapOk s L cells) {sect : HeapSect} (hsect : sect ∈ s.heapSects) :
    Returns (cells.card < fuel) (protectSect cfg fuel s prot sect) fun prot' =>
      (∀ n b, usedAt s n = some b → b.hbDescr ≠ 0 → ∀ x, n ≤ x → x < n + objSzToBlocks b.hbSz →
        sect.Contains (anchor cfg n x * hblkSize) → prot' (cfg.page x) = true) ∧
      ∀ page, prot page = true → prot' page = true := by
  obtain ⟨a,l,ha,hl,hin⟩ := sect_hblks h hsect
  have hcells : ∀ x, a ≤ x → x < a + l → x ∈ cells :=
    fun x hlo hhi => (h.sects x).mpr ⟨sect,hsect,(hin x).mpr ⟨hlo,hhi⟩⟩
  have hcard : l ≤ cells.card := by
    have hsub : Finset.Ico a (a + l) ⊆ cells := fun x hx => hcells x (Finset.mem_Ico.mp hx).1
      (Finset.mem_Ico.mp hx).2
    have := Finset.card_le_card hsub
    rwa [Nat.card_Ico,Nat.add_sub_cancel_left] at this
  have hstart : sect.hsStart / hblkSize = a := by rw [ha,Nat.mul_div_cancel _ (by decide)]
  unfold protectSect
  rw [hstart]
  dsimp only
  split
  · rename_i hpage
    refine ⟨fun n b _ _ x _ _ hx => ?_,fun page hprot => mpProtect_mono hprot⟩
    rw [anchor,if_pos hpage,hin] at hx
    apply mpProtect_of_mem hx.1
    rw [hl,divHblksz,Nat.mul_div_cancel _ (by decide)]
    exact hx.2
  · rename_i hpage
    have hlimit : sect.hsStart + sect.hsBytes = (a + l) * hblkSize := by rw [ha,hl,Nat.add_mul]
    rw [hlimit]
    refine (protectLoop_spec h.blocks hcells (le_refl a) (walked_start a)).mono (fun henough => by omega)
      fun prot' hprot' => ⟨fun n b hb hdescr x hx hxn hn => ?_,hprot'.2⟩
    rw [anchor,if_neg hpage,hin] at hn
    exact hprot'.1 n b hb hdescr hn.1 hn.2 x hx hxn

theorem protectSects_spec (h : HeapOk s L cells) (sects : List HeapSect) (hsects : sects ⊆ s.heapSects) :
    Returns (cells.card < fuel) (sects.foldlM (protectSect cfg fuel s) prot) fun prot' =>
      (∀ sect ∈ sects, ∀ n b, usedAt s n = some b → b.hbDescr ≠ 0 →
        ∀ x, n ≤ x → x < n + objSzToBlocks b.hbSz →
        sect.Contains (anchor cfg n x * hblkSize) → prot' (cfg.page x) = true) ∧
      ∀ page, prot page = true → prot' page = true := by
  induction sects generalizing prot with
  | nil => exact ⟨by simp,fun _ => id⟩
  | cons sect sects ih =>
    rw [cons_subset] at hsects
    refine (protectSect_spec h hsects.1).bind fun prot1 hprot1 => (ih hsects.2).mono id ?_
    intro prot2 hprot2
    refine ⟨?_,fun page hpage => hprot2.2 page (hprot1.2 page hpage)⟩
    rw [forall_mem_cons]
    refine ⟨fun n b hb hdescr x hx hxn hin => ?_,hprot2.1⟩
    exact hprot2.2 _ (hprot1.1 n b hb hdescr x hx hxn hin)

/-- `GC_protect_heap` protects every hblk of a block in use that may contain pointers. -/
theorem protectHeap_spec (h : HeapOk s L cells) :
    Returns (cells.card < fuel) (protectHeap cfg fuel s prot) fun prot' =>
      ∀ x, InPointerBlock s x → prot' (cfg.page x) = true := by
  refine (protectSects_spec h s.heapSects (fun _ => id)).mono id fun prot' hprot' x hx => ?_
  obtain ⟨n,b,hb,hdescr,hle,hlt⟩ := inPointerBlock_iff.mp hx
  have hin : ∀ y, n ≤ y → y ≤ x → y ∈ cells :=
    fun y hy hyx => InUse.mem_cells h.blocks ⟨n,b,hb,hy,by omega⟩
  have hanchor : anchor cfg n x ∈ cells := by
    unfold anchor
    split
    · exact hin x hle (le_refl x)
    · exact hin n (le_refl n) hle
  obtain ⟨sect,hsect,hcontains⟩ := (h.sects _).mp hanchor
  exact hprot'.1 sect hsect n b hb hdescr x hle hlt hcontains

end Protecting

end GcUtil.DirtyBits.Pages
