import GcUtil.Block.Runs

/-! `GC_unmapped_bytes` over whole runs: it is the length of the whole pages in the free
blocks that are flagged, so the differences that the statistics functions of `misc.c`
form do not wrap. -/
namespace GcUtil.Block.UnmappedBytes
open Option Finset
open Basic Headers FreeLists Allocator HeaderTable LinkedLists BlockMap JointInvariant Unmapping Merging Runs
open Library.Outcome

variable {s : Heap} {n pageSize : Nat} {L : Nat → List Nat} {cells : Finset Nat}

def getHeapSize (s : Heap) (unmapped : Nat) : Nat := wordSub s.heapsize unmapped

def getFreeBytes (s : Heap) (unmapped : Nat) : Nat := wordSub s.largeFreeBytes unmapped

def IsUnmapped (s : Heap) (n : Nat) : Prop := (s.hdrAt n).any fun b => b.isFree && !b.isMapped

theorem wordSub_add {a b : Nat} (hle : b ≤ a) (ha : a ≤ wordMax) : wordSub a b + b = a := by
  rw [wordSub_of_le hle ha]
  omega

theorem unmappedAt_eq_some (h : Accounts s cells) {size : Nat} :
    unmappedAt s n = some size ↔ IsUnmapped s n ∧ szAt s n = size := by
  unfold IsUnmapped szAt
  cases hb : s.hdrAt n with
  | none => simp [unmappedAt_of_none hb]
  | some b =>
    obtain ⟨p,hp,rfl⟩ := hdrAt_eq_some.mp hb
    rw [unmappedAt_of_index hp]
    have hmapped := h.isMapped hp
    cases hfree : (s.hdrs p).isFree with
    | false => simp [hmapped hfree,hfree]
    | true => cases hm : (s.hdrs p).isMapped <;> simp [hm,hfree]

@[irreducible]
def listed (L : Nat → List Nat) : Finset Nat :=
  (Finset.range (nHblkFls + 1)).biUnion fun i => (L i).toFinset

section

variable (h : HeapOk s L cells)
include h

theorem mem_listed :
    n ∈ listed L ↔ ∃ b, blkAt s n = some b ∧ b.free = true := by
  unfold listed
  rw [mem_biUnion]
  constructor
  · rintro ⟨i,_,hmem⟩
    obtain ⟨p,b,_,hb,hfree,_⟩ := h.blocks.of_mem_list (List.mem_toFinset.mp hmem) (by simp)
    exact ⟨b,hb,hfree⟩
  · rintro ⟨b,hb,hfree⟩
    have hmem := h.blocks.mem_list hb (by simp) hfree
    refine ⟨_,mem_range_succ_iff.mpr ?_,List.mem_toFinset.mpr hmem⟩
    exact hblkFlFromBlocks_le _

theorem sum_listed : ∑ n ∈ listed L, szAt s n = s.largeFreeBytes := by
  have hdisjoint : Set.PairwiseDisjoint (↑(Finset.range (nHblkFls + 1))) fun i => (L i).toFinset := by
    intro i _ j _ hij
    apply disjoint_left.mpr
    intro n hi hj
    exact hij (h.blocks.lists.disjoint (List.mem_toFinset.mp hi) (List.mem_toFinset.mp hj))
  unfold listed
  rw [sum_biUnion hdisjoint,h.large,total]
  apply sum_congr rfl
  intro i _
  rw [h.blocks.lists.bytes,List.sum_toFinset _ (h.blocks.lists.linked i).nodup]

theorem isUnmapped_listed (hn : IsUnmapped s n) : n ∈ listed L := by
  obtain ⟨hhdr,hh,hfree⟩ := any_eq_true _ _ |>.mp hn
  simp only [Bool.and_eq_true] at hfree
  exact (mem_listed h).mpr ⟨blk hhdr,by simp [blkAt,hh],hfree.1⟩

theorem sum_heldAt_le_largeFreeBytes (hpage : 0 < pageSize) :
    ∑ n ∈ cells, heldAt pageSize s n ≤ s.largeFreeBytes := by
  have hout : ∀ n ∈ cells, heldAt pageSize s n ≠ 0 → n ∈ listed L := by
    intro n _ hne
    cases hu : unmappedAt s n with
    | none => exact absurd (heldAt_of_none pageSize hu) hne
    | some size => exact isUnmapped_listed h ((unmappedAt_eq_some h.accounts).mp hu).1
  have hle : ∀ n, heldAt pageSize s n ≤ szAt s n := by
    intro n
    cases hu : unmappedAt s n with
    | none =>
      rw [heldAt_of_none pageSize hu]
      exact Nat.zero_le _
    | some size =>
      rw [heldAt,hu,← ((unmappedAt_eq_some h.accounts).mp hu).2]
      exact interior_le hpage _ _
  calc ∑ n ∈ cells, heldAt pageSize s n
      = ∑ n ∈ cells.filter (· ∈ listed L), heldAt pageSize s n := by
        rw [sum_filter_of_ne hout]
    _ ≤ ∑ n ∈ listed L, heldAt pageSize s n := by
        apply sum_le_sum_of_subset
        intro n hn
        exact (mem_filter.mp hn).2
    _ ≤ ∑ n ∈ listed L, szAt s n := sum_le_sum fun n _ => hle n
    _ = s.largeFreeBytes := sum_listed h

theorem largeFreeBytes_le_heapsize : s.largeFreeBytes ≤ s.heapsize := by
  have hsub : listed L ⊆ cells := by
    intro n hn
    obtain ⟨b,hb,_⟩ := (mem_listed h).mp hn
    exact h.blocks.layout.start_mem hb
  rw [← sum_listed h,h.heapsize,← h.blocks.layout.tiles.sum_len,sum_mul]
  calc ∑ n ∈ listed L, szAt s n
      ≤ ∑ n ∈ listed L, (((blkAt s n).map Blk.blocks).getD 0) * hblkSize := by
        apply sum_le_sum
        intro n hn
        obtain ⟨b,hb,hfree⟩ := (mem_listed h).mp hn
        rw [szAt_of_blkAt hb,hb,map_some,getD_some,
          blocks_mul_of_dvd ((h.blocks.layout.blocks hb).whole hfree)]
    _ ≤ _ := sum_le_sum_of_subset hsub

theorem heapsize_le : s.heapsize ≤ wordMax := by
  have hsub : cells ⊆ Finset.range (wordMax / hblkSize) := by
    intro n hn
    rw [mem_range]
    exact (Nat.le_div_iff_mul_le (by decide)).mpr (h.accounts.high n hn)
  have hcard := card_le_card hsub
  rw [card_range] at hcard
  rw [h.heapsize]
  exact (Nat.mul_le_mul_right _ hcard).trans (Nat.div_mul_le_self _ _)

end

structure UnmappedExact (pageSize : Nat) (s : Heap) (bytes : Nat) : Prop where
  counted : unmappedBytes pageSize s.mapCalls = some bytes
  sum : ∃ blocks : Finset Nat, (∀ n, n ∈ blocks ↔ IsUnmapped s n) ∧
    bytes = ∑ n ∈ blocks, interior pageSize (n * hblkSize) (szAt s n)
  le_largeFreeBytes : bytes ≤ s.largeFreeBytes
  freeBytes : getFreeBytes s bytes + bytes = s.largeFreeBytes
  heapSize : getHeapSize s bytes + bytes = s.heapsize

theorem HeapOk.unmappedExact (h : HeapOk s L cells) (hpage : 0 < pageSize) :
    UnmappedExact pageSize s (∑ n ∈ cells, heldAt pageSize s n) := by
  have hfree := sum_heldAt_le_largeFreeBytes h hpage
  have hsize := heapsize_le h
  refine ⟨h.accounts.counted pageSize hpage,?_,hfree,?_,?_⟩
  · refine ⟨cells.filter fun n => (unmappedAt s n).isSome,fun n => ?_,?_⟩
    · rw [mem_filter]
      constructor
      · rintro ⟨_,hn⟩
        obtain ⟨size,hn⟩ := isSome_iff_exists.mp hn
        exact ((unmappedAt_eq_some h.accounts).mp hn).1
      · intro hn
        obtain ⟨hhdr,hh,_⟩ := any_eq_true _ _ |>.mp hn
        refine ⟨h.blocks.layout.start_mem (b := blk hhdr) (by simp [blkAt,hh]),?_⟩
        rw [(unmappedAt_eq_some h.accounts).mpr ⟨hn,rfl⟩]
        rfl
    · rw [sum_filter]
      apply sum_congr rfl
      intro n _
      cases hu : unmappedAt s n with
      | none => simp [heldAt_of_none pageSize hu]
      | some size => simp [heldAt,hu,((unmappedAt_eq_some h.accounts).mp hu).2]
  · exact wordSub_add hfree ((largeFreeBytes_le_heapsize h).trans hsize)
  · exact wordSub_add (hfree.trans (largeFreeBytes_le_heapsize h)) hsize

/-- The counter is exact in every state that a run reaches, and no call of `GC_remap` on
the way has subtracted more than there was. -/
theorem execAll_unmappedExact (hdrs : Nat → Hdr) (fuel : Nat) (ops : List Op)
    (hallowed : AllAllowed fuel ops (Heap.init hdrs)) (pageSize : Nat)
    (hpage : ∃ k, pageSize = 2 ^ k * hblkSize) (s : Heap)
    (hs : execAll fuel ops (Heap.init hdrs) = some s) : ∃ bytes, UnmappedExact pageSize s bytes := by
  obtain ⟨k,rfl⟩ := hpage
  obtain ⟨cells,⟨L,hok⟩,_⟩ :=
    (execAll_spec fuel ops (Heap.init hdrs) ∅ ⟨_,heapOk_init hdrs⟩ hallowed).of_eq hs
  exact ⟨_,HeapOk.unmappedExact hok (Nat.mul_pos (Nat.two_pow_pos k) (by decide))⟩

def unmappingRun : List Op := [
  .addToHeap 17 9,
  .allochblk quietEnv ⟨4096, normal, false, 0⟩ false [] quietEnv,
  .allochblk quietEnv ⟨4096, normal, false, 0⟩ false [] quietEnv,
  .nextGc,
  .unmapOld 1,
  .freehblk 18,
  .nextGc,
  .unmapOld 1,
  .mergeUnmapped,
  .allochblk quietEnv ⟨8192, normal, false, 0⟩ false [] quietEnv]

theorem execAll_unmappedExact_unmappingRun :
    AllAllowed 400 unmappingRun blankHeap ∧
      ∃ s bytes, execAll 400 unmappingRun blankHeap = some s ∧
        UnmappedExact 8192 s bytes := by
  have hallowed : AllAllowed 400 unmappingRun blankHeap := by decide +kernel
  have hsome : (execAll 400 unmappingRun blankHeap).isSome = true := by decide +kernel
  obtain ⟨s,hs⟩ := isSome_iff_exists.mp hsome
  obtain ⟨bytes,hbytes⟩ := execAll_unmappedExact (fun _ => blankHdr) 400 unmappingRun hallowed 8192
    ⟨1,rfl⟩ s hs
  exact ⟨hallowed,s,bytes,hs,hbytes⟩

end GcUtil.Block.UnmappedBytes
