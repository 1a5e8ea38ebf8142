import GcUtil.Block.Runs

/-! What the block allocator promises: where `GC_allochblk` puts a block, and what the two
functions that merge free blocks leave behind. -/
namespace GcUtil.Block.Contracts
open Option
open Basic Headers FreeLists Allocator LinkedLists BlockMap JointInvariant UsedBlocks Merging ChainMerging
open Searching Runs Library.Outcome

variable {s s' t : Heap} {n e h x fuel : Nat} {cells : Finset Nat} {env : AllocEnv} {req : Request}

theorem heapInvariant_of_ok (hs : Ok cells s) : HeapInvariant s := by
  obtain ⟨L,hok⟩ := hs
  exact HeapOk.heapInvariant hok

/-- A run from an empty heap ends in a state that is in order, with fuel for one more
operation. -/
theorem execAll_reaches (hdrs : Nat → Hdr) (fuel : Nat) (ops : List Op)
    (hallowed : AllAllowed fuel ops (Heap.init hdrs)) (hfuel : (addedAll ops + 1) ^ 2 ≤ fuel) :
    ∃ s cells, execAll fuel ops (Heap.init hdrs) = some s ∧ Ok cells s ∧ Enough cells fuel := by
  have hrun := execAll_spec fuel ops (Heap.init hdrs) ∅ ⟨_,heapOk_init hdrs⟩ hallowed
  rw [Finset.card_empty,Nat.zero_add] at hrun
  have hsuffices : Suffices (addedAll ops) fuel := by rwa [Suffices,← Nat.pow_two]
  obtain ⟨s,hs,cells,hok,hcard⟩ := hrun.some_of hsuffices
  exact ⟨s,cells,hs,hok,hsuffices.enough (by simpa using hcard)⟩

section Placing

def FreeAt (s : Heap) (x : Nat) : Prop :=
  ∃ m b, blkAt s m = some b ∧ b.free = true ∧ m ≤ x ∧ x < m + b.blocks

/-- The block at `h` in `s'` has been allocated for the request from the free blocks of `s`. -/
structure Placed (env : AllocEnv) (req : Request) (s : Heap) (h : Nat) (s' : Heap) : Prop where
  aligned : req.alignM1 + 1 ∣ h * hblkSize
  block : ∃ hhdr, s'.hdrAt h = some hhdr ∧ hhdr.isFree = false ∧ hhdr.isMapped = true ∧
    hhdr.hbSz = req.lbAdjusted ∧ blockBytes hhdr = req.sizeNeeded
  vacant : ∀ x, h ≤ x → x < h + objSzToBlocks req.lbAdjusted → ¬ InUse s x
  carved : ∃ n e, FreeTiled s n e ∧ n ≤ h ∧ h + objSzToBlocks req.lbAdjusted ≤ e ∧
    ∀ x, n ≤ x → x < e → x < h ∨ h + objSzToBlocks req.lbAdjusted ≤ x → FreeAt s' x
  others : ∀ x, x ≠ h → usedAt s' x ≠ usedAt s x → usedAt s x = none ∧ DroppedAt env req s s' x

theorem freeAt_of_not_inUse (hok : Ok cells s) (hx : x ∈ cells) (hno : ¬ InUse s x) : FreeAt s x := by
  obtain ⟨L,hok⟩ := hok
  obtain ⟨m,len,hlen,hin⟩ := (hok.blocks.layout.tiles.covers x).mp hx
  obtain ⟨b,hb,rfl⟩ := map_eq_some_iff.mp hlen
  refine ⟨m,b,hb,?_,hin⟩
  by_contra hused
  obtain ⟨hhdr,hhdr',rfl⟩ := map_eq_some_iff.mp hb
  apply hno
  refine ⟨m,unlinked hhdr,?_,hin⟩
  exact (congrArg (·.bind used) hhdr').trans (if_neg hused)

theorem mem_of_freeTiled (hok : Ok cells s) (hfree : FreeTiled s n e) (hlo : n ≤ x) (hhi : x < e) :
    x ∈ cells := by
  obtain ⟨L,hok⟩ := hok
  obtain ⟨m,b,hb,_,_,_,hin⟩ := hfree x hlo hhi
  exact (hok.blocks.layout.tiles.covers x).mpr ⟨m,b.blocks,Layout.len_eq hb,hin⟩

theorem inUse_before (halloc : Allocated env req t h s') (hx : InUse s' x)
    (hout : x < h ∨ h + objSzToBlocks req.lbAdjusted ≤ x) : InUse t x := by
  obtain ⟨m,hhdr,hm,hin⟩ := hx
  refine ⟨m,hhdr,?_,hin⟩
  rw [← halloc.spares.same m,hm]
  rintro rfl
  obtain ⟨gcNo,hset⟩ := halloc.setUp
  rw [hset] at hm
  cases hm
  change m ≤ x ∧ x < m + objSzToBlocks req.lbAdjusted at hin
  omega

theorem placed_of_allocated (hs : Ok cells s) (hs' : Ok cells s') (hsheds : Sheds env req s t)
    (halloc : Allocated env req t h s') : Placed env req s h s' := by
  obtain ⟨n,b,hb,hfree,hlo,hhi,hno⟩ := halloc.inside
  have htiled : FreeTiled s n (n + b.blocks) := hsheds.descends n b hb hfree
  obtain ⟨Ls,hsok⟩ := id hs
  refine ⟨halloc.aligned,?_,fun x hx hxh => ?_,⟨n,n + b.blocks,htiled,hlo,hhi,fun x hx hxe hout => ?_⟩,
    fun x hne hchanged => ?_⟩
  · obtain ⟨gcNo,hset⟩ := halloc.setUp
    obtain ⟨hhdr,hhdr',hused⟩ := bind_eq_some_iff.mp hset
    unfold used at hused
    split at hused
    · cases hused
    · rename_i hnot
      have hbody := Option.some.inj hused
      have hsz : hhdr.hbSz = req.lbAdjusted := congrArg Hdr.hbSz hbody
      refine ⟨hhdr,hhdr',Bool.eq_false_iff.mpr hnot,congrArg Hdr.isMapped hbody,hsz,?_⟩
      rw [blockBytes,hsz,Request.sizeNeeded]
  · exact htiled.not_inUse hsok.blocks (by omega) (by omega)
  · refine freeAt_of_not_inUse hs' (mem_of_freeTiled hs htiled hx hxe) fun hinUse => ?_
    exact hno x hx hxe (inUse_before halloc hinUse hout)
  · rw [halloc.spares.same x hne] at hchanged
    obtain ⟨hneed,m,e,hdrop,hmx,hxe,hblack,hdropped⟩ := hsheds.whole x hchanged
    refine ⟨((hsheds.drops x).resolve_left hchanged).1,hneed,m,e,hdrop,hmx,hxe,hblack,?_⟩
    intro y hy hye
    obtain ⟨gcNo,hy⟩ := hdropped y hy hye
    refine ⟨gcNo,?_⟩
    rw [halloc.spares.same y,hy]
    rintro rfl
    rw [halloc.unused] at hy
    cases hy

/-- When no collection is run, the allocator either finds nothing or places the block. -/
theorem allochblk_placed {collect : Option ((Heap → Option Heap) × AllocEnv)} (env : AllocEnv)
    (hs : Ok cells s) (hfuel : Enough cells fuel) (hpos : 0 < req.lbAdjusted)
    (halign : (req.alignM1 + 1).isPowerOfTwo)
    (hno : collect = none ∨ ∃ x t, allochblkBeforeCollect env fuel req s = some (some x, t)) :
    ∃ found s', allochblk env fuel req collect s = some (found, s') ∧ HeapInvariant s' ∧
      ∀ x, found = some x → Placed env req s x s' := by
  unfold allochblk Search.allochblk
  split
  · exact ⟨none,s,rfl,heapInvariant_of_ok hs,by simp⟩
  · rename_i hover
    have hbefore := allochblkBeforeCollect_spec env fuel (sound_of_isPowerOfTwo hpos halign)
      (sizeNeeded_lt (Bool.eq_false_iff.mpr hover)) hs
    obtain ⟨⟨found,s'⟩,hfound,hs',t,hsheds,_,hout⟩ := hbefore.some_of hfuel
    rw [allochblkBeforeCollect] at hfound
    rw [hfound]
    cases found with
    | some x =>
      refine ⟨some x,s',rfl,heapInvariant_of_ok hs',fun y hy => ?_⟩
      cases hy
      exact placed_of_allocated hs hs' hsheds hout
    | none =>
      have hnone : collect = none := by
        apply hno.resolve_right
        rintro ⟨x,u,hx⟩
        rw [allochblkBeforeCollect,hfound] at hx
        cases hx
      rw [hnone]
      exact ⟨none,s',rfl,heapInvariant_of_ok hs',by simp⟩

def alignedRequest : Request := ⟨16384, normal, false, 16383⟩

theorem allochblk_placed_aligned : ∃ s s' : Heap, HeapInvariant s ∧
    allochblk quietEnv 200 alignedRequest none s = some (some 20, s') ∧
    Placed quietEnv alignedRequest s 20 s' := by
  obtain ⟨s,cells,hs,hok,hfuel⟩ := execAll_reaches (fun _ => blankHdr) 200 [.addToHeap 17 8] (by decide +kernel)
    (by decide)
  obtain ⟨found,s',hs',_,hplaced⟩ := allochblk_placed quietEnv hok hfuel
    (by decide : 0 < alignedRequest.lbAdjusted) ⟨14,rfl⟩ (.inl (rfl : none = none))
  have hrun : ((execAll 200 [.addToHeap 17 8] blankHeap).bind
      (allochblk quietEnv 200 alignedRequest none)).map Prod.fst = some (some 20) := by
    decide +kernel
  rw [hs,bind_some,hs'] at hrun
  obtain rfl : found = some 20 := Option.some.inj hrun
  exact ⟨s,s',heapInvariant_of_ok hok,hs',hplaced 20 rfl⟩

end Placing

section Merging

/-- The search for a chain that satisfies a request is exact: it fails only if there is no
such chain, and otherwise it merges one as far as the request needs. -/
theorem mergeFreeBlocksForAlloc_exact (sizeNeeded alignM1 : Nat) (hs : Ok cells s)
    (hfuel : Enough cells fuel) :
    ∃ merged s', mergeFreeBlocksForAlloc fuel sizeNeeded alignM1 s = some (merged, s') ∧
      HeapInvariant s' ∧ (merged = true ↔ ∃ n e, Reaches s sizeNeeded alignM1 n e) ∧
      (merged = true → s'.largeFreeBytes = s.largeFreeBytes ∧ s'.heapsize = s.heapsize ∧
        s'.heapSects = s.heapSects ∧ ∃ n e, Reaches s sizeNeeded alignM1 n e ∧
          (∀ x, Reaches s sizeNeeded alignM1 n x → e ≤ x) ∧ Joined s n e s') ∧
      (merged = false → s' = s) := by
  obtain ⟨L,hok⟩ := id hs
  obtain ⟨⟨merged,s'⟩,hs',hmerges⟩ :=
    (mergeFreeBlocksWith_merges matchUnmapped_merger fuel sizeNeeded alignM1 hok).some_of hfuel
  refine ⟨merged,s',hs',?_⟩
  cases merged with
  | true =>
    obtain ⟨n,e,_,hreach,hleast,hjoined,hkept,hrearranged⟩ := hmerges
    have hcounts := hrearranged.counts
    simp only [counters,Prod.mk.injEq] at hcounts
    exact ⟨heapInvariant_of_ok hkept,⟨fun _ => ⟨n,e,hreach⟩,fun _ => rfl⟩,
      fun _ => ⟨hcounts.1,hcounts.2.1,hcounts.2.2,n,e,hreach,hleast,hjoined⟩,by simp⟩
  | false =>
    obtain ⟨hsame,hnone⟩ := hmerges
    refine ⟨heapInvariant_of_ok (hsame ▸ hs),⟨by simp,?_⟩,by simp,fun _ => hsame⟩
    rintro ⟨n,e,hreach⟩
    exact absurd hreach (hnone n e trivial)

/-- Three sections side by side are merged for a request of nine hblks, the middle one of
them unmapped. -/
def threeSections : List Op :=
  [.addToHeap 24 4, .nextGc, .unmapOld 1, .addToHeap 20 4, .addToHeap 28 4]

theorem mergeFreeBlocksForAlloc_exact_threeSections : ∃ s s' : Heap,
    execAll 400 threeSections blankHeap = some s ∧
      mergeFreeBlocksForAlloc 400 36864 0 s = some (true, s') ∧ HeapInvariant s' ∧
      ∃ n e, Reaches s 36864 0 n e ∧ Joined s n e s' := by
  obtain ⟨s,cells,hs,hok,hfuel⟩ := execAll_reaches (fun _ => blankHdr) 400 threeSections
    (by decide +kernel) (by decide)
  obtain ⟨merged,s',hs',hinv,_,htrue,_⟩ := mergeFreeBlocksForAlloc_exact 36864 0 hok hfuel
  have hrun : ((execAll 400 threeSections blankHeap).bind
      (mergeFreeBlocksForAlloc 400 36864 0)).map Prod.fst = some true := by
    decide +kernel
  rw [hs,bind_some,hs'] at hrun
  obtain rfl : merged = true := Option.some.inj hrun
  obtain ⟨_,_,_,n,e,hreach,_,hjoined⟩ := htrue rfl
  exact ⟨s,s',hs,hs',hinv,n,e,hreach,hjoined⟩

/-- `GC_merge_unmapped` returns, and it leaves no two neighbours that could be merged. -/
theorem mergeUnmapped_complete (hs : Ok cells s) (hfuel : Enough cells fuel) :
    ∃ merged s', mergeUnmapped fuel s = some (merged, s') ∧ HeapInvariant s' ∧
      s'.largeFreeBytes = s.largeFreeBytes ∧ s'.heapsize = s.heapsize ∧ s'.heapSects = s.heapSects ∧
      ∀ n hhdr nexthdr, s'.hdrAt n = some hhdr → hhdr.isFree = true →
        s'.hdrAt (n + divHblksz hhdr.hbSz) = some nexthdr → nexthdr.isFree = true →
        sizetSignb ≤ hhdr.hbSz + nexthdr.hbSz := by
  obtain ⟨⟨merged,s'⟩,hs',⟨hok,hrearranged⟩,hquiet⟩ := (mergeUnmapped_spec hs).some_of hfuel
  have hcounts := hrearranged.counts
  simp only [counters,Prod.mk.injEq] at hcounts
  refine ⟨merged,s',hs',heapInvariant_of_ok hok,hcounts.1,hcounts.2.1,hcounts.2.2,?_⟩
  intro n hhdr nexthdr hn hfree hnext hnextFree
  obtain ⟨L,hok⟩ := hok
  have hb : blkAt s' n = some (blk hhdr) := by rw [blkAt,hn]; rfl
  have hblocks : divHblksz hhdr.hbSz = (blk hhdr).blocks :=
    divHblksz_eq_blocks ((hok.blocks.layout.blocks hb).whole hfree)
  rw [hblocks] at hnext
  exact hquiet n (blk hhdr) (blk nexthdr) hb hfree trivial (by rw [blkAt,hnext]; rfl) hnextFree

theorem mergeUnmapped_complete_threeSections : ∃ s s' : Heap,
    execAll 400 threeSections blankHeap = some s ∧
      mergeUnmapped 400 s = some (true, s') ∧ HeapInvariant s' := by
  obtain ⟨s,cells,hs,hok,hfuel⟩ := execAll_reaches (fun _ => blankHdr) 400 threeSections
    (by decide +kernel) (by decide)
  obtain ⟨merged,s',hs',hinv,_⟩ := mergeUnmapped_complete hok hfuel
  have hrun : ((execAll 400 threeSections blankHeap).bind (mergeUnmapped 400)).map
      Prod.fst = some true := by
    decide +kernel
  rw [hs,bind_some,hs'] at hrun
  obtain rfl : merged = true := Option.some.inj hrun
  exact ⟨s,s',hs,hs',hinv⟩

end Merging

end GcUtil.Block.Contracts
