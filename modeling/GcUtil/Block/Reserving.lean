import GcUtil.Block.Coalescing

/-! Blocks that are on no list and whose header does not describe them yet: how
`GC_get_first_part`, `GC_freehblk`, `drop_hblk_in_chunks` and `GC_add_to_heap` pass
through such states. -/
namespace GcUtil.Block.Reserving
open Basic Headers FreeLists Allocator HeaderTable LinkedLists BlockMap JointInvariant Coalescing Function

variable {s s' : Heap} {n m p q i k lb : Nat} {L : Nat → List Nat} {cells : Finset Nat} {off : Set Nat}
variable {b c : Blk}

/-- The invariant with `b` for the block at `n`, whatever its header `p` says. -/
structure Reserved (s : Heap) (L : Nat → List Nat) (cells : Finset Nat) (n p : Nat) (b : Blk) : Prop where
  hdrs : HdrsOk s
  header : s.index n = .hdr p
  layout : Layout s.index (Function.update (blkAt s) n (some b)) cells
  lists : Lists s L
  unlisted : ∀ i, n ∉ L i
  placed : ∀ {m c}, blkAt s m = some c → m ≠ n → ∀ i, m ∈ L i ↔ c.free = true ∧ flOf c.sz = i

namespace Reserved

theorem of_blocks (h : Blocks s L cells {n}) (hp : s.index n = .hdr p) (hb : blkAt s n = some b)
    (hnot : ∀ i, n ∉ L i) : Reserved s L cells n p b where
  hdrs := h.hdrs
  header := hp
  layout := by
    rw [← hb,update_eq_self]
    exact h.layout
  lists := h.lists
  unlisted := hnot
  placed hc hm := h.placed hc (by simpa using hm)

section

variable (h : Reserved s L cells n p b)
include h

theorem updHdr (f : Hdr → Hdr) : Reserved (s.updHdr p f) L cells n p b := by
  have hblks := blkAt_updHdr h.hdrs h.header f
  refine ⟨h.hdrs.updHdr p f,h.header,?_,h.lists.updHdr_off h.hdrs h.header h.unlisted f,h.unlisted,?_⟩
  · rw [hblks,update_idem]
    exact h.layout
  · intro m c hc hm
    rw [hblks,update_of_ne hm] at hc
    exact h.placed hc hm

theorem blocks (hblk : blk (s.hdrs p) = b) : Blocks s L cells {n} where
  hdrs := h.hdrs
  layout := by
    have := h.layout
    rwa [← hblk,← blkAt_of_index h.header,update_eq_self] at this
  lists := h.lists
  placed hc hm := h.placed hc (by simpa using hm)

theorem blocks_used (hblk : blk (s.hdrs p) = b) (hused : b.free = false) :
    Blocks s L cells ∅ := by
  refine { h.blocks hblk with placed := fun {m c} hc _ j => ?_ }
  by_cases hm : m = n
  · subst hm
    rw [blkAt_of_index h.header,hblk] at hc
    cases hc
    simp [hused,h.unlisted j]
  · exact h.placed hc hm j

theorem reindex (hhdrs : s'.hdrs = s.hdrs)
    (hpool : s'.hdrFreeList = s.hdrFreeList) (hscratch : s'.hdrScratch = s.hdrScratch)
    (hheads : s'.hblkfreelist = s.hblkfreelist) (hbytes : s'.freeBytes = s.freeBytes)
    (hindex : ∀ x, s'.index x = s.index x ∨
      (n < x ∧ x < n + b.blocks ∧ ∀ q, s'.index x ≠ .hdr q))
    (hlayout : Layout s'.index (update (blkAt s) n (some c)) cells) :
    Reserved s' L cells n p c := by
  have hself : update (blkAt s) n (some b) n = some b := update_self ..
  have hhdrAt : s'.hdrAt = s.hdrAt := by
    apply hdrAt_reindex hhdrs
    intro x
    rcases hindex x with hsame | ⟨hlow,hhigh,hno⟩
    · exact .inl hsame
    · refine .inr ⟨?_,hno⟩
      have := h.layout.interior_none hself (i := x - n) (by omega) (by omega)
      rw [Nat.add_sub_cancel' (by omega),update_of_ne (by omega)] at this
      exact blkAt_eq_none.mp this
  have hblks : blkAt s' = blkAt s := by
    funext x
    rw [blkAt,hhdrAt,blkAt]
  refine ⟨h.hdrs.congr (fun x q hx => ?_) hpool hscratch,?_,hblks ▸ hlayout,
    h.lists.frame_hdrAt hheads hbytes fun _ x _ => congrFun hhdrAt x,h.unlisted,hblks ▸ h.placed⟩
  · rcases hindex x with hsame | ⟨_,_,hno⟩
    · rwa [hsame] at hx
    · exact absurd hx (hno q)
  · rcases hindex n with hsame | ⟨hlt,_⟩
    · rw [hsame,h.header]
    · omega

end

theorem installCounts (h : Reserved s L cells n p ⟨n, k * hblkSize, true⟩) (hlb : objSzToBlocks lb = k)
    (hfits : k * hblkSize < sizetSignb) :
    Reserved (installCounts s n (k * hblkSize)) L cells n p ⟨n, lb, false⟩ := by
  have hblocks : Blk.blocks ⟨n,k * hblkSize,true⟩ = k := objSzToBlocks_mul k
  obtain ⟨keys,heq⟩ := installCounts_eq s n (k * hblkSize)
  rw [heq,objSzToBlocks_mul]
  refine h.reindex rfl rfl rfl rfl rfl (fun x => ?_) ?_
  · dsimp only
    split
    · exact .inr ⟨by omega,by omega,by simp⟩
    · exact .inl rfl
  · have := h.layout.use (update_self ..) (hlb.trans hblocks.symm)
      (by rwa [hblocks])
    rwa [hblocks,update_idem] at this

theorem single (h : Reserved s L cells n p ⟨n, hblkSize, true⟩) :
    Reserved s L cells n p ⟨n, hblkSize, false⟩ := by
  have hblocks : Blk.blocks ⟨n,hblkSize,true⟩ = 1 := by
    change objSzToBlocks hblkSize = 1
    decide
  refine h.reindex rfl rfl rfl rfl rfl (fun x => .inl rfl) ?_
  have := h.layout.use (update_self ..) rfl (by rw [hblocks]; decide)
  rw [hblocks,update_idem] at this
  have hnone : ∀ x, ¬ (n < x ∧ x ≤ n + (1 - 1)) := fun x => by omega
  simpa only [hnone,if_false] using this

end Reserved

section Setup

theorem setupHeader_blk (env : AllocEnv) (s : Heap) (p h lb kind : Nat) (ignoreOffPage : Bool) :
    blk ((setupHeader env s p h lb kind ignoreOffPage).hdrs p) = ⟨h, lb, false⟩ := by
  unfold setupHeader
  rw [updHdr_hdrs_self]
  rfl

theorem Reserved.setupHeader (h : Reserved s L cells n p b) (env : AllocEnv) (lb kind : Nat)
    (ignoreOffPage : Bool) :
    Reserved (Allocator.setupHeader env s p n lb kind ignoreOffPage) L cells n p b := by
  unfold Allocator.setupHeader
  exact h.updHdr _

theorem Reserved.setupHeader_used (h : Reserved s L cells n p ⟨n, lb, false⟩) (env : AllocEnv) (kind : Nat)
    (ignoreOffPage : Bool) :
    Blocks (Allocator.setupHeader env s p n lb kind ignoreOffPage) L cells ∅ :=
  (h.setupHeader env lb kind ignoreOffPage).blocks_used
    (setupHeader_blk env s p n lb kind ignoreOffPage) rfl

theorem installHeader_total (s : Heap) (n : Nat) :
    total (installHeader s n).2 = total s ∧ counters (installHeader s n).2 = counters s := by
  obtain ⟨keys,h⟩ := installHeader_eq s n
  rw [h]
  exact ⟨rfl,rfl⟩

theorem installCounts_total (s : Heap) (n sz : Nat) :
    total (installCounts s n sz) = total s ∧ counters (installCounts s n sz) = counters s := by
  obtain ⟨keys,h⟩ := installCounts_eq s n sz
  rw [h]
  exact ⟨rfl,rfl⟩

theorem blkAt_installHeader (hok : HdrsOk s) (n : Nat) :
    blkAt (installHeader s n).2 = update (blkAt s) n
      (some (blk { s.hdrs (newHdr s) with hbLastReclaimed := s.gcNoShort })) :=
  blkAt_update (hdrAt_installHeader hok n)

end Setup

section FirstPart

theorem getFirstPart_spec (h : Blocks s L cells {n}) (hp : s.index n = .hdr p) (hb : blkAt s n = some b)
    (hfree : b.free = true) (hmem : n ∈ L i) (hk : 0 < k) (hle : k ≤ b.blocks) :
    ∃ s' L', getFirstPart s n p (k * hblkSize) i = some s' ∧
      Reserved s' L' cells n p ⟨n, k * hblkSize, true⟩ ∧ total s' + k * hblkSize = total s ∧
      counters s' = counters s := by
  have hok := h.layout.blocks hb
  have hself : b.block = n := hok.self
  have hsz := blocks_mul_of_dvd (hok.whole hfree)
  obtain ⟨s1,hs1,hrem,hB1⟩ := h.remove hp hmem
  rw [Set.insert_eq_of_mem (by simp)] at hB1
  have hnot1 := not_mem_update_erase h.lists hmem
  have hindex := index_of_core hrem.core
  have hblks := blkAt_of_core hrem.core
  have hp1 : s1.index n = .hdr p := by rw [hindex,hp]
  have hb1 : blkAt s1 n = some b := by rw [hblks,hb]
  have htotal := hrem.total
  rw [szAt_of_blkAt hb] at htotal
  rcases Nat.lt_or_eq_of_le hle with hlt | rfl
  · have hdiv : divHblksz (k * hblkSize) = k := by
      unfold divHblksz
      exact Nat.mul_div_cancel k (by decide)
    have hnone : blkAt s1 (n + k) = none := hB1.layout.interior_none hb1 hk hlt
    have hok2 := hB1.hdrs.installHeader (n + k)
    have hq2 : (installHeader s1 (n + k)).2.index (n + k) = .hdr (newHdr s1) := by
      rw [installHeader_index,update_self]
    have hunlisted : ∀ j, n + k ∉ update L i ((L i).erase n) j := by
      intro j hj
      have := hB1.lists.isBlock hj
      simp [blkAt_eq_none.mp hnone] at this
    have hL2 := hB1.lists.installHeader hB1.hdrs (blkAt_eq_none.mp hnone)
    let f : Hdr → Hdr := fun hhdr =>
      { hhdr with hbBlock := n + k, hbSz := b.sz - k * hblkSize, hbFlags := noFlags }
    let s3 := (installHeader s1 (n + k)).2.updHdr (newHdr s1) f
    have hok3 : HdrsOk s3 := hok2.updHdr _ f
    have hq3 : s3.index (n + k) = .hdr (newHdr s1) := hq2
    have hL3 : Lists s3 _ := hL2.updHdr_off hok2 hq2 hunlisted f
    obtain ⟨s4,hs4,hadd⟩ := addToFl_spec hok3 hL3 hq3 hunlisted
    have hhdr3 : s3.hdrs (newHdr s1) = f ((installHeader s1 (n + k)).2.hdrs (newHdr s1)) :=
      updHdr_hdrs_self _ _ _
    have hblks4 : blkAt s4 = update (blkAt s1) (n + k)
        (some ⟨n + k,b.sz - k * hblkSize,true⟩) := by
      rw [blkAt_of_core hadd.core,blkAt_updHdr hok3 hq3,blkAt_updHdr hok2 hq2,
        blkAt_installHeader hB1.hdrs,update_idem,update_idem,hhdr3]
      rfl
    have hindex4 : s4.index = update s1.index (n + k) (.hdr (newHdr s1)) := by
      rw [index_of_core hadd.core,updHdr_index,updHdr_index,installHeader_index]
    have hsz3 : (s3.hdrs (newHdr s1)).hbSz = b.sz - k * hblkSize := by rw [hhdr3]
    have hkn : n + k ≠ n := by omega
    refine ⟨s4,_,?_,⟨?_,?_,?_,hadd.lists,?_,?_⟩,?_,?_⟩
    · unfold getFirstPart
      have hneq : b.sz ≠ k * hblkSize := by
        rw [← hsz]
        intro heq
        have := Nat.eq_of_mul_eq_mul_right (by decide) heq
        omega
      simp only [hs1,Option.bind_eq_bind,Option.bind_some,hbSz_of_blkAt hp hb,hneq,if_false,hdiv,
        installHeader_fst]
      exact hs4
    · exact hdrsOk_of_core hadd.core (hok3.updHdr _ setFree)
    · rw [hindex4,update_of_ne hkn.symm,hp1]
    · have hfirst : { b with sz := k * hblkSize } = (⟨n,k * hblkSize,true⟩ : Blk) := by
        rw [← hself,← hfree]
      have hsplit := hB1.layout.split hb1 hfree hk hlt (newHdr s1)
      rw [hfirst,update_comm hkn.symm] at hsplit
      rwa [hindex4,hblks4]
    · intro j hj
      rw [mem_update_cons_iff hkn.symm] at hj
      exact hnot1 j hj
    · intro m c hc hm j
      rw [hblks4,update_apply] at hc
      split at hc
      · rename_i hmk
        cases hc
        subst hmk
        rw [mem_update_cons_self hunlisted,hsz3]
        simp
      · rename_i hmk
        rw [mem_update_cons_iff hmk]
        exact hB1.placed hc (by simpa using hm) j
    · have ht3 : total s3 = total s1 := (installHeader_total s1 (n + k)).1
      have := hadd.total
      rw [hsz3,ht3] at this
      have hmul : k * hblkSize ≤ b.blocks * hblkSize := Nat.mul_le_mul_right _ hle
      omega
    · rw [counters_of_core hadd.core]
      change counters (installHeader s1 (n + k)).2 = _
      rw [(installHeader_total s1 (n + k)).2,counters_of_core hrem.core]
  · have hblk : b = ⟨n,b.blocks * hblkSize,true⟩ := by
      rw [hsz,← hself,← hfree]
    have hres := Reserved.of_blocks hB1 hp1 hb1 hnot1
    rw [hblk] at hres
    refine ⟨s1,_,?_,hres,?_,counters_of_core hrem.core⟩
    · unfold getFirstPart
      simp only [hs1,Option.bind_eq_bind,Option.bind_some,hbSz_of_blkAt hp hb,hsz,if_true]
    · rw [hsz]
      exact htotal

end FirstPart

section Chunks

/-- One chunk is set up and the next one gets its header. -/
theorem Reserved.nextChunk (env : AllocEnv) {j : Nat}
    (h : Reserved s L cells n p ⟨n, (j + 1 + 1) * hblkSize, true⟩) :
    let s1 := Allocator.setupHeader env s p n hblkSize ptrfree false
    Reserved (installHeader s1 (n + 1)).2 L cells (n + 1) (newHdr s1) ⟨n + 1,(j + 1) * hblkSize,true⟩ := by
  intro s1
  have hblocks : Blk.blocks ⟨n,(j + 1 + 1) * hblkSize,true⟩ = j + 1 + 1 := objSzToBlocks_mul _
  have hs1 : Reserved s1 L cells n p ⟨n,(j + 1 + 1) * hblkSize,true⟩ :=
    h.setupHeader env hblkSize ptrfree false
  have hblk1 : blkAt s1 n = some ⟨n,hblkSize,false⟩ := by
    rw [blkAt_of_index hs1.header]
    exact congrArg some (setupHeader_blk env s p n hblkSize ptrfree false)
  have hnone : blkAt s1 (n + 1) = none := by
    have := hs1.layout.interior_none (update_self ..) (i := 1) (by omega)
      (by rw [hblocks]; omega)
    rwa [update_of_ne (by omega)] at this
  have hnext : n + 1 ≠ n := by omega
  have hblks := blkAt_installHeader hs1.hdrs (n + 1)
  refine ⟨hs1.hdrs.installHeader _,?_,?_,hs1.lists.installHeader hs1.hdrs (blkAt_eq_none.mp hnone),?_,?_⟩
  · rw [installHeader_index,update_self]
  · have hsplit := hs1.layout.split (k := 1) (update_self ..) rfl (by omega)
      (by rw [hblocks]; omega) (newHdr s1)
    rw [update_idem] at hsplit
    have hone : Blk.blocks ⟨n,1 * hblkSize,true⟩ = 1 := objSzToBlocks_mul 1
    have huse := hsplit.use (n := n) (b := ⟨n,1 * hblkSize,true⟩)
      (by rw [update_of_ne hnext.symm,update_self])
      (hone.symm ▸ (by decide : objSzToBlocks hblkSize = 1)) (by rw [hone]; decide)
    have hout : ∀ x, ¬ (n < x ∧ x ≤ n + (1 - 1)) := fun x => by omega
    have hrest : (j + 1 + 1) * hblkSize - 1 * hblkSize = (j + 1) * hblkSize := by
      rw [← Nat.sub_mul]
      rfl
    simp only [hone,hout,if_false,hrest] at huse
    rw [update_comm hnext.symm,update_idem,update_comm hnext,← hblk1,
      update_eq_self] at huse
    rw [installHeader_index,hblks,update_idem]
    exact huse
  · intro i hi
    have := hs1.lists.isBlock hi
    simp [blkAt_eq_none.mp hnone] at this
  · intro m c hc hm i
    rw [hblks,update_of_ne hm] at hc
    by_cases hmn : m = n
    · subst hmn
      rw [hblk1] at hc
      cases hc
      simp [hs1.unlisted i]
    · exact hs1.placed hc hmn i

theorem chunkLoop_spec (env : AllocEnv) (j : Nat) (h : Reserved s L cells n p ⟨n, (j + 1) * hblkSize, true⟩) :
    Blocks (chunkLoop env j n p s) L cells ∅ ∧ total (chunkLoop env j n p s) = total s ∧
      counters (chunkLoop env j n p s) = counters s := by
  induction j generalizing s n p with
  | zero =>
    rw [Nat.zero_add,Nat.one_mul] at h
    exact ⟨h.single.setupHeader_used env ptrfree false,rfl,rfl⟩
  | succ j ih =>
    have hrun := ih (h.nextChunk env)
    have htotal := installHeader_total (Allocator.setupHeader env s p n hblkSize ptrfree false) (n + 1)
    rw [chunkLoop]
    simp only [installHeader_fst]
    exact ⟨hrun.1,hrun.2.1.trans htotal.1,hrun.2.2.trans htotal.2⟩

theorem dropInChunks_reserved (chunks : Nat → Nat → Nat → Heap → Heap) (h : Blocks s L cells ∅)
    (hp : s.index n = .hdr p) (hb : blkAt s n = some b) (hmem : n ∈ L i) :
    ∃ t, dropInChunks chunks s i n p = some (chunks (b.blocks - 1) n p t) ∧
      Reserved t (update L i ((L i).erase n)) cells n p ⟨n, (b.blocks - 1 + 1) * hblkSize, true⟩ ∧
      total t + b.sz = total s ∧ counters t = (s.largeFreeBytes - b.sz, s.heapsize, s.heapSects) := by
  have hfree := ((h.placed hb (by simp) i).mp hmem).1
  have hok := h.layout.blocks hb
  let s1 : Heap := { s with
    largeFreeBytes := s.largeFreeBytes - b.sz
    bytesDropped := s.bytesDropped + b.sz }
  have hB1 : Blocks s1 L cells ∅ := h.congr rfl rfl rfl rfl rfl rfl
  obtain ⟨t,ht,hrem,hB2⟩ := hB1.remove hp hmem
  rw [insert_empty_eq] at hB2
  have hindex := index_of_core hrem.core
  have hblks := blkAt_of_core hrem.core
  have hres := Reserved.of_blocks (b := b) hB2 (by rw [hindex]; exact hp) (by rw [hblks]; exact hb)
    (not_mem_update_erase h.lists hmem)
  have hblk : b = ⟨n,(b.blocks - 1 + 1) * hblkSize,true⟩ := by
    rw [Nat.sub_add_cancel hok.blocks_pos,blocks_mul_of_dvd (hok.whole hfree),← hfree,← hok.self]
  have htotal := hrem.total
  rw [szAt_of_blkAt (s := s1) hb] at htotal
  refine ⟨t,?_,hblk ▸ hres,htotal,counters_of_core hrem.core⟩
  unfold dropInChunks
  simp only [hbSz_of_blkAt hp hb,divHblksz_eq_blocks (hok.whole hfree)]
  change (removeFromFlAt s1 p i).bind _ = _
  rw [ht]
  rfl

theorem dropHblkInChunks_spec (env : AllocEnv) (h : Blocks s L cells ∅) (hp : s.index n = .hdr p)
    (hb : blkAt s n = some b) (hmem : n ∈ L i) :
    ∃ s', dropHblkInChunks env s i n p = some s' ∧
      Blocks s' (update L i ((L i).erase n)) cells ∅ ∧ total s' + b.sz = total s ∧
      counters s' = (s.largeFreeBytes - b.sz, s.heapsize, s.heapSects) := by
  obtain ⟨t,hdrop,hres,htotal,hcount⟩ := dropInChunks_reserved (chunkLoop env) h hp hb hmem
  obtain ⟨hB,hsame,hkept⟩ := chunkLoop_spec env (b.blocks - 1) hres
  exact ⟨_,hdrop,hB,by rw [hsame,htotal],hkept.trans hcount⟩

end Chunks

section Freeing

theorem freehblk_of_reserved (size : Nat)
    (hnil : s.index (n + 1) = .nil → ∀ i, 0 < i → i < objSzToBlocks size → s.index (n + i) = .nil)
    (hp : s.index n = .hdr p)
    (hres : Reserved (removeCounts s.invalidateHdrCache n size) L cells n p ⟨n, size, true⟩)
    (hsize : size = hblkSize * objSzToBlocks (s.hdrs p).hbSz) (hfits : size < sizetSignb)
    (hblock : (s.hdrs p).hbBlock = n) (hused : (s.hdrs p).isFree = false) :
    ∃ s' L', freehblk s n = some s' ∧ Blocks s' L' cells ∅ ∧ total s' = total s + size ∧
      counters s' = (s.largeFreeBytes + size, s.heapsize, s.heapSects) := by
  subst hsize
  set size := hblkSize * objSzToBlocks (s.hdrs p).hbSz
  have hcounts := removeCounts_eq s.invalidateHdrCache n size hnil
  set s1 := removeCounts s.invalidateHdrCache n size
  have hhdrs : s1.hdrs = s.hdrs := by rw [hcounts]; rfl
  let f : Hdr → Hdr := fun b => { b with hbSz := size, hbLastReclaimed := s1.gcNoShort }
  let s3 := (s1.updHdr p f).updHdr p setFree
  have hres3 : Reserved s3 L cells n p ⟨n,size,true⟩ := (hres.updHdr f).updHdr setFree
  have hblk3 : blk (s3.hdrs p) = ⟨n,size,true⟩ := by
    rw [updHdr_hdrs_self,updHdr_hdrs_self,hhdrs]
    unfold blk setFree
    rw [← hblock]
    rfl
  have hb3 : blkAt s3 n = some ⟨n,size,true⟩ := by rw [blkAt_of_index hres3.header,hblk3]
  obtain ⟨s4,L4,hs4,hB4,ht4,hc4⟩ := linkFreed_spec (hres3.blocks hblk3) hres3.header hb3 rfl
    hres3.unlisted size
  have htotal : total s3 = total s := by
    change total s1 = total s
    rw [hcounts]
    rfl
  have hcount : s3.largeFreeBytes = s.largeFreeBytes ∧ s3.heapsize = s.heapsize ∧
      s3.heapSects = s.heapSects := by
    change s1.largeFreeBytes = _ ∧ s1.heapsize = _ ∧ s1.heapSects = _
    rw [hcounts]
    exact ⟨rfl,rfl,rfl⟩
  refine ⟨s4,L4,?_,hB4,by rw [ht4,htotal],by rw [hc4,hcount.1,hcount.2.1,hcount.2.2]⟩
  unfold freehblk
  have hp' : s.invalidateHdrCache.index n = .hdr p := hp
  have hstill : ((s1.updHdr p f).hdrs p).isFree = false := by
    rw [updHdr_hdrs_self,hhdrs]
    exact hused
  simp only [hp']
  change (if sizetSignb ≤ size then none else _) = _
  rw [if_neg (by omega)]
  change (if ((s1.updHdr p f).hdrs p).isFree = true then none else linkFreed s3 n p size) = _
  rw [hstill]
  exact hs4

theorem freehblk_spec (h : Blocks s L cells ∅) (hb : blkAt s n = some b) (hused : b.free = false) :
    ∃ s' L', freehblk s n = some s' ∧ Blocks s' L' cells ∅ ∧
      total s' = total s + hblkSize * b.blocks ∧
      counters s' = (s.largeFreeBytes + hblkSize * b.blocks, s.heapsize, s.heapSects) := by
  obtain ⟨p,hp,hblk⟩ := blkAt_eq_some.mp hb
  have hok := h.layout.blocks hb
  have hblocks : objSzToBlocks (hblkSize * b.blocks) = b.blocks := by
    rw [Nat.mul_comm]
    exact objSzToBlocks_mul _
  have hnil : s.index (n + 1) = .nil → ∀ i, 0 < i → i < objSzToBlocks (hblkSize * b.blocks) →
      s.index (n + i) = .nil := by
    intro h1 i hi hlt
    rw [hblocks] at hlt
    have hfill := hok.fill 1 (by omega) (by omega)
    rw [h1,Blk.fill,hused] at hfill
    cases hfill
  have hres := Reserved.of_blocks (h.mono {n} fun m _ => .inl (by simp)) hp hb
    (h.not_mem_list hb (by simp) hused)
  have hcounts := removeCounts_eq s.invalidateHdrCache n (hblkSize * b.blocks) hnil
  rw [hblocks] at hcounts
  apply freehblk_of_reserved _ hnil hp
  · rw [hcounts]
    refine hres.reindex rfl rfl rfl rfl rfl (fun x => ?_) ?_
    · dsimp only
      split
      · exact .inr ⟨by omega,by omega,by simp⟩
      · exact .inl rfl
    · exact h.layout.release hb
  · rw [← hblk]
    rfl
  · rw [Nat.mul_comm]
    exact hok.fits hused
  · rw [← hok.self,← hblk]
    rfl
  · rw [isFree_of_blkAt hp hb,hused]

end Freeing

end GcUtil.Block.Reserving
