import GcUtil.Block.JointInvariant

/-! Merging and freeing blocks keeps the joint invariant: `GC_freehblk` and the common
part of the two merging functions. -/
namespace GcUtil.Block.Coalescing
open Basic Headers FreeLists Allocator HeaderTable LinkedLists BlockMap JointInvariant Function Option

variable {s s' : Heap} {n m p q i : Nat} {L : Nat → List Nat} {cells : Finset Nat} {off : Set Nat}
variable {b c : Blk}

theorem removeFromFl_eq (hp : s.index n = .hdr p) (hb : blkAt s n = some b) :
    removeFromFl s p = removeFromFlAt s p (flOf b.sz) := by
  rw [removeFromFl,hbSz_of_blkAt hp hb]

theorem takeOver_spec (h : Blocks s L cells {n}) (hp : s.index n = .hdr p) (hb : blkAt s n = some b)
    (hbfree : b.free = true) (hnot : ∀ i, n ∉ L i) (hq : s.index (n + b.blocks) = .hdr q)
    (hc : blkAt s (n + b.blocks) = some c) (hcfree : c.free = true) :
    ∃ s1 s2 L', removeFromFl s q = some s1 ∧
      removeHeader (s1.updHdr p fun b => { b with hbSz := b.hbSz + c.sz }) (n + b.blocks) = some s2 ∧
      Blocks s2 L' cells {n} ∧ (∀ i, n ∉ L' i) ∧
      s2.index = update s.index (n + b.blocks) .nil ∧
      blkAt s2 = update (update (blkAt s) n (some { b with sz := b.sz + c.sz }))
        (n + b.blocks) none ∧ total s2 + c.sz = total s ∧ counters s2 = counters s := by
  have hpos := (h.layout.blocks hb).blocks_pos
  have hne : n + b.blocks ≠ n := by omega
  have hmem := h.mem_list hc (by simpa using hne) hcfree
  obtain ⟨s1,hs1,hrem,hB1⟩ := h.remove hq hmem
  have hindex := index_of_core hrem.core
  have hblks := blkAt_of_core hrem.core
  have hblk : blk (s1.hdrs p) = b := blk_of_blkAt (n := n) (by rw [hindex,hp]) (by rw [hblks,hb])
  obtain ⟨s2,hs2,hB2,hi2,_,hb2,ht2,hc2⟩ := Blocks.absorb {n} hB1 (p := p) (q := q) (b := b)
    (c := c) (f := fun b => { b with hbSz := b.hbSz + c.sz }) (by rw [hindex,hp]) (by rw [hblks,hb])
    hbfree (by rw [hindex,hq]) (by rw [hblks,hc]) hcfree (fun j hj => hnot j (mem_update_erase hj))
    (not_mem_update_erase h.lists hmem) (by rw [← hblk]; rfl) (by simp)
    (fun m hm => by
      by_cases hmn : m = n + b.blocks
      · exact .inl hmn
      · exact .inr (by simpa [hmn] using hm))
  refine ⟨s1,s2,_,(removeFromFl_eq hq hc).trans hs1,hs2,hB2,
    fun j hj => hnot j (mem_update_erase hj),by rw [hi2,hindex],by rw [hb2,hblks],?_,?_⟩
  · rw [ht2,← szAt_of_blkAt hc]
    exact hrem.total
  · rw [hc2,counters_of_core hrem.core]

theorem mergeWithNext_spec (h : Blocks s L cells ∅) (hp : s.index n = .hdr p) (hb : blkAt s n = some b)
    (hbfree : b.free = true) (hq : s.index (n + b.blocks) = .hdr q)
    (hc : blkAt s (n + b.blocks) = some c) (hcfree : c.free = true) :
    ∃ s' L', mergeWithNext s n p (flOf b.sz) (n + b.blocks) q = some s' ∧ Blocks s' L' cells ∅ ∧
      s'.index = update s.index (n + b.blocks) .nil ∧
      blkAt s' = update (update (blkAt s) n (some { b with sz := b.sz + c.sz }))
        (n + b.blocks) none ∧ total s' = total s ∧ counters s' = counters s := by
  have hpos := (h.layout.blocks hb).blocks_pos
  have hmem := h.mem_list hb (by simp) hbfree
  obtain ⟨s1,hs1,hrem,hB1⟩ := h.remove hp hmem
  rw [insert_empty_eq] at hB1
  have hindex := index_of_core hrem.core
  have hblks := blkAt_of_core hrem.core
  obtain ⟨s2,s3,L3,hs2,hs3,hB3,hnot3,hi3,hb3,ht3,hc3⟩ := takeOver_spec hB1
    (by rw [hindex,hp]) (by rw [hblks,hb]) hbfree (not_mem_update_erase h.lists hmem)
    (by rw [hindex,hq]) (by rw [hblks,hc]) hcfree
  rw [hblks] at hb3
  have hself : blkAt s3 n = some { b with sz := b.sz + c.sz } := by
    rw [hb3,update_of_ne (by omega),update_self]
  have hp3 : s3.index n = .hdr p := by
    rw [hi3,update_of_ne (by omega),hindex,hp]
  obtain ⟨s4,L4,hs4,hB4,hb4,hi4,ht4,hc4⟩ := Blocks.add ∅ (by rwa [insert_empty_eq])
    hp3 hself hbfree hnot3
  have hszn := szAt_of_blkAt hb
  refine ⟨s4,L4,?_,hB4,by rw [hi4,hi3,hindex],by rw [hb4,hb3],?_,?_⟩
  · unfold mergeWithNext
    simp only [hbSz_of_blkAt hq hc,hs1,bind_eq_bind,bind_some,hs2,hs3,hs4]
  · have := hrem.total
    change total s4 = total s3 + (b.sz + c.sz) at ht4
    omega
  · rw [hc4,hc3,counters_of_core hrem.core]

section Predecessor

theorem findStartingHblk_used (h : Blocks s L cells off) (hb : blkAt s n = some b)
    (hused : b.free = false) {fuel i : Nat} (hi : i < b.blocks) {r : Nat × Nat}
    (hr : findStartingHblk s fuel (n + i) = some r) : r.1 = n := by
  induction fuel generalizing i with
  | zero => simp [findStartingHblk] at hr
  | succ fuel ih =>
    rw [findStartingHblk] at hr
    by_cases h0 : i = 0
    · obtain ⟨p,hp,_⟩ := blkAt_eq_some.mp hb
      rw [h0,Nat.add_zero,hp] at hr
      cases hr
      rfl
    · have hfill := (h.layout.blocks hb).fill i (by omega) hi
      rw [Blk.fill,hused] at hfill
      rw [hfill] at hr
      simp only [Bool.false_eq_true,if_false] at hr
      rw [show n + i - min i maxJump = n + (i - min i maxJump) by omega] at hr
      exact ih (by omega) hr

theorem freeBlockEndingAt_spec (h : Blocks s L cells off) (hb : blkAt s n = some b)
    (hm : freeBlockEndingAt s n = some m) :
    ∃ q c, s.index m = .hdr q ∧ blkAt s m = some c ∧ c.free = true ∧ m + c.blocks = n := by
  have hlow := h.layout.low_start hb
  unfold freeBlockEndingAt at hm
  obtain ⟨k,hk,hm⟩ := bind_eq_some_iff.mp hm
  obtain ⟨hhdr,hhk,hm⟩ := bind_eq_some_iff.mp hm
  split at hm
  case isFalse => cases hm
  rename_i hfree
  cases hm
  obtain ⟨q,hq,rfl⟩ := hdrAt_eq_some.mp hhk
  have hc := blkAt_of_index hq
  have hcfree : (blk (s.hdrs q)).free = true := hfree
  refine ⟨q,blk (s.hdrs q),hq,hc,hcfree,?_⟩
  have hwhole := blocks_mul_of_dvd ((h.layout.blocks hc).whole hcfree)
  unfold getBlockEndingAt at hk
  split at hk
  · obtain ⟨k',_,hk⟩ := bind_eq_some_iff.mp hk
    obtain ⟨hhdr,hhk',hk⟩ := bind_eq_some_iff.mp hk
    split at hk
    case isFalse => cases hk
    rename_i heq
    cases hk
    rw [hhk] at hhk'
    cases hhk'
    change m * hblkSize + (blk (s.hdrs q)).sz = n * hblkSize at heq
    rw [← hwhole] at heq
    unfold hblkSize at heq
    omega
  · rename_i hnil
    obtain ⟨r,hr,rfl⟩ := map_eq_some_iff.mp hk
    have hmem : n - 1 ∈ cells := by
      by_contra hout
      exact hnil (h.layout.outside _ hout)
    obtain ⟨start,l,hl,hle,hlt⟩ := (h.layout.tiles.covers _).mp hmem
    obtain ⟨d,hd,rfl⟩ := map_eq_some_iff.mp hl
    cases hdfree : d.free with
    | false =>
      have hstart := findStartingHblk_used h hd hdfree (i := n - 1 - start) (by omega)
        (by rwa [Nat.add_sub_cancel' hle])
      rw [← hstart,hc] at hd
      cases hd
      exact absurd (hcfree.symm.trans hdfree) (by decide)
    | true =>
      have hstart : start = n - 1 := by
        by_contra hne
        apply hnil
        have := h.layout.fill_nil hd hdfree (i := n - 1 - start) (by omega) (by omega)
        rwa [Nat.add_sub_cancel' hle] at this
      obtain ⟨p,hp,_⟩ := blkAt_eq_some.mp hd
      have hr1 : r.1 = n - 1 := by
        cases n with
        | zero => omega
        | succ k =>
          rw [findStartingHblk,← hstart,hp] at hr
          cases hr
          exact hstart
      rw [hr1] at hc ⊢
      have hapart := h.layout.tiles.apart (Layout.len_eq hc) (Layout.len_eq hb) (by omega)
      have hpos := (h.layout.blocks hc).blocks_pos
      omega

end Predecessor

section Freeing

section

variable (h : Blocks s L cells {n}) (hp : s.index n = .hdr p) (hb : blkAt s n = some b) (hfree : b.free = true)
  (hnot : ∀ i, n ∉ L i)
include h hp hb hfree hnot

theorem coalesceNext_spec :
    ∃ s' L' b', coalesceNext s n p = some s' ∧ Blocks s' L' cells {n} ∧ s'.index n = .hdr p ∧
      blkAt s' n = some b' ∧ b'.free = true ∧ (∀ i, n ∉ L' i) ∧
      (∀ m, m < n → s'.index m = s.index m ∧ blkAt s' m = blkAt s m) ∧
      total s' + b'.sz = total s + b.sz ∧ counters s' = counters s := by
  have hok := h.layout.blocks hb
  have hpos := hok.blocks_pos
  have hstay : ∃ s' L' b', some s = some s' ∧ Blocks s' L' cells {n} ∧ s'.index n = .hdr p ∧
      blkAt s' n = some b' ∧ b'.free = true ∧ (∀ i, n ∉ L' i) ∧
      (∀ m, m < n → s'.index m = s.index m ∧ blkAt s' m = blkAt s m) ∧
      total s' + b'.sz = total s + b.sz ∧ counters s' = counters s :=
    ⟨s,L,b,rfl,h,hp,hb,hfree,hnot,fun _ _ => ⟨rfl,rfl⟩,rfl,rfl⟩
  unfold coalesceNext
  simp only [hbSz_of_blkAt hp hb,divHblksz_eq_blocks (hok.whole hfree)]
  rcases h.layout.behind hb with hnil | ⟨c,hc⟩
  · rw [hnil]
    exact hstay
  · obtain ⟨q,hq,hcq⟩ := blkAt_eq_some.mp hc
    rw [hq]
    dsimp only
    split
    · rename_i hcond
      have hcfree : c.free = true := by
        rw [← isFree_of_blkAt hq hc]
        simp only [Bool.and_eq_true] at hcond
        exact hcond.1.1
      obtain ⟨s1,s2,L',hs1,hs2,hB2,hnot2,hi2,hb2,ht2,hc2⟩ :=
        takeOver_spec h hp hb hfree hnot hq hc hcfree
      refine ⟨s2,L',{ b with sz := b.sz + c.sz },?_,hB2,?_,?_,hfree,hnot2,fun m hm => ?_,?_,hc2⟩
      · simp only [hs1,bind_eq_bind,bind_some,hbSz_of_blkAt hq hc]
        exact hs2
      · rw [hi2,update_of_ne (by omega),hp]
      · rw [hb2,update_of_ne (by omega),update_self]
      · rw [hi2,hb2,update_of_ne (by omega),update_of_ne (by omega),
          update_of_ne (by omega)]
        exact ⟨rfl,rfl⟩
      · change total s2 + (b.sz + c.sz) = _
        omega
    · exact hstay

theorem coalescePrev_spec {prev : Option Nat}
    (hprev : ∀ m, prev = some m → ∃ q c, s.index m = .hdr q ∧ blkAt s m = some c ∧ c.free = true ∧
      m + c.blocks = n) :
    ∃ n' p' s' L' b', coalescePrev s prev n p = some (n', p', s') ∧ Blocks s' L' cells {n'} ∧
      s'.index n' = .hdr p' ∧ blkAt s' n' = some b' ∧ b'.free = true ∧ (∀ i, n' ∉ L' i) ∧
      total s' + b'.sz = total s + b.sz ∧ counters s' = counters s := by
  cases prev with
  | none => exact ⟨n,p,s,L,b,rfl,h,hp,hb,hfree,hnot,rfl,rfl⟩
  | some m =>
    obtain ⟨q,c,hq,hc,hcfree,rfl⟩ := hprev m rfl
    have hpos := (h.layout.blocks hc).blocks_pos
    unfold coalescePrev
    simp only [hq]
    split
    · have hmem := h.mem_list hc (by simp; omega) hcfree
      obtain ⟨s1,hs1,hrem,hB1⟩ := h.remove hq hmem
      have hindex := index_of_core hrem.core
      have hblks := blkAt_of_core hrem.core
      have hblk : blk (s1.hdrs q) = c := blk_of_blkAt (n := m) (by rw [hindex,hq]) (by rw [hblks,hc])
      obtain ⟨s2,hs2,hB2,hi2,_,hb2,ht2,hc2⟩ := Blocks.absorb {m} hB1 (p := q) (q := p) (b := c)
        (c := b) (f := fun hhdr => { hhdr with hbSz := hhdr.hbSz + b.sz, hbLastReclaimed := s1.gcNoShort })
        (by rw [hindex,hq]) (by rw [hblks,hc]) hcfree (by rw [hindex,hp]) (by rw [hblks,hb]) hfree
        (not_mem_update_erase h.lists hmem) (fun j hj => hnot j (mem_update_erase hj))
        (by rw [← hblk]; rfl) (by simp)
        (fun k hk => by
          by_cases hkn : k = m + c.blocks
          · exact .inl hkn
          · exact .inr (by simpa [hkn] using hk))
      refine ⟨m,q,s2,_,{ c with sz := c.sz + b.sz },?_,hB2,?_,?_,hcfree,
        not_mem_update_erase h.lists hmem,?_,?_⟩
      · simp only [removeFromFl_eq hq hc,hs1,bind_eq_bind,bind_some,
          hbSz_of_blkAt hp hb,hs2]
      · rw [hi2,update_of_ne (by omega),hindex,hq]
      · rw [hb2,update_of_ne (by omega),update_self]
      · have := hrem.total
        rw [szAt_of_blkAt hc] at this
        change total s2 + (c.sz + b.sz) = _
        omega
      · rw [hc2,counters_of_core hrem.core]
    · exact ⟨m + c.blocks,p,s,L,b,rfl,h,hp,hb,hfree,hnot,rfl,rfl⟩

theorem linkFreed_spec (size : Nat) :
    ∃ s' L', linkFreed s n p size = some s' ∧ Blocks s' L' cells ∅ ∧ total s' = total s + b.sz ∧
      counters s' = (s.largeFreeBytes + size, s.heapsize, s.heapSects) := by
  obtain ⟨s1,L1,b1,hs1,hB1,hp1,hb1,hfree1,hnot1,hbelow,ht1,hc1⟩ :=
    coalesceNext_spec h hp hb hfree hnot
  have hprev : ∀ m, freeBlockEndingAt s n = some m → ∃ q c, s1.index m = .hdr q ∧
      blkAt s1 m = some c ∧ c.free = true ∧ m + c.blocks = n := by
    intro m hm
    obtain ⟨q,c,hq,hc,hcfree,hend⟩ := freeBlockEndingAt_spec h hb hm
    have hlt : m < n := by
      have := (h.layout.blocks hc).blocks_pos
      omega
    rw [(hbelow m hlt).1,(hbelow m hlt).2]
    exact ⟨q,c,hq,hc,hcfree,hend⟩
  obtain ⟨n2,p2,s2,L2,b2,hs2,hB2,hp2,hb2,hfree2,hnot2,ht2,hc2⟩ :=
    coalescePrev_spec hB1 hp1 hb1 hfree1 hnot1 hprev
  let s3 : Heap := { s2 with largeFreeBytes := s2.largeFreeBytes + size }
  have hB3 : Blocks s3 L2 cells {n2} := hB2.congr rfl rfl rfl rfl rfl rfl
  obtain ⟨s4,L4,hs4,hB4,_,_,ht4,hc4⟩ := Blocks.add (s := s3) ∅
    (by rwa [insert_empty_eq]) hp2 hb2 hfree2 hnot2
  have hcount := hc2.trans hc1
  simp only [counters,Prod.mk.injEq] at hcount
  refine ⟨s4,L4,?_,hB4,?_,?_⟩
  · unfold linkFreed
    simp only [hs1,bind_eq_bind,bind_some,hs2]
    exact hs4
  · change total s4 = total s2 + b2.sz at ht4
    omega
  · rw [hc4]
    simp only [counters,s3,hcount]

end

end Freeing

end GcUtil.Block.Coalescing
