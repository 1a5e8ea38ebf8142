import GcUtil.Block.Reserving

/-! Allocating in a free block: `GC_split_block` leaves the upper part on the list of
the whole block, from where `GC_get_first_part` takes it. -/
namespace GcUtil.Block.Splitting
open Function Option
open Basic Headers FreeLists Allocator HeaderTable LinkedLists BlockMap JointInvariant Coalescing Reserving

variable {s s' : Heap} {n p q i k : Nat} {L : Nat → List Nat} {cells : Finset Nat} {b c : Blk}

theorem blk_setFree (hhdr : Hdr) : blk (setFree hhdr) = { blk hhdr with free := true } := rfl

/-- `s'` is `s` with a header for the hblk `m` that nothing describes yet. -/
structure Installed (s s' : Heap) (L : Nat → List Nat) (m q : Nat) : Prop where
  hdrs : HdrsOk s'
  index : s'.index = Function.update s.index m (.hdr q)
  lists : Lists s' L
  blks : ∃ c, blkAt s' = Function.update (blkAt s) m (some c)
  total : total s' = total s
  counters : counters s' = counters s

theorem installed_installHeader (h : Blocks s L cells ∅) {m : Nat} (hm : blkAt s m = none) :
    Installed s (installHeader s m).2 L m (newHdr s) where
  hdrs := h.hdrs.installHeader m
  index := installHeader_index s m
  lists := h.lists.installHeader h.hdrs (blkAt_eq_none.mp hm)
  blks := ⟨_,blkAt_installHeader h.hdrs m⟩
  total := (installHeader_total s m).1
  counters := (installHeader_total s m).2

theorem Installed.call {m : Nat} (h : Installed s s' L m q) (calls : List MapCall) :
    Installed s (s'.call calls) L m q :=
  ⟨h.hdrs.congr (fun _ _ hx => hx) rfl rfl,h.index,h.lists.frame_hdrAt rfl rfl fun _ _ _ => rfl,h.blks,
    h.total,h.counters⟩

theorem Installed.setUnmapped {m : Nat} (h : Installed s s' L m q) (hp : s'.index n = .hdr p)
    (unmapped : Bool) : Installed s (setUnmapped s' p unmapped) L m q := by
  have hsame : blkAt (Allocator.setUnmapped s' p unmapped) = blkAt s' := by
    unfold Allocator.setUnmapped
    rw [blkAt_updHdr h.hdrs hp,← update_eq_self n (blkAt s'),blkAt_of_index hp,
      update_idem]
    rfl
  refine ⟨h.hdrs.updHdr p _,h.index,h.lists.updHdr_keep h.hdrs hp rfl rfl rfl,?_,h.total,h.counters⟩
  rw [hsame]
  exact h.blks

/-- `t` is `s` with the upper part of the free block `n` in its place on the list, and the lower
part, whose header is as before, on no list. -/
structure Relinked (s t : Heap) (L : Nat → List Nat) (l : List Nat) (b : Blk) (n k q : Nat) : Prop where
  hdrs : HdrsOk t
  index : t.index = Function.update s.index (n + k) (.hdr q)
  blks : blkAt t = Function.update (blkAt s) (n + k) (some ⟨n + k, b.sz - k * hblkSize, false⟩)
  lists : Lists t (Function.update L (flOf b.sz) l)
  upper : n + k ∈ l
  lower : n ∉ l
  others : ∀ x, x ≠ n + k → x ≠ n → (x ∈ l ↔ x ∈ L (flOf b.sz))
  total : total t + k * hblkSize = total s
  counters : counters t = counters s

def lowerHdr (t : Heap) (k : Nat) (hhdr : Hdr) : Hdr :=
  { hhdr with hbLastReclaimed := t.gcNoShort, hbSz := k * hblkSize }

section Split

variable (h : Blocks s L cells ∅) (hp : s.index n = .hdr p) (hb : blkAt s n = some b) (hfree : b.free = true)
  (hk : 0 < k) (hlt : k < b.blocks)
include h hp hb hfree hk hlt

theorem splitBlock_relinked (hinst : Installed s s' L (n + k) q) :
    ∃ t l, Relinked s t L l b n k q ∧ splitBlock s' n p (n + k) q (flOf b.sz) =
      (addToFl (t.updHdr p (lowerHdr t k)) n p).bind fun u => some (u.updHdr q setFree) := by
  obtain ⟨junk,hblks⟩ := hinst.blks
  have hkn : n + k ≠ n := by omega
  have hp2 : s'.index n = .hdr p := by rw [hinst.index,update_of_ne hkn.symm,hp]
  have hq2 : s'.index (n + k) = .hdr q := by rw [hinst.index,update_self]
  have hsz2 := hbSz_of_blkAt hp2 (show blkAt s' n = some b by rw [hblks,update_of_ne hkn.symm,hb])
  have hSize : (n + k - n) * hblkSize = k * hblkSize := by rw [Nat.add_sub_cancel_left]
  have hle : k * hblkSize ≤ b.sz := by
    rw [← blocks_mul_of_dvd ((h.layout.blocks hb).whole hfree)]
    exact Nat.mul_le_mul_right _ hlt.le
  have hmem : n ∈ L (flOf b.sz) := h.mem_list hb (by simp) hfree
  have hunlisted : ∀ j, n + k ∉ L j := by
    intro j hj
    have := h.lists.isBlock hj
    simp [blkAt_eq_none.mp (h.layout.interior_none hb hk hlt)] at this
  let g : Hdr → Hdr := fun hhdr => { hhdr with
    hbPrev := (s'.hdrs p).hbPrev
    hbNext := (s'.hdrs p).hbNext
    hbBlock := n + k
    hbSz := b.sz - k * hblkSize
    hbFlags := noFlags }
  let t1 := s'.updHdr q g
  have hok1 : HdrsOk t1 := hinst.hdrs.updHdr q g
  have hL1 : Lists t1 L := hinst.lists.updHdr_off hinst.hdrs hq2 hunlisted g
  have hq1 : t1.index (n + k) = .hdr q := hq2
  have hnext1 : nextAt t1 = update (nextAt s') (n + k) (s'.hdrs p).hbNext :=
    nextAt_updHdr hinst.hdrs hq2 g
  have hprev1 : prevAt t1 = update (prevAt s') (n + k) (s'.hdrs p).hbPrev :=
    prevAt_updHdr hinst.hdrs hq2 g
  have hblks1 : blkAt t1 = update (blkAt s) (n + k)
      (some ⟨n + k,b.sz - k * hblkSize,false⟩) := by
    rw [blkAt_updHdr hinst.hdrs hq2,hblks,update_idem]
    rfl
  have hn1 : nextAt t1 n = (s'.hdrs p).hbNext := by
    rw [hnext1,update_of_ne hkn.symm,nextAt_of_index hp2]
  have hv1 : prevAt t1 n = (s'.hdrs p).hbPrev := by
    rw [hprev1,update_of_ne hkn.symm,prevAt_of_index hp2]
  have hb1 : blkAt t1 n = some b := by rw [hblks1,update_of_ne hkn.symm,hb]
  have hm1 : blkAt t1 (n + k) = some ⟨n + k,b.sz - k * hblkSize,false⟩ := by
    rw [hblks1,update_self]
  obtain ⟨t2,t3,l,ht2,ht3,hml,hnl,hkeep,hc3,htot3,hd3,hL4⟩ :=
    replace_spec hok1 hL1 hmem hunlisted (by simp [hdrAt_of_index hq1])
      (by rw [hn1,hnext1,update_self]) (by rw [hv1,hprev1,update_self])
      (d := k * hblkSize) (by rw [szAt_of_blkAt hm1,szAt_of_blkAt hb1]; exact Nat.sub_add_cancel hle)
  rw [hv1] at ht2
  rw [hn1] at ht3
  let t4 : Heap := { t3 with
    freeBytes := update t3.freeBytes (flOf b.sz) (t3.freeBytes (flOf b.sz) - k * hblkSize) }
  have hc4 : core t4 = core t1 := hc3
  refine ⟨t4,l,⟨hdrsOk_of_core hc4 hok1,?_,?_,hL4,hml,hnl,hkeep,?_,?_⟩,?_⟩
  · rw [index_of_core hc4]
    exact hinst.index
  · rw [blkAt_of_core hc4,hblks1]
  · have ht4 : total t4 + _ = total t3 + _ := total_update (h.lists.range hmem) rfl
    have ht1 : total t1 = total s := hinst.total
    omega
  · rw [counters_of_core hc4]
    exact hinst.counters
  · unfold splitBlock
    simp only [hSize,hsz2]
    change (linkNext t1 (flOf b.sz) _ _).bind _ = _
    rw [ht2,bind_some]
    change (linkPrev t2 _ _).bind _ = _
    rw [ht3,bind_some]
    rfl

theorem splitBlock_spec (hinst : Installed s s' L (n + k) q) :
    ∃ t L', splitBlock s' n p (n + k) q (flOf b.sz) = some t ∧ Blocks t L' cells {n + k} ∧
      n + k ∈ L' (flOf b.sz) ∧ t.index (n + k) = .hdr q ∧
      blkAt t (n + k) = some ⟨n + k, b.sz - k * hblkSize, true⟩ ∧ total t = total s ∧
      counters t = counters s := by
  obtain ⟨t,l,hrel,hsplit⟩ := splitBlock_relinked h hp hb hfree hk hlt hinst
  have hself := (h.layout.blocks hb).self
  have hkn : n + k ≠ n := by omega
  have hpt : t.index n = .hdr p := by rw [hrel.index,update_of_ne hkn.symm,hp]
  have hoff : ∀ j, n ∉ update L (flOf b.sz) l j := by
    intro j hj
    rw [update_apply] at hj
    split at hj
    · exact hrel.lower hj
    · rename_i hji
      exact hji (h.lists.disjoint hj (h.mem_list hb (by simp) hfree))
  let t5 := t.updHdr p (lowerHdr t k)
  have hok5 : HdrsOk t5 := hrel.hdrs.updHdr p _
  have hp5 : t5.index n = .hdr p := hpt
  obtain ⟨t6,ht6,hadd⟩ := addToFl_spec hok5 (hrel.lists.updHdr_off hrel.hdrs hpt hoff _) hp5 hoff
  have hblk : blk (t.hdrs p) = b := blk_of_blkAt hpt (by rw [hrel.blks,update_of_ne hkn.symm,hb])
  have hhdr5 : t5.hdrs p = lowerHdr t k (t.hdrs p) := updHdr_hdrs_self t p _
  have hsz5 : (t5.hdrs p).hbSz = k * hblkSize := by rw [hhdr5]; rfl
  have hblk5 : blk (setFree (t5.hdrs p)) = ⟨n,k * hblkSize,true⟩ := by
    rw [hhdr5,← hself,← hblk]
    rfl
  have hblks6 : blkAt t6 = update (update (blkAt s) (n + k)
      (some ⟨n + k,b.sz - k * hblkSize,false⟩)) n (some ⟨n,k * hblkSize,true⟩) := by
    rw [blkAt_of_core hadd.core,blkAt_updHdr hok5 hp5,hblk5,blkAt_updHdr hrel.hdrs hpt,update_idem,hrel.blks]
  have hok6 := hdrsOk_of_core hadd.core (hok5.updHdr p setFree)
  have hindex6 : t6.index = update s.index (n + k) (.hdr q) := by
    rw [index_of_core hadd.core,updHdr_index,updHdr_index,hrel.index]
  have hq6 : t6.index (n + k) = .hdr q := by rw [hindex6,update_self]
  have hblk6 : blk (t6.hdrs q) = ⟨n + k,b.sz - k * hblkSize,false⟩ :=
    blk_of_blkAt hq6 (by rw [hblks6,update_of_ne hkn,update_self])
  have hblks7 : blkAt (t6.updHdr q setFree) = update (update (blkAt s) n
      (some { b with sz := k * hblkSize })) (n + k) (some ⟨n + k,b.sz - k * hblkSize,true⟩) := by
    have hfirst : { b with sz := k * hblkSize } = (⟨n,k * hblkSize,true⟩ : Blk) := by
      rw [← hself,← hfree]
    rw [blkAt_updHdr hok6 hq6,blk_setFree,hblk6,hblks6,update_comm hkn,
      update_idem,hfirst]
  refine ⟨t6.updHdr q setFree,_,by rw [hsplit,ht6,bind_some],
    ⟨hok6.updHdr q _,?_,hadd.lists.updHdr_keep hok6 hq6 rfl rfl rfl,?_⟩,?_,hq6,?_,?_,?_⟩
  · change Layout t6.index _ _
    rw [hindex6,hblks7]
    exact h.layout.split hb hfree hk hlt q
  · intro x c hc hx j
    have hxm : x ≠ n + k := by simpa using hx
    rw [hblks7,update_of_ne hxm,update_apply] at hc
    split at hc
    · rename_i hxn
      cases hc
      subst hxn
      rw [mem_update_cons_self hoff,hsz5]
      simp [hfree]
    · rename_i hxn
      rw [mem_update_cons_iff hxn,update_apply]
      split
      · rename_i hj
        rw [hrel.others x hxm hxn,hj]
        exact h.placed hc (by simp) (flOf b.sz)
      · exact h.placed hc (by simp) j
  · rw [mem_update_cons_iff hkn,update_self]
    exact hrel.upper
  · rw [hblks7,update_self]
  · have htotal := hadd.total
    rw [hsz5] at htotal
    exact htotal.trans hrel.total
  · change counters t6 = _
    rw [counters_of_core hadd.core]
    exact hrel.counters

end Split

section Taking

variable {req : Request}

theorem takeFirst_spec (env : AllocEnv) (h : Blocks s L cells {n}) (hp : s.index n = .hdr p) (hb : blkAt s n = some b)
    (hfree : b.free = true) (hmem : n ∈ L i) (hneed : 0 < req.lbAdjusted)
    (hle : objSzToBlocks req.lbAdjusted ≤ b.blocks) (hfits : req.sizeNeeded < sizetSignb) :
    ∃ t L', getFirstPart s n p req.sizeNeeded i = some t ∧
      Blocks (setupHeader env (installCounts t n req.sizeNeeded) p n req.lbAdjusted req.kind
        req.ignoreOffPage) L' cells ∅ ∧ total t + req.sizeNeeded = total s ∧ counters t = counters s := by
  obtain ⟨t,L',ht,hres,htotal,hcount⟩ := getFirstPart_spec h hp hb hfree hmem
    (objSzToBlocks_pos hneed) hle
  exact ⟨t,L',ht,(hres.installCounts rfl hfits).setupHeader_used env _ _,htotal,hcount⟩

theorem remapBlock_spec {off : Set Nat} (h : Blocks s L cells off) (hp : s.index n = .hdr p) :
    Blocks (remapBlock s n p) L cells off ∧ (remapBlock s n p).index = s.index ∧
      blkAt (remapBlock s n p) = blkAt s ∧ total (remapBlock s n p) = total s ∧
      counters (remapBlock s n p) = counters s := by
  unfold remapBlock
  split
  · exact ⟨h,rfl,rfl,rfl,rfl⟩
  · have := (h.call [.remap (n * hblkSize) (s.hdrs p).hbSz]).setUnmapped hp false
    exact ⟨this.1,rfl,this.2,rfl,rfl⟩

theorem Installed.remapBlock {m : Nat} (h : Installed s s' L m q) (hp : s'.index n = .hdr p) :
    Installed s (remapBlock s' n p) L m q := by
  unfold Allocator.remapBlock
  split
  · exact h
  · exact (h.call [.remap (n * hblkSize) (s'.hdrs p).hbSz]).setUnmapped hp false

theorem splitAt_spec (h : Blocks s L cells ∅) (hp : s.index n = .hdr p) (hb : blkAt s n = some b)
    (hfree : b.free = true) (hlt : k < b.blocks) :
    ∃ r t L' c, splitAt s n p (n + k) (flOf b.sz) = some (r, t) ∧ Blocks t L' cells {n + k} ∧
      t.index (n + k) = .hdr r ∧ blkAt t (n + k) = some c ∧ c.free = true ∧
      n + k ∈ L' (flOf b.sz) ∧ c.blocks = b.blocks - k ∧ total t = total s ∧
      counters t = counters s := by
  unfold splitAt
  by_cases hk : k = 0
  · subst hk
    exact ⟨p,s,L,b,by simp,h.mono {n} fun m _ => .inl (by simp),hp,hb,hfree,
      h.mem_list hb (by simp) hfree,rfl,rfl,rfl⟩
  · have hinst := installed_installHeader h (h.layout.interior_none hb (by omega) hlt)
    have hp1 : (installHeader s (n + k)).2.index n = .hdr p := by
      rw [hinst.index,update_of_ne (by omega),hp]
    obtain ⟨t,L',ht,hB,hmem,hq,hblk,htotal,hcount⟩ :=
      splitBlock_spec h hp hb hfree (by omega) hlt (hinst.remapBlock hp1)
    refine ⟨newHdr s,t,L',_,?_,hB,hq,hblk,rfl,hmem,?_,htotal,hcount⟩
    · simp only [Nat.add_eq_left,hk,if_false,installHeader_fst,ht,map_some]
    · change objSzToBlocks (b.sz - k * hblkSize) = _
      rw [← blocks_mul_of_dvd ((h.layout.blocks hb).whole hfree),← Nat.sub_mul]
      exact objSzToBlocks_mul _

theorem takeBlock_spec (env : AllocEnv) (h : Blocks s L cells ∅) (hb : blkAt s n = some b) (hfree : b.free = true)
    (hneed : 0 < req.lbAdjusted) (hle : k + objSzToBlocks req.lbAdjusted ≤ b.blocks)
    (hfits : req.sizeNeeded < sizetSignb) :
    ∃ t L', takeBlock env req (flOf b.sz) n (n + k) s = some (n + k, t) ∧ Blocks t L' cells ∅ ∧
      total t + req.sizeNeeded = total s ∧
      counters t = (s.largeFreeBytes - req.sizeNeeded, s.heapsize, s.heapSects) := by
  obtain ⟨p,hp,_⟩ := blkAt_eq_some.mp hb
  have hpos := objSzToBlocks_pos hneed
  obtain ⟨r,s1,L1,c,hs1,hB1,hr1,hc1,hcfree,hmem1,hlen1,ht1,hcnt1⟩ :=
    splitAt_spec h hp hb hfree (by omega : k < b.blocks)
  obtain ⟨hB2,hi2,hb2,ht2,hcnt2⟩ := remapBlock_spec hB1 hr1
  obtain ⟨t,L',ht,hB,htotal,hcount⟩ := takeFirst_spec env hB2 (by rw [hi2,hr1])
    (by rw [hb2,hc1]) hcfree hmem1 hneed (by omega) hfits
  have hcounts := (installCounts_total t (n + k) req.sizeNeeded)
  have hall := (hcounts.2.trans hcount).trans (hcnt2.trans hcnt1)
  simp only [counters,Prod.mk.injEq] at hall
  let u := setupHeader env (installCounts t (n + k) req.sizeNeeded) r (n + k) req.lbAdjusted req.kind
    req.ignoreOffPage
  refine ⟨{ u with largeFreeBytes := u.largeFreeBytes - req.sizeNeeded },L',?_,
    hB.congr rfl rfl rfl rfl rfl rfl,?_,?_⟩
  · unfold takeBlock
    simp only [hp,hs1,bind_eq_bind,bind_some,ht]
    rfl
  · change total (installCounts t (n + k) req.sizeNeeded) + _ = _
    omega
  · change ((installCounts t (n + k) req.sizeNeeded).largeFreeBytes - req.sizeNeeded, _, _) = _
    simp only [hall,Prod.mk.injEq,true_and]
    exact hall.2

end Taking

end GcUtil.Block.Splitting
