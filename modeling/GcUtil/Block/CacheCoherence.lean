import GcUtil.Block.Runs

/-! The header cache in front of the index. An operation either drops the cache or
changes nothing that a cached answer depends on, so a hit is always what the miss
handler would find. -/
namespace GcUtil.Block.CacheCoherence
open Basic Headers FreeLists Allocator HeaderTable Searching Runs Library.Outcome Function Option

variable {s s' t u : Heap} {n p q i k fuel : Nat} {env : AllocEnv} {req : Request}

/-- The index and the cache are the same and no block in use has become free. -/
structure Quiet (s s' : Heap) : Prop where
  index : s'.index = s.index
  cache : s'.hdrCache = s.hdrCache
  used : ∀ p, (s.hdrs p).isFree = false → (s'.hdrs p).isFree = false

def Safe (s s' : Heap) : Prop :=
  s.index 0 = .nil → s'.index 0 = .nil ∧ (s'.hdrCache = zeroHdrCache ∨ Quiet s s')

section Relations

theorem Quiet.refl (s : Heap) : Quiet s s := ⟨rfl,rfl,fun _ => id⟩

theorem Quiet.trans (h : Quiet s t) (h' : Quiet t u) : Quiet s u where
  index := h'.index.trans h.index
  cache := h'.cache.trans h.cache
  used p hp := h'.used p (h.used p hp)

theorem Quiet.safe (h : Quiet s s') : Safe s s' := fun h0 => ⟨by rw [h.index,h0],.inr h⟩

theorem Safe.refl (s : Heap) : Safe s s := (Quiet.refl s).safe

theorem Safe.trans (h : Safe s t) (h' : Safe t u) : Safe s u := by
  intro h0
  obtain ⟨ht0,ht⟩ := h h0
  obtain ⟨hu0,hu⟩ := h' ht0
  refine ⟨hu0,?_⟩
  rcases hu with hzero | hquiet
  · exact .inl hzero
  · rcases ht with hzero | hquiet'
    · exact .inl (hquiet.cache.trans hzero)
    · exact .inr (hquiet'.trans hquiet)

theorem safe_of_zero (hindex : s.index 0 = .nil → s'.index 0 = .nil)
    (hzero : s'.hdrCache = zeroHdrCache) : Safe s s' :=
  fun h0 => ⟨hindex h0,.inl hzero⟩

/-- What happens after the cache was dropped is safe if it leaves index and cache alone. -/
theorem Safe.still (h : Safe s t) (hzero : t.hdrCache = zeroHdrCache) (hindex : u.index = t.index)
    (hcache : u.hdrCache = t.hdrCache) : Safe s u :=
  fun h0 => ⟨by rw [hindex,(h h0).1],.inl (hcache.trans hzero)⟩

theorem Safe.trans_still {v : Heap} (h : Safe s t) (hzero : t.hdrCache = zeroHdrCache) (h' : Safe u v)
    (hindex : u.index = t.index) (hcache : u.hdrCache = t.hdrCache) : Safe s v :=
  (h.still hzero hindex hcache).trans h'

theorem quiet_updHdr (s : Heap) (p : Nat) (f : Hdr → Hdr)
    (h : ∀ b, b.isFree = false → (f b).isFree = false) : Quiet s (s.updHdr p f) where
  index := rfl
  cache := rfl
  used q hq := by
    by_cases hqp : q = p
    · rw [hqp,updHdr_hdrs_self]
      exact h _ (hqp ▸ hq)
    · rwa [updHdr_hdrs_of_ne s f hqp]

theorem ne_zero_of_hdr (h0 : s.index 0 = .nil) (hn : s.index n = .hdr p) : n ≠ 0 := by
  rintro rfl
  rw [h0] at hn
  cases hn

end Relations

section Headers

theorem installHeader_zero (s : Heap) (h : Nat) : (installHeader s h).2.hdrCache = zeroHdrCache := by
  obtain ⟨keys,heq⟩ := installHeader_eq s h
  rw [heq]

theorem installHeader_safe (hn : s.index 0 = .nil → n ≠ 0) : Safe s (installHeader s n).2 := by
  apply safe_of_zero _ (installHeader_zero s n)
  intro h0
  rw [installHeader_index,update_of_ne (hn h0).symm,h0]

theorem removeHeader_safe (h : removeHeader s n = some s') :
    Safe s s' ∧ s'.hdrCache = zeroHdrCache := by
  unfold removeHeader at h
  split at h
  · cases h
    refine ⟨safe_of_zero (fun h0 => ?_) rfl,rfl⟩
    change update s.index n .nil 0 = .nil
    rw [update_apply]
    split
    · rfl
    · exact h0
  · cases h

theorem installCounts_safe (s : Heap) (h sz : Nat) :
    Safe s (installCounts s h sz) ∧ (installCounts s h sz).hdrCache = zeroHdrCache := by
  obtain ⟨keys,heq⟩ := installCounts_eq s h sz
  rw [heq]
  refine ⟨safe_of_zero (fun h0 => ?_) rfl,rfl⟩
  dsimp only
  rw [if_neg (by omega),h0]

theorem removeCounts_safe (s : Heap) (h sz : Nat) :
    Safe s (removeCounts s h sz) ∧ (removeCounts s h sz).hdrCache = zeroHdrCache := by
  have hstay : Safe s s.invalidateHdrCache ∧ s.invalidateHdrCache.hdrCache = zeroHdrCache :=
    ⟨safe_of_zero id rfl,rfl⟩
  unfold removeCounts
  dsimp only
  split
  · exact hstay
  · split
    · exact hstay
    · rw [nilLoop_eq]
      refine ⟨safe_of_zero (fun h0 => ?_) rfl,rfl⟩
      dsimp only
      rw [if_neg (by omega)]
      exact h0

end Headers

section Lists

theorem updAt_quiet {f : Hdr → Hdr} (h : s.updAt n f = some s')
    (hf : ∀ b, b.isFree = false → (f b).isFree = false) : Quiet s s' := by
  unfold Heap.updAt at h
  split at h
  · cases h
    exact quiet_updHdr s _ f hf
  · cases h

theorem linkNext_quiet {prev target : Option Nat} (h : linkNext s i prev target = some s') :
    Quiet s s' := by
  unfold linkNext at h
  split at h
  · cases h
    exact ⟨rfl,rfl,fun _ => id⟩
  · exact updAt_quiet h fun _ => id

theorem linkPrev_quiet {next target : Option Nat} (h : linkPrev s next target = some s') :
    Quiet s s' := by
  unfold linkPrev at h
  split at h
  · cases h
    exact Quiet.refl s
  · exact updAt_quiet h fun _ => id

theorem removeFromFlAt_quiet (h : removeFromFlAt s p i = some s') : Quiet s s' := by
  unfold removeFromFlAt at h
  obtain ⟨t,ht,h⟩ := bind_eq_some_iff.mp h
  have hmid : Quiet t { t with
    freeBytes := update t.freeBytes i (t.freeBytes i - (s.hdrs p).hbSz) } := ⟨rfl,rfl,fun _ => id⟩
  exact ((linkNext_quiet ht).trans hmid).trans (linkPrev_quiet h)

theorem addToFl_still (h : addToFl s n p = some s') : s'.index = s.index ∧ s'.hdrCache = s.hdrCache := by
  unfold addToFl at h
  obtain ⟨t,ht,h⟩ := bind_eq_some_iff.mp h
  cases h
  have hquiet := linkPrev_quiet ht
  exact ⟨hquiet.index,hquiet.cache⟩

theorem mergeWithNext_safe {next : Nat} (h : mergeWithNext s n p i next q = some s') : Safe s s' := by
  unfold mergeWithNext at h
  obtain ⟨t,ht,h⟩ := bind_eq_some_iff.mp h
  obtain ⟨u,hu,h⟩ := bind_eq_some_iff.mp h
  obtain ⟨v,hv,h⟩ := bind_eq_some_iff.mp h
  have hquiet : Quiet s (u.updHdr p fun b => { b with hbSz := b.hbSz + (s.hdrs q).hbSz }) :=
    ((removeFromFlAt_quiet ht).trans (removeFromFlAt_quiet hu)).trans (quiet_updHdr u p _ fun _ => id)
  obtain ⟨hsafe,hzero⟩ := removeHeader_safe hv
  obtain ⟨hindex,hcache⟩ := addToFl_still h
  exact (hquiet.safe.trans hsafe).still hzero hindex hcache

end Lists

section Merging

theorem setUnmapped_quiet (s : Heap) (p : Nat) (unmapped : Bool) : Quiet s (setUnmapped s p unmapped) :=
  quiet_updHdr s p _ fun _ => id

theorem call_quiet (s : Heap) (calls : List MapCall) : Quiet s (s.call calls) := ⟨rfl,rfl,fun _ => id⟩

theorem call_setUnmapped_quiet (s : Heap) (calls : List MapCall) (p : Nat) (unmapped : Bool) :
    Quiet s (setUnmapped (s.call calls) p unmapped) :=
  (call_quiet s calls).trans (setUnmapped_quiet _ p unmapped)

theorem matchSmaller_quiet (s : Heap) (n p m q : Nat) : Quiet s (matchSmaller s n p m q) := by
  unfold matchSmaller
  dsimp only
  split
  · split
    · exact call_quiet s _
    · exact call_setUnmapped_quiet s _ p true
  · split
    · split
      · exact call_quiet s _
      · apply (call_setUnmapped_quiet s _ p false).trans
        apply quiet_updHdr
        exact fun _ => id
    · split
      · exact call_quiet s _
      · exact Quiet.refl s

theorem matchUnmapped_quiet (s : Heap) (n p m q : Nat) : Quiet s (matchUnmapped s n p m q) := by
  unfold matchUnmapped
  dsimp only
  split
  · exact call_setUnmapped_quiet s _ p true
  · split
    · exact call_quiet s _
    · split
      · exact call_quiet s _
      · exact Quiet.refl s

theorem unmapOldLoop_quiet {threshold : Nat} {cur : Option Nat}
    (h : unmapOldLoop threshold fuel cur s = some s') : Quiet s s' := by
  induction fuel generalizing s cur with
  | zero =>
    cases cur with
    | none =>
      cases h
      exact Quiet.refl _
    | some n => cases h
  | succ fuel ih =>
    cases cur with
    | none =>
      cases h
      exact Quiet.refl _
    | some n =>
      simp only [unmapOldLoop] at h
      split at h
      · apply Quiet.trans _ (ih h)
        split
        · exact call_setUnmapped_quiet s _ _ true
        · exact Quiet.refl s
      · cases h

theorem forLists_safe {σ : Type} (heap : σ → Heap) {f : Nat → σ → Option σ}
    (hf : ∀ i x y, f i x = some y → Safe (heap x) (heap y)) {x y : σ} (h : forLists f x = some y) :
    Safe (heap x) (heap y) := by
  unfold forLists at h
  generalize List.range (nHblkFls + 1) = l at h
  induction l generalizing x with
  | nil =>
    cases h
    exact Safe.refl _
  | cons i l ih =>
    rw [List.foldlM_cons] at h
    obtain ⟨z,hz,h⟩ := bind_eq_some_iff.mp h
    exact (hf i x z hz).trans (ih h)

theorem unmapOld_safe {threshold : Nat} (h : unmapOld fuel threshold s = some s') : Safe s s' :=
  forLists_safe id (fun _ _ _ hi => (unmapOldLoop_quiet hi).safe) h

theorem mergeUnmappedLoop_safe {cur : Option Nat} {merged : Bool} {r : Bool × Heap}
    (h : mergeUnmappedLoop matchSmaller i fuel cur merged s = some r) : Safe s r.2 := by
  induction fuel generalizing s cur merged with
  | zero =>
    cases cur with
    | none =>
      cases h
      exact Safe.refl s
    | some n => cases h
  | succ fuel ih =>
    cases cur with
    | none =>
      cases h
      exact Safe.refl s
    | some n =>
      simp only [mergeUnmappedLoop,heap_self,put_self] at h
      split at h
      · split at h
        · exact ih h
        · cases h
        · split at h
          · exact ih h
          · split at h
            · cases h
            · rename_i hmerge
              apply (matchSmaller_quiet s n _ _ _).safe.trans
              exact (mergeWithNext_safe hmerge).trans (ih h)
      · cases h

theorem mergeUnmapped_safe {r : Bool × Heap} (h : mergeUnmapped fuel s = some r) : Safe s r.2 := by
  unfold mergeUnmapped mergeUnmappedWith at h
  exact forLists_safe Prod.snd (fun _ _ _ hi => mergeUnmappedLoop_safe hi) h

theorem mergeChain_safe {required : Nat} (h : mergeChain matchUnmapped n p required fuel s = some s') : Safe s s' := by
  induction fuel generalizing s with
  | zero => cases h
  | succ fuel ih =>
    simp only [mergeChain,heap_self,put_self] at h
    split at h
    · split at h
      · cases h
      · rename_i hmerge
        have hfirst := (matchUnmapped_quiet s n p _ _).safe.trans (mergeWithNext_safe hmerge)
        split at h
        · exact hfirst.trans (ih h)
        · cases h
          exact hfirst
    · cases h

theorem mergeForAllocLoop_safe {sizeNeeded alignM1 : Nat} {cur : Option Nat} {r : Bool × Heap}
    (h : mergeForAllocLoop matchUnmapped sizeNeeded alignM1 fuel k cur s = some r) : Safe s r.2 := by
  induction k generalizing cur with
  | zero =>
    cases cur with
    | none =>
      cases h
      exact Safe.refl s
    | some n => cases h
  | succ k ih =>
    cases cur with
    | none =>
      cases h
      exact Safe.refl s
    | some n =>
      simp only [mergeForAllocLoop,heap_self] at h
      split at h
      · split at h
        · exact ih h
        · split at h
          · cases h
          · exact ih h
          · obtain ⟨t,ht,rfl⟩ := map_eq_some_iff.mp h
            exact mergeChain_safe ht
      · cases h

theorem mergeFreeBlocksForAlloc_safe {sizeNeeded alignM1 : Nat} {r : Bool × Heap}
    (h : mergeFreeBlocksForAlloc fuel sizeNeeded alignM1 s = some r) : Safe s r.2 := by
  unfold mergeFreeBlocksForAlloc mergeFreeBlocksWith at h
  refine forLists_safe Prod.snd (fun i x y hi => ?_) h
  dsimp only at hi
  split at hi
  · cases hi
    exact Safe.refl _
  · exact mergeForAllocLoop_safe hi

end Merging

section Allocating

theorem setupHeader_quiet (env : AllocEnv) (s : Heap) (p h lb kind : Nat) (ignoreOffPage : Bool) :
    Quiet s (setupHeader env s p h lb kind ignoreOffPage) := by
  unfold setupHeader
  exact quiet_updHdr s p _ fun _ _ => rfl

theorem chunkLoop_safe (env : AllocEnv) (j h p : Nat) (s : Heap) : Safe s (chunkLoop env j h p s) := by
  induction j generalizing s h p with
  | zero => exact (setupHeader_quiet env s p h _ _ _).safe
  | succ j ih =>
    have hinstall : Safe (setupHeader env s p h hblkSize ptrfree false) _ :=
      installHeader_safe (n := h + 1) fun _ => by omega
    exact ((setupHeader_quiet env s p h _ _ _).safe.trans hinstall).trans (ih _ _ _)

theorem dropHblkInChunks_safe (h : dropHblkInChunks env s i n p = some s') : Safe s s' := by
  unfold dropHblkInChunks dropInChunks at h
  obtain ⟨t,ht,h⟩ := bind_eq_some_iff.mp h
  cases h
  have hcount : Quiet s { s with
    largeFreeBytes := s.largeFreeBytes - (s.hdrs p).hbSz
    bytesDropped := s.bytesDropped + (s.hdrs p).hbSz } := ⟨rfl,rfl,fun _ => id⟩
  exact ((hcount.trans (removeFromFlAt_quiet ht)).safe).trans (chunkLoop_safe env _ _ _ _)

theorem findNonBlLoop_ge {bl : BlackLists} {searchEnd size alignM1 last x : Nat}
    (h : findNonBlLoop bl searchEnd size alignM1 fuel last = some (some x)) : last ≤ x := by
  induction fuel generalizing last with
  | zero => cases h
  | succ fuel ih =>
    rw [findNonBlLoop] at h
    split at h
    · cases h
      omega
    · rename_i next hnext
      have := Searching.isBlackListed_gt hnext
      split at h
      · have := ih h
        omega
      · cases h

theorem judge_take_ge {maySplit : MaySplit} {hhdr : Hdr} {last : Nat}
    (h : judge env fuel req maySplit s n hhdr = some (.take last)) : n ≤ last := by
  unfold judge at h
  dsimp only at h
  split at h
  · cases h
  split at h
  · cases h
  split at h
  · cases h
  · cases h
  split at h
  · cases h
  split at h
  · cases h
    omega
  · split at h
    · cases h
    · cases h
    · rename_i hfound
      split at h
      · cases h
      · cases h
        exact findNonBlLoop_ge hfound

theorem searchLoop_safe {maySplit : MaySplit} {cur : Option Nat} {r : Option (Nat × Nat) × Heap}
    (h : searchLoop (dropHblkInChunks env) env fuel req i maySplit k cur s = some r) :
    Safe s r.2 ∧ ∀ n last, r.1 = some (n, last) → n ≤ last := by
  induction k generalizing cur s with
  | zero =>
    cases cur with
    | none =>
      cases h
      exact ⟨Safe.refl s,fun _ _ hr => by cases hr⟩
    | some n => cases h
  | succ k ih =>
    cases cur with
    | none =>
      cases h
      exact ⟨Safe.refl s,fun _ _ hr => by cases hr⟩
    | some n =>
      simp only [searchLoop] at h
      split at h
      · rename_i p _
        split at h
        · cases h
        · exact ih h
        · rename_i last hjudge
          cases h
          refine ⟨Safe.refl s,fun m last' hr => ?_⟩
          cases hr
          exact judge_take_ge hjudge
        · have hcount : ∀ P (d : Decidable P), Safe s (@countDrop s P d) :=
            fun _ _ => Quiet.safe ⟨rfl,rfl,fun _ => id⟩
          split at h
          · obtain ⟨t,ht,h⟩ := bind_eq_some_iff.mp h
            obtain ⟨next,_,h⟩ := bind_eq_some_iff.mp h
            exact ⟨((hcount _ _).trans (dropHblkInChunks_safe ht)).trans (ih h).1,(ih h).2⟩
          · split at h
            · cases h
              refine ⟨hcount _ _,fun m last' hr => ?_⟩
              cases hr
              omega
            · exact ⟨(hcount _ _).trans (ih h).1,(ih h).2⟩
      · cases h

theorem remapBlock_quiet (s : Heap) (n p : Nat) : Quiet s (remapBlock s n p) := by
  unfold remapBlock
  split
  · exact Quiet.refl s
  · exact call_setUnmapped_quiet s _ p false

theorem splitBlock_still {last r : Nat} (h : splitBlock s n p last r i = some s') :
    s'.index = s.index ∧ s'.hdrCache = s.hdrCache := by
  unfold splitBlock at h
  obtain ⟨t,ht,h⟩ := bind_eq_some_iff.mp h
  obtain ⟨u,hu,h⟩ := bind_eq_some_iff.mp h
  obtain ⟨v,hv,h⟩ := bind_eq_some_iff.mp h
  cases h
  have h1 := linkNext_quiet ht
  have h2 := linkPrev_quiet hu
  have h3 := addToFl_still hv
  exact ⟨h3.1.trans (h2.index.trans h1.index),h3.2.trans (h2.cache.trans h1.cache)⟩

theorem splitAt_safe {last : Nat} (hp : s.index n = .hdr p) (hle : n ≤ last) {r : Nat × Heap}
    (h : splitAt s n p last i = some r) : Safe s r.2 := by
  unfold splitAt at h
  split at h
  · cases h
    exact Safe.refl s
  · obtain ⟨t,ht,rfl⟩ := map_eq_some_iff.mp h
    have hinstall : Safe s (installHeader s last).2 := installHeader_safe fun h0 => by
      have := ne_zero_of_hdr h0 hp
      omega
    have hquiet := remapBlock_quiet (installHeader s last).2 n p
    obtain ⟨hindex,hcache⟩ := splitBlock_still ht
    exact hinstall.still (installHeader_zero s last) (hindex.trans hquiet.index)
      (hcache.trans hquiet.cache)

theorem getFirstPart_safe {size : Nat} (hn : s.index 0 = .nil → n ≠ 0)
    (h : getFirstPart s n p size i = some s') : Safe s s' := by
  unfold getFirstPart at h
  obtain ⟨t,ht,h⟩ := bind_eq_some_iff.mp h
  have hquiet := removeFromFlAt_quiet ht
  split at h
  · cases h
    exact hquiet.safe
  · have hinstall : Safe t (installHeader t (n + divHblksz size)).2 :=
      installHeader_safe fun h0 => by
        have := hn (by rw [← hquiet.index,h0])
        omega
    obtain ⟨hindex,hcache⟩ := addToFl_still h
    exact (hquiet.safe.trans hinstall).still (installHeader_zero t _) hindex hcache

theorem takeBlock_safe {last : Nat} (hle : n ≤ last) {r : Nat × Heap}
    (h : takeBlock env req i n last s = some r) : Safe s r.2 := by
  unfold takeBlock at h
  split at h
  · rename_i p hp
    obtain ⟨⟨q,t⟩,ht,h⟩ := bind_eq_some_iff.mp h
    obtain ⟨u,hu,h⟩ := bind_eq_some_iff.mp h
    cases h
    have hsplit := splitAt_safe hp hle ht
    have hremap := remapBlock_quiet t last q
    intro h0
    have hlast : last ≠ 0 := by
      have := ne_zero_of_hdr h0 hp
      omega
    have hpart := getFirstPart_safe (fun _ => hlast) hu
    obtain ⟨hcounts,hzero⟩ := installCounts_safe u last req.sizeNeeded
    have hall := ((hsplit.trans hremap.safe).trans hpart).trans hcounts
    exact (hall.still hzero (u := { setupHeader env (installCounts u last req.sizeNeeded) q last
      req.lbAdjusted req.kind req.ignoreOffPage with largeFreeBytes := _ }) rfl rfl) h0
  · cases h

theorem allochblkNth_safe {maySplit : MaySplit} {r : Option Nat × Heap}
    (h : allochblkNth env fuel req i maySplit s = some r) : Safe s r.2 := by
  unfold allochblkNth at h
  split at h
  · cases h
  · rename_i hsearch
    cases h
    exact (searchLoop_safe hsearch).1
  · rename_i hsearch
    obtain ⟨t,ht,rfl⟩ := map_eq_some_iff.mp h
    obtain ⟨hsafe,hle⟩ := searchLoop_safe hsearch
    exact hsafe.trans (takeBlock_safe (hle _ _ rfl) ht)

theorem heapSearch_safe (env : AllocEnv) (fuel : Nat) (req : Request) :
    Lawful (heapSearch fuel req) env False (fun _ => True) fun s r => Safe s r.2 where
  refl _ := Safe.refl _
  after := Safe.trans
  inv _ := trivial
  nth _ _ _ := returns_false_of fun _ => allochblkNth_safe
  merge _ := returns_false_of fun _ => mergeFreeBlocksForAlloc_safe

theorem allochblk_safe {collect : Option ((Heap → Option Heap) × AllocEnv)} {r : Option Nat × Heap}
    (hcollect : ∀ f env', collect = some (f, env') → ∀ t u, f t = some u → Safe t u)
    (h : allochblk env fuel req collect s = some r) : Safe s r.2 := by
  refine (?_ : Returns False _ fun r => Safe s r.2).of_eq h
  unfold allochblk Search.allochblk
  split
  · exact Safe.refl s
  · refine ((heapSearch_safe env fuel req).beforeCollect trivial).orTry (fun _ _ => id) fun t _ ht => ?_
    split
    · exact ht
    · rename_i f env'
      refine (returns_false_of fun u hu => ht.trans (hcollect f env' rfl t u hu)).bind fun u hu => ?_
      exact ((heapSearch_safe env' fuel req).fromFreeLists _ trivial).mono id fun _ => hu.trans

end Allocating

section Freeing

theorem coalesceNext_safe (h : coalesceNext s n p = some s') :
    Safe s s' ∧ (s.hdrCache = zeroHdrCache → s'.hdrCache = zeroHdrCache) := by
  unfold coalesceNext at h
  dsimp only at h
  split at h
  · cases h
    exact ⟨Safe.refl s,id⟩
  · cases h
  · split at h
    · obtain ⟨t,ht,h⟩ := bind_eq_some_iff.mp h
      obtain ⟨hsafe,hzero⟩ := removeHeader_safe h
      refine ⟨Safe.trans (Quiet.safe ((removeFromFlAt_quiet ht).trans ?_)) hsafe,fun _ => hzero⟩
      exact quiet_updHdr t p _ fun _ => id
    · cases h
      exact ⟨Safe.refl s,id⟩

theorem coalescePrev_safe {prev : Option Nat} {r : Nat × Nat × Heap}
    (h : coalescePrev s prev n p = some r) :
    Safe s r.2.2 ∧ (s.hdrCache = zeroHdrCache → r.2.2.hdrCache = zeroHdrCache) := by
  unfold coalescePrev at h
  split at h
  · cases h
    exact ⟨Safe.refl s,id⟩
  · split at h
    · dsimp only at h
      split at h
      · obtain ⟨t,ht,h⟩ := bind_eq_some_iff.mp h
        obtain ⟨u,hu,h⟩ := bind_eq_some_iff.mp h
        cases h
        obtain ⟨hsafe,hzero⟩ := removeHeader_safe hu
        refine ⟨Safe.trans (Quiet.safe ((removeFromFlAt_quiet ht).trans ?_)) hsafe,fun _ => hzero⟩
        exact quiet_updHdr t _ _ fun _ => id
      · cases h
        exact ⟨Safe.refl s,id⟩
    · cases h

theorem freehblk_safe (h : freehblk s n = some s') : Safe s s' := by
  unfold freehblk at h
  dsimp only at h
  split at h
  · rename_i p hp
    split at h
    · cases h
    · split at h
      · cases h
      · unfold linkFreed at h
        obtain ⟨t,ht,h⟩ := bind_eq_some_iff.mp h
        obtain ⟨⟨m,q,u⟩,hu,h⟩ := bind_eq_some_iff.mp h
        obtain ⟨hcounts,hzero⟩ := removeCounts_safe s.invalidateHdrCache n
          (hblkSize * objSzToBlocks (s.hdrs p).hbSz)
        have hdrop : Safe s s.invalidateHdrCache := safe_of_zero id rfl
        obtain ⟨hnext,hnextZero⟩ := coalesceNext_safe ht
        obtain ⟨hprev,hprevZero⟩ := coalescePrev_safe hu
        obtain ⟨hindex,hcache⟩ := addToFl_still h
        have hstart := (hdrop.trans hcounts).trans_still hzero hnext rfl rfl
        exact (hstart.trans hprev).still (hprevZero (hnextZero hzero)) hindex hcache
  · cases h

theorem addToHeap_safe (h : addToHeap s n k = some s') : Safe s s' := by
  unfold addToHeap at h
  dsimp only at h
  have hlow := skipLow_spec n k
  have htrim := trimHigh_le (skipLow n k).1 (skipLow n k).2
  split at h
  · cases h
    exact Safe.refl s
  · obtain ⟨t,ht,h⟩ := bind_eq_some_iff.mp h
    cases h
    have hinstall : Safe s (installHeader s (skipLow n k).1).2 :=
      installHeader_safe fun _ => by omega
    have hfree := freehblk_safe ht
    have hset := hinstall.trans_still (installHeader_zero s _) hfree rfl rfl
    exact hset.trans (Quiet.safe ⟨rfl,rfl,fun _ => id⟩)

end Freeing

section Runs

mutual

theorem exec_safe (fuel : Nat) (op : Op) (s s' : Heap) (h : exec fuel op s = some s') : Safe s s' := by
  cases op with
  | addToHeap a n =>
    rw [exec] at h
    exact addToHeap_safe h
  | allochblk env req collects collection after =>
    rw [exec] at h
    obtain ⟨r,hr,rfl⟩ := map_eq_some_iff.mp h
    apply allochblk_safe _ hr
    intro f env' hf t u hu
    split at hf
    · cases hf
      exact execAll_safe fuel collection t u hu
    · cases hf
  | freehblk a =>
    rw [exec] at h
    exact freehblk_safe h
  | mergeUnmapped =>
    rw [exec] at h
    obtain ⟨r,hr,rfl⟩ := map_eq_some_iff.mp h
    exact mergeUnmapped_safe hr
  | mergeFreeBlocksForAlloc sizeNeeded alignM1 =>
    rw [exec] at h
    obtain ⟨r,hr,rfl⟩ := map_eq_some_iff.mp h
    exact mergeFreeBlocksForAlloc_safe hr
  | unmapOld threshold =>
    rw [exec] at h
    exact unmapOld_safe h
  | nextGc =>
    rw [exec] at h
    cases h
    exact Quiet.safe ⟨rfl,rfl,fun _ => id⟩

theorem execAll_safe (fuel : Nat) (ops : List Op) (s s' : Heap) (h : execAll fuel ops s = some s') :
    Safe s s' := by
  cases ops with
  | nil =>
    rw [execAll] at h
    cases h
    exact Safe.refl s
  | cons op ops =>
    rw [execAll] at h
    obtain ⟨t,ht,h⟩ := bind_eq_some_iff.mp h
    exact (exec_safe fuel op s t ht).trans (execAll_safe fuel ops t s' h)

end

/-- The operations on headers by themselves, those of the allocator, and lookups of an
address given by its hblk and the offset in it. -/
inductive HeaderOp where
  | installHeader (h : Nat)
  | removeHeader (h : Nat)
  | installCounts (h sz : Nat)
  | removeCounts (h sz : Nat)
  | block (op : Op)
  | lookup (allInteriorPointers : Bool) (h ofs : Nat)

def headerStep (fuel : Nat) (s : Heap) : HeaderOp → Option Heap
  | .installHeader h => some (installHeader s h).2
  | .removeHeader h => removeHeader s h
  | .installCounts h sz => some (installCounts s h sz)
  | .removeCounts h sz => some (removeCounts s h sz)
  | .block op => exec fuel op s
  | .lookup allInteriorPointers h ofs => some (hcGetHdr allInteriorPointers s h ofs).2.2

def headerRun (fuel : Nat) (ops : List HeaderOp) (s : Heap) : Option Heap :=
  ops.foldlM (headerStep fuel) s

def HeaderOp.AboveNull : HeaderOp → Prop
  | .installHeader h => h ≠ 0
  | _ => True

def SlotOk (s : Heap) (e : HdrCacheEntry) : Prop :=
  e = ⟨0, none⟩ ∨ ∃ n p, e = ⟨n, some p⟩ ∧ s.index n = .hdr p ∧ (s.hdrs p).isFree = false

structure Coherent (s : Heap) : Prop where
  null : s.index 0 = .nil
  slots : ∀ j, SlotOk s (s.hdrCache j)

theorem coherent_init (hdrs : Nat → Hdr) : Coherent (Heap.init hdrs) :=
  ⟨rfl,fun _ => .inl rfl⟩

theorem Coherent.of_safe (h : Coherent s) (hsafe : Safe s s') : Coherent s' := by
  obtain ⟨hnull,hcache⟩ := hsafe h.null
  refine ⟨hnull,fun j => ?_⟩
  rcases hcache with hzero | hquiet
  · rw [hzero]
    exact .inl rfl
  · rw [hquiet.cache]
    rcases h.slots j with hempty | ⟨n,p,he,hn,hused⟩
    · exact .inl hempty
    · exact .inr ⟨n,p,he,by rw [hquiet.index,hn],hquiet.used p hused⟩

theorem Coherent.headerCacheMiss (h : Coherent s) (allInteriorPointers : Bool) (n ofs : Nat) :
    Coherent (headerCacheMiss allInteriorPointers s n ofs).2 := by
  unfold Headers.headerCacheMiss
  split
  · rename_i p hp
    split
    · exact h
    · rename_i hused
      refine ⟨h.null,fun j => ?_⟩
      dsimp only
      rw [update_apply]
      split
      · exact .inr ⟨n,p,rfl,hp,by simpa using hused⟩
      · exact h.slots j
  · exact h
  · split
    · split
      · exact h
      · dsimp only
        split
        · exact h
        · split
          · exact h
          · exact h
    · exact h

theorem Coherent.step (h : Coherent s) {op : HeaderOp} (hop : op.AboveNull)
    (hs : headerStep fuel s op = some s') : Coherent s' := by
  cases op with
  | installHeader n =>
    cases hs
    exact h.of_safe (installHeader_safe fun _ => hop)
  | removeHeader n => exact h.of_safe (removeHeader_safe hs).1
  | installCounts n sz =>
    cases hs
    exact h.of_safe (installCounts_safe s n sz).1
  | removeCounts n sz =>
    cases hs
    exact h.of_safe (removeCounts_safe s n sz).1
  | block op => exact h.of_safe (exec_safe fuel op s s' hs)
  | lookup allInteriorPointers n ofs =>
    cases hs
    unfold hcGetHdr
    split
    · exact h
    · exact h.headerCacheMiss allInteriorPointers n ofs

theorem Coherent.run (h : Coherent s) {ops : List HeaderOp} (hops : ∀ op ∈ ops, op.AboveNull)
    (hs : headerRun fuel ops s = some s') : Coherent s' := by
  unfold headerRun at hs
  induction ops generalizing s with
  | nil =>
    cases hs
    exact h
  | cons op ops ih =>
    rw [List.foldlM_cons] at hs
    obtain ⟨t,ht,hs⟩ := bind_eq_some_iff.mp hs
    exact ih (h.step (hops op (by simp)) ht) (fun o ho => hops o (by simp [ho])) hs

/-- In every state that a run reaches, a hit gives what the miss handler would give, and
never the header of a free block or of one that the index does not have. -/
theorem hcGetHdr_hit (hdrs : Nat → Hdr) (fuel : Nat) (ops : List HeaderOp)
    (hops : ∀ op ∈ ops, op.AboveNull) (s : Heap)
    (hrun : headerRun fuel ops (Heap.init hdrs) = some s) (allInteriorPointers : Bool) (h ofs : Nat)
    (hit : (hcGetHdr allInteriorPointers s h ofs).1 = true) :
    (hcGetHdr allInteriorPointers s h ofs).2.1 = (headerCacheMiss allInteriorPointers s h ofs).1 ∧
      ∀ p, (hcGetHdr allInteriorPointers s h ofs).2.1 = some p →
        s.index h = .hdr p ∧ (s.hdrs p).isFree = false := by
  have hcoh := (coherent_init hdrs).run hops hrun
  have haddr : (hce s h).blockAddr = h := by
    by_contra hne
    simp [hcGetHdr,hne] at hit
  have hget : (hcGetHdr allInteriorPointers s h ofs).2.1 = (hce s h).hceHdr := by
    simp [hcGetHdr,haddr]
  rw [hget]
  rcases hcoh.slots (h % hdrCacheSize) with hempty | ⟨n,p,he,hn,hused⟩
  · have hslot : hce s h = ⟨0,none⟩ := hempty
    rw [hslot] at haddr ⊢
    subst haddr
    simp [headerCacheMiss,hcoh.null]
  · have hslot : hce s h = ⟨n,some p⟩ := he
    rw [hslot] at haddr ⊢
    subst haddr
    refine ⟨by simp [headerCacheMiss,hn,hused],fun q hq => ?_⟩
    cases hq
    exact ⟨hn,hused⟩

def cachingRun : List HeaderOp := [
  .block (.addToHeap 16 4),
  .block (.allochblk quietEnv ⟨8192, normal, false, 0⟩ false [] quietEnv),
  .lookup true 16 8]

def cachedState : Heap :=
  (headerRun 200 cachingRun blankHeap).getD blankHeap

theorem hcGetHdr_hit_cachedState : (hcGetHdr true cachedState 16 8).1 = true ∧
    (hcGetHdr true cachedState 16 8).2.1 = (headerCacheMiss true cachedState 16 8).1 := by
  have hrun : headerRun 200 cachingRun blankHeap = some cachedState := by
    have hsome : (headerRun 200 cachingRun blankHeap).isSome = true := by
      decide +kernel
    obtain ⟨s,hs⟩ := isSome_iff_exists.mp hsome
    rw [cachedState,hs]
    rfl
  have hops : ∀ op ∈ cachingRun, op.AboveNull := by simp [cachingRun,HeaderOp.AboveNull]
  have hit : (hcGetHdr true cachedState 16 8).1 = true := by decide +kernel
  exact ⟨hit,(hcGetHdr_hit (fun _ => blankHdr) 200 cachingRun hops cachedState hrun true 16 8 hit).1⟩

end Runs

end GcUtil.Block.CacheCoherence
