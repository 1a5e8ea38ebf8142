import GcUtil.Block.FreeLists

/-! What the operations of `headers.c` do to the map from hblks to headers. A header
record serves one hblk at a time, so a write through it changes the map in one place. -/
namespace GcUtil.Block.HeaderTable
open Basic Headers FreeLists Function List

variable {s s' : Heap} {n p : Nat}

theorem hdrAt_of_index (h : s.index n = .hdr p) : s.hdrAt n = some (s.hdrs p) := by
  simp [Heap.hdrAt,h]

theorem hdrAt_eq_some {b : Hdr} : s.hdrAt n = some b ↔ ∃ p, s.index n = .hdr p ∧ s.hdrs p = b := by
  unfold Heap.hdrAt
  cases s.index n <;> simp

theorem hdrAt_eq_none : s.hdrAt n = none ↔ ∀ p, s.index n ≠ .hdr p := by
  unfold Heap.hdrAt
  cases s.index n <;> simp

/-- Every header in use belongs to one hblk and none of them is in the pool. -/
structure HdrsOk (s : Heap) : Prop where
  live : ∀ {n p}, s.index n = .hdr p → p < s.hdrScratch ∧ p ∉ s.hdrFreeList
  inj : ∀ {m n p}, s.index m = .hdr p → s.index n = .hdr p → m = n
  pooled : ∀ p ∈ s.hdrFreeList, p < s.hdrScratch
  nodup : s.hdrFreeList.Nodup

theorem hdrsOk_init (hdrs : Nat → Hdr) : HdrsOk (Heap.init hdrs) where
  live h := by simp [Heap.init] at h
  inj h := by simp [Heap.init] at h
  pooled := by simp [Heap.init]
  nodup := by simp [Heap.init]

theorem HdrsOk.congr (h : HdrsOk s) (hindex : ∀ n p, s'.index n = .hdr p → s.index n = .hdr p)
    (hfree : s'.hdrFreeList = s.hdrFreeList) (hscratch : s'.hdrScratch = s.hdrScratch) : HdrsOk s' where
  live hn := by
    rw [hfree,hscratch]
    exact h.live (hindex _ _ hn)
  inj hm hn := h.inj (hindex _ _ hm) (hindex _ _ hn)
  pooled := by
    rw [hfree,hscratch]
    exact h.pooled
  nodup := hfree ▸ h.nodup

theorem HdrsOk.updHdr (h : HdrsOk s) (p : Nat) (f : Hdr → Hdr) : HdrsOk (s.updHdr p f) :=
  h.congr (fun _ _ hn => hn) rfl rfl

@[simp]
theorem updHdr_index (s : Heap) (p : Nat) (f : Hdr → Hdr) : (s.updHdr p f).index = s.index := rfl

theorem updHdr_hdrs_self (s : Heap) (p : Nat) (f : Hdr → Hdr) : (s.updHdr p f).hdrs p = f (s.hdrs p) := by
  simp [Heap.updHdr]

theorem updHdr_hdrs_of_ne (s : Heap) {p q : Nat} (f : Hdr → Hdr) (h : q ≠ p) :
    (s.updHdr p f).hdrs q = s.hdrs q := by
  simp [Heap.updHdr,update_of_ne h]

theorem updHdr_updHdr (s : Heap) (p : Nat) (f g : Hdr → Hdr) :
    (s.updHdr p f).updHdr p g = s.updHdr p (g ∘ f) := by
  simp [Heap.updHdr]

theorem hdrAt_updHdr (h : HdrsOk s) (hn : s.index n = .hdr p) (f : Hdr → Hdr) :
    (s.updHdr p f).hdrAt = update s.hdrAt n (some (f (s.hdrs p))) := by
  funext m
  by_cases hm : m = n
  · subst hm
    rw [update_self,hdrAt_of_index (s := s.updHdr p f) hn,updHdr_hdrs_self]
  · rw [update_of_ne hm]
    unfold Heap.hdrAt
    rw [updHdr_index]
    cases hi : s.index m with
    | nil => rfl
    | forward k => rfl
    | hdr q =>
      have hqp : q ≠ p := by
        rintro rfl
        exact hm (h.inj hi hn)
      simp only [updHdr_hdrs_of_ne s f hqp]

theorem hdrAt_reindex (hhdrs : s'.hdrs = s.hdrs) (h : ∀ n, s'.index n = s.index n ∨
    (s.hdrAt n = none ∧ ∀ p, s'.index n ≠ .hdr p)) : s'.hdrAt = s.hdrAt := by
  funext n
  rcases h n with hsame | ⟨hnone,hno⟩
  · unfold Heap.hdrAt
    rw [hsame,hhdrs]
  · rw [hnone,hdrAt_eq_none]
    exact hno

section Installing

theorem getIndex_eq (s : Heap) (h : Nat) : ∃ keys, getIndex s h = { s with bottomKeys := keys } := by
  unfold getIndex
  dsimp only
  split
  · exact ⟨s.bottomKeys,rfl⟩
  · exact ⟨_,rfl⟩

def newHdr (s : Heap) : Nat := s.hdrFreeList.headD s.hdrScratch

theorem newHdr_fresh (h : HdrsOk s) (n : Nat) : s.index n ≠ .hdr (newHdr s) := by
  intro hn
  have hlive := h.live hn
  unfold newHdr at hlive
  cases hl : s.hdrFreeList <;> simp [hl] at hlive

/-- The state after `GC_install_header` but for the order of the bottom indices. -/
theorem installHeader_eq (s : Heap) (h : Nat) : ∃ keys, installHeader s h = (newHdr s, { s with
    index := update s.index h (.hdr (newHdr s))
    bottomKeys := keys
    hdrs := update s.hdrs (newHdr s)
      { s.hdrs (newHdr s) with hbLastReclaimed := s.gcNoShort }
    hdrFreeList := s.hdrFreeList.tail
    hdrScratch := if s.hdrFreeList = [] then s.hdrScratch + 1 else s.hdrScratch
    hdrCache := zeroHdrCache }) := by
  obtain ⟨keys,hkeys⟩ := getIndex_eq s.invalidateHdrCache h
  refine ⟨keys,?_⟩
  unfold installHeader
  rw [hkeys]
  unfold allocHdr newHdr Heap.invalidateHdrCache
  cases hl : s.hdrFreeList <;> simp [Heap.setEntry,Heap.updHdr,Heap.gcNoShort]

variable (s n)

@[simp]
theorem installHeader_fst : (installHeader s n).1 = newHdr s := by
  obtain ⟨keys,h⟩ := installHeader_eq s n
  rw [h]

theorem installHeader_index :
    (installHeader s n).2.index = update s.index n (.hdr (newHdr s)) := by
  obtain ⟨keys,h⟩ := installHeader_eq s n
  rw [h]

theorem installHeader_hdrs (q : Nat) (hq : q ≠ newHdr s) :
    (installHeader s n).2.hdrs q = s.hdrs q := by
  obtain ⟨keys,h⟩ := installHeader_eq s n
  rw [h]
  exact update_of_ne hq ..

variable {s n}

theorem HdrsOk.installHeader (h : HdrsOk s) (n : Nat) : HdrsOk (installHeader s n).2 := by
  obtain ⟨keys,heq⟩ := installHeader_eq s n
  have hnew : newHdr s < (if s.hdrFreeList = [] then s.hdrScratch + 1 else s.hdrScratch) ∧
      newHdr s ∉ s.hdrFreeList.tail := by
    unfold newHdr
    have hpool := h.pooled
    have hnodup := h.nodup
    cases hl : s.hdrFreeList with
    | nil => simp
    | cons q l =>
      rw [hl] at hpool hnodup
      exact ⟨by simpa using hpool q (by simp),(nodup_cons.mp hnodup).1⟩
  have hlt : ∀ q, q < s.hdrScratch →
      q < (if s.hdrFreeList = [] then s.hdrScratch + 1 else s.hdrScratch) := by
    intro q hq
    split <;> omega
  rw [heq]
  refine ⟨fun {m q} hm => ?_,fun {m m' q} hm hm' => ?_,fun q hq => ?_,h.nodup.tail⟩
  · dsimp only at hm ⊢
    rw [update_apply] at hm
    split at hm
    · cases hm
      exact hnew
    · exact ⟨hlt q (h.live hm).1,fun hq => (h.live hm).2 (mem_of_mem_tail hq)⟩
  · dsimp only at hm hm'
    rw [update_apply] at hm hm'
    split at hm <;> split at hm'
    · omega
    · cases hm
      exact absurd hm' (newHdr_fresh h m')
    · cases hm'
      exact absurd hm (newHdr_fresh h m)
    · exact h.inj hm hm'
  · exact hlt q (h.pooled q (mem_of_mem_tail hq))

theorem hdrAt_installHeader (h : HdrsOk s) (n : Nat) :
    (installHeader s n).2.hdrAt = update s.hdrAt n
      (some { s.hdrs (newHdr s) with hbLastReclaimed := s.gcNoShort }) := by
  obtain ⟨keys,heq⟩ := installHeader_eq s n
  rw [heq]
  funext m
  by_cases hm : m = n
  · subst hm
    simp [Heap.hdrAt]
  · rw [update_of_ne hm]
    simp only [Heap.hdrAt,update_of_ne hm]
    cases hi : s.index m with
    | nil => rfl
    | forward k => rfl
    | hdr q =>
      have hq : q ≠ newHdr s := by
        rintro rfl
        exact newHdr_fresh h m hi
      simp only [update_of_ne hq]

end Installing

section Removing

theorem removeHeader_eq (hn : s.index n = .hdr p) :
    removeHeader s n = some { s with
      hdrFreeList := p :: s.hdrFreeList
      hdrCache := zeroHdrCache
      index := update s.index n .nil } := by
  simp [removeHeader,hn,Heap.invalidateHdrCache,Heap.setEntry]

theorem HdrsOk.removeHeader (h : HdrsOk s) (hn : s.index n = .hdr p)
    (hrm : Headers.removeHeader s n = some s') : HdrsOk s' := by
  rw [removeHeader_eq hn] at hrm
  cases hrm
  have hkeep : ∀ {m q}, update s.index n .nil m = .hdr q → m ≠ n ∧ s.index m = .hdr q := by
    intro m q hm
    rw [update_apply] at hm
    split at hm
    · cases hm
    · exact ⟨by assumption,hm⟩
  refine ⟨fun {m q} hm => ?_,fun hm hm' => h.inj (hkeep hm).2 (hkeep hm').2,?_,?_⟩
  · obtain ⟨hmn,hold⟩ := hkeep hm
    refine ⟨(h.live hold).1,?_⟩
    rw [mem_cons]
    rintro (rfl | hq)
    · exact hmn (h.inj hold hn)
    · exact (h.live hold).2 hq
  · intro q hq
    rcases mem_cons.mp hq with rfl | hq
    · exact (h.live hn).1
    · exact h.pooled q hq
  · exact nodup_cons.mpr ⟨(h.live hn).2,h.nodup⟩

theorem hdrAt_update_index (s : Heap) (n : Nat) {e : Entry} (he : ∀ p, e ≠ .hdr p) :
    (s.setEntry n e).hdrAt = update s.hdrAt n none := by
  funext m
  unfold Heap.hdrAt Heap.setEntry
  by_cases hm : m = n
  · subst hm
    cases e with
    | nil => simp
    | forward k => simp
    | hdr p => exact absurd rfl (he p)
  · simp [update_of_ne hm]

theorem hdrAt_removeHeader (hn : s.index n = .hdr p) (hrm : removeHeader s n = some s') :
    s'.hdrAt = update s.hdrAt n none := by
  rw [removeHeader_eq hn] at hrm
  cases hrm
  exact hdrAt_update_index s n (e := .nil) (by simp)

end Removing

section Counts

theorem update_through (index f : Nat → Entry) (h k : Nat) :
    update (fun m => if h < m ∧ m ≤ h + k then f m else index m) (h + (k + 1)) (f (h + (k + 1))) =
      fun m => if h < m ∧ m ≤ h + (k + 1) then f m else index m := by
  funext m
  rw [update_apply]
  by_cases hm : m = h + (k + 1)
  · have hin : h < m ∧ m ≤ h + (k + 1) := by omega
    rw [if_pos hm,if_pos hin,hm]
  · have hiff : (h < m ∧ m ≤ h + (k + 1)) ↔ (h < m ∧ m ≤ h + k) := by omega
    rw [if_neg hm]
    simp only [hiff]

theorem forwardLoop_eq (h k : Nat) (s : Heap) : forwardLoop h k s = { s with
    index := fun m => if h < m ∧ m ≤ h + k then .forward (min (m - h) maxJump) else s.index m } := by
  induction k with
  | zero =>
    have hnone : ∀ m, ¬ (h < m ∧ m ≤ h + 0) := fun m => by omega
    simp only [forwardLoop,hnone,if_false]
  | succ k ih =>
    have hstep := update_through s.index (fun m => .forward (min (m - h) maxJump)) h k
    rw [Nat.add_sub_cancel_left] at hstep
    rw [forwardLoop,ih,Heap.setEntry,hstep]

theorem nilLoop_eq (h k : Nat) (s : Heap) : nilLoop h k s = { s with
    index := fun m => if h < m ∧ m ≤ h + k then .nil else s.index m } := by
  induction k with
  | zero =>
    have hnone : ∀ m, ¬ (h < m ∧ m ≤ h + 0) := fun m => by omega
    simp only [nilLoop,hnone,if_false]
  | succ k ih => rw [nilLoop,ih,Heap.setEntry,update_through s.index (fun _ => .nil) h k]

theorem indexBlock_eq (stop fuel h : Nat) (s : Heap) :
    ∃ keys, indexBlock stop fuel h s = { s with bottomKeys := keys } := by
  induction fuel generalizing h s with
  | zero => exact ⟨s.bottomKeys,rfl⟩
  | succ fuel ih =>
    unfold indexBlock
    split
    · obtain ⟨keys,hkeys⟩ := getIndex_eq s h
      dsimp only
      split
      · exact ⟨keys,hkeys⟩
      · obtain ⟨keys',hkeys'⟩ := ih (h + bottomSz) (getIndex s h)
        exact ⟨keys',by rw [hkeys',hkeys]⟩
    · exact ⟨s.bottomKeys,rfl⟩

theorem installCounts_eq (s : Heap) (h sz : Nat) : ∃ keys, installCounts s h sz = { s with
    bottomKeys := keys
    hdrCache := zeroHdrCache
    index := fun m => if h < m ∧ m ≤ h + (objSzToBlocks sz - 1) then
      .forward (min (m - h) maxJump) else s.index m } := by
  unfold installCounts
  dsimp only
  obtain ⟨keys,hkeys⟩ := indexBlock_eq (h * hblkSize + sz) (divHblksz sz + 1) h s.invalidateHdrCache
  obtain ⟨keys',hkeys'⟩ := getIndex_eq { s.invalidateHdrCache with bottomKeys := keys }
    ((h * hblkSize + sz - 1) / hblkSize)
  refine ⟨keys',?_⟩
  rw [hkeys,hkeys',forwardLoop_eq]
  rfl

theorem removeCounts_eq (s : Heap) (h sz : Nat)
    (hnil : s.index (h + 1) = .nil → ∀ i, 0 < i → i < objSzToBlocks sz → s.index (h + i) = .nil) :
    removeCounts s h sz = { s with
      hdrCache := zeroHdrCache
      index := fun m => if h < m ∧ m ≤ h + (objSzToBlocks sz - 1) then .nil else s.index m } := by
  have hkeep : (∀ i, 0 < i → i < objSzToBlocks sz → s.index (h + i) = .nil) →
      s.index = fun m => if h < m ∧ m ≤ h + (objSzToBlocks sz - 1) then .nil else s.index m := by
    intro hall
    funext m
    split
    · rename_i hm
      have := hall (m - h) (by omega) (by omega)
      rwa [Nat.add_sub_cancel' (by omega)] at this
    · rfl
  unfold removeCounts Heap.invalidateHdrCache
  dsimp only
  split
  · rename_i hsz
    rw [← hkeep]
    intro i hi hlt
    unfold objSzToBlocks divHblksz hblkSize at hlt
    unfold hblkSize at hsz
    omega
  · split
    · rename_i hfirst
      rw [← hkeep (hnil hfirst)]
    · rw [nilLoop_eq]

end Counts

section Keys

structure Keyed (s : Heap) : Prop where
  mem : ∀ n, s.index n ≠ .nil → n / bottomSz ∈ s.bottomKeys
  sorted : s.bottomKeys.Pairwise (· < ·)

theorem keyed_init (hdrs : Nat → Hdr) : Keyed (Heap.init hdrs) := ⟨fun _ h => absurd rfl h,List.Pairwise.nil⟩

theorem Keyed.shrink (h : Keyed s) (hkeys : s'.bottomKeys = s.bottomKeys)
    (hindex : ∀ n, s'.index n ≠ .nil → s.index n ≠ .nil) : Keyed s' := by
  refine ⟨fun n hn => ?_,hkeys ▸ h.sorted⟩
  rw [hkeys]
  exact h.mem n (hindex n hn)

theorem getIndex_mem (s : Heap) (h : Nat) : h / bottomSz ∈ (getIndex s h).bottomKeys := by
  unfold getIndex
  dsimp only
  split
  · assumption
  · simp

theorem getIndex_mono {s : Heap} {h key : Nat} (hkey : key ∈ s.bottomKeys) :
    key ∈ (getIndex s h).bottomKeys := by
  unfold getIndex
  dsimp only
  split
  · exact hkey
  · rw [← takeWhile_append_dropWhile (p := (· < h / bottomSz)) (l := s.bottomKeys)] at hkey
    rcases mem_append.mp hkey with hlow | hhigh
    · exact mem_append_left _ hlow
    · exact mem_append_right _ (mem_cons_of_mem _ hhigh)

theorem lt_of_mem_dropWhile {key k : Nat} {keys : List Nat} (hsorted : keys.Pairwise (· < ·)) (hkey : key ∉ keys)
    (hk : k ∈ keys.dropWhile (· < key)) : key < k := by
  induction keys with
  | nil => cases hk
  | cons x keys ih =>
    obtain ⟨hx,hkeys⟩ := pairwise_cons.mp hsorted
    obtain ⟨hne,hnot⟩ := not_or.mp (fun h => hkey (mem_cons.mpr h))
    rw [dropWhile_cons] at hk
    split at hk
    · exact ih hkeys hnot hk
    · rename_i hge
      have hle : key ≤ x := by simpa using hge
      rcases mem_cons.mp hk with rfl | hk
      · omega
      · exact lt_of_le_of_lt hle (hx k hk)

theorem getIndex_sorted {s : Heap} (h : Nat) (hsorted : s.bottomKeys.Pairwise (· < ·)) :
    (getIndex s h).bottomKeys.Pairwise (· < ·) := by
  unfold getIndex
  dsimp only
  split
  · exact hsorted
  · rename_i hkey
    have hhigh : ∀ k ∈ s.bottomKeys.dropWhile (· < h / bottomSz), h / bottomSz < k :=
      fun k hk => lt_of_mem_dropWhile hsorted hkey hk
    refine pairwise_append.mpr ⟨hsorted.sublist (takeWhile_sublist _),
      pairwise_cons.mpr ⟨hhigh,hsorted.sublist (dropWhile_sublist _)⟩,?_⟩
    intro j hj k hk
    have hlow : j < h / bottomSz := by simpa using mem_takeWhile_imp hj
    rcases mem_cons.mp hk with rfl | hk
    · exact hlow
    · exact hlow.trans (hhigh k hk)

theorem installHeader_keys (s : Heap) (h : Nat) :
    (installHeader s h).2.bottomKeys = (getIndex s.invalidateHdrCache h).bottomKeys := by
  unfold installHeader allocHdr
  dsimp only
  split <;> rfl

theorem Keyed.installHeader (h : Keyed s) (n : Nat) : Keyed (installHeader s n).2 := by
  have hkeys := installHeader_keys s n
  refine ⟨fun m hm => ?_,hkeys ▸ getIndex_sorted n h.sorted⟩
  rw [hkeys]
  by_cases hmn : m = n
  · subst hmn
    exact getIndex_mem _ _
  · rw [installHeader_index,update_of_ne hmn] at hm
    exact getIndex_mono (h.mem m hm)

theorem indexBlock_sorted {stop fuel h : Nat} {s : Heap} (hsorted : s.bottomKeys.Pairwise (· < ·)) :
    (indexBlock stop fuel h s).bottomKeys.Pairwise (· < ·) := by
  induction fuel generalizing h s with
  | zero => exact hsorted
  | succ fuel ih =>
    unfold indexBlock
    split
    · dsimp only
      split
      · exact getIndex_sorted h hsorted
      · exact ih (getIndex_sorted h hsorted)
    · exact hsorted

theorem indexBlock_mono {stop fuel h key : Nat} {s : Heap} (hkey : key ∈ s.bottomKeys) :
    key ∈ (indexBlock stop fuel h s).bottomKeys := by
  induction fuel generalizing h s with
  | zero => exact hkey
  | succ fuel ih =>
    unfold indexBlock
    split
    · dsimp only
      split
      · exact getIndex_mono hkey
      · exact ih (getIndex_mono hkey)
    · exact hkey

theorem indexBlock_mem {stop fuel h j : Nat} (s : Heap) (hj : j < fuel)
    (hstop : (h + bottomSz * j) * hblkSize < stop) (hmax : (h + bottomSz * j) * hblkSize ≤ wordMax) :
    (h + bottomSz * j) / bottomSz ∈ (indexBlock stop fuel h s).bottomKeys := by
  induction fuel generalizing h j s with
  | zero => omega
  | succ fuel ih =>
    have hlow : h * hblkSize ≤ (h + bottomSz * j) * hblkSize := Nat.mul_le_mul_right _ (by omega)
    unfold indexBlock
    rw [if_pos (by omega)]
    dsimp only
    cases j with
    | zero =>
      rw [Nat.mul_zero,Nat.add_zero]
      split
      · exact getIndex_mem s h
      · exact indexBlock_mono (getIndex_mem s h)
    | succ j =>
      have hnext : h + bottomSz * (j + 1) = h + bottomSz + bottomSz * j := by
        rw [Nat.mul_add,Nat.mul_one]
        omega
      have hroom : ¬ h * hblkSize > wordMax - bottomSz * hblkSize := by
        have hle : (h + bottomSz) * hblkSize ≤ (h + bottomSz * (j + 1)) * hblkSize :=
          Nat.mul_le_mul_right _ (by omega)
        rw [Nat.add_mul] at hle
        omega
      rw [if_neg hroom,hnext]
      rw [hnext] at hstop hmax
      exact ih (getIndex s h) (by omega) hstop hmax

theorem Keyed.installCounts (h : Keyed s) {sz : Nat} (hsz : 0 < sz)
    (hmax : n * hblkSize + sz ≤ wordMax) : Keyed (installCounts s n sz) := by
  have hkeys : (Headers.installCounts s n sz).bottomKeys = (getIndex (indexBlock (n * hblkSize + sz)
      (divHblksz sz + 1) n s.invalidateHdrCache) ((n * hblkSize + sz - 1) / hblkSize)).bottomKeys := by
    unfold Headers.installCounts
    rw [forwardLoop_eq]
  refine ⟨fun m hm => ?_,hkeys ▸ getIndex_sorted _ (indexBlock_sorted h.sorted)⟩
  rw [hkeys]
  obtain ⟨keys,heq⟩ := installCounts_eq s n sz
  rw [heq] at hm
  dsimp only at hm
  split at hm
  · rename_i hin
    -- The loop stops short of the last bottom index unless `n` is aligned to one.
    have hlast : (n * hblkSize + sz - 1) / hblkSize = n + (objSzToBlocks sz - 1) := by
      unfold objSzToBlocks divHblksz hblkSize
      omega
    have hsize : (n + (objSzToBlocks sz - 1)) * hblkSize < n * hblkSize + sz := by
      unfold objSzToBlocks divHblksz hblkSize
      omega
    rw [hlast]
    set last := n + (objSzToBlocks sz - 1)
    by_cases hfar : n + bottomSz * (m / bottomSz - n / bottomSz) ≤ last
    · have hkey : m / bottomSz = (n + bottomSz * (m / bottomSz - n / bottomSz)) / bottomSz := by
        have := Nat.div_le_div_right (c := bottomSz) hin.1.le
        rw [Nat.add_mul_div_left _ _ (by decide)]
        omega
      have hbound := Nat.mul_le_mul_right hblkSize hfar
      have hfuel : m / bottomSz - n / bottomSz < divHblksz sz + 1 := by
        unfold divHblksz
        unfold hblkSize bottomSz at *
        omega
      rw [hkey]
      exact getIndex_mono (indexBlock_mem _ hfuel (by omega) (by omega))
    · have hkey : m / bottomSz = last / bottomSz := by
        unfold bottomSz at *
        omega
      rw [hkey]
      exact getIndex_mem _ _
  · exact getIndex_mono (indexBlock_mono (h.mem m hm))

end Keys

end GcUtil.Block.HeaderTable
