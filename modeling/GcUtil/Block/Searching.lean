import GcUtil.Block.ChainMerging

/-! `GC_allochblk`: the search for a block, on one list and on all of them, stays in
the heap and keeps its invariant. -/
namespace GcUtil.Block.Searching
open List
open Basic Headers FreeLists Allocator HeaderTable LinkedLists BlockMap JointInvariant Reserving Splitting
open Unmapping UsedBlocks Merging ChainMerging Library.Outcome Library.DoublyLinked

variable {s s' t : Heap} {n p i k fuel : Nat} {L : Nat → List Nat} {cells : Finset Nat}
variable {a l : List Nat} {b : Blk} {req : Request}

structure Legal (req : Request) : Prop where
  pos : 0 < req.lbAdjusted
  align : req.alignM1 = 0 ∨ hblkSize ∣ req.alignM1 + 1

structure Sound (req : Request) : Prop where
  pos : 0 < req.lbAdjusted
  align : req.alignM1 + 1 ∣ hblkSize ∨ hblkSize ∣ req.alignM1 + 1

theorem Legal.sound (h : Legal req) : Sound req where
  pos := h.pos
  align := h.align.imp_left fun h0 => by rw [h0]; exact Nat.one_dvd _

theorem sound_of_isPowerOfTwo (hpos : 0 < req.lbAdjusted) (halign : (req.alignM1 + 1).isPowerOfTwo) :
    Sound req where
  pos := hpos
  align := by
    obtain ⟨k,hk⟩ := halign
    rw [hk,show hblkSize = 2 ^ 12 from rfl,Nat.pow_dvd_pow_iff_le_right (by decide),
      Nat.pow_dvd_pow_iff_le_right (by decide)]
    exact Nat.le_total k 12

section Alignment

variable {alignM1 : Nat}

theorem alignPadSz_cases (h alignM1 : Nat) :
    (h * hblkSize % (alignM1 + 1) = 0 ∧ alignPadSz h alignM1 = 0) ∨
      (0 < h * hblkSize % (alignM1 + 1) ∧
        alignPadSz h alignM1 = alignM1 + 1 - h * hblkSize % (alignM1 + 1)) := by
  unfold alignPadSz
  have hlt := Nat.mod_lt (h * hblkSize) (Nat.add_one_pos alignM1)
  rcases Nat.eq_zero_or_pos (h * hblkSize % (alignM1 + 1)) with h0 | hpos
  · exact .inl ⟨h0,by rw [h0,Nat.sub_zero,Nat.mod_self]⟩
  · exact .inr ⟨hpos,Nat.mod_eq_of_lt (by omega)⟩

theorem alignPadSz_dvd (halign : alignM1 + 1 ∣ hblkSize ∨ hblkSize ∣ alignM1 + 1) (h : Nat) :
    divHblksz (alignPadSz h alignM1) * hblkSize = alignPadSz h alignM1 := by
  apply Nat.div_mul_cancel
  rcases alignPadSz_cases h alignM1 with ⟨_,h0⟩ | ⟨hpos,heq⟩
  · rw [h0]
    exact Nat.dvd_zero _
  · rcases halign with hpart | hdvd
    · rw [Nat.mod_eq_zero_of_dvd (hpart.mul_left h)] at hpos
      omega
    · rw [heq]
      exact Nat.dvd_sub hdvd ((Nat.dvd_mod_iff hdvd).mpr (Nat.dvd_mul_left _ _))

theorem alignPadSz_aligned (h alignM1 : Nat) : alignM1 + 1 ∣ h * hblkSize + alignPadSz h alignM1 := by
  rcases alignPadSz_cases h alignM1 with ⟨h0,heq⟩ | ⟨_,heq⟩
  · rw [heq,Nat.add_zero (h * hblkSize)]
    exact Nat.dvd_of_mod_eq_zero h0
  · have hdiv := Nat.div_add_mod (h * hblkSize) (alignM1 + 1)
    have hlt := Nat.mod_lt (h * hblkSize) (Nat.add_one_pos alignM1)
    refine ⟨h * hblkSize / (alignM1 + 1) + 1,?_⟩
    rw [Nat.mul_succ]
    omega

theorem alignPadSz_hblk_aligned (halign : alignM1 + 1 ∣ hblkSize ∨ hblkSize ∣ alignM1 + 1) (h : Nat) :
    alignM1 + 1 ∣ (h + divHblksz (alignPadSz h alignM1)) * hblkSize := by
  rw [Nat.add_mul,alignPadSz_dvd halign]
  exact alignPadSz_aligned h alignM1

theorem alignPadSz_le {bound : Nat} (hbound : alignM1 + 1 ∣ bound) {h : Nat}
    (hle : h * hblkSize ≤ bound) : h * hblkSize + alignPadSz h alignM1 ≤ bound := by
  rcases alignPadSz_cases h alignM1 with ⟨_,h0⟩ | ⟨hpos,heq⟩
  · omega
  · obtain ⟨c,rfl⟩ := hbound
    have hdiv := Nat.div_add_mod (h * hblkSize) (alignM1 + 1)
    have hlt : h * hblkSize / (alignM1 + 1) < c := by
      apply Nat.lt_of_mul_lt_mul_left (a := alignM1 + 1)
      omega
    have hmul := Nat.mul_le_mul_left (alignM1 + 1) (Nat.succ_le_of_lt hlt)
    rw [Nat.mul_succ] at hmul
    omega

end Alignment

section BlackLists

theorem isBlackListedLoop_gt {bl : BlackLists} {h nblocks j x : Nat}
    (hx : isBlackListedLoop bl h nblocks fuel j = some x) : h < x := by
  induction fuel generalizing j with
  | zero => simp [isBlackListedLoop] at hx
  | succ fuel ih =>
    rw [isBlackListedLoop] at hx
    split at hx
    · split at hx
      · cases hx
      · exact ih hx
    · split at hx
      · cases hx
        omega
      · split at hx
        · cases hx
        · exact ih hx

theorem isBlackListed_gt {bl : BlackLists} {h len x : Nat} (hx : isBlackListed bl h len = some x) :
    h < x := by
  unfold isBlackListed at hx
  dsimp only at hx
  split at hx
  · cases hx
    omega
  · exact isBlackListedLoop_gt hx

theorem isBlackListedLoop_one {bl : BlackLists} {h j x : Nat}
    (hx : isBlackListedLoop bl h 1 fuel j = some x) : x = h + j + 1 := by
  cases fuel with
  | zero => simp [isBlackListedLoop] at hx
  | succ fuel =>
    rw [isBlackListedLoop] at hx
    split at hx
    · rw [if_pos (by omega)] at hx
      cases hx
    · rw [if_pos (by omega : 1 ≤ j + 1)] at hx
      split at hx <;> cases hx
      rfl

theorem isBlackListed_one {bl : BlackLists} {h x : Nat} (hx : isBlackListed bl h hblkSize = some x) :
    x = h + 1 := by
  unfold isBlackListed at hx
  dsimp only at hx
  split at hx
  · exact (Option.some.inj hx).symm
  · exact isBlackListedLoop_one hx

theorem alignPadSz_zero (h : Nat) : alignPadSz h 0 = 0 := by
  rw [alignPadSz,Nat.zero_add,Nat.mod_one]

theorem findNonBlLoop_none {bl : BlackLists} {searchEnd last : Nat}
    (h : findNonBlLoop bl searchEnd hblkSize 0 fuel last = some none) :
    ∀ x, last ≤ x → x * hblkSize ≤ searchEnd → (isBlackListed bl x hblkSize).isSome := by
  induction fuel generalizing last with
  | zero => simp [findNonBlLoop] at h
  | succ fuel ih =>
    rw [findNonBlLoop,alignPadSz_zero] at h
    intro x hx hend
    split at h
    · cases h
    · rename_i next hnext
      obtain rfl := isBlackListed_one hnext
      rcases Nat.eq_or_lt_of_le hx with rfl | hlt
      · exact Option.isSome_iff_exists.mpr ⟨_,hnext⟩
      · have hle : (last + 1) * hblkSize ≤ x * hblkSize := Nat.mul_le_mul_right _ hlt
        have hstart : last + divHblksz 0 + 1 = last + 1 := rfl
        rw [hstart,if_pos (by omega)] at h
        exact ih h x hlt hend

theorem findNonBlLoop_spec {bl : BlackLists} {searchEnd size alignM1 last : Nat}
    (halign : alignM1 + 1 ∣ hblkSize ∨ hblkSize ∣ alignM1 + 1) (hend : alignM1 + 1 ∣ searchEnd)
    (hlast : last * hblkSize ≤ searchEnd) :
    Returns (searchEnd < (last + fuel) * hblkSize) (findNonBlLoop bl searchEnd size alignM1 fuel last)
      fun r => ∀ x, r = some x →
        last ≤ x ∧ x * hblkSize ≤ searchEnd ∧ alignM1 + 1 ∣ x * hblkSize := by
  induction fuel generalizing last with
  | zero =>
    rw [findNonBlLoop,returns_none,Nat.add_zero]
    omega
  | succ fuel ih =>
    have hpad := alignPadSz_dvd halign last
    have hle := alignPadSz_le hend hlast
    rw [← hpad,← Nat.add_mul] at hle
    rw [findNonBlLoop]
    split
    · rw [returns_some]
      rintro x hx
      cases hx
      exact ⟨by omega,hle,alignPadSz_hblk_aligned halign last⟩
    · rename_i next hnext
      have hgt := isBlackListed_gt hnext
      split
      · rename_i hin
        refine (ih hin).mono (fun hlt => ?_) fun r hr x hx => ?_
        · have hmore : last + (fuel + 1) ≤ next + fuel := by omega
          exact lt_of_lt_of_le hlt (Nat.mul_le_mul_right hblkSize hmore)
        · have := hr x hx
          exact ⟨by omega,this.2⟩
      · simp

/-- Where the padding fits, rounding the end of the search down does not pass its start. -/
theorem le_searchEnd {alignM1 remain : Nat} (hroom : alignPadSz n alignM1 ≤ remain) :
    n * hblkSize ≤ (n * hblkSize + remain) / (alignM1 + 1) * (alignM1 + 1) := by
  obtain ⟨c,hc⟩ := alignPadSz_aligned n alignM1
  have hle : c ≤ (n * hblkSize + remain) / (alignM1 + 1) := by
    rw [Nat.le_div_iff_mul_le (Nat.add_one_pos alignM1),Nat.mul_comm]
    omega
  have hmul := Nat.mul_le_mul_right (alignM1 + 1) hle
  rw [Nat.mul_comm c] at hmul
  omega

theorem findNonBlHblk_spec (bl : BlackLists) (fuel size : Nat) {alignM1 remain : Nat}
    (halign : alignM1 + 1 ∣ hblkSize ∨ hblkSize ∣ alignM1 + 1) (hroom : alignPadSz n alignM1 ≤ remain) :
    Returns (remain < fuel * hblkSize) (findNonBlHblk bl fuel n remain size alignM1)
      fun r => ∀ x, r = some x →
        n ≤ x ∧ x * hblkSize ≤ n * hblkSize + remain ∧ alignM1 + 1 ∣ x * hblkSize := by
  have hstart := le_searchEnd hroom
  have hdown := Nat.div_mul_le_self (n * hblkSize + remain) (alignM1 + 1)
  unfold findNonBlHblk
  refine (findNonBlLoop_spec halign (Nat.dvd_mul_left _ _) hstart).mono (fun hlt => ?_)
    fun r hr x hx => ?_
  · rw [Nat.add_mul]
    omega
  · obtain ⟨hlo,hhi,haligned⟩ := hr x hx
    exact ⟨hlo,by omega,haligned⟩

end BlackLists

section Judging

def AllBlackListed (env : AllocEnv) (n e : Nat) : Prop :=
  ∀ x, n ≤ x → x < e → (isBlackListed env.blackLists x hblkSize).isSome

theorem nextHblkFitsBetter_some (env : AllocEnv) {hhdr : Hdr}
    (h : ∀ m, hhdr.hbNext = some m → (s.hdrAt m).isSome) (sizeAvail sizeNeeded alignM1 : Nat) :
    ∃ r, nextHblkFitsBetter env s hhdr sizeAvail sizeNeeded alignM1 = some r := by
  unfold nextHblkFitsBetter
  cases hn : hhdr.hbNext with
  | none => exact ⟨false,rfl⟩
  | some m =>
    obtain ⟨hb,hm⟩ := Option.isSome_iff_exists.mp (h m hn)
    simp [hm]

def Fits (req : Request) (n : Nat) (b : Blk) (last : Nat) : Prop :=
  ∃ k, last = n + k ∧ k + objSzToBlocks req.lbAdjusted ≤ b.blocks

theorem fits_align (hsound : Sound req) (hwhole : b.blocks * hblkSize = b.sz)
    (hroom : req.sizeNeeded + alignPadSz n req.alignM1 ≤ b.sz) :
    Fits req n b (n + divHblksz (alignPadSz n req.alignM1)) := by
  refine ⟨_,rfl,?_⟩
  have hpad := alignPadSz_dvd hsound.align n
  unfold Request.sizeNeeded at hroom
  unfold hblkSize at *
  omega

def Aligned (req : Request) (h : Nat) : Prop := req.alignM1 + 1 ∣ h * hblkSize

def VerdictOk (req : Request) (n : Nat) (b : Blk) : Verdict → Prop
  | .skip => True
  | .take last => Fits req n b last
  | .blackListed => req.sizeNeeded + alignPadSz n req.alignM1 ≤ b.sz

theorem findNonBlHblk_none {env : AllocEnv} {fuel : Nat} (hwhole : b.blocks * hblkSize = b.sz)
    (hneed : req.sizeNeeded = hblkSize) (halign : req.alignM1 = 0)
    (h : findNonBlHblk env.blackLists fuel n (b.sz - req.sizeNeeded)
      (if req.ignoreOffPage then hblkSize else req.sizeNeeded) req.alignM1 = some none) :
    AllBlackListed env n (n + b.blocks) := by
  rw [hneed,ite_self,halign,findNonBlHblk,Nat.zero_add,Nat.div_one,Nat.mul_one] at h
  intro x hx hlt
  refine findNonBlLoop_none h x hx ?_
  unfold hblkSize at *
  omega

theorem judge_spec (env : AllocEnv) (fuel : Nat) (hsound : Sound req) (maySplit : MaySplit)
    (h : Blocks s L cells ∅) (hl : L i = a ++ n :: l)
    (hp : s.index n = .hdr p) (hb : blkAt s n = some b) (hfree : b.free = true) :
    Returns (cells.card < fuel) (judge env fuel req maySplit s n (s.hdrs p))
      fun v => VerdictOk req n b v ∧ (∀ last, v = .take last → Aligned req last) ∧
        (v = .blackListed → req.sizeNeeded = hblkSize → req.alignM1 = 0 →
          AllBlackListed env n (n + b.blocks)) := by
  have hwhole := blocks_mul_of_dvd ((h.layout.blocks hb).whole hfree)
  have hsz := hbSz_of_blkAt hp hb
  have hnext : ∀ m, (s.hdrs p).hbNext = some m → (s.hdrAt m).isSome := by
    intro m hm
    rw [← nextAt_of_index hp] at hm
    have hmem : n ∈ L i := by simp [hl]
    exact h.lists.isBlock ((h.lists.neighbours hmem).1 m hm).1
  have hskip : VerdictOk req n b .skip ∧ (∀ last, Verdict.skip = .take last → Aligned req last) ∧
      (Verdict.skip = .blackListed → req.sizeNeeded = hblkSize → req.alignM1 = 0 →
        AllBlackListed env n (n + b.blocks)) :=
    ⟨trivial,by simp,by simp⟩
  unfold judge
  simp only [hsz]
  split
  · exact hskip
  split
  · exact hskip
  rename_i hroom
  split
  · rename_i hnone
    split at hnone
    · cases hnone
    · obtain ⟨r,hr⟩ := nextHblkFitsBetter_some env hnext b.sz req.sizeNeeded req.alignM1
      rw [hr] at hnone
      cases hnone
  · exact hskip
  split
  · exact hskip
  split
  · refine ⟨fits_align hsound hwhole (by omega),fun last hlast => ?_,by simp⟩
    cases hlast
    exact alignPadSz_hblk_aligned hsound.align n
  · have hspec := findNonBlHblk_spec env.blackLists fuel
      (if req.ignoreOffPage then hblkSize else req.sizeNeeded) hsound.align
      (show alignPadSz n req.alignM1 ≤ b.sz - req.sizeNeeded by omega)
    have hcard := h.layout.tiles.le_card (Layout.len_eq hb)
    split
    · rename_i hnone
      rw [hnone] at hspec
      intro hlt
      apply hspec
      unfold hblkSize at *
      omega
    · rename_i hnone
      refine ⟨?_,by simp,fun _ hneed halign => findNonBlHblk_none hwhole hneed halign hnone⟩
      change _ ≤ _
      omega
    · rename_i last hlast
      rw [hlast] at hspec
      obtain ⟨hle,hend,haligned⟩ := hspec last rfl
      split
      · exact hskip
      · refine ⟨⟨last - n,by omega,?_⟩,fun x hx => by cases hx; exact haligned,by simp⟩
        unfold Request.sizeNeeded at hroom hend
        unfold hblkSize at *
        omega

end Judging

section Outcomes

variable (env : AllocEnv)

def DroppedAt (req : Request) (s t : Heap) (x : Nat) : Prop :=
  req.sizeNeeded = hblkSize ∧ ∃ n e, FreeTiled s n e ∧ n ≤ x ∧ x < e ∧ AllBlackListed env n e ∧
    ∀ y, n ≤ y → y < e → Dropped env t y

/-- What the allocator does on its way to a block: chunks of black-listed blocks are
dropped and memory that is not in use is remapped. -/
structure Sheds (req : Request) (s t : Heap) : Prop where
  drops : Drops env s t
  remaps : Remaps s t
  descends : Descends s t
  whole : ∀ x, usedAt t x ≠ usedAt s x → DroppedAt env req s t x
  sects : t.heapSects = s.heapSects

structure Allocated (req : Request) (s : Heap) (h : Nat) (s' : Heap) : Prop where
  unused : usedAt s h = none
  spares : Spares {h} s s'
  setUp : SetUp env s' h req.lbAdjusted req.kind req.ignoreOffPage
  aligned : Aligned req h
  sects : s'.heapSects = s.heapSects
  inside : ∃ n b, blkAt s n = some b ∧ b.free = true ∧ n ≤ h ∧
    h + objSzToBlocks req.lbAdjusted ≤ n + b.blocks ∧ ∀ x, n ≤ x → x < n + b.blocks → ¬ InUse s x

def Outcome (req : Request) (s : Heap) (r : Option Nat × Heap) : Prop :=
  ∃ t, Sheds env req s t ∧ Remaps t r.2 ∧
    match r.1 with
    | none => r.2 = t
    | some h => Allocated env req t h r.2

variable {env}

theorem Sheds.refl (s : Heap) : Sheds env req s s :=
  ⟨Drops.refl s,Remaps.refl s,Descends.refl s,fun _ hne => absurd rfl hne,rfl⟩

theorem Sheds.trans {u : Heap} (h : Sheds env req s t) (h' : Sheds env req t u) : Sheds env req s u where
  drops := h.drops.trans h'.drops
  remaps := h.remaps.trans (fun _ => h.drops.inUse) h'.remaps
  descends := h.descends.trans h'.descends
  whole x hne := by
    by_cases hst : usedAt t x = usedAt s x
    · obtain ⟨hneed,n,e,htiled,hin⟩ := h'.whole x (by rwa [hst])
      exact ⟨hneed,n,e,htiled.descend h.descends,hin⟩
    · obtain ⟨hneed,n,e,htiled,hlo,hhi,hblack,hdropped⟩ := h.whole x hst
      exact ⟨hneed,n,e,htiled,hlo,hhi,hblack,fun y hy hye => h'.drops.dropped (hdropped y hy hye)⟩
  sects := h'.sects.trans h.sects

theorem Sheds.of_rearranged (h : Rearranged s t) : Sheds env req s t where
  drops := h.idle.spares.drops
  remaps := h.idle.remaps
  descends := h.descends
  whole x hne := absurd (h.idle.spares.same x (by simp)) hne
  sects := congrArg (·.2.2) h.counts

theorem Sheds.outcome (h : Sheds env req s t) : Outcome env req s (none, t) := ⟨t,h,Remaps.refl t,rfl⟩

theorem Outcome.sheds (h : Outcome env req s (none, t)) : Sheds env req s t := by
  obtain ⟨_,hsheds,_,rfl⟩ := h
  exact hsheds

theorem Outcome.sects {r : Option Nat × Heap} (h : Outcome env req s r) : r.2.heapSects = s.heapSects := by
  obtain ⟨found,s'⟩ := r
  obtain ⟨t,hsheds,_,hout⟩ := h
  cases found with
  | none =>
    obtain rfl : s' = t := hout
    exact hsheds.sects
  | some x => exact (Allocated.sects hout).trans hsheds.sects

theorem Outcome.after {r : Option Nat × Heap} (h' : Outcome env req t r) (h : Sheds env req s t) :
    Outcome env req s r := by
  obtain ⟨u,hsheds,hrest⟩ := h'
  exact ⟨u,h.trans hsheds,hrest⟩

end Outcomes

section OneList

theorem dropHblkInChunks_ok (env : AllocEnv) (h : HeapOk s L cells) (hp : s.index n = .hdr p) (hb : blkAt s n = some b)
    (hmem : n ∈ L i) (hmapped : (s.hdrs p).isMapped = true) (hneed : req.sizeNeeded = hblkSize)
    (hblack : AllBlackListed env n (n + b.blocks)) :
    ∃ s', dropHblkInChunks env s i n p = some s' ∧
      HeapOk s' (Function.update L i ((L i).erase n)) cells ∧ Sheds env req s s' ∧
      unmappedAt s' = unmappedAt s := by
  obtain ⟨s',hs',hB,htotal,hcount⟩ := dropHblkInChunks_spec env h.blocks hp hb hmem
  have hlarge := h.large
  have hok := h.blocks.layout.blocks hb
  have hfree := ((h.blocks.placed hb (by simp) i).mp hmem).1
  have hwhole := hok.whole hfree
  have hpos := hok.blocks_pos
  have hin : ∀ x, n < x → x < n + divHblksz (s.hdrs p).hbSz → s.hdrAt x = none := by
    intro x hx hlt
    rw [hbSz_of_blkAt hp hb,divHblksz_eq_blocks hwhole] at hlt
    have := h.blocks.layout.interior_none hb (i := x - n) (by omega) (by omega)
    rw [Nat.add_sub_cancel' (by omega)] at this
    exact blkAt_eq_none.mp this
  have hsize : hblkSize ≤ (s.hdrs p).hbSz := by
    rw [hbSz_of_blkAt hp hb,← blocks_mul_of_dvd hwhole]
    exact Nat.le_mul_of_pos_left _ hpos
  obtain ⟨hsteady,hbodies,hdropped⟩ := dropHblkInChunks_chunks env h.blocks.hdrs hp
    ((isFree_of_blkAt hp hb).trans hfree) hmapped hin hsize hs'
  rw [hbSz_of_blkAt hp hb,divHblksz_eq_blocks hwhole] at hbodies hdropped
  have hout : ∀ x, usedAt s' x ≠ usedAt s x → n ≤ x ∧ x < n + b.blocks := by
    intro x hne
    by_contra hx
    exact hne (usedAt_of_bodyAt (hbodies x (by omega)))
  refine ⟨s',hs',h.shift hB (by omega) hcount (h.accounts.steady hsteady),⟨?_,Remaps.of_silent hsteady,
    Descends.of_blks fun x c hc hcfree => ?_,fun x hne => ?_,congrArg (·.2.2) hcount⟩,hsteady.unmappedAt_eq⟩
  · intro x
    by_cases hne : usedAt s' x = usedAt s x
    · exact .inl hne
    · exact .inr (hdropped x (hout x hne).1 (hout x hne).2)
  · by_cases hx : n ≤ x ∧ x < n + b.blocks
    · obtain ⟨gcNo,hset⟩ := (hdropped x hx.1 hx.2).2
      obtain ⟨c',hc',hused,_⟩ := usedAt_eq_some hset
      rw [hc] at hc'
      cases hc'
      rw [hcfree] at hused
      cases hused
    · rw [← hc,blkAt_of_bodyAt (hbodies x (by omega))]
  · exact ⟨hneed,n,n + b.blocks,freeTiled_of_blk hb hfree,(hout x hne).1,(hout x hne).2,hblack,
      fun y hy hyb => (hdropped y hy hyb).2⟩

theorem heapOk_count (h : HeapOk s L cells) (c : Nat) :
    HeapOk { s with dropBlacklistedCount := c } L cells ∧
      Rearranged s { s with dropBlacklistedCount := c } := by
  have hkeeps : Keeps ∅ [] s { s with dropBlacklistedCount := c } :=
    Keeps.congr rfl rfl rfl rfl rfl rfl
  exact ⟨h.keep (h.blocks.congr rfl rfl rfl rfl rfl rfl) rfl rfl (h.accounts.steady hkeeps.steady),
    ⟨spares_of_silent hkeeps,Remaps.of_silent hkeeps.steady⟩,Descends.of_blks fun _ _ hb _ => hb,rfl⟩

/-- What the search needs of an invariant `I` of the heap and its lists, and of a relation
`R` for what happens on the way: `m` bounds the heap, and a drop keeps both. -/
structure Searchable (drop : Heap → Nat → Nat → Nat → Option Heap) (env : AllocEnv) (req : Request)
    (i m : Nat) (I : Heap → (Nat → List Nat) → Prop) (R : Heap → Heap → Prop) : Prop where
  refl : ∀ s, R s s
  trans : ∀ {s t u}, R s t → R t u → R s u
  blocks : ∀ {s L}, I s L → ∃ cells, Blocks s L cells ∅ ∧ cells.card ≤ m
  count : ∀ {s L} c, I s L →
    I { s with dropBlacklistedCount := c } L ∧ R s { s with dropBlacklistedCount := c }
  drop : ∀ {s L n p b}, I s L → s.index n = .hdr p → blkAt s n = some b → n ∈ L i →
    (s.hdrs p).isMapped = true → req.sizeNeeded = hblkSize → AllBlackListed env n (n + b.blocks) →
    ∃ s', drop s i n p = some s' ∧ I s' (Function.update L i ((L i).erase n)) ∧ R s s'

structure SearchOk (I : Heap → (Nat → List Nat) → Prop) (R : Heap → Heap → Prop) (req : Request) (i : Nat)
    (s : Heap) (r : Option (Nat × Nat) × Heap) : Prop where
  inv : ∃ L, I r.2 L ∧ ∀ n last, r.1 = some (n, last) →
    ∃ b, blkAt r.2 n = some b ∧ b.free = true ∧ flOf b.sz = i ∧ Fits req n b last
  onWay : R s r.2
  aligned : ∀ n last, r.1 = some (n, last) → Aligned req last

theorem erase_middle (hnodup : (a ++ n :: l).Nodup) : (a ++ n :: l).erase n = a ++ l := by
  have hnot : n ∉ a := fun ha => (nodup_cons.mp (nodup_middle.mp hnodup)).1 (by simp [ha])
  rw [erase_append_right _ hnot,erase_cons_head]

/-- After a drop the search goes on with the element behind the dropped one. -/
theorem resumeAt_eq (h : Blocks s L cells ∅) (hl : L i = a ++ l) : resumeAt s i a.getLast? = some l.head? := by
  have hlinked := h.lists.linked i
  rcases eq_nil_or_concat a with rfl | ⟨a,m,rfl⟩
  · exact congrArg some (by rw [hlinked.head_eq,hl,nil_append])
  · rw [concat_eq_append] at *
    have hm := h.lists.isBlock (n := m) (i := i) (by rw [hl]; simp)
    obtain ⟨hhdr,hm⟩ := Option.isSome_iff_exists.mp hm
    rw [hl,append_assoc,singleton_append] at hlinked
    have hnext := hlinked.split.2.1
    rw [nextAt,hm] at hnext
    have hlast : (a ++ [m]).getLast? = some m := by simp
    rw [hlast,resumeAt,hm]
    exact congrArg some hnext

section Loop

variable {drop : Heap → Nat → Nat → Nat → Option Heap} {env : AllocEnv} {m : Nat}
variable {I : Heap → (Nat → List Nat) → Prop} {R : Heap → Heap → Prop} {r : Option (Nat × Nat) × Heap}

theorem SearchOk.nothing (hI : Searchable drop env req i m I R) (h : I s L) : SearchOk I R req i s (none, s) :=
  ⟨⟨L,h,fun n last hn => by cases hn⟩,hI.refl s,fun n last hn => by cases hn⟩

theorem SearchOk.found {last : Nat} (h : I t L) (hway : R s t) (hb : blkAt t n = some b) (hfree : b.free = true)
    (hfl : flOf b.sz = i) (hfit : Fits req n b last) (haligned : Aligned req last) :
    SearchOk I R req i s (some (n, last), t) := by
  refine ⟨⟨L,h,fun m last' hm => ?_⟩,hway,fun m last' hm => ?_⟩
  · cases hm
    exact ⟨b,hb,hfree,hfl,hfit⟩
  · cases hm
    exact haligned

theorem SearchOk.after (hI : Searchable drop env req i m I R) (hway : R s t) (h : SearchOk I R req i t r) :
    SearchOk I R req i s r :=
  ⟨h.inv,hI.trans hway h.onWay,h.aligned⟩

theorem searchLoop_spec (hI : Searchable drop env req i m I R) (fuel : Nat) (hsound : Sound req)
    (maySplit : MaySplit) (h : I s L) (hl : L i = a ++ l) :
    Returns (m < fuel ∧ l.length ≤ k) (searchLoop drop env fuel req i maySplit k l.head? s)
      (SearchOk I R req i s) := by
  induction k generalizing s L a l with
  | zero =>
    cases l with
    | nil => exact SearchOk.nothing hI h
    | cons n l => simp [searchLoop]
  | succ k ih =>
    cases l with
    | nil => exact SearchOk.nothing hI h
    | cons n l =>
      obtain ⟨cells,hB,hcard⟩ := hI.blocks h
      obtain ⟨p,b,hp,hb,hfree,hfl,hnext,hprev⟩ := hB.current hl
      have hmem : n ∈ L i := by simp [hl]
      have hwhole := blocks_mul_of_dvd ((hB.layout.blocks hb).whole hfree)
      have hjudge := judge_spec env fuel hsound maySplit hB hl hp hb hfree
      -- Going on to the next element, in any state whose list continues with it.
      have hgo : ∀ {t L'} {a' : List Nat}, I t L' → L' i = a' ++ l → R s t →
          Returns (m < fuel ∧ (n :: l).length ≤ k + 1)
            (searchLoop drop env fuel req i maySplit k l.head? t) (SearchOk I R req i s) := by
        intro t L' a' ht hl' hway
        refine (ih ht hl').mono ?_ fun _ => .after hI hway
        simp only [length_cons]
        omega
      have hbehind : L i = a ++ [n] ++ l := by simp [hl]
      simp only [List.head?_cons,searchLoop,hp,hnext,hprev]
      split
      · rename_i hnone
        rw [hnone] at hjudge
        exact fun henough => hjudge (by omega)
      · exact hgo h hbehind (hI.refl s)
      · rename_i last htake
        rw [htake] at hjudge
        exact SearchOk.found h (hI.refl s) hb hfree hfl hjudge.1 (hjudge.2.1 last rfl)
      · rename_i hblack
        rw [hblack] at hjudge
        obtain ⟨hs1,hway⟩ : I (countDrop s (req.sizeNeeded = hblkSize ∧ req.alignM1 = 0 ∧
            (!env.findLeakInner) = true ∧ (s.hdrs p).isMapped = true)) L ∧ R s _ := hI.count _ h
        split
        · rename_i hdrop
          obtain ⟨s2,hs2,hok2,hway2⟩ := hI.drop hs1 hp hb hmem hdrop.1.2.2.2
            hdrop.1.1 (hjudge.2.2 rfl hdrop.1.1 hdrop.1.2.1)
          have hlist : Function.update L i ((L i).erase n) i = a ++ l := by
            have hnodup := (hB.lists.linked i).nodup
            rw [hl] at hnodup
            rw [Function.update_self,hl,erase_middle hnodup]
          obtain ⟨cells2,hB2,_⟩ := hI.blocks hok2
          rw [hs2,Option.bind_some,resumeAt_eq hB2 hlist]
          exact hgo hok2 hlist (hI.trans hway hway2)
        · split
          · exact SearchOk.found hs1 hway hb hfree hfl (fits_align hsound hwhole hjudge.1)
              (alignPadSz_hblk_aligned hsound.align n)
          · exact hgo hs1 hbehind hway

end Loop

theorem searchable_drop (env : AllocEnv) (req : Request) (i : Nat) (cells : Finset Nat) :
    Searchable (dropHblkInChunks env) env req i cells.card (fun s L => HeapOk s L cells)
      (Sheds env req) where
  refl := Sheds.refl
  trans := Sheds.trans
  blocks h := ⟨cells,h.blocks,le_refl _⟩
  count c h := by
    obtain ⟨hok,hrearranged⟩ := heapOk_count h c
    exact ⟨hok,Sheds.of_rearranged hrearranged⟩
  drop h hp hb hmem hmapped hneed hblack := by
    obtain ⟨s',hs',hok,hsheds,_⟩ := dropHblkInChunks_ok env h hp hb hmem hmapped hneed hblack
    exact ⟨s',hs',hok,hsheds⟩

theorem allochblkNth_spec (env : AllocEnv) (fuel i : Nat) (hsound : Sound req) (hfits : req.sizeNeeded < sizetSignb)
    (maySplit : MaySplit) (h : Ok cells s) :
    Returns (Enough cells fuel) (allochblkNth env fuel req i maySplit s)
      fun r => Ok cells r.2 ∧ Outcome env req s r := by
  obtain ⟨L,h⟩ := h
  have hsearch := searchLoop_spec (searchable_drop env req i cells) (k := fuel) fuel hsound maySplit h
    (a := []) rfl
  unfold allochblkNth
  rw [h.head]
  split
  · rename_i hnone
    rw [hnone] at hsearch
    intro henough
    have := henough.card_lt
    have := h.length_le i
    exact hsearch ⟨by omega,by omega⟩
  · rename_i t hnone
    rw [hnone] at hsearch
    obtain ⟨⟨L',ht,_⟩,hsheds,_⟩ := hsearch
    exact ⟨⟨L',ht⟩,hsheds.outcome⟩
  · rename_i n last t hfound
    rw [hfound] at hsearch
    obtain ⟨⟨L',ht,hfit⟩,hsheds,haligned⟩ := hsearch
    obtain ⟨b,hb,hfree,rfl,k,rfl,hle⟩ := hfit n last rfl
    obtain ⟨u,L'',hu,hB,htotal,hcount⟩ := takeBlock_spec env ht.blocks hb hfree hsound.pos hle hfits
    have hlarge := ht.large
    obtain ⟨p,hp,_⟩ := blkAt_eq_some.mp hb
    obtain ⟨hsteady,hnone,hunused,hspares,hsetUp⟩ :=
      takeBlock_taken env ht.blocks ht.accounts.high hp hb hfree hsound.pos hle hu
    have hacc := ht.accounts.remap (ht.blocks.layout.start_mem hb) hp hsteady hnone
    have hremaps : Remaps t u := by
      refine Remaps.of_steady hsteady fun c hc => ?_
      unfold remapCalls at hc
      split at hc
      · cases hc
      · obtain rfl := mem_singleton.mp hc
        exact fun x => not_inUse_of_bytes ht.blocks hp hb hfree
    rw [hu]
    exact ⟨⟨L'',ht.shift hB (by dsimp only at *; omega) hcount hacc⟩,t,hsheds,hremaps,hunused,hspares,
      hsetUp,haligned n (n + k) rfl,congrArg (·.2.2) hcount,n,b,hb,hfree,Nat.le_add_right n k,by omega,
      fun x hx hxb => not_inUse_of_free ht.blocks hb hfree ⟨hx,hxb⟩⟩

end OneList

section AllLists

/-- What the search over all lists needs: `P` relates the state it starts from to what it
comes to, and a part that finds nothing leaves a state with `I` to go on from. -/
structure Lawful {σ : Type} (S : Search σ) (env : AllocEnv) (enough : Prop) (I : σ → Prop)
    (P : σ → Option Nat × σ → Prop) : Prop where
  refl : ∀ {s}, I s → P s (none, s)
  after : ∀ {s t r}, P s (none, t) → P t r → P s r
  inv : ∀ {s t}, P s (none, t) → I t
  nth : ∀ {s} i maySplit, I s → Returns enough (S.nth env i maySplit s) (P s)
  merge : ∀ {s}, I s → Returns enough (S.merge s) fun r => P s (none, r.2)

section Rules

variable {σ : Type} {S : Search σ} {env : AllocEnv} {enough : Prop} {I : σ → Prop}
variable {P : σ → Option Nat × σ → Prop} {x : σ} (hS : Lawful S env enough I P)
include hS

theorem Lawful.listsLoop (maySplit : MaySplit) (m start : Nat) (h : I x) :
    Returns enough (S.listsLoop env maySplit m start x) (P x) := by
  induction m generalizing x start with
  | zero => exact hS.refl h
  | succ m ih =>
    exact (hS.nth start maySplit h).orTry (fun _ _ => id) fun y _ hy =>
      (ih (start + 1) (hS.inv hy)).mono id fun _ => hS.after hy

theorem Lawful.fromFreeLists (start : Nat) (h : I x) : Returns enough (S.fromFreeLists env start x) (P x) :=
  (hS.nth start .no h).orTry (fun _ _ => id) fun _ _ hy =>
    (hS.listsLoop _ _ _ (hS.inv hy)).mono id fun _ => hS.after hy

theorem Lawful.beforeCollect (h : I x) : Returns enough (S.beforeCollect env x) (P x) := by
  refine (hS.fromFreeLists _ h).orTry (fun _ _ => id) fun y _ hy => ?_
  refine (hS.merge (hS.inv hy)).bind fun r hr => ?_
  have hmerged := hS.after hy hr
  dsimp only
  split
  · exact (hS.fromFreeLists _ (hS.inv hmerged)).mono id fun _ => hS.after hmerged
  · exact hmerged

end Rules

variable (env : AllocEnv) (fuel : Nat) (hsound : Sound req) (hfits : req.sizeNeeded < sizetSignb)
include hsound hfits

theorem heapSearch_lawful (cells : Finset Nat) :
    Lawful (heapSearch fuel req) env (Enough cells fuel) (Ok cells)
      fun s r => Ok cells r.2 ∧ Outcome env req s r where
  refl h := ⟨h,(Sheds.refl _).outcome⟩
  after h h' := ⟨h'.1,h'.2.after h.2.sheds⟩
  inv h := h.1
  nth i maySplit h := allochblkNth_spec env fuel i hsound hfits maySplit h
  merge h := (mergeFreeBlocksWith_spec matchUnmapped_merger fuel req.sizeNeeded req.alignM1 h).mono id
    fun _ hr => ⟨hr.1,(Sheds.of_rearranged hr.2).outcome⟩

theorem allochblkFromFreeLists_spec (start : Nat) (h : Ok cells s) :
    Returns (Enough cells fuel) (allochblkFromFreeLists env fuel req start s)
      fun r => Ok cells r.2 ∧ Outcome env req s r :=
  (heapSearch_lawful env fuel hsound hfits cells).fromFreeLists start h

theorem allochblkBeforeCollect_spec (h : Ok cells s) :
    Returns (Enough cells fuel) (allochblkBeforeCollect env fuel req s)
      fun r => Ok cells r.2 ∧ Outcome env req s r :=
  (heapSearch_lawful env fuel hsound hfits cells).beforeCollect h

end AllLists

section Overflow

theorem sizetSatAdd_cases (x y : Nat) : sizetSatAdd x y = x + y ∨ sizetSatAdd x y = wordMax := by
  unfold sizetSatAdd
  split
  · exact .inl rfl
  · exact .inr rfl

theorem sizeNeeded_lt (h : req.overflows = false) : req.sizeNeeded < sizetSignb := by
  have hhalf : wordMax / 2 < sizetSignb := by decide
  have hlt := of_decide_eq_false h
  rcases sizetSatAdd_cases (divHblksz (sizetSatAdd req.lbAdjusted (hblkSize - 1)) * hblkSize) req.alignM1
    with hsum | hsat
  · rcases sizetSatAdd_cases req.lbAdjusted (hblkSize - 1) with hlb | hlb
    · rw [hsum,hlb] at hlt
      change divHblksz (req.lbAdjusted + (hblkSize - 1)) * hblkSize < sizetSignb
      omega
    · rw [hsum,hlb] at hlt
      have : wordMax / 2 ≤ divHblksz wordMax * hblkSize := by decide
      omega
  · rw [hsat] at hlt
    omega

end Overflow

end GcUtil.Block.Searching
