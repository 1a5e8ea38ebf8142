import GcUtil.Block.NearestBlocks
import GcUtil.Library.MaximalRuns

/-! The heap-block allocator with `COUNT_UNMAPPED_REGIONS`: `GC_num_unmapped_regions` is
changed by what the neighbours of a block say before it is unmapped or remapped, and
`GC_unmap_old` stops at a limit. -/
namespace GcUtil.Block.RegionCounting
open Function Option Finset
open Basic Headers FreeLists Allocator HeaderTable LinkedLists BlockMap JointInvariant Reserving Coalescing
open Splitting Unmapping UsedBlocks Merging ChainMerging Searching Runs Library.Outcome Library.MaximalRuns

variable {s s' t : Heap} {n m p q i k fuel pageHblks : Nat} {L : Nat → List Nat} {cells : Finset Nat}
variable {b c : Blk}

section Model

/-- The page size in hblks and `GC_UNMAPPED_REGIONS_SOFT_LIMIT`. -/
structure Config where
  pageHblks : Nat
  softLimit : Int

/-- The heap and `GC_num_unmapped_regions`. -/
structure Counted where
  heap : Heap
  num : Int

def isUnmapped (s : Heap) (h : Option Nat) : Bool := h.any fun h => (s.hdrAt h).any (!·.isMapped)

def calcNumUnmappedRegionsDelta (pageHblks : Nat) (s : Heap) (h p : Nat) : Int :=
  let hhdr := s.hdrs p
  let stop := h + divHblksz hhdr.hbSz
  let prev := getBlockEndingAt s h
  let next := (nextBlock s stop true).filter (· == hblkPageAligned pageHblks stop)
  match isUnmapped s prev, isUnmapped s next with
  | true, true => if hhdr.isMapped then -1 else 1
  | false, false => if hhdr.isMapped then 1 else -1
  | _, _ => 0

def Counted.adjust (cfg : Config) (c : Counted) (h p : Nat) : Int :=
  c.num + calcNumUnmappedRegionsDelta cfg.pageHblks c.heap h p

namespace Counted

variable (cfg : Config)

def unmapOldLoop (threshold : Nat) : Nat → Option Nat → Counted → Option (Bool × Counted)
  | _, none, c => some (false, c)
  | 0, some _, _ => none
  | fuel + 1, some h, c =>
      match c.heap.index h with
      | .hdr p =>
          let hhdr := c.heap.hdrs p
          let age := (c.heap.gcNo + (2 ^ 16 - hhdr.hbLastReclaimed % 2 ^ 16)) % 2 ^ 16
          if hhdr.isMapped && decide (threshold % 2 ^ 16 ≤ age) then
            let delta := calcNumUnmappedRegionsDelta cfg.pageHblks c.heap h p
            let regions := c.num + delta
            if 0 ≤ delta ∧ cfg.softLimit ≤ regions then some (true, c)
            else
              let heap := setUnmapped (c.heap.call [.unmap (h * hblkSize) hhdr.hbSz]) p true
              unmapOldLoop threshold fuel hhdr.hbNext ⟨heap, regions⟩
          else unmapOldLoop threshold fuel hhdr.hbNext c
      | _ => none

def unmapOld (fuel threshold : Nat) (c : Counted) : Option Counted :=
  if cfg.softLimit ≤ c.num then some c
  else
    (forLists (fun i (stop, c) =>
      if stop then some (stop, c) else unmapOldLoop cfg threshold fuel (c.heap.hblkfreelist i) c)
      (false, c)).map Prod.snd

def matchSmaller (c : Counted) (h p next q : Nat) : Counted :=
  let hhdr := c.heap.hdrs p
  let nexthdr := c.heap.hdrs q
  let heap := Allocator.matchSmaller c.heap h p next q
  if hhdr.isMapped != nexthdr.isMapped then
    if nexthdr.hbSz < hhdr.hbSz then ⟨heap, c.adjust cfg next q⟩ else ⟨heap, c.adjust cfg h p⟩
  else ⟨heap, c.num⟩

instance : HasHeap Counted := ⟨Counted.heap, fun c s => { c with heap := s }, fun _ _ => rfl⟩

def mergeUnmapped : Nat → Counted → Option (Bool × Counted) := mergeUnmappedWith (matchSmaller cfg)

def matchUnmapped (c : Counted) (h p next q : Nat) : Counted :=
  let hhdr := c.heap.hdrs p
  let nexthdr := c.heap.hdrs q
  let heap := Allocator.matchUnmapped c.heap h p next q
  if hhdr.isMapped && !nexthdr.isMapped then ⟨heap, c.adjust cfg h p⟩
  else if !hhdr.isMapped && nexthdr.isMapped then ⟨heap, c.adjust cfg next q⟩
  else ⟨heap, c.num⟩

def mergeFreeBlocksForAlloc : Nat → Nat → Nat → Counted → Option (Bool × Counted) :=
  mergeFreeBlocksWith (matchUnmapped cfg)

def remapBlock (c : Counted) (h p : Nat) : Counted :=
  if (c.heap.hdrs p).isMapped then c else ⟨Allocator.remapBlock c.heap h p, c.adjust cfg h p⟩

def splitAt (c : Counted) (hbp p lastHbp index : Nat) : Option (Nat × Counted) :=
  if lastHbp = hbp then some (p, c)
  else
    let (lastHdr, s) := installHeader c.heap lastHbp
    let c := remapBlock cfg { c with heap := s } hbp p
    (splitBlock c.heap hbp p lastHbp lastHdr index).map fun s => (lastHdr, { c with heap := s })

def takeBlock (env : AllocEnv) (req : Request) (index hbp lastHbp : Nat) (c : Counted) :
    Option (Nat × Counted) :=
  match c.heap.index hbp with
  | .hdr p => do
      let (p, c) ← splitAt cfg c hbp p lastHbp index
      let c := remapBlock cfg c lastHbp p
      let s ← getFirstPart c.heap lastHbp p req.sizeNeeded index
      let s := installCounts s lastHbp req.sizeNeeded
      let s := setupHeader env s p lastHbp req.lbAdjusted req.kind req.ignoreOffPage
      some (lastHbp, { c with heap := { s with largeFreeBytes := s.largeFreeBytes - req.sizeNeeded } })
  | _ => none

def allochblkNth (env : AllocEnv) (fuel : Nat) (req : Request) (index : Nat) (maySplit : MaySplit)
    (c : Counted) : Option (Option Nat × Counted) :=
  match searchLoop (dropHblkInChunks env) env fuel req index maySplit fuel (c.heap.hblkfreelist index)
      c.heap with
  | none => none
  | some (none, s) => some (none, { c with heap := s })
  | some (some (hbp, lastHbp), s) =>
      (takeBlock cfg env req index hbp lastHbp { c with heap := s }).map fun r => (some r.1, r.2)

def search (fuel : Nat) (req : Request) : Search Counted :=
  ⟨req, Counted.heap, fun env => allochblkNth cfg env fuel req,
    mergeFreeBlocksForAlloc cfg fuel req.sizeNeeded req.alignM1⟩

def allochblk (env : AllocEnv) (fuel : Nat) (req : Request) :
    Option ((Counted → Option Counted) × AllocEnv) → Counted → Option (Option Nat × Counted) :=
  (search cfg fuel req).allochblk env

mutual

def exec (fuel : Nat) : Op → Counted → Option Counted
  | .addToHeap h n, c => (addToHeap c.heap h n).map fun s => { c with heap := s }
  | .allochblk env req collects collection after, c =>
      (allochblk cfg env fuel req (if collects then some (execAll fuel collection, after) else none) c).map
        Prod.snd
  | .freehblk h, c => (freehblk c.heap h).map fun s => { c with heap := s }
  | .mergeUnmapped, c => (mergeUnmapped cfg fuel c).map Prod.snd
  | .mergeFreeBlocksForAlloc sizeNeeded alignM1, c =>
      (mergeFreeBlocksForAlloc cfg fuel sizeNeeded alignM1 c).map Prod.snd
  | .unmapOld threshold, c => unmapOld cfg fuel threshold c
  | .nextGc, c => some { c with heap := { c.heap with gcNo := c.heap.gcNo + 1 } }

def execAll (fuel : Nat) : List Op → Counted → Option Counted
  | [], c => some c
  | op :: ops, c => (exec fuel op c).bind (execAll fuel ops)

end

end Counted

end Model

section Regions

/-- The hblk `x` belongs to a block that is flagged `WAS_UNMAPPED`. -/
def Flagged (s : Heap) (x : Nat) : Prop :=
  ∃ n size, unmappedAt s n = some size ∧ n ≤ x ∧ x < n + divHblksz size

/-- `k` is the number of maximal runs of hblks in flagged blocks. -/
def RegionCount (s : Heap) (k : Int) : Prop :=
  ∃ U : Finset Nat, (∀ x, x ∈ U ↔ Flagged s x) ∧ k = (runStarts U).card

theorem flagged_congr (h : unmappedAt s' = unmappedAt s) : Flagged s' = Flagged s := by
  unfold Flagged
  rw [h]

theorem RegionCount.congr {r : Int} (h : RegionCount s r) (heq : unmappedAt s' = unmappedAt s) :
    RegionCount s' r := by
  unfold RegionCount
  rw [flagged_congr heq]
  exact h

section

variable (h : HeapOk s L cells)
include h

theorem blkAt_of_unmappedAt {size : Nat} (hn : unmappedAt s n = some size) :
    ∃ b, blkAt s n = some b ∧ b.free = true ∧ divHblksz size = b.blocks := by
  cases hhdr : s.hdrAt n with
  | none =>
    rw [unmappedAt_of_none hhdr] at hn
    cases hn
  | some hhdr =>
    obtain ⟨p,hp,rfl⟩ := hdrAt_eq_some.mp hhdr
    have hb := blkAt_of_index hp
    rw [unmappedAt_of_index hp] at hn
    split at hn
    · cases hn
    · rename_i hunmapped
      cases hn
      have hfree : (s.hdrs p).isFree = true := by
        by_contra hused
        exact hunmapped (h.accounts.isMapped hp (by simpa using hused))
      exact ⟨_,hb,hfree,divHblksz_eq_blocks ((h.blocks.layout.blocks hb).whole hfree)⟩

theorem flagged_iff (hb : blkAt s n = some b) {x : Nat} (hx : n ≤ x)
    (hxb : x < n + b.blocks) : Flagged s x ↔ (unmappedAt s n).isSome := by
  constructor
  · rintro ⟨m,size,hm,hmx,hxm⟩
    obtain ⟨c,hc,_,hblocks⟩ := blkAt_of_unmappedAt h hm
    rw [hblocks] at hxm
    have heq := h.blocks.layout.tiles.unique (Layout.len_eq hb) (Layout.len_eq hc) ⟨hx,hxb⟩ ⟨hmx,hxm⟩
    rw [heq,hm]
    rfl
  · intro hsome
    obtain ⟨size,hsize⟩ := isSome_iff_exists.mp hsome
    obtain ⟨c,hc,_,hblocks⟩ := blkAt_of_unmappedAt h hsize
    rw [hb] at hc
    cases hc
    exact ⟨n,size,hsize,hx,by rwa [hblocks]⟩

theorem flagged_iff_unmapped (hp : s.index n = .hdr p) (hb : blkAt s n = some b) {x : Nat}
    (hx : n ≤ x) (hxb : x < n + b.blocks) : Flagged s x ↔ (s.hdrs p).isMapped = false := by
  rw [flagged_iff h hb hx hxb,unmappedAt_of_index hp]
  cases (s.hdrs p).isMapped <;> simp

theorem blkAt_of_flagged {x : Nat} (hx : Flagged s x) :
    ∃ n b, blkAt s n = some b ∧ b.free = true ∧ n ≤ x ∧ x < n + b.blocks := by
  obtain ⟨n,size,hn,hle,hlt⟩ := hx
  obtain ⟨b,hb,hfree,hblocks⟩ := blkAt_of_unmappedAt h hn
  exact ⟨n,b,hb,hfree,hle,hblocks ▸ hlt⟩

theorem unmappedAt_within (hb : blkAt s n = some b) {y size : Nat}
    (hy : unmappedAt s y = some size) (hle : n ≤ y) (hlt : y < n + b.blocks) :
    y = n ∧ y + divHblksz size = n + b.blocks := by
  obtain ⟨c,hc,_,hblocks⟩ := blkAt_of_unmappedAt h hy
  have hpos := (h.blocks.layout.blocks hc).blocks_pos
  have heq := h.blocks.layout.tiles.unique (x := y) (Layout.len_eq hb) (Layout.len_eq hc) (by omega) (by omega)
  subst heq
  rw [hb] at hc
  cases hc
  exact ⟨rfl,by rw [hblocks]⟩

end

theorem flagged_change {e : Nat} {flag : Prop}
    (hsame : ∀ y, ¬ (n ≤ y ∧ y < e) → unmappedAt s' y = unmappedAt s y)
    (hin : ∀ y size, unmappedAt s y = some size → n ≤ y → y < e → y + divHblksz size ≤ e)
    (hin' : ∀ y size, unmappedAt s' y = some size → n ≤ y → y < e → y + divHblksz size ≤ e)
    (hflag : ∀ x, n ≤ x → x < e → (Flagged s' x ↔ flag)) (x : Nat) :
    Flagged s' x ↔ if n ≤ x ∧ x < e then flag else Flagged s x := by
  split
  · rename_i hx
    exact hflag x hx.1 hx.2
  · rename_i hx
    constructor
    · rintro ⟨y,size,hy,hle,hlt⟩
      by_cases hyin : n ≤ y ∧ y < e
      · have := hin' y size hy hyin.1 hyin.2
        omega
      · exact ⟨y,size,by rwa [← hsame y hyin],hle,hlt⟩
    · rintro ⟨y,size,hy,hle,hlt⟩
      by_cases hyin : n ≤ y ∧ y < e
      · have := hin y size hy hyin.1 hyin.2
        omega
      · exact ⟨y,size,by rwa [hsame y hyin],hle,hlt⟩

end Regions

section Delta

structure Around (s t : Heap) (n e : Nat) : Prop where
  index : ∀ x, x ≤ n ∨ e ≤ x → t.index x = s.index x
  hdrAt : ∀ x, x ≤ n ∨ e ≤ x → t.hdrAt x = s.hdrAt x
  keyed : Keyed t

theorem HeapOk.around (h : HeapOk s L cells) (n e : Nat) : Around s s n e :=
  ⟨fun _ _ => rfl,fun _ _ => rfl,h.accounts.keyed⟩

theorem around_installHeader (h : HeapOk s L cells) {e : Nat} (hnm : n < m) (hme : m < e) :
    Around s (installHeader s m).2 n e where
  index x hx := by rw [installHeader_index,update_of_ne (by omega)]
  hdrAt x hx := by rw [hdrAt_installHeader h.blocks.hdrs,update_of_ne (by omega)]
  keyed := h.accounts.keyed.installHeader m

theorem Around.hdrs_eq {e x : Nat} (ht : Around s t n e) (hx : x ≤ n ∨ e ≤ x) (hq : s.index x = .hdr q) :
    t.hdrs q = s.hdrs q := by
  have hhdr := ht.hdrAt x hx
  rw [hdrAt_of_index ((ht.index x hx).trans hq),hdrAt_of_index hq] at hhdr
  exact Option.some.inj hhdr

theorem Around.own {e x : Nat} (ht : Around s t n e) (h : HeapOk s L cells) (hx : x ≤ n ∨ e ≤ x)
    (hq : t.index x = .hdr q) : (t.hdrs q).hbBlock = x := by
  rw [ht.index x hx] at hq
  rw [ht.hdrs_eq hx hq]
  exact (NearestBlocks.spaced_of_heapOk h).own x q hq

theorem Around.back {e : Nat} (ht : Around s t n e) (h : HeapOk s L cells) : NearestBlocks.Back t n where
  own x q hx hq := ht.own h (by omega) hq
  hop x j hx hj := by
    rw [ht.index x (by omega)] at hj
    obtain ⟨hpos,hle,hhop⟩ := (NearestBlocks.spaced_of_heapOk h).hop x j hj
    refine ⟨hpos,hle,fun y hy hyx => ?_⟩
    rw [ht.index y (by omega)]
    exact hhop y hy hyx

theorem Around.ahead {e : Nat} (ht : Around s t n e) (h : HeapOk s L cells) : NearestBlocks.Ahead t true e :=
  ⟨fun _ _ hx hq => ht.own h (.inr hx) hq,fun hfalse => by cases hfalse⟩

theorem isUnmapped_some {x : Nat} (hhdr : t.hdrAt x = s.hdrAt x) :
    isUnmapped t (some x) = true ↔ (unmappedAt s x).isSome := by
  unfold isUnmapped
  rw [any_some,hhdr]
  cases hx : s.hdrAt x with
  | none => simp [unmappedAt_of_none hx]
  | some hhdr =>
    obtain ⟨p,hp,rfl⟩ := hdrAt_eq_some.mp hx
    rw [unmappedAt_of_index hp]
    cases hmapped : (s.hdrs p).isMapped <;> simp [hmapped]

theorem findStartingHblk_congr {h : Nat} (hindex : ∀ x, x ≤ h → t.index x = s.index x)
    (hhdrs : ∀ x, x ≤ h → t.hdrAt x = s.hdrAt x) :
    (findStartingHblk t fuel h).map Prod.fst = (findStartingHblk s fuel h).map Prod.fst := by
  induction fuel generalizing h with
  | zero => rfl
  | succ fuel ih =>
    rw [findStartingHblk,findStartingHblk,hindex h (le_refl h)]
    cases s.index h with
    | nil => rfl
    | forward j => exact ih (fun x hx => hindex x (by omega)) fun x hx => hhdrs x (by omega)
    | hdr p => rfl

theorem getBlockEndingAt_free (h : HeapOk s L cells) (ht : Around s t n k) (hc : blkAt s m = some c)
    (hfree : c.free = true) (hend : m + c.blocks = n) : getBlockEndingAt t n = some m := by
  have hok := h.blocks.layout.blocks hc
  have hpos := hok.blocks_pos
  obtain ⟨q,hq,hblk⟩ := blkAt_eq_some.mp hc
  have hqt : t.index m = .hdr q := by rw [ht.index m (by omega),hq]
  have hsz : (t.hdrs q).hbSz = c.blocks * hblkSize := by
    rw [ht.hdrs_eq (by omega) hq,blocks_mul_of_dvd (hok.whole hfree)]
    exact congrArg Blk.sz hblk
  unfold getBlockEndingAt
  rcases Nat.lt_or_eq_of_le (show 1 ≤ c.blocks from hpos) with hlong | hshort
  · have hnil : ∀ x, m < x → x ≤ n - 1 → t.index x = .nil := by
      intro x hx hxn
      rw [ht.index x (by omega)]
      have := h.blocks.layout.fill_nil hc hfree (i := x - m) (by omega) (by omega)
      rwa [Nat.add_sub_cancel' (by omega)] at this
    have hback : NearestBlocks.Back t (n - 1 + 1) := by
      rw [Nat.sub_add_cancel (by omega)]
      exact ht.back h
    have hprev : prevBlock t (n - 1) = some m := by
      refine (NearestBlocks.prevBlock_greatest hback ht.keyed).eq_some ⟨⟨⟨q,hqt,.inl rfl⟩,by omega⟩,?_⟩
      rintro x ⟨⟨r,hr,_⟩,hx⟩
      by_contra hlt
      rw [hnil x (by omega) hx] at hr
      cases hr
    rw [hnil (n - 1) (by omega) (le_refl _),hprev]
    simp only [bind_eq_bind,bind_some,hdrAt_of_index hqt,hsz]
    rw [if_pos]
    rw [← hend,Nat.add_mul]
  · have hm : n - 1 = m := by omega
    have hn : n = m + 1 := by omega
    rw [hm,hqt,hn,findStartingHblk,hqt]
    rfl

section

variable (h : HeapOk s L cells) (hb : blkAt s n = some b) (ht : Around s t n (n + b.blocks))
include h hb ht

theorem getBlockEndingAt_unmapped (hm : isUnmapped t (getBlockEndingAt t n) = true) :
    Flagged s (n - 1) := by
  have hlow := h.blocks.layout.low_start hb
  cases hfound : getBlockEndingAt t n with
  | none =>
    rw [hfound] at hm
    cases hm
  | some m =>
    rw [hfound] at hm
    unfold getBlockEndingAt at hfound
    split at hfound
    · obtain ⟨m',_,hfound⟩ := bind_eq_some_iff.mp hfound
      obtain ⟨hhdr,hhdrAt,hfound⟩ := bind_eq_some_iff.mp hfound
      split at hfound
      case isFalse => cases hfound
      rename_i hend
      cases hfound
      have hle : m ≤ n := by
        unfold hblkSize at hend
        omega
      rw [ht.hdrAt m (.inl hle)] at hhdrAt
      obtain ⟨q,hq,rfl⟩ := hdrAt_eq_some.mp hhdrAt
      have hpos := (h.blocks.layout.blocks (blkAt_of_index hq)).pos
      change 0 < (s.hdrs q).hbSz at hpos
      rw [isUnmapped_some (ht.hdrAt m (.inl hle)),unmappedAt_of_index hq] at hm
      split at hm
      · cases hm
      · rename_i hunmapped
        refine ⟨m,(s.hdrs q).hbSz,by rw [unmappedAt_of_index hq,if_neg hunmapped],?_,?_⟩
        · unfold hblkSize at hend
          omega
        · unfold divHblksz
          unfold hblkSize at *
          omega
    · rename_i hnil
      rw [findStartingHblk_congr (fun x hx => ht.index x (by omega)) fun x hx => ht.hdrAt x (by omega)] at hfound
      have hle : m ≤ n - 1 := by
        obtain ⟨r,hr,rfl⟩ := map_eq_some_iff.mp hfound
        exact findStartingHblk_le hr
      rw [isUnmapped_some (ht.hdrAt m (by omega))] at hm
      obtain ⟨size,hsize⟩ := isSome_iff_exists.mp hm
      obtain ⟨c,hc,hfree,_⟩ := blkAt_of_unmappedAt h hsize
      obtain ⟨q,hq,_⟩ := blkAt_eq_some.mp hc
      have hstart : getBlockEndingAt s n = some m := by
        unfold getBlockEndingAt
        rw [ht.index (n - 1) (by omega)] at hnil
        split
        · rename_i hnil'
          exact absurd hnil' hnil
        · exact hfound
      have hending : freeBlockEndingAt s n = some m := by
        unfold freeBlockEndingAt
        simp only [hstart,bind_eq_bind,bind_some,hdrAt_of_index hq,
          (isFree_of_blkAt hq hc).trans hfree,if_true]
      obtain ⟨_,d,_,hd,_,hend⟩ := freeBlockEndingAt_spec h.blocks hb hending
      rw [hc] at hd
      cases hd
      exact (flagged_iff h hc (by omega) (by omega)).mpr hm

theorem isUnmapped_prev :
    isUnmapped t (getBlockEndingAt t n) = true ↔ Flagged s (n - 1) := by
  refine ⟨getBlockEndingAt_unmapped h hb ht,fun hflag => ?_⟩
  have hlow := h.blocks.layout.low_start hb
  have hbpos := (h.blocks.layout.blocks hb).blocks_pos
  obtain ⟨m,c,hc,hfree,hle,hlt⟩ := blkAt_of_flagged h hflag
  have hend : m + c.blocks = n := by
    by_contra hne
    have heq := h.blocks.layout.tiles.unique (x := n) (Layout.len_eq hb) (Layout.len_eq hc) (by omega) (by omega)
    omega
  rw [getBlockEndingAt_free h ht hc hfree hend,isUnmapped_some (ht.hdrAt m (by omega))]
  exact (flagged_iff h hc hle hlt).mp hflag

end

theorem isUnmapped_next (pageHblks : Nat) (h : HeapOk s L cells) (hb : blkAt s n = some b) (ht : Around s t n (n + b.blocks)) :
    isUnmapped t ((nextBlock t (n + b.blocks) true).filter
      (· == hblkPageAligned pageHblks (n + b.blocks))) = true ↔
      pageHblks ∣ n + b.blocks ∧ Flagged s (n + b.blocks) := by
  have haligned : pageHblks ∣ n + b.blocks ↔ hblkPageAligned pageHblks (n + b.blocks) = n + b.blocks :=
    Nat.dvd_iff_div_mul_eq _ _
  have hbpos := (h.blocks.layout.blocks hb).blocks_pos
  have hleast := NearestBlocks.nextBlock_least (ht.ahead h) ht.keyed
  constructor
  · intro hnext
    obtain ⟨x,hx,hunmapped⟩ := any_eq_true _ _ |>.mp hnext
    obtain ⟨hfound,hpage⟩ := filter_eq_some_iff.mp hx
    rw [hfound] at hleast
    obtain ⟨⟨q,hq,_⟩,hge⟩ := hleast.1
    rw [beq_iff_eq] at hpage
    have hle : hblkPageAligned pageHblks (n + b.blocks) ≤ n + b.blocks := Nat.div_mul_le_self _ _
    obtain rfl : x = n + b.blocks := le_antisymm (hpage.le.trans hle) hge
    refine ⟨haligned.mpr hpage.symm,?_⟩
    rw [ht.index _ (.inr hge)] at hq
    have hpos := (h.blocks.layout.blocks (blkAt_of_index hq)).blocks_pos
    apply (flagged_iff h (blkAt_of_index hq) (le_refl _) (by omega)).mpr
    rw [← isUnmapped_some (ht.hdrAt _ (.inr (le_refl _))),isUnmapped,any_some]
    exact hunmapped
  · rintro ⟨hpage,hflag⟩
    obtain ⟨m,c,hc,_,hle,hlt⟩ := blkAt_of_flagged h hflag
    obtain rfl : m = n + b.blocks := by
      by_contra hne
      have heq := h.blocks.layout.tiles.unique (x := n + b.blocks - 1) (Layout.len_eq hb) (Layout.len_eq hc)
        (by omega) (by omega)
      subst heq
      rw [hb] at hc
      cases hc
      omega
    obtain ⟨q,hq,_⟩ := blkAt_eq_some.mp hc
    have hqt : t.index (n + b.blocks) = .hdr q := by rw [ht.index _ (.inr (le_refl _)),hq]
    rw [hleast.eq_some ⟨⟨⟨q,hqt,.inl rfl⟩,le_refl _⟩,fun _ hx => hx.2⟩,haligned.mp hpage,
      filter_some,if_pos (by simp),isUnmapped_some (ht.hdrAt _ (.inr (le_refl _)))]
    exact (flagged_iff h hc (le_refl _) hlt).mp hflag

open Classical in
/-- What the delta comes to: a flip of the block changes the number of regions by this
much, if a flagged successor is noticed. -/
theorem calcNumUnmappedRegionsDelta_eq (pageHblks : Nat) (h : HeapOk s L cells) (hp : s.index n = .hdr p)
    (hb : blkAt s n = some b) (hfree : b.free = true) (ht : Around s t n (n + b.blocks)) :
    calcNumUnmappedRegionsDelta pageHblks t n p = (if (s.hdrs p).isMapped then 1 else -1) *
      (1 - (if Flagged s (n - 1) then 1 else 0) -
        if pageHblks ∣ n + b.blocks ∧ Flagged s (n + b.blocks) then 1 else 0) := by
  have hhdr := ht.hdrs_eq (.inl (le_refl n)) hp
  have hprev := isUnmapped_prev h hb ht
  have hnext := isUnmapped_next pageHblks h hb ht
  unfold calcNumUnmappedRegionsDelta
  simp only [hhdr,hbSz_of_blkAt hp hb,divHblksz_eq_blocks ((h.blocks.layout.blocks hb).whole hfree)]
  simp only [← hprev,← hnext]
  cases isUnmapped t (getBlockEndingAt t n) <;> cases isUnmapped t ((nextBlock t (n + b.blocks) true).filter
    (· == hblkPageAligned pageHblks (n + b.blocks))) <;> cases (s.hdrs p).isMapped <;> simp

theorem RegionCount.unique {r r' : Int} (h : RegionCount s r) (h' : RegionCount s r') : r = r' := by
  obtain ⟨U,hU,rfl⟩ := h
  obtain ⟨U',hU',rfl⟩ := h'
  have heq : U = U' := by
    ext x
    rw [hU,hU']
  rw [heq]

open Classical in
theorem regionCount_flip {r : Int} (h : HeapOk s L cells) (hp : s.index n = .hdr p) (hb : blkAt s n = some b)
    (hflip : ∀ x, Flagged s' x ↔
      if n ≤ x ∧ x < n + b.blocks then (s.hdrs p).isMapped = true else Flagged s x)
    (hcount : RegionCount s r) :
    RegionCount s' (r + (if (s.hdrs p).isMapped then 1 else -1) *
      (1 - (if Flagged s (n - 1) then 1 else 0) - if Flagged s (n + b.blocks) then 1 else 0)) := by
  obtain ⟨U,hU,rfl⟩ := hcount
  have hlow := h.blocks.layout.low_start hb
  have hpos := (h.blocks.layout.blocks hb).blocks_pos
  have hself : ∀ x, n ≤ x → x < n + b.blocks → (x ∈ U ↔ (s.hdrs p).isMapped = false) :=
    fun x hx hxb => (hU x).trans (flagged_iff_unmapped h hp hb hx hxb)
  -- The rest of the heap, which both states have in common.
  let V := U \ Finset.Ico n (n + b.blocks)
  have hV : ∀ x, x ∈ V ↔ ¬ (n ≤ x ∧ x < n + b.blocks) ∧ Flagged s x := by
    intro x
    rw [mem_sdiff,mem_Ico,hU,and_comm]
  have hout : ∀ x, n ≤ x → x < n + b.blocks → x ∉ V := fun x hx hxb hmem => ((hV x).mp hmem).1 ⟨hx,hxb⟩
  have hprev : (∃ y ∈ V, y + 1 = n) ↔ Flagged s (n - 1) := by
    constructor
    · rintro ⟨y,hy,hyn⟩
      rw [show n - 1 = y by omega]
      exact ((hV y).mp hy).2
    · intro hflag
      exact ⟨n - 1,(hV _).mpr ⟨by omega,hflag⟩,by omega⟩
  have hnext : n + b.blocks ∈ V ↔ Flagged s (n + b.blocks) := by
    rw [hV]
    exact and_iff_right (by omega)
  have hcard := card_runStarts_union (by omega) hout
  simp only [hprev,hnext] at hcard
  cases hmapped : (s.hdrs p).isMapped with
  | true =>
    have hUV : U = V := by
      ext x
      rw [hV,hU]
      refine ⟨fun hx => ⟨fun hin => ?_,hx⟩,fun hx => hx.2⟩
      have := (hself x hin.1 hin.2).mp ((hU x).mpr hx)
      simp [hmapped] at this
    refine ⟨V ∪ Finset.Ico n (n + b.blocks),fun x => ?_,?_⟩
    · rw [hflip,mem_union,mem_Ico,hV,hmapped]
      split <;> simp_all
    · rw [hcard,hUV,if_pos rfl,one_mul]
  | false =>
    have hUV : U = V ∪ Finset.Ico n (n + b.blocks) := by
      ext x
      rw [mem_union,mem_Ico,hV,hU]
      by_cases hin : n ≤ x ∧ x < n + b.blocks
      · simp only [hin,and_self,not_true_eq_false,false_and,or_true,iff_true]
        exact (hU x).mp ((hself x hin.1 hin.2).mpr hmapped)
      · simp [hin]
    refine ⟨V,fun x => ?_,?_⟩
    · rw [hflip,hV,hmapped]
      split <;> simp_all
    · rw [hUV,hcard]
      simp only [Bool.false_eq_true,if_false]
      omega

theorem regionCount_flip_iff {r : Int} (s' : Heap) (h : HeapOk s L cells) (hp : s.index n = .hdr p) (hb : blkAt s n = some b)
    (hfree : b.free = true) (ht : Around s t n (n + b.blocks))
    (hflip : ∀ x, Flagged s' x ↔
      if n ≤ x ∧ x < n + b.blocks then (s.hdrs p).isMapped = true else Flagged s x)
    (hcount : RegionCount s r) :
    RegionCount s' (r + calcNumUnmappedRegionsDelta pageHblks t n p) ↔
      pageHblks ∣ n + b.blocks ∨ ¬ Flagged s (n + b.blocks) := by
  classical
  have hexact := regionCount_flip h hp hb hflip hcount
  have hdelta := calcNumUnmappedRegionsDelta_eq (t := t) pageHblks h hp hb hfree ht
  have hsame : pageHblks ∣ n + b.blocks ∨ ¬ Flagged s (n + b.blocks) ↔
      (if pageHblks ∣ n + b.blocks ∧ Flagged s (n + b.blocks) then (1 : Int) else 0) =
        if Flagged s (n + b.blocks) then 1 else 0 := by
    by_cases hpage : pageHblks ∣ n + b.blocks <;> by_cases hflag : Flagged s (n + b.blocks) <;>
      simp [hpage,hflag]
  rw [hsame]
  constructor
  · intro hr
    have heq := hr.unique hexact
    rw [hdelta] at heq
    split at heq <;> omega
  · intro heq
    rw [hdelta,heq]
    exact hexact

end Delta

section Pages

def PageAligned (pageHblks : Nat) (s : Heap) : Prop :=
  ∀ n b c, blkAt s n = some b → b.free = true → blkAt s (n + b.blocks) = some c → c.free = true →
    pageHblks ∣ n + b.blocks

def hblksOf (s : Heap) : List Nat :=
  s.heapSects.flatMap fun sect => List.range' (divHblksz sect.hsStart) (divHblksz sect.hsBytes)

/-- As `PageAligned`, with the blocks looked for among the hblks of the heap. -/
def MeetAtPages (pageHblks : Nat) (s : Heap) : Prop :=
  ∀ n ∈ hblksOf s, ∀ b ∈ blkAt s n, b.free = true → ∀ c ∈ blkAt s (n + b.blocks), c.free = true →
    pageHblks ∣ n + b.blocks

instance (pageHblks : Nat) (s : Heap) : Decidable (MeetAtPages pageHblks s) :=
  inferInstanceAs (Decidable (∀ n ∈ hblksOf s, _))

theorem MeetAtPages.pageAligned (h : Ok cells s) (ha : MeetAtPages pageHblks s) : PageAligned pageHblks s := by
  obtain ⟨L,h⟩ := h
  intro n b c hb hfree hc
  refine ha n ?_ b hb hfree c hc
  obtain ⟨sect,hsect,hin⟩ := (h.sects n).mp (h.blocks.layout.start_mem hb)
  refine List.mem_flatMap.mpr ⟨sect,hsect,List.mem_range'_1.mpr ?_⟩
  have halign := h.aligned sect hsect
  unfold HeapSect.Contains divHblksz hblkSize at *
  omega

theorem PageAligned.noticed (ha : PageAligned pageHblks s) (h : HeapOk s L cells) (hb : blkAt s n = some b)
    (hfree : b.free = true) : pageHblks ∣ n + b.blocks ∨ ¬ Flagged s (n + b.blocks) := by
  by_cases hflag : Flagged s (n + b.blocks)
  · left
    have hpos := (h.blocks.layout.blocks hb).blocks_pos
    obtain ⟨m,c,hc,hcfree,hle,hlt⟩ := blkAt_of_flagged h hflag
    rcases Nat.lt_or_eq_of_le hle with hmlt | rfl
    · have heq := h.blocks.layout.tiles.unique (x := n + b.blocks - 1) (Layout.len_eq hb) (Layout.len_eq hc)
        (by omega) (by omega)
      subst heq
      rw [hb] at hc
      cases hc
      omega
    · exact ha n b c hb hfree hc hcfree
  · exact .inr hflag

/-- Merging free blocks and using them up makes no new boundaries. -/
theorem PageAligned.descend (ha : PageAligned pageHblks s) (ht : Ok cells t) (hd : Descends s t) :
    PageAligned pageHblks t := by
  obtain ⟨L,ht⟩ := ht
  intro n b c hb hfree hc hcfree
  have hbpos := (ht.blocks.layout.blocks hb).blocks_pos
  have hcpos := (ht.blocks.layout.blocks hc).blocks_pos
  obtain ⟨m,d,hd1,hdfree,_,hend,_,hlt⟩ := hd n b hb hfree (n + b.blocks - 1) (by omega) (by omega)
  obtain ⟨m',d',hd2,hdfree',hle',_,hmle',_⟩ :=
    hd (n + b.blocks) c hc hcfree (n + b.blocks) (le_refl _) (by omega)
  have hm : m + d.blocks = n + b.blocks := by omega
  have hm' : m' = n + b.blocks := by omega
  rw [hm',← hm] at hd2
  rw [← hm]
  exact ha m d d' hd1 hdfree hd2 hdfree'

end Pages

section Steps

variable {cfg : Config}

structure Tracks (cfg : Config) (cells : Finset Nat) (x y : Counted) : Prop where
  ok : Ok cells y.heap
  descends : Descends x.heap y.heap
  exact : PageAligned cfg.pageHblks x.heap → RegionCount x.heap x.num → RegionCount y.heap y.num

theorem Tracks.refl {x : Counted} (h : Ok cells x.heap) : Tracks cfg cells x x :=
  ⟨h,Descends.refl _,fun _ hcount => hcount⟩

theorem Tracks.trans {x y z : Counted} (h : Tracks cfg cells x y) (h' : Tracks cfg cells y z) :
    Tracks cfg cells x z :=
  ⟨h'.ok,h.descends.trans h'.descends,fun ha hcount =>
    h'.exact (ha.descend h.ok h.descends) (h.exact ha hcount)⟩

theorem isMapped_setUnmapped (s : Heap) (p : Nat) (unmapped : Bool) :
    ((setUnmapped s p unmapped).hdrs p).isMapped = !unmapped := by
  rw [setUnmapped,updHdr_hdrs_self]
  rfl

theorem flagged_setUnmapped (h : HeapOk s L cells) (hp : s.index n = .hdr p) (hb : blkAt s n = some b)
    (hfree : b.free = true) (x : Nat) : Flagged (setUnmapped s p (s.hdrs p).isMapped) x ↔
      if n ≤ x ∧ x < n + b.blocks then (s.hdrs p).isMapped = true else Flagged s x := by
  set s' := setUnmapped s p (s.hdrs p).isMapped
  have hsame : ∀ y, y ≠ n → unmappedAt s' y = unmappedAt s y := fun y hy =>
    ((Keeps.updHdr h.blocks.hdrs hp _).steady.same y (by simpa using hy)).unmappedAt_eq
  have hself : unmappedAt s' n = if (s.hdrs p).isMapped then some b.sz else none := by
    rw [unmappedAt_of_index (s := s') hp,isMapped_setUnmapped,← hbSz_of_blkAt hp hb]
    change (if _ then none else some ((s.updHdr p _).hdrs p).hbSz) = _
    rw [updHdr_hdrs_self]
    cases (s.hdrs p).isMapped <;> rfl
  have hlen := divHblksz_eq_blocks ((h.blocks.layout.blocks hb).whole hfree)
  have hpos := (h.blocks.layout.blocks hb).blocks_pos
  refine flagged_change (fun y hy => hsame y (by omega))
    (fun y size hy hle hlt => (unmappedAt_within h hb hy hle hlt).2.le) (fun y size hy hle hlt => ?_)
    (fun y hle hlt => ⟨?_,fun hmapped => ?_⟩) x
  · by_cases hyn : y = n
    · subst hyn
      rw [hself] at hy
      split at hy
      · cases hy
        rw [hlen]
      · cases hy
    · rw [hsame y hyn] at hy
      exact absurd (unmappedAt_within h hb hy hle hlt).1 hyn
  · rintro ⟨m,size,hm,hmy,hym⟩
    by_cases hmn : m = n
    · subst hmn
      rw [hself] at hm
      split at hm
      · assumption
      · cases hm
    · rw [hsame m hmn] at hm
      obtain ⟨c,hc,_,hblocks⟩ := blkAt_of_unmappedAt h hm
      rw [hblocks] at hym
      exact absurd (h.blocks.layout.tiles.unique (Layout.len_eq hc) (Layout.len_eq hb) ⟨hmy,hym⟩ ⟨hle,hlt⟩) hmn
  · exact ⟨n,b.sz,by rw [hself,if_pos hmapped],hle,by rwa [hlen]⟩

theorem unmapBlock_tracks (cfg : Config) {x : Counted} (h : HeapOk x.heap L cells) (hp : x.heap.index n = .hdr p)
    (hb : blkAt x.heap n = some b) (hfree : b.free = true) (hmapped : (x.heap.hdrs p).isMapped = true) :
    Tracks cfg cells x ⟨setUnmapped (x.heap.call [.unmap (n * hblkSize) (x.heap.hdrs p).hbSz]) p true,
      x.adjust cfg n p⟩ := by
  obtain ⟨hok,hrearranged⟩ := unmapBlock_ok h hp hb hfree hmapped
  refine ⟨⟨L,hok⟩,hrearranged.descends,fun ha hcount => ?_⟩
  refine (regionCount_flip_iff _ h hp hb hfree (HeapOk.around h _ _) (fun y => ?_) hcount).mpr
    (ha.noticed h hb hfree)
  have hflip := flagged_setUnmapped h hp hb hfree y
  rw [hmapped] at hflip ⊢
  exact hflip

def flipDelta (pageHblks : Nat) (s t : Heap) (n p m q : Nat) : Int :=
  if (s.hdrs p).isMapped = (s.hdrs q).isMapped then 0
  else if (t.hdrs p).isMapped = (s.hdrs p).isMapped then calcNumUnmappedRegionsDelta pageHblks s m q
  else calcNumUnmappedRegionsDelta pageHblks s n p

theorem RegionCount.of_flagged {r : Int} (h : RegionCount s r) (heq : ∀ x, Flagged s' x ↔ Flagged s x) :
    RegionCount s' r := by
  obtain ⟨U,hU,hr⟩ := h
  exact ⟨U,fun x => (hU x).trans (heq x).symm,hr⟩

theorem flagged_merge {L' : Nat → List Nat} (mapped : Bool) (h : HeapOk s L cells) (h' : HeapOk s' L' cells)
    (hb : blkAt s n = some b) (hc : blkAt s (n + b.blocks) = some c)
    (hb' : blkAt s' n = some { b with sz := b.sz + c.sz })
    (hlen : Blk.blocks { b with sz := b.sz + c.sz } = b.blocks + c.blocks)
    (hsame : ∀ y, y ≠ n → y ≠ n + b.blocks → unmappedAt s' y = unmappedAt s y)
    (hself : (unmappedAt s' n).isSome ↔ mapped = false) (x : Nat) :
    Flagged s' x ↔ if n ≤ x ∧ x < n + b.blocks + c.blocks then mapped = false else Flagged s x := by
  have hend : n + Blk.blocks { b with sz := b.sz + c.sz } = n + b.blocks + c.blocks := by omega
  have hbpos := (h.blocks.layout.blocks hb).blocks_pos
  have hcpos := (h.blocks.layout.blocks hc).blocks_pos
  refine flagged_change (fun y hy => hsame y (by omega) (by omega)) (fun y size hy hle hlt => ?_)
    (fun y size hy hle hlt => ?_) (fun y hle hlt => ?_) x
  · rcases Nat.lt_or_ge y (n + b.blocks) with hfirst | hsecond
    · have := (unmappedAt_within h hb hy hle hfirst).2
      omega
    · exact (unmappedAt_within h hc hy hsecond hlt).2.le
  · exact ((unmappedAt_within h' hb' hy hle (by omega)).2.trans hend).le
  · rw [flagged_iff h' hb' hle (by omega),hself]

theorem merge_tracks (cfg : Config) {x : Counted} (h : HeapOk x.heap L cells) (hp : x.heap.index n = .hdr p)
    (hb : blkAt x.heap n = some b) (hbfree : b.free = true) (hq : x.heap.index (n + b.blocks) = .hdr q)
    (hc : blkAt x.heap (n + b.blocks) = some c) (hcfree : c.free = true)
    (hmatch : Matched x.heap t n p (n + b.blocks) q) :
    ∃ s' L', mergeWithNext t n p (flOf b.sz) (n + b.blocks) q = some s' ∧ HeapOk s' L' cells ∧
      s'.index n = .hdr p ∧ blkAt s' = update
        (update (blkAt x.heap) n (some { b with sz := b.sz + c.sz })) (n + b.blocks) none ∧
      (starts s' cells).card + 1 = (starts x.heap cells).card ∧
      Tracks cfg cells x ⟨s', x.num + flipDelta cfg.pageHblks x.heap t n p (n + b.blocks) q⟩ := by
  obtain ⟨s',L',hs',hok',hrearranged,hp',hblks,hcard⟩ :=
    mergeWithNext_ok h hp hb hbfree hq hc hcfree hmatch
  refine ⟨s',L',hs',hok',hp',hblks,hcard,⟨L',hok'⟩,hrearranged.descends,fun ha hcount => ?_⟩
  set s := x.heap
  have hbok := h.blocks.layout.blocks hb
  have hcok := h.blocks.layout.blocks hc
  have hbpos := hbok.blocks_pos
  have hcpos := hcok.blocks_pos
  have hlen := blocks_join (hbok.whole hbfree) (hcok.whole hcfree)
  obtain ⟨mapped,calls,hcalls,hkeeps,hmapped⟩ := hmatch.keeps
  obtain ⟨hmerged,_,hself⟩ := mergeWithNext_keeps (hkeeps.hdrs h.blocks.hdrs) (by rw [hmatch.index,hp])
    (by rw [hmatch.index,hq]) (by omega) hs'
  have hflags := flagged_merge mapped h hok' hb hc
    (by rw [hblks,update_of_ne (by omega),update_self]) hlen
    (fun y hy hy' => by
      rw [((hmerged.after (hkeeps.mono (by simp))).steady.same y (by simp [hy,hy'])).unmappedAt_eq])
    (by
      rw [unmappedAt,hself,hmapped]
      cases mapped <;> simp)
  have hfirst := fun y hle hlt => flagged_iff_unmapped (x := y) h hp hb hle hlt
  have hsecond := fun y hle hlt => flagged_iff_unmapped (x := y) h hq hc hle hlt
  have hflipFirst := fun hflip => (regionCount_flip_iff s' h hp hb hbfree (HeapOk.around h _ _) hflip
    hcount).mpr (ha.noticed h hb hbfree)
  have hflipSecond := fun hflip => (regionCount_flip_iff s' h hq hc hcfree (HeapOk.around h _ _) hflip
    hcount).mpr (ha.noticed h hc hcfree)
  unfold flipDelta
  rw [hmapped]
  dsimp only
  cases hcalls with
  | bothMapped h1 h2 =>
    rw [if_pos (by rw [h1,h2]),add_zero]
    refine hcount.of_flagged fun y => ?_
    grind
  | bothUnmapped h1 h2 =>
    rw [if_pos (by rw [h1,h2]),add_zero]
    refine hcount.of_flagged fun y => ?_
    grind
  | remapNext h1 h2 =>
    rw [if_neg (by simp [h1,h2]),if_pos h1.symm]
    exact hflipSecond fun y => by grind
  | unmapNext h1 h2 =>
    rw [if_neg (by simp [h1,h2]),if_pos h1.symm]
    exact hflipSecond fun y => by grind
  | unmapFirst h1 h2 =>
    rw [if_neg (by simp [h1,h2]),if_neg (by simp [h1])]
    exact hflipFirst fun y => by grind
  | remapFirst h1 h2 =>
    rw [if_neg (by simp [h1,h2]),if_neg (by simp [h1])]
    exact hflipFirst fun y => by grind

end Steps

section Loops

variable {cfg : Config} {x : Counted} {a l : List Nat}

theorem matchSmaller_eq (cfg : Config) (x : Counted) (n p m q : Nat) :
    Counted.matchSmaller cfg x n p m q = ⟨matchSmaller x.heap n p m q,
      x.num + flipDelta cfg.pageHblks x.heap (matchSmaller x.heap n p m q) n p m q⟩ := by
  unfold Counted.matchSmaller Counted.adjust flipDelta
  cases hpm : (x.heap.hdrs p).isMapped <;> cases hqm : (x.heap.hdrs q).isMapped
  · simp [hpm,hqm]
  · by_cases hlt : (x.heap.hdrs q).hbSz < (x.heap.hdrs p).hbSz
    · have hkeep : ((matchSmaller x.heap n p m q).hdrs p).isMapped = false := by
        simp [matchSmaller,hpm,hqm,hlt,unmapWithGap,Heap.call]
      simp [hpm,hqm,hlt,hkeep]
    · have hflip : ((matchSmaller x.heap n p m q).hdrs p).isMapped = true := by
        simp only [matchSmaller,hpm,hqm,hlt,Bool.false_and,Bool.false_eq_true,Bool.not_false,Bool.and_true,
          if_true,if_false,updHdr_hdrs_self]
        exact isMapped_setUnmapped _ p false
      simp [hpm,hqm,hlt,hflip]
  · by_cases hlt : (x.heap.hdrs q).hbSz < (x.heap.hdrs p).hbSz
    · have hkeep : ((matchSmaller x.heap n p m q).hdrs p).isMapped = true := by
        simp [matchSmaller,hpm,hqm,hlt,Heap.call]
      simp [hpm,hqm,hlt,hkeep]
    · have hflip : ((matchSmaller x.heap n p m q).hdrs p).isMapped = false := by
        simp [matchSmaller,hpm,hqm,hlt,isMapped_setUnmapped]
      simp [hpm,hqm,hlt,hflip]
  · simp [hpm,hqm]

theorem matchUnmapped_eq (cfg : Config) (x : Counted) (n p m q : Nat) :
    Counted.matchUnmapped cfg x n p m q = ⟨matchUnmapped x.heap n p m q,
      x.num + flipDelta cfg.pageHblks x.heap (matchUnmapped x.heap n p m q) n p m q⟩ := by
  unfold Counted.matchUnmapped Counted.adjust flipDelta
  cases hpm : (x.heap.hdrs p).isMapped <;> cases hqm : (x.heap.hdrs q).isMapped
  · simp [hpm,hqm]
  · have hkeep : ((matchUnmapped x.heap n p m q).hdrs p).isMapped = false := by
      simp [matchUnmapped,hpm,hqm,unmapWithGap,Heap.call]
    simp [hpm,hqm,hkeep]
  · have hflip : ((matchUnmapped x.heap n p m q).hdrs p).isMapped = false := by
      simp [matchUnmapped,hpm,hqm,isMapped_setUnmapped]
    simp [hpm,hqm,hflip]
  · simp [hpm,hqm]

theorem unmapOldLoop_tracks (threshold : Nat) (h : HeapOk x.heap L cells) (hl : L i = a ++ l) :
    Returns False (Counted.unmapOldLoop cfg threshold fuel l.head? x) fun r => Tracks cfg cells x r.2 := by
  induction fuel generalizing x a l with
  | zero =>
    cases l with
    | nil => exact Tracks.refl ⟨L,h⟩
    | cons n l => exact id
  | succ fuel ih =>
    cases l with
    | nil => exact Tracks.refl ⟨L,h⟩
    | cons n l =>
      obtain ⟨p,b,hp,hb,hfree,_,hnext,_⟩ := h.blocks.current hl
      have hl' : L i = (a ++ [n]) ++ l := by simp [hl]
      simp only [List.head?_cons,Counted.unmapOldLoop,hp,hnext]
      split
      · rename_i hcond
        rw [Bool.and_eq_true] at hcond
        split
        · exact Tracks.refl ⟨L,h⟩
        · have hstep := unmapBlock_tracks cfg h hp hb hfree hcond.1
          have hok := (unmapBlock_ok h hp hb hfree hcond.1).1
          exact (ih (x := ⟨_,_⟩) hok hl').mono id fun r hr => hstep.trans hr
      · exact ih h hl'

theorem unmapOld_tracks (threshold : Nat) (h : Ok cells x.heap) :
    Returns False (Counted.unmapOld cfg fuel threshold x) (Tracks cfg cells x) := by
  unfold Counted.unmapOld
  split
  · exact Tracks.refl h
  · refine Returns.map (returns_forLists (P := fun r : Bool × Counted => Tracks cfg cells x r.2) ?_
      (Tracks.refl h)) fun r hr => hr
    rintro i ⟨stop,y⟩ hy
    dsimp only at hy ⊢
    split
    · exact hy
    · obtain ⟨L,hok⟩ := hy.ok
      rw [hok.head]
      exact (unmapOldLoop_tracks threshold hok (a := []) rfl).mono id fun r hr => hy.trans hr

theorem merger_tracks {fix : Counted → Nat → Nat → Nat → Nat → Counted} {g : Heap → Nat → Nat → Nat → Nat → Heap}
    (hmatch : ∀ {s n p}, HdrsOk s → s.index n = .hdr p → ∀ m q, Matched s (g s n p m q) n p m q)
    (hfix : ∀ x n p m q, fix x n p m q =
      ⟨g x.heap n p m q, x.num + flipDelta cfg.pageHblks x.heap (g x.heap n p m q) n p m q⟩) :
    Merger fix cells (Tracks cfg cells) fun _ _ _ _ => True where
  refl := Tracks.refl
  trans := Tracks.trans
  ok h := h.ok
  join _ _ _ _ := trivial
  merge h hp hb hfree hq hc hcfree := by
    obtain ⟨s',L',hs',hok,hp',hb',hcard,htracks⟩ := merge_tracks cfg h hp hb hfree hq hc hcfree
      (hmatch h.blocks.hdrs hp _ _)
    rw [hfix]
    exact ⟨s',L',hs',hok,hp',hb',hcard,htracks,trivial⟩

theorem mergeUnmapped_tracks (h : Ok cells x.heap) :
    Returns False (Counted.mergeUnmapped cfg fuel x) fun r => Tracks cfg cells x r.2 :=
  (mergeUnmappedWith_spec (merger_tracks matchSmaller_matched (matchSmaller_eq cfg)) h).mono False.elim
    fun _ hr => hr.1

theorem mergeFreeBlocksForAlloc_tracks (cfg : Config) (fuel sizeNeeded alignM1 : Nat) (h : Ok cells x.heap) :
    Returns False (Counted.mergeFreeBlocksForAlloc cfg fuel sizeNeeded alignM1 x)
      fun r => Tracks cfg cells x r.2 :=
  (mergeFreeBlocksWith_spec (merger_tracks matchUnmapped_matched (matchUnmapped_eq cfg)) fuel sizeNeeded
    alignM1 h).mono False.elim fun _ => id

end Loops

section Taking

variable {cfg : Config} {x y : Counted} {env : AllocEnv} {req : Request}

theorem remapBlock_heap (cfg : Config) (x : Counted) (n p : Nat) :
    (Counted.remapBlock cfg x n p).heap = remapBlock x.heap n p := by
  unfold Counted.remapBlock
  split
  · rename_i hmapped
    rw [remapBlock,if_pos hmapped]
  · rfl

theorem remapBlock_num (cfg : Config) (x : Counted) (n p : Nat) :
    (Counted.remapBlock cfg x n p).num = x.num + if (x.heap.hdrs p).isMapped then 0
      else calcNumUnmappedRegionsDelta cfg.pageHblks x.heap n p := by
  unfold Counted.remapBlock
  split
  · exact (add_zero _).symm
  · rfl

section

variable {r : Nat × Counted} {e : Nat} (h : HeapOk x.heap L cells) (hp : x.heap.index n = .hdr p)
  (hfree : (x.heap.hdrs p).isFree = true) (hlt : n + k < e)
include h hp hfree hlt

theorem splitAt_num (hr : Counted.splitAt cfg x n p (n + k) i = some r) :
    splitAt x.heap n p (n + k) i = some (r.1, r.2.heap) ∧ ∃ t, Around x.heap t n e ∧
      (Counted.remapBlock cfg r.2 (n + k) r.1).num = x.num + if (x.heap.hdrs p).isMapped then 0
        else calcNumUnmappedRegionsDelta cfg.pageHblks t n p := by
  unfold Counted.splitAt at hr
  unfold splitAt
  split at hr
  · rename_i heq
    cases hr
    refine ⟨if_pos heq,x.heap,HeapOk.around h _ _,?_⟩
    rw [remapBlock_num,heq]
  · rename_i hne
    dsimp only at hr ⊢
    rw [if_neg hne]
    obtain ⟨s2,hs2,rfl⟩ := map_eq_some_iff.mp hr
    rw [remapBlock_heap] at hs2
    have hsplit := hs2
    rw [installHeader_fst] at hsplit
    obtain ⟨_,_,hseen,hindex⟩ := splitBlock_installed h.blocks.hdrs hp hfree hne hsplit
    have hhdr : (installHeader x.heap (n + k)).2.hdrs p = x.heap.hdrs p :=
      installHeader_hdrs x.heap (n + k) p fun heq => newHdr_fresh h.blocks.hdrs n (heq ▸ hp)
    refine ⟨by rw [hs2]; rfl,(installHeader x.heap (n + k)).2,
      around_installHeader h (by omega) (by omega),?_⟩
    rw [remapBlock_num,installHeader_fst]
    dsimp only
    rw [if_pos (seen_eq_none.mp hseen).2,add_zero,remapBlock_num]
    dsimp only
    rw [hhdr]

theorem takeBlock_num (hr : Counted.takeBlock cfg env req i n (n + k) x = some r) :
    takeBlock env req i n (n + k) x.heap = some (r.1, r.2.heap) ∧ ∃ t, Around x.heap t n e ∧
      r.2.num = x.num + if (x.heap.hdrs p).isMapped then 0
        else calcNumUnmappedRegionsDelta cfg.pageHblks t n p := by
  unfold Counted.takeBlock at hr
  unfold takeBlock
  simp only [hp,bind_eq_bind] at hr ⊢
  obtain ⟨⟨q,y⟩,hy,hr⟩ := bind_eq_some_iff.mp hr
  obtain ⟨u,hu,hr⟩ := bind_eq_some_iff.mp hr
  obtain ⟨hsplit,t,ht,hnum⟩ := splitAt_num h hp hfree hlt hy
  dsimp only at hsplit hu hr hnum
  rw [remapBlock_heap] at hu
  cases hr
  refine ⟨?_,t,ht,hnum⟩
  rw [hsplit,bind_some,hu]
  rfl

end

theorem flagged_take (h : HeapOk s L cells) (hb : blkAt s n = some b)
    (hsame : ∀ z, z ≠ n → unmappedAt s' z = unmappedAt s z) (hnone : unmappedAt s' n = none) (z : Nat) :
    Flagged s' z ↔ if n ≤ z ∧ z < n + b.blocks then False else Flagged s z := by
  have hpos := (h.blocks.layout.blocks hb).blocks_pos
  -- No block that starts here is flagged any more.
  have hclear : ∀ y size, unmappedAt s' y = some size → ¬ (n ≤ y ∧ y < n + b.blocks) := by
    intro y size hy hin
    have hne : y ≠ n := by
      rintro rfl
      rw [hnone] at hy
      cases hy
    rw [hsame y hne] at hy
    exact hne (unmappedAt_within h hb hy hin.1 hin.2).1
  refine flagged_change (fun y hy => hsame y (by omega))
    (fun y size hy hle hlt => (unmappedAt_within h hb hy hle hlt).2.le)
    (fun y size hy hle hlt => absurd ⟨hle,hlt⟩ (hclear y size hy)) (fun y hle hlt => ?_) z
  rw [iff_false]
  rintro ⟨m,size,hm,hmy,hym⟩
  have hne : m ≠ n := by
    rintro rfl
    rw [hnone] at hm
    cases hm
  rw [hsame m hne] at hm
  obtain ⟨c,hc,_,hblocks⟩ := blkAt_of_unmappedAt h hm
  rw [hblocks] at hym
  exact hne (h.blocks.layout.tiles.unique (Layout.len_eq hc) (Layout.len_eq hb) ⟨hmy,hym⟩ ⟨hle,hlt⟩)

structure Served (cfg : Config) (cells : Finset Nat) (x : Counted) (r : Option Nat × Counted) : Prop where
  ok : Ok cells r.2.heap
  exact : PageAligned cfg.pageHblks x.heap → RegionCount x.heap x.num → RegionCount r.2.heap r.2.num
  failed : r.1 = none → Tracks cfg cells x r.2

theorem Tracks.served (h : Tracks cfg cells x y) : Served cfg cells x (none, y) := ⟨h.ok,h.exact,fun _ => h⟩

theorem Served.after {r : Option Nat × Counted} (h' : Served cfg cells y r) (h : Tracks cfg cells x y) :
    Served cfg cells x r :=
  ⟨h'.ok,fun ha hcount => h'.exact (ha.descend h.ok h.descends) (h.exact ha hcount),
    fun hnone => h.trans (h'.failed hnone)⟩

theorem searchable_flags (env : AllocEnv) (req : Request) (i : Nat) (cells : Finset Nat) :
    Searchable (dropHblkInChunks env) env req i cells.card (fun s L => HeapOk s L cells)
      fun s t => Descends s t ∧ unmappedAt t = unmappedAt s where
  refl s := ⟨Descends.refl s,rfl⟩
  trans h h' := ⟨h.1.trans h'.1,h'.2.trans h.2⟩
  blocks h := ⟨cells,h.blocks,le_refl _⟩
  count c h := by
    obtain ⟨hok,hrearranged⟩ := heapOk_count h c
    exact ⟨hok,hrearranged.descends,rfl⟩
  drop h hp hb hmem hmapped hneed hblack := by
    obtain ⟨s',hs',hok,hsheds,hflags⟩ := dropHblkInChunks_ok env h hp hb hmem hmapped hneed hblack
    exact ⟨s',hs',hok,hsheds.descends,hflags⟩

theorem takeBlock_served {r : Nat × Counted} (h : HeapOk x.heap L cells) (hb : blkAt x.heap n = some b)
    (hfree : b.free = true) (hneed : 0 < req.lbAdjusted) (hle : k + objSzToBlocks req.lbAdjusted ≤ b.blocks)
    (hfits : req.sizeNeeded < sizetSignb)
    (hr : Counted.takeBlock cfg env req (flOf b.sz) n (n + k) x = some r) :
    Served cfg cells x (some r.1, r.2) := by
  have hpos := objSzToBlocks_pos hneed
  obtain ⟨p,hp,_⟩ := blkAt_eq_some.mp hb
  obtain ⟨hu,t,ht,hnum⟩ := takeBlock_num (e := n + b.blocks) h hp
    ((isFree_of_blkAt hp hb).trans hfree) (by omega) hr
  obtain ⟨u,L',hu',hB,htotal,hcount⟩ := takeBlock_spec env h.blocks hb hfree hneed hle hfits
  obtain ⟨hsteady,hnone,-⟩ := takeBlock_taken env h.blocks h.accounts.high hp hb hfree hneed hle hu
  have hacc := h.accounts.remap (h.blocks.layout.start_mem hb) hp hsteady hnone
  have hlarge := h.large
  have hheap : u = r.2.heap := by
    rw [hu] at hu'
    exact (congrArg Prod.snd (Option.some.inj hu')).symm
  subst hheap
  have hflags := flagged_take h hb (fun z hz => (hsteady.same z (by simpa using hz)).unmappedAt_eq) hnone
  refine ⟨⟨L',h.shift hB (by dsimp only; omega) hcount hacc⟩,fun ha hregions => ?_,by simp⟩
  dsimp only
  rw [hnum]
  cases hmapped : (x.heap.hdrs p).isMapped with
  | true =>
    rw [if_pos rfl,add_zero]
    refine hregions.of_flagged fun z => ?_
    rw [hflags]
    split
    · rename_i hz
      rw [flagged_iff_unmapped h hp hb hz.1 hz.2,hmapped]
      simp
    · rfl
  | false =>
    rw [if_neg (by simp)]
    refine (regionCount_flip_iff r.2.heap h hp hb hfree ht (fun z => ?_) hregions).mpr (ha.noticed h hb hfree)
    rw [hflags,hmapped]
    simp

theorem allochblkNth_served (cfg : Config) (env : AllocEnv) (fuel i : Nat) (hsound : Sound req)
    (hfits : req.sizeNeeded < sizetSignb) (maySplit : MaySplit) (h : Ok cells x.heap) :
    Returns False (Counted.allochblkNth cfg env fuel req i maySplit x) (Served cfg cells x) := by
  obtain ⟨L,h⟩ := h
  have hsearch := searchLoop_spec (searchable_flags env req i cells) (k := fuel) fuel hsound maySplit h
    (a := []) rfl
  unfold Counted.allochblkNth
  rw [h.head]
  split
  · exact id
  · rename_i t hnone
    rw [hnone] at hsearch
    obtain ⟨⟨L',ht,_⟩,⟨hdescends,hflags⟩,_⟩ := hsearch
    exact Tracks.served ⟨⟨L',ht⟩,hdescends,fun _ hcount => hcount.congr hflags⟩
  · rename_i n last t hfound
    rw [hfound] at hsearch
    obtain ⟨⟨L',ht,hfit⟩,⟨hdescends,hflags⟩,_⟩ := hsearch
    obtain ⟨b,hb,hfree,rfl,k,rfl,hle⟩ := hfit n last rfl
    have hstep : Tracks cfg cells x { x with heap := t } :=
      ⟨⟨L',ht⟩,hdescends,fun _ hcount => hcount.congr hflags⟩
    cases htake : Counted.takeBlock cfg env req (flOf b.sz) n (n + k) { x with heap := t } with
    | none => exact id
    | some r =>
      exact (takeBlock_served (x := { x with heap := t }) ht hb hfree hsound.pos hle hfits htake).after hstep

theorem search_served (cfg : Config) (env : AllocEnv) (fuel : Nat) (hsound : Sound req)
    (hfits : req.sizeNeeded < sizetSignb) (cells : Finset Nat) :
    Lawful (Counted.search cfg fuel req) env False (fun x => Ok cells x.heap) (Served cfg cells) where
  refl h := (Tracks.refl h).served
  after h h' := h'.after (h.failed rfl)
  inv h := h.ok
  nth i maySplit h := allochblkNth_served cfg env fuel i hsound hfits maySplit h
  merge h := (mergeFreeBlocksForAlloc_tracks cfg fuel req.sizeNeeded req.alignM1 h).mono id fun _ hr => hr.served

end Taking

section Runs

variable {cfg : Config} {x y : Counted}

mutual

/-- `P` holds of an operation in the state it starts from, and of those of a collection
that it runs; after a collection `GC_allochblk` starts once more. -/
def Meets (P : Op → Heap → Prop) (cfg : Config) (fuel : Nat) : Op → Counted → Prop
  | .allochblk env req collects collection after, x =>
      P (.allochblk env req collects collection after) x.heap ∧
        match (Counted.search cfg fuel req).beforeCollect env x with
        | some (none, y) => collects = true → AllMeet P cfg fuel collection y ∧
            match Counted.execAll cfg fuel collection y with
            | some z => P (.allochblk env req collects collection after) z.heap
            | none => True
        | _ => True
  | op, x => P op x.heap

def AllMeet (P : Op → Heap → Prop) (cfg : Config) (fuel : Nat) : List Op → Counted → Prop
  | [], _ => True
  | op :: ops, x => Meets P cfg fuel op x ∧
      match Counted.exec cfg fuel op x with
      | some y => AllMeet P cfg fuel ops y
      | none => True

end

section Decidable

variable (P : Op → Heap → Prop) [∀ op s, Decidable (P op s)]

mutual

def decMeets (cfg : Config) (fuel : Nat) : (op : Op) → (x : Counted) → Decidable (Meets P cfg fuel op x)
  | .allochblk env req collects collection after, x =>
      @instDecidableAnd (P (.allochblk env req collects collection after) x.heap) _ _
        (match (Counted.search cfg fuel req).beforeCollect env x with
        | some (none, y) =>
            @instDecidableForall (collects = true) _ _ (@instDecidableAnd _ _ (decAllMeet cfg fuel collection y)
              (match Counted.execAll cfg fuel collection y with
              | some z => inferInstanceAs (Decidable (P (.allochblk env req collects collection after) z.heap))
              | none => instDecidableTrue))
        | none | some (some _, _) => instDecidableTrue)
  | .addToHeap _ _, x | .freehblk _, x | .mergeUnmapped, x | .mergeFreeBlocksForAlloc _ _, x | .unmapOld _, x
  | .nextGc, x => inferInstanceAs (Decidable (P _ x.heap))

def decAllMeet (cfg : Config) (fuel : Nat) :
    (ops : List Op) → (x : Counted) → Decidable (AllMeet P cfg fuel ops x)
  | [], _ => instDecidableTrue
  | op :: ops, x =>
      @instDecidableAnd _ _ (decMeets cfg fuel op x)
        (match Counted.exec cfg fuel op x with
        | some y => decAllMeet cfg fuel ops y
        | none => instDecidableTrue)

end

instance (cfg : Config) (fuel : Nat) (ops : List Op) (x : Counted) : Decidable (AllMeet P cfg fuel ops x) :=
  decAllMeet P cfg fuel ops x

end Decidable

def Proper : Op → Heap → Prop
  | .addToHeap h n, s => NewMemory s h n
  | .allochblk _ req _ _ _, _ => Legal req
  | .freehblk h, s => (s.hdrAt h).any fun hhdr => !hhdr.isFree
  | _, _ => True

instance : ∀ (op : Op) (s : Heap), Decidable (Proper op s)
  | .addToHeap h n, s => inferInstanceAs (Decidable (NewMemory s h n))
  | .allochblk _ req _ _ _, _ => inferInstanceAs (Decidable (Legal req))
  | .freehblk h, s => inferInstanceAs (Decidable ((s.hdrAt h).any (fun hhdr => !hhdr.isFree) = true))
  | .mergeUnmapped, _ | .mergeFreeBlocksForAlloc _ _, _ | .unmapOld _, _ | .nextGc, _ => instDecidableTrue

/-- Where an operation may unmap or remap a block, free blocks meet at the start of a page. -/
def Paged (pageHblks : Nat) : Op → Heap → Prop
  | .addToHeap _ _, _ | .freehblk _, _ | .nextGc, _ => True
  | _, s => MeetAtPages pageHblks s

instance (pageHblks : Nat) : ∀ (op : Op) (s : Heap), Decidable (Paged pageHblks op s)
  | .addToHeap _ _, _ | .freehblk _, _ | .nextGc, _ => instDecidableTrue
  | .allochblk .., s | .mergeUnmapped, s | .mergeFreeBlocksForAlloc _ _, s | .unmapOld _, s =>
    inferInstanceAs (Decidable (MeetAtPages pageHblks s))

def Counts (paged : Prop) (x y : Counted) : Prop :=
  (∃ cells, Ok cells y.heap) ∧ (paged → RegionCount x.heap x.num → RegionCount y.heap y.num)

theorem Tracks.counts {paged : Prop} (h : Tracks cfg cells x y)
    (hpaged : paged → PageAligned cfg.pageHblks x.heap) : Counts paged x y :=
  ⟨⟨cells,h.ok⟩,fun hp => h.exact (hpaged hp)⟩

theorem Served.counts {paged : Prop} {r : Option Nat × Counted} (h : Served cfg cells x r)
    (hpaged : paged → PageAligned cfg.pageHblks x.heap) : Counts paged x r.2 :=
  ⟨⟨cells,h.ok⟩,fun hp => h.exact (hpaged hp)⟩

theorem counts_of_unmappedAt {paged : Prop} (hok : Ok cells s') (heq : unmappedAt s' = unmappedAt x.heap) :
    Counts paged x { x with heap := s' } := ⟨⟨cells,hok⟩,fun _ hcount => hcount.congr heq⟩

mutual

theorem exec_counts (cfg : Config) (fuel : Nat) (op : Op) (x : Counted) (h : ∃ cells, Ok cells x.heap)
    (hproper : Meets Proper cfg fuel op x) :
    Returns False (Counted.exec cfg fuel op x) (Counts (Meets (Paged cfg.pageHblks) cfg fuel op x) x) := by
  obtain ⟨cells,h⟩ := h
  have haligned : MeetAtPages cfg.pageHblks x.heap → _ := MeetAtPages.pageAligned h
  cases op with
  | addToHeap a n =>
    simp only [Meets] at hproper
    obtain ⟨s',cells',hs',hok,_,_,_,heq⟩ := addToHeap_spec h hproper.1 hproper.2
    rw [Counted.exec,hs']
    exact counts_of_unmappedAt hok heq
  | allochblk env req collects collection after =>
    rw [Meets] at hproper
    obtain ⟨hlegal,hcollection⟩ := hproper
    have hsound := Legal.sound hlegal
    rw [Counted.exec,Meets]
    refine Returns.map (P := fun r => Counts _ x r.2) ?_ fun r hr => hr
    unfold Counted.allochblk Search.allochblk
    split
    · exact (Tracks.refl h).counts fun hpaged => haligned hpaged.1
    · rename_i hno
      have hserved := fun env => search_served cfg env fuel hsound (sizeNeeded_lt (Bool.eq_false_iff.mpr hno))
      refine ((hserved env cells).beforeCollect h).orTry (fun _ _ hy => hy.counts fun hpaged => haligned hpaged.1)
        fun y heq hy => ?_
      rw [heq] at hcollection ⊢
      have hstep := hy.failed rfl
      cases collects with
      | false => exact hstep.counts fun hpaged => haligned hpaged.1
      | true =>
        obtain ⟨hall,_⟩ := hcollection rfl
        have hrun := execAll_counts cfg fuel collection y ⟨cells,hstep.ok⟩ hall
        cases hz : Counted.execAll cfg fuel collection y with
        | none =>
          simp only [if_true]
          rw [hz]
          exact id
        | some z =>
          simp only [if_true]
          rw [hz] at hrun ⊢
          obtain ⟨⟨cells',hokz⟩,hexact⟩ := hrun
          refine ((hserved after cells').fromFreeLists _ hokz).mono id fun r hr => ?_
          refine ⟨⟨cells',hr.ok⟩,fun hpaged hcount => ?_⟩
          obtain ⟨hpagedAll,hpagedEnd⟩ := hpaged.2 trivial
          exact hr.exact (MeetAtPages.pageAligned hokz hpagedEnd) (hexact hpagedAll (hstep.exact (haligned hpaged.1) hcount))
  | freehblk a =>
    simp only [Meets] at hproper
    obtain ⟨s',hs',hok,_,_,_,_,heq⟩ := freehblk_ok h hproper
    rw [Counted.exec,hs']
    exact counts_of_unmappedAt hok heq
  | mergeUnmapped =>
    rw [Counted.exec]
    exact (mergeUnmapped_tracks h).map fun r hr => hr.counts haligned
  | mergeFreeBlocksForAlloc sizeNeeded alignM1 =>
    rw [Counted.exec]
    exact (mergeFreeBlocksForAlloc_tracks cfg fuel sizeNeeded alignM1 h).map fun r hr => hr.counts haligned
  | unmapOld threshold =>
    rw [Counted.exec]
    exact (unmapOld_tracks threshold h).mono id fun y hy => hy.counts haligned
  | nextGc =>
    rw [Counted.exec]
    exact counts_of_unmappedAt (nextGc_ok h).1 rfl

theorem execAll_counts (cfg : Config) (fuel : Nat) (ops : List Op) (x : Counted) (h : ∃ cells, Ok cells x.heap)
    (hproper : AllMeet Proper cfg fuel ops x) :
    Returns False (Counted.execAll cfg fuel ops x)
      (Counts (AllMeet (Paged cfg.pageHblks) cfg fuel ops x) x) := by
  cases ops with
  | nil =>
    rw [Counted.execAll]
    exact ⟨h,fun _ hcount => hcount⟩
  | cons op ops =>
    rw [AllMeet] at hproper
    rw [Counted.execAll,AllMeet]
    have hstep := exec_counts cfg fuel op x h hproper.1
    cases hy : Counted.exec cfg fuel op x with
    | none => exact id
    | some y =>
      rw [hy] at hstep hproper
      refine (execAll_counts cfg fuel ops y hstep.1 hproper.2).mono id fun z hz => ⟨hz.1,fun hpaged hcount => ?_⟩
      exact hz.2 hpaged.2 (hstep.2 hpaged.1 hcount)

end

end Runs

section Exactness

/-- The hblks from `a` up to `b` belong to flagged blocks that lie side by side, and no flagged
block is next to them. -/
structure MaximalRun (s : Heap) (a b : Nat) : Prop where
  lt : a < b
  flagged : ∀ x, a ≤ x → x < b → Flagged s x
  stop : ¬ Flagged s b
  start : ∀ y, Flagged s y → y + 1 ≠ a

theorem RegionCount.exists_runs {r : Int} (h : RegionCount s r) :
    ∃ runs : Finset (Nat × Nat), (∀ z, z ∈ runs ↔ MaximalRun s z.1 z.2) ∧ r = runs.card := by
  obtain ⟨U,hU,rfl⟩ := h
  obtain ⟨runs,hruns,hcard⟩ := Library.MaximalRuns.exists_runs U
  refine ⟨runs,fun z => (hruns z).trans ⟨fun hz => ?_,fun hz => ?_⟩,by rw [hcard]⟩
  · exact ⟨hz.lt,fun x hx hxz => (hU x).mp (hz.mem x hx hxz),fun hstop => hz.stop ((hU _).mpr hstop),
      fun y hy => hz.start y ((hU y).mpr hy)⟩
  · exact ⟨hz.lt,fun x hx hxz => (hU x).mpr (hz.flagged x hx hxz),fun hstop => hz.stop ((hU _).mp hstop),
      fun y hy => hz.start y ((hU y).mp hy)⟩

theorem regionCount_init (hdrs : Nat → Hdr) : RegionCount (Heap.init hdrs) 0 := by
  refine ⟨∅,fun x => ?_,rfl⟩
  rw [iff_false_left (notMem_empty x)]
  rintro ⟨n,size,hn,_⟩
  rw [unmappedAt_of_none rfl] at hn
  cases hn

theorem execAll_ok {cfg : Config} {fuel : Nat} {hdrs : Nat → Hdr} {ops : List Op} {x : Counted}
    (hproper : AllMeet Proper cfg fuel ops ⟨Heap.init hdrs, 0⟩)
    (hx : Counted.execAll cfg fuel ops ⟨Heap.init hdrs, 0⟩ = some x) : ∃ cells, Ok cells x.heap :=
  ((execAll_counts cfg fuel ops _ ⟨∅,_,heapOk_init hdrs⟩ hproper).of_eq hx).1

/-- A block of `lb` bytes is allocated, the rest of the heap unmapped, and then the block is
freed and unmapped as well. -/
def unmappedInTurn (lb : Nat) : List Op := [
  .addToHeap 16 8,
  .allochblk quietEnv ⟨lb, normal, false, 0⟩ false [] quietEnv,
  .nextGc,
  .unmapOld 1,
  .freehblk 16,
  .nextGc,
  .unmapOld 1]

/-- The counter is the number of maximal runs in every state of a run in which free blocks
meet at pages; where two do not, unmapping or remapping the first of them is miscounted
exactly if the second is flagged. -/
theorem execAll_regionsExact (j : Nat) (softLimit : Int) (hdrs : Nat → Hdr) (fuel : Nat) (ops : List Op)
    (hproper : AllMeet Proper ⟨2 ^ j, softLimit⟩ fuel ops ⟨Heap.init hdrs, 0⟩)
    (hpaged : AllMeet (Paged (2 ^ j)) ⟨2 ^ j, softLimit⟩ fuel ops ⟨Heap.init hdrs, 0⟩) (x : Counted)
    (hx : Counted.execAll ⟨2 ^ j, softLimit⟩ fuel ops ⟨Heap.init hdrs, 0⟩ = some x) :
    (∃ runs : Finset (Nat × Nat), (∀ r, r ∈ runs ↔ MaximalRun x.heap r.1 r.2) ∧ x.num = runs.card) ∧
      ∀ n p, x.heap.index n = .hdr p → (x.heap.hdrs p).isFree = true →
        (RegionCount (setUnmapped x.heap p (x.heap.hdrs p).isMapped) (x.adjust ⟨2 ^ j, softLimit⟩ n p) ↔
          2 ^ j ∣ n + divHblksz (x.heap.hdrs p).hbSz ∨
            ¬ Flagged x.heap (n + divHblksz (x.heap.hdrs p).hbSz)) := by
  obtain ⟨⟨cells,L,hok⟩,hexact⟩ := (execAll_counts ⟨2 ^ j,softLimit⟩ fuel ops ⟨Heap.init hdrs,0⟩
    ⟨∅,_,heapOk_init hdrs⟩ hproper).of_eq hx
  have hcount := hexact hpaged (regionCount_init hdrs)
  refine ⟨hcount.exists_runs,fun n p hp hfree => ?_⟩
  have hb := blkAt_of_index hp
  have hlen := divHblksz_eq_blocks ((hok.blocks.layout.blocks hb).whole hfree)
  change divHblksz (x.heap.hdrs p).hbSz = _ at hlen
  rw [hlen]
  exact regionCount_flip_iff _ hok hp hb hfree (HeapOk.around hok _ _) (flagged_setUnmapped hok hp hb hfree) hcount

/-- With pages of two hblks, a block of four and the rest meet at a page. -/
theorem execAll_regionsExact_fourHblks :
    AllMeet Proper ⟨2 ^ 1, 16384⟩ 200 (unmappedInTurn 16384) ⟨blankHeap, 0⟩ ∧
      AllMeet (Paged (2 ^ 1)) ⟨2 ^ 1, 16384⟩ 200 (unmappedInTurn 16384) ⟨blankHeap, 0⟩ ∧
        ∃ x, Counted.execAll ⟨2 ^ 1, 16384⟩ 200 (unmappedInTurn 16384) ⟨blankHeap, 0⟩ =
            some x ∧
          ∃ runs : Finset (Nat × Nat), (∀ r, r ∈ runs ↔ MaximalRun x.heap r.1 r.2) ∧ x.num = runs.card := by
  have hproper : AllMeet Proper ⟨2 ^ 1,16384⟩ 200 (unmappedInTurn 16384) ⟨blankHeap,0⟩ := by
    decide +kernel
  have hpaged : AllMeet (Paged (2 ^ 1)) ⟨2 ^ 1,16384⟩ 200 (unmappedInTurn 16384)
      ⟨blankHeap,0⟩ := by decide +kernel
  have hsome : (Counted.execAll ⟨2 ^ 1,16384⟩ 200 (unmappedInTurn 16384)
      ⟨blankHeap,0⟩).isSome := by decide +kernel
  obtain ⟨x,hx⟩ := isSome_iff_exists.mp hsome
  exact ⟨hproper,hpaged,x,hx,(execAll_regionsExact 1 16384 (fun _ => blankHdr) 200 (unmappedInTurn 16384)
    hproper hpaged x hx).1⟩

theorem mem_cells_of_flagged (h : HeapOk s L cells) {x : Nat} (hx : Flagged s x) : x ∈ cells := by
  obtain ⟨n,b,hb,_,hle,hlt⟩ := blkAt_of_flagged h hx
  exact (h.blocks.layout.tiles.covers x).mpr ⟨n,b.blocks,Layout.len_eq hb,hle,hlt⟩

theorem maximalRun_iff {c d : Nat} (h : ∀ y, Flagged s y ↔ c ≤ y ∧ y < d) (hcd : c < d) (a b : Nat) :
    MaximalRun s a b ↔ a = c ∧ b = d := by
  constructor
  · intro hrun
    have hlt := hrun.lt
    have hfrom := (h a).mp (hrun.flagged a le_rfl hlt)
    have hto := (h (b - 1)).mp (hrun.flagged (b - 1) (by omega) (by omega))
    have hstop := (h b).not.mp hrun.stop
    have hstart := fun hin => hrun.start (a - 1) ((h (a - 1)).mpr hin)
    omega
  · rintro ⟨rfl,rfl⟩
    refine ⟨hcd,fun y hle hlt => (h y).mpr ⟨hle,hlt⟩,(h b).not.mpr (by omega),fun y hy => ?_⟩
    have := (h y).mp hy
    omega

/-- With pages of two hblks the two blocks, side by side, are counted as two regions: they
meet in the middle of a page. -/
theorem execAll_regions_overcounted :
    AllMeet Proper ⟨2, 16384⟩ 200 (unmappedInTurn 12288) ⟨blankHeap, 0⟩ ∧
      ∃ x, Counted.execAll ⟨2, 16384⟩ 200 (unmappedInTurn 12288) ⟨blankHeap, 0⟩ = some x ∧
        x.num = 2 ∧ ∀ a b, MaximalRun x.heap a b ↔ a = 16 ∧ b = 24 := by
  have hproper : AllMeet Proper ⟨2,16384⟩ 200 (unmappedInTurn 12288) ⟨blankHeap,0⟩ := by
    decide +kernel
  have hfinal : (Counted.execAll ⟨2,16384⟩ 200 (unmappedInTurn 12288) ⟨blankHeap,0⟩).map
      (fun x => (x.num, unmappedAt x.heap 16, unmappedAt x.heap 19, x.heap.heapSects)) =
        some (2, some 12288, some 20480, [⟨65536,32768⟩]) := by decide +kernel
  obtain ⟨x,hx,hvalues⟩ := map_eq_some_iff.mp hfinal
  obtain ⟨cells,L,hok⟩ := execAll_ok hproper hx
  obtain ⟨hnum,hfirst,hsecond,hsects⟩ : x.num = 2 ∧ unmappedAt x.heap 16 = some 12288 ∧
      unmappedAt x.heap 19 = some 20480 ∧ x.heap.heapSects = [⟨65536,32768⟩] := by simpa using hvalues
  refine ⟨hproper,x,hx,hnum,maximalRun_iff (fun y => ⟨fun hy => ?_,?_⟩) (by decide)⟩
  · have hcell := (hok.sects y).mp (mem_cells_of_flagged hok hy)
    rw [hsects] at hcell
    simp only [List.mem_singleton,exists_eq_left,HeapSect.Contains,hblkSize] at hcell
    omega
  · rintro ⟨hlow,hhigh⟩
    rcases Nat.lt_or_ge y 19 with hlt | hge
    · exact ⟨16,12288,hfirst,hlow,by simp [divHblksz,hblkSize]; omega⟩
    · exact ⟨19,20480,hsecond,hge,by simp [divHblksz,hblkSize]; omega⟩

end Exactness

end GcUtil.Block.RegionCounting
