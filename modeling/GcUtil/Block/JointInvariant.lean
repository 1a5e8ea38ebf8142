import Mathlib
import GcUtil.Block.Allocator
import GcUtil.Block.BlockMap
import GcUtil.Block.LinkedLists

/-! The joint invariant of headers, layout and free lists, with the blocks in `off`
exempt from being on the list of their size, and what one statement group of the
allocator does to it. -/
namespace GcUtil.Block.JointInvariant
open Basic Headers FreeLists Allocator HeaderTable LinkedLists BlockMap Function

variable {s s' : Heap} {n p q i : Nat} {L : Nat → List Nat} {cells : Finset Nat} {off : Set Nat}
variable {b c : Blk}

section BlkAt

def blk (b : Hdr) : Blk := ⟨b.hbBlock, b.hbSz, b.isFree⟩

def blkAt (s : Heap) (n : Nat) : Option Blk := (s.hdrAt n).map blk

theorem blkAt_of_index (h : s.index n = .hdr p) : blkAt s n = some (blk (s.hdrs p)) := by
  simp [blkAt,hdrAt_of_index h]

theorem blkAt_eq_some : blkAt s n = some b ↔ ∃ p, s.index n = .hdr p ∧ blk (s.hdrs p) = b := by
  constructor
  · intro h
    obtain ⟨hhdr,hn,hb⟩ := Option.map_eq_some_iff.mp h
    obtain ⟨p,hp,rfl⟩ := hdrAt_eq_some.mp hn
    exact ⟨p,hp,hb⟩
  · rintro ⟨p,hp,rfl⟩
    exact blkAt_of_index hp

theorem blkAt_eq_none : blkAt s n = none ↔ s.hdrAt n = none := by
  simp [blkAt]

theorem blkAt_update {hhdr : Option Hdr} (h : s'.hdrAt = update s.hdrAt n hhdr) :
    blkAt s' = update (blkAt s) n (hhdr.map blk) := by
  funext m
  unfold blkAt
  rw [h,update_apply,update_apply]
  split <;> rfl

theorem blkAt_updHdr (hok : HdrsOk s) (hn : s.index n = .hdr p) (f : Hdr → Hdr) :
    blkAt (s.updHdr p f) = update (blkAt s) n (some (blk (f (s.hdrs p)))) :=
  blkAt_update (hdrAt_updHdr hok hn f)

theorem blkAt_of_core (h : core s' = core s) : blkAt s' = blkAt s := by
  funext m
  have := congrArg (fun t => (Heap.hdrAt t m).map blk) h
  simp only [hdrAt_core,Option.map_map] at this
  exact this

theorem szAt_of_blkAt (h : blkAt s n = some b) : szAt s n = b.sz := by
  obtain ⟨p,hp,rfl⟩ := blkAt_eq_some.mp h
  exact szAt_of_index hp

section

variable (hp : s.index n = .hdr p) (h : blkAt s n = some b)
include hp h

theorem hbSz_of_blkAt : (s.hdrs p).hbSz = b.sz := by
  rw [← szAt_of_index hp,szAt_of_blkAt h]

theorem blk_of_blkAt : blk (s.hdrs p) = b := by
  rw [blkAt_of_index hp] at h
  exact Option.some.inj h

theorem isFree_of_blkAt :
    (s.hdrs p).isFree = b.free := by
  rw [blkAt_of_index hp] at h
  cases h
  rfl

end

end BlkAt

structure Blocks (s : Heap) (L : Nat → List Nat) (cells : Finset Nat) (off : Set Nat) : Prop where
  hdrs : HdrsOk s
  layout : Layout s.index (blkAt s) cells
  lists : Lists s L
  placed : ∀ {n b}, blkAt s n = some b → n ∉ off → ∀ i, n ∈ L i ↔ b.free = true ∧ flOf b.sz = i

/-- The counters that `GC_add_to_fl` and `GC_remove_from_fl_at` leave alone. -/
def counters (s : Heap) : Nat × Nat × List HeapSect := (s.largeFreeBytes, s.heapsize, s.heapSects)

theorem counters_of_core (h : core s' = core s) : counters s' = counters s := by
  have := congrArg counters h
  exact this

theorem blocks_init (hdrs : Nat → Hdr) : Blocks (Heap.init hdrs) (fun _ => []) ∅ ∅ where
  hdrs := hdrsOk_init hdrs
  layout := Layout.empty
  lists := lists_init hdrs
  placed h := by
    obtain ⟨p,hp,_⟩ := blkAt_eq_some.mp h
    simp [Heap.init] at hp

namespace Blocks

section

variable (h : Blocks s L cells off)
include h

theorem mono (off' : Set Nat)
    (hoff : ∀ n, n ∉ off' → n ∉ off ∨ blkAt s n = none) : Blocks s L cells off' :=
  { h with placed := fun hb hn => (hoff _ hn).elim (h.placed hb) fun hnone => by simp [hb] at hnone }

theorem mem_list (hb : blkAt s n = some b) (hn : n ∉ off)
    (hfree : b.free = true) : n ∈ L (flOf b.sz) :=
  (h.placed hb hn _).mpr ⟨hfree,rfl⟩

theorem of_mem_list (hmem : n ∈ L i) (hn : n ∉ off) :
    ∃ p b, s.index n = .hdr p ∧ blkAt s n = some b ∧ b.free = true ∧ flOf b.sz = i := by
  obtain ⟨hhdr,hb⟩ := Option.isSome_iff_exists.mp (h.lists.isBlock hmem)
  obtain ⟨p,hp,_⟩ := hdrAt_eq_some.mp hb
  have hblk := blkAt_of_index hp
  have := (h.placed hblk hn i).mp hmem
  exact ⟨p,_,hp,hblk,this⟩

theorem not_mem_list (hb : blkAt s n = some b) (hn : n ∉ off)
    (hused : b.free = false) (i : Nat) : n ∉ L i := by
  intro hmem
  have := (h.placed hb hn i).mp hmem
  simp [hused] at this

theorem updHdr_keep (hp : s.index n = .hdr p) {f : Hdr → Hdr}
    (hnext : (f (s.hdrs p)).hbNext = (s.hdrs p).hbNext)
    (hprev : (f (s.hdrs p)).hbPrev = (s.hdrs p).hbPrev)
    (hblk : blk (f (s.hdrs p)) = blk (s.hdrs p)) :
    Blocks (s.updHdr p f) L cells off ∧ blkAt (s.updHdr p f) = blkAt s := by
  have hsame : blkAt (s.updHdr p f) = blkAt s := by
    rw [blkAt_updHdr h.hdrs hp,hblk,← blkAt_of_index hp,update_eq_self]
  refine ⟨⟨h.hdrs.updHdr p f,?_,?_,?_⟩,hsame⟩
  · rw [hsame]
    exact h.layout
  · exact h.lists.updHdr_keep h.hdrs hp hnext hprev (congrArg Blk.sz hblk)
  · rw [hsame]
    exact h.placed

theorem setUnmapped (hp : s.index n = .hdr p) (unmapped : Bool) :
    Blocks (setUnmapped s p unmapped) L cells off ∧ blkAt (Allocator.setUnmapped s p unmapped) = blkAt s :=
  h.updHdr_keep hp rfl rfl rfl

theorem congr (hindex : s'.index = s.index) (hhdrs : s'.hdrs = s.hdrs)
    (hpool : s'.hdrFreeList = s.hdrFreeList) (hscratch : s'.hdrScratch = s.hdrScratch)
    (hheads : s'.hblkfreelist = s.hblkfreelist) (hbytes : s'.freeBytes = s.freeBytes) :
    Blocks s' L cells off := by
  have hhdrAt : s'.hdrAt = s.hdrAt := hdrAt_reindex hhdrs fun n => .inl (congrFun hindex n)
  have hblks : blkAt s' = blkAt s := by
    funext n
    rw [blkAt,hhdrAt,blkAt]
  refine ⟨h.hdrs.congr (fun n p hn => hindex ▸ hn) hpool hscratch,?_,?_,?_⟩
  · rw [hindex,hblks]
    exact h.layout
  · exact h.lists.frame_hdrAt hheads hbytes fun _ n _ => congrFun hhdrAt n
  · rw [hblks]
    exact h.placed

theorem call (calls : List MapCall) : Blocks (s.call calls) L cells off :=
  h.congr rfl rfl rfl rfl rfl rfl

theorem of_core (hcore : core s' = core s) {L' : Nat → List Nat}
    (hlists : Lists s' L') {off' : Set Nat}
    (hplaced : ∀ {n b}, blkAt s n = some b → n ∉ off' → ∀ i, n ∈ L' i ↔ b.free = true ∧ flOf b.sz = i) :
    Blocks s' L' cells off' where
  hdrs := hdrsOk_of_core hcore h.hdrs
  layout := by
    rw [index_of_core hcore,blkAt_of_core hcore]
    exact h.layout
  lists := hlists
  placed := by
    rw [blkAt_of_core hcore]
    exact hplaced

end

end Blocks

section Lists

theorem mem_update_erase {m j : Nat} :
    m ∈ update L i ((L i).erase n) j → m ∈ L j := by
  intro hm
  rw [update_apply] at hm
  split at hm
  · rename_i hj
    exact hj ▸ List.mem_of_mem_erase hm
  · exact hm

theorem mem_update_erase_iff {m j : Nat} (hmn : m ≠ n) :
    m ∈ update L i ((L i).erase n) j ↔ m ∈ L j := by
  rw [update_apply]
  split
  · rename_i hj
    rw [hj,List.mem_erase_of_ne hmn]
  · rfl

theorem not_mem_update_erase (h : Lists s L) (hn : n ∈ L i) (j : Nat) :
    n ∉ update L i ((L i).erase n) j := by
  rw [update_apply]
  split
  · exact (h.linked i).nodup.not_mem_erase
  · rename_i hj
    exact fun hm => hj (h.disjoint hm hn)

theorem mem_update_cons_iff {m j : Nat} (hmn : m ≠ n) :
    m ∈ update L i (n :: L i) j ↔ m ∈ L j := by
  rw [update_apply]
  split
  · rename_i hj
    rw [hj,List.mem_cons]
    simp [hmn]
  · rfl

theorem mem_update_cons_self (hnot : ∀ i, n ∉ L i) {j : Nat} :
    n ∈ update L i (n :: L i) j ↔ i = j := by
  rw [update_apply]
  split
  · simp_all
  · rename_i hj
    exact ⟨fun hm => absurd hm (hnot j),fun heq => absurd heq.symm hj⟩

end Lists

namespace Blocks

theorem remove (h : Blocks s L cells off) (hp : s.index n = .hdr p) (hn : n ∈ L i) :
    ∃ s', removeFromFlAt s p i = some s' ∧ Removed s s' L n i ∧
      Blocks s' (update L i ((L i).erase n)) cells (insert n off) := by
  obtain ⟨s',hs',hrem⟩ := removeFromFlAt_spec h.hdrs h.lists hp hn
  refine ⟨s',hs',hrem,h.of_core hrem.core hrem.lists fun {m b} hb hm j => ?_⟩
  rw [Set.mem_insert_iff,not_or] at hm
  rw [mem_update_erase_iff hm.1]
  exact h.placed hb hm.2 j

theorem add (off : Set Nat) (h : Blocks s L cells (insert n off)) (hp : s.index n = .hdr p)
    (hb : blkAt s n = some b) (hfree : b.free = true) (hnot : ∀ i, n ∉ L i) :
    ∃ s' L', addToFl s n p = some s' ∧ Blocks s' L' cells off ∧ blkAt s' = blkAt s ∧
      s'.index = s.index ∧ total s' = total s + b.sz ∧ counters s' = counters s := by
  obtain ⟨s',hs',hadd⟩ := addToFl_spec h.hdrs h.lists hp hnot
  have hkeep : blkAt (s.updHdr p setFree) = blkAt s := by
    have hsame : blk (setFree (s.hdrs p)) = blk (s.hdrs p) := by
      have := isFree_of_blkAt hp hb
      unfold blk setFree
      rw [this,hfree]
      rfl
    rw [blkAt_updHdr h.hdrs hp,hsame,← blkAt_of_index hp,update_eq_self]
  have hblks : blkAt s' = blkAt s := (blkAt_of_core hadd.core).trans hkeep
  have hindex : s'.index = (s.updHdr p setFree).index := index_of_core hadd.core
  have hsz := hbSz_of_blkAt hp hb
  refine ⟨s',_,hs',⟨?_,?_,hadd.lists,fun {m c} hc hm j => ?_⟩,hblks,hindex,?_,?_⟩
  · exact hdrsOk_of_core hadd.core (h.hdrs.updHdr p setFree)
  · rw [hblks,hindex]
    exact h.layout
  · rw [hblks] at hc
    by_cases hmn : m = n
    · subst hmn
      rw [hb] at hc
      cases hc
      rw [mem_update_cons_self hnot,hsz]
      simp [hfree]
    · rw [mem_update_cons_iff hmn]
      exact h.placed hc (by simp [hmn,hm]) j
  · rw [hadd.total,hsz]
  · rw [counters_of_core hadd.core]
    rfl

/-- The block `n` takes over the block behind it; both are on no list. -/
theorem absorb (off' : Set Nat) (h : Blocks s L cells off) (hp : s.index n = .hdr p)
    (hb : blkAt s n = some b) (hbfree : b.free = true)
    (hq : s.index (n + b.blocks) = .hdr q) (hc : blkAt s (n + b.blocks) = some c)
    (hcfree : c.free = true) (hnot : ∀ i, n ∉ L i) (hnot' : ∀ i, n + b.blocks ∉ L i)
    {f : Hdr → Hdr} (hf : blk (f (s.hdrs p)) = { b with sz := b.sz + c.sz }) (hn : n ∈ off)
    (hoff : ∀ m, m ∉ off' → m = n + b.blocks ∨ m ∉ off) :
    ∃ s', removeHeader (s.updHdr p f) (n + b.blocks) = some s' ∧ Blocks s' L cells off' ∧
      s'.index = update s.index (n + b.blocks) .nil ∧ s'.hdrs p = f (s.hdrs p) ∧
      blkAt s' = update (update (blkAt s) n (some { b with sz := b.sz + c.sz }))
        (n + b.blocks) none ∧ total s' = total s ∧ counters s' = counters s := by
  have hq1 : (s.updHdr p f).index (n + b.blocks) = .hdr q := hq
  have hok1 := h.hdrs.updHdr p f
  obtain ⟨s',hs'⟩ : ∃ s', removeHeader (s.updHdr p f) (n + b.blocks) = some s' :=
    ⟨_,removeHeader_eq hq1⟩
  have hhdrAt := hdrAt_removeHeader hq1 hs'
  have hblks : blkAt s' = update
      (update (blkAt s) n (some { b with sz := b.sz + c.sz })) (n + b.blocks) none := by
    rw [blkAt_update hhdrAt,blkAt_updHdr h.hdrs hp,hf]
    rfl
  have hlists1 := h.lists.updHdr_off h.hdrs hp hnot f
  have hlists := hlists1.removeHeader hq1 hnot' hs'
  have hok := hok1.removeHeader hq1 hs'
  refine ⟨s',hs',?_⟩
  rw [removeHeader_eq hq1] at hs'
  cases hs'
  refine ⟨⟨hok,?_,hlists,fun {m d} hd hm j => ?_⟩,rfl,updHdr_hdrs_self s p f,hblks,rfl,rfl⟩
  · rw [hblks]
    exact h.layout.merge hb hbfree hc hcfree
  · rw [hblks,update_apply,update_apply] at hd
    split at hd
    · cases hd
    · rename_i hne
      have hmoff := (hoff m hm).resolve_left hne
      split at hd
      · rename_i hmn
        exact absurd (hmn ▸ hn) hmoff
      · exact h.placed hd hmoff j

theorem length_le (h : Blocks s L cells ∅) (i : Nat) : (L i).length ≤ cells.card := by
  rw [← List.toFinset_card_of_nodup (h.lists.linked i).nodup]
  apply Finset.card_le_card
  intro m hm
  obtain ⟨p,b,_,hb,_⟩ := h.of_mem_list (List.mem_toFinset.mp hm) (by simp)
  exact h.layout.start_mem hb

/-- What a loop over list `i` finds at its current element. -/
theorem current {a l : List Nat} (h : Blocks s L cells ∅) (hl : L i = a ++ n :: l) :
    ∃ p b, s.index n = .hdr p ∧ blkAt s n = some b ∧ b.free = true ∧ flOf b.sz = i ∧
      (s.hdrs p).hbNext = l.head? ∧ (s.hdrs p).hbPrev = a.getLast? := by
  obtain ⟨p,b,hp,hb,hfree,hfl⟩ := h.of_mem_list (n := n) (i := i) (by simp [hl]) (by simp)
  have hlinked := h.lists.linked i
  rw [hl] at hlinked
  refine ⟨p,b,hp,hb,hfree,hfl,?_,?_⟩
  · rw [← nextAt_of_index hp,hlinked.split.2.1]
  · rw [← prevAt_of_index hp,hlinked.split.1]

end Blocks

end GcUtil.Block.JointInvariant
