import GcUtil.Block.UsedBlocks
import GcUtil.Library.Outcome

/-! The invariant of the whole heap and the loops over the free lists of `GC_unmap_old` and
`GC_merge_unmapped`. Each of them returns if its fuel is more than the square of the
number of hblks in the heap. -/
namespace GcUtil.Block.Merging
open Function List
open Basic Headers FreeLists Allocator HeaderTable LinkedLists BlockMap JointInvariant Coalescing Unmapping
open UsedBlocks Library.Outcome Library.DoublyLinked

variable {s s' t : Heap} {n p q i k fuel : Nat} {L L' : Nat → List Nat} {cells : Finset Nat}
variable {a l : List Nat} {b c : Blk}

structure HeapOk (s : Heap) (L : Nat → List Nat) (cells : Finset Nat) : Prop where
  blocks : Blocks s L cells ∅
  large : s.largeFreeBytes = total s
  heapsize : s.heapsize = cells.card * hblkSize
  sects : ∀ n, n ∈ cells ↔ ∃ sect ∈ s.heapSects, sect.Contains (n * hblkSize)
  aligned : ∀ sect ∈ s.heapSects, hblkSize ∣ sect.hsStart ∧ hblkSize ∣ sect.hsBytes
  accounts : Accounts s cells

def Ok (cells : Finset Nat) (s : Heap) : Prop := ∃ L, HeapOk s L cells

structure Idle (s t : Heap) : Prop where
  spares : Spares ∅ s t
  remaps : Remaps s t

theorem Idle.refl (s : Heap) : Idle s s := ⟨Spares.refl s,Remaps.refl s⟩

theorem Idle.trans {u : Heap} (h : Idle s t) (h' : Idle t u) : Idle s u :=
  ⟨h'.spares.after h.spares,h.remaps.trans (fun _ => h.spares.inUse) h'.remaps⟩

structure Rearranged (s t : Heap) : Prop where
  idle : Idle s t
  descends : Descends s t
  counts : counters t = counters s

theorem Rearranged.refl (s : Heap) : Rearranged s s := ⟨Idle.refl s,Descends.refl s,rfl⟩

theorem Rearranged.trans {u : Heap} (h : Rearranged s t) (h' : Rearranged t u) : Rearranged s u :=
  ⟨h.idle.trans h'.idle,h.descends.trans h'.descends,h'.counts.trans h.counts⟩

def Kept (cells : Finset Nat) (s t : Heap) : Prop := Ok cells t ∧ Rearranged s t

theorem kept_refl (h : Ok cells s) : Kept cells s s := ⟨h,Rearranged.refl s⟩

theorem Kept.after {u : Heap} (h' : Kept cells t u) (h : Rearranged s t) : Kept cells s u :=
  ⟨h'.1,h.trans h'.2⟩

def Enough (cells : Finset Nat) (fuel : Nat) : Prop := (cells.card + 1) * (cells.card + 1) ≤ fuel

theorem Enough.card_lt (h : Enough cells fuel) : cells.card < fuel := by
  unfold Enough at h
  have : cells.card + 1 ≤ (cells.card + 1) * (cells.card + 1) := Nat.le_mul_self _
  omega

namespace HeapOk

section

variable (h : HeapOk s L cells)
include h

theorem shift (hB : Blocks s' L' cells ∅) {large : Nat} (hlarge : large = total s')
    (hcount : counters s' = (large, s.heapsize, s.heapSects)) (hacc : Accounts s' cells) :
    HeapOk s' L' cells := by
  simp only [counters,Prod.mk.injEq] at hcount
  refine ⟨hB,?_,?_,?_,?_,hacc⟩
  · rw [hcount.1,hlarge]
  · rw [hcount.2.1,h.heapsize]
  · rw [hcount.2.2]
    exact h.sects
  · rw [hcount.2.2]
    exact h.aligned

theorem keep (hB : Blocks s' L' cells ∅) (htotal : total s' = total s)
    (hcount : counters s' = counters s) (hacc : Accounts s' cells) : HeapOk s' L' cells :=
  h.shift hB (h.large.trans htotal.symm) hcount hacc

theorem head (i : Nat) : s.hblkfreelist i = (L i).head? :=
  (h.blocks.lists.linked i).head_eq

theorem length_le (i : Nat) : (L i).length ≤ cells.card := h.blocks.length_le i

end

end HeapOk

theorem heapOk_init (hdrs : Nat → Hdr) : HeapOk (Heap.init hdrs) (fun _ => []) ∅ where
  blocks := blocks_init hdrs
  large := by simp [Heap.init,total]
  heapsize := by simp [Heap.init]
  sects n := by simp [Heap.init]
  aligned sect h := by simp [Heap.init] at h
  accounts := accounts_init hdrs

section Lists

/-- Going over all lists keeps what going over one of them keeps. -/
theorem returns_forLists {σ : Type} {enough : Prop} {P : σ → Prop} {f : Nat → σ → Option σ}
    (hf : ∀ i x, P x → Returns enough (f i x) P) {x : σ} (hx : P x) : Returns enough (forLists f x) P :=
  returns_foldlM (fun y i hy => hf i y hy) _ x hx

/-- As `returns_forLists`, for what has been established once a list has been gone over. -/
theorem returns_forLists_upTo {σ : Type} {enough : Prop} {P : Nat → σ → Prop} {f : Nat → σ → Option σ}
    (hf : ∀ i x, P i x → Returns enough (f i x) (P (i + 1))) {x : σ} (hx : P 0 x) :
    Returns enough (forLists f x) (P (nHblkFls + 1)) := by
  have hrange : ∀ k, Returns enough ((List.range k).foldlM (fun s i => f i s) x) (P k) := by
    intro k
    induction k with
    | zero => exact hx
    | succ k ih =>
      rw [range_succ,foldlM_append]
      refine Returns.bind ih fun y hy => ?_
      rw [foldlM_cons]
      exact (hf k y hy).bind fun z hz => hz
  exact hrange (nHblkFls + 1)

theorem unmapBlock_ok (h : HeapOk s L cells) (hp : s.index n = .hdr p) (hb : blkAt s n = some b)
    (hfree : b.free = true) (hmapped : (s.hdrs p).isMapped = true) :
    HeapOk (setUnmapped (s.call [.unmap (n * hblkSize) (s.hdrs p).hbSz]) p true) L cells ∧
      Rearranged s (setUnmapped (s.call [.unmap (n * hblkSize) (s.hdrs p).hbSz]) p true) := by
  have hpfree := (isFree_of_blkAt hp hb).trans hfree
  have hB := (h.blocks.call [.unmap (n * hblkSize) (s.hdrs p).hbSz]).setUnmapped hp true
  have hacc := h.accounts.unmap h.blocks.hdrs (h.blocks.layout.start_mem hb) hp hpfree hmapped
  have hblks : blkAt (setUnmapped (s.call [.unmap (n * hblkSize) (s.hdrs p).hbSz]) p true) = blkAt s :=
    hB.2
  refine ⟨h.keep hB.1 rfl rfl hacc,⟨setUnmapped_spares h.blocks.hdrs hp hpfree _ true,_,rfl,?_⟩,
    Descends.of_blks fun m c hc _ => by rwa [hblks] at hc,rfl⟩
  exact forall_mem_singleton.mpr fun x => not_inUse_of_bytes h.blocks hp hb hfree

theorem unmapOldLoop_spec (threshold : Nat) (h : HeapOk s L cells) (hl : L i = a ++ l) :
    Returns (l.length ≤ fuel) (unmapOldLoop threshold fuel l.head? s)
      fun s' => HeapOk s' L cells ∧ Rearranged s s' := by
  induction fuel generalizing s a l with
  | zero =>
    cases l with
    | nil => exact ⟨h,Rearranged.refl s⟩
    | cons n l => simp [unmapOldLoop]
  | succ fuel ih =>
    cases l with
    | nil => exact ⟨h,Rearranged.refl s⟩
    | cons n l =>
      obtain ⟨p,b,hp,hb,hfree,_,hnext,_⟩ := h.blocks.current hl
      have hgo : ∀ {t}, HeapOk t L cells ∧ Rearranged s t → Returns ((n :: l).length ≤ fuel + 1)
          (unmapOldLoop threshold fuel l.head? t) fun s' => HeapOk s' L cells ∧ Rearranged s s' := by
        intro t ht
        refine (ih ht.1 (a := a ++ [n]) (l := l) (by simp [hl])).mono ?_ fun u hu =>
          ⟨hu.1,ht.2.trans hu.2⟩
        simp only [length_cons]
        omega
      simp only [List.head?_cons,unmapOldLoop,hp,hnext]
      split
      · rename_i hcond
        rw [Bool.and_eq_true] at hcond
        exact hgo (unmapBlock_ok h hp hb hfree hcond.1)
      · exact hgo ⟨h,Rearranged.refl s⟩

theorem unmapOld_spec (threshold : Nat) (h : Ok cells s) :
    Returns (Enough cells fuel) (unmapOld fuel threshold s) (Kept cells s) := by
  apply returns_forLists _ (kept_refl h)
  rintro i t ⟨⟨L,ht⟩,hidle⟩
  rw [ht.head]
  refine (unmapOldLoop_spec threshold ht (a := []) rfl).mono (fun henough => ?_) fun t' ht' =>
    Kept.after ⟨⟨L,ht'.1⟩,ht'.2⟩ hidle
  have := ht.length_le i
  have := henough.card_lt
  omega

end Lists

section Merging

def starts (s : Heap) (cells : Finset Nat) : Finset Nat := cells.filter fun n => (blkAt s n).isSome

theorem starts_card_le (s : Heap) (cells : Finset Nat) : (starts s cells).card ≤ cells.card :=
  Finset.card_filter_le _ _

theorem starts_merge {m : Nat} {v : Blk} (hn : (blkAt s n).isSome) (hm : m ∈ starts s cells)
    (hblks : blkAt s' = update (update (blkAt s) n (some v)) m none) :
    (starts s' cells).card + 1 = (starts s cells).card := by
  have herase : starts s' cells = (starts s cells).erase m := by
    ext x
    unfold starts
    rw [Finset.mem_erase,Finset.mem_filter,Finset.mem_filter,hblks,update_apply]
    split
    · rename_i hx
      simp [hx]
    · rename_i hx
      rw [update_apply]
      split
      · rename_i hxn
        simp [hx,hxn ▸ hn]
      · simp [hx]
  rw [herase,Finset.card_erase_add_one hm]

theorem mergeWithNext_ok (h : HeapOk s L cells) (hp : s.index n = .hdr p) (hb : blkAt s n = some b)
    (hbfree : b.free = true) (hq : s.index (n + b.blocks) = .hdr q)
    (hc : blkAt s (n + b.blocks) = some c) (hcfree : c.free = true)
    (hmatch : Matched s t n p (n + b.blocks) q) :
    ∃ s' L', mergeWithNext t n p (flOf b.sz) (n + b.blocks) q = some s' ∧ HeapOk s' L' cells ∧
      Rearranged s s' ∧ s'.index n = .hdr p ∧
      blkAt s' = update (update (blkAt s) n (some { b with sz := b.sz + c.sz }))
        (n + b.blocks) none ∧ (starts s' cells).card + 1 = (starts s cells).card := by
  have hok := h.blocks.layout.blocks hb
  have hpos := hok.blocks_pos
  obtain ⟨s',L',hs',hB,hindex,hblks,htotal,hcount⟩ :=
    mergeWithNext_spec (hmatch.blocks h.blocks) (by rw [hmatch.index,hp]) (by rw [hmatch.blks,hb]) hbfree
      (by rw [hmatch.index,hq]) (by rw [hmatch.blks,hc]) hcfree
  rw [hmatch.blks] at hblks
  have hadj : n * hblkSize + (s.hdrs p).hbSz = (n + b.blocks) * hblkSize := by
    rw [hbSz_of_blkAt hp hb,Nat.add_mul,blocks_mul_of_dvd (hok.whole hbfree)]
  have hlow := h.blocks.layout.low_start hb
  have hacc := h.accounts.merge h.blocks.hdrs (h.blocks.layout.start_mem hb) (h.blocks.layout.start_mem hc)
    hp hq (by omega) (by omega) hadj hmatch hs'
  have hkept := mergeMatched_spares h.blocks.hdrs hp hb hbfree hq hc hcfree (by omega) hmatch hs'
  have hlen := blocks_join (hok.whole hbfree) ((h.blocks.layout.blocks hc).whole hcfree)
  have hremaps : Remaps s s' := by
    obtain ⟨mapped,calls,hcalls,hkeeps,_⟩ := hmatch.keeps
    obtain ⟨hmerge,_⟩ := mergeWithNext_keeps (hkeeps.hdrs h.blocks.hdrs) (by rw [hmatch.index,hp])
      (by rw [hmatch.index,hq]) (by omega) hs'
    exact Remaps.of_steady (hmerge.after (hkeeps.mono (by simp))).steady
      (MergeCalls.vacant h.blocks hp hb hbfree hq hc hcfree hcalls)
  refine ⟨s',L',hs',h.keep hB (htotal.trans hmatch.sums.1) (hcount.trans hmatch.sums.2) hacc,
    ⟨⟨hkept,hremaps⟩,Descends.of_merge hb hbfree hc hcfree hlen hblks,hcount.trans hmatch.sums.2⟩,?_,
    hblks,?_⟩
  · rw [hindex,update_of_ne (by omega),hmatch.index,hp]
  · apply starts_merge (by simp [hb]) _ hblks
    exact Finset.mem_filter.mpr ⟨h.blocks.layout.start_mem hc,by simp [hc]⟩

def Quiescent (s : Heap) (P : Nat → Blk → Prop) : Prop :=
  ∀ n b c, blkAt s n = some b → b.free = true → P n b → blkAt s (n + b.blocks) = some c →
    c.free = true → sizetSignb ≤ b.sz + c.sz

/-- A merge leaves no work on the lists that have been gone over: the merged block is on a
later list, and it is no better a neighbour than the smaller block was. -/
theorem Quiescent.merge {m : Nat} (h : Quiescent s fun _ b => flOf b.sz < i) (hb : blkAt s n = some b)
    (hfree : b.free = true) (hfl : flOf b.sz = i)
    (hblks : blkAt s' = update (update (blkAt s) n (some { b with sz := b.sz + c.sz })) m none) :
    Quiescent s' fun _ b => flOf b.sz < i := by
  have hcases : ∀ {x d}, blkAt s' x = some d →
      blkAt s x = some d ∨ x = n ∧ d = { b with sz := b.sz + c.sz } := by
    intro x d hd
    rw [hblks,update_apply] at hd
    split at hd
    · cases hd
    rw [update_apply] at hd
    split at hd
    · rename_i hx
      cases hd
      exact .inr ⟨hx,rfl⟩
    · exact .inl hd
  intro x d e hd hdfree hdfl he hefree
  have hold : blkAt s x = some d := by
    refine (hcases hd).resolve_right ?_
    rintro ⟨rfl,rfl⟩
    have := flOf_mono (Nat.le_add_right b.sz c.sz)
    dsimp only at hdfl
    omega
  rcases hcases he with hkeep | ⟨hx,rfl⟩
  · exact h x d e hold hdfree hdfl hkeep hefree
  · have := h x d b hold hdfree hdfl (by rw [hx,hb]) hfree
    dsimp only
    omega

section Loop

open HasHeap

variable {σ : Type} [HasHeap σ]

/-- How `fix` and a merge change a state that contains the heap: `R` relates the states, and
`J n e` those where the blocks from `n` to `e` have become one. -/
structure Merger (fix : σ → Nat → Nat → Nat → Nat → σ) (cells : Finset Nat) (R : σ → σ → Prop)
    (J : Nat → Nat → σ → σ → Prop) : Prop where
  refl {x : σ} : Ok cells (heap x) → R x x
  trans {x y z : σ} : R x y → R y z → R x z
  ok {x y : σ} : R x y → Ok cells (heap y)
  join {n m e : Nat} {x y z : σ} : n < m → m ≤ e → J n m x y → J n e y z → J n e x z
  merge {x : σ} {L : Nat → List Nat} {n p q : Nat} {b c : Blk} : HeapOk (heap x) L cells →
    (heap x).index n = .hdr p → blkAt (heap x) n = some b → b.free = true →
    (heap x).index (n + b.blocks) = .hdr q → blkAt (heap x) (n + b.blocks) = some c → c.free = true →
    ∃ s' L', mergeWithNext (heap (fix x n p (n + b.blocks) q)) n p (flOf b.sz) (n + b.blocks) q = some s' ∧
      HeapOk s' L' cells ∧ s'.index n = .hdr p ∧
      blkAt s' = update (update (blkAt (heap x)) n (some { b with sz := b.sz + c.sz })) (n + b.blocks) none ∧
      (starts s' cells).card + 1 = (starts (heap x) cells).card ∧
      R x (put (fix x n p (n + b.blocks) q) s') ∧
      J n (n + b.blocks + c.blocks) x (put (fix x n p (n + b.blocks) q) s')

variable {fix : σ → Nat → Nat → Nat → Nat → σ} {R : σ → σ → Prop} {J : Nat → Nat → σ → σ → Prop} {x : σ}

theorem mergeUnmappedLoop_spec (M : Merger fix cells R J) {merged : Bool} (h : HeapOk (heap x) L cells)
    (hl : L i = a ++ l) : Returns ((starts (heap x) cells).card * (cells.card + 1) + l.length ≤ fuel)
      (mergeUnmappedLoop fix i fuel l.head? merged x) fun r => R x r.2 ∧
        (Quiescent (heap x) (fun n b => flOf b.sz < i ∨ n ∈ a) →
          Quiescent (heap r.2) fun _ b => flOf b.sz < i + 1) := by
  have hnil : ∀ {x L a}, HeapOk (heap x) L cells → L i = a ++ [] → R x x ∧
      (Quiescent (heap x) (fun n b => flOf b.sz < i ∨ n ∈ a) →
        Quiescent (heap x) fun _ b => flOf b.sz < i + 1) := by
    intro x L a h hl
    refine ⟨M.refl ⟨L,h⟩,fun hquiet n b c hb hfree hfl => hquiet n b c hb hfree ?_⟩
    rcases Nat.lt_or_ge (flOf b.sz) i with hlt | hge
    · exact .inl hlt
    · right
      rw [append_nil] at hl
      rw [← hl]
      exact (h.blocks.placed hb (by simp) i).mpr ⟨hfree,by omega⟩
  induction fuel generalizing x L a l merged with
  | zero =>
    cases l with
    | nil => exact hnil h hl
    | cons n l =>
      simp only [List.head?_cons,mergeUnmappedLoop,returns_none,length_cons]
      omega
  | succ fuel ih =>
    cases l with
    | nil => exact hnil h hl
    | cons n l =>
      obtain ⟨p,b,hp,hb,hfree,hfl,hnext,_⟩ := h.blocks.current hl
      have hok := h.blocks.layout.blocks hb
      -- Going on to the next element when `n` cannot be merged.
      have hskip : (∀ c, blkAt (heap x) (n + b.blocks) = some c → c.free = true → sizetSignb ≤ b.sz + c.sz) →
          Returns ((starts (heap x) cells).card * (cells.card + 1) + (n :: l).length ≤ fuel + 1)
          (mergeUnmappedLoop fix i fuel l.head? merged x) fun r => R x r.2 ∧
            (Quiescent (heap x) (fun n b => flOf b.sz < i ∨ n ∈ a) →
              Quiescent (heap r.2) fun _ b => flOf b.sz < i + 1) := by
        intro hlast
        refine (ih h (a := a ++ [n]) (by simp [hl])).mono ?_ fun r hr => ⟨hr.1,fun hquiet => hr.2 ?_⟩
        · simp only [length_cons]
          omega
        · intro y d e hd hdfree hin he hefree
          by_cases hy : y = n
          · subst hy
            rw [hb] at hd
            cases hd
            exact hlast e he hefree
          · refine hquiet y d e hd hdfree ?_ he hefree
            simpa [hy] using hin
      simp only [List.head?_cons,mergeUnmappedLoop,hp,hnext,hbSz_of_blkAt hp hb,
        divHblksz_eq_blocks (hok.whole hfree)]
      rcases h.blocks.layout.behind hb with hnil | ⟨c,hc⟩
      · rw [hnil]
        refine hskip fun c hc => ?_
        obtain ⟨q,hq,_⟩ := blkAt_eq_some.mp hc
        rw [hnil] at hq
        cases hq
      · obtain ⟨q,hq,_⟩ := blkAt_eq_some.mp hc
        rw [hq]
        dsimp only
        split
        · rename_i hcond
          refine hskip fun c' hc' hc'free => ?_
          rw [hc] at hc'
          cases hc'
          rw [Bool.or_eq_true,Bool.not_eq_true',isFree_of_blkAt hq hc,hc'free] at hcond
          have hover := hcond.resolve_left (by decide)
          unfold blocksMergeOverflow at hover
          rwa [decide_eq_true_eq,hbSz_of_blkAt hp hb,hbSz_of_blkAt hq hc] at hover
        · rename_i hcond
          have hcfree : c.free = true := by
            rw [← isFree_of_blkAt hq hc]
            simp only [Bool.or_eq_true,not_or,Bool.not_eq_true'] at hcond
            simpa using hcond.1
          obtain ⟨s2,L2,hs2,hok2,_,hb2,hcard,hR,_⟩ := M.merge h hp hb hfree hq hc hcfree
          rw [hfl] at hs2
          rw [hs2]
          dsimp only
          have hrest := @ih L2 [] (L2 i) (put (fix x n p (n + b.blocks) q) s2) true (by rwa [heap_put]) rfl
          rw [heap_put] at hrest
          rw [hok2.head]
          refine hrest.mono (fun henough => ?_) fun _ hr => ⟨M.trans hR hr.1,fun hquiet => hr.2 ?_⟩
          rotate_left
          · have hbefore : Quiescent (heap x) fun _ b => flOf b.sz < i :=
              fun y d e hd hdfree hdfl => hquiet y d e hd hdfree (.inl hdfl)
            exact fun y d e hd hdfree hin =>
              hbefore.merge hb hfree hfl hb2 y d e hd hdfree (by simpa using hin)
          have hlen := hok2.length_le i
          rw [← hcard,Nat.add_mul,length_cons] at henough
          omega

theorem mergeUnmappedWith_spec (M : Merger fix cells R J) (h : Ok cells (heap x)) :
    Returns (Enough cells fuel) (mergeUnmappedWith fix fuel x)
      fun r => R x r.2 ∧ Quiescent (heap r.2) fun _ _ => True := by
  have hall : Returns (Enough cells fuel) (mergeUnmappedWith fix fuel x)
      fun r => R x r.2 ∧ Quiescent (heap r.2) fun _ b => flOf b.sz < nHblkFls + 1 := by
    refine returns_forLists_upTo (P := fun i (r : Bool × σ) => R x r.2 ∧
      Quiescent (heap r.2) fun _ b => flOf b.sz < i) ?_ ⟨M.refl h,fun _ _ _ _ _ hlt => by omega⟩
    rintro i ⟨merged,y⟩ ⟨hR,hquiet⟩
    obtain ⟨L,hy⟩ := M.ok hR
    dsimp only at hy hquiet ⊢
    rw [hy.head]
    refine (mergeUnmappedLoop_spec M hy (a := []) rfl).mono (fun henough => ?_) fun _ hr =>
      ⟨M.trans hR hr.1,hr.2 fun n b c hb hfree hin => hquiet n b c hb hfree (by simpa using hin)⟩
    have hlen := hy.length_le i
    have hcard := Nat.mul_le_mul_right (cells.card + 1) (starts_card_le (heap y) cells)
    unfold Enough at henough
    rw [Nat.add_mul,Nat.one_mul] at henough
    omega
  refine hall.mono id fun r hr => ⟨hr.1,fun n b c hb hfree _ => hr.2 n b c hb hfree ?_⟩
  exact Nat.lt_succ_of_le (hblkFlFromBlocks_le _)

end Loop

theorem matchSmaller_merger : Merger matchSmaller cells (Kept cells) fun _ _ _ _ => True where
  refl := kept_refl
  trans h h' := h'.after h.2
  ok h := h.1
  join _ _ _ _ := trivial
  merge h hp hb hfree hq hc hcfree := by
    obtain ⟨s',L',hs',hok,hsame,hp',hb',hcard⟩ := mergeWithNext_ok h hp hb hfree hq hc hcfree
      (matchSmaller_matched h.blocks.hdrs hp _ _)
    exact ⟨s',L',hs',hok,hp',hb',hcard,⟨⟨L',hok⟩,hsame⟩,trivial⟩

theorem mergeUnmapped_spec (h : Ok cells s) : Returns (Enough cells fuel) (mergeUnmapped fuel s)
    fun r => Kept cells s r.2 ∧ Quiescent r.2 fun _ _ => True :=
  mergeUnmappedWith_spec matchSmaller_merger h

end Merging

end GcUtil.Block.Merging
