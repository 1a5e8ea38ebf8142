import GcUtil.Block.Searching

/-! Runs of the heap-block allocator from an empty heap. The run of a collection that
`GC_allochblk` starts is part of the operation. -/
namespace GcUtil.Block.Runs
open Function Option Finset
open Basic Headers FreeLists Allocator HeaderTable LinkedLists BlockMap JointInvariant Reserving Unmapping
open UsedBlocks Merging ChainMerging Searching Library.Outcome Library.DoublyLinked

variable {s s' : Heap} {n p i k fuel : Nat} {L : Nat → List Nat} {cells : Finset Nat} {b : Blk}

inductive Op where
  | addToHeap (h n : Nat)
  | allochblk (env : AllocEnv) (req : Request) (collects : Bool) (collection : List Op) (after : AllocEnv)
  | freehblk (h : Nat)
  | mergeUnmapped
  | mergeFreeBlocksForAlloc (sizeNeeded alignM1 : Nat)
  | unmapOld (threshold : Nat)
  | nextGc

mutual

def exec (fuel : Nat) : Op → Heap → Option Heap
  | .addToHeap h n, s => addToHeap s h n
  | .allochblk env req collects collection after, s =>
      (allochblk env fuel req (if collects then some (execAll fuel collection, after) else none) s).map
        Prod.snd
  | .freehblk h, s => freehblk s h
  | .mergeUnmapped, s => (mergeUnmapped fuel s).map Prod.snd
  | .mergeFreeBlocksForAlloc sizeNeeded alignM1, s =>
      (mergeFreeBlocksForAlloc fuel sizeNeeded alignM1 s).map Prod.snd
  | .unmapOld threshold, s => unmapOld fuel threshold s
  | .nextGc, s => some { s with gcNo := s.gcNo + 1 }

def execAll (fuel : Nat) : List Op → Heap → Option Heap
  | [], s => some s
  | op :: ops, s => (exec fuel op s).bind (execAll fuel ops)

end

/-- New memory is new and less than half the address space. -/
def NewMemory (s : Heap) (h n : Nat) : Prop :=
  n * hblkSize < sizetSignb ∧ ∀ sect ∈ s.heapSects,
    (h + n) * hblkSize ≤ sect.hsStart ∨ sect.hsStart + sect.hsBytes ≤ h * hblkSize

instance (s : Heap) (h n : Nat) : Decidable (NewMemory s h n) := inferInstanceAs (Decidable (_ ∧ _))

mutual

/-- What the callers of an operation see to: the heap grows by new memory, `GC_allochblk` gets
what it asserts, and only blocks in use are freed. -/
def Allowed (fuel : Nat) : Op → Heap → Prop
  | .addToHeap h n, s => NewMemory s h n
  | .allochblk env req _ collection _, s => Legal req ∧
      match allochblkBeforeCollect env fuel req s with
      | some (none, t) => AllAllowed fuel collection t
      | _ => True
  | .freehblk h, s => (s.hdrAt h).any fun hhdr => !hhdr.isFree
  | _, _ => True

def AllAllowed (fuel : Nat) : List Op → Heap → Prop
  | [], _ => True
  | op :: ops, s => Allowed fuel op s ∧
      match exec fuel op s with
      | some t => AllAllowed fuel ops t
      | none => True

end

section Decidable

instance (req : Request) : Decidable (Legal req) :=
  decidable_of_iff (0 < req.lbAdjusted ∧ (req.alignM1 = 0 ∨ hblkSize ∣ req.alignM1 + 1))
    ⟨fun h => ⟨h.1, h.2⟩, fun h => ⟨h.pos, h.align⟩⟩

mutual

def decAllowed (fuel : Nat) : (op : Op) → (s : Heap) → Decidable (Allowed fuel op s)
  | .addToHeap h n, s => inferInstanceAs (Decidable (NewMemory s h n))
  | .allochblk env req _ collection _, s =>
      @instDecidableAnd (Legal req) _ _
        (match allochblkBeforeCollect env fuel req s with
        | some (none, t) => decAllAllowed fuel collection t
        | none | some (some _, _) => instDecidableTrue)
  | .freehblk h, s => inferInstanceAs (Decidable ((s.hdrAt h).any (fun hhdr => !hhdr.isFree) = true))
  | .mergeUnmapped, _ | .mergeFreeBlocksForAlloc _ _, _ | .unmapOld _, _ | .nextGc, _ => instDecidableTrue

def decAllAllowed (fuel : Nat) : (ops : List Op) → (s : Heap) → Decidable (AllAllowed fuel ops s)
  | [], _ => instDecidableTrue
  | op :: ops, s =>
      @instDecidableAnd _ _ (decAllowed fuel op s)
        (match exec fuel op s with
        | some t => decAllAllowed fuel ops t
        | none => instDecidableTrue)

end

instance (fuel : Nat) (ops : List Op) (s : Heap) : Decidable (AllAllowed fuel ops s) :=
  decAllAllowed fuel ops s

end Decidable

mutual

def added : Op → Nat
  | .addToHeap _ n => n
  | .allochblk _ _ _ collection _ => addedAll collection
  | _ => 0

def addedAll : List Op → Nat
  | [] => 0
  | op :: ops => added op + addedAll ops

end

section Growing

theorem skipLow_spec (h n : Nat) : h ≤ (skipLow h n).1 ∧ (skipLow h n).1 + (skipLow h n).2 ≤ h + n ∧
    (0 < (skipLow h n).2 → 2 ≤ (skipLow h n).1) := by
  induction n generalizing h with
  | zero => simp [skipLow]
  | succ n ih =>
    rw [skipLow]
    split
    · have := ih (h + 1)
      omega
    · rename_i hhigh
      unfold hblkSize at hhigh
      exact ⟨le_refl _,le_refl _,fun _ => by omega⟩

theorem trimHigh_le (h n : Nat) : trimHigh h n ≤ n := by
  induction n with
  | zero => exact le_refl _
  | succ n ih =>
    rw [trimHigh]
    split
    · omega
    · exact le_refl _

theorem trimHigh_fits (h n : Nat) : trimHigh h n = 0 ∨ (h + trimHigh h n) * hblkSize < wordMax := by
  induction n with
  | zero => exact .inl rfl
  | succ n ih =>
    rw [trimHigh]
    split
    · exact ih
    · right
      rw [Nat.add_mul]
      omega

def keptHblks (h n : Nat) : Nat := trimHigh (skipLow h n).1 (skipLow h n).2

theorem keptHblks_le (h n : Nat) : keptHblks h n ≤ n := by
  obtain ⟨hlo,hhi,_⟩ := skipLow_spec h n
  have htrim := trimHigh_le (skipLow h n).1 (skipLow h n).2
  unfold keptHblks
  omega

def newSects (h n : Nat) : List HeapSect :=
  if keptHblks h n = 0 then [] else [⟨(skipLow h n).1 * hblkSize, keptHblks h n * hblkSize⟩]

/-- The heap of which `GC_add_to_heap` frees the block of `j` new hblks from `m`. -/
def newSection (s : Heap) (m j : Nat) : Heap :=
  Heap.updHdr { (installHeader s m).2 with
    heapSects := (installHeader s m).2.heapSects ++ [⟨m * hblkSize, j * hblkSize⟩] } (newHdr s) fun b =>
      { b with hbBlock := m, hbSz := j * hblkSize, hbFlags := noFlags }

theorem newSection_hdr (s : Heap) (m j : Nat) : (newSection s m j).hdrs (newHdr s) =
    { (installHeader s m).2.hdrs (newHdr s) with hbBlock := m, hbSz := j * hblkSize, hbFlags := noFlags } :=
  updHdr_hdrs_self ..

section NewSection

variable {m j : Nat} (h : HeapOk s L cells) (hout : ∀ x, m ≤ x → x < m + j → x ∉ cells) (hj : 0 < j)
  (hlow : 2 ≤ m)
include hout

theorem card_new : (cells ∪ Finset.Ico m (m + j)).card = cells.card + j := by
  rw [card_union_of_disjoint,Nat.card_Ico,Nat.add_sub_cancel_left]
  rw [disjoint_right]
  intro x hx
  rw [mem_Ico] at hx
  exact hout x hx.1 hx.2

include h

theorem hdrAt_new {x : Nat} (hx : m ≤ x) (hxj : x < m + j) : s.hdrAt x = none := by
  cases hb : blkAt s x with
  | none => exact blkAt_eq_none.mp hb
  | some b => exact absurd (h.blocks.layout.start_mem hb) (hout x hx hxj)

theorem accounts_new (hhigh : (m + j) * hblkSize < wordMax) :
    Accounts s (cells ∪ Finset.Ico m (m + j)) := by
  apply h.accounts.grow subset_union_left
  · intro x hx hxout
    have hin := (mem_union.mp hx).resolve_left hxout
    rw [mem_Ico] at hin
    exact hdrAt_new h hout hin.1 hin.2
  · intro x hx
    rcases mem_union.mp hx with hold | hnew
    · exact h.accounts.high x hold
    · rw [mem_Ico] at hnew
      exact (Nat.mul_le_mul_right _ (by omega)).trans hhigh.le

include hj hlow

theorem newSection_reserved :
    Reserved (newSection s m j) L (cells ∪ Finset.Ico m (m + j)) m (newHdr s) ⟨m, j * hblkSize, true⟩ := by
  have hnone := hdrAt_new h hout (le_refl m) (by omega)
  have hblks := blkAt_installHeader h.blocks.hdrs m
  apply Reserved.updHdr
  refine ⟨?_,?_,?_,?_,?_,?_⟩
  · exact (h.blocks.hdrs.installHeader m).congr (fun _ _ hx => hx) rfl rfl
  · exact (congrFun (installHeader_index s m) m).trans (update_self ..)
  · change Layout (installHeader s m).2.index (update (blkAt (installHeader s m).2) m _) _
    rw [installHeader_index,hblks,update_idem]
    exact h.blocks.layout.extend hj hlow hout (newHdr s)
  · exact (h.blocks.lists.installHeader h.blocks.hdrs hnone).frame_hdrAt rfl rfl fun _ _ _ => rfl
  · intro i hi
    have := h.blocks.lists.isBlock hi
    simp [hnone] at this
  · intro x c hc hx
    change blkAt (installHeader s m).2 x = some c at hc
    rw [hblks,update_of_ne hx] at hc
    exact h.blocks.placed hc (by simp)

theorem newSection_nil {x : Nat} (hx : m < x) (hxj : x < m + objSzToBlocks (j * hblkSize)) :
    (newSection s m j).index x = .nil := by
  have hnil := (newSection_reserved h hout hj hlow).layout.fill_nil (update_self ..) rfl
    (show 0 < x - m by omega) (show x - m < objSzToBlocks (j * hblkSize) by omega)
  rwa [Nat.add_sub_cancel' hx.le] at hnil

theorem removeCounts_newSection : Reserved (removeCounts (newSection s m j).invalidateHdrCache m (j * hblkSize)) L
    (cells ∪ Finset.Ico m (m + j)) m (newHdr s) ⟨m, j * hblkSize, true⟩ := by
  have hres := newSection_reserved h hout hj hlow
  have hindex : (fun x => if m < x ∧ x ≤ m + (objSzToBlocks (j * hblkSize) - 1) then .nil
      else (newSection s m j).index x) = (newSection s m j).index := by
    funext x
    split
    · exact (newSection_nil h hout hj hlow (by omega) (by omega)).symm
    · rfl
  rw [removeCounts_eq (newSection s m j).invalidateHdrCache _ _ fun _ i hi hlt =>
    newSection_nil h hout hj hlow (by omega) (by omega)]
  refine hres.reindex rfl rfl rfl rfl rfl (fun x => .inl (congrFun hindex x)) ?_
  change Layout (fun x => if m < x ∧ x ≤ m + (objSzToBlocks (j * hblkSize) - 1) then .nil
    else (newSection s m j).index x) _ _
  rw [hindex]
  exact hres.layout

theorem freehblk_newSection (hfits : j * hblkSize < sizetSignb) :
    ∃ t L', freehblk (newSection s m j) m = some t ∧ Blocks t L' (cells ∪ Finset.Ico m (m + j)) ∅ ∧
      total t = total s + j * hblkSize ∧ counters t =
        (s.largeFreeBytes + j * hblkSize, s.heapsize, s.heapSects ++ [⟨m * hblkSize, j * hblkSize⟩]) := by
  have hhdr := newSection_hdr s m j
  have hsize : j * hblkSize = hblkSize * objSzToBlocks ((newSection s m j).hdrs (newHdr s)).hbSz := by
    rw [hhdr]
    change _ = hblkSize * objSzToBlocks (j * hblkSize)
    rw [objSzToBlocks_mul,Nat.mul_comm]
  obtain ⟨t,L',ht,hB,htotal,hcount⟩ := freehblk_of_reserved (j * hblkSize)
    (fun _ i hi hlt => newSection_nil h hout hj hlow (by omega) (by omega))
    (newSection_reserved h hout hj hlow).header (removeCounts_newSection h hout hj hlow) hsize hfits
    (by rw [hhdr]) (by rw [hhdr]; rfl)
  obtain ⟨hsame,hcounters⟩ := installHeader_total s m
  have hsame : total (newSection s m j) = total s := hsame
  simp only [counters,Prod.mk.injEq] at hcounters
  refine ⟨t,L',ht,hB,by rw [htotal,hsame],hcount.trans ?_⟩
  rw [← hcounters.1,← hcounters.2.1,← hcounters.2.2]
  rfl

theorem freehblk_newSection_keeps (ht : freehblk (newSection s m j) m = some t) : Keeps ∅ [] s t := by
  have hhdr := newSection_hdr s m j
  have hres := newSection_reserved h hout hj hlow
  have hinst := Keeps.installHeader h.blocks.hdrs m
  have hsect : Keeps {m} [] (installHeader s m).2 { (installHeader s m).2 with
      heapSects := (installHeader s m).2.heapSects ++ [⟨m * hblkSize, j * hblkSize⟩] } :=
    Keeps.congr rfl rfl rfl rfl rfl rfl
  have hset := Keeps.updHdr (hsect.hdrs (hinst.hdrs h.blocks.hdrs)) hres.header fun b =>
    { b with hbBlock := m, hbSz := j * hblkSize, hbFlags := noFlags }
  obtain ⟨hfreed,hseen⟩ := freehblk_keeps hres.hdrs hres.header (by omega) (by rw [hhdr]; rfl)
    (by rw [hhdr]; exact Nat.mul_pos hj (by decide)) (fun x hx hlt => by
      rw [hhdr] at hlt
      rw [hdrAt_eq_none,newSection_nil h hout hj hlow hx hlt]
      simp) ht
  apply (hfreed.after (hset.after (hsect.after hinst))).settle_self
  rw [hseen,seenAt_of_none (hdrAt_new h hout (le_refl m) (by omega))]

end NewSection

theorem heapOk_grown {m j : Nat} (h : HeapOk s L cells) (hout : ∀ x, m ≤ x → x < m + j → x ∉ cells)
    {L' : Nat → List Nat} (hB : Blocks t L' (cells ∪ Finset.Ico m (m + j)) ∅)
    (htotal : total t = total s + j * hblkSize) (hcount : counters t =
      (s.largeFreeBytes + j * hblkSize, s.heapsize, s.heapSects ++ [⟨m * hblkSize, j * hblkSize⟩]))
    (hacc : Accounts t (cells ∪ Finset.Ico m (m + j))) :
    HeapOk { t with heapsize := t.heapsize + j * hblkSize } L' (cells ∪ Finset.Ico m (m + j)) := by
  simp only [counters,Prod.mk.injEq] at hcount
  have hsize : Keeps ∅ [] t { t with heapsize := t.heapsize + j * hblkSize } :=
    Keeps.congr rfl rfl rfl rfl rfl rfl
  refine ⟨hB.congr rfl rfl rfl rfl rfl rfl,?_,?_,?_,?_,hacc.steady hsize.steady⟩
  · change t.largeFreeBytes = total t
    rw [hcount.1,htotal,h.large]
  · change t.heapsize + j * hblkSize = _
    rw [hcount.2.1,card_new hout,Nat.add_mul,h.heapsize]
  · intro x
    change _ ↔ ∃ sect ∈ t.heapSects, _
    rw [hcount.2.2,mem_union,h.sects,mem_Ico]
    have hnew : HeapSect.Contains ⟨m * hblkSize,j * hblkSize⟩ (x * hblkSize) ↔ m ≤ x ∧ x < m + j := by
      change m * hblkSize ≤ x * hblkSize ∧ x * hblkSize < m * hblkSize + j * hblkSize ↔ _
      unfold hblkSize
      omega
    simp only [List.mem_append,List.mem_singleton,or_and_right,exists_or,exists_eq_left,hnew]
  · intro sect hsect
    change sect ∈ t.heapSects at hsect
    rw [hcount.2.2,List.mem_append,List.mem_singleton] at hsect
    rcases hsect with hold | rfl
    · exact h.aligned sect hold
    · exact ⟨Nat.dvd_mul_left _ _,Nat.dvd_mul_left _ _⟩

theorem addToHeap_spec (h : Ok cells s) (hfits : k * hblkSize < sizetSignb)
    (hfresh : ∀ sect ∈ s.heapSects,
      (n + k) * hblkSize ≤ sect.hsStart ∨ sect.hsStart + sect.hsBytes ≤ n * hblkSize) :
    ∃ s' cells', addToHeap s n k = some s' ∧ Ok cells' s' ∧ cells'.card = cells.card + keptHblks n k ∧
      Idle s s' ∧ s'.heapSects = s.heapSects ++ newSects n k ∧ unmappedAt s' = unmappedAt s := by
  obtain ⟨L,h⟩ := h
  obtain ⟨hlo,hhi,hlow⟩ := skipLow_spec n k
  have htrim := trimHigh_le (skipLow n k).1 (skipLow n k).2
  have hhigh := trimHigh_fits (skipLow n k).1 (skipLow n k).2
  unfold addToHeap newSects keptHblks
  dsimp only
  generalize (skipLow n k).1 = m at *
  generalize trimHigh m (skipLow n k).2 = j at *
  generalize (skipLow n k).2 = rest at *
  split
  · rename_i hj
    exact ⟨s,cells,rfl,⟨L,h⟩,by omega,Idle.refl s,(List.append_nil _).symm,rfl⟩
  · rename_i hj
    have hout : ∀ x, m ≤ x → x < m + j → x ∉ cells := by
      intro x hx hxj hmem
      obtain ⟨sect,hsect,hin⟩ := (h.sects x).mp hmem
      have hx1 : n * hblkSize ≤ x * hblkSize := Nat.mul_le_mul_right _ (by omega)
      have hx2 : x * hblkSize < (n + k) * hblkSize := Nat.mul_lt_mul_of_pos_right (by omega) (by decide)
      unfold HeapSect.Contains at hin
      have := hfresh sect hsect
      omega
    have hmul : j * hblkSize ≤ k * hblkSize := Nat.mul_le_mul_right _ (by omega)
    obtain ⟨t,L',ht,hB,htotal,hcount⟩ := freehblk_newSection h hout (by omega) (hlow (by omega)) (by omega)
    have hkeeps := freehblk_newSection_keeps h hout (by omega) (hlow (by omega)) ht
    have hacc := (accounts_new h hout (hhigh.resolve_left hj)).steady hkeeps.steady
    have hsize : Keeps ∅ [] t { t with heapsize := t.heapsize + j * hblkSize } :=
      Keeps.congr rfl rfl rfl rfl rfl rfl
    have hall := hsize.after hkeeps
    refine ⟨{ t with heapsize := t.heapsize + j * hblkSize },cells ∪ Finset.Ico m (m + j),?_,
      ⟨L',heapOk_grown h hout hB htotal hcount hacc⟩,card_new hout,
      ⟨spares_of_silent hall,Remaps.of_silent hall.steady⟩,congrArg (·.2.2) hcount,hall.steady.unmappedAt_eq⟩
    simp only [installHeader_fst]
    change (freehblk (newSection s m j) m).bind _ = _
    rw [ht,bind_some]

end Growing

theorem freehblk_ok (h : Ok cells s) (hused : ((s.hdrAt n).any fun hhdr => !hhdr.isFree) = true) :
    ∃ s', freehblk s n = some s' ∧ Ok cells s' ∧ Spares {n} s s' ∧ usedAt s' n = none ∧ Remaps s s' ∧
      s'.heapSects = s.heapSects ∧ unmappedAt s' = unmappedAt s := by
  obtain ⟨L,h⟩ := h
  obtain ⟨hhdr,hn,hused⟩ := any_eq_true _ _ |>.mp hused
  rw [Bool.not_eq_true'] at hused
  obtain ⟨s',L',hs',hB,htotal,hcount⟩ := freehblk_spec h.blocks (n := n) (b := blk hhdr)
    (by simp [blkAt,hn]) hused
  obtain ⟨p,hp,rfl⟩ := hdrAt_eq_some.mp hn
  have hlarge := h.large
  have hb := blkAt_of_index hp
  have hlow := h.blocks.layout.low_start hb
  have hpos := (h.blocks.layout.blocks hb).pos
  have hin : ∀ x, n < x → x < n + objSzToBlocks (s.hdrs p).hbSz → s.hdrAt x = none := by
    intro x hx hlt
    have := h.blocks.layout.interior_none hb (i := x - n) (by omega)
      (by change x - n < objSzToBlocks (s.hdrs p).hbSz; omega)
    rw [Nat.add_sub_cancel' (by omega)] at this
    exact blkAt_eq_none.mp this
  have hmapped := h.accounts.isMapped hp hused
  obtain ⟨hkeeps,hseen⟩ := freehblk_keeps h.blocks.hdrs hp (by omega) hmapped hpos hin hs'
  have hsteady : Steady ∅ [] s s' := by
    refine hkeeps.steady_of fun x hx _ => ?_
    rw [mem_singleton.mp hx,SameAt,unmappedAt_of_index hp,hmapped]
    exact .inr ⟨rfl,unmappedAt_of_seenAt hseen⟩
  exact ⟨s',hs',⟨L',h.shift hB (by omega) hcount (h.accounts.steady hsteady)⟩,
    spares_of_keeps hkeeps (by simp),usedAt_of_seenAt hseen,
    Remaps.of_silent hsteady,congrArg (·.2.2) hcount,hsteady.unmappedAt_eq⟩

theorem nextGc_ok (h : Ok cells s) : Kept cells s { s with gcNo := s.gcNo + 1 } := by
  obtain ⟨L,h⟩ := h
  have hkeeps : Keeps ∅ [] s { s with gcNo := s.gcNo + 1 } := Keeps.congr rfl rfl rfl rfl rfl rfl
  exact ⟨⟨L,h.keep (h.blocks.congr rfl rfl rfl rfl rfl rfl) rfl rfl (h.accounts.steady hkeeps.steady)⟩,
    ⟨spares_of_silent hkeeps,Remaps.of_silent hkeeps.steady⟩,Descends.of_blks fun _ _ hb _ => hb,rfl⟩

section Steps

def Suffices (m fuel : Nat) : Prop := (m + 1) * (m + 1) ≤ fuel

theorem Suffices.enough {m : Nat} (h : Suffices m fuel) (hle : cells.card ≤ m) : Enough cells fuel := by
  have := Nat.mul_le_mul (Nat.add_le_add_right hle 1) (Nat.add_le_add_right hle 1)
  exact this.trans h

/-- The invariant `I` holds on some `m` hblks more. -/
def Grown {σ : Type} (I : Finset Nat → σ → Prop) (cells : Finset Nat) (m : Nat) (s : σ) : Prop :=
  ∃ cells', I cells' s ∧ cells'.card ≤ cells.card + m

theorem returns_grown_bind {σ : Type} {I : Finset Nat → σ → Prop} {r : Option σ} {f : σ → Option σ} {m m' : Nat}
    (h : Returns (Suffices (cells.card + m) fuel) r (Grown I cells m))
    (hf : ∀ t cells', r = some t → I cells' t →
      Returns (Suffices (cells'.card + m') fuel) (f t) (Grown I cells' m')) :
    Returns (Suffices (cells.card + (m + m')) fuel) (r.bind f) (Grown I cells (m + m')) := by
  cases r with
  | none => exact fun hs => h ((Nat.mul_le_mul (by omega) (by omega)).trans hs)
  | some t =>
    obtain ⟨cells',ht,hcard⟩ := h
    refine (hf t cells' rfl ht).mono (fun hs => (Nat.mul_le_mul (by omega) (by omega)).trans hs) ?_
    rintro u ⟨cells'',hu,hcard'⟩
    exact ⟨cells'',hu,by omega⟩

theorem grown_of_ok {m : Nat} (h : Ok cells s) : Grown Ok cells m s := ⟨cells,h,by omega⟩

theorem returns_grown {α : Type} {r : Option α} {f : α → Heap} {m : Nat}
    (h : Returns (Enough cells fuel) r fun x => Ok cells (f x)) :
    Returns (Suffices (cells.card + m) fuel) (r.map f) (Grown Ok cells m) :=
  (h.mono (fun hs => hs.enough (by omega)) fun _ => id).map fun _ hx => grown_of_ok hx

theorem allochblk_spec {env : AllocEnv} {req : Request} {m : Nat} (hlegal : Legal req)
    (h : Ok cells s) {collect : Option ((Heap → Option Heap) × AllocEnv)}
    (hcollect : ∀ f env', collect = some (f, env') → ∀ t, Ok cells t →
      allochblkBeforeCollect env fuel req s = some (none, t) →
      Returns (Suffices (cells.card + m) fuel) (f t) (Grown Ok cells m)) :
    Returns (Suffices (cells.card + m) fuel) (allochblk env fuel req collect s)
      fun r => Grown Ok cells m r.2 := by
  unfold allochblk Search.allochblk
  split
  · exact grown_of_ok h
  · rename_i hno
    have hfits := sizeNeeded_lt (by simpa using hno)
    refine ((allochblkBeforeCollect_spec env fuel hlegal.sound hfits h).mono (fun hs => hs.enough (by omega))
      fun _ => id).orTry (fun _ _ ht => grown_of_ok ht.1) fun t heq ht => ?_
    split
    · exact grown_of_ok ht.1
    · rename_i f env'
      refine (hcollect f env' rfl t ht.1 heq).bind fun u hu => ?_
      obtain ⟨cells',hok,hcard⟩ := hu
      exact (allochblkFromFreeLists_spec env' fuel hlegal.sound hfits _ hok).mono (fun hs => hs.enough hcard)
        fun r hr => ⟨cells',hr.1,hcard⟩

mutual

theorem exec_spec (fuel : Nat) (op : Op) (s : Heap) (cells : Finset Nat) (h : Ok cells s)
    (hallowed : Allowed fuel op s) :
    Returns (Suffices (cells.card + added op) fuel) (exec fuel op s) (Grown Ok cells (added op)) := by
  cases op with
  | addToHeap a n =>
    rw [Allowed] at hallowed
    obtain ⟨s',cells',hs',hok,hcard,_⟩ := addToHeap_spec h hallowed.1 hallowed.2
    have hkept := keptHblks_le a n
    rw [exec,hs']
    exact ⟨cells',hok,by rw [hcard,added]; omega⟩
  | allochblk env req collects collection after =>
    rw [Allowed] at hallowed
    rw [exec]
    apply (allochblk_spec hallowed.1 h _).map fun r hr => hr
    intro f env' hf t ht hbefore
    have hall := hallowed.2
    rw [hbefore] at hall
    split at hf
    · cases hf
      exact execAll_spec fuel collection t cells ht hall
    · cases hf
  | freehblk a =>
    rw [Allowed] at hallowed
    obtain ⟨s',hs',hok,_⟩ := freehblk_ok h hallowed
    rw [exec,hs']
    exact grown_of_ok hok
  | mergeUnmapped =>
    rw [exec]
    exact returns_grown ((mergeUnmapped_spec h).mono id fun _ hr => hr.1.1)
  | mergeFreeBlocksForAlloc sizeNeeded alignM1 =>
    rw [exec]
    exact returns_grown ((mergeFreeBlocksWith_spec matchUnmapped_merger fuel sizeNeeded alignM1 h).mono id fun _ hr => hr.1)
  | unmapOld threshold =>
    rw [exec]
    exact (unmapOld_spec threshold h).mono (fun hs => hs.enough (by omega)) fun _ hr => grown_of_ok hr.1
  | nextGc =>
    rw [exec]
    exact grown_of_ok (nextGc_ok h).1

theorem execAll_spec (fuel : Nat) (ops : List Op) (s : Heap) (cells : Finset Nat) (h : Ok cells s)
    (hallowed : AllAllowed fuel ops s) :
    Returns (Suffices (cells.card + addedAll ops) fuel) (execAll fuel ops s)
      (Grown Ok cells (addedAll ops)) := by
  cases ops with
  | nil =>
    rw [execAll]
    exact grown_of_ok h
  | cons op ops =>
    rw [AllAllowed] at hallowed
    rw [execAll,addedAll]
    refine returns_grown_bind (exec_spec fuel op s cells h hallowed.1) fun t cells' ht hok => ?_
    have hrest := hallowed.2
    rw [ht] at hrest
    exact execAll_spec fuel ops t cells' hok hrest

end

end Steps

section Invariant

def blockBytes (hhdr : Hdr) : Nat := objSzToBlocks hhdr.hbSz * hblkSize

def InBlock (s : Heap) (h addr : Nat) : Prop :=
  ∃ hhdr, s.hdrAt h = some hhdr ∧ h * hblkSize ≤ addr ∧ addr < h * hblkSize + blockBytes hhdr

/-- The free lists hold `L`: each is doubly linked without a cycle, has the free blocks
of its sizes and no others, and its bytes are counted. -/
structure FreeListsHold (s : Heap) (L : Nat → List Nat) : Prop where
  linked : ∀ i, Linked (nextAt s) (prevAt s) (s.hblkfreelist i) (L i)
  inverse : ∀ i, ∀ h ∈ L i, ∀ h' ∈ L i, nextAt s h = some h' ↔ prevAt s h' = some h
  members : ∀ i h, h ∈ L i ↔
    ∃ hhdr, s.hdrAt h = some hhdr ∧ hhdr.isFree = true ∧ hblkFlFromBlocks (divHblksz hhdr.hbSz) = i
  bytes : ∀ i, s.freeBytes i = ((L i).map (szAt s)).sum

structure HeapInvariant (s : Heap) : Prop where
  tiled : ∀ addr, (∃ sect ∈ s.heapSects, sect.Contains addr) ↔ ∃ h, InBlock s h addr
  apart : ∀ h h' addr, InBlock s h addr → InBlock s h' addr → h = h'
  freeLists : ∃ L, FreeListsHold s L
  largeFreeBytes : s.largeFreeBytes = ∑ i ∈ Finset.range (nHblkFls + 1), s.freeBytes i
  heapsize : ∃ blocks : Finset Nat, (∀ h, h ∈ blocks ↔ (s.hdrAt h).isSome) ∧
    s.heapsize = ∑ h ∈ blocks, (s.hdrAt h).elim 0 blockBytes

theorem inBlock_iff {h addr : Nat} : InBlock s h addr ↔
    ∃ b, blkAt s h = some b ∧ h ≤ addr / hblkSize ∧ addr / hblkSize < h + b.blocks := by
  have harith : ∀ sz, (h * hblkSize ≤ addr ∧ addr < h * hblkSize + objSzToBlocks sz * hblkSize) ↔
      (h ≤ addr / hblkSize ∧ addr / hblkSize < h + objSzToBlocks sz) := by
    intro sz
    unfold hblkSize
    omega
  constructor
  · rintro ⟨hhdr,hh,hin⟩
    exact ⟨blk hhdr,by simp [blkAt,hh],(harith hhdr.hbSz).mp hin⟩
  · rintro ⟨b,hb,hin⟩
    obtain ⟨hhdr,hh,rfl⟩ := map_eq_some_iff.mp hb
    exact ⟨hhdr,hh,(harith hhdr.hbSz).mpr hin⟩

theorem HeapOk.mem_sect_iff (h : HeapOk s L cells) (addr : Nat) :
    (∃ sect ∈ s.heapSects, sect.Contains addr) ↔ addr / hblkSize ∈ cells := by
  rw [h.sects]
  apply exists_congr
  intro sect
  apply and_congr_right
  intro hsect
  obtain ⟨⟨c,hc⟩,⟨d,hd⟩⟩ := h.aligned sect hsect
  unfold HeapSect.Contains
  rw [hc,hd]
  unfold hblkSize
  omega

theorem HeapOk.freeListsHold (h : HeapOk s L cells) : FreeListsHold s L where
  linked := h.blocks.lists.linked
  inverse i x hx y hy := (h.blocks.lists.linked i).next_iff_prev hx hy
  members i x := by
    constructor
    · intro hx
      obtain ⟨p,b,hp,hb,hfree,hfl⟩ := h.blocks.of_mem_list hx (by simp)
      refine ⟨s.hdrs p,hdrAt_of_index hp,?_,?_⟩
      · rw [isFree_of_blkAt hp hb,hfree]
      · rw [hbSz_of_blkAt hp hb]
        exact hfl
    · rintro ⟨hhdr,hh,hfree,hfl⟩
      have hb : blkAt s x = some (blk hhdr) := by simp [blkAt,hh]
      exact (h.blocks.placed hb (by simp) i).mpr ⟨hfree,hfl⟩
  bytes := h.blocks.lists.bytes

theorem HeapOk.heapInvariant (h : HeapOk s L cells) : HeapInvariant s where
  tiled addr := by
    rw [HeapOk.mem_sect_iff h,h.blocks.layout.tiles.covers]
    simp only [inBlock_iff,map_eq_some_iff]
    constructor
    · rintro ⟨m,k,⟨b,hb,rfl⟩,hin⟩
      exact ⟨m,b,hb,hin⟩
    · rintro ⟨m,b,hb,hin⟩
      exact ⟨m,b.blocks,⟨b,hb,rfl⟩,hin⟩
  apart x y addr hx hy := by
    obtain ⟨b,hb,hbin⟩ := inBlock_iff.mp hx
    obtain ⟨c,hc,hcin⟩ := inBlock_iff.mp hy
    exact h.blocks.layout.tiles.unique (Layout.len_eq hb) (Layout.len_eq hc) hbin hcin
  freeLists := ⟨L,HeapOk.freeListsHold h⟩
  largeFreeBytes := h.large
  heapsize := by
    refine ⟨starts s cells,fun x => ?_,?_⟩
    · unfold starts
      rw [mem_filter]
      constructor
      · rintro ⟨_,hx⟩
        simpa [blkAt] using hx
      · intro hx
        obtain ⟨hhdr,hh⟩ := isSome_iff_exists.mp hx
        have hb : blkAt s x = some (blk hhdr) := by simp [blkAt,hh]
        exact ⟨h.blocks.layout.start_mem hb,by simp [hb]⟩
    · rw [h.heapsize,← h.blocks.layout.tiles.sum_len,sum_mul]
      unfold starts
      rw [sum_filter]
      apply sum_congr rfl
      intro x _
      unfold blkAt
      cases s.hdrAt x with
      | none => simp
      | some hhdr =>
        simp only [map_some,getD_some,isSome_some,if_true,elim_some]
        rfl

/-- Every run from an empty heap keeps the invariant, and it returns when the fuel
covers the square of the hblks that it adds. -/
theorem execAll_heapInvariant (hdrs : Nat → Hdr) (fuel : Nat) (ops : List Op)
    (hallowed : AllAllowed fuel ops (Heap.init hdrs)) :
    (∀ s, execAll fuel ops (Heap.init hdrs) = some s → HeapInvariant s) ∧
      ((addedAll ops + 1) ^ 2 ≤ fuel → ∃ s, execAll fuel ops (Heap.init hdrs) = some s) := by
  have hrun := execAll_spec fuel ops (Heap.init hdrs) ∅ ⟨_,heapOk_init hdrs⟩ hallowed
  rw [card_empty,Nat.zero_add] at hrun
  constructor
  · intro s hs
    obtain ⟨cells,⟨L,hok⟩,_⟩ := hrun.of_eq hs
    exact HeapOk.heapInvariant hok
  · intro hfuel
    obtain ⟨s,hs,_⟩ := hrun.some_of (by rwa [Suffices,← Nat.pow_two])
    exact ⟨s,hs⟩

def quietEnv : AllocEnv where
  kinds _ := ⟨0, false, false, false⟩
  blackLists := ⟨64, true, fun _ => false, fun _ => false, fun _ => false, fun _ => false⟩
  blackListSpacing := 0
  findLeakInner := false
  useEntireHeap := true
  dontGc := false
  incremental := false
  shouldCollect := false
  requestedHeapsize := 0
  finalizerBytesFreed := 0
  largeAllocdBytes := 0
  maxLargeAllocdBytes := 0

/-- Two blocks are allocated, the rest is unmapped, one block is freed and the heap grows. -/
def smallRun : List Op := [
  .addToHeap 16 8,
  .allochblk quietEnv ⟨8192, normal, false, 0⟩ false [] quietEnv,
  .allochblk quietEnv ⟨16, normal, false, 0⟩ false [] quietEnv,
  .nextGc,
  .unmapOld 1,
  .freehblk 16,
  .addToHeap 24 4,
  .mergeUnmapped]

theorem execAll_heapInvariant_smallRun : AllAllowed 200 smallRun blankHeap ∧
    ∃ s, execAll 200 smallRun blankHeap = some s ∧ HeapInvariant s := by
  have hallowed : AllAllowed 200 smallRun blankHeap := by decide +kernel
  have hrun := execAll_heapInvariant (fun _ => blankHdr) 200 smallRun hallowed
  obtain ⟨s,hs⟩ := hrun.2 (by decide)
  exact ⟨hallowed,s,hs,hrun.1 s hs⟩

end Invariant

end GcUtil.Block.Runs
