import GcUtil.Block.Runs
import GcUtil.Mark.Pointers

/-! The index as a map from hblks to blocks: where the forwarding counts lead in every
state that runs of the allocator and resizing by `GC_realloc` reach, and the marker's lookup there. -/
namespace GcUtil.Block.IndexLookup
open Function
open Basic Headers Allocator HeaderTable BlockMap JointInvariant Unmapping Merging Runs Library.Outcome

variable {s s' : Heap} {n p i fuel : Nat} {L : Nat → List Nat} {cells : Finset Nat} {b : Blk}

section Resizing

/-- How `GC_realloc` resizes a large object: it gets the rest of its last hblk. -/
def roundUpHdr (env : AllocEnv) (b : Hdr) : Hdr :=
  if maxObjBytes < b.hbSz then
    let ok := env.kinds b.hbObjKind
    let sz := objSzToBlocks b.hbSz * hblkSize
    let extra := if env.blackLists.allInteriorPointers && b.hbFlags.ignoreOffPage &&
      b.hbObjKind == normal then 8 else 0
    { b with
      hbSz := sz
      hbDescr := (ok.okDescriptor + extra + if ok.okRelocateDescr then sz else 0) % 2 ^ 64 }
  else b

/-- What `GC_realloc` does to the header of the object at hblk `h`. -/
def reallocHeader (env : AllocEnv) (s : Heap) (h : Nat) : Option Heap := s.updAt h (roundUpHdr env)

theorem roundUpHdr_blk (env : AllocEnv) (b : Hdr) :
    ∃ sz, objSzToBlocks sz = objSzToBlocks b.hbSz ∧ blk (roundUpHdr env b) = { blk b with sz := sz } ∧
      (roundUpHdr env b).isMapped = b.isMapped := by
  unfold roundUpHdr
  split
  · exact ⟨_,objSzToBlocks_mul _,rfl,rfl⟩
  · exact ⟨_,rfl,rfl,rfl⟩

theorem layout_resize {index : Nat → Entry} {blks : Nat → Option Blk} (h : Layout index blks cells)
    (hb : blks n = some b) {sz : Nat} (hsz : objSzToBlocks sz = b.blocks) (hused : b.free = false) :
    Layout index (update blks n (some { b with sz := sz })) cells where
  tiles := by
    have hlen : (some { b with sz := sz }).map Blk.blocks = (blks n).map Blk.blocks := by
      rw [hb]
      exact congrArg some hsz
    rw [Layout.update_len,hlen,update_eq_self n fun m => (blks m).map Blk.blocks]
    exact h.tiles
  blocks := by
    intro m c hc
    rw [update_apply] at hc
    split at hc
    · rename_i hm
      cases hc
      subst hm
      have hok := h.blocks hb
      have hpos := hok.blocks_pos
      refine ⟨hok.self,?_,fun hfree => ?_,fun _ => ?_,?_⟩
      · rcases Nat.eq_zero_or_pos sz with rfl | hsome
        · rw [← hsz] at hpos
          exact absurd hpos (by decide)
        · exact hsome
      · exact absurd (hused.symm.trans hfree) (by decide)
      · change objSzToBlocks sz * hblkSize < sizetSignb
        rw [hsz]
        exact hok.fits hused
      · intro i hi hlt
        change i < objSzToBlocks sz at hlt
        rw [hsz] at hlt
        exact hok.fill i hi hlt
    · exact h.blocks hc
  outside := h.outside
  low := h.low

theorem reallocHeader_ok (env : AllocEnv) (h : Ok cells s) (hn : (s.hdrAt n).any fun hhdr => !hhdr.isFree) :
    ∃ s', reallocHeader env s n = some s' ∧ Ok cells s' := by
  obtain ⟨L,h⟩ := h
  obtain ⟨hhdr,hh,hused⟩ := Option.any_eq_true _ _ |>.mp hn
  rw [Bool.not_eq_true'] at hused
  obtain ⟨p,hp,rfl⟩ := hdrAt_eq_some.mp hh
  have hb := blkAt_of_index hp
  have hnot := h.blocks.not_mem_list hb (by simp) hused
  unfold reallocHeader Heap.updAt
  rw [hp]
  refine ⟨_,rfl,L,?_⟩
  obtain ⟨sz,hsz,hblk,hmapped⟩ := roundUpHdr_blk env (s.hdrs p)
  have hblks : blkAt (s.updHdr p (roundUpHdr env)) = update (blkAt s) n (some { blk (s.hdrs p) with sz := sz }) := by
    rw [blkAt_updHdr h.blocks.hdrs hp,hblk]
  have hold := h.accounts.isMapped hp hused
  apply h.keep
  · refine ⟨h.blocks.hdrs.updHdr p _,?_,h.blocks.lists.updHdr_off h.blocks.hdrs hp hnot _,?_⟩
    · rw [hblks]
      exact layout_resize h.blocks.layout hb hsz hused
    · intro m c hc hm j
      rw [hblks,update_apply] at hc
      split at hc
      · rename_i hmn
        cases hc
        have hfalse : (blk (s.hdrs p)).free = false := hused
        simp [hmn,hnot j,hfalse]
      · exact h.blocks.placed hc (by simp) j
  · rfl
  · rfl
  · exact h.accounts.steady
      (Keeps.updHdr_mapped h.blocks.hdrs hp hold (hmapped.trans hold))

end Resizing

section Runs

inductive HeapOp where
  | block (op : Op)
  | realloc (env : AllocEnv) (h : Nat)

def heapStep (fuel : Nat) (s : Heap) : HeapOp → Option Heap
  | .block op => exec fuel op s
  | .realloc env h => reallocHeader env s h

def heapRun (fuel : Nat) : List HeapOp → Heap → Option Heap
  | [], s => some s
  | op :: ops, s => (heapStep fuel s op).bind (heapRun fuel ops)

/-- `GC_realloc` gets an object, which is in a block in use. -/
def StepAllowed (fuel : Nat) (s : Heap) : HeapOp → Prop
  | .block op => Allowed fuel op s
  | .realloc _ h => (s.hdrAt h).any fun hhdr => !hhdr.isFree

def RunAllowed (fuel : Nat) : List HeapOp → Heap → Prop
  | [], _ => True
  | op :: ops, s => StepAllowed fuel s op ∧
      match heapStep fuel s op with
      | some t => RunAllowed fuel ops t
      | none => True

instance (fuel : Nat) (s : Heap) (op : HeapOp) : Decidable (StepAllowed fuel s op) :=
  match op with
  | .block op => decAllowed fuel op s
  | .realloc _ h => inferInstanceAs (Decidable ((s.hdrAt h).any (fun hhdr => !hhdr.isFree) = true))

def decRunAllowed (fuel : Nat) : (ops : List HeapOp) → (s : Heap) → Decidable (RunAllowed fuel ops s)
  | [], _ => instDecidableTrue
  | op :: ops, s =>
      @instDecidableAnd _ _ (inferInstanceAs (Decidable (StepAllowed fuel s op)))
        (match heapStep fuel s op with
        | some t => decRunAllowed fuel ops t
        | none => instDecidableTrue)

instance (fuel : Nat) (ops : List HeapOp) (s : Heap) : Decidable (RunAllowed fuel ops s) :=
  decRunAllowed fuel ops s

theorem heapStep_ok {op : HeapOp} (h : Ok cells s) (hallowed : StepAllowed fuel s op)
    (hs : heapStep fuel s op = some s') : ∃ cells', Ok cells' s' := by
  cases op with
  | block op =>
    obtain ⟨cells',hok,_⟩ := (exec_spec fuel op s cells h hallowed).of_eq hs
    exact ⟨cells',hok⟩
  | realloc env n =>
    obtain ⟨t,ht,hok⟩ := reallocHeader_ok env h hallowed
    rw [heapStep,ht] at hs
    cases hs
    exact ⟨cells,hok⟩

theorem heapRun_ok {ops : List HeapOp} (h : Ok cells s) (hallowed : RunAllowed fuel ops s)
    (hs : heapRun fuel ops s = some s') : ∃ cells', Ok cells' s' := by
  induction ops generalizing s cells with
  | nil =>
    cases hs
    exact ⟨cells,h⟩
  | cons op ops ih =>
    obtain ⟨t,ht,hs⟩ := Option.bind_eq_some_iff.mp hs
    obtain ⟨cells',hok⟩ := heapStep_ok h hallowed.1 ht
    have hrest := hallowed.2
    rw [ht] at hrest
    exact ih hok hrest hs

end Runs

section Lookup

/-- `GET_HDR`: without a bottom index the entry is read from `GC_all_nils`. -/
def getHdr (s : Heap) (h : Nat) : Entry := if h / bottomSz ∈ s.bottomKeys then s.index h else .nil

structure IndexExact (s : Heap) : Prop where
  inUse : ∀ h p, s.index h = .hdr p → (s.hdrs p).isFree = false →
    ∀ i, i < objSzToBlocks (s.hdrs p).hbSz → ∀ fuel, i < fuel →
      findStartingHblk s fuel (h + i) = some (h, p)
  freeStart : ∀ h p, s.index h = .hdr p → (s.hdrs p).isFree = true →
    ∀ fuel, findStartingHblk s (fuel + 1) h = some (h, p)
  freeInterior : ∀ h p, s.index h = .hdr p → (s.hdrs p).isFree = true →
    ∀ i, 0 < i → i < objSzToBlocks (s.hdrs p).hbSz → s.index (h + i) = .nil
  outside : ∀ h, (∀ sect ∈ s.heapSects, ¬ sect.Contains (h * hblkSize)) → s.index h = .nil
  covered : ∀ h, (∃ sect ∈ s.heapSects, sect.Contains (h * hblkSize)) →
    ∃ h' p, s.index h' = .hdr p ∧ h' ≤ h ∧ h < h' + objSzToBlocks (s.hdrs p).hbSz
  own : ∀ h p, s.index h = .hdr p → (s.hdrs p).hbBlock = h
  through : ∀ h, getHdr s h = s.index h

theorem findStartingHblk_inUse (h : Blocks s L cells ∅) (hp : s.index n = .hdr p)
    (hused : (s.hdrs p).isFree = false) (hi : i < objSzToBlocks (s.hdrs p).hbSz) (hfuel : i < fuel) :
    findStartingHblk s fuel (n + i) = some (n, p) := by
  induction fuel generalizing i with
  | zero => omega
  | succ fuel ih =>
    rw [findStartingHblk]
    by_cases h0 : i = 0
    · rw [h0,Nat.add_zero,hp]
    · have hfill := (h.layout.blocks (blkAt_of_index hp)).fill i (by omega) hi
      have hfree : (blk (s.hdrs p)).free = false := hused
      rw [Blk.fill,hfree] at hfill
      rw [hfill]
      simp only [Bool.false_eq_true,if_false]
      have hjump : 0 < min i maxJump := by
        have : 0 < maxJump := by decide
        omega
      rw [show n + i - min i maxJump = n + (i - min i maxJump) by omega]
      exact ih (by omega) (by omega)

theorem getHdr_eq (h : Keyed s) (n : Nat) : getHdr s n = s.index n := by
  unfold getHdr
  split
  · rfl
  · rename_i hout
    by_contra hne
    exact hout (h.mem n fun heq => hne heq.symm)

theorem HeapOk.indexExact (h : HeapOk s L cells) : IndexExact s where
  inUse _ _ hp hused _ hi _ hfuel := findStartingHblk_inUse h.blocks hp hused hi hfuel
  freeStart n p hp _ fuel := by rw [findStartingHblk,hp]
  freeInterior _ _ hp hfree _ hi hlt := h.blocks.layout.fill_nil (blkAt_of_index hp) hfree hi hlt
  outside n hout := by
    apply h.blocks.layout.outside
    rw [h.sects]
    rintro ⟨sect,hsect,hin⟩
    exact hout sect hsect hin
  covered n hin := by
    obtain ⟨m,len,hlen,hle,hlt⟩ := (h.blocks.layout.tiles.covers n).mp ((h.sects n).mpr hin)
    obtain ⟨b,hb,rfl⟩ := Option.map_eq_some_iff.mp hlen
    obtain ⟨p,hp,rfl⟩ := blkAt_eq_some.mp hb
    exact ⟨m,p,hp,hle,hlt⟩
  own _ _ hp := (h.blocks.layout.blocks (blkAt_of_index hp)).self
  through := getHdr_eq h.accounts.keyed

/-- The index is exact in every state that is reached. -/
theorem heapRun_indexExact (hdrs : Nat → Hdr) (fuel : Nat) (ops : List HeapOp)
    (hallowed : RunAllowed fuel ops (Heap.init hdrs)) (s : Heap)
    (hs : heapRun fuel ops (Heap.init hdrs) = some s) : IndexExact s := by
  obtain ⟨cells,L,hok⟩ := heapRun_ok ⟨_,heapOk_init hdrs⟩ hallowed hs
  exact HeapOk.indexExact hok

def resizingRun : List HeapOp := [
  .block (.addToHeap 1020 16),
  .block (.allochblk quietEnv ⟨20000, normal, false, 0⟩ false [] quietEnv),
  .realloc quietEnv 1020,
  .block .nextGc,
  .block (.unmapOld 1)]

def resizedState : Heap :=
  (heapRun 400 resizingRun blankHeap).getD blankHeap

theorem resizingRun_eq : heapRun 400 resizingRun blankHeap = some resizedState := by
  have hsome : (heapRun 400 resizingRun blankHeap).isSome = true := by decide +kernel
  obtain ⟨s,hs⟩ := Option.isSome_iff_exists.mp hsome
  rw [resizedState,hs]
  rfl

theorem heapRun_indexExact_resizingRun : RunAllowed 400 resizingRun blankHeap ∧
    findStartingHblk resizedState 5 1024 = some (1020, 0) ∧ IndexExact resizedState := by
  have hallowed : RunAllowed 400 resizingRun blankHeap := by decide +kernel
  refine ⟨hallowed,by decide +kernel,?_⟩
  exact heapRun_indexExact (fun _ => blankHdr) 400 resizingRun hallowed resizedState resizingRun_eq

end Lookup

section Marker

open Mark

variable {cfg : Pointers.Config} {t : Pointers.BlockTable cfg} {b : Pointers.Block} {q : Nat}

/-- The marker's table lists the blocks in use, with what their headers say. -/
structure Tabled (s : Heap) (t : Pointers.BlockTable cfg) : Prop where
  listed : ∀ b ∈ t.blocks, ∃ p, s.index (b.start / hblkSize) = .hdr p ∧ (s.hdrs p).isFree = false ∧
    (s.hdrs p).hbSz = b.sz ∧ (s.hdrs p).hbFlags.ignoreOffPage = b.ignoreOffPage
  all : ∀ h p, s.index h = .hdr p → (s.hdrs p).isFree = false → ∃ b ∈ t.blocks, b.start / hblkSize = h

theorem contains_iff (hb : b ∈ t.blocks) : b.Contains q ↔
    b.start / hblkSize ≤ q / hblkSize ∧ q / hblkSize < b.start / hblkSize + objSzToBlocks b.sz := by
  have hdvd := (t.ok b hb).1.1
  unfold Pointers.Block.Contains Pointers.Block.bytes hblkSize at *
  omega

/-- Both models of `GC_header_cache_miss` find the same block. -/
theorem headerCacheMiss_tabled (h : IndexExact s) (ht : Tabled s t) (q : Nat) :
    (headerCacheMiss cfg.allInteriorPointers s (q / hblkSize) (q % hblkSize)).1.map (fun p => (s.hdrs p).hbBlock) =
      (Pointers.headerCacheMiss t q).map fun b => b.start / hblkSize := by
  unfold headerCacheMiss Pointers.headerCacheMiss
  cases hb : t.blockAt q with
  | some b =>
    obtain ⟨hmem,hin⟩ := t.blockAt_some hb
    obtain ⟨p,hp,hused,hsz,hoff⟩ := ht.listed b hmem
    obtain ⟨hle,hlt⟩ := (contains_iff hmem).mp hin
    obtain ⟨i,hi⟩ := Nat.exists_eq_add_of_le hle
    rw [hi,← hsz] at hlt
    have hlong : (s.hdrs p).hbSz ≤ i * hblkSize + q % hblkSize ↔ ¬ q - b.start < b.sz := by
      have hdvd := (t.ok b hmem).1.1
      rw [hsz]
      unfold hblkSize at *
      omega
    have hfirst : b.onFirstPage q = decide (i = 0) := decide_eq_decide.mpr (by omega)
    have hfind := h.inUse _ p hp hused i (by omega) (b.start / hblkSize + i + 1)
      (Nat.lt_succ_of_le (Nat.le_add_left _ _))
    rw [hi]
    -- past its first hblk a block is found by the counts, unless its flags forbid it
    by_cases h0 : i = 0
    · simp [h0,hp,hused,h.own _ p hp,hfirst,Option.filter]
    · cases hentry : s.index (b.start / hblkSize + i) with
      | nil => simp [findStartingHblk,hentry] at hfind
      | hdr r => simp [findStartingHblk,hentry,h0] at hfind
      | forward k =>
        cases cfg.allInteriorPointers <;> cases hflag : b.ignoreOffPage <;>
          by_cases hshort : q - b.start < b.sz <;>
            simp [hfind,hoff,hflag,hused,hlong,hshort,hfirst,h0,h.own _ p hp,Option.filter]
  | none =>
    have hfree : ∀ n p, s.index n = .hdr p → n ≤ q / hblkSize →
        q / hblkSize ≤ n + (objSzToBlocks (s.hdrs p).hbSz - 1) → (s.hdrs p).isFree = true := by
      intro n p hp hle hlast
      by_contra hused
      obtain ⟨b,hmem,rfl⟩ := ht.all n p hp (by simpa using hused)
      obtain ⟨r,hr,_,hsz,_⟩ := ht.listed b hmem
      cases hp.symm.trans hr
      have hpos : 0 < objSzToBlocks b.sz := objSzToBlocks_pos (t.ok b hmem).1.2.1
      rw [hsz] at hlast
      simp [t.blockAt_of_mem hmem ((contains_iff hmem).mpr ⟨hle,by omega⟩)] at hb
    cases hentry : s.index (q / hblkSize) with
    | nil => rfl
    | hdr p => simp [hfree _ p hentry (le_refl _) (Nat.le_add_right _ _)]
    | forward k =>
      have hin : ∃ sect ∈ s.heapSects, sect.Contains (q / hblkSize * hblkSize) := by
        by_contra hno
        rw [h.outside (q / hblkSize) fun sect hsect hc => hno ⟨sect,hsect,hc⟩] at hentry
        cases hentry
      obtain ⟨n,p,hp,hle,hlt⟩ := h.covered _ hin
      have hnil := h.freeInterior n p hp (hfree n p hp hle (by omega)) (q / hblkSize - n)
      rw [Nat.add_sub_cancel' hle,hentry] at hnil
      rcases Nat.eq_or_lt_of_le hle with rfl | hpos
      · cases hentry.symm.trans hp
      · cases hnil (by omega) (by omega)

end Marker

end GcUtil.Block.IndexLookup
