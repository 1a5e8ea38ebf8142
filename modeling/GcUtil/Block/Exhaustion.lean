import GcUtil.Block.Contracts

/-! `GC_allochblk_nth` when memory for headers, bottom indices or map entries runs out:
every allocation on its way may fail, and the function returns null from the middle of its
work. -/
namespace GcUtil.Block.Exhaustion
open Option
open Basic Headers FreeLists Allocator HeaderTable LinkedLists BlockMap JointInvariant Reserving Splitting
open Merging Searching Runs Contracts Library.DoublyLinked Library.Outcome UsedBlocks

variable {s s' t : Heap} {n p i k fuel : Nat} {L : Nat → List Nat} {cells : Finset Nat} {b : Blk}
variable {req : Request}

section Model

/-- The places where `GC_allochblk_nth` allocates: a chunk of a dropped block, the part at
`last_hbp`, the rest behind the block, the forwarding counts, and the map entry. -/
inductive Site where
  | chunk
  | last
  | rest
  | counts
  | mapEntry
deriving DecidableEq

structure Failures where
  index : Site → Nat → Bool
  header : Site → Nat → Bool
  mapEntry : Bool

def Failures.Fails (f : Failures) (site : Site) : Prop :=
  (∃ h, f.index site h = true) ∨ (∃ h, f.header site h = true) ∨ (site = .mapEntry ∧ f.mapEntry = true)

/-- The places passed while the block is still on its list. -/
def Site.early : Site → Bool
  | .chunk | .last => true
  | .rest | .counts | .mapEntry => false

variable (f : Failures) (env : AllocEnv)

def tryGetIndex (site : Site) (s : Heap) (h : Nat) : Bool × Heap :=
  if h / bottomSz ∉ s.bottomKeys ∧ f.index site h then (false, s) else (true, getIndex s h)

/-- `GC_install_header`; a header on the free list is always there to be used. -/
def tryInstallHeader (site : Site) (s : Heap) (h : Nat) : Option Nat × Heap :=
  match tryGetIndex f site s.invalidateHdrCache h with
  | (false, t) => (none, t)
  | (true, t) =>
      if t.hdrFreeList = [] ∧ f.header site h then (none, t)
      else ((installHeader s h).1, (installHeader s h).2)

def tryIndexBlock (stop : Nat) : Nat → Nat → Heap → Bool × Heap
  | 0, _, s => (true, s)
  | fuel + 1, hbp, s =>
      if hbp * hblkSize < stop then
        match tryGetIndex f .counts s hbp with
        | (false, s) => (false, s)
        | (true, s) =>
            if hbp * hblkSize > wordMax - bottomSz * hblkSize then (true, s)
            else tryIndexBlock stop fuel (hbp + bottomSz) s
      else (true, s)

def tryInstallCounts (s : Heap) (h sz : Nat) : Bool × Heap :=
  let stop := h * hblkSize + sz
  match tryIndexBlock f stop (divHblksz sz + 1) h s.invalidateHdrCache with
  | (false, s) => (false, s)
  | (true, s) =>
      match tryGetIndex f .counts s ((stop - 1) / hblkSize) with
      | (false, s) => (false, s)
      | (true, s) => (true, forwardLoop h (objSzToBlocks sz - 1) s)

/-- `setup_header`; without a map entry the block is made to look like a valid one, and a
null `hb_map` is written as 0. -/
def trySetupHeader (s : Heap) (p block lbAdjusted kind : Nat)
    (ignoreOffPage : Bool) : Bool × Heap :=
  if f.mapEntry then
    (false, s.updHdr p fun b => { b with
      hbSz := hblkSize
      hbObjKind := kind
      hbFlags := {
        ignoreOffPage := ignoreOffPage
        wasUnmapped := false
        freeBlk := false
        hasDisclaim := (env.kinds kind).okDisclaimProc
        markUnconditionally := (env.kinds kind).okMarkUnconditionally
        largeBlock := true }
      hbBlock := block
      hbDescr := 0
      hbMap := 0 })
  else (true, setupHeader env s p block lbAdjusted kind ignoreOffPage)

def tryChunkLoop : Nat → Nat → Nat → Heap → Heap
  | 0, hbp, p, s => setupHeader env s p hbp hblkSize ptrfree false
  | n + 1, hbp, p, s =>
      match tryInstallHeader f .chunk (setupHeader env s p hbp hblkSize ptrfree false) (hbp + 1) with
      | (none, s) => s
      | (some q, s) => tryChunkLoop n (hbp + 1) q s

def tryDropHblkInChunks : Heap → Nat → Nat → Nat → Option Heap :=
  dropInChunks (tryChunkLoop f env)

def trySplitAt (s : Heap) (hbp p lastHbp index : Nat) : Option (Except Site Nat × Heap) :=
  if lastHbp = hbp then some (.ok p, s)
  else
    match tryInstallHeader f .last s lastHbp with
    | (none, s) => some (.error .last, s)
    | (some lastHdr, s) =>
        (splitBlock (remapBlock s hbp p) hbp p lastHbp lastHdr index).map fun s => (.ok lastHdr, s)

def tryGetFirstPart (s : Heap) (h p sizeNeeded index : Nat) : Option (Bool × Heap) := do
  let totalSize := (s.hdrs p).hbSz
  let s ← removeFromFlAt s p index
  if totalSize = sizeNeeded then some (true, s)
  else
    let rest := h + divHblksz sizeNeeded
    match tryInstallHeader f .rest s rest with
    | (none, s) => some (false, s)
    | (some q, s) => do
        let s := s.updHdr q fun b =>
          { b with hbBlock := rest, hbSz := totalSize - sizeNeeded, hbFlags := noFlags }
        let s ← addToFl s rest q
        some (true, s)

/-- The end of `GC_allochblk_nth`, once the block is off its list. -/
def trySetup (req : Request) (h p : Nat) (s : Heap) :
    Except Site Nat × Heap :=
  match tryInstallCounts f s h req.sizeNeeded with
  | (false, s) => (.error .counts, s)
  | (true, s) =>
      match trySetupHeader f env s p h req.lbAdjusted req.kind req.ignoreOffPage with
      | (false, s) => (.error .mapEntry, removeCounts s h req.sizeNeeded)
      | (true, s) => (.ok h, { s with largeFreeBytes := s.largeFreeBytes - req.sizeNeeded })

def tryTakeBlock (req : Request) (index hbp lastHbp : Nat) (s : Heap) :
    Option (Except Site Nat × Heap) :=
  match s.index hbp with
  | .hdr p =>
      match trySplitAt f s hbp p lastHbp index with
      | none => none
      | some (.error site, s) => some (.error site, s)
      | some (.ok p, s) =>
          match tryGetFirstPart f (remapBlock s lastHbp p) lastHbp p req.sizeNeeded index with
          | none => none
          | some (false, s) => some (.error .rest, s)
          | some (true, s) => some (trySetup f env req lastHbp p s)
  | _ => none

/-- `GC_allochblk_nth`: a block, none, or null because an allocation failed. -/
def tryAllochblkNth (fuel : Nat) (req : Request) (index : Nat)
    (maySplit : MaySplit) (s : Heap) : Option (Except Site (Option Nat) × Heap) :=
  match searchLoop (tryDropHblkInChunks f env) env fuel req index maySplit fuel
      (s.hblkfreelist index) s with
  | none => none
  | some (none, s) => some (.ok none, s)
  | some (some (hbp, lastHbp), s) =>
      (tryTakeBlock f env req index hbp lastHbp s).map fun r => (r.1.map some, r.2)

end Model

section Allocating

variable (f : Failures)

theorem tryGetIndex_cases (site : Site) (s : Heap) (n : Nat) :
    (f.Fails site ∧ tryGetIndex f site s n = (false, s)) ∨
      tryGetIndex f site s n = (true, getIndex s n) := by
  unfold tryGetIndex
  split
  · rename_i h
    exact .inl ⟨.inl ⟨n,h.2⟩,rfl⟩
  · exact .inr rfl

/-- What is left of an attempt that fails for want of memory. -/
abbrev rekeyed (s : Heap) (keys : List Nat) : Heap :=
  { s with bottomKeys := keys, hdrCache := s.invalidateHdrCache.hdrCache }

theorem tryInstallHeader_cases (site : Site) (s : Heap) (n : Nat) :
    (f.Fails site ∧ ∃ keys, tryInstallHeader f site s n =
      (none, rekeyed s keys)) ∨
      tryInstallHeader f site s n = (some (installHeader s n).1, (installHeader s n).2) := by
  obtain ⟨keys,hkeys⟩ := getIndex_eq s.invalidateHdrCache n
  unfold tryInstallHeader
  rcases tryGetIndex_cases f site s.invalidateHdrCache n with ⟨hf,h⟩ | h
  · rw [h]
    exact .inl ⟨hf,s.bottomKeys,rfl⟩
  · rw [h]
    dsimp only
    split
    · rename_i hf
      rw [hkeys]
      exact .inl ⟨.inr (.inl ⟨n,hf.2⟩),keys,rfl⟩
    · exact .inr rfl

theorem tryIndexBlock_cases (stop m h : Nat) (s : Heap) :
    (f.Fails .counts ∧ ∃ keys, tryIndexBlock f stop m h s = (false, { s with bottomKeys := keys })) ∨
      tryIndexBlock f stop m h s = (true, indexBlock stop m h s) := by
  induction m generalizing h s with
  | zero => exact .inr rfl
  | succ m ih =>
    obtain ⟨keys,hkeys⟩ := getIndex_eq s h
    rw [tryIndexBlock,indexBlock]
    split
    · rcases tryGetIndex_cases f .counts s h with ⟨hf,hget⟩ | hget
      · rw [hget]
        exact .inl ⟨hf,s.bottomKeys,rfl⟩
      · rw [hget]
        dsimp only
        split
        · exact .inr rfl
        · rcases ih (h + bottomSz) (getIndex s h) with ⟨hf,keys',hloop⟩ | hloop
          · rw [hloop,hkeys]
            exact .inl ⟨hf,keys',rfl⟩
          · exact .inr hloop
    · exact .inr rfl

theorem tryInstallCounts_cases (s : Heap) (n sz : Nat) :
    (f.Fails .counts ∧ ∃ keys, tryInstallCounts f s n sz =
      (false, rekeyed s keys)) ∨
      tryInstallCounts f s n sz = (true, installCounts s n sz) := by
  unfold tryInstallCounts installCounts
  dsimp only
  rcases tryIndexBlock_cases f (n * hblkSize + sz) (divHblksz sz + 1) n s.invalidateHdrCache with
    ⟨hf,keys,hloop⟩ | hloop
  · rw [hloop]
    exact .inl ⟨hf,keys,rfl⟩
  · rw [hloop]
    dsimp only
    rcases tryGetIndex_cases f .counts
      (indexBlock (n * hblkSize + sz) (divHblksz sz + 1) n s.invalidateHdrCache)
      ((n * hblkSize + sz - 1) / hblkSize) with ⟨hf,hget⟩ | hget
    · rw [hget]
      obtain ⟨keys,hkeys⟩ := indexBlock_eq (n * hblkSize + sz) (divHblksz sz + 1) n s.invalidateHdrCache
      rw [hkeys]
      exact .inl ⟨hf,keys,rfl⟩
    · rw [hget]
      exact .inr rfl

end Allocating

section Chunks

variable (f : Failures) (env : AllocEnv)

theorem tryChunkLoop_spec (j : Nat)
    (h : Reserved s L cells n p ⟨n, (j + 1) * hblkSize, true⟩) :
    ∃ cells' ⊆ cells, Blocks (tryChunkLoop f env j n p s) L cells' ∅ ∧
      total (tryChunkLoop f env j n p s) = total s ∧ counters (tryChunkLoop f env j n p s) = counters s := by
  induction j generalizing s n p with
  | zero => exact ⟨cells,subset_rfl,chunkLoop_spec env 0 h⟩
  | succ j ih =>
    rw [tryChunkLoop]
    rcases tryInstallHeader_cases f .chunk (setupHeader env s p n hblkSize ptrfree false) (n + 1) with
      ⟨_,keys,hfail⟩ | hinst
    · have hblocks : Blk.blocks ⟨n,(j + 1 + 1) * hblkSize,true⟩ = j + 1 + 1 := objSzToBlocks_mul _
      have hcut : Reserved s L (cells \ Finset.Ico (n + 1) (n + (j + 1 + 1))) n p ⟨n,hblkSize,true⟩ := by
        refine ⟨h.hdrs,h.header,?_,h.lists,h.unlisted,h.placed⟩
        have := h.layout.cut (k := 1) (Function.update_self ..) rfl (by omega) (by rw [hblocks]; omega)
        rw [Function.update_idem,hblocks,Nat.one_mul] at this
        exact this
      rw [hfail]
      refine ⟨cells \ Finset.Ico (n + 1) (n + (j + 1 + 1)),Finset.sdiff_subset,?_,rfl,rfl⟩
      exact (hcut.single.setupHeader_used env ptrfree false).congr rfl rfl rfl rfl rfl rfl
    · obtain ⟨cells',hsub,hB,htotal,hcount⟩ := ih (h.nextChunk env)
      have hinstall := installHeader_total (setupHeader env s p n hblkSize ptrfree false) (n + 1)
      rw [hinst,installHeader_fst]
      exact ⟨cells',hsub,hB,htotal.trans hinstall.1,hcount.trans hinstall.2⟩

/-- The blocks are in order on some part of the heap, and the free bytes are counted. -/
def Counted (m : Nat) (s : Heap) (L : Nat → List Nat) : Prop :=
  (∃ cells, Blocks s L cells ∅ ∧ cells.card ≤ m) ∧ s.largeFreeBytes = total s

theorem tryDropHblkInChunks_spec {m : Nat} (h : Counted m s L)
    (hp : s.index n = .hdr p) (hb : blkAt s n = some b) (hmem : n ∈ L i) :
    ∃ s', tryDropHblkInChunks f env s i n p = some s' ∧
      Counted m s' (Function.update L i ((L i).erase n)) := by
  obtain ⟨⟨cells,hB,hcard⟩,hlarge⟩ := h
  obtain ⟨t,hdrop,hres,hsum,hleft⟩ := dropInChunks_reserved (tryChunkLoop f env) hB hp hb hmem
  obtain ⟨cells',hsub,hB',htotal,hcount⟩ := tryChunkLoop_spec f env (b.blocks - 1) hres
  have hlarge' : Heap.largeFreeBytes _ = _ := congrArg Prod.fst (hcount.trans hleft)
  refine ⟨_,hdrop,⟨cells',hB',(Finset.card_le_card hsub).trans hcard⟩,?_⟩
  rw [hlarge',htotal]
  dsimp only
  omega

theorem searchable_tryDrop (req : Request) (i m : Nat) :
    Searchable (tryDropHblkInChunks f env) env req i m (Counted m) fun _ _ => True where
  refl _ := trivial
  trans _ _ := trivial
  blocks h := h.1
  count c h := by
    obtain ⟨⟨cells,hB,hcard⟩,hlarge⟩ := h
    exact ⟨⟨⟨cells,hB.congr rfl rfl rfl rfl rfl rfl,hcard⟩,hlarge⟩,trivial⟩
  drop h hp hb hmem _ _ _ := by
    obtain ⟨s',hs',hcounted⟩ := tryDropHblkInChunks_spec f env h hp hb hmem
    exact ⟨s',hs',hcounted,trivial⟩

end Chunks

section Consistency

/-- The free lists hold `L`: every free block is on exactly one of them, no two blocks
overlap, and the free bytes are those on the lists. -/
structure ConsistentWith (s : Heap) (L : Nat → List Nat) : Prop where
  linked : ∀ i, Linked (nextAt s) (prevAt s) (s.hblkfreelist i) (L i)
  listed : ∀ h hhdr, s.hdrAt h = some hhdr → hhdr.isFree = true → ∃! i, h ∈ L i
  apart : ∀ h h' addr, InBlock s h addr → InBlock s h' addr → h = h'
  large : s.largeFreeBytes = ∑ i ∈ Finset.range (nHblkFls + 1), ((L i).map (szAt s)).sum

def Consistent (s : Heap) : Prop := ∃ L, ConsistentWith s L

theorem Counted.consistent {m : Nat} (h : Counted m s L) : Consistent s := by
  obtain ⟨⟨cells,hB,_⟩,hlarge⟩ := h
  refine ⟨L,hB.lists.linked,fun x hhdr hx hfree => ?_,fun x y addr hx hy => ?_,?_⟩
  · have hb : blkAt s x = some (blk hhdr) := by rw [blkAt,hx]; rfl
    exact ⟨flOf hhdr.hbSz,hB.mem_list hb (by simp) hfree,fun j hj => ((hB.placed hb (by simp) j).mp hj).2.symm⟩
  · obtain ⟨b,hb,hbin⟩ := inBlock_iff.mp hx
    obtain ⟨c,hc,hcin⟩ := inBlock_iff.mp hy
    exact hB.layout.tiles.unique (Layout.len_eq hb) (Layout.len_eq hc) hbin hcin
  · rw [hlarge,total]
    exact Finset.sum_congr rfl fun i _ => hB.lists.bytes i

theorem ConsistentWith.lists_eq {L' : Nat → List Nat} (h : ConsistentWith s L') (hlists : Lists s L) :
    L' = L := funext fun i => (h.linked i).unique (hlists.linked i)

theorem not_consistent_of_unlisted (hlists : Lists s L) (hp : s.index n = .hdr p)
    (hfree : (s.hdrs p).isFree = true) (hnot : ∀ i, n ∉ L i) : ¬ Consistent s := by
  rintro ⟨L',h⟩
  obtain ⟨i,hi,_⟩ := h.listed n _ (hdrAt_of_index hp) hfree
  rw [h.lists_eq hlists] at hi
  exact hnot i hi

theorem not_consistent_of_large (hlists : Lists s L) (hlarge : s.largeFreeBytes ≠ total s) :
    ¬ Consistent s := by
  rintro ⟨L',h⟩
  apply hlarge
  rw [h.large,h.lists_eq hlists,total]
  exact Finset.sum_congr rfl fun i _ => (hlists.bytes i).symm

end Consistency

section Taking

variable (f : Failures) (env : AllocEnv)

theorem trySplitAt_cases (s : Heap) (hbp p lastHbp index : Nat) :
    (f.Fails .last ∧ ∃ keys, trySplitAt f s hbp p lastHbp index = some (.error .last,
      rekeyed s keys)) ∨
      trySplitAt f s hbp p lastHbp index =
        (splitAt s hbp p lastHbp index).map fun r => (.ok r.1, r.2) := by
  unfold trySplitAt splitAt
  split
  · exact .inr rfl
  · rcases tryInstallHeader_cases f .last s lastHbp with ⟨hf,keys,hfail⟩ | hinst
    · rw [hfail]
      exact .inl ⟨hf,keys,rfl⟩
    · rw [hinst]
      simp only [map_map]
      exact .inr rfl

theorem tryGetFirstPart_cases (s : Heap) (h p sizeNeeded index : Nat) :
    (f.Fails .rest ∧ ∃ keys, tryGetFirstPart f s h p sizeNeeded index = (removeFromFlAt s p index).map fun s =>
      (false, rekeyed s keys)) ∨
      tryGetFirstPart f s h p sizeNeeded index =
        (getFirstPart s h p sizeNeeded index).map fun s => (true, s) := by
  unfold tryGetFirstPart getFirstPart
  cases removeFromFlAt s p index with
  | none => exact .inr rfl
  | some t =>
    simp only [bind_eq_bind,bind_some]
    split
    · exact .inr rfl
    · rcases tryInstallHeader_cases f .rest t (h + divHblksz sizeNeeded) with ⟨hf,keys,hfail⟩ | hinst
      · rw [hfail]
        exact .inl ⟨hf,keys,rfl⟩
      · rw [hinst]
        refine .inr ?_
        simp only [map_eq_bind]
        rfl

theorem not_consistent_rest (h : Blocks s L cells {n}) (hp : s.index n = .hdr p) (hb : blkAt s n = some b)
    (hfree : b.free = true) (hmem : n ∈ L i) (keys : List Nat)
    (ht : (removeFromFlAt s p i).map (fun s =>
      (false, rekeyed s keys)) = some (false, t)) :
    ¬ Consistent t := by
  obtain ⟨s1,hs1,hrem,hB1⟩ := h.remove hp hmem
  rw [hs1] at ht
  cases ht
  have hB2 : Blocks (rekeyed s1 keys)
      (Function.update L i ((L i).erase n)) cells (insert n {n}) := hB1.congr rfl rfl rfl rfl rfl rfl
  have hp1 : s1.index n = .hdr p := by rw [index_of_core hrem.core,hp]
  have hfree1 : (s1.hdrs p).isFree = true :=
    (isFree_of_blkAt hp1 (by rw [blkAt_of_core hrem.core,hb])).trans hfree
  exact not_consistent_of_unlisted hB2.lists hp1 hfree1 (not_mem_update_erase h.lists hmem)

theorem removeCounts_lists {g : Hdr → Hdr} (h : Reserved s L cells n p ⟨n, k * hblkSize, true⟩)
    (hfits : k * hblkSize < sizetSignb) :
    let u := removeCounts ((installCounts s n (k * hblkSize)).updHdr p g) n (k * hblkSize)
    Lists u L ∧ total u = total s ∧ counters u = counters s := by
  intro u
  obtain ⟨keys,hcounts⟩ := installCounts_eq s n (k * hblkSize)
  have hres := (h.installCounts (objSzToBlocks_mul k) hfits).updHdr g
  have hforward : ∀ x, n < x → x ≤ n + (k - 1) →
      ((installCounts s n (k * hblkSize)).updHdr p g).index x = .forward (min (x - n) maxJump) := by
    intro x hx hxk
    rw [updHdr_index,hcounts,objSzToBlocks_mul]
    exact if_pos ⟨hx,hxk⟩
  have hu : u = _ := removeCounts_eq ((installCounts s n (k * hblkSize)).updHdr p g) n (k * hblkSize)
    (by
      rw [objSzToBlocks_mul]
      intro hnil i hi hik
      rw [hforward (n + 1) (by omega) (by omega)] at hnil
      cases hnil)
  have hhdrAt : u.hdrAt = ((installCounts s n (k * hblkSize)).updHdr p g).hdrAt := by
    rw [hu,objSzToBlocks_mul]
    refine hdrAt_reindex rfl fun x => ?_
    dsimp only
    split
    · rename_i hx
      refine .inr ⟨?_,by simp⟩
      rw [hdrAt_eq_none,hforward x hx.1 hx.2]
      simp
    · exact .inl rfl
  refine ⟨hres.lists.frame_hdrAt (by rw [hu]) (by rw [hu]) fun _ x _ => congrFun hhdrAt x,?_,?_⟩
  · rw [hu]
    exact (installCounts_total s n (k * hblkSize)).1
  · rw [hu]
    exact (installCounts_total s n (k * hblkSize)).2

def Ended : Except Site (Option Nat) × Heap → Prop
  | (.ok none, s') => Consistent s'
  | (.ok (some _), _) => True
  | (.error site, s') => f.Fails site ∧ (Consistent s' ↔ site.early = true)

theorem trySetup_failed {site : Site} {u : Heap}
    (hres : Reserved s L cells n p ⟨n, req.sizeNeeded, true⟩) (hfree : (s.hdrs p).isFree = true)
    (hlarge : s.largeFreeBytes ≠ total s) (hfits : req.sizeNeeded < sizetSignb)
    (hu : trySetup f env req n p s = (.error site, u)) :
    f.Fails site ∧ ¬ Consistent u ∧ site.early = false := by
  unfold trySetup at hu
  rcases tryInstallCounts_cases f s n req.sizeNeeded with ⟨hf,keys,hfail⟩ | hinst
  · rw [hfail] at hu
    cases hu
    have hlists : Lists (rekeyed s keys) L :=
      hres.lists.frame_hdrAt rfl rfl fun _ _ _ => rfl
    exact ⟨hf,not_consistent_of_unlisted hlists hres.header hfree hres.unlisted,rfl⟩
  · rw [hinst] at hu
    dsimp only at hu
    unfold trySetupHeader at hu
    split at hu
    · rename_i hmap
      split at hmap
      · rename_i hf
        cases hmap
        cases hu
        obtain ⟨hlists,htotal,hcount⟩ := removeCounts_lists hres hfits
        refine ⟨.inr (.inr ⟨rfl,hf⟩),not_consistent_of_large hlists ?_,rfl⟩
        intro heq
        exact hlarge ((congrArg Prod.fst hcount).symm.trans (heq.trans htotal))
      · cases hmap
    · cases hu

theorem tryTakeBlock_spec (h : Blocks s L cells ∅)
    (hlarge : s.largeFreeBytes = total s) (hb : blkAt s n = some b) (hfree : b.free = true)
    (hneed : 0 < req.lbAdjusted) (hle : k + objSzToBlocks req.lbAdjusted ≤ b.blocks)
    (hfits : req.sizeNeeded < sizetSignb) :
    ∃ r, tryTakeBlock f env req (flOf b.sz) n (n + k) s = some r ∧ Ended f (r.1.map some, r.2) := by
  obtain ⟨p,hp,_⟩ := blkAt_eq_some.mp hb
  have hpos := objSzToBlocks_pos hneed
  obtain ⟨q,s1,L1,c,hs1,hB1,hq1,hc1,hcfree,hmem1,hlen1,ht1,hcnt1⟩ :=
    splitAt_spec h hp hb hfree (by omega : k < b.blocks)
  obtain ⟨hB2,hi2,hb2,ht2,hcnt2⟩ := remapBlock_spec hB1 hq1
  have hq2 : (remapBlock s1 (n + k) q).index (n + k) = .hdr q := by rw [hi2,hq1]
  have hc2 : blkAt (remapBlock s1 (n + k) q) (n + k) = some c := by rw [hb2,hc1]
  unfold tryTakeBlock
  simp only [hp]
  rcases trySplitAt_cases f s n p (n + k) (flOf b.sz) with ⟨hf,keys,hfail⟩ | hsplit
  · rw [hfail]
    have hsame : Counted cells.card (rekeyed s keys) L :=
      ⟨⟨cells,h.congr rfl rfl rfl rfl rfl rfl,le_refl _⟩,hlarge⟩
    exact ⟨_,rfl,hf,⟨fun _ => rfl,fun _ => hsame.consistent⟩⟩
  · rw [hsplit,hs1]
    dsimp only [map_some]
    rcases tryGetFirstPart_cases f (remapBlock s1 (n + k) q) (n + k) q req.sizeNeeded (flOf b.sz) with
      ⟨hf,keys,hfail⟩ | hfirst
    · obtain ⟨s3,hs3,_⟩ := hB2.remove hq2 hmem1
      have hbad := not_consistent_rest hB2 hq2 hc2 hcfree hmem1 keys (by rw [hs3]; rfl)
      rw [hfail,hs3]
      exact ⟨_,rfl,hf,⟨fun hgood => absurd hgood hbad,fun hearly => by cases hearly⟩⟩
    · obtain ⟨t,L',ht,hres,htotal,hcount⟩ := getFirstPart_spec hB2 hq2 hc2 hcfree hmem1 hpos
        (by omega : objSzToBlocks req.lbAdjusted ≤ c.blocks)
      have hheader : (t.hdrs q).isFree = true := by
        apply isFree_of_usedAt hres.header
        rw [usedAt_eq_seen,(getFirstPart_keeps_of_blocks hB2 hq2 hc2 hcfree hpos (by omega) ht).same (n + k) (by simp),
          ← usedAt_eq_seen]
        exact usedAt_of_free hq2 ((isFree_of_blkAt hq2 hc2).trans hcfree)
      have hbytes : 0 < objSzToBlocks req.lbAdjusted * hblkSize := Nat.mul_pos hpos (by decide)
      have hlarge' : t.largeFreeBytes ≠ total t := by
        have hsame : t.largeFreeBytes = s.largeFreeBytes :=
          congrArg Prod.fst (hcount.trans (hcnt2.trans hcnt1))
        omega
      rw [hfirst,Request.sizeNeeded,ht]
      dsimp only [map_some]
      cases hset : trySetup f env req (n + k) q t with
      | mk r u =>
        refine ⟨_,rfl,?_⟩
        cases r with
        | ok x => trivial
        | error site =>
          obtain ⟨hf,hbad,hlate⟩ := trySetup_failed f env hres hheader hlarge' hfits hset
          exact ⟨hf,fun hgood => absurd hgood hbad,fun hearly => by simp [hlate] at hearly⟩

end Taking

section NoFailure

variable {f : Failures} (hf : ∀ site, ¬ f.Fails site)
include hf

theorem tryInstallHeader_of_no_failure (site : Site) (s : Heap) (n : Nat) :
    tryInstallHeader f site s n = (some (installHeader s n).1, (installHeader s n).2) :=
  (tryInstallHeader_cases f site s n).resolve_left fun h => hf site h.1

theorem tryChunkLoop_of_no_failure (env : AllocEnv) (j n p : Nat) (s : Heap) :
    tryChunkLoop f env j n p s = chunkLoop env j n p s := by
  induction j generalizing n p s with
  | zero => rfl
  | succ j ih =>
    rw [tryChunkLoop,chunkLoop,tryInstallHeader_of_no_failure hf]
    exact ih _ _ _

theorem tryDropHblkInChunks_of_no_failure (env : AllocEnv) :
    tryDropHblkInChunks f env = dropHblkInChunks env := by
  apply congrArg dropInChunks
  funext j n p s
  exact tryChunkLoop_of_no_failure hf env j n p s

theorem trySetup_of_no_failure (env : AllocEnv) (n p : Nat) (s : Heap) :
    trySetup f env req n p s =
      let t := setupHeader env (installCounts s n req.sizeNeeded) p n req.lbAdjusted req.kind req.ignoreOffPage
      (.ok n, { t with largeFreeBytes := t.largeFreeBytes - req.sizeNeeded }) := by
  have hmap : f.mapEntry = false := by
    rw [Bool.eq_false_iff]
    exact fun h => hf .mapEntry (.inr (.inr ⟨rfl,h⟩))
  unfold trySetup trySetupHeader
  rw [(tryInstallCounts_cases f s n req.sizeNeeded).resolve_left fun h => hf _ h.1,hmap]
  rfl

theorem tryTakeBlock_of_no_failure (env : AllocEnv) (hbp lastHbp : Nat) (s : Heap) :
    tryTakeBlock f env req i hbp lastHbp s =
      (takeBlock env req i hbp lastHbp s).map fun r => (.ok r.1, r.2) := by
  unfold tryTakeBlock takeBlock
  cases s.index hbp with
  | nil => rfl
  | forward k => rfl
  | hdr p =>
    dsimp only
    rw [(trySplitAt_cases f s hbp p lastHbp i).resolve_left fun h => hf _ h.1]
    cases splitAt s hbp p lastHbp i with
    | none => rfl
    | some r =>
      dsimp only [map_some,bind_eq_bind,bind_some]
      rw [(tryGetFirstPart_cases f (remapBlock r.2 lastHbp r.1) lastHbp r.1 req.sizeNeeded i).resolve_left
        fun h => hf _ h.1]
      cases getFirstPart (remapBlock r.2 lastHbp r.1) lastHbp r.1 req.sizeNeeded i with
      | none => rfl
      | some t =>
        dsimp only [map_some,bind_some]
        rw [trySetup_of_no_failure hf]

theorem tryAllochblkNth_of_no_failure (env : AllocEnv) (maySplit : MaySplit) (s : Heap) :
    tryAllochblkNth f env fuel req i maySplit s =
      (allochblkNth env fuel req i maySplit s).map fun r => (.ok r.1, r.2) := by
  unfold tryAllochblkNth allochblkNth
  rw [tryDropHblkInChunks_of_no_failure hf]
  cases searchLoop (dropHblkInChunks env) env fuel req i maySplit fuel (s.hblkfreelist i) s with
  | none => rfl
  | some r =>
    obtain ⟨found,t⟩ := r
    cases found with
    | none => rfl
    | some found =>
      dsimp only
      rw [tryTakeBlock_of_no_failure hf,map_map,map_map]
      rfl

end NoFailure

section Returning

theorem tryAllochblkNth_ended (f : Failures) (env : AllocEnv) (index : Nat) (maySplit : MaySplit)
    (hs : Ok cells s) (hfuel : Enough cells fuel) (hpos : 0 < req.lbAdjusted)
    (halign : (req.alignM1 + 1).isPowerOfTwo) (hfits : req.overflows = false) :
    ∃ r, tryAllochblkNth f env fuel req index maySplit s = some r ∧ Ended f r := by
  obtain ⟨L,hok⟩ := hs
  have hcard := hfuel.card_lt
  have hlen := hok.length_le index
  have hsound := sound_of_isPowerOfTwo hpos halign
  obtain ⟨⟨found,t⟩,ht,⟨L',hinv,hfound⟩,_,_⟩ := (searchLoop_spec
    (searchable_tryDrop f env req index cells.card) (k := fuel) fuel hsound maySplit
    ⟨⟨cells,hok.blocks,le_refl _⟩,hok.large⟩ (a := []) rfl).some_of ⟨hcard,by omega⟩
  unfold tryAllochblkNth
  rw [hok.head,ht]
  cases found with
  | none => exact ⟨_,rfl,hinv.consistent⟩
  | some found =>
    obtain ⟨hbp,lastHbp⟩ := found
    obtain ⟨b,hb,hfree,rfl,k,rfl,hle⟩ := hfound hbp lastHbp rfl
    obtain ⟨⟨cells',hB,_⟩,hlarge⟩ := hinv
    obtain ⟨r,hr,hended⟩ := tryTakeBlock_spec f env hB hlarge hb hfree hpos hle (sizeNeeded_lt hfits)
    dsimp only
    rw [hr]
    exact ⟨_,rfl,hended⟩

/-- A null from `GC_allochblk_nth` leaves the heap consistent exactly when no allocation has
failed after the block was taken off its list. -/
theorem tryAllochblkNth_consistent_iff (f : Failures) (env : AllocEnv) (index : Nat) (maySplit : MaySplit)
    (hs : Ok cells s) (hfuel : Enough cells fuel) (hpos : 0 < req.lbAdjusted)
    (halign : (req.alignM1 + 1).isPowerOfTwo) (hfits : req.overflows = false) :
    ∃ r s', tryAllochblkNth f env fuel req index maySplit s = some (r, s') ∧
      ((∀ site, f.Fails site → site.early = true) → (∀ h, r ≠ .ok (some h)) → Consistent s') ∧
      (r = .ok none → Consistent s') ∧
      ∀ site, r = .error site → f.Fails site ∧ (Consistent s' ↔ site.early = true) := by
  obtain ⟨⟨r,s'⟩,hr,hended⟩ := tryAllochblkNth_ended f env index maySplit hs hfuel hpos halign hfits
  refine ⟨r,s',hr,?_⟩
  cases r with
  | ok found =>
    cases found with
    | none => exact ⟨fun _ _ => hended,fun _ => hended,nofun⟩
    | some h => exact ⟨fun _ hnull => absurd rfl (hnull h),nofun,nofun⟩
  | error site =>
    obtain ⟨hf,hiff⟩ := hended
    refine ⟨fun hearly _ => hiff.mpr (hearly site hf),nofun,fun site' h => ?_⟩
    cases h
    exact ⟨hf,hiff⟩

def headersFail (site : Site) : Failures := ⟨fun _ _ => false, fun x _ => x == site, false⟩

def oneHblk : Request := ⟨4096, normal, false, 0⟩

def oneUsed : List Op := [.addToHeap 16 8, .allochblk quietEnv oneHblk false [] quietEnv]

def failedAt : Except Site (Option Nat) → Option Site
  | .error site => some site
  | .ok _ => none

theorem failedAt_eq_some {r : Except Site (Option Nat)} {site : Site} (h : failedAt r = some site) :
    r = .error site := by
  cases r with
  | ok x => cases h
  | error x => rw [Option.some.inj h]

theorem tryAllochblkNth_consistent_iff_aligned : ∃ s s' : Heap,
    execAll 200 oneUsed blankHeap = some s ∧
      tryAllochblkNth (headersFail .last) quietEnv 200 alignedRequest 7 .yes s = some (.error .last, s') ∧
      Consistent s' := by
  obtain ⟨s,cells,hs,hok,hfuel⟩ := execAll_reaches (fun _ => blankHdr) 200 oneUsed
    (by decide +kernel) (by decide)
  obtain ⟨r,s',hs',_,_,hiff⟩ := tryAllochblkNth_consistent_iff (headersFail .last) quietEnv 7 .yes hok hfuel
    (by decide : 0 < alignedRequest.lbAdjusted) ⟨14,rfl⟩ (by decide)
  have hrun : ((execAll 200 oneUsed blankHeap).bind
      (tryAllochblkNth (headersFail .last) quietEnv 200 alignedRequest 7 .yes)).map
        (fun r => failedAt r.1) = some (some .last) := by
    decide +kernel
  rw [hs,bind_some,hs'] at hrun
  obtain rfl := failedAt_eq_some (Option.some.inj hrun)
  exact ⟨s,s',hs,hs',(hiff .last rfl).2.mpr rfl⟩

/-- The rest behind the block gets no header: the block stays flagged as free and is on no
list, and freeing its neighbour coalesces with it. -/
theorem tryAllochblkNth_inconsistent : ∃ s s' t : Heap,
    execAll 200 oneUsed blankHeap = some s ∧ HeapInvariant s ∧
      tryAllochblkNth (headersFail .rest) quietEnv 200 oneHblk 7 .yes s = some (.error .rest, s') ∧
      ¬ Consistent s' ∧ blkAt s' 17 = some ⟨17, 28672, true⟩ ∧ (∀ i ≤ nHblkFls, s'.hblkfreelist i = none) ∧
      freehblk s' 16 = some t ∧ blkAt t 16 = some ⟨16, 32768, true⟩ := by
  obtain ⟨s,cells,hs,hok,hfuel⟩ := execAll_reaches (fun _ => blankHdr) 200 oneUsed
    (by decide +kernel) (by decide)
  obtain ⟨⟨r,s'⟩,hs',hended⟩ := tryAllochblkNth_ended (headersFail .rest) quietEnv 7 .yes hok hfuel
    (by decide : 0 < oneHblk.lbAdjusted) ⟨0,rfl⟩ (by decide)
  have hrun : ((execAll 200 oneUsed blankHeap).bind
      (tryAllochblkNth (headersFail .rest) quietEnv 200 oneHblk 7 .yes)).map (fun r =>
        (failedAt r.1, blkAt r.2 17, decide (∀ i ≤ nHblkFls, r.2.hblkfreelist i = none),
          (freehblk r.2 16).map (blkAt · 16))) =
      some (some .rest, some ⟨17,28672,true⟩, true, some (some ⟨16,32768,true⟩)) := by
    decide +kernel
  rw [hs,bind_some,hs'] at hrun
  simp only [map_some,Option.some.injEq,Prod.mk.injEq,decide_eq_true_eq] at hrun
  obtain ⟨hsite,hblk,hlists,hfreed⟩ := hrun
  obtain ⟨t,ht,hcoalesced⟩ := map_eq_some_iff.mp hfreed
  obtain rfl := failedAt_eq_some hsite
  refine ⟨s,s',t,hs,heapInvariant_of_ok hok,hs',fun hgood => ?_,hblk,hlists,ht,hcoalesced⟩
  cases hended.2.mp hgood

end Returning

end GcUtil.Block.Exhaustion
