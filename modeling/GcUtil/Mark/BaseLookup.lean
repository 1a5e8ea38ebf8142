import GcUtil.Mark.Termination

/-! `GC_base` and the lookups of the marker. `GC_base` divides the displacement of a pointer by
the size of the objects, the marker reads the granule map of the block. They name the same
object for every pointer into one, and the marker reads that map also where it is null. -/
namespace GcUtil.Mark.BaseLookup
open Basic Pointers Machine Pushing Termination

def initializeOffsets (allInteriorPointers : Bool) (i : Nat) : Bool :=
  allInteriorPointers && decide (i < hblkSize)

/-- `GC_register_displacement`, which aborts for an offset that is no displacement. -/
def registerDisplacement (validOffsets : Nat → Bool) (offset : Fin hblkSize) : Nat → Bool :=
  Function.update validOffsets offset true

/-- The headers between two calls of the collector. `hasMap` tells the blocks whose `hb_map` is
not null: where `GC_add_map_entry` fails, `setup_header` leaves a block of one page without. -/
structure Heap (cfg : Config) where
  state : State cfg
  hasMap : Nat → Bool
  final : ∀ b ∈ state.world.table.blocks, b.Contains b.finalMark → state.marks b.finalMark = true
  failed : ∀ b ∈ state.world.table.blocks, hasMap b.start = false → b.sz = hblkSize ∧ b.descr = 0
  offsets : ∃ registered : List (Fin hblkSize),
    cfg.validOffsets = registered.foldl registerDisplacement (initializeOffsets cfg.allInteriorPointers)

variable {cfg : Config}

def Heap.table (H : Heap cfg) : BlockTable cfg := H.state.world.table

section Lookups

def base (t : BlockTable cfg) (p : Nat) : Option Nat :=
  (t.blockAt p).bind fun b =>
    let h := if b.onFirstPage p then p / hblkSize * hblkSize else b.start
    let r := if b.onFirstPage p then p else h
    let r := r / 8 * 8
    let r := r - r % hblkSize % b.sz
    let limit := r + b.sz
    if (h + hblkSize < limit ∧ b.sz ≤ hblkSize) ∨ limit ≤ p then none else some r

variable (H : Heap cfg)

/-- `GC_ms_push_contents_hdr`; `none` is the read of `hb_map` where that is null. -/
def msPushContents (b : Block) (current : Nat) (doOffsetCheck : Bool) : Option (State cfg) :=
  if H.hasMap b.start then
    some ((objBase cfg b current doOffsetCheck).elim H.state fun obj => msPushContentsHdr obj b H.state)
  else none

def markFromWord (q : Nat) : Option (State cfg) :=
  if plausibleHeapAddr cfg q then
    (headerCacheMiss H.table q).elim (some H.state) fun b => msPushContents H b q true
  else some H.state

def markAndPush (obj : Nat) : Option (State cfg) :=
  (H.table.blockAt obj).elim (some H.state) fun b =>
    if b.onFirstPage obj then msPushContents H b obj true
    else if cfg.allInteriorPointers then
      ((base H.table obj).bind H.table.blockAt).elim (some H.state) fun c => msPushContents H c obj true
    else some H.state

def markAndPushStack (p : Nat) : Option (State cfg) :=
  (H.table.blockAt p).elim (some H.state) fun b =>
    if b.onFirstPage p then msPushContents H b p false
    else
      (base H.table p).elim (some H.state) fun r =>
        (H.table.blockAt r).elim (some H.state) fun c => msPushContents H c r false

def handings : List (Heap cfg → Nat → Option (State cfg)) := [markFromWord, markAndPush, markAndPushStack]

/-- The base names the cell a pointer lies in. Handing the pointer to the marker marks the object
of that cell; a pointer in no cell marks at most the large object it lies behind. -/
structure Agrees (p : Nat) : Prop where
  base_iff : ∀ o, base H.table p = some o ↔ ∃ b ∈ H.table.blocks, o ∈ b.objs ∧ o ≤ p ∧ p < o + b.sz
  marks : ∀ o, base H.table p = some o → ∀ hand ∈ handings, ∃ s', hand H p = some s' ∧
    s'.marks = Function.update H.state.marks o true
  others : base H.table p = none → ∀ hand ∈ handings, ∃ s', hand H p = some s' ∧
    ∀ a, s'.marks a = H.state.marks a ∨ ∃ b ∈ H.table.blocks, maxObjBytes < b.sz ∧ a = b.start ∧
      b.onFirstPage p = true ∧ b.start + b.sz ≤ p

end Lookups

section Cells

variable {t : BlockTable cfg} {b : Block} {p o : Nat}

def cellBase (b : Block) (p : Nat) : Nat :=
  if maxObjBytes < b.sz then b.start else b.start + p % hblkSize / b.sz * b.sz

theorem Block.displ_of_small (hsmall : ¬ maxObjBytes < b.sz) (hok : b.Ok) (hp : b.Contains p) :
    p = b.start + p % hblkSize ∧ b.onFirstPage p = true := by
  have hpos := hok.2.1
  have hstart := hok.1
  unfold Block.Contains at hp
  rw [Block.bytes_of_small hsmall hpos] at hp
  simp only [Block.onFirstPage,decide_eq_true_eq]
  unfold hblkSize at *
  omega

/-- Rounding down to a word first does not change the object. -/
theorem word_sub_mod {d sz : Nat} (hsz : 8 ∣ sz) : d / 8 * 8 - d / 8 * 8 % sz = d / sz * sz := by
  obtain ⟨m,rfl⟩ := hsz
  have hword : d / 8 * 8 - d / 8 * 8 % (8 * m) = 8 * (d / 8 - d / 8 % m) := by
    rw [Nat.mul_comm (d / 8),Nat.mul_mod_mul_left,Nat.mul_sub]
  have hdiv : d / 8 - d / 8 % m = m * (d / (8 * m)) := by
    rw [← Nat.div_div_eq_div_mul]
    exact Nat.sub_eq_of_eq_add (Nat.div_add_mod (d / 8) m).symm
  rw [hword,hdiv]
  ring

theorem base_of_small (hb : t.blockAt p = some b) (hsmall : ¬ maxObjBytes < b.sz) :
    base t p = if p % hblkSize / b.sz < hblkSize / b.sz then some (cellBase b p) else none := by
  obtain ⟨hmem,hin⟩ := t.blockAt_some hb
  have hok := (t.ok b hmem).1
  obtain ⟨hp,hfirst⟩ := Block.displ_of_small hsmall hok hin
  have hsz : 8 ∣ b.sz := (by decide : 8 ∣ granuleBytes).trans (Nat.dvd_of_mod_eq_zero hok.2.2.1)
  have hround := word_sub_mod (d := p % hblkSize) hsz
  have hbase : p / 8 * 8 - p / 8 * 8 % hblkSize % b.sz = cellBase b p := by
    have hstart := hok.1
    have hle := Nat.mod_le (p % hblkSize / 8 * 8) b.sz
    have hdispl : p / 8 * 8 % hblkSize = p % hblkSize / 8 * 8 := by
      unfold hblkSize
      omega
    rw [hdispl,cellBase,if_neg hsmall,← hround]
    unfold hblkSize at *
    omega
  have hlast : p % hblkSize / b.sz < hblkSize / b.sz ↔ p % hblkSize / b.sz * b.sz + b.sz ≤ hblkSize := by
    rw [← Nat.succ_le_iff,Nat.le_div_iff_mul_le hok.2.1,Nat.succ_mul]
  have hcell := Nat.lt_div_mul_add (a := p % hblkSize) hok.2.1
  have hpage : p / hblkSize * hblkSize = b.start := by
    have := Nat.div_add_mod' p hblkSize
    omega
  have hle : b.sz ≤ hblkSize := by
    unfold maxObjBytes hblkSize at *
    omega
  simp only [base,hb,Option.bind_some,hfirst,if_true,hbase,hpage,hlast]
  rw [cellBase,if_neg hsmall]
  split <;> split <;> first | rfl | omega

theorem base_of_large (hb : t.blockAt p = some b) (hlarge : maxObjBytes < b.sz) :
    base t p = if p < b.start + b.sz then some b.start else none := by
  obtain ⟨hmem,hin⟩ := t.blockAt_some hb
  obtain ⟨hstart,-,hgran,-⟩ := (t.ok b hmem).1
  have hle := hin.1
  simp only [base,hb,Option.bind_some,Block.onFirstPage,decide_eq_true_eq]
  by_cases hfirst : p / hblkSize = b.start / hblkSize
  · simp only [hfirst,if_true]
    by_cases hcell : p < b.start + b.sz
    · have hmod : p / 8 * 8 % hblkSize % b.sz = p / 8 * 8 % hblkSize := by
        apply Nat.mod_eq_of_lt
        unfold hblkSize at *
        omega
      rw [hmod]
      unfold hblkSize at *
      split <;> simp <;> omega
    · have hmod : p / 8 * 8 % hblkSize % b.sz = p / 8 * 8 % hblkSize - b.sz := by
        rw [Nat.mod_eq_sub_mod,Nat.mod_eq_of_lt] <;>
          unfold maxObjBytes granuleBytes hblkSize at * <;> omega
      rw [hmod]
      unfold maxObjBytes hblkSize at *
      simp [hcell]
      omega
  · have hmod : b.start / 8 * 8 = b.start ∧ b.start % hblkSize % b.sz = 0 := by
      rw [hstart,Nat.zero_mod]
      unfold hblkSize at *
      omega
    simp only [hfirst,if_false,hmod.1,hmod.2,Nat.sub_zero]
    split <;> split <;> first | rfl | omega

theorem cellBase_mem (hok : b.Ok) (ho : o ∈ b.objs) (hle : o ≤ p) (hlt : p < o + b.sz) :
    cellBase b p = o := by
  unfold cellBase
  split
  · rename_i hlarge
    exact ((Block.mem_objs_large hlarge).mp ho).symm
  · rename_i hsmall
    have hbounds := Block.objs_bounds ho
    have hin : b.Contains p := ⟨by omega,by omega⟩
    obtain ⟨hp,-⟩ := Block.displ_of_small hsmall hok hin
    obtain ⟨k,-,rfl⟩ := (Block.mem_objs_small hsmall).mp ho
    have hindex : p % hblkSize / b.sz = k := by
      apply Nat.div_eq_of_lt_le
      · omega
      · rw [Nat.succ_mul]
        omega
    rw [hindex]

theorem base_eq_some_iff :
    base t p = some o ↔ ∃ b ∈ t.blocks, o ∈ b.objs ∧ o ≤ p ∧ p < o + b.sz := by
  constructor
  · intro h
    cases hb : t.blockAt p with
    | none => simp [base,hb] at h
    | some b =>
      obtain ⟨hmem,hin⟩ := t.blockAt_some hb
      have hok := (t.ok b hmem).1
      refine ⟨b,hmem,?_⟩
      by_cases hlarge : maxObjBytes < b.sz
      · rw [base_of_large hb hlarge] at h
        split at h
        · cases h
          exact ⟨(Block.mem_objs_large hlarge).mpr rfl,hin.1,by assumption⟩
        · cases h
      · rw [base_of_small hb hlarge] at h
        obtain ⟨hp,-⟩ := Block.displ_of_small hlarge hok hin
        have hle := Nat.div_mul_le_self (p % hblkSize) b.sz
        have hlt := Nat.lt_div_mul_add (a := p % hblkSize) hok.2.1
        split at h
        · cases h
          rename_i hindex
          rw [cellBase,if_neg hlarge]
          exact ⟨(Block.mem_objs_small hlarge).mpr ⟨_,hindex,rfl⟩,by omega,by omega⟩
        · cases h
  · rintro ⟨b,hmem,ho,hle,hlt⟩
    have hok := (t.ok b hmem).1
    have hbounds := Block.objs_bounds ho
    have hin : b.Contains p := ⟨by omega,by omega⟩
    have hb := t.blockAt_of_mem hmem hin
    have hcell := cellBase_mem hok ho hle hlt
    by_cases hlarge : maxObjBytes < b.sz
    · cases (Block.mem_objs_large hlarge).mp ho
      rw [base_of_large hb hlarge,if_pos hlt]
    · obtain ⟨k,hk,rfl⟩ := (Block.mem_objs_small hlarge).mp ho
      have hindex : p % hblkSize / b.sz = k := by
        rw [cellBase,if_neg hlarge] at hcell
        exact Nat.eq_of_mul_eq_mul_right hok.2.1 (by omega)
      rw [base_of_small hb hlarge,hcell,if_pos (hindex ▸ hk)]

/-- The granule map leads to the cell `GC_base` computes. -/
theorem objBase_eq {check : Bool} (hoffsets : check = true → ∀ d < hblkSize, cfg.validOffsets d = true)
    (hok : b.Ok) (hp : b.Contains p) : objBase cfg b p check = some (cellBase b p) := by
  have hvalid : ∀ d < hblkSize, ¬ (check = true ∧ cfg.validOffsets d = false) := by
    intro d hd h
    rw [hoffsets h.1 d hd] at h
    cases h.2
  cases h : objBase cfg b p check with
  | none =>
    unfold objBase at h
    dsimp only at h
    split at h
    · split at h
      · rename_i hno
        exact absurd hno.2 (hvalid _ (Nat.mod_lt p (by decide)))
      · cases h
    · split at h
      · rename_i hno
        refine absurd hno.2 (hvalid _ ?_)
        have := Nat.mod_le (p % hblkSize / granuleBytes) (b.sz / granuleBytes)
        unfold granuleBytes hblkSize at *
        omega
      · cases h
  | some o =>
    unfold cellBase
    split
    · rename_i hlarge
      simp only [objBase,hlarge,if_true] at h
      split at h <;> cases h
      rfl
    · rename_i hsmall
      rw [objBase_small hok hp hsmall h]

end Cells

section Agreement

variable {H : Heap cfg} {b : Block} {p o : Nat}

theorem Heap.validOffsets (H : Heap cfg) (hmode : cfg.allInteriorPointers = true) :
    ∀ d < hblkSize, cfg.validOffsets d = true := by
  intro d hd
  obtain ⟨registered,heq⟩ := H.offsets
  have hkeep : ∀ (l : List (Fin hblkSize)) (v : Nat → Bool), v d = true →
      l.foldl registerDisplacement v d = true := by
    intro l
    induction l with
    | nil => exact fun v hv => hv
    | cons i l ih => exact fun v hv => ih _ (by simp [registerDisplacement,Function.update_apply,hv])
  rw [heq]
  exact hkeep registered _ (by simp [initializeOffsets,hmode,hd])

theorem msPushContentsHdr_update (obj : Nat) (b : Block) (s : State cfg) :
    (msPushContentsHdr obj b s).marks = Function.update s.marks obj true := by
  unfold msPushContentsHdr
  split
  · rename_i hmark
    rw [← hmark,Function.update_eq_self]
  · unfold msPushObjHdr
    split
    · rfl
    · rw [(msPushObjDescr_stack _ _ _).2.1]
      rfl

section

variable (hmode : cfg.allInteriorPointers = true) (hpages : ∀ b ∈ H.table.blocks, b.ignoreOffPage = false)
  (hmaps : ∀ b ∈ H.table.blocks, H.hasMap b.start = true)
include hmode hpages hmaps

/-- Where every block has its map, the three lookups push the cell of a pointer that lies on the
first page of a block or before the end of its object. -/
theorem hand_eq {hand : Heap cfg → Nat → Option (State cfg)}
    (hmem : hand ∈ handings) (p : Nat) :
    hand H p = some ((H.table.blockAt p).elim H.state fun b =>
      if b.onFirstPage p = true ∨ p < b.start + b.sz then msPushContentsHdr (cellBase b p) b H.state
      else H.state) := by
  have hpush : ∀ {b q check}, b ∈ H.table.blocks → b.Contains q →
      msPushContents H b q check = some (msPushContentsHdr (cellBase b q) b H.state) := by
    intro b q check hb hq
    rw [msPushContents,if_pos (hmaps b hb),objBase_eq (fun _ => H.validOffsets hmode) (H.table.ok b hb).1 hq]
    rfl
  simp only [handings,List.mem_cons,List.not_mem_nil,or_false] at hmem
  cases hb : H.table.blockAt p with
  | none =>
    rcases hmem with rfl | rfl | rfl <;>
      simp [markFromWord,markAndPush,markAndPushStack,headerCacheMiss,hb]
  | some b =>
    obtain ⟨hblock,hin⟩ := H.table.blockAt_some hb
    have hplausible := H.table.plausibleHeapAddr_of_blockAt hb
    have hless : p - b.start < b.sz ↔ p < b.start + b.sz := by
      have := hin.1
      omega
    by_cases hfirst : b.onFirstPage p = true
    · rcases hmem with rfl | rfl | rfl <;>
        simp [markFromWord,markAndPush,markAndPushStack,headerCacheMiss,Option.filter,hb, hplausible,
          hfirst,hpush hblock hin]
    · have hlarge : maxObjBytes < b.sz := by
        by_contra hsmall
        exact hfirst (Block.displ_of_small hsmall (H.table.ok b hblock).1 hin).2
      have hstart := H.table.blockAt_of_mem hblock (Block.contains_start (H.table.ok b hblock).1.2.1)
      have hcell : cellBase b b.start = cellBase b p := by simp [cellBase,hlarge]
      have hpush' : msPushContents H b b.start false = _ :=
        hpush hblock (Block.contains_start (H.table.ok b hblock).1.2.1)
      by_cases hend : p < b.start + b.sz
      · rcases hmem with rfl | rfl | rfl <;>
          simp [markFromWord,markAndPush,markAndPushStack,headerCacheMiss,Option.filter,hb, hplausible,
            hfirst,hless,hend,hmode,hpages b hblock,base_of_large hb hlarge,hstart,hpush',hcell,hpush hblock hin]
      · rcases hmem with rfl | rfl | rfl <;>
          simp [markFromWord,markAndPush,markAndPushStack,headerCacheMiss,Option.filter,hb, hplausible,
            hfirst,hless,hend,hmode,hpages b hblock,base_of_large hb hlarge]

theorem agrees_of_maps (p : Nat) : Agrees H p where
  base_iff _ := base_eq_some_iff
  marks o ho hand hmem := by
    refine ⟨_,hand_eq hmode hpages hmaps hmem p,?_⟩
    obtain ⟨b,hblock,hobj,hle,hlt⟩ := base_eq_some_iff.mp ho
    have hbounds := Block.objs_bounds hobj
    have hin : b.Contains p := ⟨by omega,by omega⟩
    have hcase : b.onFirstPage p = true ∨ p < b.start + b.sz := by
      by_cases hlarge : maxObjBytes < b.sz
      · cases (Block.mem_objs_large hlarge).mp hobj
        exact .inr hlt
      · exact .inl (Block.displ_of_small hlarge (H.table.ok b hblock).1 hin).2
    rw [H.table.blockAt_of_mem hblock hin]
    simp only [Option.elim_some,hcase,if_true]
    rw [msPushContentsHdr_update,cellBase_mem (H.table.ok b hblock).1 hobj hle hlt]
  others hnone hand hmem := by
    refine ⟨_,hand_eq hmode hpages hmaps hmem p,fun a => ?_⟩
    cases hb : H.table.blockAt p with
    | none => exact .inl rfl
    | some b =>
      obtain ⟨hblock,hin⟩ := H.table.blockAt_some hb
      simp only [Option.elim_some]
      split
      · rename_i hcase
        by_cases hlarge : maxObjBytes < b.sz
        · have hend : b.start + b.sz ≤ p := by
            by_contra hlt
            rw [base_of_large hb hlarge,if_pos (by omega)] at hnone
            cases hnone
          rw [msPushContentsHdr_update,cellBase,if_pos hlarge,Function.update_apply]
          split
          · rename_i ha
            exact .inr ⟨b,hblock,hlarge,ha,hcase.resolve_right (by omega),hend⟩
          · exact .inl rfl
        · -- the part behind the last cell has the bit that is always set
          have hindex : p % hblkSize / b.sz = hblkSize / b.sz := by
            rw [base_of_small hb hlarge] at hnone
            have hle : p % hblkSize / b.sz ≤ hblkSize / b.sz :=
              Nat.div_le_div_right (Nat.mod_lt p (by decide)).le
            split at hnone
            · cases hnone
            · omega
          have hfinal : cellBase b p = b.finalMark := by
            rw [cellBase,if_neg hlarge,hindex,Block.finalMark,if_neg hlarge]
          have hmark : H.state.marks b.finalMark = true := by
            apply H.final b hblock
            have hcell : objBase cfg b p false = some (cellBase b p) :=
              objBase_eq (by simp) (H.table.ok b hblock).1 hin
            rw [← hfinal]
            exact objBase_contains (H.table.ok b hblock).1 hin hcell
          rw [msPushContentsHdr,hfinal,if_pos hmark]
          exact .inl rfl
      · exact .inl rfl

end

/-- A block without its map is one that `GC_base` knows and the marker cannot look into. -/
theorem not_agrees_of_block {b : Block} (hblock : b ∈ H.table.blocks) (hmap : H.hasMap b.start = false) :
    ¬ Agrees H b.start := by
  intro h
  have hok := (H.table.ok b hblock).1
  have hlarge : maxObjBytes < b.sz := by
    rw [(H.failed b hblock hmap).1]
    decide
  have hb := H.table.blockAt_of_mem hblock (Block.contains_start hok.2.1)
  have hbase : base H.table b.start = some b.start := by
    rw [base_of_large hb hlarge,if_pos (by have := hok.2.1; omega)]
  obtain ⟨s',hs,-⟩ := h.marks b.start hbase markAndPush (by simp [handings])
  simp [markAndPush,hb,Block.onFirstPage,msPushContents,hmap] at hs

/-- `GC_base` and the marker agree on every address just where no block lacks its map. -/
theorem agrees_iff (H : Heap cfg) (hmode : cfg.allInteriorPointers = true)
    (hpages : ∀ b ∈ H.table.blocks, b.ignoreOffPage = false) :
    (∀ p, Agrees H p) ↔ ∀ b ∈ H.table.blocks, H.hasMap b.start = true := by
  constructor
  · intro h b hblock
    by_contra hno
    exact not_agrees_of_block hblock (by simpa using hno) (h b.start)
  · exact fun hmaps p => agrees_of_maps hmode hpages hmaps p

end Agreement

section Page

def interiorConfig : Config :=
  { plainConfig 0 (3 * hblkSize) with
    allInteriorPointers := true
    validOffsets := initializeOffsets true }

def failedBlock : Block := ⟨hblkSize, hblkSize, 0, 1, false, false, .words⟩

/-- A page of 85 objects and a rest of 16 bytes, where the final mark is. -/
def smallBlock : Block := ⟨2 * hblkSize, 48, 48, 1, false, false, .words⟩

def pageTable : BlockTable interiorConfig where
  blocks := [failedBlock, smallBlock]
  ok := by decide
  sorted := by decide

def pageHeap (hasMap : Bool) : Heap interiorConfig where
  state :=
    { world := ⟨pageTable, fun _ => 0, [], [], fun _ => false, fun _ => false⟩
      marks := fun a => a == smallBlock.finalMark
      nMarks := fun _ => 0
      markStack := .resized 4096 le_rfl
      markStackTooSmall := false
      markState := .none
      scanPtr := 0
      objectsAreMarked := false }
  hasMap := fun start => start != failedBlock.start || hasMap
  final := by decide
  failed := by cases hasMap <;> decide
  offsets := ⟨[], rfl⟩

theorem agrees_iff_page : (∀ p, Agrees (pageHeap true) p) ∧
    (∀ b ∈ (pageHeap true).table.blocks, b.ignoreOffPage = false) :=
  ⟨(agrees_iff (pageHeap true) rfl (by decide)).mpr (by decide),by decide⟩

theorem base_null_map : base (pageHeap false).table hblkSize = some hblkSize ∧
    markAndPush (pageHeap false) hblkSize = none ∧ ¬ Agrees (pageHeap false) hblkSize :=
  ⟨by decide,by decide,not_agrees_of_block (b := failedBlock) List.mem_cons_self rfl⟩

end Page

end GcUtil.Mark.BaseLookup
