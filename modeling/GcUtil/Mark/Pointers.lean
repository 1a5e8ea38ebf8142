import GcUtil.Basic
import GcUtil.Mark.Compressed

/-! The block headers the marker reads and the tests it makes on a candidate pointer.
Mark bits are one for each granule, and a block is named by its address. -/
namespace GcUtil.Mark.Pointers
open Basic Compressed

/-- What the collector is set up with. Type descriptors lie outside the memory the model
changes; `typeDescr p d` is the word the indirect descriptor `d` finds through the type
descriptor at `p`. A mark procedure is given the first `procWords` words of its object and
answers with the pointers it pushes. In the build with compressed pointers `cageBase` is
`GC_cage_base`, and `bitmapDescr d` is the bitmap descriptor at `d`. -/
structure Config where
  allInteriorPointers : Bool
  validOffsets : Nat → Bool
  leastPlausibleHeapAddr : Nat
  greatestPlausibleHeapAddr : Nat
  initialMarkStackSize : Nat
  eight_le_initial : 8 ≤ initialMarkStackSize
  typeDescr : Nat → Nat → Nat
  procWords : Nat → Nat
  markProc : Nat → List Nat → List Nat
  compressed : Bool
  cageBase : Nat
  bitmapDescr : Nat → CompressedBitmapDescr

/-- A heap between two addresses, without displacements, descriptors found through types, mark
procedures or compressed pointers. -/
def plainConfig (least greatest : Nat) : Config where
  allInteriorPointers := false
  validOffsets d := decide (d = 0)
  leastPlausibleHeapAddr := least
  greatestPlausibleHeapAddr := greatest
  initialMarkStackSize := 4096
  eight_le_initial := by decide
  typeDescr _ _ := 0
  procWords _ := 0
  markProc _ _ := []
  compressed := false
  cageBase := 0
  bitmapDescr _ := ⟨0, 0, 0, 0, fun _ => 0⟩

/-- What `COMPRESSED_FORMAT_MASK` selects: `COMPRESSED_BITMAP`, `COMPRESSED_POINTERS` or
neither. -/
inductive Format where
  | words
  | bitmap
  | pointers
deriving DecidableEq, Repr

def Format.tag : Format → Nat
  | .words => 0
  | .bitmap => 1
  | .pointers => 2

/-- The part of `hdr` that the marker reads, for a block in use. -/
structure Block where
  start : Nat
  sz : Nat
  descr : Nat
  objKind : Nat
  ignoreOffPage : Bool
  markUnconditionally : Bool
  format : Format
deriving DecidableEq, Repr

namespace Block

def bytes (b : Block) : Nat := objSzToBlocks b.sz * hblkSize

def Contains (b : Block) (a : Nat) : Prop := b.start ≤ a ∧ a < b.start + b.bytes

instance (b : Block) (a : Nat) : Decidable (b.Contains a) := inferInstanceAs (Decidable (_ ∧ _))

/-- What the allocator sets up: blocks start at hblks, sizes are whole granules, and
`AUNCOLLECTABLE` objects are pointer-free. -/
def Ok (b : Block) : Prop :=
  b.start % hblkSize = 0 ∧ 0 < b.sz ∧ b.sz % granuleBytes = 0 ∧
    (b.objKind = auncollectable → b.descr = 0)

instance (b : Block) : Decidable b.Ok := inferInstanceAs (Decidable (_ ∧ _))

def entryStart (b : Block) (obj : Nat) : Nat := obj ||| b.format.tag

def objs (b : Block) : List Nat :=
  if maxObjBytes < b.sz then [b.start]
  else (List.range (hblkSize / b.sz)).map fun k => b.start + k * b.sz

/-- The address whose mark bit is `FINAL_MARK_BIT`, which is always set: there a block of
small objects has a part left that is too short for one. For the other blocks the bit is one
past those of the block, and so is the address. -/
def finalMark (b : Block) : Nat :=
  if maxObjBytes < b.sz then b.start + b.bytes else b.start + hblkSize / b.sz * b.sz

def onFirstPage (b : Block) (q : Nat) : Bool := decide (q / hblkSize = b.start / hblkSize)

def Apart (b c : Block) : Prop :=
  b.start + b.bytes ≤ c.start ∨ c.start + c.bytes ≤ b.start

instance : Std.Symm Apart := ⟨fun _ _ h => h.symm⟩

end Block

structure BlockTable (cfg : Config) where
  blocks : List Block
  ok : ∀ b ∈ blocks, b.Ok ∧ cfg.leastPlausibleHeapAddr < b.start ∧
    b.start + b.bytes ≤ cfg.greatestPlausibleHeapAddr ∧ (b.format ≠ .words → cfg.compressed = true)
  sorted : blocks.Pairwise fun b c => b.start + b.bytes ≤ c.start

section Recognition

variable (cfg : Config)

def plausibleHeapAddr (q : Nat) : Bool :=
  decide (cfg.leastPlausibleHeapAddr < q) && decide (q < cfg.greatestPlausibleHeapAddr)

variable {cfg} (t : BlockTable cfg) (q : Nat)

def BlockTable.blockAt : Option Block :=
  t.blocks.find? fun b => decide (b.Contains q)

/-- `GC_header_cache_miss`: the header `PUSH_CONTENTS` finds for a candidate pointer. -/
def headerCacheMiss : Option Block :=
  (t.blockAt q).filter fun b => b.onFirstPage q ||
    (cfg.allInteriorPointers && !b.ignoreOffPage && decide (q - b.start < b.sz))

/-- The header `GC_mark_and_push` finds; past the first page it asks `GC_base`. -/
def markAndPushHdr : Option Block :=
  (t.blockAt q).filter fun b => b.onFirstPage q ||
    (cfg.allInteriorPointers && decide (q - b.start < b.sz))

def markAndPushStackHdr : Option Block :=
  (t.blockAt q).filter fun b => b.onFirstPage q || decide (q - b.start < b.sz)

variable (cfg)

/-- The base `GC_ms_push_contents_hdr` computes, or `none` where it black-lists the
pointer. The map entry of a granule is its number modulo the object's granules. -/
def objBase (b : Block) (current : Nat) (doOffsetCheck : Bool) : Option Nat :=
  let displ := current % hblkSize
  if maxObjBytes < b.sz then
    if current - b.start = displ ∧ doOffsetCheck = true ∧ cfg.validOffsets displ = false then none
    else some b.start
  else
    let granOffset := displ / granuleBytes % (b.sz / granuleBytes)
    let byteOffset := displ % granuleBytes
    let objDispl := granOffset * granuleBytes + byteOffset
    if objDispl ≠ 0 ∧ doOffsetCheck = true ∧ cfg.validOffsets objDispl = false then none
    else some (current - objDispl)

variable {cfg}

/-- The block and object of a candidate pointer, as `PUSH_CONTENTS` sees it. -/
def heapTarget : Option (Block × Nat) :=
  (headerCacheMiss t q).bind fun b => (objBase cfg b q true).map fun o => (b, o)

def clientTarget : Option (Block × Nat) :=
  (markAndPushHdr t q).bind fun b => (objBase cfg b q true).map fun o => (b, o)

def stackTarget : Option (Block × Nat) :=
  (markAndPushStackHdr t q).bind fun b => (objBase cfg b q false).map fun o => (b, o)

end Recognition

section Lookup

variable {cfg : Config} {t : BlockTable cfg} {b c : Block} {q o : Nat}

theorem Block.bytes_of_small (h : ¬ maxObjBytes < b.sz) (hpos : 0 < b.sz) : b.bytes = hblkSize := by
  unfold Block.bytes objSzToBlocks divHblksz maxObjBytes hblkSize at *
  omega

theorem Block.sz_le_bytes : b.sz ≤ b.bytes := by
  unfold Block.bytes objSzToBlocks divHblksz hblkSize
  omega

theorem Block.contains_start (hpos : 0 < b.sz) : b.Contains b.start := by
  have := b.sz_le_bytes
  constructor <;> omega

theorem BlockTable.apart (hb : b ∈ t.blocks) (hc : c ∈ t.blocks) (hne : b ≠ c) :
    b.Apart c := by
  have hpair : t.blocks.Pairwise Block.Apart := t.sorted.imp .inl
  exact hpair.forall hb hc hne

theorem BlockTable.eq_of_contains (hb : b ∈ t.blocks) (hc : c ∈ t.blocks) (hbq : b.Contains q)
    (hcq : c.Contains q) : b = c := by
  by_contra hne
  have hapart := t.apart hb hc hne
  unfold Block.Apart at hapart
  unfold Block.Contains at hbq hcq
  omega

theorem BlockTable.blockAt_some (h : t.blockAt q = some b) : b ∈ t.blocks ∧ b.Contains q := by
  refine ⟨List.mem_of_find?_eq_some h,?_⟩
  simpa using List.find?_some h

theorem BlockTable.blockAt_of_mem (hb : b ∈ t.blocks) (hq : b.Contains q) : t.blockAt q = some b := by
  cases h : t.blockAt q with
  | none =>
    have hno := List.find?_eq_none.mp h b hb
    simp [hq] at hno
  | some c =>
    have hc := t.blockAt_some h
    rw [t.eq_of_contains hc.1 hb hc.2 hq]

theorem BlockTable.plausibleHeapAddr_of_blockAt (h : t.blockAt q = some b) :
    plausibleHeapAddr cfg q = true := by
  have hb := t.blockAt_some h
  have hok := t.ok b hb.1
  have hq := hb.2
  unfold Block.Contains at hq
  simp only [plausibleHeapAddr,Bool.and_eq_true,decide_eq_true_eq]
  omega

theorem Block.mem_objs_large (h : maxObjBytes < b.sz) : o ∈ b.objs ↔ o = b.start := by
  simp [Block.objs,h]

theorem Block.mem_objs_small (h : ¬ maxObjBytes < b.sz) :
    o ∈ b.objs ↔ ∃ k, k < hblkSize / b.sz ∧ b.start + k * b.sz = o := by
  simp [Block.objs,h]

theorem Block.objs_bounds (ho : o ∈ b.objs) : b.start ≤ o ∧ o + b.sz ≤ b.start + b.bytes := by
  by_cases hlarge : maxObjBytes < b.sz
  · rw [Block.mem_objs_large hlarge] at ho
    have := b.sz_le_bytes
    omega
  · obtain ⟨k,hk,rfl⟩ := (Block.mem_objs_small hlarge).mp ho
    have hpos : 0 < b.sz := by
      rcases Nat.eq_zero_or_pos b.sz with hz | hz
      · simp [hz] at hk
      · exact hz
    have hmul : (k + 1) * b.sz ≤ hblkSize := by
      have := Nat.mul_le_mul_right b.sz (Nat.succ_le_of_lt hk)
      exact this.trans (Nat.div_mul_le_self _ _)
    rw [Block.bytes_of_small hlarge hpos]
    rw [Nat.add_mul] at hmul
    omega

theorem Block.contains_of_mem_objs (hpos : 0 < b.sz) (ho : o ∈ b.objs) : b.Contains o := by
  have := Block.objs_bounds ho
  constructor <;> omega

theorem Block.granule_dvd_obj (hok : b.Ok) (ho : o ∈ b.objs) : granuleBytes ∣ o := by
  have hstart : granuleBytes ∣ b.start := (by decide : granuleBytes ∣ hblkSize).trans (Nat.dvd_of_mod_eq_zero hok.1)
  by_cases hlarge : maxObjBytes < b.sz
  · rw [(Block.mem_objs_large hlarge).mp ho]
    exact hstart
  · obtain ⟨k,-,rfl⟩ := (Block.mem_objs_small hlarge).mp ho
    exact hstart.add ((Nat.dvd_of_mod_eq_zero hok.2.2.1).mul_left k)

theorem objBase_small {check : Bool} (hok : b.Ok) (hq : b.Contains q) (hsmall : ¬ maxObjBytes < b.sz)
    (h : objBase cfg b q check = some o) : o = b.start + q % hblkSize / b.sz * b.sz := by
  simp only [objBase,hsmall,if_false] at h
  split at h
  · cases h
  · cases h
    obtain ⟨hstart,hpos,hgran,-⟩ := hok
    obtain ⟨g,hg⟩ := Nat.dvd_of_mod_eq_zero hgran
    have hdiv : b.sz / granuleBytes = g := by
      rw [hg]
      exact Nat.mul_div_cancel_left g (by decide)
    have hsplit := Nat.div_add_mod (q % hblkSize / granuleBytes) g
    have hmul : q % hblkSize / b.sz * b.sz = 16 * (g * (q % hblkSize / granuleBytes / g)) := by
      rw [hg,← Nat.div_div_eq_div_mul]
      unfold granuleBytes
      ring
    have hq' := hq.2
    rw [Block.bytes_of_small hsmall hpos] at hq'
    have hq := hq.1
    rw [hdiv,hmul]
    unfold granuleBytes hblkSize at *
    omega

theorem objBase_contains {check : Bool} (hok : b.Ok) (hq : b.Contains q)
    (h : objBase cfg b q check = some o) : b.Contains o := by
  by_cases hlarge : maxObjBytes < b.sz
  · simp only [objBase,hlarge,if_true] at h
    split at h <;> cases h
    exact Block.contains_start hok.2.1
  · rw [objBase_small hok hq hlarge h]
    have hle := Nat.div_mul_le_self (q % hblkSize) b.sz
    have hlt := Nat.mod_lt q (by decide : 0 < hblkSize)
    unfold Block.Contains
    rw [Block.bytes_of_small hlarge hok.2.1]
    omega

end Lookup

section Targets

variable {cfg : Config} {t : BlockTable cfg} {b : Block} {q o : Nat}

theorem target_blockAt {find : Option Block} {check : Bool} {keep : Block → Bool}
    (hfind : find = (t.blockAt q).filter keep)
    (h : (find.bind fun b => (objBase cfg b q check).map fun o => (b, o)) = some (b, o)) :
    t.blockAt q = some b ∧ t.blockAt o = some b := by
  simp only [hfind,Option.bind_eq_some_iff,Option.filter_eq_some_iff,Option.map_eq_some_iff,
    Prod.mk.injEq] at h
  obtain ⟨c,⟨hc,-⟩,p,hp,rfl,rfl⟩ := h
  have hmem := t.blockAt_some hc
  exact ⟨hc,t.blockAt_of_mem hmem.1 (objBase_contains (t.ok c hmem.1).1 hmem.2 hp)⟩

theorem heapTarget_blockAt (h : heapTarget t q = some (b, o)) :
    t.blockAt q = some b ∧ t.blockAt o = some b :=
  target_blockAt rfl h

theorem clientTarget_blockAt (h : clientTarget t q = some (b, o)) :
    t.blockAt q = some b ∧ t.blockAt o = some b :=
  target_blockAt rfl h

theorem stackTarget_blockAt (h : stackTarget t q = some (b, o)) :
    t.blockAt q = some b ∧ t.blockAt o = some b :=
  target_blockAt rfl h

/-- `GC_mark_and_push` finds whatever `PUSH_CONTENTS` finds. -/
theorem clientTarget_of_heapTarget (h : heapTarget t q = some (b, o)) :
    clientTarget t q = some (b, o) := by
  simp only [heapTarget,clientTarget,headerCacheMiss,markAndPushHdr,Option.bind_eq_some_iff,
    Option.filter_eq_some_iff,Bool.or_eq_true,Bool.and_eq_true] at h ⊢
  obtain ⟨c,⟨hc,hkeep⟩,hbase⟩ := h
  exact ⟨c,⟨hc,hkeep.imp_right fun hk => ⟨hk.1.1,hk.2⟩⟩,hbase⟩

end Targets

end GcUtil.Mark.Pointers
