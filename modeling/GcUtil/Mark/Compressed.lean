import GcUtil.Library.SetBits

/-! Compressed bitmap descriptors and the three loops that read an object through one: the
two of the marker, for bitmaps of one word and of several, and the one of finalization that
ignores pointers into the object itself. A slot holds the lower half of a pointer, and the
object's own address gives the upper half. -/
namespace GcUtil.Mark.Compressed
open Library.SetBits List

section Model

/-- `struct GC_compressed_bitmap_descr`, without the kind. -/
structure CompressedBitmapDescr where
  objectSize : Nat
  slots : Nat
  taggedSlot : Nat
  tagMask : BitVec 32
  bits : Nat → BitVec 64

def getBit (bits : Nat → BitVec 64) (i : Nat) : Bool := (bits (i / 64)).getLsbD (i % 64)

def bitmapWords (slots : Nat) : Nat := slots / 64 + if slots % 64 ≠ 0 then 1 else 0

/-- `GC_make_compressed_bitmap_descriptor_inner`. `NULL` is `none`, `memory` what the memory
allocated for the descriptor held, or `none` if there is none. -/
def makeCompressedBitmapDescriptorInner (memory : Option (Nat → BitVec 64)) (objectSize : Nat)
    (bitmap : Option (Nat → BitVec 64)) (slots taggedSlot tagMask : Nat) : Option CompressedBitmapDescr :=
  if objectSize = 0 ∨ objectSize / 4 < slots ∨ (slots ≠ 0 ∧ bitmap = none) ∨ 2 ^ 32 - 1 < tagMask ∨
      (tagMask ≠ 0 ∧ (slots ≤ taggedSlot ∨ bitmap.all fun bits => !getBit bits taggedSlot)) then none
  else if (2 ^ 64 - 1 - 32) / 8 < bitmapWords slots then none
  else memory.map fun old =>
    { objectSize := objectSize
      slots := slots
      taggedSlot := taggedSlot
      tagMask := BitVec.ofNat 32 tagMask
      bits := fun i => if i < bitmapWords slots then (bitmap.getD old) i else old i }

variable (load : Nat → BitVec 32) (p : Nat) (d : CompressedBitmapDescr)

/-- The loop of `GC_mark_from` for a bitmap of at most one word. -/
def singleWordScan : List (Nat × Nat) :=
  if d.slots = 0 then []
  else
    let upper := p / 2 ^ 32 * 2 ^ 32
    let bits := d.bits 0 &&& ~~~(BitVec.allOnes 64 <<< (d.slots - 1) <<< 1)
    (setBits 64 64 bits.toNat).filterMap fun slot =>
      let low := load (p + slot * 4)
      let low := if slot = d.taggedSlot then low &&& ~~~d.tagMask else low
      if low = 0 ∨ low &&& 1 ≠ 0 then none else some (slot, upper ||| low.toNat)

/-- `GC_mark_compressed_bitmap_multi`; a slot past the end ends the loop over its word. -/
def markCompressedBitmapMulti : List (Nat × Nat) :=
  let upper := p / 2 ^ 32 * 2 ^ 32
  (List.range (bitmapWords d.slots)).flatMap fun wordIndex =>
    (((setBits 64 64 (d.bits wordIndex).toNat).map (wordIndex * 64 + ·)).takeWhile (· < d.slots)).filterMap
      fun slot =>
        let low := load (p + slot * 4)
        let low := if slot = d.taggedSlot then low &&& ~~~d.tagMask else low
        if low = 0 ∨ low &&& 1 ≠ 0 then none else some (slot, upper ||| low.toNat)

/-- `GC_mark_from` on an entry for an object with a compressed bitmap. -/
def compressedScan : List (Nat × Nat) :=
  if d.slots = 0 then [] else if 64 < d.slots then markCompressedBitmapMulti load p d else singleWordScan load p d

/-- `GC_ignore_self_finalize_mark_proc` for an object of `hbSz` bytes with a compressed
bitmap. -/
def ignoreSelfScan (hbSz : Nat) : List (Nat × Nat) :=
  let targetLimit := p + hbSz - 1
  let upper := p / 2 ^ 32 * 2 ^ 32
  (List.range d.slots).filterMap fun slot =>
    if !getBit d.bits slot then none
    else
      let low := load (p + slot * 4)
      let low := if slot = d.taggedSlot then low &&& ~~~d.tagMask else low
      if low = 0 ∨ low &&& 1 ≠ 0 then none
      else
        let q := upper ||| low.toNat
        if q < p ∨ targetLimit < q then some (slot, q) else none

/-- The pairs to be considered: a slot at a set bit whose word is, without the tag, the lower
half of a pointer, that is not null and even. -/
def Considers (x : Nat × Nat) : Prop :=
  let low := if x.1 = d.taggedSlot then load (p + 4 * x.1) &&& ~~~d.tagMask else load (p + 4 * x.1)
  x.1 < d.slots ∧ getBit d.bits x.1 = true ∧ low.toNat ≠ 0 ∧ low.toNat % 2 = 0 ∧
    x.2 = p / 2 ^ 32 * 2 ^ 32 + low.toNat

end Model

section Agreement

variable {load : Nat → BitVec 32} {p : Nat} {d : CompressedBitmapDescr}

def lowHalf (load : Nat → BitVec 32) (p : Nat) (d : CompressedBitmapDescr) (slot : Nat) : BitVec 32 :=
  if slot = d.taggedSlot then load (p + slot * 4) &&& ~~~d.tagMask else load (p + slot * 4)

def pairAt (load : Nat → BitVec 32) (p : Nat) (d : CompressedBitmapDescr) (slot : Nat) : Option (Nat × Nat) :=
  let low := lowHalf load p d slot
  if low = 0 ∨ low &&& 1 ≠ 0 then none else some (slot, p / 2 ^ 32 * 2 ^ 32 ||| low.toNat)

def considered (load : Nat → BitVec 32) (p : Nat) (d : CompressedBitmapDescr) : List (Nat × Nat) :=
  ((List.range d.slots).filter (getBit d.bits)).filterMap (pairAt load p d)

theorem setBits_word (w : BitVec 64) :
    setBits 64 64 w.toNat = (List.range 64).filter fun i => w.getLsbD i :=
  setBits_eq w.isLt (le_refl 64)

theorem filter_lt_range {keep : Nat → Bool} {m n : Nat} (h : m ≤ n) :
    (List.range n).filter (fun i => decide (i < m) && keep i) = (List.range m).filter keep := by
  obtain ⟨k,rfl⟩ := Nat.exists_eq_add_of_le h
  rw [range_add,filter_append]
  have hlow : (List.range m).filter (fun i => decide (i < m) && keep i) = (List.range m).filter keep := by
    apply filter_congr
    intro i hi
    simp [mem_range.mp hi]
  have hhigh : ((List.range k).map (m + ·)).filter (fun i => decide (i < m) && keep i) = [] := by
    rw [filter_eq_nil_iff]
    intro i hi
    obtain ⟨j,_,rfl⟩ := mem_map.mp hi
    simp
  rw [hlow,hhigh,append_nil]

theorem getLsbD_mask {slots i : Nat} (hslots : 0 < slots) (hi : i < 64) :
    (~~~(BitVec.allOnes 64 <<< (slots - 1) <<< 1)).getLsbD i = decide (i < slots) := by
  simp only [BitVec.getLsbD_not,BitVec.getLsbD_shiftLeft,BitVec.getLsbD_allOnes,hi,decide_true,Bool.true_and]
  rcases Nat.lt_or_ge i slots with hlt | hge
  · by_cases hzero : i < 1
    · simp [hzero,hlt]
    · have : i - 1 < slots - 1 := by omega
      simp [this,hlt]
  · have h1 : ¬ i < 1 := by omega
    have h2 : ¬ i - 1 < slots - 1 := by omega
    have h3 : i - 1 < 64 := by omega
    have h4 : i - 1 - (slots - 1) < 64 := by omega
    simp [h1,h2,h3,h4,hge]

theorem singleWordScan_eq (h : d.slots ≤ 64) : singleWordScan load p d = considered load p d := by
  unfold singleWordScan considered
  split
  · rename_i hzero
    simp [hzero]
  · rename_i hslots
    change (setBits 64 64 _).filterMap (pairAt load p d) = _
    rw [setBits_word,← filter_lt_range h]
    congr 1
    apply filter_congr
    intro i hi
    have hi := mem_range.mp hi
    rw [BitVec.getLsbD_and,getLsbD_mask (by omega) hi,getBit,Nat.div_eq_of_lt hi,Nat.mod_eq_of_lt hi,
      Bool.and_comm]

theorem takeWhile_eq_filter {l : List Nat} (n : Nat) (h : l.Pairwise (· < ·)) :
    l.takeWhile (fun i => decide (i < n)) = l.filter fun i => decide (i < n) := by
  induction l with
  | nil => rfl
  | cons i l ih =>
    obtain ⟨hlater,htail⟩ := pairwise_cons.mp h
    by_cases hi : i < n
    · rw [takeWhile_cons_of_pos (by simpa using hi),filter_cons_of_pos (by simpa using hi),ih htail]
    · rw [takeWhile_cons_of_neg (by simpa using hi),filter_cons_of_neg (by simpa using hi)]
      symm
      rw [filter_eq_nil_iff]
      intro j hj
      have := hlater j hj
      simp
      omega

theorem flatMap_setBits (bits : Nat → BitVec 64) (n : Nat) :
    (List.range n).flatMap (fun k => (setBits 64 64 (bits k).toNat).map (k * 64 + ·)) =
      (List.range (n * 64)).filter (getBit bits) := by
  induction n with
  | zero => rfl
  | succ n ih =>
    rw [range_succ,flatMap_append,ih,Nat.succ_mul,range_add,filter_append]
    congr 1
    rw [flatMap_singleton,setBits_word,filter_map]
    congr 1
    apply filter_congr
    intro i hi
    have hi := mem_range.mp hi
    rw [Function.comp_apply,getBit,show (n * 64 + i) / 64 = n by omega,show (n * 64 + i) % 64 = i by omega]

theorem markCompressedBitmapMulti_eq : markCompressedBitmapMulti load p d = considered load p d := by
  have hsorted : ∀ k, ((setBits 64 64 (d.bits k).toNat).map (k * 64 + ·)).Pairwise (· < ·) := by
    intro k
    rw [setBits_word,pairwise_map]
    exact (pairwise_lt_range.filter _).imp fun hlt => by omega
  have hwords : d.slots ≤ bitmapWords d.slots * 64 := by
    unfold bitmapWords
    split <;> omega
  unfold considered
  change (List.range (bitmapWords d.slots)).flatMap (fun k => (((setBits 64 64 (d.bits k).toNat).map
    (k * 64 + ·)).takeWhile (· < d.slots)).filterMap (pairAt load p d)) = _
  simp only [takeWhile_eq_filter _ (hsorted _)]
  rw [← filterMap_flatMap,← filter_flatMap,flatMap_setBits,filter_filter,filter_lt_range hwords]

theorem compressedScan_eq : compressedScan load p d = considered load p d := by
  unfold compressedScan
  split
  · rename_i hzero
    simp [considered,hzero]
  · split
    · exact markCompressedBitmapMulti_eq
    · exact singleWordScan_eq (by omega)

theorem ignoreSelfScan_eq (hbSz : Nat) : ignoreSelfScan load p d hbSz =
    (considered load p d).filter fun x => decide (x.2 < p ∨ p + hbSz - 1 < x.2) := by
  unfold ignoreSelfScan considered
  rw [filter_filterMap,filterMap_filter]
  dsimp only
  congr 1
  funext slot
  unfold pairAt lowHalf
  dsimp only
  generalize (if slot = d.taggedSlot then load (p + slot * 4) &&& ~~~d.tagMask else load (p + slot * 4)) = low
  cases getBit d.bits slot with
  | false => rfl
  | true =>
    rw [if_neg (by decide),if_pos rfl]
    split
    · rfl
    · rw [Option.filter_some]
      simp only [decide_eq_true_eq]

theorem pairAt_eq_some {slot slot' q : Nat} : pairAt load p d slot = some (slot', q) ↔
    slot = slot' ∧ (lowHalf load p d slot).toNat ≠ 0 ∧ (lowHalf load p d slot).toNat % 2 = 0 ∧
      q = p / 2 ^ 32 * 2 ^ 32 + (lowHalf load p d slot).toNat := by
  unfold pairAt
  generalize lowHalf load p d slot = low
  have hzero : low = 0 ↔ low.toNat = 0 := BitVec.toNat_inj.symm
  have heven : low &&& 1 = 0 ↔ low.toNat % 2 = 0 := by
    rw [← BitVec.toNat_inj,BitVec.toNat_and,← Nat.and_one_is_mod]
    rfl
  have hor : p / 2 ^ 32 * 2 ^ 32 ||| low.toNat = p / 2 ^ 32 * 2 ^ 32 + low.toNat := by
    rw [Nat.mul_comm (p / 2 ^ 32),Nat.two_pow_add_eq_or_of_lt low.isLt]
  dsimp only
  rw [Option.ite_none_left_eq_some,not_or,not_not,heven,hzero,hor,Option.some.injEq,Prod.mk.injEq,
    eq_comm (a := q)]
  tauto

theorem mem_considered {x : Nat × Nat} : x ∈ considered load p d ↔ Considers load p d x := by
  obtain ⟨slot,q⟩ := x
  unfold considered Considers
  rw [mem_filterMap,Nat.mul_comm 4]
  constructor
  · rintro ⟨i,hi,hpair⟩
    obtain ⟨rfl,hlow⟩ := pairAt_eq_some.mp hpair
    obtain ⟨hrange,hbit⟩ := mem_filter.mp hi
    exact ⟨mem_range.mp hrange,hbit,hlow⟩
  · rintro ⟨hlt,hbit,hlow⟩
    exact ⟨slot,mem_filter.mpr ⟨mem_range.mpr hlt,hbit⟩,pairAt_eq_some.mpr ⟨rfl,hlow⟩⟩

theorem considered_sorted : (considered load p d).Pairwise fun x y => x.1 < y.1 := by
  refine (pairwise_lt_range.filter _).filterMap _ fun i j hlt x hx y hy => ?_
  obtain ⟨rfl,-⟩ := pairAt_eq_some.mp hx
  obtain ⟨rfl,-⟩ := pairAt_eq_some.mp hy
  exact hlt

theorem makeCompressedBitmapDescriptorInner_slots {memory bitmap : Option (Nat → BitVec 64)}
    {objectSize slots taggedSlot tagMask : Nat}
    (h : makeCompressedBitmapDescriptorInner memory objectSize bitmap slots taggedSlot tagMask = some d) :
    d.objectSize = objectSize ∧ d.slots = slots ∧ d.slots * 4 ≤ objectSize ∧
      ∀ bits, bitmap = some bits → ∀ i < slots, getBit d.bits i = getBit bits i := by
  unfold makeCompressedBitmapDescriptorInner at h
  split at h
  · cases h
  · rename_i hok
    split at h
    · cases h
    · obtain ⟨old,_,rfl⟩ := Option.map_eq_some_iff.mp h
      refine ⟨rfl,rfl,?_,?_⟩
      · dsimp only
        omega
      · rintro bits rfl i hi
        have hword : i / 64 < bitmapWords slots := by
          unfold bitmapWords
          split <;> omega
        simp [getBit,hword]

/-- The scans of an object through a descriptor consider the same pairs, each of them once and
all of them in the object; finalization leaves out pointers into the object. -/
theorem compressedScans_agree (memory bitmap : Option (Nat → BitVec 64))
    (objectSize slots taggedSlot tagMask : Nat) (d : CompressedBitmapDescr)
    (h : makeCompressedBitmapDescriptorInner memory objectSize bitmap slots taggedSlot tagMask = some d)
    (load : Nat → BitVec 32) (p hbSz : Nat) :
    ∃ pairs : List (Nat × Nat), pairs.Pairwise (fun x y => x.1 < y.1) ∧
      (∀ x, x ∈ pairs ↔ Considers load p d x) ∧ (∀ x ∈ pairs, x.1 * 4 + 4 ≤ objectSize) ∧
      compressedScan load p d = pairs ∧ (d.slots ≤ 64 → singleWordScan load p d = pairs) ∧
      markCompressedBitmapMulti load p d = pairs ∧
      ignoreSelfScan load p d hbSz = pairs.filter fun x => decide (x.2 < p ∨ p + hbSz - 1 < x.2) := by
  obtain ⟨_,_,hroom,_⟩ := makeCompressedBitmapDescriptorInner_slots h
  refine ⟨considered load p d,considered_sorted,fun _ => mem_considered,fun x hx => ?_,compressedScan_eq,
    singleWordScan_eq,markCompressedBitmapMulti_eq,ignoreSelfScan_eq hbSz⟩
  have hlt := (mem_considered.mp hx).1
  omega

def twoWords : CompressedBitmapDescr := ⟨288, 70, 69, 6, fun i => if i = 0 then 1 else 32⟩

theorem compressedScans_agree_twoWords :
    makeCompressedBitmapDescriptorInner (some fun i => if i = 0 then 1 else 32) 288
        (some fun i => if i = 0 then 1 else 32) 70 69 6 = some twoWords ∧
      ∃ pairs : List (Nat × Nat), pairs.Pairwise (fun x y => x.1 < y.1) ∧
        (∀ x, x ∈ pairs ↔ Considers (fun a => if a = 2 ^ 32 then 4096 else 38) (2 ^ 32) twoWords x) ∧
        (69, 2 ^ 32 + 32) ∈ pairs ∧
        ignoreSelfScan (fun a => if a = 2 ^ 32 then 4096 else 38) (2 ^ 32) twoWords 288 =
          pairs.filter fun x => decide (x.2 < 2 ^ 32 ∨ 2 ^ 32 + 288 - 1 < x.2) := by
  have hmake : makeCompressedBitmapDescriptorInner (some fun i => if i = 0 then 1 else 32) 288
      (some fun i => if i = 0 then 1 else 32) 70 69 6 = some twoWords := by
    rw [makeCompressedBitmapDescriptorInner,if_neg (by decide),if_neg (by decide)]
    simp [twoWords]
  obtain ⟨pairs,hsorted,hmem,-,-,-,-,hself⟩ := compressedScans_agree _ _ _ _ _ _ _ hmake
    (fun a => if a = 2 ^ 32 then 4096 else 38) (2 ^ 32) 288
  exact ⟨hmake,pairs,hsorted,hmem,(hmem _).mpr (by unfold Considers; decide),hself⟩

end Agreement

end GcUtil.Mark.Compressed
