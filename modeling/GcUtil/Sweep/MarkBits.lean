import GcUtil.Basic

/-! The mark bits of a block in use and the count kept beside them, in each of the
representations: a byte or a bit for each mark, one mark for each granule or for each
object. -/
namespace GcUtil.Sweep.MarkBits
open Basic List

structure Layout where
  useMarkBytes : Bool
  markBitPerObj : Bool
deriving DecidableEq, Repr

structure Hdr where
  hbSz : Nat
  hbObjKind : Nat
  hasDisclaim : Bool
  hbMarks : Nat → Bool
  hbNMarks : Nat
  hbSz_pos : 0 < hbSz
  granule_dvd : granuleBytes ∣ hbSz

def hblkObjs (sz : Nat) : Nat := hblkSize / sz

def objCount (sz : Nat) : Nat := if sz > maxObjBytes then 1 else hblkObjs sz

section Layout

variable (L : Layout)

def markBitNo (offset sz : Nat) : Nat := if L.markBitPerObj then offset / sz else offset / granuleBytes

def markBitOffset (sz : Nat) : Nat := if L.markBitPerObj then 1 else sz / granuleBytes

/-- `FINAL_MARK_BIT`, with `MARK_BITS_PER_HBLK` marks for a large object. -/
def finalMarkBit (sz : Nat) : Nat :=
  if L.markBitPerObj then (if sz > maxObjBytes then 1 else hblkObjs sz)
  else if sz > maxObjBytes then hblkSize / granuleBytes else hblkObjs sz * sz / granuleBytes

def setMarkBitFromHdr (hd : Hdr) (n : Nat) : Hdr :=
  { hd with hbMarks := fun i => if i = n then true else hd.hbMarks i }

def clearMarkBitFromHdr (hd : Hdr) (n : Nat) : Hdr :=
  { hd with hbMarks := fun i => if i = n then false else hd.hbMarks i }

def incrMarks (hd : Hdr) : Hdr := { hd with hbNMarks := hd.hbNMarks + 1 }

def clearHdrMarks (hd : Hdr) : Hdr :=
  { setMarkBitFromHdr { hd with hbMarks := fun _ => false } (finalMarkBit L hd.hbSz) with hbNMarks := 0 }

/-- The loop over mark bytes sets every mark of an object; the loop over mark words fills the
words below the last one and sets the low bits of that one. -/
def setHdrMarks (hd : Hdr) : Hdr :=
  let nMarks := finalMarkBit L hd.hbSz
  { hd with
    hbMarks := fun i =>
      if L.useMarkBytes then (if i ≤ nMarks ∧ i % markBitOffset L hd.hbSz = 0 then true else hd.hbMarks i)
      else if i / 64 < nMarks / 64 then true
      else if i / 64 = nMarks / 64 then decide (i % 64 ≤ nMarks % 64)
      else hd.hbMarks i
    hbNMarks := if L.markBitPerObj then nMarks else hblkObjs hd.hbSz }

/-- Set a mark and count it unless it is set, as `GC_set_mark_bit`, `GC_set_fl_marks` and the
marker do. -/
def markOnce (hd : Hdr) (bitNo : Nat) : Hdr :=
  if hd.hbMarks bitNo then hd else incrMarks (setMarkBitFromHdr hd bitNo)

/-- Clear a mark and its count if it is set, as `GC_clear_mark_bit` and `GC_clear_fl_marks` do. -/
def unmarkOnce (hd : Hdr) (bitNo : Nat) : Hdr :=
  if hd.hbMarks bitNo then { clearMarkBitFromHdr hd bitNo with hbNMarks := hd.hbNMarks - 1 } else hd

def marked (hd : Hdr) (k : Nat) : Bool := hd.hbMarks (k * markBitOffset L hd.hbSz)

def markedObjs (hd : Hdr) : Nat := (List.range (objCount hd.hbSz)).countP (marked L hd)

def Exact (hd : Hdr) : Prop := hd.hbNMarks = markedObjs L hd

instance (hd : Hdr) : Decidable (Exact L hd) := inferInstanceAs (Decidable (_ = _))

end Layout

section Marks

variable {L : Layout} {hd : Hdr} {k : Nat}

theorem markBitOffset_pos (L : Layout) (hd : Hdr) : 0 < markBitOffset L hd.hbSz := by
  unfold markBitOffset
  split
  · exact Nat.one_pos
  · exact Nat.div_pos (Nat.le_of_dvd hd.hbSz_pos hd.granule_dvd) (by decide)

theorem objCount_small {sz : Nat} (hsmall : sz ≤ maxObjBytes) : objCount sz = hblkObjs sz :=
  if_neg (by omega)

theorem objCount_pos (hd : Hdr) : 0 < objCount hd.hbSz := by
  unfold objCount hblkObjs maxObjBytes
  split
  · exact Nat.one_pos
  · exact Nat.div_pos (by unfold hblkSize at *; omega) hd.hbSz_pos

/-- The mark of an object is the one `MARK_BIT_NO` gives for where it starts. -/
theorem markBitNo_obj (L : Layout) (hd : Hdr) (k : Nat) :
    markBitNo L (k * hd.hbSz) hd.hbSz = k * markBitOffset L hd.hbSz := by
  unfold markBitNo markBitOffset
  split
  · rw [Nat.mul_div_cancel _ hd.hbSz_pos,Nat.mul_one]
  · exact Nat.mul_div_assoc k hd.granule_dvd

theorem mul_markBitOffset_inj {i j : Nat} :
    i * markBitOffset L hd.hbSz = j * markBitOffset L hd.hbSz ↔ i = j :=
  ⟨Nat.eq_of_mul_eq_mul_right (markBitOffset_pos L hd),fun h => by rw [h]⟩

theorem finalMarkBit_small (L : Layout) (hsmall : hd.hbSz ≤ maxObjBytes) :
    finalMarkBit L hd.hbSz = hblkObjs hd.hbSz * markBitOffset L hd.hbSz := by
  unfold finalMarkBit markBitOffset
  split
  · rw [if_neg (by omega),Nat.mul_one]
  · rw [if_neg (by omega)]
    exact Nat.mul_div_assoc _ hd.granule_dvd

theorem mul_markBitOffset_lt_final (hk : k < objCount hd.hbSz) :
    k * markBitOffset L hd.hbSz < finalMarkBit L hd.hbSz := by
  by_cases hsmall : hd.hbSz ≤ maxObjBytes
  · rw [finalMarkBit_small L hsmall]
    rw [objCount_small hsmall] at hk
    exact Nat.mul_lt_mul_of_pos_right hk (markBitOffset_pos L hd)
  · have hzero : k = 0 := by
      unfold objCount at hk
      rw [if_pos (by omega)] at hk
      omega
    subst hzero
    rw [Nat.zero_mul]
    unfold finalMarkBit
    split <;> rw [if_pos (by omega)] <;> decide

theorem countP_range_insert {f : Nat → Bool} {n k : Nat} (hk : k < n) (hf : f k = false) :
    (List.range n).countP (fun i => if i = k then true else f i) = (List.range n).countP f + 1 := by
  induction n with
  | zero => omega
  | succ n ih =>
    rw [range_succ,countP_append,countP_append,countP_singleton,countP_singleton]
    by_cases hlast : k = n
    · subst hlast
      have hbefore : (List.range k).countP (fun i => if i = k then true else f i) = (List.range k).countP f := by
        apply countP_congr
        intro i hi
        rw [if_neg (mem_range.mp hi).ne]
      rw [hbefore,if_pos rfl,hf]
      rfl
    · rw [ih (by omega),if_neg (Ne.symm hlast)]
      omega

@[simp] theorem clearMarkBitFromHdr_hbSz (hd : Hdr) (n : Nat) : (clearMarkBitFromHdr hd n).hbSz = hd.hbSz := rfl
@[simp] theorem setHdrMarks_hbSz (L : Layout) (hd : Hdr) : (setHdrMarks L hd).hbSz = hd.hbSz := rfl

@[simp] theorem markOnce_hbSz (hd : Hdr) (n : Nat) : (markOnce hd n).hbSz = hd.hbSz := by
  unfold markOnce
  split <;> rfl

@[simp] theorem unmarkOnce_hbSz (hd : Hdr) (n : Nat) : (unmarkOnce hd n).hbSz = hd.hbSz := by
  unfold unmarkOnce
  split <;> rfl

@[simp] theorem markOnce_hbObjKind (hd : Hdr) (n : Nat) : (markOnce hd n).hbObjKind = hd.hbObjKind := by
  unfold markOnce
  split <;> rfl

@[simp] theorem unmarkOnce_hbObjKind (hd : Hdr) (n : Nat) : (unmarkOnce hd n).hbObjKind = hd.hbObjKind := by
  unfold unmarkOnce
  split <;> rfl

theorem marked_set (L : Layout) (hd : Hdr) (k i : Nat) :
    marked L (setMarkBitFromHdr hd (k * markBitOffset L hd.hbSz)) i =
      if i = k then true else marked L hd i := by
  simp only [marked,setMarkBitFromHdr,mul_markBitOffset_inj]

theorem marked_clear (L : Layout) (hd : Hdr) (k i : Nat) :
    marked L (clearMarkBitFromHdr hd (k * markBitOffset L hd.hbSz)) i =
      if i = k then false else marked L hd i := by
  simp only [marked,clearMarkBitFromHdr,mul_markBitOffset_inj]

section

variable (hk : k < objCount hd.hbSz)
include hk

theorem markedObjs_set (hclear : marked L hd k = false) :
    markedObjs L (setMarkBitFromHdr hd (k * markBitOffset L hd.hbSz)) = markedObjs L hd + 1 := by
  unfold markedObjs
  rw [← countP_range_insert hk hclear]
  exact countP_congr fun i _ => by rw [marked_set]

theorem markedObjs_clear (hset : marked L hd k = true) :
    markedObjs L (clearMarkBitFromHdr hd (k * markBitOffset L hd.hbSz)) + 1 = markedObjs L hd := by
  have hback : markedObjs L (setMarkBitFromHdr (clearMarkBitFromHdr hd (k * markBitOffset L hd.hbSz))
      (k * markBitOffset L hd.hbSz)) = markedObjs L hd := by
    unfold markedObjs
    apply countP_congr
    intro i _
    have hmarks := marked_set L (clearMarkBitFromHdr hd (k * markBitOffset L hd.hbSz)) k i
    rw [clearMarkBitFromHdr_hbSz] at hmarks
    rw [hmarks,marked_clear]
    split
    · next h => rw [h,hset]
    · rfl
  have hcount := @markedObjs_set L (clearMarkBitFromHdr hd (k * markBitOffset L hd.hbSz)) k hk
    (by rw [marked_clear,if_pos rfl])
  rw [clearMarkBitFromHdr_hbSz] at hcount
  rw [← hback,hcount]

theorem markOnce_exact (h : Exact L hd) :
    Exact L (markOnce hd (k * markBitOffset L hd.hbSz)) := by
  unfold markOnce
  split
  · exact h
  · next hclear =>
    show hd.hbNMarks + 1 = _
    rw [h]
    exact (markedObjs_set hk (Bool.not_eq_true _ ▸ hclear)).symm

theorem unmarkOnce_exact (h : Exact L hd) :
    Exact L (unmarkOnce hd (k * markBitOffset L hd.hbSz)) := by
  unfold unmarkOnce
  split
  · next hset =>
    show hd.hbNMarks - 1 = markedObjs L (clearMarkBitFromHdr hd _)
    rw [h,← markedObjs_clear hk hset]
    rfl
  · exact h

theorem clearHdrMarks_marked : marked L (clearHdrMarks L hd) k = false := by
  have hne := (mul_markBitOffset_lt_final (L := L) hk).ne
  simp only [marked,clearHdrMarks,setMarkBitFromHdr,if_neg hne]

end

theorem clearHdrMarks_exact (L : Layout) (hd : Hdr) : Exact L (clearHdrMarks L hd) := by
  show 0 = markedObjs L (clearHdrMarks L hd)
  symm
  apply countP_eq_zero.mpr
  intro k hk
  have hclear := @clearHdrMarks_marked L hd k (mem_range.mp hk)
  simp [hclear]

theorem setHdrMarks_marked (hk : k < objCount hd.hbSz) : marked L (setHdrMarks L hd) k = true := by
  have hlt := mul_markBitOffset_lt_final (L := L) hk
  simp only [marked,setHdrMarks]
  split
  · rw [if_pos ⟨hlt.le,Nat.mul_mod_left k _⟩]
  · split
    · rfl
    · rw [if_pos (by omega)]
      exact decide_eq_true (by omega)

theorem setHdrMarks_exact (L : Layout) (hsmall : hd.hbSz ≤ maxObjBytes) : Exact L (setHdrMarks L hd) := by
  have hall : markedObjs L (setHdrMarks L hd) = hblkObjs hd.hbSz := by
    unfold markedObjs
    rw [setHdrMarks_hbSz,objCount_small hsmall]
    have hset : ∀ k ∈ List.range (hblkObjs hd.hbSz), marked L (setHdrMarks L hd) k = true := by
      intro k hk
      apply setHdrMarks_marked
      rw [objCount_small hsmall]
      exact mem_range.mp hk
    rw [countP_eq_length.mpr hset,length_range]
  unfold Exact
  rw [hall]
  simp only [setHdrMarks,finalMarkBit,if_neg (show ¬ hd.hbSz > maxObjBytes by omega)]
  split <;> rfl

end Marks

end GcUtil.Sweep.MarkBits
