import GcUtil.Basic

/-! Division by the object size of a block through its inverse, where there is one mark for
each object. `CPP_WORDSZ` and `HBLKSIZE` are parameters. -/
namespace GcUtil.Mark.InvSize

section Model

variable (cppWordsz : Nat)

def largeInvSz : Nat := 2 ^ 16

/-- The loop of `setup_header` where words have 32 bits. -/
def raiseInvSz (lbAdjusted : Nat) : Nat → Nat → Option Nat
  | 0, _ => none
  | fuel + 1, invSz =>
    if invSz * lbAdjusted % 2 ^ 32 > lbAdjusted then raiseInvSz lbAdjusted fuel ((invSz + 1) % 2 ^ 32)
    else some invSz

/-- `hb_inv_sz` as `setup_header` computes it. -/
def hbInvSz (hblkSize fuel lbAdjusted : Nat) : Option Nat :=
  if lbAdjusted > hblkSize / 2 then some largeInvSz
  else if cppWordsz > 32 then
    let invSz := 2 ^ 32 / lbAdjusted % 2 ^ 32
    some (if invSz * lbAdjusted % 2 ^ cppWordsz / 2 ^ 32 = 0 then (invSz + 1) % 2 ^ 32 else invSz)
  else raiseInvSz lbAdjusted fuel (2 ^ 31 / lbAdjusted * 2 % 2 ^ 32)

/-- `gran_displ` and `obj_displ` of `GC_ms_push_contents_hdr`, none for a large object. -/
def objDispl (invSz hbSz displ : Nat) : Option (Nat × Nat) :=
  if invSz = largeInvSz then none
  else
    let lowProd := displ * invSz % 2 ^ 32
    some (displ * invSz / 2 ^ 32,
      if lowProd / 2 ^ 16 ≠ 0 then (lowProd / 2 ^ 16 + 1) * hbSz % 2 ^ cppWordsz / 2 ^ 16 else 0)

end Model

/-- The least number whose product with the size reaches `2 ^ 32`. -/
structure Inverse (sz inv : Nat) : Prop where
  reaches : 2 ^ 32 ≤ inv * sz
  least : inv * sz < 2 ^ 32 + sz

section Exact

variable {cppWordsz hblkSize sz inv displ : Nat}

theorem Inverse.bounds (h : Inverse sz inv) (hone : 1 < sz) (hsz : sz ≤ 2 ^ 14) :
    2 ^ 18 ≤ inv ∧ inv < 2 ^ 32 := by
  have hreaches := h.reaches
  have hleast := h.least
  constructor
  · by_contra hlt
    have hprod : inv * sz ≤ (2 ^ 18 - 1) * 2 ^ 14 := Nat.mul_le_mul (by omega) hsz
    omega
  · by_contra hge
    have hprod : 2 ^ 32 * 2 ≤ inv * sz := Nat.mul_le_mul (by omega) hone
    omega

theorem inverse_div (hone : 1 < sz) (hsz : sz ≤ 2 ^ 14) (hword : 32 < cppWordsz) :
    Inverse sz (if 2 ^ 32 / sz % 2 ^ 32 * sz % 2 ^ cppWordsz / 2 ^ 32 = 0 then (2 ^ 32 / sz % 2 ^ 32 + 1) % 2 ^ 32
      else 2 ^ 32 / sz % 2 ^ 32) := by
  have hquot : 2 ^ 32 / sz < 2 ^ 32 - 1 :=
    lt_of_le_of_lt (Nat.div_le_div_left hone (by decide)) (by decide)
  have hle : 2 ^ 32 / sz * sz ≤ 2 ^ 32 := Nat.div_mul_le_self _ _
  have hlt : 2 ^ 32 < 2 ^ 32 / sz * sz + sz := Nat.lt_div_mul_add (by omega)
  have hfits : 2 ^ 32 / sz * sz < 2 ^ cppWordsz := lt_of_le_of_lt hle (Nat.pow_lt_pow_right (by decide) hword)
  rw [Nat.mod_eq_of_lt (show 2 ^ 32 / sz < 2 ^ 32 by omega),Nat.mod_eq_of_lt hfits,
    Nat.mod_eq_of_lt (show 2 ^ 32 / sz + 1 < 2 ^ 32 by omega)]
  split
  · exact ⟨by rw [Nat.succ_mul]; omega,by rw [Nat.succ_mul]; omega⟩
  · exact ⟨by omega,by omega⟩

theorem raiseInvSz_stop {fuel n : Nat} (hsz : sz ≤ 2 ^ 14) (hdone : 2 ^ 32 ≤ n * sz) (hlt : n * sz < 2 ^ 32 + sz) :
    raiseInvSz sz (fuel + 1) n = some n := by
  rw [raiseInvSz,if_neg]
  omega

/-- The loop stops at the first number that reaches `2 ^ 32`: the product wraps to less than
the size there, and not before. -/
theorem raiseInvSz_inverse (hone : 1 < sz) (hsz : sz ≤ 2 ^ 14) (fuel k n : Nat) (htwo : 2 ≤ n)
    (hlt : n * sz < 2 ^ 32 + sz) (hreach : 2 ^ 32 ≤ (n + k) * sz) :
    ∃ inv, raiseInvSz sz (fuel + k + 1) n = some inv ∧ Inverse sz inv := by
  induction k generalizing n with
  | zero => exact ⟨n,raiseInvSz_stop hsz hreach hlt,hreach,hlt⟩
  | succ k ih =>
    by_cases hdone : 2 ^ 32 ≤ n * sz
    · exact ⟨n,raiseInvSz_stop hsz hdone hlt,hdone,hlt⟩
    · have hdouble : 2 * sz ≤ n * sz := Nat.mul_le_mul_right sz htwo
      have hhalf : n * 2 ≤ n * sz := Nat.mul_le_mul_left n hone
      rw [raiseInvSz,if_pos (by omega),Nat.mod_eq_of_lt (show n + 1 < 2 ^ 32 by omega)]
      apply ih (n + 1) (by omega)
      · rw [Nat.succ_mul]
        omega
      · rw [show n + 1 + k = n + (k + 1) by omega]
        exact hreach

theorem hbInvSz_inverse (hblk : hblkSize ≤ 2 ^ 15) (hone : 1 < sz)
    (hsmall : sz ≤ hblkSize / 2) (fuel : Nat) :
    ∃ inv, hbInvSz cppWordsz hblkSize (fuel + 3) sz = some inv ∧ Inverse sz inv := by
  have hsz : sz ≤ 2 ^ 14 := by omega
  unfold hbInvSz
  rw [if_neg (by omega)]
  split
  · next hwide => exact ⟨_,rfl,inverse_div hone hsz hwide⟩
  · have hquot : 2 ^ 31 / sz ≤ 2 ^ 30 := Nat.div_le_div_left hone (by decide)
    have hpos : 1 ≤ 2 ^ 31 / sz := Nat.div_pos (by omega) (by omega)
    have hle : 2 ^ 31 / sz * sz ≤ 2 ^ 31 := Nat.div_mul_le_self _ _
    have hlt : 2 ^ 31 < 2 ^ 31 / sz * sz + sz := Nat.lt_div_mul_add (by omega)
    rw [Nat.mod_eq_of_lt (show 2 ^ 31 / sz * 2 < 2 ^ 32 by omega)]
    apply raiseInvSz_inverse hone hsz fuel 2 _ (by omega)
    · rw [Nat.mul_right_comm]
      omega
    · rw [Nat.add_mul,Nat.mul_right_comm]
      omega

/-- The product with a displacement has the number of the object above its low half. Scaled by
the size, the low half is the displacement in the object times `2 ^ 32`, up to an excess of the
inverse. -/
theorem Inverse.product (h : Inverse sz inv) (hsz : sz ≤ 2 ^ 14) (hdispl : displ < 2 ^ 15) :
    ∃ low excess, displ * inv = displ / sz * 2 ^ 32 + low ∧ low * sz = displ % sz * 2 ^ 32 + displ * excess ∧
      displ * excess ≤ 2 ^ 29 := by
  obtain ⟨excess,hexcess⟩ := Nat.exists_eq_add_of_le h.reaches
  have hleast := h.least
  have hsmall : displ * excess ≤ 2 ^ 15 * 2 ^ 14 := Nat.mul_le_mul (by omega) (by omega)
  refine ⟨displ / sz * excess + displ % sz * inv,excess,?_,?_,hsmall⟩
  · calc displ * inv = (sz * (displ / sz) + displ % sz) * inv := by rw [Nat.div_add_mod]
      _ = displ / sz * (inv * sz) + displ % sz * inv := by ring
      _ = _ := by rw [hexcess,Nat.mul_add,Nat.add_assoc]
  · calc _ = displ / sz * excess * sz + displ % sz * (inv * sz) := by ring
      _ = displ % sz * 2 ^ 32 + (sz * (displ / sz) + displ % sz) * excess := by rw [hexcess]; ring
      _ = _ := by rw [Nat.div_add_mod]

theorem objDispl_of_inverse (h : Inverse sz inv) (hword : 32 ≤ cppWordsz) (hone : 1 < sz) (hsz : sz ≤ 2 ^ 14)
    (hdispl : displ < 2 ^ 15) : objDispl cppWordsz inv sz displ = some (displ / sz, displ % sz) := by
  obtain ⟨low,excess,hproduct,hscaled,hsmall⟩ := h.product hsz hdispl
  have hbounds := h.bounds hone hsz
  have hmod : displ % sz < sz := Nat.mod_lt displ (by omega)
  have hlow : low < 2 ^ 32 := by
    apply Nat.lt_of_mul_lt_mul_right (a := sz)
    omega
  unfold objDispl largeInvSz
  rw [if_neg (by omega),hproduct,Nat.mul_add_mod_self_right,Nat.mod_eq_of_lt hlow,Nat.mul_comm,
    Nat.mul_add_div (by decide),Nat.div_eq_of_lt hlow,Nat.add_zero]
  have hstep : (low / 2 ^ 16 + 1) * sz = low / 2 ^ 16 * sz + sz := Nat.succ_mul _ _
  have hfloor : low / 2 ^ 16 * 2 ^ 16 * sz ≤ low * sz := Nat.mul_le_mul_right sz (Nat.div_mul_le_self _ _)
  have hceil : low * sz < (low / 2 ^ 16 * 2 ^ 16 + 2 ^ 16) * sz :=
    Nat.mul_lt_mul_of_pos_right (Nat.lt_div_mul_add (by decide)) (by omega)
  rw [Nat.add_mul,Nat.mul_right_comm] at hceil
  rw [Nat.mul_right_comm] at hfloor
  have hfits : (low / 2 ^ 16 + 1) * sz < 2 ^ cppWordsz :=
    lt_of_lt_of_le (show _ < 2 ^ 32 by omega) (Nat.pow_le_pow_right (by decide) hword)
  show some (displ / sz, ite _ _ _) = _
  split
  · rw [Nat.mod_eq_of_lt hfits,show (low / 2 ^ 16 + 1) * sz / 2 ^ 16 = displ % sz by omega]
  · next hzero =>
    have hnone : low / 2 ^ 16 * sz = 0 := by rw [not_not.mp hzero,Nat.zero_mul]
    rw [show displ % sz = 0 by omega]

/-- For every small size the loop ends, and the inverse finds the object that a displacement is
in and the displacement in it. -/
theorem objDispl_exact (hword : 32 ≤ cppWordsz) (hblk : hblkSize ≤ 2 ^ 15) (hone : 1 < sz)
    (hsmall : sz ≤ hblkSize / 2) (fuel : Nat) :
    ∃ inv, hbInvSz cppWordsz hblkSize (fuel + 3) sz = some inv ∧
      ∀ displ < hblkSize, objDispl cppWordsz inv sz displ = some (displ / sz, displ % sz) := by
  obtain ⟨inv,hinv,hinverse⟩ := @hbInvSz_inverse cppWordsz _ _ hblk hone hsmall fuel
  refine ⟨inv,hinv,?_⟩
  intro displ hdispl
  exact objDispl_of_inverse hinverse hword hone (by omega) (by omega)

theorem objDispl_exact_48 : ∃ inv, hbInvSz 32 4096 3 48 = some inv ∧
    ∀ displ < 4096, objDispl 32 inv 48 displ = some (displ / 48, displ % 48) :=
  objDispl_exact (by decide) (by decide) (by decide) (by decide) 0

end Exact

end GcUtil.Mark.InvSize
