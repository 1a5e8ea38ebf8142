import Mathlib

/-! The positions of the set bits of a number, found from the lowest one up by clearing the
lowest set bit again and again. -/
namespace GcUtil.Library.SetBits
open List

def trailingZeros : Nat → Nat → Nat
  | 0, _ => 0
  | width + 1, n => if n % 2 = 1 then 0 else trailingZeros width (n / 2) + 1

def setBits (width : Nat) : Nat → Nat → List Nat
  | 0, _ => []
  | fuel + 1, bits =>
      if bits = 0 then []
      else trailingZeros width bits :: setBits width fuel (bits &&& (bits - 1))

variable {width n : Nat}

theorem exists_lowest (h : n < 2 ^ width) (hn : n ≠ 0) :
    trailingZeros width n < width ∧
      ∃ m, n = 2 ^ (trailingZeros width n + 1) * m + 2 ^ trailingZeros width n := by
  induction width generalizing n with
  | zero =>
    rw [Nat.pow_zero] at h
    omega
  | succ width ih =>
    rw [trailingZeros]
    split
    · refine ⟨by omega,n / 2,?_⟩
      rw [Nat.zero_add,Nat.pow_one,Nat.pow_zero]
      omega
    · rw [Nat.pow_succ] at h
      obtain ⟨hlt,m,hm⟩ := ih (n := n / 2) (by omega) (by omega)
      refine ⟨by omega,m,?_⟩
      calc n = 2 * (n / 2) := by omega
        _ = 2 ^ (trailingZeros width (n / 2) + 1 + 1) * m + 2 ^ (trailingZeros width (n / 2) + 1) := by
          rw [Nat.pow_succ 2 (trailingZeros width (n / 2) + 1),Nat.pow_succ 2 (trailingZeros width (n / 2))]
          rw [Nat.pow_succ] at hm
          linarith

theorem clear_lowest (t m : Nat) :
    (2 ^ (t + 1) * m + 2 ^ t) &&& (2 ^ (t + 1) * m + 2 ^ t - 1) = 2 ^ (t + 1) * m := by
  have hpos : 0 < 2 ^ t := Nat.two_pow_pos t
  have hlt : 2 ^ t < 2 ^ (t + 1) := Nat.pow_lt_pow_succ (by decide)
  have hzero : 2 ^ (t + 1) * m = 2 ^ (t + 1) * m + 0 := rfl
  rw [Nat.add_sub_assoc hpos]
  apply Nat.eq_of_testBit_eq
  intro i
  rw [Nat.testBit_and,Nat.testBit_two_pow_mul_add _ hlt,Nat.testBit_two_pow_mul_add _ (by omega),hzero,
    Nat.testBit_two_pow_mul_add _ (by omega)]
  split
  · rw [Nat.testBit_two_pow,Nat.testBit_two_pow_sub_one,Nat.zero_testBit]
    by_cases hi : t = i <;> simp [hi]
  · rw [Bool.and_self]

theorem setBits_from {fuel k : Nat} (h : n < 2 ^ width) (hfuel : width ≤ fuel + k)
    (hlow : ∀ i, i < k → n.testBit i = false) :
    setBits width fuel n = (List.range' k (width - k)).filter fun i => n.testBit i := by
  have hhigh : ∀ i, width ≤ i → n.testBit i = false := fun i hi =>
    Nat.testBit_lt_two_pow (h.trans_le (Nat.pow_le_pow_right (by decide) hi))
  induction fuel generalizing n k with
  | zero => rw [Nat.sub_eq_zero_of_le (by omega)]; rfl
  | succ fuel ih =>
    rw [setBits]
    split
    · rename_i hzero
      simp [hzero]
    · rename_i hne
      obtain ⟨ht,m,hm⟩ := exists_lowest h hne
      set t := trailingZeros width n
      have hlt : 2 ^ t < 2 ^ (t + 1) := Nat.pow_lt_pow_succ (by decide)
      have hbit : ∀ i, n.testBit i = if i < t + 1 then decide (t = i) else m.testBit (i - (t + 1)) := by
        intro i
        conv_lhs => rw [hm]
        rw [Nat.testBit_two_pow_mul_add _ hlt,Nat.testBit_two_pow]
      have hclear : n &&& (n - 1) = 2 ^ (t + 1) * m := by
        conv_lhs => rw [hm]
        exact clear_lowest t m
      have hrest : ∀ i, (2 ^ (t + 1) * m).testBit i = if i < t + 1 then false else n.testBit i := by
        intro i
        rw [hbit,show 2 ^ (t + 1) * m = 2 ^ (t + 1) * m + 0 from rfl,
          Nat.testBit_two_pow_mul_add _ (Nat.two_pow_pos _),Nat.zero_testBit]
        split <;> rfl
      have htk : k ≤ t := by
        by_contra hlow'
        have := hlow t (by omega)
        simp [hbit] at this
      have hsmall : 2 ^ (t + 1) * m < 2 ^ width := by omega
      have htail := ih (n := 2 ^ (t + 1) * m) (k := t + 1) hsmall (by omega)
        (fun i hi => by rw [hrest,if_pos hi]) (fun i hi => by rw [hrest,if_neg (by omega),hhigh i hi])
      have hsplit : List.range' k (width - k) = List.range' k (t - k) ++ t :: List.range' (t + 1) (width - (t + 1)) := by
        rw [← range'_succ,show width - (t + 1) + 1 = width - t by omega]
        have happend := range'_append_1 (s := k) (m := t - k) (n := width - t)
        rw [show k + (t - k) = t by omega,show t - k + (width - t) = width - k by omega] at happend
        exact happend.symm
      rw [hclear,htail,hsplit,filter_append,filter_cons_of_pos (by simp [hbit])]
      have hnone : (List.range' k (t - k)).filter (fun i => n.testBit i) = [] := by
        rw [filter_eq_nil_iff]
        intro i hi
        have hrange := mem_range'_1.mp hi
        rw [hbit,if_pos (by omega)]
        simp
        omega
      rw [hnone,nil_append]
      congr 1
      apply filter_congr
      intro i hi
      have hrange := mem_range'_1.mp hi
      rw [hrest,if_neg (by omega)]

theorem setBits_eq {fuel : Nat} (h : n < 2 ^ width) (hfuel : width ≤ fuel) :
    setBits width fuel n = (List.range width).filter fun i => n.testBit i := by
  rw [setBits_from h (k := 0) hfuel (fun i hi => absurd hi (Nat.not_lt_zero i)),range_eq_range',
    Nat.sub_zero]

end GcUtil.Library.SetBits
