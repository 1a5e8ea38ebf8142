import Mathlib.Data.Nat.Fib.Basic

/-! Depth bounds by Fibonacci sizes. `size` counts from the Fibonacci number 1 on, and
`Bounded d n` says of a tree of depth `d` with `n` leaves that each smaller depth has its
size below `n`. `Stacked i d n` bounds a tree that was put together from one tree of each level
below `i`, the smallest first. -/
namespace GcUtil.Library.FibonacciDepth

def size (i : Nat) : Nat := Nat.fib (i + 2)

def Bounded (d n : Nat) : Prop := ∀ e < d, size e < n

def Stacked (i d n : Nat) : Prop := d ≤ i ∨ d = i + 1 ∧ ∃ k, i = k + 1 ∧ size k ≤ n

@[simp]
theorem size_zero : size 0 = 1 := rfl

@[simp]
theorem size_one : size 1 = 2 := rfl

theorem size_add_two (i : Nat) : size (i + 2) = size i + size (i + 1) := Nat.fib_add_two

theorem size_strictMono : StrictMono size := Nat.fib_add_two_strictMono

theorem size_mono {i j : Nat} (h : i ≤ j) : size i ≤ size j := size_strictMono.monotone h

theorem size_pos (i : Nat) : 0 < size i := Nat.fib_pos.mpr (by omega)

theorem bounded_zero (n : Nat) : Bounded 0 n := fun _ h => absurd h (Nat.not_lt_zero _)

theorem bounded_of_size_le {d n : Nat} (h : size d ≤ n) : Bounded d n := fun _ he =>
  (size_strictMono he).trans_le h

theorem Bounded.mono {d e n m : Nat} (h : Bounded d n) (hd : e ≤ d) (hn : n ≤ m) : Bounded e m :=
  fun c hc => (h c (hc.trans_le hd)).trans_le hn

theorem Bounded.le_of_lt_size {d n k : Nat} (h : Bounded d n) (hn : n ≤ size k) : d ≤ k := by
  by_contra hd
  exact absurd (h k (by omega)) (by omega)

theorem Bounded.size_lt_add {d n m i : Nat} (h : Bounded d n) (hd : d ≤ i + 2) (hn : 0 < n)
    (hm : size i ≤ m) {c : Nat} (hc : c ≤ d) : size c < n + m := by
  have hpos := size_pos i
  match c with
  | 0 =>
    rw [size_zero]
    omega
  | 1 =>
    have := h 0 (by omega)
    rw [size_zero] at this
    rw [size_one]
    omega
  | c + 2 =>
    have hlast := h (c + 1) (by omega)
    have hprev := size_mono (show c ≤ i by omega)
    rw [size_add_two]
    omega

/-- Two trees of at least the size of level `i`, neither more than two levels deeper, may be
joined under a new root. -/
theorem Bounded.join {d e n m i : Nat} (hd : Bounded d n) (he : Bounded e m) (hdi : d ≤ i + 2)
    (hei : e ≤ i + 2) (hn : size i ≤ n) (hm : size i ≤ m) : Bounded (1 + max d e) (n + m) := by
  intro c hc
  have hpos := size_pos i
  rcases Nat.le_total e d with hle | hle
  · exact hd.size_lt_add hdi (by omega) hm (by omega)
  · rw [Nat.add_comm]
    exact he.size_lt_add hei (by omega) hn (by omega)

theorem stacked_zero (n : Nat) : Stacked 0 0 n := .inl le_rfl

theorem Stacked.le_succ {i d n : Nat} (h : Stacked i d n) : d ≤ i + 1 :=
  h.elim (fun hd => hd.trans (Nat.le_succ i)) fun hd => hd.1.le

theorem Stacked.skip {i d n : Nat} (h : Stacked i d n) : Stacked (i + 1) d n := .inl h.le_succ

theorem Stacked.push {i d e n m : Nat} (h : Stacked i d n) (he : e ≤ i + 1) (hm : size i ≤ m) {c : Nat}
    (hc : c ≤ 1 + max e d) : Stacked (i + 1) c (m + n) := by
  have hd := h.le_succ
  rcases Nat.lt_or_ge (i + 1) c with hlt | hle
  · exact .inr ⟨by omega,i,rfl,by omega⟩
  · exact .inl hle

/-- A tree that outweighs level `i` goes behind what was stacked from the levels below. -/
theorem Stacked.bounded {i d e n m : Nat} (h : Stacked i d n) (hn : 0 < n) (hi : i = 0 ∨ size i < m)
    (he : size e ≤ m) : Bounded (1 + max d e) (n + m) := by
  intro c hc
  rcases Nat.lt_or_ge e c with hlt | hle
  · rcases h with hd | ⟨hd,k,rfl,hk⟩
    · have hle : size c ≤ size i := size_mono (by omega)
      rcases hi with rfl | hi
      · omega
      · omega
    · have hle : size c ≤ size (k + 2) := size_mono (by omega)
      rw [size_add_two] at hle
      have hm := hi.resolve_left (Nat.succ_ne_zero k)
      omega
  · have hle : size c ≤ size e := size_mono hle
    omega

end GcUtil.Library.FibonacciDepth
