import Mathlib.Algebra.GroupWithZero.Nat
import Mathlib.Data.List.Basic
import Mathlib.Data.List.Perm.Basic
import Mathlib.Data.List.Pairwise
import Mathlib.Order.Interval.Finset.Nat

/-! Tables of half-open intervals over any record type, given by its two end
points. A table is a list; what it says about a point does not depend on the
order, which sorting then fixes. -/
namespace GcUtil.Library.Intervals
open List

variable {ρ : Type} (lo hi : ρ → Nat)

def Apart (r s : ρ) : Prop := hi r ≤ lo s ∨ hi s ≤ lo r

def Proper (r : ρ) : Prop := lo r < hi r

def Ordered (l : List ρ) : Prop := l.Pairwise fun r s => hi r ≤ lo s

theorem Apart.symm {r s : ρ} (h : Apart lo hi r s) : Apart lo hi s r :=
  Or.symm h

theorem pairwise_apart_perm {l l' : List ρ} (hperm : l.Perm l') (h : l.Pairwise (Apart lo hi)) :
    l'.Pairwise (Apart lo hi) :=
  hperm.pairwise h (fun hab => Apart.symm lo hi hab)

/-- Cutting one interval into pieces of itself keeps a table apart. -/
theorem pairwise_apart_replace {l l' rest pieces : List ρ} {r : ρ} (hl : l.Perm (r :: rest))
    (hl' : l'.Perm (pieces ++ rest)) (h : l.Pairwise (Apart lo hi))
    (hpieces : pieces.Pairwise (Apart lo hi))
    (hsub : ∀ x ∈ pieces, lo r ≤ lo x ∧ hi x ≤ hi r) : l'.Pairwise (Apart lo hi) := by
  apply pairwise_apart_perm lo hi hl'.symm
  obtain ⟨hr,hrest⟩ := pairwise_cons.mp (pairwise_apart_perm lo hi hl h)
  refine pairwise_append.mpr ⟨hpieces,hrest,?_⟩
  intro x hx s hs
  have hrs := hr s hs
  have hxr := hsub x hx
  unfold Apart at hrs ⊢
  omega

theorem ordered_of_sorted {l : List ρ} (hproper : ∀ r ∈ l, Proper lo hi r)
    (hsorted : l.Pairwise fun r s => lo r ≤ lo s) (hapart : l.Pairwise (Apart lo hi)) :
    Ordered lo hi l := by
  unfold Ordered
  rw [pairwise_iff_forall_sublist] at hsorted hapart ⊢
  intro r s hsub
  have hs : Proper lo hi s := hproper s (hsub.subset (by simp))
  have hle := hsorted hsub
  rcases hapart hsub with h | h
  · exact h
  · unfold Proper at hs
    omega

theorem Ordered.apart {l : List ρ} (h : Ordered lo hi l) : l.Pairwise (Apart lo hi) :=
  h.imp fun hab => .inl hab

/-- A point of the `k`-th interval lies above every earlier interval and below
every later one: the comparisons a bisection makes are decided by the index. -/
theorem Ordered.compare {l : List ρ} (h : Ordered lo hi l)
    {k j : Nat} (hk : k < l.length) (hj : j < l.length) {a : Nat}
    (ha : lo l[k] ≤ a ∧ a < hi l[k]) :
    (j < k → hi l[j] ≤ a) ∧ (k < j → a < lo l[j]) := by
  have hord := pairwise_iff_getElem.mp h
  refine ⟨fun hlt => ?_,fun hlt => ?_⟩
  · exact Nat.le_trans (hord j k hj hk hlt) ha.1
  · exact Nat.lt_of_lt_of_le ha.2 (hord k j hk hj hlt)

/-- Intervals that are apart and lie between two points have no more length than these. -/
theorem sum_length_le {l : List ρ} {a b : Nat} (hapart : l.Pairwise (Apart lo hi))
    (hbounds : ∀ r ∈ l, a ≤ lo r ∧ lo r ≤ hi r ∧ hi r ≤ b) : (l.map fun r => hi r - lo r).sum ≤ b - a := by
  have hnodup : (l.flatMap fun r => List.range' (lo r) (hi r - lo r)).Nodup := by
    refine nodup_flatMap.mpr ⟨fun r _ => nodup_range',hapart.imp_of_mem fun {r s} hr hs h => ?_⟩
    intro x hx hx'
    rw [mem_range'_1] at hx hx'
    have hr := hbounds r hr
    have hs := hbounds s hs
    unfold Apart at h
    omega
  have hsub : (l.flatMap fun r => List.range' (lo r) (hi r - lo r)).toFinset ⊆ Finset.Ico a b := by
    intro x hx
    obtain ⟨r,hr,hx⟩ := mem_flatMap.mp (mem_toFinset.mp hx)
    rw [mem_range'_1] at hx
    have hr := hbounds r hr
    rw [Finset.mem_Ico]
    omega
  have hcard := Finset.card_le_card hsub
  rw [toFinset_card_of_nodup hnodup,Nat.card_Ico,length_flatMap] at hcard
  simpa using hcard

end GcUtil.Library.Intervals
