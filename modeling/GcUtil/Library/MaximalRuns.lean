import Mathlib.Data.Finset.Card
import Mathlib.Data.Finset.Image
import Mathlib.Order.Interval.Finset.Nat

/-! The maximal runs of consecutive numbers in a finite set, and how their number changes
when an interval is added. -/
namespace GcUtil.Library.MaximalRuns
open Finset

variable {U : Finset ℕ} {a b c x : ℕ}

/-- The numbers from `a` up to `b` are in `U`, and those on both sides are not. -/
structure IsRun (U : Finset ℕ) (a b : ℕ) : Prop where
  lt : a < b
  mem : ∀ x, a ≤ x → x < b → x ∈ U
  stop : b ∉ U
  start : ∀ y ∈ U, y + 1 ≠ a

def runStarts (U : Finset ℕ) : Finset ℕ := U.filter fun x => ∀ y ∈ U, y + 1 ≠ x

theorem mem_runStarts : x ∈ runStarts U ↔ x ∈ U ∧ ∀ y ∈ U, y + 1 ≠ x := mem_filter

section Counting

theorem IsRun.mem_runStarts (h : IsRun U a b) : a ∈ runStarts U :=
  MaximalRuns.mem_runStarts.mpr ⟨h.mem a (le_refl a) h.lt,h.start⟩

theorem IsRun.stop_le (h : IsRun U a b) (h' : IsRun U a c) : b ≤ c := by
  by_contra hlt
  exact h'.stop (h.mem c h'.lt.le (by omega))

theorem IsRun.stop_unique (h : IsRun U a b) (h' : IsRun U a c) : b = c :=
  le_antisymm (h.stop_le h') (h'.stop_le h)

theorem exists_not_mem (U : Finset ℕ) (a : ℕ) : ∃ b, a ≤ b ∧ b ∉ U := by
  by_contra hall
  push Not at hall
  have hsub : (Finset.range (U.card + 1)).image (a + ·) ⊆ U := by
    intro x hx
    obtain ⟨i,_,rfl⟩ := mem_image.mp hx
    exact hall _ (Nat.le_add_right a i)
  have hcard := card_le_card hsub
  rw [card_image_of_injective _ (add_right_injective a),card_range] at hcard
  omega

theorem exists_isRun (ha : a ∈ runStarts U) : ∃ b, IsRun U a b := by
  obtain ⟨hmem,hstart⟩ := mem_runStarts.mp ha
  have hex := exists_not_mem U a
  classical
  obtain ⟨hle,hout⟩ := Nat.find_spec hex
  refine ⟨Nat.find hex,?_,fun x hax hx => ?_,hout,hstart⟩
  · rcases Nat.lt_or_eq_of_le hle with hlt | heq
    · exact hlt
    · exact absurd (heq ▸ hmem) hout
  · by_contra hx'
    exact Nat.find_min hex hx ⟨hax,hx'⟩

/-- There are as many runs as numbers that start one. -/
theorem exists_runs (U : Finset ℕ) :
    ∃ runs : Finset (ℕ × ℕ), (∀ r, r ∈ runs ↔ IsRun U r.1 r.2) ∧ runs.card = (runStarts U).card := by
  choose! stop hstop using fun a (ha : a ∈ runStarts U) => exists_isRun ha
  refine ⟨(runStarts U).image fun a => (a, stop a),fun r => ?_,?_⟩
  · rw [mem_image]
    constructor
    · rintro ⟨a,ha,rfl⟩
      exact hstop a ha
    · intro h
      refine ⟨r.1,h.mem_runStarts,?_⟩
      exact Prod.ext rfl ((hstop r.1 h.mem_runStarts).stop_unique h)
  · exact card_image_of_injective _ fun a b hab => congrArg Prod.fst hab

end Counting

section Adding

theorem runStarts_union (hlt : a < b) (hout : ∀ x, a ≤ x → x < b → x ∉ U) :
    runStarts (U ∪ Finset.Ico a b) = (runStarts U).erase b ∪ if ∃ y ∈ U, y + 1 = a then ∅ else {a} := by
  ext x
  simp only [mem_runStarts,mem_union,mem_Ico,mem_erase]
  constructor
  · rintro ⟨hx | hx,hfirst⟩
    · left
      refine ⟨?_,hx,fun y hy => hfirst y (.inl hy)⟩
      rintro rfl
      exact hfirst (x - 1) (.inr (by omega)) (by omega)
    · right
      have hxa : x = a := by
        by_contra hne
        exact hfirst (x - 1) (.inr (by omega)) (by omega)
      rw [if_neg,mem_singleton]
      · exact hxa
      · rintro ⟨y,hy,hya⟩
        exact hfirst y (.inl hy) (by omega)
  · rintro (⟨hne,hx,hfirst⟩ | hx)
    · refine ⟨.inl hx,?_⟩
      rintro y (hy | hy) hyx
      · exact hfirst y hy hyx
      · exact hout x (by omega) (by omega) hx
    · split at hx
      · simp at hx
      · rename_i hnone
        rw [mem_singleton] at hx
        subst hx
        refine ⟨.inr ⟨le_refl x,hlt⟩,?_⟩
        rintro y (hy | hy) hyx
        · exact hnone ⟨y,hy,hyx⟩
        · omega

/-- The number of runs after an interval has been added. -/
theorem card_runStarts_union (hlt : a < b) (hout : ∀ x, a ≤ x → x < b → x ∉ U) :
    ((runStarts (U ∪ Finset.Ico a b)).card : ℤ) =
      (runStarts U).card + (1 - (if ∃ y ∈ U, y + 1 = a then 1 else 0) - if b ∈ U then 1 else 0) := by
  have hb : b ∈ runStarts U ↔ b ∈ U := by
    rw [mem_runStarts,and_iff_left]
    intro y hy hyb
    exact hout y (by omega) (by omega) hy
  have hdisj : Disjoint ((runStarts U).erase b) (if ∃ y ∈ U, y + 1 = a then ∅ else {a}) := by
    split
    · exact disjoint_empty_right _
    · rw [disjoint_singleton_right,mem_erase,mem_runStarts]
      exact fun h => hout a (le_refl a) hlt h.2.1
  rw [runStarts_union hlt hout,card_union_of_disjoint hdisj]
  have hcard : (((runStarts U).erase b).card : ℤ) = (runStarts U).card - if b ∈ U then 1 else 0 := by
    split
    · rename_i hmem
      have := card_erase_add_one (hb.mpr hmem)
      omega
    · rename_i hnot
      rw [erase_eq_of_notMem (fun h => hnot (hb.mp h))]
      omega
  have hstart : ((if ∃ y ∈ U, y + 1 = a then (∅ : Finset ℕ) else {a}).card : ℤ) =
      1 - if ∃ y ∈ U, y + 1 = a then 1 else 0 := by
    split <;> simp
  rw [Int.natCast_add,hcard,hstart]
  omega

end Adding

end GcUtil.Library.MaximalRuns
