import Mathlib.Data.List.Basic
import Mathlib.Data.List.Perm.Basic

/-! Unordered removal from an array: the last element is moved into the hole
and the count drops by one. A scan that removes this way looks at the moved
element before it advances, so the prefix below the index is the part already
seen and the suffix from the index on is the part still to be seen. -/
namespace GcUtil.Library.SwapRemove
open List

variable {α : Type}

def swapRemove (l : List α) (i : Nat) : List α :=
  match l.getLast? with
  | none => l
  | some x => (l.set i x).dropLast

@[simp] theorem swapRemove_concat (l : List α) (x : α) (i : Nat) :
    swapRemove (l ++ [x]) i = ((l ++ [x]).set i x).dropLast := by
  simp [swapRemove]

theorem swapRemove_append_concat (pre init : List α) (x last : α) :
    swapRemove (pre ++ x :: (init ++ [last])) pre.length = pre ++ last :: init := by
  have hassoc (y : α) : pre ++ y :: (init ++ [last]) = (pre ++ y :: init) ++ [last] := by simp
  rw [hassoc,swapRemove_concat,← hassoc,set_append_right _ _ (Nat.le_refl _),Nat.sub_self,
    set_cons_zero,hassoc,dropLast_concat]

theorem swapRemove_append (pre post : List α) (x : α) :
    ∃ rest, swapRemove (pre ++ x :: post) pre.length = pre ++ rest ∧ rest.Perm post := by
  rcases eq_nil_or_concat post with hnil | ⟨init,last,hlast⟩
  · subst hnil
    refine ⟨[],?_,List.Perm.refl _⟩
    simp
  · subst hlast
    rw [concat_eq_append]
    exact ⟨last :: init,swapRemove_append_concat pre init x last,(perm_append_singleton last init).symm⟩

/-- The scan `while (i < count) if (p(a[i])) remove else i++`, with the removed
elements collected in the order they are taken. -/
def sweep (p : α → Bool) : Nat → Nat → List α → List α × List α
  | 0, _, l => ([], l)
  | fuel + 1, i, l =>
      match l[i]? with
      | none => ([], l)
      | some x =>
          if p x then
            let rest := sweep p fuel i (swapRemove l i)
            (x :: rest.1, rest.2)
          else sweep p fuel (i + 1) l

section

variable (p : α → Bool)
include p

theorem sweep_append (fuel : Nat) (pre post : List α)
    (hfuel : post.length ≤ fuel) :
    ∃ kept, (sweep p fuel pre.length (pre ++ post)).2 = pre ++ kept ∧
      ((sweep p fuel pre.length (pre ++ post)).1 ++ kept).Perm post ∧
      (∀ x ∈ (sweep p fuel pre.length (pre ++ post)).1, p x = true) ∧
      (∀ x ∈ kept, p x = false) := by
  induction fuel generalizing pre post with
  | zero =>
    have hnil : post = [] := length_eq_zero_iff.mp (Nat.le_zero.mp hfuel)
    subst hnil
    exact ⟨[],by simp [sweep],by simp [sweep],by simp [sweep],by simp⟩
  | succ fuel ih =>
    cases post with
    | nil => exact ⟨[],by simp [sweep],by simp [sweep],by simp [sweep],by simp⟩
    | cons x post =>
      have hget : (pre ++ x :: post)[pre.length]? = some x := by simp
      have hlen : post.length ≤ fuel := by
        simp only [length_cons] at hfuel
        omega
      by_cases hp : p x = true
      · obtain ⟨rest,hrest,hperm⟩ := swapRemove_append pre post x
        have hrestLen : rest.length ≤ fuel := by rw [hperm.length_eq]; exact hlen
        obtain ⟨kept,hkept,htaken,hall,hnone⟩ := ih pre rest hrestLen
        refine ⟨kept,?_,?_,?_,hnone⟩
        · simp only [sweep,hget,hp,if_true,hrest]
          exact hkept
        · simp only [sweep,hget,hp,if_true,hrest,cons_append]
          exact (htaken.trans hperm).cons x
        · simp only [sweep,hget,hp,if_true,hrest]
          intro y hy
          rcases mem_cons.mp hy with hy | hy
          · rw [hy]; exact hp
          · exact hall y hy
      · have hshift : (pre ++ [x]).length = pre.length + 1 := by simp
        have hassoc : pre ++ x :: post = (pre ++ [x]) ++ post := by simp
        obtain ⟨kept,hkept,htaken,hall,hnone⟩ := ih (pre ++ [x]) post hlen
        rw [hshift,← hassoc] at hkept htaken hall
        refine ⟨x :: kept,?_,?_,?_,?_⟩
        · simp only [sweep,hget,hp]
          rw [if_neg (by simp),hkept]
          simp
        · simp only [sweep,hget,hp]
          rw [if_neg (by simp)]
          exact perm_middle.trans (htaken.cons x)
        · simp only [sweep,hget,hp]
          rw [if_neg (by simp)]
          exact hall
        · intro y hy
          rcases mem_cons.mp hy with hy | hy
          · rw [hy]; simpa using hp
          · exact hnone y hy

theorem sweep_perm (l : List α) :
    ((sweep p l.length 0 l).1 ++ (sweep p l.length 0 l).2).Perm l := by
  obtain ⟨kept,hkept,hperm,_,_⟩ := sweep_append p l.length [] l (Nat.le_refl _)
  simp only [length_nil,nil_append] at hkept hperm
  rw [hkept]
  exact hperm

theorem sweep_taken (l : List α) :
    ∀ x ∈ (sweep p l.length 0 l).1, p x = true := by
  obtain ⟨_,_,_,hall,_⟩ := sweep_append p l.length [] l (Nat.le_refl _)
  simpa using hall

theorem sweep_eq_of_nil (fuel i : Nat) (l : List α) (h : (sweep p fuel i l).1 = []) :
    (sweep p fuel i l).2 = l := by
  induction fuel generalizing i with
  | zero => rfl
  | succ fuel ih =>
    cases hget : l[i]? with
    | none => simp [sweep,hget]
    | some x =>
      by_cases hp : p x = true
      · simp [sweep,hget,hp] at h
      · simp only [sweep,hget,hp] at h ⊢
        exact ih (i + 1) h

theorem sweep_kept (l : List α) :
    (sweep p l.length 0 l).2.Perm (l.filter fun x => !p x) := by
  obtain ⟨kept,hkept,hperm,htaken,hnone⟩ := sweep_append p l.length [] l (Nat.le_refl _)
  simp only [length_nil,nil_append] at hkept hperm htaken
  have hfilter := hperm.filter fun x => !p x
  rw [filter_append,filter_eq_nil_iff.mpr fun x hx => by simp [htaken x hx],
    filter_eq_self.mpr fun x hx => by simp [hnone x hx],nil_append] at hfilter
  rwa [hkept]

end

end GcUtil.Library.SwapRemove
