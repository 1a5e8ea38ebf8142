import Mathlib.Data.List.Basic
import Mathlib.Data.List.Nodup

/-! Doubly linked lists threaded through records. The links of an element are given
by `next` and `prev`; a list in memory is described by the Lean list of its elements.
The three updates are what an intrusive list does: unlink, push in front, replace. -/
namespace GcUtil.Library.DoublyLinked
open List Option

variable {α : Type} {next prev next' prev' : α → Option α}

def Segment (next prev : α → Option α) : Option α → List α → Option α → Prop
  | _, [], _ => True
  | p, x :: l, q => prev x = p ∧ next x = l.head?.or q ∧ Segment next prev (some x) l q

theorem segment_append {p q : Option α} {a b : List α} :
    Segment next prev p (a ++ b) q ↔
      Segment next prev p a (b.head?.or q) ∧ Segment next prev (a.getLast?.or p) b q := by
  induction a generalizing p with
  | nil => simp [Segment]
  | cons x a ih =>
    have hhead : (a ++ b).head?.or q = a.head?.or (b.head?.or q) := by
      cases a <;> simp
    have hlast : (x :: a).getLast?.or p = a.getLast?.or (some x) := by
      cases a with
      | nil => simp
      | cons y a => simp [List.getLast?_cons]
    rw [cons_append,Segment,Segment,ih,hhead,hlast]
    tauto

/-- A segment read from its end, with the links exchanged. -/
theorem segment_reverse {p q : Option α} {l : List α} (h : Segment next prev p l q) :
    Segment prev next q l.reverse p := by
  induction l generalizing p with
  | nil => trivial
  | cons x l ih =>
    obtain ⟨hprev,hnext,hrest⟩ := h
    rw [reverse_cons,segment_append]
    refine ⟨ih hrest,?_,?_,trivial⟩
    · rw [List.getLast?_reverse]
      exact hnext
    · simpa using hprev

theorem segment_congr {p q : Option α} {l : List α}
    (h : ∀ x ∈ l, next' x = next x ∧ prev' x = prev x) :
    Segment next' prev' p l q ↔ Segment next prev p l q := by
  induction l generalizing p with
  | nil => rfl
  | cons x l ih =>
    have hx := h x (by simp)
    rw [Segment,Segment,hx.1,hx.2,ih fun y hy => h y (by simp [hy])]

theorem segment_retarget {p q q' : Option α} {l : List α} (hnodup : l.Nodup)
    (h : Segment next prev p l q) (hprev : ∀ x ∈ l, prev' x = prev x)
    (hlast : ∀ x, l.getLast? = some x → next' x = q')
    (hnext : ∀ x ∈ l, l.getLast? ≠ some x → next' x = next x) :
    Segment next' prev' p l q' := by
  rcases eq_nil_or_concat l with rfl | ⟨a,y,rfl⟩
  · trivial
  · rw [concat_eq_append] at *
    rw [segment_append] at h ⊢
    have hy : ∀ x ∈ a, x ≠ y := by
      rintro x hx rfl
      exact (disjoint_of_nodup_append hnodup) hx (by simp)
    refine ⟨(segment_congr ?_).mpr h.1,?_⟩
    · intro x hx
      refine ⟨hnext x (by simp [hx]) ?_,hprev x (by simp [hx])⟩
      simp only [List.getLast?_append,List.getLast?_singleton,some_or,ne_eq,
        Option.some.injEq]
      exact fun h => hy x hx h.symm
    · simp only [Segment,List.head?_nil,none_or,and_true] at h ⊢
      exact ⟨(hprev y (by simp)).trans h.2.1,hlast y (by simp)⟩

theorem segment_rebase {p p' q : Option α} {l : List α} (hnodup : l.Nodup)
    (h : Segment next prev p l q) (hnext : ∀ x ∈ l, next' x = next x)
    (hhead : ∀ x, l.head? = some x → prev' x = p')
    (hprev : ∀ x ∈ l, l.head? ≠ some x → prev' x = prev x) :
    Segment next' prev' p' l q := by
  cases l with
  | nil => trivial
  | cons y l =>
    obtain ⟨_,hn,hl⟩ := h
    have hy : ∀ x ∈ l, x ≠ y := by
      rintro x hx rfl
      exact (nodup_cons.mp hnodup).1 hx
    refine ⟨hhead y rfl,(hnext y (by simp)).trans hn,(segment_congr ?_).mpr hl⟩
    intro x hx
    refine ⟨hnext x (by simp [hx]),hprev x (by simp [hx]) ?_⟩
    simp only [List.head?_cons,ne_eq,Option.some.injEq]
    exact fun h => hy x hx h.symm

structure Linked (next prev : α → Option α) (head : Option α) (l : List α) : Prop where
  head_eq : head = l.head?
  segment : Segment next prev none l none
  nodup : l.Nodup

theorem linked_nil (next prev : α → Option α) : Linked next prev none [] :=
  ⟨rfl,trivial,nodup_nil⟩

theorem Linked.congr {head : Option α} {l : List α} (h : Linked next prev head l)
    (hsame : ∀ x ∈ l, next' x = next x ∧ prev' x = prev x) : Linked next' prev' head l :=
  ⟨h.head_eq,(segment_congr hsame).mpr h.segment,h.nodup⟩

theorem Linked.split {head : Option α} {a b : List α} {x : α}
    (h : Linked next prev head (a ++ x :: b)) :
    prev x = a.getLast? ∧ next x = b.head? ∧ Segment next prev none a (some x) ∧
      Segment next prev (some x) b none ∧ head = a.head?.or (some x) := by
  have hseg := segment_append.mp h.segment
  obtain ⟨hp,hn,hb⟩ := hseg.2
  refine ⟨by simpa using hp,by simpa using hn,by simpa using hseg.1,hb,?_⟩
  rw [h.head_eq]
  cases a <;> simp

theorem segment_unique {p p' : Option α} {l l' : List α} (h : Segment next prev p l none)
    (h' : Segment next prev p' l' none) (hhead : l.head? = l'.head?) : l = l' := by
  induction l generalizing p p' l' with
  | nil => exact (List.head?_eq_none_iff.mp hhead.symm).symm
  | cons x l ih =>
    cases l' with
    | nil => cases hhead
    | cons y l' =>
      obtain rfl := Option.some.inj hhead
      obtain ⟨_,hnext,hrest⟩ := h
      obtain ⟨_,hnext',hrest'⟩ := h'
      rw [or_none] at hnext hnext'
      rw [ih hrest hrest' (hnext.symm.trans hnext')]

section

variable {head : Option α}

theorem Linked.unique {l l' : List α} (h : Linked next prev head l)
    (h' : Linked next prev head l') : l = l' :=
  segment_unique h.segment h'.segment (h.head_eq.symm.trans h'.head_eq)

section

variable {l : List α} (h : Linked next prev head l)
include h

theorem Linked.next_mem {x y : α}
    (hx : x ∈ l) (hy : next x = some y) : y ∈ l := by
  obtain ⟨a,b,rfl⟩ := append_of_mem hx
  rw [h.split.2.1] at hy
  have := List.mem_of_head? hy
  simp [this]

theorem Linked.prev_mem {x y : α}
    (hx : x ∈ l) (hy : prev x = some y) : y ∈ l := by
  obtain ⟨a,b,rfl⟩ := append_of_mem hx
  rw [h.split.1] at hy
  have := List.mem_of_getLast? hy
  simp [this]

theorem Linked.head_mem {x : α}
    (hx : head = some x) : x ∈ l := by
  rw [h.head_eq] at hx
  exact List.mem_of_head? hx

theorem Linked.not_self {x : α}
    (hx : x ∈ l) : next x ≠ some x ∧ prev x ≠ some x := by
  obtain ⟨a,b,rfl⟩ := append_of_mem hx
  obtain ⟨hp,hn,_⟩ := h.split
  have hnodup := nodup_middle.mp h.nodup
  have hnot := (nodup_cons.mp hnodup).1
  rw [hp,hn]
  refine ⟨fun hb => hnot ?_,fun ha => hnot ?_⟩
  · simp [List.mem_of_head? hb]
  · simp [List.mem_of_getLast? ha]

theorem Linked.next_iff_prev {x y : α}
    (hx : x ∈ l) (hy : y ∈ l) : next x = some y ↔ prev y = some x := by
  constructor
  · intro hnext
    obtain ⟨a,b,rfl⟩ := append_of_mem hx
    obtain ⟨_,hn,_,hb,_⟩ := h.split
    rw [hn] at hnext
    cases b with
    | nil => simp at hnext
    | cons z b =>
      cases hnext
      exact hb.1
  · intro hprev
    obtain ⟨a,b,rfl⟩ := append_of_mem hy
    obtain ⟨hp,_⟩ := h.split
    rw [hp] at hprev
    rcases eq_nil_or_concat a with rfl | ⟨a,z,rfl⟩
    · simp at hprev
    · rw [concat_eq_append,append_assoc,singleton_append] at h
      have hlast : a.concat z = a ++ [z] := concat_eq_append
      rw [hlast,List.getLast?_append] at hprev
      cases hprev
      exact h.split.2.1

end

end

section Updates

variable {head head' : Option α} {a b : List α} {x : α}

/-- The elements `mid` take their place between two parts of a list. -/
theorem segment_splice {p q : Option α} {mid : List α} (hnodup : (a ++ b).Nodup)
    (hsa : Segment next prev none a q) (hsb : Segment next prev p b none)
    (hmid : Segment next' prev' a.getLast? mid b.head?)
    (hnext : ∀ y ∈ a ++ b, (a.getLast? = some y → next' y = mid.head?.or b.head?) ∧
      (a.getLast? ≠ some y → next' y = next y))
    (hprev : ∀ y ∈ a ++ b, (b.head? = some y → prev' y = mid.getLast?.or a.getLast?) ∧
      (b.head? ≠ some y → prev' y = prev y)) :
    Segment next' prev' none (a ++ (mid ++ b)) none := by
  have hdisj := disjoint_of_nodup_append hnodup
  rw [segment_append,segment_append,or_none,or_none,or_none,List.head?_append]
  refine ⟨?_,hmid,?_⟩
  · refine segment_retarget (hnodup.sublist (sublist_append_left a b)) hsa ?_ ?_ ?_
    · intro y hy
      refine (hprev y (by simp [hy])).2 ?_
      intro hyb
      exact hdisj hy (List.mem_of_head? hyb)
    · intro y hy
      exact (hnext y (by simp [List.mem_of_getLast? hy])).1 hy
    · exact fun y hy => (hnext y (by simp [hy])).2
  · refine segment_rebase (hnodup.sublist (sublist_append_right a b)) hsb ?_ ?_ ?_
    · intro y hy
      refine (hnext y (by simp [hy])).2 ?_
      intro hya
      exact hdisj (List.mem_of_getLast? hya) hy
    · intro y hy
      exact (hprev y (by simp [List.mem_of_head? hy])).1 hy
    · exact fun y hy => (hprev y (by simp [hy])).2

theorem Linked.unlink (h : Linked next prev head (a ++ x :: b))
    (hhead : head' = if prev x = none then next x else head)
    (hnext : ∀ y ∈ a ++ b, (prev x = some y → next' y = next x) ∧
      (prev x ≠ some y → next' y = next y))
    (hprev : ∀ y ∈ a ++ b, (next x = some y → prev' y = prev x) ∧
      (next x ≠ some y → prev' y = prev y)) :
    Linked next' prev' head' (a ++ b) := by
  obtain ⟨hp,hn,hsa,hsb,hh⟩ := h.split
  have hab := (nodup_cons.mp (nodup_middle.mp h.nodup)).2
  rw [hp,hn] at hhead hnext hprev
  refine ⟨?_,?_,hab⟩
  · rw [hhead,hh]
    rcases eq_nil_or_concat a with rfl | ⟨a,y,rfl⟩
    · simp
    · cases a <;> simp
  · exact @segment_splice _ _ _ _ _ a b _ _ [] hab hsa hsb trivial (by simpa using hnext) (by simpa using hprev)

theorem Linked.push {l : List α} (h : Linked next prev head l) (hx : x ∉ l) (hnx : next' x = head)
    (hpx : prev' x = none) (hnext : ∀ y ∈ l, next' y = next y)
    (hprev : ∀ y ∈ l, (head = some y → prev' y = some x) ∧ (head ≠ some y → prev' y = prev y)) :
    Linked next' prev' (some x) (x :: l) := by
  refine ⟨rfl,⟨hpx,by rw [hnx,h.head_eq,or_none],?_⟩,nodup_cons.mpr ⟨hx,h.nodup⟩⟩
  rw [h.head_eq] at hprev
  exact segment_rebase h.nodup h.segment hnext
    (fun y hy => (hprev y (List.mem_of_head? hy)).1 hy) (fun y hy => (hprev y hy).2)

theorem Linked.replace {z : α} (h : Linked next prev head (a ++ x :: b)) (hz : z ∉ a ++ x :: b)
    (hhead : head' = if prev x = none then some z else head) (hnz : next' z = next x)
    (hpz : prev' z = prev x)
    (hnext : ∀ y ∈ a ++ b, (prev x = some y → next' y = some z) ∧
      (prev x ≠ some y → next' y = next y))
    (hprev : ∀ y ∈ a ++ b, (next x = some y → prev' y = some z) ∧
      (next x ≠ some y → prev' y = prev y)) :
    Linked next' prev' head' (a ++ z :: b) := by
  obtain ⟨hp,hn,hsa,hsb,hh⟩ := h.split
  have hab := (nodup_cons.mp (nodup_middle.mp h.nodup)).2
  rw [hp] at hhead hpz hnext
  rw [hn] at hnz hprev
  have hmid : Segment next' prev' a.getLast? [z] b.head? := ⟨hpz,by simpa using hnz,trivial⟩
  refine ⟨?_,segment_splice hab hsa hsb hmid (by simpa using hnext) (by simpa using hprev),?_⟩
  · rw [hhead,hh]
    rcases eq_nil_or_concat a with rfl | ⟨a,y,rfl⟩
    · simp
    · cases a <;> simp
  · refine nodup_middle.mpr (nodup_cons.mpr ⟨?_,hab⟩)
    intro hmem
    apply hz
    simp only [mem_append,mem_cons] at hmem ⊢
    tauto

theorem Linked.insert (h : Linked next prev head (a ++ b)) (hx : x ∉ a ++ b)
    (hhead : head' = if a = [] then some x else head) (hnx : next' x = b.head?) (hpx : prev' x = a.getLast?)
    (hnext : ∀ y ∈ a ++ b, (a.getLast? = some y → next' y = some x) ∧ (a.getLast? ≠ some y → next' y = next y))
    (hprev : ∀ y ∈ a ++ b, (b.head? = some y → prev' y = some x) ∧ (b.head? ≠ some y → prev' y = prev y)) :
    Linked next' prev' head' (a ++ x :: b) := by
  obtain ⟨hsa,hsb⟩ := segment_append.mp h.segment
  have hmid : Segment next' prev' a.getLast? [x] b.head? := ⟨hpx,by simpa using hnx,trivial⟩
  refine ⟨?_,segment_splice h.nodup hsa hsb hmid (by simpa using hnext) (by simpa using hprev),?_⟩
  · rw [hhead,h.head_eq]
    cases a <;> simp
  · exact nodup_middle.mpr (nodup_cons.mpr ⟨hx,h.nodup⟩)

end Updates

end GcUtil.Library.DoublyLinked
