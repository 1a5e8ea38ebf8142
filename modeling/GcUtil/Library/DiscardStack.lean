import Mathlib

/-! A stack of limited size that makes room by throwing away its topmost entries. The
entries are listed from the top. -/
namespace GcUtil.Library.DiscardStack
open List

structure Limits where
  floor : Nat
  discards : Nat
  discards_pos : 0 < discards
  discards_le : discards ≤ floor

structure BoundedStack (α : Type) (lim : Limits) where
  entries : List α
  size : Nat
  fits : entries.length ≤ size
  floor_le : lim.floor ≤ size

namespace BoundedStack

variable {α : Type} {lim : Limits}

def full (s : BoundedStack α lim) : Bool := decide (s.size ≤ s.entries.length)

def push (a : α) (s : BoundedStack α lim) : BoundedStack α lim :=
  if h : s.size ≤ s.entries.length then
    { s with
      entries := a :: s.entries.drop lim.discards
      fits := by
        have := s.fits
        have := s.floor_le
        have := lim.discards_pos
        have := lim.discards_le
        rw [List.length_cons, List.length_drop]
        omega }
  else
    { s with
      entries := a :: s.entries
      fits := by
        rw [List.length_cons]
        omega }

def pop (s : BoundedStack α lim) : BoundedStack α lim :=
  { s with
    entries := s.entries.tail
    fits := by
      have := s.fits
      rw [List.length_tail]
      omega }

def replaceTop (a : α) (s : BoundedStack α lim) : BoundedStack α lim :=
  { s with
    entries := s.entries.head?.elim [] fun _ => a :: s.entries.tail
    fits := by
      have := s.fits
      cases h : s.entries with
      | nil => simp
      | cons b l =>
        rw [h] at this
        simpa using this }

def pushList (l : List α) (s : BoundedStack α lim) : BoundedStack α lim := l.foldl (fun s a => s.push a) s

def resized (n : Nat) (hn : lim.floor ≤ n) : BoundedStack α lim := ⟨[], n, by simp, hn⟩

variable {s : BoundedStack α lim} {a b : α}

@[simp]
theorem push_size : (s.push a).size = s.size := by
  unfold push
  split <;> rfl

@[simp]
theorem replaceTop_size : (s.replaceTop a).size = s.size := rfl

@[simp]
theorem pop_entries : s.pop.entries = s.entries.tail := rfl

theorem replaceTop_entries {l : List α} (h : s.entries = b :: l) :
    (s.replaceTop a).entries = a :: l := by
  simp [replaceTop,h]

theorem push_entries (h : s.full = false) : (s.push a).entries = a :: s.entries := by
  have hlt : ¬ s.size ≤ s.entries.length := by simpa [full] using h
  simp [push,hlt]

theorem mem_push_self : a ∈ (s.push a).entries := by
  unfold push
  split <;> simp

theorem mem_push_of_mem (h : s.full = false) (hb : b ∈ s.entries) : b ∈ (s.push a).entries := by
  rw [push_entries h]
  exact mem_cons_of_mem a hb

theorem mem_push {c : α} (h : c ∈ (s.push a).entries) : c = a ∨ c ∈ s.entries := by
  unfold push at h
  split at h
  · simp only [mem_cons] at h
    exact h.imp_right mem_of_mem_drop
  · simpa using h

theorem full_eq_false_of_lt (h : s.entries.length < s.size) : s.full = false := by
  simp [full,h]

theorem pushList_append (l l' : List α) : s.pushList (l ++ l') = (s.pushList l).pushList l' :=
  foldl_append

theorem pushList_entries {l : List α} (h : s.entries.length + l.length ≤ s.size) :
    (s.pushList l).entries = l.reverse ++ s.entries := by
  induction l generalizing s with
  | nil => rfl
  | cons a l ih =>
    rw [length_cons] at h
    have hpush := push_entries (a := a) (full_eq_false_of_lt (s := s) (by omega))
    change ((s.push a).pushList l).entries = _
    rw [ih,hpush,reverse_cons,append_assoc]
    · rfl
    · rw [hpush,push_size,length_cons]
      omega

theorem pushList_injective (lim : Limits) {l l' : List α}
    (h : ∀ s : BoundedStack α lim, s.pushList l = s.pushList l') : l = l' := by
  let room : BoundedStack α lim := resized (lim.floor + (l.length + l'.length)) (by omega)
  have hl : (room.pushList l).entries = l.reverse ++ room.entries :=
    pushList_entries (by simp only [room,resized,length_nil]; omega)
  have hl' : (room.pushList l').entries = l'.reverse ++ room.entries :=
    pushList_entries (by simp only [room,resized,length_nil]; omega)
  rw [h room,hl'] at hl
  exact (reverse_injective (append_cancel_right hl)).symm

end BoundedStack

end GcUtil.Library.DiscardStack
