import Mathlib.Data.Option.Basic

/-! What a computation that may give up comes to: `Returns enough r P` says that a
result of `r` satisfies `P`, and that there is one whenever `enough` holds. The
condition is what a loop needs to reach its end, such as a bound on its fuel. -/
namespace GcUtil.Library.Outcome

variable {α β : Type}

def Returns (enough : Prop) (r : Option α) (P : α → Prop) : Prop :=
  match r with
  | none => ¬ enough
  | some a => P a

@[simp]
theorem returns_some {enough : Prop} {a : α} {P : α → Prop} : Returns enough (some a) P ↔ P a :=
  Iff.rfl

@[simp]
theorem returns_none {enough : Prop} {P : α → Prop} : Returns enough none P ↔ ¬ enough :=
  Iff.rfl

theorem Returns.mono {enough enough' : Prop} {r : Option α} {P Q : α → Prop}
    (h : Returns enough r P) (henough : enough' → enough) (hPQ : ∀ a, P a → Q a) :
    Returns enough' r Q := by
  cases r with
  | none => exact fun he => h (henough he)
  | some a => exact hPQ a h

section

variable {enough : Prop} {r : Option α}

theorem Returns.bind {f : α → Option β} {P : α → Prop} {Q : β → Prop}
    (h : Returns enough r P) (hf : ∀ a, P a → Returns enough (f a) Q) :
    Returns enough (r.bind f) Q := by
  cases r with
  | none => exact h
  | some a => exact hf a h

theorem Returns.map {f : α → β} {P : α → Prop} {Q : β → Prop}
    (h : Returns enough r P) (hf : ∀ a, P a → Q (f a)) : Returns enough (r.map f) Q := by
  cases r with
  | none => exact h
  | some a => exact hf a h

theorem Returns.some_of {P : α → Prop} (h : Returns enough r P)
    (henough : enough) : ∃ a, r = some a ∧ P a := by
  cases r with
  | none => exact absurd henough h
  | some a => exact ⟨a,rfl,h⟩

theorem Returns.of_eq {P : α → Prop} (h : Returns enough r P) {a : α}
    (ha : r = some a) : P a := by
  rw [ha] at h
  exact h

end

/-- What was found, or what `k` finds in the state that the search was left in. -/
def orTry (r : Option (Option α × β)) (k : β → Option (Option α × β)) : Option (Option α × β) :=
  match r with
  | some (none, s) => k s
  | r => r

theorem Returns.orTry {enough : Prop} {r : Option (Option α × β)} {k : β → Option (Option α × β)}
    {P Q : Option α × β → Prop} (h : Returns enough r P) (hfound : ∀ a s, P (some a, s) → Q (some a, s))
    (hk : ∀ s, r = some (none, s) → P (none, s) → Returns enough (k s) Q) :
    Returns enough (orTry r k) Q :=
  match r with
  | none => h
  | some (some a, s) => hfound a s h
  | some (none, s) => hk s rfl h

theorem returns_false_of {r : Option α} {P : α → Prop} (h : ∀ a, r = some a → P a) : Returns False r P := by
  cases r with
  | none => exact id
  | some a => exact h a rfl

theorem returns_foldlM {enough : Prop} {f : β → α → Option β} {P : β → Prop}
    (hf : ∀ b a, P b → Returns enough (f b a) P) (l : List α) (b : β) (hb : P b) :
    Returns enough (l.foldlM f b) P := by
  induction l generalizing b with
  | nil => exact hb
  | cons a l ih => exact (hf b a hb).bind fun b' hb' => ih b' hb'

end GcUtil.Library.Outcome
