import Mathlib.Algebra.Order.Group.Nat
import Mathlib.Data.List.Nodup
import Mathlib.Data.List.Perm.Basic
import Mathlib.Logic.Function.Basic

/-! Hash tables with separate chaining. A table is a family of chains; its contents are the
chains one after the other, and each operation is described by what it does to the contents
up to their order. -/
namespace GcUtil.Library.ChainedTable
open Function List

variable {ε κ σ : Type}

section Chains

variable [DecidableEq κ] (key : ε → κ)

def unlink (k : κ) : List ε → Option (ε × List ε)
  | [] => none
  | e :: es => if key e = k then some (e, es) else (unlink k es).map fun r => (r.1, e :: r.2)

def rewriteFirst (k : κ) (f : ε → ε) : List ε → Option (List ε)
  | [] => none
  | e :: es => if key e = k then some (f e :: es) else (rewriteFirst k f es).map (e :: ·)

def sweepChain (step : σ → ε → Bool × σ) : List ε → σ → List ε × σ
  | [], a => ([], a)
  | e :: es, a =>
      let rest := sweepChain step es (step a e).2
      (if (step a e).1 then e :: rest.1 else rest.1, rest.2)

variable {key} {k : κ} {f : ε → ε} {l l' : List ε} {e : ε}

theorem unlink_eq_none : unlink key k l = none ↔ ∀ e ∈ l, key e ≠ k := by
  induction l with
  | nil => simp [unlink]
  | cons e es ih =>
    rw [unlink]
    by_cases h : key e = k <;> simp [h,ih]

theorem unlink_perm (h : unlink key k l = some (e, l')) : key e = k ∧ l.Perm (e :: l') := by
  induction l generalizing l' with
  | nil => simp [unlink] at h
  | cons x xs ih =>
    rw [unlink] at h
    by_cases hx : key x = k
    · simp only [hx,if_true,Option.some.injEq,Prod.mk.injEq] at h
      rw [← h.1,← h.2]
      exact ⟨hx,List.Perm.refl _⟩
    · simp only [hx,if_false,Option.map_eq_some_iff,Prod.mk.injEq,Prod.exists] at h
      obtain ⟨y,ys,hys,rfl,rfl⟩ := h
      obtain ⟨hkey,hperm⟩ := ih hys
      exact ⟨hkey,(hperm.cons x).trans (List.Perm.swap _ _ _)⟩

theorem rewriteFirst_eq_none : rewriteFirst key k f l = none ↔ ∀ e ∈ l, key e ≠ k := by
  induction l with
  | nil => simp [rewriteFirst]
  | cons e es ih =>
    rw [rewriteFirst]
    by_cases h : key e = k <;> simp [h,ih]

theorem rewriteFirst_perm (h : rewriteFirst key k f l = some l') :
    ∃ e rest, key e = k ∧ l.Perm (e :: rest) ∧ l'.Perm (f e :: rest) := by
  induction l generalizing l' with
  | nil => simp [rewriteFirst] at h
  | cons x xs ih =>
    rw [rewriteFirst] at h
    by_cases hx : key x = k
    · simp only [hx,if_true,Option.some.injEq] at h
      rw [← h]
      exact ⟨x,xs,hx,List.Perm.refl _,List.Perm.refl _⟩
    · simp only [hx,if_false,Option.map_eq_some_iff] at h
      obtain ⟨ys,hys,rfl⟩ := h
      obtain ⟨e,rest,hkey,hold,hnew⟩ := ih hys
      refine ⟨e,x :: rest,hkey,?_,?_⟩
      · exact (hold.cons x).trans (List.Perm.swap _ _ _)
      · exact (hnew.cons x).trans (List.Perm.swap _ _ _)

variable (step : σ → ε → Bool × σ)

theorem sweepChain_append (l l' : List ε) (a : σ) : sweepChain step (l ++ l') a =
    ((sweepChain step l a).1 ++ (sweepChain step l' (sweepChain step l a).2).1,
      (sweepChain step l' (sweepChain step l a).2).2) := by
  induction l generalizing a with
  | nil => rfl
  | cons e es ih =>
    simp only [cons_append,sweepChain,ih]
    by_cases h : (step a e).1 = true <;> simp [h]

theorem sweepChain_sublist (l : List ε) (a : σ) : (sweepChain step l a).1.Sublist l := by
  induction l generalizing a with
  | nil => simp [sweepChain]
  | cons e es ih =>
    simp only [sweepChain]
    split
    · exact (ih _).cons_cons e
    · exact (ih _).cons e

variable {step} in
/-- A walk whose decisions do not depend on what it has done so far. -/
theorem sweepChain_eq_filter {keep : ε → Bool} {drop : σ → ε → σ} (Inv : σ → Prop)
    (hstep : ∀ a, Inv a → ∀ e ∈ l, step a e = if keep e then (true, a) else (false, drop a e))
    (hinv : ∀ a, Inv a → ∀ e ∈ l, Inv (drop a e)) {a : σ} (ha : Inv a) :
    sweepChain step l a = (l.filter keep, (l.filter fun e => !keep e).foldl drop a) := by
  induction l generalizing a with
  | nil => rfl
  | cons e es ih =>
    have ih := fun {a} => @ih (fun a ha x hx => hstep a ha x (mem_cons_of_mem e hx))
      (fun a ha x hx => hinv a ha x (mem_cons_of_mem e hx)) a
    have he := mem_cons_self (a := e) (l := es)
    rw [sweepChain,hstep a ha e he]
    by_cases hkeep : keep e = true
    · simp [hkeep,ih ha]
    · simp [hkeep,ih (hinv a ha e he)]

end Chains

section Tables

def contents (size : Nat) (h : Nat → List ε) : List ε := (List.range size).flatMap h

variable {h : Nat → List ε} {size i : Nat} {e : ε}

@[simp] theorem mem_contents : e ∈ contents size h ↔ ∃ i < size, e ∈ h i := by
  simp [contents]

@[simp] theorem contents_nil : contents size (fun _ => ([] : List ε)) = [] := by
  simp [contents]

/-- A change of one chain replaces its part of the contents. -/
theorem contents_update (hi : i < size) :
    ∃ rest, (contents size h).Perm (h i ++ rest) ∧
      ∀ l, (contents size (update h i l)).Perm (l ++ rest) := by
  obtain ⟨below,above,hsplit⟩ := append_of_mem (mem_range.mpr hi)
  have hnodup : (below ++ i :: above).Nodup := hsplit ▸ nodup_range
  have hbelow : ∀ j ∈ below, j ≠ i := fun j hj hji =>
    (nodup_append.mp hnodup).2.2 j hj i (by simp) hji
  have habove : ∀ j ∈ above, j ≠ i := fun j hj hji =>
    (nodup_cons.mp (nodup_append.mp hnodup).2.1).1 (hji ▸ hj)
  have hsame : ∀ (l : List ε) (js : List Nat), (∀ j ∈ js, j ≠ i) →
      js.flatMap (update h i l) = js.flatMap h := fun l js hjs =>
    flatMap_congr fun j hj => by rw [update_of_ne (hjs j hj)]
  refine ⟨below.flatMap h ++ above.flatMap h,?_,fun l => ?_⟩
  · rw [contents,hsplit,flatMap_append,flatMap_cons]
    exact perm_append_comm_assoc _ _ _
  · rw [contents,hsplit,flatMap_append,flatMap_cons,hsame l below hbelow,
      hsame l above habove,update_self]
    exact perm_append_comm_assoc _ _ _

variable (key : ε → κ) (place : κ → Nat)

def Placed (h : Nat → List ε) : Prop := ∀ i, ∀ e ∈ h i, place (key e) = i

def push (h : Nat → List ε) (e : ε) : Nat → List ε :=
  Function.update h (place (key e)) (e :: h (place (key e)))

def pushAll (h : Nat → List ε) (l : List ε) : Nat → List ε := l.foldl (push key place) h

variable {key place}

theorem Placed.filter_chain (hp : Placed key place h) (j : Nat) :
    (h j).filter (fun e => place (key e) == i) = if j = i then h i else [] := by
  split
  · next hji =>
    subst hji
    rw [filter_eq_self]
    intro e he
    simp [hp j e he]
  · next hji =>
    rw [filter_eq_nil_iff]
    intro e he
    simp [hp j e he,hji]

theorem Placed.filter_contents (hp : Placed key place h) :
    (contents size h).filter (fun e => place (key e) == i) = if i < size then h i else [] := by
  induction size with
  | zero => simp [contents]
  | succ n ih =>
    rw [contents] at ih
    rw [contents,range_succ,flatMap_append,flatMap_singleton,filter_append,ih,
      hp.filter_chain]
    grind

theorem Placed.update {l : List ε} (hp : Placed key place h) (hl : ∀ e ∈ l, place (key e) = i) :
    Placed key place (update h i l) := by
  intro j e he
  by_cases hj : j = i
  · subst hj
    rw [update_self] at he
    exact hl e he
  · rw [update_of_ne hj] at he
    exact hp j e he

theorem Placed.push (hp : Placed key place h) (e : ε) : Placed key place (push key place h e) := by
  apply hp.update
  intro x hx
  rcases mem_cons.mp hx with rfl | hx
  · rfl
  · exact hp _ x hx

theorem contents_push (hlt : place (key e) < size) :
    (contents size (push key place h e)).Perm (e :: contents size h) := by
  obtain ⟨rest,hold,hnew⟩ := contents_update (h := h) hlt
  exact (hnew _).trans (hold.symm.cons e)

theorem Placed.pushAll (hp : Placed key place h) (l : List ε) : Placed key place (pushAll key place h l) := by
  induction l generalizing h with
  | nil => exact hp
  | cons e es ih => exact ih (hp.push e)

theorem contents_pushAll (hlt : ∀ k, place k < size) (l : List ε) :
    (contents size (pushAll key place h l)).Perm (l ++ contents size h) := by
  induction l generalizing h with
  | nil => exact List.Perm.refl _
  | cons e es ih =>
    have htail : (contents size (ChainedTable.pushAll key place (ChainedTable.push key place h e) es)).Perm
        (es ++ contents size (ChainedTable.push key place h e)) := ih
    exact (htail.trans ((contents_push (hlt _)).append_left es)).trans perm_middle

end Tables

section Sweeping

variable (step : σ → ε → Bool × σ)

def sweepAll (is : List Nat) (h : Nat → List ε) (a : σ) : (Nat → List ε) × σ :=
  is.foldl (fun r i =>
    let swept := sweepChain step (r.1 i) r.2
    (Function.update r.1 i swept.1, swept.2)) (h, a)

variable {step} {h : Nat → List ε} {a : σ} {is : List Nat}

theorem sweepAll_cons (i : Nat) : sweepAll step (i :: is) h a =
    sweepAll step is (update h i (sweepChain step (h i) a).1) (sweepChain step (h i) a).2 := rfl

theorem sweepAll_sublist (j : Nat) : ((sweepAll step is h a).1 j).Sublist (h j) := by
  induction is generalizing h a with
  | nil => exact List.Sublist.refl _
  | cons i is ih =>
    rw [sweepAll_cons]
    apply ih.trans
    rw [update_apply]
    split
    · next hji =>
      rw [hji]
      exact sweepChain_sublist _ _ _
    · exact List.Sublist.refl _

theorem sweepAll_of_notMem {j : Nat} (hj : j ∉ is) : (sweepAll step is h a).1 j = h j := by
  induction is generalizing h a with
  | nil => rfl
  | cons i is ih =>
    rw [mem_cons,not_or] at hj
    rw [sweepAll_cons,ih hj.2,update_of_ne hj.1]

theorem sweepAll_flatMap (hnodup : is.Nodup) :
    (is.flatMap (sweepAll step is h a).1, (sweepAll step is h a).2) = sweepChain step (is.flatMap h) a := by
  induction is generalizing h a with
  | nil => rfl
  | cons i is ih =>
    obtain ⟨hi,hnodup⟩ := nodup_cons.mp hnodup
    have hrest := ih (h := update h i (sweepChain step (h i) a).1)
      (a := (sweepChain step (h i) a).2) hnodup
    have hsame : is.flatMap (update h i (sweepChain step (h i) a).1) = is.flatMap h :=
      flatMap_congr fun j hj => by
        rw [update_of_ne]
        rintro rfl
        exact hi hj
    rw [hsame] at hrest
    rw [sweepAll_cons,flatMap_cons,flatMap_cons,sweepChain_append,← hrest,
      sweepAll_of_notMem hi,update_self]

variable (step) in
theorem contents_sweepAll (size : Nat) (h : Nat → List ε) (a : σ) :
    (contents size (sweepAll step (List.range size) h a).1, (sweepAll step (List.range size) h a).2) =
      sweepChain step (contents size h) a :=
  sweepAll_flatMap nodup_range

end Sweeping

end GcUtil.Library.ChainedTable
