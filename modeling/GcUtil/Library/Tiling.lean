import Mathlib

/-! A finite set of numbers cut into consecutive pieces: `len m` is the length of the
piece that starts at `m`. Pieces are merged with their right neighbour, split in two
and added. -/
namespace GcUtil.Library.Tiling
open Function Finset

variable {len : Nat → Option Nat} {cells : Finset Nat}

structure Tiles (len : Nat → Option Nat) (cells : Finset Nat) : Prop where
  pos : ∀ {m k}, len m = some k → 0 < k
  apart : ∀ {m n k l}, len m = some k → len n = some l → m < n → m + k ≤ n
  covers : ∀ n, n ∈ cells ↔ ∃ m k, len m = some k ∧ m ≤ n ∧ n < m + k

theorem tiles_empty : Tiles (fun _ => none) ∅ where
  pos h := by simp at h
  apart h := by simp at h
  covers n := by simp

namespace Tiles

section

variable (h : Tiles len cells)
include h

theorem mem {m k i : Nat} (hm : len m = some k) (hi : i < k) :
    m + i ∈ cells :=
  (h.covers (m + i)).mpr ⟨m,k,hm,by omega,by omega⟩

theorem interior {m k i : Nat} (hm : len m = some k) (hi : 0 < i)
    (hik : i < k) : len (m + i) = none := by
  cases hn : len (m + i) with
  | none => rfl
  | some l =>
    have := h.apart hm hn (by omega)
    omega

theorem unique {m n k l x : Nat} (hm : len m = some k) (hn : len n = some l)
    (hmx : m ≤ x ∧ x < m + k) (hnx : n ≤ x ∧ x < n + l) : m = n := by
  rcases Nat.lt_trichotomy m n with hlt | heq | hlt
  · have := h.apart hm hn hlt
    omega
  · exact heq
  · have := h.apart hn hm hlt
    omega

section

variable {m k : Nat} (hm : len m = some k)
include hm

theorem start_mem : m ∈ cells :=
  h.mem (i := 0) hm (h.pos hm)

/-- The cell behind a piece is in no piece or starts one. -/
theorem behind (hx : m + k ∈ cells) :
    ∃ l, len (m + k) = some l := by
  obtain ⟨n,l,hn,hle,hlt⟩ := (h.covers _).mp hx
  have hnm : ¬ n < m + k := by
    intro hnk
    have hpos := h.pos hm
    rcases Nat.lt_trichotomy n m with hlt' | rfl | hlt'
    · have := h.apart hn hm hlt'
      omega
    · rw [hm] at hn
      cases hn
      omega
    · have := h.apart hm hn hlt'
      omega
  exact ⟨l,by rw [← hn]; congr; omega⟩

theorem sub_cells : Finset.Ico m (m + k) ⊆ cells := by
  intro n hn
  rw [mem_Ico] at hn
  exact (h.covers n).mpr ⟨m,k,hm,hn⟩

theorem le_card : k ≤ cells.card := by
  have := card_le_card (h.sub_cells hm)
  rw [Nat.card_Ico] at this
  omega

theorem update_same :
    Tiles (update len m (some k)) cells := by
  rwa [← hm,update_eq_self]

end

theorem extend {m k : Nat} (hk : 0 < k)
    (hfresh : ∀ n, m ≤ n → n < m + k → n ∉ cells) :
    Tiles (update len m (some k)) (cells ∪ Finset.Ico m (m + k)) where
  pos {n l} hn := by
    rw [update_apply] at hn
    split at hn
    · cases hn
      exact hk
    · exact h.pos hn
  apart {n n' l l'} hn hn' hlt := by
    rw [update_apply] at hn hn'
    split at hn <;> split at hn'
    · omega
    · rename_i heq _
      cases hn
      have hout := hfresh n'
      have := h.start_mem hn'
      by_contra hcon
      exact hout (by omega) (by omega) this
    · rename_i hne heq
      cases hn'
      by_contra hcon
      have hmem := h.mem (i := m - n) hn (by omega)
      rw [show n + (m - n) = m by omega] at hmem
      exact hfresh m (by omega) (by omega) hmem
    · exact h.apart hn hn' hlt
  covers n := by
    rw [mem_union,h.covers,mem_Ico]
    constructor
    · rintro (⟨n',l,hn',hle,hlt⟩ | hin)
      · refine ⟨n',l,?_,hle,hlt⟩
        rw [update_of_ne ?_]
        · exact hn'
        · rintro rfl
          exact hfresh n' (by omega) (by omega) (h.start_mem hn')
      · exact ⟨m,k,update_self ..,hin⟩
    · rintro ⟨n',l,hn',hle,hlt⟩
      rw [update_apply] at hn'
      split at hn'
      · rename_i heq
        cases hn'
        exact .inr ⟨by omega,by omega⟩
      · exact .inl ⟨n',l,hn',hle,hlt⟩

theorem drop {m k : Nat} (hm : len m = some k) :
    Tiles (update len m none) (cells \ Finset.Ico m (m + k)) := by
  have hcases : ∀ {n l}, update len m none n = some l → n ≠ m ∧ len n = some l := by
    intro n l hn
    rw [update_apply] at hn
    split at hn
    · cases hn
    · exact ⟨by assumption,hn⟩
  refine ⟨fun hn => h.pos (hcases hn).2,fun ha hb => h.apart (hcases ha).2 (hcases hb).2,fun n => ?_⟩
  rw [mem_sdiff,mem_Ico,h.covers]
  constructor
  · rintro ⟨⟨n',l,hn',hin⟩,hout⟩
    refine ⟨n',l,?_,hin⟩
    rw [update_of_ne,hn']
    rintro rfl
    rw [hm] at hn'
    cases hn'
    exact hout hin
  · rintro ⟨n',l,hn',hin⟩
    obtain ⟨hne,hn'⟩ := hcases hn'
    exact ⟨⟨n',l,hn',hin⟩,fun hout => hne (h.unique hn' hm hin hout)⟩

theorem cut {m k l : Nat} (hm : len m = some (k + l)) (hk : 0 < k) :
    Tiles (update len m (some k)) (cells \ Finset.Ico (m + k) (m + k + l)) := by
  have hnew := (h.drop hm).extend (m := m) hk (by simp; omega)
  rw [update_idem] at hnew
  convert hnew using 1
  ext n
  have hsub := @h.sub_cells _ _ m _ hm n
  simp only [mem_Ico,mem_sdiff,mem_union] at hsub ⊢
  by_cases hn : n ∈ cells <;> simp [hn] at hsub ⊢ <;> omega

theorem merge {m k l : Nat} (hm : len m = some k)
    (hnext : len (m + k) = some l) :
    Tiles (update (update len m (some (k + l))) (m + k) none) cells := by
  have hk := h.pos hm
  have hdrop := (h.drop hnext).drop (m := m) (by rw [update_of_ne (by omega),hm])
  have hnew := hdrop.extend (m := m) (k := k + l) (by omega) (by simp; omega)
  rw [update_idem,update_comm (by omega)] at hnew
  convert hnew using 1
  ext n
  have hfirst := @h.sub_cells _ _ m _ hm n
  have hsecond := @h.sub_cells _ _ (m + k) _ hnext n
  simp only [mem_Ico,mem_sdiff,mem_union] at hfirst hsecond ⊢
  by_cases hn : n ∈ cells <;> simp [hn] at hfirst hsecond ⊢ <;> omega

theorem split {m k l : Nat} (hm : len m = some (k + l)) (hk : 0 < k)
    (hl : 0 < l) :
    Tiles (update (update len m (some k)) (m + k) (some l)) cells := by
  have hnew := (h.cut hm hk).extend (m := m + k) hl (by simp; omega)
  convert hnew using 1
  ext n
  have hsub := @h.sub_cells _ _ m _ hm n
  simp only [mem_Ico,mem_sdiff,mem_union] at hsub ⊢
  by_cases hn : n ∈ cells <;> simp [hn] at hsub ⊢ <;> omega

theorem sum_len : ∑ n ∈ cells, (len n).getD 0 = cells.card := by
  have hunion : cells = cells.biUnion fun n => Finset.Ico n (n + (len n).getD 0) := by
    ext x
    rw [mem_biUnion]
    constructor
    · intro hx
      obtain ⟨m,k,hm,hle,hlt⟩ := (h.covers x).mp hx
      exact ⟨m,h.start_mem hm,by simp [hm,hle,hlt]⟩
    · rintro ⟨n,_,hx⟩
      cases hn : len n with
      | none => simp [hn] at hx
      | some k =>
        rw [hn,Option.getD_some,mem_Ico] at hx
        exact (h.covers x).mpr ⟨n,k,hn,hx⟩
  have hdisj : (cells : Set Nat).PairwiseDisjoint fun n => Finset.Ico n (n + (len n).getD 0) := by
    intro m _ n _ hne
    rw [Function.onFun,disjoint_left]
    intro x hmx hnx
    rw [mem_Ico] at hmx hnx
    cases hm : len m with
    | none =>
      rw [hm,Option.getD_none] at hmx
      omega
    | some k =>
      cases hn : len n with
      | none =>
        rw [hn,Option.getD_none] at hnx
        omega
      | some l =>
        rw [hm,Option.getD_some] at hmx
        rw [hn,Option.getD_some] at hnx
        exact hne (h.unique hm hn hmx hnx)
  conv_rhs => rw [hunion,card_biUnion hdisj]
  simp

end

end Tiles

end GcUtil.Library.Tiling
