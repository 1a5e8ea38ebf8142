import Mathlib
import GcUtil.Block.Headers
import GcUtil.Library.Tiling

/-! How blocks lie in the heap: the abstract map from hblks to blocks, what the index
holds inside a block, and what merging, splitting, using and releasing a block do. -/
namespace GcUtil.Block.BlockMap
open Basic Headers Library.Tiling Function Option Finset

structure Blk where
  block : Nat
  sz : Nat
  free : Bool
deriving DecidableEq

def Blk.blocks (b : Blk) : Nat := objSzToBlocks b.sz

def Blk.fill (b : Blk) (i : Nat) : Entry :=
  if b.free then .nil else .forward (min i maxJump)

structure BlockOk (index : Nat → Entry) (n : Nat) (b : Blk) : Prop where
  self : b.block = n
  pos : 0 < b.sz
  whole : b.free = true → hblkSize ∣ b.sz
  fits : b.free = false → b.blocks * hblkSize < sizetSignb
  fill : ∀ i, 0 < i → i < b.blocks → index (n + i) = b.fill i

/-- The blocks `blks` tile the hblks `cells` and the index agrees with them. -/
structure Layout (index : Nat → Entry) (blks : Nat → Option Blk) (cells : Finset Nat) : Prop where
  tiles : Tiles (fun n => (blks n).map Blk.blocks) cells
  blocks : ∀ {n b}, blks n = some b → BlockOk index n b
  outside : ∀ n, n ∉ cells → index n = .nil
  low : ∀ n ∈ cells, 2 ≤ n

variable {index : Nat → Entry} {blks : Nat → Option Blk} {cells : Finset Nat} {n m x : Nat} {b c : Blk}

theorem blocks_mul_of_dvd (h : hblkSize ∣ b.sz) : b.blocks * hblkSize = b.sz := objSzToBlocks_of_dvd h

theorem blocks_join {c : Blk} (hb : hblkSize ∣ b.sz) (hc : hblkSize ∣ c.sz) :
    Blk.blocks { b with sz := b.sz + c.sz } = b.blocks + c.blocks := by
  change objSzToBlocks (b.sz + c.sz) = _
  rw [← blocks_mul_of_dvd hb,← blocks_mul_of_dvd hc,← Nat.add_mul]
  exact objSzToBlocks_mul _

theorem divHblksz_eq_blocks (h : hblkSize ∣ b.sz) : divHblksz b.sz = b.blocks := by
  unfold Blk.blocks objSzToBlocks divHblksz hblkSize at *
  omega

theorem BlockOk.blocks_pos (h : BlockOk index n b) : 0 < b.blocks := objSzToBlocks_pos h.pos

theorem BlockOk.congr {index' : Nat → Entry} (h : BlockOk index n b)
    (hsame : ∀ i, 0 < i → i < b.blocks → index' (n + i) = index (n + i)) : BlockOk index' n b :=
  { h with fill := fun i hi hlt => (hsame i hi hlt).trans (h.fill i hi hlt) }

namespace Layout

theorem empty : Layout (fun _ => .nil) (fun _ => none) ∅ where
  tiles := tiles_empty
  blocks h := by simp at h
  outside _ _ := rfl
  low n h := by simp at h

theorem len_eq (hb : blks n = some b) : (fun n => (blks n).map Blk.blocks) n = some b.blocks := by
  simp [hb]

section

variable (h : Layout index blks cells) (hb : blks n = some b)
include h hb

theorem start_mem : n ∈ cells :=
  h.tiles.start_mem (len_eq hb)

theorem low_start : 2 ≤ n :=
  h.low n (h.start_mem hb)

theorem not_interior (hc : blks m = some c) {i : Nat}
    (hi : 0 < i) (hlt : i < b.blocks) : n + i ≠ m := by
  intro heq
  have := h.tiles.interior (len_eq hb) hi hlt
  simp [heq,hc] at this

theorem interior_none {i : Nat} (hi : 0 < i)
    (hlt : i < b.blocks) : blks (n + i) = none := by
  have := h.tiles.interior (len_eq hb) hi hlt
  simpa using this

end

theorem update_len (blks : Nat → Option Blk) (n : Nat) (b : Option Blk) :
    (fun m => (update blks n b m).map Blk.blocks) =
      update (fun m => (blks m).map Blk.blocks) n (b.map Blk.blocks) := by
  funext m
  rw [update_apply,update_apply]
  split <;> rfl

section

variable (h : Layout index blks cells)
include h

section

variable {index' : Nat → Entry} (hb : blks n = some b)
  (hsame : ∀ x, x ∉ Finset.Ioo n (n + b.blocks) → index' x = index x)
include hb hsame

theorem blocks_other {m : Nat} (hne : m ≠ n)
    (hc : blks m = some c) : BlockOk index' m c := by
  apply (h.blocks hc).congr
  intro i hi hlt
  apply hsame
  intro hin
  rw [mem_Ioo] at hin
  exact hne (h.tiles.unique (x := m + i) (len_eq hc) (len_eq hb) (by omega) (by omega))

theorem outside_of_mem :
    ∀ x, x ∉ cells → index' x = .nil := by
  intro x hx
  rw [hsame,h.outside x hx]
  intro hin
  rw [mem_Ioo] at hin
  apply hx
  have := h.tiles.mem (i := x - n) (len_eq hb) (by omega)
  rwa [Nat.add_sub_cancel' (by omega)] at this

end

theorem fill_nil (hb : blks n = some b) (hfree : b.free = true) {i : Nat}
    (hi : 0 < i) (hlt : i < b.blocks) : index (n + i) = .nil := by
  rw [(h.blocks hb).fill i hi hlt,Blk.fill,if_pos hfree]

theorem behind (hb : blks n = some b) :
    index (n + b.blocks) = .nil ∨ ∃ c, blks (n + b.blocks) = some c := by
  by_cases hx : n + b.blocks ∈ cells
  · obtain ⟨l,hl⟩ := h.tiles.behind (len_eq hb) hx
    obtain ⟨c,hc,_⟩ := map_eq_some_iff.mp hl
    exact .inr ⟨c,hc⟩
  · exact .inl (h.outside _ hx)

theorem merge (hb : blks n = some b) (hbfree : b.free = true)
    (hc : blks (n + b.blocks) = some c) (hcfree : c.free = true) :
    Layout (update index (n + b.blocks) .nil)
      (update (update blks n (some { b with sz := b.sz + c.sz }))
        (n + b.blocks) none) cells := by
  have hbok := h.blocks hb
  have hcok := h.blocks hc
  have hlen := blocks_join (hbok.whole hbfree) (hcok.whole hcfree)
  have hindex : ∀ {m d}, blks m = some d → ∀ i, 0 < i → i < d.blocks →
      update index (n + b.blocks) .nil (m + i) = index (m + i) := by
    intro m d hd i hi hlt
    exact update_of_ne (h.not_interior hd hc hi hlt) ..
  refine ⟨?_,fun {m d} hd => ?_,fun m hm => ?_,h.low⟩
  · rw [update_len,update_len,map_some,hlen,map_none]
    exact h.tiles.merge (len_eq hb) (len_eq hc)
  · rw [update_apply,update_apply] at hd
    split at hd
    · cases hd
    · split at hd
      · rename_i hm
        cases hd
        subst hm
        refine ⟨hbok.self,?_,fun _ => ?_,fun hno => ?_,fun i hi hlt => ?_⟩
        · exact Nat.add_pos_left hbok.pos _
        · exact Nat.dvd_add (hbok.whole hbfree) (hcok.whole hcfree)
        · exact absurd (hbfree.symm.trans hno) (by decide)
        · rw [hlen] at hlt
          rw [Blk.fill,if_pos hbfree]
          rcases Nat.lt_trichotomy i b.blocks with hlow | heq | hhigh
          · rw [hindex hb i hi hlow]
            exact h.fill_nil hb hbfree hi hlow
          · rw [heq,update_self]
          · have := hindex hc (i - b.blocks) (by omega) (by omega)
            rw [show m + b.blocks + (i - b.blocks) = m + i by omega] at this
            rw [this,show m + i = m + b.blocks + (i - b.blocks) by omega]
            exact h.fill_nil hc hcfree (by omega) (by omega)
      · exact (h.blocks hd).congr (hindex hd)
  · rw [update_of_ne]
    · exact h.outside m hm
    · rintro rfl
      exact hm (h.start_mem hc)

theorem split (hb : blks n = some b) (hfree : b.free = true) {k : Nat}
    (hk : 0 < k) (hlt : k < b.blocks) (q : Nat) :
    Layout (update index (n + k) (.hdr q))
      (update (update blks n (some { b with sz := k * hblkSize }))
        (n + k) (some ⟨n + k, b.sz - k * hblkSize, true⟩)) cells := by
  have hbok := h.blocks hb
  have hsz := blocks_mul_of_dvd (hbok.whole hfree)
  have hfirst : Blk.blocks { b with sz := k * hblkSize } = k := objSzToBlocks_mul k
  have hrestSz : b.sz - k * hblkSize = (b.blocks - k) * hblkSize := by
    rw [Nat.sub_mul,hsz]
  have hrest : Blk.blocks ⟨n + k,b.sz - k * hblkSize,true⟩ = b.blocks - k := by
    change objSzToBlocks _ = _
    rw [hrestSz]
    exact objSzToBlocks_mul _
  have hblk : (0 : Nat) < hblkSize := by decide
  have hsame : ∀ x, x ∉ Finset.Ioo n (n + b.blocks) →
      update index (n + k) (.hdr q) x = index x := by
    intro x hx
    apply update_of_ne
    rintro rfl
    exact hx (mem_Ioo.mpr (by omega))
  refine ⟨?_,fun {m d} hd => ?_,h.outside_of_mem hb hsame,h.low⟩
  · rw [update_len,update_len,map_some,map_some,hfirst,hrest]
    apply h.tiles.split _ hk (by omega)
    rw [Nat.add_sub_cancel' (by omega)]
    exact len_eq hb
  · rw [update_apply,update_apply] at hd
    split at hd
    · rename_i hm
      cases hd
      subst hm
      refine ⟨rfl,?_,fun _ => ?_,(nomatch ·),fun i hi hlt' => ?_⟩
      · rw [hrestSz]
        exact Nat.mul_pos (by omega) hblk
      · rw [hrestSz]
        exact Nat.dvd_mul_left _ _
      · rw [hrest] at hlt'
        rw [update_of_ne (by omega),Nat.add_assoc]
        exact h.fill_nil hb hfree (by omega) (by omega)
    · split at hd
      · rename_i hm
        cases hd
        subst hm
        refine ⟨hbok.self,Nat.mul_pos hk hblk,fun _ => Nat.dvd_mul_left _ _,fun hno => ?_,
          fun i hi hlt' => ?_⟩
        · exact absurd (hfree.symm.trans hno) (by decide)
        · rw [hfirst] at hlt'
          rw [update_of_ne (by omega),Blk.fill,if_pos hfree]
          exact h.fill_nil hb hfree hi (by omega)
      · rename_i hm
        exact h.blocks_other hb hsame hm hd

/-- A free block loses the hblks at its end; they are no longer part of the heap. -/
theorem cut (hb : blks n = some b) (hfree : b.free = true) {k : Nat}
    (hk : 0 < k) (hle : k ≤ b.blocks) :
    Layout index (update blks n (some { b with sz := k * hblkSize }))
      (cells \ Finset.Ico (n + k) (n + b.blocks)) := by
  have hbok := h.blocks hb
  have hlen : Blk.blocks { b with sz := k * hblkSize } = k := objSzToBlocks_mul k
  refine ⟨?_,fun {m d} hd => ?_,fun x hx => ?_,fun x hx => h.low x (mem_sdiff.mp hx).1⟩
  · have hcut := h.tiles.cut (k := k) (l := b.blocks - k)
      (by rw [Nat.add_sub_cancel' hle]; exact len_eq hb) hk
    rw [Nat.add_assoc,Nat.add_sub_cancel' hle] at hcut
    rwa [update_len,map_some,hlen]
  · rw [update_apply] at hd
    split at hd
    · rename_i hm
      cases hd
      subst hm
      refine ⟨hbok.self,Nat.mul_pos hk (by decide),fun _ => Nat.dvd_mul_left _ _,?_,?_⟩
      · rw [hfree]
        simp
      · intro i hi hlt
        rw [hlen] at hlt
        rw [h.fill_nil hb hfree hi (by omega),Blk.fill,if_pos hfree]
    · exact h.blocks hd
  · rw [mem_sdiff,not_and_or,not_not,mem_Ico] at hx
    rcases hx with hout | hin
    · exact h.outside x hout
    · have := h.fill_nil hb hfree (i := x - n) (by omega) (by omega)
      rwa [Nat.add_sub_cancel' (by omega)] at this

theorem refill {index' : Nat → Entry} (hb : blks n = some b)
    (hsame : ∀ x, x ∉ Finset.Ioo n (n + b.blocks) → index' x = index x) (hc : BlockOk index' n c)
    (hlen : c.blocks = b.blocks) : Layout index' (update blks n (some c)) cells := by
  refine ⟨?_,fun {m d} hd => ?_,h.outside_of_mem hb hsame,h.low⟩
  · rw [update_len,map_some,hlen]
    exact h.tiles.update_same (len_eq hb)
  · rw [update_apply] at hd
    split at hd
    · rename_i hm
      cases hd
      exact hm ▸ hc
    · rename_i hm
      exact h.blocks_other hb hsame hm hd

end

theorem inside_same {e e' : Entry} (hpos : 0 < b.blocks) (hx : x ∉ Finset.Ioo n (n + b.blocks)) :
    (if n < x ∧ x ≤ n + (b.blocks - 1) then e else e') = e' := by
  apply if_neg
  rw [mem_Ioo] at hx
  omega

theorem use (h : Layout index blks cells) (hb : blks n = some b) {lb : Nat}
    (hlb : objSzToBlocks lb = b.blocks) (hfits : b.blocks * hblkSize < sizetSignb) :
    Layout (fun x => if n < x ∧ x ≤ n + (b.blocks - 1) then .forward (min (x - n) maxJump) else index x)
      (update blks n (some ⟨n, lb, false⟩)) cells := by
  have hpos := (h.blocks hb).blocks_pos
  have hlen : Blk.blocks ⟨n,lb,false⟩ = b.blocks := hlb
  refine h.refill hb (fun _ => inside_same hpos) ⟨rfl,?_,(nomatch ·),fun _ => hlen ▸ hfits,fun i hi hlt => ?_⟩ hlen
  · by_contra hzero
    have hlb0 : lb = 0 := Nat.eq_zero_of_not_pos hzero
    subst hlb0
    have : objSzToBlocks 0 = 0 := by decide
    omega
  · rw [hlen] at hlt
    rw [if_pos (by omega),Nat.add_sub_cancel_left]
    rfl

theorem release (h : Layout index blks cells) (hb : blks n = some b) :
    Layout (fun x => if n < x ∧ x ≤ n + (b.blocks - 1) then .nil else index x)
      (update blks n (some ⟨n, hblkSize * b.blocks, true⟩)) cells := by
  have hpos := (h.blocks hb).blocks_pos
  have hlen : Blk.blocks ⟨n,hblkSize * b.blocks,true⟩ = b.blocks := by
    change objSzToBlocks _ = _
    rw [Nat.mul_comm]
    exact objSzToBlocks_mul _
  refine h.refill hb (fun _ => inside_same hpos) ⟨rfl,Nat.mul_pos (by decide) hpos,fun _ => Nat.dvd_mul_right _ _,
    (nomatch ·),fun i hi hlt => ?_⟩ hlen
  rw [hlen] at hlt
  rw [if_pos (by omega)]
  rfl

theorem extend (h : Layout index blks cells) {k : Nat} (hk : 0 < k) (hlow : 2 ≤ n)
    (hfresh : ∀ x, n ≤ x → x < n + k → x ∉ cells) (q : Nat) :
    Layout (update index n (.hdr q)) (update blks n (some ⟨n, k * hblkSize, true⟩))
      (cells ∪ Finset.Ico n (n + k)) := by
  have hlen : Blk.blocks ⟨n,k * hblkSize,true⟩ = k := objSzToBlocks_mul k
  refine ⟨?_,fun {m d} hd => ?_,fun x hx => ?_,fun x hx => ?_⟩
  · rw [update_len,map_some,hlen]
    exact h.tiles.extend hk hfresh
  · rw [update_apply] at hd
    split at hd
    · rename_i hm
      cases hd
      subst hm
      refine ⟨rfl,Nat.mul_pos hk (by decide),fun _ => Nat.dvd_mul_left _ _,
        (nomatch ·),fun i hi hlt => ?_⟩
      rw [hlen] at hlt
      rw [update_of_ne (by omega),h.outside _ (hfresh _ (by omega) (by omega))]
      rfl
    · apply (h.blocks hd).congr
      intro i hi hlt
      apply update_of_ne
      rintro heq
      apply hfresh n (by omega) (by omega)
      rw [← heq]
      exact h.tiles.mem (len_eq hd) hlt
  · rw [mem_union,mem_Ico,not_or] at hx
    rw [update_of_ne,h.outside x hx.1]
    rintro rfl
    exact hx.2 (by omega)
  · rw [mem_union,mem_Ico] at hx
    rcases hx with hx | hx
    · exact h.low x hx
    · omega

end Layout

end GcUtil.Block.BlockMap
