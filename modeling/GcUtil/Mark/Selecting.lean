import GcUtil.Mark.Machine

/-! `GC_push_selected`: the parts of a range that lie in dirty heap blocks are pushed, in whole blocks
with a part of a block at each end, and the rest of the range at once where the stack seems nearly full. -/
namespace GcUtil.Mark.Selecting
open Basic Pointers Ranges Machine Library.DiscardStack List

variable {cfg : Config} {dirty : Nat → Bool} {s t : State cfg} {lo mid hi : Nat}

section Model

/-- `(word)(GC_mark_stack_top - GC_mark_stack)`, which is the largest word for an empty stack. -/
def topIndex (s : State cfg) : Nat :=
  if s.markStack.entries.length = 0 then wordMax else s.markStack.entries.length - 1

def nearFull (s : State cfg) : Bool := decide (3 * s.markStack.size / 4 < topIndex s)

/-- The loop over whole blocks and the part of a block behind it, and whether the danger of an overflow
has ended it. -/
def pushBlocks (dirty : Nat → Bool) (top h : Nat) (s : State cfg) : Bool × State cfg :=
  if _hloop : h < top / hblkSize then
    if dirty h then
      if nearFull s then (true, pushAll s (h * hblkSize, top))
      else pushBlocks dirty top (h + 1) (pushAll s (h * hblkSize, (h + 1) * hblkSize))
    else pushBlocks dirty top (h + 1) s
  else (false, if h * hblkSize ≠ top ∧ dirty h then pushAll s (h * hblkSize, top) else s)
termination_by top / hblkSize - h

def pushSelected (dirty : Nat → Bool) (bottom top : Nat) (s : State cfg) : Bool × State cfg :=
  let bottom := (bottom + 7) / 8 * 8
  let top := top / 8 * 8
  let h := (bottom + hblkSize) / hblkSize
  if top ≤ bottom then (false, s)
  else if top ≤ h * hblkSize then (false, if dirty (h - 1) then pushAll s (bottom, top) else s)
  else if dirty (h - 1) then
    if nearFull s then (true, pushAll s (bottom, top))
    else pushBlocks dirty top h (pushAll s (bottom, h * hblkSize))
  else pushBlocks dirty top h s

end Model

section Covering

def entryOf (range : Nat × Nat) : Mse := ⟨range.1, range.2 - range.1⟩

/-- The ranges `l` of `[lo, hi)` have been pushed, in their order and with room for each of them. -/
structure Selected (dirty : Nat → Bool) (lo hi : Nat) (s : State cfg) (r : Bool × State cfg)
    (l : List (Nat × Nat)) : Prop where
  entries : r.2.markStack.entries = (l.map entryOf).reverse ++ s.markStack.entries
  size : r.2.markStack.size = s.markStack.size
  rest : r.2 = { s with markStack := r.2.markStack }
  within : ∀ x ∈ l, lo ≤ x.1 ∧ x.1 < x.2 ∧ x.2 ≤ hi ∧ 8 ∣ x.1 ∧ 8 ∣ x.2
  apart : l.Pairwise fun x y => x.2 ≤ y.1
  covers : ∀ a, lo ≤ a → a < hi → dirty (a / hblkSize) = true → ∃ x ∈ l, x.1 ≤ a ∧ a < x.2
  clean : r.1 = false → ∀ x ∈ l, ∀ a, x.1 ≤ a → a < x.2 → dirty (a / hblkSize) = true
  danger : r.1 = true → r.2.markStack.entries.length = 1 ∨
    3 * s.markStack.size / 4 + 2 < r.2.markStack.entries.length

theorem pushAll_eq (hlo : 8 ∣ lo) (hhi : 8 ∣ hi) (hlt : lo < hi)
    (hroom : s.markStack.entries.length < s.markStack.size) :
    pushAll s (lo, hi) = { s with markStack := s.markStack.push (entryOf (lo, hi)) } ∧
      (pushAll s (lo, hi)).markStack.entries = entryOf (lo, hi) :: s.markStack.entries := by
  have hfull := BoundedStack.full_eq_false_of_lt hroom
  have heq : pushAll s (lo, hi) = { s with markStack := s.markStack.push (entryOf (lo, hi)) } := by
    unfold pushAll msPushObjDescr
    dsimp only
    rw [show (lo + 7) / 8 * 8 = lo by omega,show hi / 8 * 8 = hi by omega,if_neg (by omega),
      if_neg (by simp [hfull])]
    rfl
  refine ⟨heq,?_⟩
  rw [heq]
  exact BoundedStack.push_entries hfull

theorem Selected.none (hclean : ∀ a, lo ≤ a → a < hi → dirty (a / hblkSize) = false) :
    Selected dirty lo hi s (false, s) [] where
  entries := rfl
  size := rfl
  rest := rfl
  within x hx := absurd hx not_mem_nil
  apart := List.Pairwise.nil
  covers a hlo hhi hdirty := by
    rw [hclean a hlo hhi] at hdirty
    cases hdirty
  clean _ x hx := absurd hx not_mem_nil
  danger hfalse := by cases hfalse

theorem Selected.whole {danger : Bool} (hlo : 8 ∣ lo) (hhi : 8 ∣ hi) (hlt : lo < hi)
    (hroom : s.markStack.entries.length < s.markStack.size)
    (hclean : danger = false → ∀ a, lo ≤ a → a < hi → dirty (a / hblkSize) = true)
    (hdanger : danger = true → nearFull s = true) :
    Selected dirty lo hi s (danger, pushAll s (lo, hi)) [(lo, hi)] := by
  obtain ⟨heq,hentries⟩ := pushAll_eq hlo hhi hlt hroom
  refine ⟨hentries,by rw [heq]; simp,by rw [heq],?_,pairwise_singleton _ _,?_,?_,fun hd => ?_⟩
  · simp [hlo,hhi,hlt]
  · exact fun a hle hgt _ => ⟨(lo, hi),by simp,hle,hgt⟩
  · simpa using hclean
  · have hnear := of_decide_eq_true (hdanger hd)
    dsimp only
    rw [hentries,length_cons]
    unfold topIndex at hnear
    split at hnear
    · exact .inl (by omega)
    · exact .inr (by omega)

theorem Selected.skip {r : Bool × State cfg} {l : List (Nat × Nat)} (h : Selected dirty mid hi s r l)
    (hle : lo ≤ mid) (hclean : ∀ a, lo ≤ a → a < mid → dirty (a / hblkSize) = false) :
    Selected dirty lo hi s r l :=
  { h with
    within := fun x hx => ⟨hle.trans (h.within x hx).1,(h.within x hx).2⟩
    covers := by
      intro a hlo hhi hdirty
      by_cases hmid : a < mid
      · rw [hclean a hlo hmid] at hdirty
        cases hdirty
      · exact h.covers a (by omega) hhi hdirty }

theorem Selected.cons {r : Bool × State cfg} {l : List (Nat × Nat)}
    (h : Selected dirty mid hi (pushAll s (lo, mid)) r l) (hlo : 8 ∣ lo) (hmid : 8 ∣ mid) (hlt : lo < mid)
    (hle : mid ≤ hi) (hroom : s.markStack.entries.length < s.markStack.size)
    (hdirty : ∀ a, lo ≤ a → a < mid → dirty (a / hblkSize) = true) :
    Selected dirty lo hi s r ((lo, mid) :: l) := by
  obtain ⟨heq,hentries⟩ := pushAll_eq hlo hmid hlt hroom
  have hsize : (pushAll s (lo, mid)).markStack.size = s.markStack.size := by
    rw [heq]
    simp
  refine ⟨?_,h.size.trans hsize,?_,?_,?_,?_,?_,?_⟩
  · rw [h.entries,hentries]
    simp
  · rw [h.rest,heq]
  · simp only [forall_mem_cons]
    refine ⟨⟨le_refl _,hlt,hle,hlo,hmid⟩,fun x hx => ?_⟩
    exact ⟨hlt.le.trans (h.within x hx).1,(h.within x hx).2⟩
  · exact pairwise_cons.mpr ⟨fun x hx => (h.within x hx).1,h.apart⟩
  · intro a hloa hahi had
    by_cases ha : a < mid
    · exact ⟨(lo, mid),mem_cons_self,hloa,ha⟩
    · obtain ⟨x,hx,hin⟩ := h.covers a (by omega) hahi had
      exact ⟨x,mem_cons_of_mem _ hx,hin⟩
  · intro hno
    simp only [forall_mem_cons]
    exact ⟨hdirty,h.clean hno⟩
  · rw [← hsize]
    exact h.danger

/-- A push below the danger line leaves room for another one. -/
theorem pushAll_room (hsize : 12 ≤ s.markStack.size) (hlo : 8 ∣ lo) (hhi : 8 ∣ hi) (hlt : lo < hi)
    (hroom : s.markStack.entries.length < s.markStack.size) (hnear : ¬ nearFull s = true) :
    (pushAll s (lo, hi)).markStack.entries.length < (pushAll s (lo, hi)).markStack.size ∧
      12 ≤ (pushAll s (lo, hi)).markStack.size := by
  obtain ⟨heq,hentries⟩ := pushAll_eq hlo hhi hlt hroom
  have hle : topIndex s ≤ 3 * s.markStack.size / 4 := by simpa [nearFull] using hnear
  rw [hentries,heq]
  simp only [BoundedStack.push_size,length_cons]
  unfold topIndex at hle
  split at hle <;> omega

theorem pushBlocks_selected {top h : Nat} (htop : 8 ∣ top) (hsize : 12 ≤ s.markStack.size)
    (hroom : s.markStack.entries.length < s.markStack.size) (hle : h * hblkSize ≤ top) :
    ∃ l, Selected dirty (h * hblkSize) top s (pushBlocks dirty top h s) l := by
  have hblock : ∀ h a, h * hblkSize ≤ a → a < (h + 1) * hblkSize → a / hblkSize = h := by
    unfold hblkSize
    omega
  have hdvd : ∀ h, 8 ∣ h * hblkSize := fun h => (by decide : 8 ∣ hblkSize).mul_left h
  fun_induction pushBlocks dirty top h s with
  | case1 h s hloop hdirty hnear =>
    refine ⟨_,Selected.whole (hdvd h) htop ?_ hroom (fun hd => by cases hd) fun _ => hnear⟩
    unfold hblkSize at *
    omega
  | case2 h s hloop hdirty hnear ih =>
    have hnext : (h + 1) * hblkSize ≤ top := (Nat.le_div_iff_mul_le (by decide)).mp hloop
    have hlt : h * hblkSize < (h + 1) * hblkSize := Nat.mul_lt_mul_of_pos_right h.lt_succ_self (by decide)
    obtain ⟨hroom',hsize'⟩ := pushAll_room hsize (hdvd h) (hdvd (h + 1)) hlt hroom hnear
    obtain ⟨l,hl⟩ := ih hsize' hroom' hnext
    exact ⟨_,hl.cons (hdvd h) (hdvd (h + 1)) hlt hnext hroom fun a h1 h2 => by rw [hblock h a h1 h2,hdirty]⟩
  | case3 h s hloop hclean ih =>
    have hnext : (h + 1) * hblkSize ≤ top := (Nat.le_div_iff_mul_le (by decide)).mp hloop
    obtain ⟨l,hl⟩ := ih hsize hroom hnext
    have hnone : ∀ a, h * hblkSize ≤ a → a < (h + 1) * hblkSize → dirty (a / hblkSize) = false := by
      intro a h1 h2
      rw [hblock h a h1 h2]
      simpa using hclean
    exact ⟨l,hl.skip (Nat.mul_le_mul_right _ (Nat.le_succ h)) hnone⟩
  | case4 h s hloop =>
    have hlast : ∀ a, h * hblkSize ≤ a → a < top → a / hblkSize = h := fun a h1 h2 => by
      unfold hblkSize at *
      omega
    split
    · next hdirty =>
      refine ⟨_,Selected.whole (hdvd h) htop (by omega) hroom (fun _ a h1 h2 => ?_)
        fun hd => by cases hd⟩
      rw [hlast a h1 h2,hdirty.2]
    · next hclean =>
      refine ⟨[],Selected.none fun a h1 h2 => ?_⟩
      rw [hlast a h1 h2]
      simpa [show h * hblkSize ≠ top by omega] using hclean

/-- The pushed ranges lie in the aligned range, are pairwise disjoint and cover its part in dirty blocks;
unless the fallback was taken they hold nothing else. The stack has had room for all of them. -/
theorem pushSelected_covers (hinitial : hblkSize ∣ 16 * cfg.initialMarkStackSize) (dirty : Nat → Bool)
    (bottom top : Nat) (s : State cfg) (hroom : s.markStack.entries.length < s.markStack.size) :
    ∃ l, Selected dirty ((bottom + 7) / 8 * 8) (top / 8 * 8) s (pushSelected dirty bottom top s) l := by
  have hsize : 12 ≤ s.markStack.size := by
    have hfloor : cfg.initialMarkStackSize ≤ s.markStack.size := s.markStack.floor_le
    have height := cfg.eight_le_initial
    unfold hblkSize at hinitial
    omega
  unfold pushSelected
  dsimp only
  have hlo : 8 ∣ (bottom + 7) / 8 * 8 := Nat.dvd_mul_left _ _
  have htop : 8 ∣ top / 8 * 8 := Nat.dvd_mul_left _ _
  generalize (bottom + 7) / 8 * 8 = lo at *
  generalize top / 8 * 8 = hi at *
  generalize hh : (lo + hblkSize) / hblkSize = h
  have hnext : lo < h * hblkSize ∧ 8 ∣ h * hblkSize := by
    unfold hblkSize at *
    omega
  have hblock : ∀ a, lo ≤ a → a < h * hblkSize → a / hblkSize = h - 1 := by
    unfold hblkSize at *
    omega
  split
  · exact ⟨[],Selected.none fun a h1 h2 => by omega⟩
  · split
    · split
      · next hdirty =>
        refine ⟨_,Selected.whole hlo htop (by omega) hroom (fun _ a h1 h2 => ?_) fun hd => by cases hd⟩
        rw [hblock a h1 (by omega),hdirty]
      · next hclean =>
        refine ⟨[],Selected.none fun a h1 h2 => ?_⟩
        rw [hblock a h1 (by omega)]
        simpa using hclean
    · split
      · next hdirty =>
        split
        · next hnear => exact ⟨_,Selected.whole hlo htop (by omega) hroom (fun hd => by cases hd) fun _ => hnear⟩
        · next hnear =>
          obtain ⟨hroom',hsize'⟩ := pushAll_room hsize hlo hnext.2 hnext.1 hroom hnear
          obtain ⟨l,hl⟩ := pushBlocks_selected (h := h) htop hsize' hroom' (by omega)
          exact ⟨_,hl.cons hlo hnext.2 hnext.1 (by omega) hroom fun a h1 h2 => by rw [hblock a h1 h2,hdirty]⟩
      · next hclean =>
        obtain ⟨l,hl⟩ := pushBlocks_selected (h := h) htop hsize hroom (by omega)
        refine ⟨l,hl.skip hnext.1.le fun a h1 h2 => ?_⟩
        rw [hblock a h1 h2]
        simpa using hclean

def oneEntry : State (plainConfig 65536 131072) where
  world := ⟨⟨[], by simp, by simp⟩, fun _ => 0, [], [], fun _ => false, fun _ => false⟩
  marks _ := false
  nMarks _ := 0
  markStack := (BoundedStack.resized 4096 (le_refl _)).push ⟨65536, 16⟩
  markStackTooSmall := false
  markState := .none
  scanPtr := 0
  objectsAreMarked := false

theorem pushSelected_covers_oneDirty :
    ((pushSelected (· == 2) 4100 20000 oneEntry).1 = false ∧
      (pushSelected (· == 2) 4100 20000 oneEntry).2.markStack.entries = [⟨8192, 4096⟩, ⟨65536, 16⟩]) ∧
    ∃ l, Selected (· == 2) 4104 20000 oneEntry (pushSelected (· == 2) 4100 20000 oneEntry) l :=
  ⟨by decide +kernel,pushSelected_covers (by decide) (· == 2) 4100 20000 oneEntry (by decide +kernel)⟩

end Covering

end GcUtil.Mark.Selecting
