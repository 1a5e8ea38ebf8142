import GcUtil.Roots.StaticRoots

/-! The table of static roots of `mark_rts.c` on Windows: a range is merged with the recorded ranges it
overlaps or touches, and the entries merged into another one are deleted. -/
namespace GcUtil.Roots.MergedRoots
open Basic StaticRoots List

section Model

/-- `GC_static_roots[0 .. n_root_sets)` and `GC_root_size`, which is a word. -/
structure MergedTable where
  roots : List Root
  rootSize : BitVec 64
deriving DecidableEq, Repr

def emptyMerged : MergedTable := ⟨[], 0⟩

def touches (b e : Nat) (old : Root) : Bool := decide (b ≤ old.rEnd) && decide (old.rStart ≤ e)

def absorb (old : Root) (b e : Nat) (tmp : Bool) : Root :=
  ⟨if b < old.rStart then b else old.rStart, if old.rEnd < e then e else old.rEnd, old.rTmp && tmp⟩

def widen (t : MergedTable) (k : Nat) (old : Root) (b e : Nat) (tmp : Bool) : MergedTable :=
  let size := if b < old.rStart then t.rootSize + BitVec.ofNat 64 (old.rStart - b) else t.rootSize
  let size := if old.rEnd < e then size + BitVec.ofNat 64 (e - old.rEnd) else size
  ⟨t.roots.set k (absorb old b e tmp), size⟩

/-- The bounds of the last entry are moved to the position of the deleted one; `r_tmp` stays there. -/
def deleteEntry (t : MergedTable) (i : Nat) (other : Root) : MergedTable :=
  match t.roots.getLast? with
  | none => t
  | some last =>
      ⟨(t.roots.set i ⟨last.rStart, last.rEnd, other.rTmp⟩).dropLast,
        t.rootSize - BitVec.ofNat 64 other.length⟩

def mergeLoop (k : Nat) : Nat → Nat → MergedTable → MergedTable
  | 0, _, t => t
  | fuel + 1, i, t =>
      match t.roots[k]?, t.roots[i]? with
      | some old, some other =>
          if touches other.rStart other.rEnd old then
            mergeLoop k fuel (i + 1)
              (deleteEntry (widen t k old other.rStart other.rEnd other.rTmp) i other)
          else mergeLoop k fuel (i + 1) t
      | _, _ => t

/-- `GC_add_roots_inner`; it has no result if the table is full. -/
def addRootsInner (maxRootSets : Nat) (t : MergedTable) (b e : Nat) (tmp : Bool) : Option MergedTable :=
  let b := alignUp b
  let e := alignDown e
  if e ≤ b then some t
  else
    match t.roots.findIdx? (touches b e) with
    | some k =>
        match t.roots[k]? with
        | some old => some (mergeLoop k t.roots.length (k + 1) (widen t k old b e tmp))
        | none => none
    | none =>
        if t.roots.length = maxRootSets then none
        else some ⟨t.roots ++ [⟨b, e, tmp⟩], t.rootSize + BitVec.ofNat 64 (e - b)⟩

structure AddCall where
  b : Nat
  e : Nat
  tmp : Bool
  b_ne_null : b ≠ 0
  b_le_e : b ≤ e
  e_le : e ≤ wordMax

def addAll (maxRootSets : Nat) (calls : List AddCall) : Option MergedTable :=
  calls.foldlM (fun t c => addRootsInner maxRootSets t c.b c.e c.tmp) emptyMerged

end Model

section Joins

variable {r s old new : Root} {rest : List Root} {a b e : Nat}

def Separated (r s : Root) : Prop := r.rEnd < s.rStart ∨ s.rEnd < r.rStart

instance : Std.Symm Separated := ⟨fun _ _ h => Or.symm h⟩

def join (r s : Root) : Root := ⟨min r.rStart s.rStart, max r.rEnd s.rEnd, r.rTmp && s.rTmp⟩

theorem absorb_eq_join (old x : Root) : absorb old x.rStart x.rEnd x.rTmp = join old x := by
  rw [absorb,join,Root.mk.injEq]
  refine ⟨?_,?_,rfl⟩
  · split <;> omega
  · split <;> omega

theorem touches_iff : touches b e r = true ↔ b ≤ r.rEnd ∧ r.rStart ≤ e := by
  simp [touches]

theorem join_comm (r s : Root) : join r s = join s r := by
  simp only [join,Nat.min_comm,Nat.max_comm,Bool.and_comm]

theorem touches_join {x y : Root} (hy : y.rStart < y.rEnd) (hsep : Separated x y)
    (htouch : touches x.rStart x.rEnd old = true) :
    touches y.rStart y.rEnd (join old x) = touches y.rStart y.rEnd old := by
  rw [touches_iff] at htouch
  rw [Bool.eq_iff_iff,touches_iff,touches_iff]
  unfold Separated at hsep
  unfold join
  dsimp only
  omega

theorem touches_symm : touches r.rStart r.rEnd s = touches s.rStart s.rEnd r := by
  rw [Bool.eq_iff_iff,touches_iff,touches_iff]
  omega

theorem foldl_join_contains (new : Root) {l : List Root} (hproper : ∀ x ∈ l, x.rStart < x.rEnd)
    (htouch : ∀ x ∈ l, touches new.rStart new.rEnd x = true) :
    (l.foldl join new).Contains a ↔ new.Contains a ∨ ∃ x ∈ l, x.Contains a := by
  induction l generalizing new with
  | nil => simp
  | cons x xs ih =>
    have hx := touches_iff.mp (htouch x mem_cons_self)
    have hjoin : (join new x).Contains a ↔ new.Contains a ∨ x.Contains a := by
      unfold Root.Contains join
      dsimp only
      omega
    rw [foldl_cons,ih _ (fun y hy => hproper y (mem_cons_of_mem _ hy)),hjoin,or_assoc,
      exists_mem_cons_iff]
    intro y hy
    have hy := touches_iff.mp (htouch y (mem_cons_of_mem _ hy))
    rw [touches_iff]
    simp only [join]
    omega

theorem foldl_join_tmp (new : Root) (l : List Root) :
    (l.foldl join new).rTmp = true ↔ new.rTmp = true ∧ ∀ x ∈ l, x.rTmp = true := by
  induction l generalizing new with
  | nil => simp
  | cons x xs ih =>
    rw [foldl_cons,ih,forall_mem_cons,← and_assoc]
    simp [join]

theorem separated_foldl_join {l : List Root} {y : Root} (hy : y.rStart < y.rEnd)
    (hproper : ∀ x ∈ l, x.rStart < x.rEnd) (htouch : ∀ x ∈ l, touches new.rStart new.rEnd x = true)
    (hsep : ∀ x ∈ l, Separated x y) (hfree : touches new.rStart new.rEnd y = false) :
    Separated (l.foldl join new) y := by
  induction l generalizing new with
  | nil =>
    have hfree' := mt touches_iff.mpr (Bool.eq_false_iff.mp hfree)
    simp only [foldl_nil,Separated]
    omega
  | cons x xs ih =>
    rw [foldl_cons]
    refine ih (fun z hz => hproper z (mem_cons_of_mem _ hz)) ?_
      (fun z hz => hsep z (mem_cons_of_mem _ hz)) ?_
    · intro z hz
      have hz := touches_iff.mp (htouch z (mem_cons_of_mem _ hz))
      rw [touches_iff]
      simp only [join]
      omega
    · rw [touches_symm,touches_join hy (hsep x mem_cons_self),touches_symm,hfree]
      rw [touches_symm]
      exact htouch x mem_cons_self

end Joins

section Merging

variable {old : Root} {rest : List Root} {a b e : Nat} {tmp : Bool}

/-- The loop as a recursion on the entries still to be seen: the entry moved into the hole is
stepped over. -/
def mergeSuffix (old : Root) : List Root → Root × List Root
  | [] => (old, [])
  | x :: xs =>
      if touches x.rStart x.rEnd old then
        match xs.getLast? with
        | none => (join old x, [])
        | some last =>
            let merged := mergeSuffix (join old x) xs.dropLast
            (merged.1, ⟨last.rStart, last.rEnd, x.rTmp⟩ :: merged.2)
      else
        let merged := mergeSuffix old xs
        (merged.1, x :: merged.2)
termination_by l => l.length

structure MergedTable.Sized (t : MergedTable) : Prop where
  proper : ∀ r ∈ t.roots, r.rStart < r.rEnd
  size : t.rootSize = BitVec.ofNat 64 (totalLength t.roots)

theorem widen_sized {t : MergedTable} {k : Nat} (h : t.Sized) (hold : t.roots[k]? = some old) (hbe : b < e)
    (tmp : Bool) :
    (widen t k old b e tmp).Sized := by
  have hproper := h.proper old (mem_of_getElem? hold)
  refine ⟨fun r hr => ?_,?_⟩
  · rcases mem_or_eq_of_mem_set hr with hr | rfl
    · exact h.proper r hr
    · simp only [absorb]
      split <;> split <;> omega
  · have hset := totalLength_set_add hold (absorb old b e tmp)
    have hlen : (absorb old b e tmp).length =
        old.length + (if b < old.rStart then old.rStart - b else 0) + (if old.rEnd < e then e - old.rEnd else 0) := by
      simp only [absorb,Root.length]
      split <;> split <;> omega
    have htotal : totalLength (t.roots.set k (absorb old b e tmp)) = totalLength t.roots +
        (if b < old.rStart then old.rStart - b else 0) + (if old.rEnd < e then e - old.rEnd else 0) := by
      omega
    simp only [widen,htotal,h.size]
    split <;> split <;> simp [BitVec.ofNat_add]

def fillHole (x : Root) (xs : List Root) : List Root :=
  match xs.getLast? with
  | none => []
  | some last => ⟨last.rStart, last.rEnd, x.rTmp⟩ :: xs.dropLast

theorem deleteEntry_roots {t : MergedTable} {pre xs : List Root} {x : Root} (ht : t.roots = pre ++ x :: xs) :
    (deleteEntry t pre.length x).roots = pre ++ fillHole x xs := by
  rcases eq_nil_or_concat xs with rfl | ⟨ys,y,rfl⟩
  · simp [deleteEntry,ht,fillHole]
  · have hassoc : pre ++ x :: (ys ++ [y]) = (pre ++ x :: ys) ++ [y] := by simp
    rw [concat_eq_append] at ht ⊢
    rw [deleteEntry,ht,hassoc,List.getLast?_concat]
    dsimp only
    rw [← hassoc,set_append_right _ _ (Nat.le_refl _),Nat.sub_self,set_cons_zero,fillHole,
      List.getLast?_concat]
    dsimp only
    rw [← cons_append,← append_assoc,dropLast_concat,dropLast_concat]

theorem totalLength_fillHole (x : Root) (xs : List Root) : totalLength (fillHole x xs) = totalLength xs := by
  rcases eq_nil_or_concat xs with rfl | ⟨ys,y,rfl⟩
  · rfl
  · rw [concat_eq_append,fillHole,List.getLast?_concat,dropLast_concat]
    simp [totalLength,Root.length,Nat.add_comm]

theorem mem_fillHole {x y : Root} {xs : List Root} (hy : y ∈ fillHole x xs) :
    ∃ z ∈ xs, y.rStart = z.rStart ∧ y.rEnd = z.rEnd := by
  rcases eq_nil_or_concat xs with rfl | ⟨ys,z,rfl⟩
  · simp [fillHole] at hy
  · rw [concat_eq_append,fillHole,List.getLast?_concat,dropLast_concat] at hy
    rw [concat_eq_append]
    rcases mem_cons.mp hy with rfl | hy
    · exact ⟨z,mem_append_right _ (mem_singleton.mpr rfl),rfl,rfl⟩
    · exact ⟨y,mem_append_left _ hy,rfl,rfl⟩

theorem deleteEntry_sized {t : MergedTable} {pre xs : List Root} {x : Root} (h : t.Sized)
    (ht : t.roots = pre ++ x :: xs) : (deleteEntry t pre.length x).Sized := by
  refine ⟨fun r hr => ?_,?_⟩
  · rw [deleteEntry_roots ht] at hr
    rcases mem_append.mp hr with hr | hr
    · exact h.proper r (ht ▸ mem_append_left _ hr)
    · obtain ⟨z,hz,hstart,hend⟩ := mem_fillHole hr
      rw [hstart,hend]
      exact h.proper z (ht ▸ mem_append_right _ (mem_cons_of_mem _ hz))
  · have hsize : (deleteEntry t pre.length x).rootSize = t.rootSize - BitVec.ofNat 64 x.length := by
      rw [deleteEntry,ht,List.getLast?_eq_some_getLast (by simp)]
    have htotal : totalLength (pre ++ x :: xs) = totalLength (pre ++ fillHole x xs) + x.length := by
      rw [totalLength_append,totalLength_append,totalLength_fillHole]
      simp only [totalLength,map_cons,sum_cons]
      omega
    rw [hsize,h.size,ht,htotal,deleteEntry_roots ht,BitVec.ofNat_add,BitVec.add_sub_cancel]

theorem mergeLoop_stop {k fuel i : Nat} {t : MergedTable} (hi : t.roots.length ≤ i) : mergeLoop k fuel i t = t := by
  cases fuel with
  | zero => rfl
  | succ fuel =>
    rw [mergeLoop,List.getElem?_eq_none hi]
    cases t.roots[k]? <;> rfl

theorem mergeLoop_eq (pre seen rest : List Root) (old : Root) (fuel : Nat) {t : MergedTable} (h : t.Sized)
    (ht : t.roots = pre ++ old :: (seen ++ rest)) (hfuel : rest.length ≤ fuel) :
    (mergeLoop pre.length fuel (pre.length + 1 + seen.length) t).Sized ∧
    (mergeLoop pre.length fuel (pre.length + 1 + seen.length) t).roots =
      pre ++ (mergeSuffix old rest).1 :: (seen ++ (mergeSuffix old rest).2) := by
  induction fuel generalizing old seen rest t with
  | zero =>
    rw [eq_nil_of_length_eq_zero (Nat.le_zero.mp hfuel)] at ht ⊢
    simpa [mergeLoop,mergeSuffix,ht] using h
  | succ fuel ih =>
    have hold : t.roots[pre.length]? = some old := by simp [ht]
    cases rest with
    | nil =>
      rw [mergeLoop_stop (by simp [ht]; omega),mergeSuffix]
      exact ⟨h,ht⟩
    | cons x xs =>
      have hsplit : t.roots = (pre ++ old :: seen) ++ x :: xs := by simp [ht]
      have hlen (r : Root) : (pre ++ r :: seen).length = pre.length + 1 + seen.length := by
        simp only [length_append,length_cons]
        omega
      have hx : t.roots[pre.length + 1 + seen.length]? = some x := by
        rw [hsplit,← hlen old,List.getElem?_append_right (Nat.le_refl _)]
        simp
      rw [length_cons] at hfuel
      rw [mergeLoop,hold,hx]
      dsimp only
      by_cases htouch : touches x.rStart x.rEnd old = true
      · have hproper := h.proper x (hsplit ▸ mem_append_right _ mem_cons_self)
        have hset : (widen t pre.length old x.rStart x.rEnd x.rTmp).roots =
            (pre ++ join old x :: seen) ++ x :: xs := by
          simp [widen,ht,absorb_eq_join]
        have hsized := deleteEntry_sized (widen_sized h hold hproper x.rTmp) hset
        have hroots := deleteEntry_roots hset
        rw [hlen] at hsized hroots
        rw [if_pos htouch,mergeSuffix,if_pos htouch]
        rcases eq_nil_or_concat xs with rfl | ⟨ys,y,rfl⟩
        · rw [mergeLoop_stop (by rw [hroots,fillHole,List.getLast?_nil,append_nil,hlen]; omega)]
          refine ⟨hsized,?_⟩
          rw [hroots,fillHole]
          simp
        · rw [concat_eq_append] at hroots hfuel ⊢
          rw [length_append,length_singleton] at hfuel
          have hstep := ih (seen ++ [⟨y.rStart,y.rEnd,x.rTmp⟩]) ys (join old x) hsized
            (by rw [hroots,fillHole]; simp) (by omega)
          simpa [Nat.add_assoc] using hstep
      · have hstep := ih (seen ++ [x]) xs old h (by simp [ht]) (by omega)
        rw [if_neg htouch,mergeSuffix,if_neg htouch]
        simpa [Nat.add_assoc] using hstep

end Merging

section Exactness

variable {old : Root} {rest : List Root} {a b e : Nat} {tmp : Bool}

def HolesFit (b e : Nat) (rest : List Root) : Prop :=
  ∀ p ∈ (rest.filter (touches b e)).zip rest.reverse,
    p.1 = p.2 ∨ touches b e p.2 = false ∧ p.2.rTmp = p.1.rTmp

theorem zip_append_of_le {α β : Type} {l : List α} {m k : List β} (h : l.length ≤ m.length) :
    l.zip (m ++ k) = l.zip m := by
  induction l generalizing m with
  | nil => simp
  | cons x l ih =>
    cases m with
    | nil => simp at h
    | cons y m =>
      rw [cons_append,zip_cons_cons,zip_cons_cons,ih (Nat.le_of_succ_le_succ h)]

theorem zip_filter_reverse_append (p : Root → Bool) (x : Root) (xs : List Root) :
    (xs.filter p).zip (xs.reverse ++ [x]) = (xs.filter p).zip xs.reverse :=
  zip_append_of_le (by rw [length_reverse]; exact length_filter_le _ _)

theorem holesFit_skip {x : Root} {xs : List Root} (hx : touches b e x = false) :
    HolesFit b e (x :: xs) ↔ HolesFit b e xs := by
  rw [HolesFit,HolesFit,filter_cons_of_neg (by simp [hx]),reverse_cons,zip_filter_reverse_append]

theorem holesFit_fill {x y : Root} {ys : List Root} (hx : touches b e x = true) (hne : x ≠ y) :
    HolesFit b e (x :: (ys ++ [y])) ↔ (touches b e y = false ∧ y.rTmp = x.rTmp) ∧ HolesFit b e ys := by
  rw [HolesFit,filter_cons_of_pos hx,reverse_cons,reverse_append,reverse_singleton,
    singleton_append,cons_append,zip_cons_cons,forall_mem_cons,or_iff_right hne]
  refine and_congr_right fun hy => ?_
  rw [filter_append,filter_cons_of_neg (by simp [hy.1]),filter_nil,append_nil,
    zip_filter_reverse_append]
  rfl

theorem separated_ne {x y : Root} (hx : x.rStart < x.rEnd) (hsep : Separated x y) : x ≠ y := by
  rintro rfl
  unfold Separated at hsep
  omega

/-- Either everything touched is merged and the rest is kept, or an entry is left that touches the range
or has lost its flag. -/
theorem mergeSuffix_spec (hproper : ∀ x ∈ rest, x.rStart < x.rEnd) (hsep : rest.Pairwise Separated)
    (htouch : ∀ x ∈ rest, touches x.rStart x.rEnd old = touches b e x) :
    (HolesFit b e rest → (mergeSuffix old rest).1 = (rest.filter (touches b e)).foldl join old ∧
      (mergeSuffix old rest).2.Perm (rest.filter fun x => !touches b e x)) ∧
    (¬ HolesFit b e rest → ∃ y ∈ rest, ∃ z ∈ (mergeSuffix old rest).2, z.rStart = y.rStart ∧ z.rEnd = y.rEnd ∧
      (touches b e y = true ∨ z.rTmp ≠ y.rTmp)) := by
  fun_induction mergeSuffix old rest with
  | case1 old =>
    refine ⟨fun _ => ⟨rfl,List.Perm.refl _⟩,fun h => absurd ?_ h⟩
    intro p hp
    cases hp
  | case2 old x xs hx hlast =>
    rw [List.getLast?_eq_none_iff.mp hlast] at htouch ⊢
    have hxt : touches b e x = true := (htouch x mem_cons_self).symm.trans hx
    refine ⟨fun _ => ?_,fun h => absurd ?_ h⟩
    · rw [filter_cons_of_pos hxt,filter_cons_of_neg (by simp [hxt])]
      exact ⟨rfl,List.Perm.refl _⟩
    · intro p hp
      rw [filter_cons_of_pos hxt] at hp
      cases mem_singleton.mp hp
      exact .inl rfl
  | case3 old x xs hx last hlast merged ih =>
    obtain ⟨ys,rfl⟩ := List.getLast?_eq_some_iff.mp hlast
    simp only [merged,dropLast_concat] at ih ⊢
    have hxt : touches b e x = true := (htouch x mem_cons_self).symm.trans hx
    have hys : ∀ y ∈ ys, y ∈ x :: (ys ++ [last]) := fun y hy => by simp [hy]
    have hin : last ∈ x :: (ys ++ [last]) := by simp
    obtain ⟨hxsep,hrest⟩ := pairwise_cons.mp hsep
    have hne := separated_ne (hproper x mem_cons_self) (hxsep last (by simp))
    have htouch' : ∀ y ∈ ys, touches y.rStart y.rEnd (join old x) = touches b e y := by
      intro y hy
      rw [touches_join (hproper y (hys y hy)) (hxsep y (mem_append_left _ hy)) hx,htouch y (hys y hy)]
    obtain ⟨hfit,hunfit⟩ := ih (fun y hy => hproper y (hys y hy)) (pairwise_append.mp hrest).1 htouch'
    rw [holesFit_fill hxt hne]
    refine ⟨fun ⟨hy,hfits⟩ => ?_,fun hnot => ?_⟩
    · obtain ⟨hjoin,hperm⟩ := hfit hfits
      rw [filter_cons_of_pos hxt,filter_cons_of_neg (by simp [hxt]),filter_append,
        filter_append,filter_cons_of_neg (by simp [hy.1]),filter_cons_of_pos (by simp [hy.1]),
        filter_nil,append_nil,filter_nil,← hy.2]
      exact ⟨hjoin,(hperm.cons _).trans (perm_append_singleton _ _).symm⟩
    · by_cases hy : touches b e last = false ∧ last.rTmp = x.rTmp
      · obtain ⟨y,hmem,z,hz,hyz⟩ := hunfit fun hfits => hnot ⟨hy,hfits⟩
        exact ⟨y,hys y hmem,z,mem_cons_of_mem _ hz,hyz⟩
      · refine ⟨last,hin,_,mem_cons_self,rfl,rfl,?_⟩
        rcases Bool.eq_false_or_eq_true (touches b e last) with hlt | hlf
        · exact .inl hlt
        · exact .inr fun heq => hy ⟨hlf,heq.symm⟩
  | case4 old x xs hx merged ih =>
    have hxf : touches b e x = false := by
      rw [← htouch x mem_cons_self]
      exact Bool.eq_false_iff.mpr hx
    obtain ⟨hfit,hunfit⟩ := ih (fun y hy => hproper y (mem_cons_of_mem _ hy)) (pairwise_cons.mp hsep).2
      (fun y hy => htouch y (mem_cons_of_mem _ hy))
    rw [holesFit_skip hxf]
    refine ⟨fun hfits => ?_,fun hnot => ?_⟩
    · obtain ⟨hjoin,hperm⟩ := hfit hfits
      rw [filter_cons_of_neg (by simp [hxf]),filter_cons_of_pos (by simp [hxf])]
      exact ⟨hjoin,hperm.cons _⟩
    · obtain ⟨y,hmem,z,hz,hyz⟩ := hunfit hnot
      exact ⟨y,mem_cons_of_mem _ hmem,z,mem_cons_of_mem _ hz,hyz⟩

theorem mergeSuffix_bounds (old : Root) (rest : List Root) :
    (mergeSuffix old rest).1.rStart ≤ old.rStart ∧ old.rEnd ≤ (mergeSuffix old rest).1.rEnd := by
  fun_induction mergeSuffix old rest with
  | case1 old => exact ⟨Nat.le_refl _,Nat.le_refl _⟩
  | case2 old x xs hx hlast =>
    simp only [join]
    omega
  | case3 old x xs hx last hlast merged ih =>
    have hjoin : (join old x).rStart ≤ old.rStart ∧ old.rEnd ≤ (join old x).rEnd := by
      simp only [join]
      omega
    exact ⟨Nat.le_trans ih.1 hjoin.1,Nat.le_trans hjoin.2 ih.2⟩
  | case4 old x xs hx merged ih => exact ih

end Exactness

section Steps

variable {maxRootSets : Nat} {t t' : MergedTable} {added : List AddCall} {c : AddCall} {a b e : Nat} {tmp : Bool}

def AddCall.lo (c : AddCall) : Nat := (c.b + (alignment - 1)) / alignment * alignment

def AddCall.hi (c : AddCall) : Nat := alignDown c.e

def AddCall.Within (c : AddCall) (r : Root) : Prop := c.lo < c.hi ∧ r.rStart ≤ c.lo ∧ c.hi ≤ r.rEnd

/-- The recorded intervals are pairwise neither overlapping nor adjacent, have the union of the added
ranges and their total length as size, and each is temporary if and only if all ranges in it are. -/
structure Merged (t : MergedTable) (added : List AddCall) : Prop where
  sized : t.Sized
  separated : t.roots.Pairwise Separated
  covers : ∀ a, (∃ r ∈ t.roots, r.Contains a) ↔ ∃ c ∈ added, c.lo ≤ a ∧ a < c.hi
  temporary : ∀ r ∈ t.roots, r.rTmp = true ↔ ∀ c ∈ added, c.Within r → c.tmp = true

def Fits (t : MergedTable) (c : AddCall) : Prop :=
  c.b + (alignment - 1) ≤ wordMax ∧
    (c.lo < c.hi → ∀ k, t.roots.findIdx? (touches c.lo c.hi) = some k →
      HolesFit c.lo c.hi (t.roots.drop (k + 1)))

def mergedRoots (roots : List Root) (new : Root) : List Root :=
  (roots.filter (touches new.rStart new.rEnd)).foldl join new ::
    roots.filter fun x => !touches new.rStart new.rEnd x

theorem alignUp_eq_lo (hb : c.b + (alignment - 1) ≤ wordMax) : alignUp c.b = c.lo := by
  unfold alignUp AddCall.lo wordAdd wordMax alignment at *
  omega

theorem alignUp_wrap (hb : wordMax < c.b + (alignment - 1)) : alignUp c.b = 0 ∧ 0 < c.hi ∧ c.hi < c.lo := by
  have := c.b_le_e
  have := c.e_le
  unfold alignUp AddCall.hi AddCall.lo alignDown wordAdd wordMax alignment at *
  omega

theorem AddCall.lo_pos (c : AddCall) : 0 < c.lo := by
  have := c.b_ne_null
  unfold AddCall.lo alignment
  omega

theorem addRootsInner_cases (h : t.Sized) (hadd : addRootsInner maxRootSets t b e tmp = some t') :
    (alignDown e ≤ alignUp b ∧ t' = t) ∨
    (alignUp b < alignDown e ∧ t'.Sized ∧ t.roots.findIdx? (touches (alignUp b) (alignDown e)) = none ∧
      t'.roots = t.roots ++ [⟨alignUp b, alignDown e, tmp⟩]) ∨
    ∃ pre old rest, alignUp b < alignDown e ∧ t'.Sized ∧ t.roots = pre ++ old :: rest ∧
      t.roots.findIdx? (touches (alignUp b) (alignDown e)) = some pre.length ∧
      t'.roots = pre ++ (mergeSuffix (join old ⟨alignUp b, alignDown e, tmp⟩) rest).1 ::
        (mergeSuffix (join old ⟨alignUp b, alignDown e, tmp⟩) rest).2 := by
  unfold addRootsInner at hadd
  dsimp only at hadd
  split at hadd
  · rename_i hempty
    cases hadd
    exact .inl ⟨hempty,rfl⟩
  · rename_i hlt
    have hlt := Nat.lt_of_not_le hlt
    refine .inr ?_
    cases hfind : t.roots.findIdx? (touches (alignUp b) (alignDown e)) with
    | none =>
      rw [hfind] at hadd
      dsimp only at hadd
      split at hadd
      · cases hadd
      · cases hadd
        refine .inl ⟨hlt,⟨?_,?_⟩,rfl,rfl⟩
        · simpa [or_imp,forall_and] using ⟨h.proper,hlt⟩
        · rw [h.size,totalLength_append,BitVec.ofNat_add]
          simp [totalLength,Root.length]
    | some k =>
      rw [hfind] at hadd
      dsimp only at hadd
      cases hold : t.roots[k]? with
      | none =>
        rw [hold] at hadd
        cases hadd
      | some old =>
        rw [hold] at hadd
        cases hadd
        obtain ⟨hk,hget⟩ := List.getElem?_eq_some_iff.mp hold
        have hsplit : t.roots = t.roots.take k ++ old :: t.roots.drop (k + 1) := by
          rw [← hget,getElem_cons_drop,take_append_drop]
        have hlen : (t.roots.take k).length = k := length_take_of_le (Nat.le_of_lt hk)
        have hwide : (widen t k old (alignUp b) (alignDown e) tmp).roots =
            t.roots.take k ++ join old ⟨alignUp b,alignDown e,tmp⟩ :: ([] ++ t.roots.drop (k + 1)) := by
          rw [widen,← absorb_eq_join]
          dsimp only
          rw [set_eq_take_append_cons_drop,if_pos hk,nil_append]
        obtain ⟨hsized,hroots⟩ := mergeLoop_eq _ [] _ _ t.roots.length (widen_sized h hold hlt tmp) hwide
          (by rw [length_drop]; omega)
        rw [hlen] at hsized hroots
        refine .inr ⟨t.roots.take k,old,t.roots.drop (k + 1),hlt,hsized,hsplit,?_,?_⟩
        · rw [hlen]
        · rw [nil_append] at hroots
          exact hroots

theorem merge_perm {pre rest : List Root} {old : Root} (new : Root)
    (hproper : ∀ r ∈ pre ++ old :: rest, r.rStart < r.rEnd) (hsep : (pre ++ old :: rest).Pairwise Separated)
    (hfind : (pre ++ old :: rest).findIdx? (touches new.rStart new.rEnd) = some pre.length) :
    (HolesFit new.rStart new.rEnd rest →
      (pre ++ (mergeSuffix (join old new) rest).1 :: (mergeSuffix (join old new) rest).2).Perm
        (mergedRoots (pre ++ old :: rest) new)) ∧
    (¬ HolesFit new.rStart new.rEnd rest →
      ∃ y ∈ rest, ∃ z ∈ (mergeSuffix (join old new) rest).2, z.rStart = y.rStart ∧ z.rEnd = y.rEnd ∧
        (touches new.rStart new.rEnd y = true ∨ z.rTmp ≠ y.rTmp)) := by
  obtain ⟨hlen,hpos,hbefore⟩ := List.findIdx?_eq_some_iff_getElem.mp hfind
  have hold : touches new.rStart new.rEnd old = true := by
    simpa using hpos
  have hpre : ∀ x ∈ pre, touches new.rStart new.rEnd x = false := by
    intro x hx
    obtain ⟨j,hj,rfl⟩ := mem_iff_getElem.mp hx
    have := hbefore j hj
    rw [getElem_append_left hj] at this
    exact Bool.eq_false_iff.mpr this
  obtain ⟨_,hsepOld,_⟩ := pairwise_append.mp hsep
  obtain ⟨hold',hsepRest⟩ := pairwise_cons.mp hsepOld
  have hrest : ∀ x ∈ rest, x ∈ pre ++ old :: rest := fun x hx => by simp [hx]
  have htouch : ∀ x ∈ rest, touches x.rStart x.rEnd (join old new) = touches new.rStart new.rEnd x := by
    intro x hx
    rw [join_comm,touches_join (hproper x (hrest x hx)) (hold' x hx) (by rw [touches_symm]; exact hold),touches_symm]
  obtain ⟨hfit,hunfit⟩ := mergeSuffix_spec (fun x hx => hproper x (hrest x hx)) hsepRest htouch
  refine ⟨fun hfits => ?_,hunfit⟩
  obtain ⟨hjoin,hperm⟩ := hfit hfits
  have htouched : (pre ++ old :: rest).filter (touches new.rStart new.rEnd) =
      old :: rest.filter (touches new.rStart new.rEnd) := by
    rw [filter_append,filter_eq_nil_iff.mpr (by simpa using hpre),nil_append,
      filter_cons_of_pos hold]
  have hkept : ((pre ++ old :: rest).filter fun x => !touches new.rStart new.rEnd x) =
      pre ++ rest.filter fun x => !touches new.rStart new.rEnd x := by
    rw [filter_append,filter_eq_self.mpr (by simpa using hpre),filter_cons_of_neg (by simp [hold])]
  rw [mergedRoots,htouched,hkept,foldl_cons,join_comm new,hjoin]
  exact perm_middle.trans ((hperm.append_left pre).cons _)

theorem AddCall.Within.touches {r : Root} (h : c.Within r) : touches c.lo c.hi r = true := by
  obtain ⟨hlt,hstart,hend⟩ := h
  rw [touches_iff]
  omega

def AddCall.hull (c : AddCall) (roots : List Root) : Root :=
  (roots.filter (MergedRoots.touches c.lo c.hi)).foldl join ⟨c.lo, c.hi, c.tmp⟩

theorem bounds_of_contains {r : Root} {lo hi : Nat} (hlo : r.Contains lo)
    (hhi : r.Contains (hi - 1)) : r.rStart ≤ lo ∧ hi ≤ r.rEnd := by
  unfold Root.Contains at hlo hhi
  omega

theorem AddCall.not_within {r : Root} (hfree : MergedRoots.touches c.lo c.hi r = false) : ¬ c.Within r := by
  intro hwithin
  rw [hwithin.touches] at hfree
  cases hfree

theorem temporary_append {r : Root} (hout : ¬ c.Within r) :
    (∀ d ∈ added ++ [c], d.Within r → d.tmp = true) ↔ ∀ d ∈ added, d.Within r → d.tmp = true := by
  refine ⟨fun hall d hd => hall d (mem_append_left _ hd),fun hall d hd hwithin => ?_⟩
  rcases mem_append.mp hd with hd | hd
  · exact hall d hd hwithin
  · cases mem_singleton.mp hd
    exact absurd hwithin hout

theorem not_merged_of_left {pre kept : List Root} {wide y z : Root} (h : Merged t added)
    (hroots : t'.roots = pre ++ wide :: kept) (hwide : wide.rStart ≤ c.lo ∧ c.hi ≤ wide.rEnd) (hy : y ∈ t.roots)
    (hz : z ∈ kept) (hstart : z.rStart = y.rStart) (hend : z.rEnd = y.rEnd)
    (hleft : touches c.lo c.hi y = true ∨ z.rTmp ≠ y.rTmp) : ¬ Merged t' (added ++ [c]) := by
  intro h'
  by_cases htouch : touches c.lo c.hi y = true
  · have hsep := h'.separated
    rw [hroots] at hsep
    have hwz := (pairwise_cons.mp (pairwise_append.mp hsep).2.1).1 z hz
    rw [touches_iff] at htouch
    unfold Separated at hwz
    omega
  · have hzt : z ∈ t'.roots := by rw [hroots]; simp [hz]
    have hwithin : ∀ d : AddCall, d.Within z ↔ d.Within y := by
      intro d
      rw [AddCall.Within,AddCall.Within,hstart,hend]
    have hfree : touches c.lo c.hi z = false := by
      rw [touches,hstart,hend]
      exact Bool.eq_false_iff.mpr htouch
    have htmp := h'.temporary z hzt
    rw [temporary_append (AddCall.not_within hfree)] at htmp
    simp only [hwithin] at htmp
    rw [← h.temporary y hy,← Bool.eq_iff_iff] at htmp
    exact hleft.elim htouch fun hne => hne htmp

theorem not_merged_of_wrap (h : t.Sized) (hadd : addRootsInner maxRootSets t c.b c.e c.tmp = some t')
    (hb : wordMax < c.b + (alignment - 1)) : ¬ Merged t' (added ++ [c]) := by
  intro h'
  obtain ⟨hzero,hpos,_⟩ := alignUp_wrap hb
  have hcovered : ∃ r ∈ t'.roots, r.Contains 0 := by
    rcases addRootsInner_cases h hadd with ⟨hempty,_⟩ | ⟨_,_,_,hroots⟩ | ⟨pre,old,rest,_,_,_,_,hroots⟩
    · rw [hzero] at hempty
      exact absurd hempty (Nat.not_le_of_lt hpos)
    · rw [hroots,hzero]
      exact ⟨_,mem_append_right _ (mem_singleton.mpr rfl),Nat.le_refl _,hpos⟩
    · rw [hroots,hzero]
      refine ⟨_,mem_append_right _ mem_cons_self,?_⟩
      have hbounds := mergeSuffix_bounds (join old ⟨0,alignDown c.e,c.tmp⟩) rest
      have hjoin : (join old ⟨0,alignDown c.e,c.tmp⟩).rStart = 0 ∧
          alignDown c.e ≤ (join old ⟨0,alignDown c.e,c.tmp⟩).rEnd := by
        simp only [join]
        omega
      unfold AddCall.hi at hpos
      unfold Root.Contains
      omega
  obtain ⟨d,_,hd,_⟩ := (h'.covers 0).mp hcovered
  have := d.lo_pos
  omega

section

variable (h : Merged t added)
include h

theorem Merged.exists_within (hc : c ∈ added) (hlt : c.lo < c.hi) :
    ∃ r ∈ t.roots, c.Within r := by
  obtain ⟨r,hr,hstart,hend⟩ := (h.covers c.lo).mpr ⟨c,hc,Nat.le_refl _,hlt⟩
  refine ⟨r,hr,hlt,hstart,?_⟩
  by_contra hout
  obtain ⟨s,hs,hs1,hs2⟩ := (h.covers r.rEnd).mpr ⟨c,hc,Nat.le_of_lt hend,Nat.lt_of_not_le hout⟩
  have hne : r ≠ s := by
    rintro rfl
    omega
  rcases h.separated.forall hr hs hne with hsep | hsep
  · omega
  · omega

theorem Merged.hull_contains :
    (c.hull t.roots).Contains a ↔
      (c.lo ≤ a ∧ a < c.hi) ∨ ∃ x ∈ t.roots, touches c.lo c.hi x = true ∧ x.Contains a := by
  have hjoin := foldl_join_contains (a := a) (l := t.roots.filter (touches c.lo c.hi)) ⟨c.lo,c.hi,c.tmp⟩
    (fun x hx => h.sized.proper x (mem_filter.mp hx).1) (fun x hx => (mem_filter.mp hx).2)
  rw [AddCall.hull,hjoin]
  simp only [mem_filter,and_assoc]
  rfl

theorem Merged.hull_separated {y : Root} (hy : y ∈ t.roots)
    (hfree : touches c.lo c.hi y = false) : Separated (c.hull t.roots) y := by
  refine separated_foldl_join (h.sized.proper y hy) (fun x hx => h.sized.proper x (mem_filter.mp hx).1)
    (fun x hx => (mem_filter.mp hx).2) ?_ hfree
  intro x hx
  obtain ⟨hxt,htouch⟩ := mem_filter.mp hx
  refine h.separated.forall hxt hy ?_
  rintro rfl
  rw [htouch] at hfree
  cases hfree

theorem Merged.within_hull (hlt : c.lo < c.hi) : c.Within (c.hull t.roots) :=
  ⟨hlt,bounds_of_contains (h.hull_contains.mpr (.inl ⟨Nat.le_refl _,hlt⟩))
    (h.hull_contains.mpr (.inl (by omega)))⟩

theorem Merged.le_hull {x : Root} (hx : x ∈ t.roots) (htouch : touches c.lo c.hi x = true) :
    (c.hull t.roots).rStart ≤ x.rStart ∧ x.rEnd ≤ (c.hull t.roots).rEnd := by
  have hproper := h.sized.proper x hx
  refine bounds_of_contains (h.hull_contains.mpr (.inr ⟨x,hx,htouch,?_⟩))
    (h.hull_contains.mpr (.inr ⟨x,hx,htouch,?_⟩))
  · exact ⟨Nat.le_refl _,hproper⟩
  · unfold Root.Contains
    omega

theorem Merged.hull_temporary (hlt : c.lo < c.hi) :
    (c.hull t.roots).rTmp = true ↔ ∀ d ∈ added ++ [c], d.Within (c.hull t.roots) → d.tmp = true := by
  rw [AddCall.hull,foldl_join_tmp,← AddCall.hull]
  constructor
  · rintro ⟨hc,hall⟩ d hd hwithin
    rcases mem_append.mp hd with hd | hd
    · obtain ⟨x,hx,hdx⟩ := h.exists_within hd hwithin.1
      by_cases htouch : touches c.lo c.hi x = true
      · exact (h.temporary x hx).mp (hall x (mem_filter.mpr ⟨hx,htouch⟩)) d hd hdx
      · have hsep := h.hull_separated hx (Bool.eq_false_iff.mpr htouch)
        unfold Separated at hsep
        unfold AddCall.Within at hdx hwithin
        omega
    · cases mem_singleton.mp hd
      exact hc
  · intro hall
    refine ⟨hall c (mem_append_right _ (mem_singleton.mpr rfl)) (h.within_hull hlt),fun x hx => ?_⟩
    obtain ⟨hxt,htouch⟩ := mem_filter.mp hx
    refine (h.temporary x hxt).mpr fun d hd hdx => hall d (mem_append_left _ hd) ⟨hdx.1,?_⟩
    have hle := h.le_hull hxt htouch
    exact ⟨Nat.le_trans hle.1 hdx.2.1,Nat.le_trans hdx.2.2 hle.2⟩

theorem Merged.append_empty (hempty : c.hi ≤ c.lo) : Merged t (added ++ [c]) := by
  refine ⟨h.sized,h.separated,fun a => ?_,fun r hr => ?_⟩
  · have hnone : ¬ (c.lo ≤ a ∧ a < c.hi) := by omega
    simp only [h.covers,mem_append,mem_singleton,or_and_right,exists_or,exists_eq_left,hnone,or_false]
  · rw [temporary_append fun hwithin => by have := hwithin.1; omega]
    exact h.temporary r hr

theorem merged_of_perm (hlt : c.lo < c.hi) (hsized : t'.Sized)
    (hperm : t'.roots.Perm (mergedRoots t.roots ⟨c.lo, c.hi, c.tmp⟩)) : Merged t' (added ++ [c]) := by
  have hroots : t'.roots.Perm (c.hull t.roots :: t.roots.filter fun x => !touches c.lo c.hi x) := hperm
  have hmem : ∀ r, r ∈ t'.roots ↔ r = c.hull t.roots ∨ r ∈ t.roots ∧ touches c.lo c.hi r = false := by
    intro r
    rw [hroots.mem_iff,mem_cons,mem_filter,Bool.not_eq_true']
  refine ⟨hsized,?_,fun a => ?_,fun r hr => ?_⟩
  · refine hroots.symm.pairwise (pairwise_cons.mpr ⟨fun y hy => ?_,h.separated.filter _⟩) fun hsep => Or.symm hsep
    obtain ⟨hyt,hfree⟩ := mem_filter.mp hy
    exact h.hull_separated hyt (by simpa using hfree)
  · have hcovers := h.covers a
    have hhull := h.hull_contains (c := c) (a := a)
    simp only [hmem,mem_append,mem_singleton,or_and_right,exists_or,exists_eq_left]
    rw [hhull,← hcovers]
    constructor
    · rintro ((hnew | ⟨x,hx,_,hxa⟩) | ⟨x,⟨hx,_⟩,hxa⟩)
      · exact .inr hnew
      · exact .inl ⟨x,hx,hxa⟩
      · exact .inl ⟨x,hx,hxa⟩
    · rintro (⟨x,hx,hxa⟩ | hnew)
      · by_cases htouch : touches c.lo c.hi x = true
        · exact .inl (.inr ⟨x,hx,htouch,hxa⟩)
        · exact .inr ⟨x,⟨hx,Bool.eq_false_iff.mpr htouch⟩,hxa⟩
      · exact .inl (.inl hnew)
  · rcases (hmem r).mp hr with rfl | ⟨hrt,hfree⟩
    · exact h.hull_temporary hlt
    · rw [temporary_append (AddCall.not_within hfree)]
      exact h.temporary r hrt

theorem merged_append_iff (hadd : addRootsInner maxRootSets t c.b c.e c.tmp = some t') :
    Merged t' (added ++ [c]) ↔ Fits t c := by
  by_cases hb : c.b + (alignment - 1) ≤ wordMax
  · have hcases := addRootsInner_cases h.sized hadd
    rw [alignUp_eq_lo hb,← AddCall.hi] at hcases
    rcases hcases with ⟨hempty,rfl⟩ | ⟨hlt,hsized,hfind,hroots⟩ | ⟨pre,old,rest,hlt,hsized,hsplit,hfind,hroots⟩
    · exact iff_of_true (h.append_empty hempty) ⟨hb,fun hlt => by omega⟩
    · refine iff_of_true (merged_of_perm h hlt hsized ?_) ⟨hb,fun _ k hk => ?_⟩
      · have hfree := List.findIdx?_eq_none_iff.mp hfind
        rw [hroots,mergedRoots,filter_eq_nil_iff.mpr (by simpa using hfree),
          filter_eq_self.mpr (by simpa using hfree)]
        exact perm_append_singleton _ _
      · rw [hfind] at hk
        cases hk
    · have hproper := h.sized.proper
      have hsep := h.separated
      rw [hsplit] at hproper hsep hfind
      obtain ⟨hfit,hunfit⟩ := merge_perm ⟨c.lo,c.hi,c.tmp⟩ hproper hsep hfind
      have hfits : Fits t c ↔ HolesFit c.lo c.hi rest := by
        rw [Fits,and_iff_right hb,hsplit,hfind]
        simp [hlt]
      rw [hfits]
      constructor
      · intro h'
        by_contra hnot
        obtain ⟨y,hy,z,hz,hstart,hend,hleft⟩ := hunfit hnot
        refine not_merged_of_left h hroots ?_ (hsplit ▸ by simp [hy]) hz hstart hend hleft h'
        have hbounds := mergeSuffix_bounds (join old ⟨c.lo,c.hi,c.tmp⟩) rest
        simp only [join] at hbounds ⊢
        omega
      · intro hholes
        refine merged_of_perm h hlt hsized ?_
        rw [hroots,hsplit]
        exact hfit hholes
  · exact iff_of_false (not_merged_of_wrap h.sized hadd (by omega)) fun hfits => hb hfits.1

end

end Steps

section Runs

variable {maxRootSets : Nat} {calls : List AddCall}

theorem emptyMerged_merged : Merged emptyMerged [] where
  sized := ⟨fun _ hr => absurd hr not_mem_nil,rfl⟩
  separated := List.Pairwise.nil
  covers a := by simp [emptyMerged]
  temporary _ hr := absurd hr not_mem_nil

theorem addAll_append_singleton {pre : List AddCall} {c : AddCall} :
    addAll maxRootSets (pre ++ [c]) =
      (addAll maxRootSets pre).bind fun t => addRootsInner maxRootSets t c.b c.e c.tmp := by
  simp [addAll,foldlM_append]

/-- In every run all states reached are exact if and only if every addition fits the state it is made in. -/
theorem addAll_merged_iff (maxRootSets : Nat) (calls : List AddCall) :
    (∀ pre t, pre <+: calls → addAll maxRootSets pre = some t → Merged t pre) ↔
      ∀ pre c t t', pre ++ [c] <+: calls → addAll maxRootSets pre = some t →
        addRootsInner maxRootSets t c.b c.e c.tmp = some t' → Fits t c := by
  constructor
  · intro hall pre c t t' hpre hrun hadd
    have h := hall pre t ((prefix_append pre [c]).trans hpre) hrun
    refine (merged_append_iff h hadd).mp (hall _ t' hpre ?_)
    rw [addAll_append_singleton,hrun]
    exact hadd
  · intro hfits pre
    induction pre using List.reverseRecOn with
    | nil =>
      intro t _ hrun
      cases hrun
      exact emptyMerged_merged
    | append_singleton pre c ih =>
      intro t' hpre hrun
      rw [addAll_append_singleton] at hrun
      obtain ⟨t,ht,hadd⟩ := Option.bind_eq_some_iff.mp hrun
      have h := ih t ((prefix_append pre [c]).trans hpre) ht
      exact (merged_append_iff h hadd).mpr (hfits pre c t t' hpre ht hadd)

/-- Three ranges and one that fills the gaps between them: the last entry is moved into the place of the
second and stepped over, so that two adjacent intervals stay. -/
theorem addAll_adjacent :
    addAll 8192 [⟨8, 16, false, by decide, by decide, by decide⟩, ⟨24, 32, false, by decide, by decide, by decide⟩,
        ⟨40, 48, false, by decide, by decide, by decide⟩, ⟨16, 40, false, by decide, by decide, by decide⟩] =
      some ⟨[⟨8, 40, false⟩, ⟨40, 48, false⟩], 40⟩ ∧
    ¬ Separated ⟨8, 40, false⟩ ⟨40, 48, false⟩ :=
  ⟨by decide +kernel,by unfold Separated; decide⟩

end Runs

end GcUtil.Roots.MergedRoots
