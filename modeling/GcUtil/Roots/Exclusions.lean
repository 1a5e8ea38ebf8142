import GcUtil.Library.Intervals

/-! The table of excluded static roots of `mark_rts.c`: the sorted insertion, the lookup by bisection and
the pushing of the ranges that are not excluded. -/
namespace GcUtil.Roots.Exclusions
open Library.Intervals List

section Model

structure Exclusion where
  eStart : Nat
  eEnd : Nat
deriving DecidableEq, Repr

/-- `GC_excl_table[0 .. GC_excl_table_entries)` is the list; these read its entry at a position. -/
def startAt (table : List Exclusion) (i : Nat) : Nat := (table[i]?.map Exclusion.eStart).getD 0

def endAt (table : List Exclusion) (i : Nat) : Nat := (table[i]?.map Exclusion.eEnd).getD 0

def nextExclusionLoop (table : List Exclusion) (startAddr low high : Nat) : Nat :=
  if low < high then
    let mid := (low + high) / 2
    if endAt table mid ≤ startAddr then nextExclusionLoop table startAddr (mid + 1) high
    else nextExclusionLoop table startAddr low mid
  else low
termination_by high - low

/-- `GC_next_exclusion`: the position of the entry, or none for `NULL`. -/
def nextExclusion (table : List Exclusion) (startAddr : Nat) : Option Nat :=
  if table.length = 0 then none
  else
    let low := nextExclusionLoop table startAddr 0 (table.length - 1)
    if endAt table low ≤ startAddr then none else some low

/-- The loop that moves the entries from `nextIndex` on up by one; `i` counts down. -/
def moveUp (nextIndex : Nat) : Nat → List Exclusion → List Exclusion
  | 0, slots => slots
  | i + 1, slots =>
      if nextIndex < i + 1 then moveUp nextIndex i (slots.set (i + 1) ⟨startAt slots i, endAt slots i⟩)
      else slots

/-- The end of `GC_exclude_static_roots_inner`; `slot` is what the array holds behind its entries. -/
def insertEntry (maxExclusions : Nat) (table : List Exclusion) (nextIndex start finish : Nat)
    (slot : Exclusion) : Option (List Exclusion) :=
  if maxExclusions ≤ table.length then none
  else some ((moveUp nextIndex table.length (table ++ [slot])).set nextIndex ⟨start, finish⟩)

/-- No result stands for `ABORT`. -/
def excludeStaticRootsInner (maxExclusions : Nat) (table : List Exclusion) (start finish : Nat)
    (slot : Exclusion) : Option (List Exclusion) :=
  match nextExclusion table start with
  | some next =>
      if startAt table next < finish then none
      else if startAt table next = finish then some (table.set next ⟨start, endAt table next⟩)
      else insertEntry maxExclusions table next start finish slot
  | none => insertEntry maxExclusions table table.length start finish slot

structure Push where
  bottom : Nat
  top : Nat
  all : Bool
deriving DecidableEq, Repr

theorem lt_endAt_of_next {table : List Exclusion} {a i : Nat} (h : nextExclusion table a = some i) :
    a < endAt table i := by
  unfold nextExclusion at h
  dsimp only at h
  split at h
  · cases h
  · split at h
    · cases h
    · rename_i hlt
      cases h
      exact Nat.lt_of_not_le hlt

/-- `GC_push_conditional_with_exclusions`: the calls it makes, in order. -/
def pushConditionalWithExclusions (table : List Exclusion) (bottom top : Nat) (all : Bool) : List Push :=
  if bottom < top then
    match hnext : nextExclusion table bottom with
    | none => [⟨bottom, top, all⟩]
    | some next =>
        if top ≤ startAt table next then [⟨bottom, top, all⟩]
        else
          (if bottom < startAt table next then [⟨bottom, startAt table next, all⟩] else []) ++
            pushConditionalWithExclusions table (endAt table next) top all
  else []
termination_by top - bottom
decreasing_by
  have := lt_endAt_of_next hnext
  omega

end Model

section Lookup

variable {table : List Exclusion} {x : Exclusion} {a i j low high : Nat}

structure Sorted (table : List Exclusion) : Prop where
  proper : ∀ x ∈ table, Proper Exclusion.eStart Exclusion.eEnd x
  ordered : Ordered Exclusion.eStart Exclusion.eEnd table

def Excluded (table : List Exclusion) (a : Nat) : Prop := ∃ x ∈ table, x.eStart ≤ a ∧ a < x.eEnd

theorem startAt_of_get (h : table[i]? = some x) : startAt table i = x.eStart := by
  rw [startAt,h]
  rfl

theorem endAt_of_get (h : table[i]? = some x) : endAt table i = x.eEnd := by
  rw [endAt,h]
  rfl

section

variable (h : Sorted table)
include h

theorem Sorted.start_lt_end (hi : i < table.length) : startAt table i < endAt table i := by
  have hget := List.getElem?_eq_getElem hi
  rw [startAt_of_get hget,endAt_of_get hget]
  exact h.proper _ (getElem_mem hi)

theorem Sorted.end_le_start (hij : i < j) (hj : j < table.length) :
    endAt table i ≤ startAt table j := by
  have hi := Nat.lt_trans hij hj
  rw [startAt_of_get (List.getElem?_eq_getElem hj),endAt_of_get (List.getElem?_eq_getElem hi)]
  exact pairwise_iff_getElem.mp h.ordered i j hi hj hij

theorem Sorted.end_le_end (hij : i ≤ j) (hj : j < table.length) :
    endAt table i ≤ endAt table j := by
  rcases Nat.lt_or_eq_of_le hij with hlt | rfl
  · exact Nat.le_trans (h.end_le_start hlt hj) (Nat.le_of_lt (h.start_lt_end hj))
  · exact Nat.le_refl _

theorem nextExclusionLoop_spec (hle : low ≤ high) (hhigh : high < table.length)
    (hbelow : ∀ j < low, endAt table j ≤ a) :
    nextExclusionLoop table a low high ≤ high ∧
    (∀ j < nextExclusionLoop table a low high, endAt table j ≤ a) ∧
    (nextExclusionLoop table a low high = high ∨ a < endAt table (nextExclusionLoop table a low high)) := by
  fun_induction nextExclusionLoop table a low high with
  | case1 low high hlt mid hmid ih =>
    refine ih (by omega) hhigh fun j hj => ?_
    exact Nat.le_trans (h.end_le_end (Nat.le_of_lt_succ hj) (by omega)) hmid
  | case2 low high hlt mid hmid ih =>
    obtain ⟨hle',hbelow',hlast⟩ := ih (by omega) (by omega) hbelow
    refine ⟨by omega,hbelow',.inr ?_⟩
    rcases hlast with heq | hlt'
    · rw [heq]
      exact Nat.lt_of_not_le hmid
    · exact hlt'
  | case3 low high hge => exact ⟨hle,hbelow,.inl (by omega)⟩

theorem nextExclusion_eq_some :
    nextExclusion table a = some i ↔ i < table.length ∧ a < endAt table i ∧ ∀ j < i, endAt table j ≤ a := by
  unfold nextExclusion
  by_cases hempty : table.length = 0
  · rw [if_pos hempty]
    refine iff_of_false (fun h => by cases h) ?_
    rintro ⟨hi,_⟩
    omega
  · rw [if_neg hempty]
    obtain ⟨hle,hbelow,hlast⟩ := nextExclusionLoop_spec (a := a) h (Nat.zero_le _)
      (show table.length - 1 < table.length by omega) (fun j hj => absurd hj (Nat.not_lt_zero j))
    dsimp only
    generalize nextExclusionLoop table a 0 (table.length - 1) = low at hle hbelow hlast ⊢
    split
    · rename_i hend
      refine iff_of_false (fun h => by cases h) ?_
      rintro ⟨hi,hlt,_⟩
      have := h.end_le_end (show i ≤ low by omega) (by omega)
      omega
    · rename_i hend
      rw [Option.some.injEq]
      constructor
      · rintro rfl
        exact ⟨by omega,by omega,hbelow⟩
      · rintro ⟨hi,hlt,hfirst⟩
        rcases Nat.lt_trichotomy low i with hlow | hlow | hlow
        · exact absurd (hfirst low hlow) hend
        · exact hlow
        · have := hbelow i hlow
          omega

theorem nextExclusion_eq_none :
    nextExclusion table a = none ↔ ∀ j < table.length, endAt table j ≤ a := by
  constructor
  · intro hnone j hj
    by_contra hlt
    -- the first such position would be found
    have hex : ∃ k, k < table.length ∧ a < endAt table k := ⟨j,hj,by omega⟩
    have hfirst : nextExclusion table a = some (Nat.find hex) := by
      refine (nextExclusion_eq_some h).mpr ⟨(Nat.find_spec hex).1,(Nat.find_spec hex).2,fun k hk => ?_⟩
      have hmin := Nat.find_min hex hk
      have := (Nat.find_spec hex).1
      omega
    rw [hnone] at hfirst
    cases hfirst
  · intro hall
    cases hnext : nextExclusion table a with
    | none => rfl
    | some i =>
      obtain ⟨hi,hlt,_⟩ := (nextExclusion_eq_some h).mp hnext
      have := hall i hi
      omega

end

theorem excluded_iff : Excluded table a ↔ ∃ i < table.length, startAt table i ≤ a ∧ a < endAt table i := by
  constructor
  · rintro ⟨x,hx,hxa⟩
    obtain ⟨i,hi,rfl⟩ := mem_iff_getElem.mp hx
    have hget := List.getElem?_eq_getElem hi
    exact ⟨i,hi,by rwa [startAt_of_get hget,endAt_of_get hget]⟩
  · rintro ⟨i,hi,hia⟩
    have hget := List.getElem?_eq_getElem hi
    rw [startAt_of_get hget,endAt_of_get hget] at hia
    exact ⟨_,getElem_mem hi,hia⟩

theorem excluded_iff_of_next {b : Nat} (h : Sorted table) (hnext : nextExclusion table b = some i) (hb : b ≤ a)
    (ha : a < endAt table i) : Excluded table a ↔ startAt table i ≤ a := by
  obtain ⟨hi,_,hfirst⟩ := (nextExclusion_eq_some h).mp hnext
  rw [excluded_iff]
  constructor
  · rintro ⟨j,hj,hja⟩
    rcases Nat.lt_trichotomy j i with hji | rfl | hji
    · have := hfirst j hji
      omega
    · exact hja.1
    · have := h.end_le_start hji hj
      omega
  · intro hstart
    exact ⟨i,hi,hstart,ha⟩

theorem not_excluded_of_none {b : Nat} (h : Sorted table) (hnone : nextExclusion table b = none) (hb : b ≤ a) :
    ¬ Excluded table a := by
  rw [excluded_iff]
  rintro ⟨j,hj,hja⟩
  have := (nextExclusion_eq_none h).mp hnone j hj
  omega

end Lookup

section Insertion

variable {table table' : List Exclusion} {slot x : Exclusion} {maxExclusions start finish a i n : Nat}

theorem moveUp_eq (pre : List Exclusion) (x : Exclusion) (mid suf : List Exclusion) :
    ∃ y, moveUp pre.length (pre.length + mid.length) (pre ++ mid ++ x :: suf) = pre ++ y :: mid ++ suf := by
  induction mid using List.reverseRecOn generalizing x suf with
  | nil =>
    refine ⟨x,?_⟩
    cases hpre : pre.length <;> simp [moveUp]
  | append_singleton mid z ih =>
    obtain ⟨y,hy⟩ := ih z (z :: suf)
    refine ⟨y,?_⟩
    have hget : (pre ++ (mid ++ [z]) ++ x :: suf)[pre.length + mid.length]? = some z := by
      rw [append_assoc,List.getElem?_append_right (by omega)]
      simp
    have hset : (pre ++ (mid ++ [z]) ++ x :: suf).set (pre.length + mid.length + 1) z =
        pre ++ mid ++ z :: z :: suf := by
      rw [append_assoc,set_append_right _ _ (by omega),Nat.add_assoc,Nat.add_sub_cancel_left]
      simp
    rw [length_append,length_singleton,← Nat.add_assoc,moveUp,if_pos (by omega),
      startAt_of_get hget,endAt_of_get hget,hset,hy]
    simp

theorem insertEntry_eq (hi : i ≤ table.length) (hroom : table.length < maxExclusions) :
    insertEntry maxExclusions table i start finish slot =
      some (table.take i ++ ⟨start, finish⟩ :: table.drop i) := by
  obtain ⟨y,hy⟩ := moveUp_eq (table.take i) slot (table.drop i) []
  have hlen : (table.take i).length = i := length_take_of_le hi
  rw [take_append_drop,hlen,length_drop,Nat.add_sub_cancel' hi,append_nil] at hy
  rw [insertEntry,if_neg (by omega),hy,set_append_right _ _ (by omega),hlen,Nat.sub_self,
    set_cons_zero]

/-- A range between those before it and those behind it. -/
theorem Sorted.insert {pre suf : List Exclusion} (h : Sorted (pre ++ suf)) (hx : x.eStart < x.eEnd)
    (hpre : ∀ y ∈ pre, y.eEnd ≤ x.eStart) (hsuf : ∀ y ∈ suf, x.eEnd ≤ y.eStart) : Sorted (pre ++ x :: suf) := by
  obtain ⟨hordPre,hordSuf,hcross⟩ := pairwise_append.mp h.ordered
  refine ⟨fun y hy => ?_,?_⟩
  · rcases mem_append.mp hy with hy | hy
    · exact h.proper y (mem_append_left _ hy)
    · rcases mem_cons.mp hy with rfl | hy
      · exact hx
      · exact h.proper y (mem_append_right _ hy)
  · refine pairwise_append.mpr ⟨hordPre,pairwise_cons.mpr ⟨hsuf,hordSuf⟩,?_⟩
    intro y hy z hz
    rcases mem_cons.mp hz with rfl | hz
    · exact hpre y hy
    · exact hcross y hy z hz

theorem excluded_insert {pre suf : List Exclusion} :
    Excluded (pre ++ x :: suf) a ↔ Excluded (pre ++ suf) a ∨ x.eStart ≤ a ∧ a < x.eEnd := by
  simp only [Excluded,mem_append,mem_cons]
  grind

theorem mem_take_end_le (h : ∀ j < i, endAt table j ≤ a) (hx : x ∈ table.take i) : x.eEnd ≤ a := by
  obtain ⟨j,hj,rfl⟩ := mem_iff_getElem.mp hx
  rw [length_take] at hj
  have hget := List.getElem?_eq_getElem (show j < table.length by omega)
  rw [getElem_take,← endAt_of_get hget]
  exact h j (by omega)

theorem Sorted.le_mem_drop (h : Sorted table) (hi : i < table.length → finish ≤ startAt table i)
    (hx : x ∈ table.drop i) : finish ≤ x.eStart := by
  obtain ⟨j,hj,rfl⟩ := mem_iff_getElem.mp hx
  rw [length_drop] at hj
  have hlen : i + j < table.length := by omega
  rw [getElem_drop,← startAt_of_get (List.getElem?_eq_getElem hlen)]
  refine Nat.le_trans (hi (by omega)) ?_
  rcases Nat.eq_zero_or_pos j with rfl | hpos
  · exact Nat.le_refl _
  · have hstart := h.start_lt_end (show i < table.length by omega)
    have hend := h.end_le_start (show i < i + j by omega) hlen
    omega

section

variable (h : Sorted table) (hlt : start < finish)
include h hlt

theorem insertEntry_spec (hi : i ≤ table.length)
    (hbefore : ∀ j < i, endAt table j ≤ start) (hbehind : i < table.length → finish ≤ startAt table i)
    (hins : insertEntry maxExclusions table i start finish slot = some table') :
    Sorted table' ∧ ∀ a, Excluded table' a ↔ Excluded table a ∨ start ≤ a ∧ a < finish := by
  have hroom : table.length < maxExclusions := by
    by_contra hfull
    rw [insertEntry,if_pos (by omega)] at hins
    cases hins
  rw [insertEntry_eq hi hroom] at hins
  cases hins
  have hsplit : table.take i ++ table.drop i = table := take_append_drop i table
  refine ⟨Sorted.insert (by rwa [hsplit]) hlt ?_ ?_,fun a => ?_⟩
  · exact fun y hy => mem_take_end_le hbefore hy
  · exact fun y hy => h.le_mem_drop hbehind hy
  · rw [excluded_insert,hsplit]

theorem extend_spec (hi : i < table.length)
    (hbefore : ∀ j < i, endAt table j ≤ start) (hstart : startAt table i = finish) :
    Sorted (table.set i ⟨start, endAt table i⟩) ∧
    ∀ a, Excluded (table.set i ⟨start, endAt table i⟩) a ↔ Excluded table a ∨ start ≤ a ∧ a < finish := by
  have hend := h.start_lt_end hi
  have hget := List.getElem?_eq_getElem hi
  have hsplit : table.take i ++ table[i] :: table.drop (i + 1) = table := by
    rw [getElem_cons_drop,take_append_drop]
  have hrest : Sorted (table.take i ++ table.drop (i + 1)) := by
    have hsub : (table.take i ++ table.drop (i + 1)).Sublist table := by
      conv_rhs => rw [← hsplit]
      exact (List.Sublist.refl _).append (sublist_cons_self _ _)
    exact ⟨fun y hy => h.proper y (hsub.subset hy),h.ordered.sublist hsub⟩
  have hexcl : ∀ a, Excluded table a ↔ Excluded (table.take i ++ table.drop (i + 1)) a ∨
      finish ≤ a ∧ a < endAt table i := by
    intro a
    conv_lhs => rw [← hsplit]
    rw [excluded_insert,← hstart,startAt_of_get hget,endAt_of_get hget]
  rw [set_eq_take_append_cons_drop,if_pos hi]
  refine ⟨Sorted.insert hrest ?_ ?_ ?_,fun a => ?_⟩
  · dsimp only
    omega
  · exact fun y hy => mem_take_end_le hbefore hy
  · exact fun y hy => h.le_mem_drop (fun hi' => h.end_le_start (Nat.lt_succ_self i) hi') hy
  · rw [excluded_insert,hexcl,or_assoc]
    refine or_congr_right ?_
    dsimp only
    omega

theorem excludeStaticRootsInner_spec (hexcl : excludeStaticRootsInner maxExclusions table start finish slot = some table') :
    Sorted table' ∧ ∀ a, Excluded table' a ↔ Excluded table a ∨ start ≤ a ∧ a < finish := by
  unfold excludeStaticRootsInner at hexcl
  cases hnext : nextExclusion table start with
  | none =>
    rw [hnext] at hexcl
    refine insertEntry_spec h hlt (Nat.le_refl _) ((nextExclusion_eq_none h).mp hnext) ?_ hexcl
    exact fun hi => absurd hi (Nat.lt_irrefl _)
  | some next =>
    rw [hnext] at hexcl
    dsimp only at hexcl
    obtain ⟨hi,_,hbefore⟩ := (nextExclusion_eq_some h).mp hnext
    split at hexcl
    · cases hexcl
    · rename_i hge
      split at hexcl
      · rename_i heq
        cases hexcl
        exact extend_spec h hlt hi hbefore heq
      · exact insertEntry_spec h hlt (Nat.le_of_lt hi) hbefore (fun _ => Nat.le_of_not_lt hge) hexcl

end

def Overlaps (table : List Exclusion) (start finish : Nat) : Prop :=
  ∃ x ∈ table, x.eStart < finish ∧ start < x.eEnd

theorem overlaps_iff (h : Sorted table) :
    Overlaps table start finish ↔ ∃ next, nextExclusion table start = some next ∧ startAt table next < finish := by
  constructor
  · rintro ⟨x,hx,hstart,hend⟩
    obtain ⟨j,hj,rfl⟩ := mem_iff_getElem.mp hx
    have hget := List.getElem?_eq_getElem hj
    rw [← startAt_of_get hget] at hstart
    rw [← endAt_of_get hget] at hend
    cases hnext : nextExclusion table start with
    | none =>
      have := (nextExclusion_eq_none h).mp hnext j hj
      omega
    | some next =>
      obtain ⟨hi,_,hfirst⟩ := (nextExclusion_eq_some h).mp hnext
      refine ⟨next,rfl,?_⟩
      rcases Nat.lt_trichotomy j next with hlt | rfl | hlt
      · have := hfirst j hlt
        omega
      · exact hstart
      · have := h.end_le_start hlt hj
        have := h.start_lt_end hi
        omega
  · rintro ⟨next,hnext,hstart⟩
    obtain ⟨hi,hend,_⟩ := (nextExclusion_eq_some h).mp hnext
    have hget := List.getElem?_eq_getElem hi
    rw [startAt_of_get hget] at hstart
    rw [endAt_of_get hget] at hend
    exact ⟨_,getElem_mem hi,hstart,hend⟩

theorem excludeStaticRootsInner_eq_none (h : Sorted table) :
    excludeStaticRootsInner maxExclusions table start finish slot = none ↔
      Overlaps table start finish ∨
        maxExclusions ≤ table.length ∧ ∀ next, nextExclusion table start = some next → startAt table next ≠ finish := by
  rw [overlaps_iff h]
  unfold excludeStaticRootsInner insertEntry
  cases hnext : nextExclusion table start with
  | none => simp
  | some next =>
    simp only [Option.some.injEq,exists_eq_left',forall_eq']
    by_cases hover : startAt table next < finish
    · simp [hover]
    · by_cases heq : startAt table next = finish
      · simp [heq]
      · simp [hover,heq]

end Insertion

section Pushing

variable {table : List Exclusion} {bottom top a : Nat} {all : Bool}

def Pushed (pushes : List Push) (a : Nat) : Prop := ∃ p ∈ pushes, p.bottom ≤ a ∧ a < p.top

theorem pushed_cons {p : Push} {pushes : List Push} :
    Pushed (p :: pushes) a ↔ (p.bottom ≤ a ∧ a < p.top) ∨ Pushed pushes a := by
  simp [Pushed]

theorem pushed_singleton {p : Push} : Pushed [p] a ↔ p.bottom ≤ a ∧ a < p.top := by
  simp [Pushed]

theorem pushConditionalWithExclusions_ranges (h : Sorted table) (bottom top : Nat) (all : Bool) :
    (∀ p ∈ pushConditionalWithExclusions table bottom top all,
      bottom ≤ p.bottom ∧ p.bottom < p.top ∧ p.top ≤ top ∧ p.all = all) ∧
    Ordered Push.bottom Push.top (pushConditionalWithExclusions table bottom top all) := by
  fun_induction pushConditionalWithExclusions table bottom top all with
  | case1 bottom hlt hnext => exact ⟨by simpa using hlt,pairwise_singleton _ _⟩
  | case2 bottom hlt next hnext htop => exact ⟨by simpa using hlt,pairwise_singleton _ _⟩
  | case3 bottom hlt next hnext htop ih =>
    obtain ⟨hparts,hord⟩ := ih
    obtain ⟨hi,hend,_⟩ := (nextExclusion_eq_some h).mp hnext
    have hproper := h.start_lt_end hi
    have hparts' : ∀ p ∈ pushConditionalWithExclusions table (endAt table next) top all,
        bottom ≤ p.bottom ∧ p.bottom < p.top ∧ p.top ≤ top ∧ p.all = all := by
      intro p hp
      obtain ⟨hb,hrest⟩ := hparts p hp
      exact ⟨by omega,hrest⟩
    split
    · rename_i hgap
      refine ⟨?_,pairwise_cons.mpr ⟨fun p hp => ?_,hord⟩⟩
      · intro p hp
        rcases mem_cons.mp hp with rfl | hp
        · exact ⟨Nat.le_refl _,hgap,by dsimp only; omega,rfl⟩
        · exact hparts' p hp
      · have := hparts p hp
        dsimp only
        omega
    · exact ⟨hparts',hord⟩
  | case4 bottom hge => exact ⟨fun p hp => absurd hp not_mem_nil,List.Pairwise.nil⟩

theorem pushed_iff (h : Sorted table) :
    Pushed (pushConditionalWithExclusions table bottom top all) a ↔
      (bottom ≤ a ∧ a < top) ∧ ¬ Excluded table a := by
  fun_induction pushConditionalWithExclusions table bottom top all with
  | case1 bottom hlt hnext =>
    rw [pushed_singleton]
    refine (and_iff_left_of_imp fun ha => ?_).symm
    exact not_excluded_of_none h hnext ha.1
  | case2 bottom hlt next hnext htop =>
    rw [pushed_singleton]
    refine (and_iff_left_of_imp fun ha => ?_).symm
    dsimp only at ha
    have hproper := h.start_lt_end ((nextExclusion_eq_some h).mp hnext).1
    rw [excluded_iff_of_next h hnext ha.1 (by omega)]
    omega
  | case3 bottom hlt next hnext htop ih =>
    have hend := lt_endAt_of_next hnext
    have hgap : Pushed ((if bottom < startAt table next then [⟨bottom,startAt table next,all⟩] else []) ++
        pushConditionalWithExclusions table (endAt table next) top all) a ↔
        (bottom ≤ a ∧ a < startAt table next) ∨
          Pushed (pushConditionalWithExclusions table (endAt table next) top all) a := by
      split
      · rw [singleton_append,pushed_cons]
      · rw [nil_append]
        refine (or_iff_right ?_).symm
        omega
    have hproper := h.start_lt_end ((nextExclusion_eq_some h).mp hnext).1
    rw [hgap,ih]
    -- below the end of the next exclusion that one decides
    by_cases ha : bottom ≤ a ∧ a < endAt table next
    · rw [excluded_iff_of_next h hnext ha.1 ha.2]
      omega
    · constructor
      · rintro (hin | ⟨hin,hout⟩)
        · omega
        · exact ⟨by omega,hout⟩
      · rintro ⟨hin,hout⟩
        exact .inr ⟨by omega,hout⟩
  | case4 bottom hge =>
    refine iff_of_false (fun hp => ?_) (fun ha => by omega)
    obtain ⟨p,hp,_⟩ := hp
    cases hp

end Pushing

section Runs

/-- A call of `GC_exclude_static_roots_inner` with what it asserts; `slot` is what the array holds
behind its entries then. -/
structure Call where
  start : Nat
  finish : Nat
  slot : Exclusion
  start_ne_null : start ≠ 0
  start_lt_finish : start < finish

def excludeAll (maxExclusions : Nat) (table : List Exclusion) (calls : List Call) : Option (List Exclusion) :=
  calls.foldlM (fun table c => excludeStaticRootsInner maxExclusions table c.start c.finish c.slot) table

variable {maxExclusions : Nat} {calls : List Call} {table table' : List Exclusion}

theorem excludeAll_spec (h : Sorted table) (hrun : excludeAll maxExclusions table calls = some table') :
    Sorted table' ∧ ∀ a, Excluded table' a ↔ Excluded table a ∨ ∃ c ∈ calls, c.start ≤ a ∧ a < c.finish := by
  induction calls generalizing table with
  | nil =>
    cases hrun
    exact ⟨h,by simp⟩
  | cons c calls ih =>
    obtain ⟨mid,hmid,hrest⟩ := Option.bind_eq_some_iff.mp hrun
    obtain ⟨hsorted,hexcl⟩ := excludeStaticRootsInner_spec h c.start_lt_finish hmid
    obtain ⟨hsorted',hexcl'⟩ := ih hsorted hrest
    refine ⟨hsorted',fun a => ?_⟩
    rw [hexcl',hexcl,or_assoc,exists_mem_cons_iff]

/-- After every sequence of accepted calls the table is sorted and disjoint and excludes what was asked
for, a range that overlaps it is rejected, the lookup gives the first exclusion that ends after the
address, and what is pushed of a range are the parts outside all exclusions. -/
theorem excludeAll_honoured (hrun : excludeAll maxExclusions [] calls = some table) :
    Sorted table ∧
    (∀ a, Excluded table a ↔ ∃ c ∈ calls, c.start ≤ a ∧ a < c.finish) ∧
    (∀ c : Call, Overlaps table c.start c.finish →
      excludeStaticRootsInner maxExclusions table c.start c.finish c.slot = none) ∧
    (∀ a i, nextExclusion table a = some i ↔
      i < table.length ∧ a < endAt table i ∧ ∀ j < i, endAt table j ≤ a) ∧
    (∀ a, nextExclusion table a = none ↔ ∀ x ∈ table, x.eEnd ≤ a) ∧
    ∀ bottom top all,
      (∀ p ∈ pushConditionalWithExclusions table bottom top all,
        bottom ≤ p.bottom ∧ p.bottom < p.top ∧ p.top ≤ top ∧ p.all = all) ∧
      Ordered Push.bottom Push.top (pushConditionalWithExclusions table bottom top all) ∧
      ∀ a, Pushed (pushConditionalWithExclusions table bottom top all) a ↔
        (bottom ≤ a ∧ a < top) ∧ ¬ Excluded table a := by
  have hempty : Sorted [] := ⟨fun x hx => absurd hx not_mem_nil,List.Pairwise.nil⟩
  obtain ⟨h,hexcl⟩ := excludeAll_spec hempty hrun
  refine ⟨h,fun a => ?_,fun c hover => ?_,fun a i => nextExclusion_eq_some h,fun a => ?_,?_⟩
  · rw [hexcl,or_iff_right]
    rintro ⟨x,hx,_⟩
    cases hx
  · exact (excludeStaticRootsInner_eq_none h).mpr (.inl hover)
  · rw [nextExclusion_eq_none h,forall_mem_iff_getElem]
    refine forall_congr' fun j => forall_congr' fun hj => ?_
    rw [endAt_of_get (List.getElem?_eq_getElem hj)]
  · intro bottom top all
    obtain ⟨hparts,hord⟩ := pushConditionalWithExclusions_ranges h bottom top all
    exact ⟨hparts,hord,fun a => pushed_iff h⟩

/-- Three ranges, the last of which is merged with the one behind it. -/
theorem excludeAll_honoured_merged :
    ∃ table, excludeAll 512 [] [⟨32, 40, ⟨0, 0⟩, by decide, by decide⟩, ⟨8, 16, ⟨0, 0⟩, by decide, by decide⟩,
        ⟨24, 32, ⟨0, 0⟩, by decide, by decide⟩] = some table ∧
      table = [⟨8, 16⟩, ⟨24, 40⟩] ∧ Sorted table ∧
      pushConditionalWithExclusions table 0 48 true = [⟨0, 8, true⟩, ⟨16, 24, true⟩, ⟨40, 48, true⟩] := by
  have hrun : excludeAll 512 [] [⟨32,40,⟨0,0⟩,by decide,by decide⟩,⟨8,16,⟨0,0⟩,by decide,by decide⟩,
      ⟨24,32,⟨0,0⟩,by decide,by decide⟩] = some [⟨8,16⟩,⟨24,40⟩] := by decide +kernel
  exact ⟨_,hrun,rfl,(excludeAll_honoured hrun).1,by decide +kernel⟩

end Runs

end GcUtil.Roots.Exclusions
