import GcUtil.Isolate.Registry
import GcUtil.Library.Intervals

/-! The registry against its purpose: a map that gives every address one of
three states. `Sound` is what survives a failing `realloc`; `Complete` holds as
well while every `realloc` succeeds. -/
namespace GcUtil.Isolate.RegistryRefinement
open Basic Registry Library.SwapRemove Library.Intervals List

inductive AddrState where
  | unregistered
  | committed
  | decommitted
deriving DecidableEq, Repr

abbrev AddrMap := Nat → AddrState

def stateOf (committed : Bool) : AddrState :=
  if committed then .committed else .decommitted

theorem stateOf_ne_unregistered (committed : Bool) : stateOf committed ≠ .unregistered := by
  cases committed <;> simp [stateOf]

def answer : AddrState → FaultKind
  | .unregistered => .unknown
  | .committed => .crossIsolate
  | .decommitted => .decommitted

@[simp] theorem answer_stateOf (committed : Bool) :
    answer (stateOf committed) = faultKindOf committed := by
  cases committed <;> rfl

def registerMap (start bytes : Nat) (m : AddrMap) : AddrMap :=
  fun a => if start ≤ a ∧ a < start + bytes then .committed else m a

def markMap (start stop : Nat) (committed : Bool) (m : AddrMap) : AddrMap :=
  fun a => if start ≤ a ∧ a < stop ∧ m a ≠ .unregistered then stateOf committed else m a

def deleteMap (start stop : Nat) (m : AddrMap) : AddrMap :=
  fun a => if start ≤ a ∧ a < stop then .unregistered else m a

def deinitMap (heapSects : List HeapSect) (m : AddrMap) : AddrMap :=
  fun a => if ∃ sect ∈ heapSects, sect.Contains a then .unregistered else m a

abbrev ProperRange (r : IsolateRange) : Prop := Proper IsolateRange.start IsolateRange.stop r
abbrev ApartRange (r s : IsolateRange) : Prop := Apart IsolateRange.start IsolateRange.stop r s
abbrev OrderedRanges (l : List IsolateRange) : Prop :=
  Ordered IsolateRange.start IsolateRange.stop l

structure Reading (ok : AddrState → Bool → Prop) : Prop where
  registered : ∀ {s b}, ok s b → s ≠ .unregistered
  exact : ∀ b, ok (stateOf b) b

def Exact (s : AddrState) (committed : Bool) : Prop := s = stateOf committed

def Cautious (s : AddrState) (committed : Bool) : Prop :=
  s ≠ .unregistered ∧ (committed = true → s = .committed)

theorem reading_exact : Reading Exact where
  registered := fun h => h ▸ stateOf_ne_unregistered _
  exact := fun _ => rfl

theorem reading_cautious : Reading Cautious where
  registered := And.left
  exact := fun b => ⟨stateOf_ne_unregistered b,fun h => by rw [h]; rfl⟩

def Agrees (ok : AddrState → Bool → Prop) (m : AddrMap) (r : IsolateRange) : Prop :=
  ∀ a, r.Contains a → ok (m a) r.committed

structure Sound (ranges : List IsolateRange) (m : AddrMap) : Prop where
  proper : ∀ r ∈ ranges, ProperRange r
  apart : ranges.Pairwise ApartRange
  agrees : ∀ r ∈ ranges, Agrees Exact m r

def Complete (ranges : List IsolateRange) (m : AddrMap) : Prop :=
  ∀ a, m a ≠ .unregistered → ∃ r ∈ ranges, r.Contains a

/-- The order in which every public operation leaves the array. -/
structure Canonical (ranges : List IsolateRange) : Prop where
  proper : ∀ r ∈ ranges, ProperRange r
  ordered : OrderedRanges ranges
  coalesced : ranges.Pairwise fun r s => r.stop = s.start → r.committed ≠ s.committed

theorem Sound.perm {l l' : List IsolateRange} {m : AddrMap} (hperm : l.Perm l') (h : Sound l m) :
    Sound l' m where
  proper := fun r hr => h.proper r (hperm.mem_iff.mpr hr)
  apart := pairwise_apart_perm _ _ hperm h.apart
  agrees := fun r hr => h.agrees r (hperm.mem_iff.mpr hr)

theorem Complete.perm {l l' : List IsolateRange} {m : AddrMap} (hperm : l.Perm l')
    (h : Complete l m) : Complete l' m := by
  intro a ha
  obtain ⟨r,hr,hc⟩ := h a ha
  exact ⟨r,hperm.mem_iff.mp hr,hc⟩

section Classify

theorem classifyLoop_of_contains {ranges : List IsolateRange} (hproper : ∀ r ∈ ranges, ProperRange r)
    (hord : OrderedRanges ranges) {k : Nat} (hk : k < ranges.length) {a : Nat}
    (ha : (ranges[k]).Contains a) (fuel low high : Nat) (hlow : low ≤ k) (hhigh : k < high)
    (hlen : high ≤ ranges.length) (hfuel : high - low ≤ fuel) :
    classifyLoop ranges a fuel low high = faultKindOf (ranges[k]).committed := by
  induction fuel generalizing low high with
  | zero => omega
  | succ fuel ih =>
    have hmid : low + (high - low) / 2 < ranges.length := by omega
    unfold classifyLoop
    rw [if_pos (by omega)]
    dsimp only
    rw [List.getElem?_eq_getElem hmid]
    dsimp only
    have hcmp := Ordered.compare _ _ hord hk hmid ha
    rcases Nat.lt_trichotomy (low + (high - low) / 2) k with hlt | heq | hgt
    · have hstop := hcmp.1 hlt
      have hpr : (ranges[low + (high - low) / 2]).start < (ranges[low + (high - low) / 2]).stop :=
        hproper _ (getElem_mem hmid)
      rw [if_neg (by omega),if_neg (by omega)]
      exact ih _ _ (by omega) hhigh hlen (by omega)
    · subst heq
      exact if_pos ha
    · have hstart := hcmp.2 hgt
      rw [if_neg (by omega),if_pos hstart]
      exact ih _ _ hlow hgt (by omega) (by omega)

theorem classifyLoop_of_missing {ranges : List IsolateRange} {a : Nat}
    (hmiss : ∀ r ∈ ranges, ¬ r.Contains a) (fuel low high : Nat) :
    classifyLoop ranges a fuel low high = .unknown := by
  induction fuel generalizing low high with
  | zero => rfl
  | succ fuel ih =>
    unfold classifyLoop
    split
    · dsimp only
      cases hget : ranges[low + (high - low) / 2]? with
      | none => rfl
      | some r =>
        have hr : ¬ (r.start ≤ a ∧ a < r.stop) := hmiss r (mem_of_getElem? hget)
        dsimp only
        rw [if_neg hr]
        split <;> exact ih _ _
    · rfl

theorem classifyFault_of_mem {st : RangeRegistry} (hcan : Canonical st.ranges) {r : IsolateRange}
    (hr : r ∈ st.ranges) {a : Nat} (ha : r.Contains a) :
    classifyFault st a = faultKindOf r.committed := by
  obtain ⟨k,hk,rfl⟩ := mem_iff_getElem.mp hr
  exact classifyLoop_of_contains hcan.proper hcan.ordered hk ha _ _ _ (Nat.zero_le _) hk
    (Nat.le_refl _) (by omega)

theorem classifyFault_of_missing {st : RangeRegistry} {a : Nat}
    (hmiss : ∀ r ∈ st.ranges, ¬ r.Contains a) : classifyFault st a = .unknown :=
  classifyLoop_of_missing hmiss _ _ _

section

variable {st : RangeRegistry} {m : AddrMap} (hcan : Canonical st.ranges) (hsound : Sound st.ranges m)
include hcan hsound

theorem classifyFault_sound (a : Nat) :
    classifyFault st a = answer (m a) ∨ classifyFault st a = .unknown := by
  by_cases h : ∃ r ∈ st.ranges, r.Contains a
  · obtain ⟨r,hr,ha⟩ := h
    left
    rw [classifyFault_of_mem hcan hr ha,hsound.agrees r hr a ha,answer_stateOf]
  · right
    apply classifyFault_of_missing
    intro r hr ha
    exact h ⟨r,hr,ha⟩

theorem classifyFault_exact (hcomplete : Complete st.ranges m) (a : Nat) :
    classifyFault st a = answer (m a) := by
  by_cases hm : m a = .unregistered
  · rw [hm]
    apply classifyFault_of_missing
    intro r hr ha
    have := hsound.agrees r hr a ha
    rw [hm] at this
    exact stateOf_ne_unregistered _ this.symm
  · obtain ⟨r,hr,ha⟩ := hcomplete a hm
    rw [classifyFault_of_mem hcan hr ha,hsound.agrees r hr a ha,answer_stateOf]

end

theorem classifyLoop_crossIsolate {ranges : List IsolateRange} {a fuel low high : Nat}
    (h : classifyLoop ranges a fuel low high = .crossIsolate) :
    ∃ r ∈ ranges, r.Contains a ∧ r.committed = true := by
  induction fuel generalizing low high with
  | zero => cases h
  | succ fuel ih =>
    unfold classifyLoop at h
    split at h
    · dsimp only at h
      split at h
      · cases h
      · rename_i r hget
        split at h
        · rename_i hin
          refine ⟨r,mem_of_getElem? hget,hin,?_⟩
          cases hc : r.committed with
          | true => rfl
          | false =>
            rw [hc] at h
            cases h
        · split at h <;> exact ih h
    · cases h

/-- Without any assumption on the array: `crossIsolate` is read off some entry. -/
theorem classifyFault_crossIsolate {st : RangeRegistry} {a : Nat}
    (h : classifyFault st a = .crossIsolate) :
    ∃ r ∈ st.ranges, r.Contains a ∧ r.committed = true :=
  classifyLoop_crossIsolate h

end Classify

section Coalesce

theorem pairwise_of_length_le_one {R : IsolateRange → IsolateRange → Prop} {l : List IsolateRange}
    (h : l.length ≤ 1) : l.Pairwise R := by
  match l, h with
  | [], _ => exact List.Pairwise.nil
  | [r], _ => exact pairwise_singleton R r

theorem coalescePass_head (cur : IsolateRange) (rest : List IsolateRange) :
    ∃ x tail, coalescePass cur rest = x :: tail ∧ x.start = cur.start ∧
      x.committed = cur.committed := by
  induction rest generalizing cur with
  | nil => exact ⟨cur,[],rfl,rfl,rfl⟩
  | cons r rest ih =>
    rw [coalescePass]
    split
    · exact ih { cur with stop := r.stop }
    · exact ⟨cur,coalescePass r rest,rfl,rfl,rfl⟩

theorem coalescePass_agrees {ok : AddrState → Bool → Prop} {m : AddrMap} {cur : IsolateRange}
    {rest : List IsolateRange} (h : ∀ r ∈ cur :: rest, Agrees ok m r) :
    ∀ r ∈ coalescePass cur rest, Agrees ok m r := by
  induction rest generalizing cur with
  | nil => simpa [coalescePass] using h
  | cons r rest ih =>
    have hcur : Agrees ok m cur := h cur (by simp)
    have hr : Agrees ok m r := h r (by simp)
    rw [coalescePass]
    split
    · rename_i hmerge
      apply ih
      intro s hs
      rcases mem_cons.mp hs with rfl | hs
      · intro a ha
        have hax : cur.start ≤ a ∧ a < r.stop := ha
        by_cases hleft : a < cur.stop
        · exact hcur a ⟨hax.1,hleft⟩
        · rw [hmerge.1]
          exact hr a ⟨by omega,hax.2⟩
      · exact h s (by simp [hs])
    · intro s hs
      rcases mem_cons.mp hs with rfl | hs
      · exact hcur
      · exact ih (fun x hx => h x (by simp [hx])) s hs

section

variable {cur : IsolateRange} {rest : List IsolateRange}

theorem coalescePass_starts {b : Nat}
    (hcur : b ≤ cur.start) (hrest : ∀ r ∈ rest, b ≤ r.start) :
    ∀ r ∈ coalescePass cur rest, b ≤ r.start := by
  induction rest generalizing cur with
  | nil => simpa [coalescePass] using hcur
  | cons r rest ih =>
    have htail : ∀ s ∈ rest, b ≤ s.start := fun s hs => hrest s (by simp [hs])
    rw [coalescePass]
    split
    · exact ih hcur htail
    · intro s hs
      rcases mem_cons.mp hs with rfl | hs
      · exact hcur
      · exact ih (hrest r (by simp)) htail s hs

theorem coalescePass_canonical (hproper : ∀ r ∈ cur :: rest, ProperRange r) (hord : OrderedRanges (cur :: rest)) :
    Canonical (coalescePass cur rest) := by
  induction rest generalizing cur with
  | nil => exact ⟨by simpa [coalescePass] using hproper,by simp [coalescePass,Ordered],
      by simp [coalescePass]⟩
  | cons r rest ih =>
    have hcur : cur.start < cur.stop := hproper cur (by simp)
    have hr : r.start < r.stop := hproper r (by simp)
    obtain ⟨hfirst,hrest⟩ := pairwise_cons.mp hord
    obtain ⟨hsecond,htail⟩ := pairwise_cons.mp hrest
    have hcr : cur.stop ≤ r.start := hfirst r (by simp)
    rw [coalescePass]
    split
    · apply ih
      · intro s hs
        rcases mem_cons.mp hs with rfl | hs
        · change cur.start < r.stop
          omega
        · exact hproper s (by simp [hs])
      · exact pairwise_cons.mpr ⟨hsecond,htail⟩
    · rename_i hnot
      have hcan : Canonical (coalescePass r rest) := ih (fun s hs => hproper s (by simp [hs])) hrest
      have hstarts : ∀ s ∈ coalescePass r rest, r.start ≤ s.start := by
        apply coalescePass_starts le_rfl
        intro s hs
        have : r.stop ≤ s.start := hsecond s hs
        omega
      refine ⟨?_,pairwise_cons.mpr ⟨?_,hcan.ordered⟩,
        pairwise_cons.mpr ⟨?_,hcan.coalesced⟩⟩
      · intro s hs
        rcases mem_cons.mp hs with rfl | hs
        · exact hcur
        · exact hcan.proper s hs
      · exact fun s hs => hcr.trans (hstarts s hs)
      · intro s hs htouch hsame
        obtain ⟨x,tail,heq,hxstart,hxstate⟩ := coalescePass_head r rest
        have hxproper : x.start < x.stop := hcan.proper x (by simp [heq])
        have hord' := hcan.ordered
        rw [heq] at hs hord'
        rcases mem_cons.mp hs with rfl | hs
        · exact hnot ⟨hsame.trans hxstate,htouch.trans hxstart⟩
        · have : x.stop ≤ s.start := (pairwise_cons.mp hord').1 s hs
          omega

theorem coalescePass_covers {a : Nat}
    (hproper : ∀ r ∈ cur :: rest, ProperRange r) (h : ∃ r ∈ cur :: rest, r.Contains a) :
    ∃ r ∈ coalescePass cur rest, r.Contains a := by
  induction rest generalizing cur with
  | nil => simpa [coalescePass] using h
  | cons r rest ih =>
    have hcur : cur.start < cur.stop := hproper cur (by simp)
    have hr : r.start < r.stop := hproper r (by simp)
    obtain ⟨c,hc,hca⟩ := h
    have hcax : c.start ≤ a ∧ a < c.stop := hca
    rw [coalescePass]
    split
    · rename_i hmerge
      apply ih
      · intro s hs
        rcases mem_cons.mp hs with rfl | hs
        · change cur.start < r.stop
          omega
        · exact hproper s (by simp [hs])
      · by_cases hin : c ∈ rest
        · exact ⟨c,by simp [hin],hca⟩
        · refine ⟨{ cur with stop := r.stop },by simp,?_⟩
          simp only [mem_cons] at hc
          unfold IsolateRange.Contains
          rcases hc with rfl | rfl | hc
          · dsimp only; omega
          · dsimp only; omega
          · contradiction
    · rcases mem_cons.mp hc with rfl | hc
      · exact ⟨c,by simp,hca⟩
      · obtain ⟨x,hx,hxa⟩ := ih (fun s hs => hproper s (by simp [hs])) ⟨c,hc,hca⟩
        exact ⟨x,by simp [hx],hxa⟩

end

instance : Std.Total startsBefore := ⟨fun a b => Nat.le_total a.start b.start⟩
instance : IsTrans IsolateRange startsBefore := ⟨fun _ _ _ => Nat.le_trans⟩

theorem sorted_ordered {l : List IsolateRange} (hproper : ∀ r ∈ l, ProperRange r)
    (hapart : l.Pairwise ApartRange) : OrderedRanges (l.insertionSort startsBefore) := by
  have hperm := l.perm_insertionSort startsBefore
  exact ordered_of_sorted _ _ (fun r hr => hproper r (hperm.mem_iff.mp hr))
    (l.pairwise_insertionSort startsBefore) (pairwise_apart_perm _ _ hperm.symm hapart)

theorem coalesceRanges_agrees {ok : AddrState → Bool → Prop} {m : AddrMap} {st : RangeRegistry}
    (h : ∀ r ∈ st.ranges, Agrees ok m r) : ∀ r ∈ (coalesceRanges st).ranges, Agrees ok m r := by
  unfold coalesceRanges
  split
  · exact h
  · have hperm := st.ranges.perm_insertionSort startsBefore
    split
    · exact h
    · rename_i cur rest hsorted
      rw [hsorted] at hperm
      exact coalescePass_agrees fun r hr => h r (hperm.mem_iff.mp hr)

/-- After `coalesce_ranges_locked` the array is canonical and says the same. -/
theorem coalesceRanges_sound {m : AddrMap} {st : RangeRegistry} (h : Sound st.ranges m) :
    Canonical (coalesceRanges st).ranges ∧ Sound (coalesceRanges st).ranges m := by
  unfold coalesceRanges
  split
  · rename_i hshort
    exact ⟨⟨h.proper,pairwise_of_length_le_one hshort,
      pairwise_of_length_le_one hshort⟩,h⟩
  · have hperm := st.ranges.perm_insertionSort startsBefore
    have hord := sorted_ordered h.proper h.apart
    have hsound := h.perm hperm.symm
    split
    · rename_i hlong _ hnil
      rw [← hperm.length_eq,hnil] at hlong
      simp at hlong
    · rename_i cur rest hsorted
      rw [hsorted] at hord hsound
      have hcan := coalescePass_canonical hsound.proper hord
      exact ⟨hcan,hcan.proper,Ordered.apart _ _ hcan.ordered,coalescePass_agrees hsound.agrees⟩

theorem coalesceRanges_complete {m : AddrMap} {st : RangeRegistry} (h : Sound st.ranges m)
    (hcomplete : Complete st.ranges m) : Complete (coalesceRanges st).ranges m := by
  unfold coalesceRanges
  split
  · exact hcomplete
  · have hperm := st.ranges.perm_insertionSort startsBefore
    have hsound := h.perm hperm.symm
    have hcover := hcomplete.perm hperm.symm
    split
    · exact hcomplete
    · rename_i cur rest hsorted
      rw [hsorted] at hsound hcover
      exact fun a ha => coalescePass_covers hsound.proper (hcover a ha)

end Coalesce

end GcUtil.Isolate.RegistryRefinement
