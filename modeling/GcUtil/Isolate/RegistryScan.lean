import GcUtil.Isolate.RegistryRefinement
import Mathlib

/-! The loops of `mark_range_locked` and `delete_range_locked` against the map.
Both cut entries at the edges of a window while the array grows and shrinks under
the loop, so each is the shared scan with its own account of a visit. -/
namespace GcUtil.Isolate.RegistryScan
open Basic Registry RegistryRefinement Library.SwapRemove List
  GcUtil.Library.Intervals

section Scan

variable {visit : RangeRegistry → IsolateRange → Visit} {cost : IsolateRange → Nat}
  {P : List IsolateRange → List IsolateRange → Prop}

/-- Induction over the shared loop. `P` relates the entries that are behind the
index to those still to be visited, and `cost` bounds the visits an entry causes. -/
theorem scanLoop_rule (hcost : ∀ st r, ((visit st r).appended.map cost).sum < cost r)
    (hkept : ∀ st pre r post k, (visit st r).kept = some k → P pre (r :: post) →
      P (pre ++ [k]) (post ++ (visit st r).appended))
    (hhole : ∀ st pre r post rest, (visit st r).kept = none → rest.Perm post →
      P pre (r :: post) → P pre rest)
    (fuel : Nat) (pre post : List IsolateRange) (st : RangeRegistry) (hst : st.ranges = pre ++ post)
    (hfuel : (post.map cost).sum ≤ fuel) (h : P pre post) :
    P (scanLoop visit fuel pre.length st).ranges [] := by
  induction fuel generalizing pre post st with
  | zero =>
    cases post with
    | nil =>
      rw [append_nil] at hst
      rwa [scanLoop,hst]
    | cons r post =>
      have := hcost st r
      simp only [map_cons,sum_cons] at hfuel
      omega
  | succ fuel ih =>
    cases post with
    | nil =>
      have hget : st.ranges[pre.length]? = none := by simp [hst]
      rw [append_nil] at hst
      rw [scanLoop,hget]
      rwa [hst]
    | cons r post =>
      have hget : st.ranges[pre.length]? = some r := by simp [hst]
      have := hcost st r
      simp only [map_cons,sum_cons] at hfuel
      rw [scanLoop,hget]
      dsimp only
      cases hk : (visit st r).kept with
      | some k =>
        have hlen : (pre ++ [k]).length = pre.length + 1 := by simp
        have hset : st.ranges.set pre.length k = pre ++ k :: post := by simp [hst]
        dsimp only
        rw [hset,← hlen]
        apply ih (pre ++ [k]) (post ++ (visit st r).appended)
        · simp
        · rw [map_append,sum_append]
          omega
        · exact hkept st pre r post k hk h
      | none =>
        obtain ⟨rest,hswap,hperm⟩ := swapRemove_append pre post r
        dsimp only
        rw [hst,hswap]
        apply ih pre rest
        · rfl
        · rw [(hperm.map cost).sum_nat]
          omega
        · exact hhole st pre r post rest hk hperm h

def Visit.pieces (v : Visit) : List IsolateRange :=
  match v.kept with
  | none => []
  | some k => k :: v.appended

/-- Entries that have been visited are done, the others wait for it. -/
theorem scanLoop_done {Q D : IsolateRange → Prop}
    (hcost : ∀ st r, ((visit st r).appended.map cost).sum < cost r)
    (hpieces : ∀ st r, Q r → ∀ x ∈ Visit.pieces (visit st r), D x ∧ Q x)
    (fuel : Nat) (st : RangeRegistry) (hfuel : (st.ranges.map cost).sum ≤ fuel)
    (h : ∀ r ∈ st.ranges, Q r) : ∀ r ∈ (scanLoop visit fuel 0 st).ranges, D r := by
  have hrun := scanLoop_rule (P := fun pre post => (∀ r ∈ pre, D r) ∧ ∀ r ∈ post, Q r)
    hcost ?_ ?_ fuel [] st.ranges st rfl hfuel ⟨by simp,h⟩
  · exact hrun.1
  · intro st pre r post k hk ⟨hpre,hpost⟩
    have hr := hpieces st r (hpost r (by simp))
    rw [Visit.pieces,hk] at hr
    simp only [mem_append,mem_cons,not_mem_nil,or_false] at hpost hr ⊢
    exact ⟨fun x hx => hx.elim (hpre x) fun hx => (hr x (.inl hx)).1,
      fun x hx => hx.elim (fun hx => hpost x (.inr hx)) fun hx => (hr x (.inr hx)).2⟩
  · intro st pre r post rest _ hperm hP
    exact ⟨hP.1,fun x hx => hP.2 x (by simp [hperm.mem_iff.mp hx])⟩

theorem perm_replace (pre post appended : List IsolateRange) (k : IsolateRange) :
    ((pre ++ [k]) ++ (post ++ appended)).Perm ((k :: appended) ++ (pre ++ post)) := by
  have hmove : (k :: (pre ++ post) ++ appended).Perm ((k :: appended) ++ (pre ++ post)) :=
    perm_append_comm.cons k
  have hmiddle : (pre ++ k :: post ++ appended).Perm (k :: (pre ++ post) ++ appended) :=
    perm_middle.append_right appended
  simpa using hmiddle.trans hmove

/-- The rule for what does not depend on the order of the entries. -/
theorem scanLoop_replace {P : List IsolateRange → Prop}
    (hcost : ∀ st r, ((visit st r).appended.map cost).sum < cost r)
    (hstep : ∀ st r rest l l', l.Perm (r :: rest) → l'.Perm (Visit.pieces (visit st r) ++ rest) →
      P l → P l')
    (fuel : Nat) (st : RangeRegistry) (hfuel : (st.ranges.map cost).sum ≤ fuel) (h : P st.ranges) :
    P (scanLoop visit fuel 0 st).ranges := by
  have hrun := scanLoop_rule (P := fun pre post => P (pre ++ post)) hcost ?_ ?_ fuel [] st.ranges st
    rfl hfuel h
  · simpa using hrun
  · intro st pre r post k hk hP
    apply hstep st r (pre ++ post) _ _ perm_middle ?_ hP
    simpa [Visit.pieces,hk] using perm_replace pre post (visit st r).appended k
  · intro st pre r post rest hk hperm hP
    apply hstep st r (pre ++ post) _ _ perm_middle ?_ hP
    simpa [Visit.pieces,hk] using hperm.append_left pre

end Scan

section Visits

variable {ok : AddrState → Bool → Prop} {m : AddrMap} {start stop : Nat} {committed : Bool}
  {realloc : Nat → Bool} {visit : RangeRegistry → IsolateRange → Visit} {inner : Option Bool}

def Crosses (start stop : Nat) (r : IsolateRange) : Prop :=
  (r.start < start ∧ start < r.stop) ∨ (r.start < stop ∧ stop < r.stop)

instance (start stop : Nat) (r : IsolateRange) : Decidable (Crosses start stop r) :=
  inferInstanceAs (Decidable (_ ∨ _))

def visitCost (start stop : Nat) (r : IsolateRange) : Nat :=
  if Crosses start stop r then 3 else 1

theorem sum_visitCost_le (start stop : Nat) (l : List IsolateRange) :
    (l.map (visitCost start stop)).sum ≤ 3 * l.length := by
  induction l with
  | nil => simp
  | cons r l ih =>
    have : visitCost start stop r ≤ 3 := by
      unfold visitCost
      split <;> omega
    simp only [map_cons,sum_cons,length_cons]
    omega

theorem sum_visitCost_within {l : List IsolateRange} (h : ∀ x ∈ l, ¬ Crosses start stop x) :
    (l.map (visitCost start stop)).sum = l.length := by
  induction l with
  | nil => rfl
  | cons x l ih =>
    have hx : visitCost start stop x = 1 := if_neg (h x (by simp))
    have hl := ih fun y hy => h y (by simp [hy])
    simp only [map_cons,sum_cons,length_cons]
    omega

/-- What a visit does to the entry `r`: its pieces lie on one side of each edge of
the window, and those inside the window have the state `inner`. -/
structure Divides (realloc : Nat → Bool) (start stop : Nat) (inner : Option Bool) (r : IsolateRange)
    (v : Visit) : Prop where
  few : v.appended = [] ∨ Crosses start stop r ∧ v.appended.length ≤ 2 ∧ v.kept.isSome
  sub : ∀ x ∈ Visit.pieces v, r.start ≤ x.start ∧ x.stop ≤ r.stop
  proper : ProperRange r → ∀ x ∈ Visit.pieces v, ProperRange x
  apart : (Visit.pieces v).Pairwise ApartRange
  state : ∀ x ∈ Visit.pieces v, x.committed = r.committed ∧ (x.stop ≤ start ∨ stop ≤ x.start) ∨
    x.committed ∈ inner ∧ start ≤ x.start ∧ x.stop ≤ stop
  covers : (∀ n, realloc n = true) → ∀ a, r.Contains a → inner.isSome ∨ a < start ∨ stop ≤ a →
    ∃ x ∈ Visit.pieces v, x.Contains a

theorem Divides.cost {r : IsolateRange} {v : Visit} (h : Divides realloc start stop inner r v)
    (hle : start ≤ stop) :
    (v.appended.map (visitCost start stop)).sum < visitCost start stop r := by
  rcases h.few with hnil | ⟨hcross,hlen,hkept⟩
  · rw [hnil,visitCost]
    split <;> simp
  · obtain ⟨k,hk⟩ := Option.isSome_iff_exists.mp hkept
    have hwithin : ∀ x ∈ v.appended, ¬ Crosses start stop x := by
      intro x hx
      have := h.state x (by simp [Visit.pieces,hk,hx])
      unfold Crosses
      omega
    rw [sum_visitCost_within hwithin,visitCost,if_pos hcross]
    omega

theorem markVisit_divides (hlt : start < stop) (st : RangeRegistry) (r : IsolateRange) :
    Divides realloc start stop (some committed) r (markVisit realloc start stop committed st r) := by
  have hroom := ensureRangeCapacity_of_total realloc
  unfold markVisit
  split
  · constructor <;> simp [Visit.pieces]
    omega
  · split
    · dsimp only
      split
      · constructor <;> simp [Visit.pieces,Crosses,Proper,Apart,IsolateRange.Contains] <;> omega
      · rename_i hfull
        constructor <;> simp [Visit.pieces]
        exact fun htotal => absurd (hroom htotal st 2) hfull
    · split
      · dsimp only
        split
        · constructor <;> simp [Visit.pieces,Crosses,Proper,Apart,IsolateRange.Contains] <;> omega
        · rename_i hfull
          constructor <;> simp [Visit.pieces,Crosses,Proper,Apart,IsolateRange.Contains] <;> try omega
          exact fun htotal => absurd (hroom htotal st 1) hfull
      · split
        · dsimp only
          split
          · constructor <;> simp [Visit.pieces,Crosses,Proper,Apart,IsolateRange.Contains] <;> omega
          · rename_i hfull
            constructor <;> simp [Visit.pieces,Crosses,Proper,Apart,IsolateRange.Contains] <;> try omega
            exact fun htotal => absurd (hroom htotal st 1) hfull
        · constructor <;> simp [Visit.pieces,Proper,IsolateRange.Contains]
          omega

theorem deleteVisit_divides (hle : start ≤ stop) (st : RangeRegistry) (r : IsolateRange) :
    Divides realloc start stop none r (deleteVisit realloc start stop st r) := by
  have hroom := ensureRangeCapacity_of_total realloc
  unfold deleteVisit
  split
  · constructor <;> simp [Visit.pieces,IsolateRange.Contains] <;> omega
  · split
    · dsimp only
      split
      · constructor <;> simp [Visit.pieces,Crosses,Proper,Apart,IsolateRange.Contains] <;> omega
      · rename_i hfull
        constructor <;> simp [Visit.pieces,Crosses,Proper,Apart,IsolateRange.Contains] <;> try omega
        exact fun htotal => absurd (hroom htotal st 1) hfull
    · split
      · constructor <;> simp [Visit.pieces,Proper,IsolateRange.Contains] <;> omega
      · split
        · constructor <;> simp [Visit.pieces,Proper,IsolateRange.Contains] <;> omega
        · constructor <;> simp [Visit.pieces,IsolateRange.Contains]
          omega

section Whole

variable (hdiv : ∀ st r, Divides realloc start stop inner r (visit st r)) (hle : start ≤ stop)
include hdiv hle

theorem scanLoop_apart (st : RangeRegistry) (hproper : ∀ r ∈ st.ranges, ProperRange r)
    (hapart : st.ranges.Pairwise ApartRange) :
    (∀ r ∈ (scanLoop visit (3 * st.ranges.length) 0 st).ranges, ProperRange r) ∧
      (scanLoop visit (3 * st.ranges.length) 0 st).ranges.Pairwise ApartRange := by
  apply scanLoop_replace (P := fun l => (∀ r ∈ l, ProperRange r) ∧ l.Pairwise ApartRange)
    (fun st r => (hdiv st r).cost hle) ?_ _ st (sum_visitCost_le _ _ _) ⟨hproper,hapart⟩
  intro st r rest l l' hl hl' hP
  refine ⟨?_,pairwise_apart_replace _ _ hl hl' hP.2 (hdiv st r).apart (hdiv st r).sub⟩
  intro x hx
  rcases mem_append.mp (hl'.mem_iff.mp hx) with hx | hx
  · exact (hdiv st r).proper (hP.1 r (hl.mem_iff.mpr (by simp))) x hx
  · exact hP.1 x (hl.mem_iff.mpr (by simp [hx]))

theorem scanLoop_covers (htotal : ∀ n, realloc n = true) {a : Nat}
    (ha : inner.isSome ∨ a < start ∨ stop ≤ a) (st : RangeRegistry)
    (h : ∃ r ∈ st.ranges, r.Contains a) :
    ∃ r ∈ (scanLoop visit (3 * st.ranges.length) 0 st).ranges, r.Contains a := by
  apply scanLoop_replace (P := fun l => ∃ r ∈ l, r.Contains a)
    (fun st r => (hdiv st r).cost hle) ?_ _ st (sum_visitCost_le _ _ _) h
  intro st r rest l l' hl hl' ⟨c,hc,hca⟩
  rcases mem_cons.mp (hl.mem_iff.mp hc) with rfl | hc
  · obtain ⟨x,hx,hxa⟩ := (hdiv st c).covers htotal a hca ha
    exact ⟨x,hl'.mem_iff.mpr (by simp [hx]),hxa⟩
  · exact ⟨c,hl'.mem_iff.mpr (by simp [hc]),hca⟩

end Whole

def MarkPending (ok : AddrState → Bool → Prop) (m : AddrMap) (start stop : Nat)
    (r : IsolateRange) : Prop :=
  ∀ a, r.Contains a → m a ≠ .unregistered ∧ ((a < start ∨ stop ≤ a) → ok (m a) r.committed)

theorem MarkPending.piece (hok : Reading ok) {r x : IsolateRange} {v : Visit}
    (h : MarkPending ok m start stop r) (hv : Divides realloc start stop (some committed) r v)
    (hx : x ∈ Visit.pieces v) :
    Agrees ok (markMap start stop committed m) x ∧ MarkPending ok m start stop x := by
  have hsub := hv.sub x hx
  have hm : ∀ a, x.Contains a → m a ≠ .unregistered ∧ ((a < start ∨ stop ≤ a) → ok (m a) r.committed) :=
    fun a ha => h a ⟨hsub.1.trans ha.1,ha.2.trans_le hsub.2⟩
  rcases hv.state x hx with ⟨hsame,hout⟩ | ⟨hnew,hin⟩
  · rw [Agrees,MarkPending,hsame]
    refine ⟨fun a ha => ?_,hm⟩
    have hax : x.start ≤ a ∧ a < x.stop := ha
    rw [markMap,if_neg (by omega)]
    exact (hm a ha).2 (by omega)
  · refine ⟨fun a ha => ?_,fun a ha => ⟨(hm a ha).1,fun hout => ?_⟩⟩
    · have hax : x.start ≤ a ∧ a < x.stop := ha
      rw [markMap,if_pos ⟨by omega,by omega,(hm a ha).1⟩,← Option.mem_some_iff.mp hnew]
      exact hok.exact committed
    · have hax : x.start ≤ a ∧ a < x.stop := ha
      omega

theorem markRange_agrees (hok : Reading ok) (hlt : start < stop) (st : RangeRegistry)
    (h : ∀ r ∈ st.ranges, Agrees ok m r) :
    ∀ r ∈ (markRange realloc start stop committed st).ranges,
      Agrees ok (markMap start stop committed m) r :=
  scanLoop_done (Q := MarkPending ok m start stop)
    (fun st r => (markVisit_divides hlt st r).cost hlt.le)
    (fun st r hr _ hx => hr.piece hok (markVisit_divides hlt st r) hx) _ st (sum_visitCost_le _ _ _)
    (fun r hr a ha => ⟨hok.registered (h r hr a ha),fun _ => h r hr a ha⟩)

theorem markRange_sound (hlt : start < stop) (st : RangeRegistry) (h : Sound st.ranges m) :
    Sound (markRange realloc start stop committed st).ranges (markMap start stop committed m) := by
  obtain ⟨hproper,hapart⟩ := scanLoop_apart (markVisit_divides hlt) hlt.le st h.proper h.apart
  exact ⟨hproper,hapart,markRange_agrees reading_exact hlt st h.agrees⟩

theorem markRange_complete (htotal : ∀ n, realloc n = true) (hlt : start < stop) (st : RangeRegistry)
    (h : Complete st.ranges m) :
    Complete (markRange realloc start stop committed st).ranges
      (markMap start stop committed m) := by
  intro a ha
  have hm : m a ≠ .unregistered := by
    unfold markMap at ha
    split at ha
    · tauto
    · exact ha
  exact scanLoop_covers (markVisit_divides hlt) hlt.le htotal (.inl rfl) st (h a hm)

theorem agrees_deleteMap {r x : IsolateRange} {v : Visit} (h : Agrees ok m r)
    (hv : Divides realloc start stop none r v) (hx : x ∈ Visit.pieces v) :
    Agrees ok (deleteMap start stop m) x ∧ Agrees ok m x := by
  have hsub := hv.sub x hx
  obtain ⟨hsame,hout⟩ : x.committed = r.committed ∧ (x.stop ≤ start ∨ stop ≤ x.start) := by
    simpa using hv.state x hx
  have hm : Agrees ok m x := fun a ha => hsame ▸ h a ⟨hsub.1.trans ha.1,ha.2.trans_le hsub.2⟩
  refine ⟨fun a ha => ?_,hm⟩
  have hax : x.start ≤ a ∧ a < x.stop := ha
  rw [deleteMap,if_neg (by omega)]
  exact hm a ha

theorem deleteRange_agrees (hle : start ≤ stop) (st : RangeRegistry)
    (h : ∀ r ∈ st.ranges, Agrees ok m r) :
    ∀ r ∈ (deleteRange realloc start stop st).ranges, Agrees ok (deleteMap start stop m) r :=
  scanLoop_done (Q := Agrees ok m) (fun st r => (deleteVisit_divides hle st r).cost hle)
    (fun st r hr _ hx => agrees_deleteMap hr (deleteVisit_divides hle st r) hx) _ st
    (sum_visitCost_le _ _ _) h

theorem deleteRange_sound (hle : start ≤ stop) (st : RangeRegistry) (h : Sound st.ranges m) :
    Sound (deleteRange realloc start stop st).ranges (deleteMap start stop m) := by
  obtain ⟨hproper,hapart⟩ := scanLoop_apart (deleteVisit_divides hle) hle st h.proper h.apart
  exact ⟨hproper,hapart,deleteRange_agrees hle st h.agrees⟩

theorem deleteRange_complete (htotal : ∀ n, realloc n = true) (hle : start ≤ stop)
    (st : RangeRegistry) (h : Complete st.ranges m) :
    Complete (deleteRange realloc start stop st).ranges (deleteMap start stop m) := by
  intro a ha
  unfold deleteMap at ha
  split at ha
  · contradiction
  · rename_i hout
    exact scanLoop_covers (deleteVisit_divides hle) hle htotal (.inr (by omega)) st (h a ha)

end Visits

end GcUtil.Isolate.RegistryScan
