import GcUtil.Cords.Concatenation
import GcUtil.Library.FibonacciDepth

/-! Balancing returns, without being called again, for cords of up to `min_len[46] + 1`
characters. The trees of the forest are bounded by their Fibonacci sizes, so that none of the
concatenations reaches the depth limit. -/
namespace GcUtil.Cords.Balancing
open Basic Nodes Operations Concatenation Library.FibonacciDepth List

/-- The longest cord that `CORD_balance` is certain to come back from. -/
def balanceMax : Nat := minLen 46 + 1

variable {bal : Cord → Result Cord} {x y r : Cord} {s : List UInt8} {i : Nat} {e : ForestElement}
  {forest : Forest} {w : Walk}

structure Cat (x y r : Cord) : Prop where
  wf : r.WellFormed
  denote : r.denote = x.denote ++ y.denote
  height : r.height ≤ 1 + max x.height y.height
  left : x.isEmpty = true → r = y
  right : y.isEmpty = true → r = x

structure SlotOk (i : Nat) (e : ForestElement) : Prop where
  wf : e.c.WellFormed
  len : e.c.isEmpty = false → e.len = e.c.denote.length
  least : e.c.isEmpty = false → size i ≤ e.c.denote.length
  below : e.c.denote.length < size (i + 1)
  bounded : Bounded e.c.height e.c.denote.length

def ForestOk (forest : Forest) : Prop := ∀ i e, forest[i]? = some e → SlotOk i e

def denoteForest : Forest → List UInt8
  | [] => []
  | e :: rest => denoteForest rest ++ e.c.denote

def Roomy (n : Nat) (forest : Forest) : Prop :=
  ∃ k < cordMaxDepth, forest.length = k + 1 ∧ n < size k

/-- The elements before the index are null, and those from it on, with the sum, denote `s`. -/
structure WalkOk (s : List UInt8) (w : Walk) : Prop where
  slots : ForestOk w.forest
  cleared : ∀ j < w.i, ∀ e, w.forest[j]? = some e → e.c.isEmpty = true
  wf : w.sum.WellFormed
  sumLen : w.sumLen = w.sum.denote.length
  denotes : denoteForest (w.forest.drop w.i) ++ w.sum.denote = s

theorem minLenPair_eq (hi : i ≤ 47) : minLenPair i = (size i, size (i + 1)) := by
  induction i with
  | zero => rfl
  | succ i ih =>
    have htop : size 49 < wordMax := by decide +kernel
    have hsum : size i + size (i + 1) ≤ size 49 := by
      rw [← size_add_two]
      exact size_mono (by omega)
    rw [minLenPair,ih (by omega)]
    simp only [size_add_two]
    rw [if_pos (by omega),Nat.add_comm (size (i + 1))]

theorem minLen_eq_size (hi : i ≤ 47) : minLen i = size i := by
  rw [minLen,minLenPair_eq hi]

theorem readMinLen_eq (hi : i ≤ 47) : readMinLen i = .ok (size i) := by
  rw [readMinLen,if_pos (show i < cordMaxDepth from Nat.lt_succ_of_le hi),minLen_eq_size hi]

theorem balanceMax_eq : balanceMax = size 46 + 1 := by
  rw [balanceMax,minLen_eq_size (by decide)]

theorem balanceMax_lt_size : balanceMax < size 47 := by
  rw [balanceMax_eq]
  decide +kernel

theorem balanceMax_le_wordMax : balanceMax ≤ wordMax := by
  rw [balanceMax_eq]
  decide +kernel

theorem index_le_of_size_le {n : Nat} (h : size i ≤ n) (hn : n ≤ balanceMax) : i ≤ 46 := by
  by_contra hi
  have hle : size 47 ≤ size i := size_mono (by omega)
  have := balanceMax_lt_size
  omega

theorem index_le_of_size_lt {n : Nat} (h : size i < n) (hn : n ≤ balanceMax) : i ≤ 46 :=
  index_le_of_size_le h.le hn

theorem height_lt_of_bounded {d n : Nat} (h : Bounded d n) (hn : n ≤ balanceMax) :
    d < cordMaxDepth :=
  Nat.lt_succ_of_le (h.le_of_lt_size (hn.trans balanceMax_lt_size.le))

theorem cat_shallow (hx : x.WellFormed) (hy : y.WellFormed)
    (htotal : x.denote.length + y.denote.length ≤ wordMax)
    (hd : x.isEmpty = false → y.isEmpty = false → 1 + max x.height y.height < cordMaxDepth) :
    ∃ r, cat bal x y = .ok r ∧ Cat x y r := by
  cases hxe : x.isEmpty with
  | true =>
    rw [(Cord.isEmpty_iff x).mp hxe,cat_empty_left]
    exact ⟨y,rfl,hy,rfl,by omega,fun _ => rfl,fun hye => (Cord.isEmpty_iff y).mp hye⟩
  | false =>
    cases hye : y.isEmpty with
    | true =>
      rw [(Cord.isEmpty_iff y).mp hye,cat_empty_right]
      exact ⟨x,rfl,hx,by simp [Cord.denote],by omega,by simp [hxe],fun _ => rfl⟩
    | false =>
      have hdepth := hd hxe hye
      have hlen : x.genLen + y.genLen ≤ wordMax := by
        rwa [Cord.genLen_eq_length hx,Cord.genLen_eq_length hy]
      have hjoins : Joins bal (cat bal x y) _ _ :=
        cat_joins hx hy hlen (hdepth.le.trans (by decide))
      obtain ⟨r,hr,hwf,hdenote,hheight⟩ := hjoins.ok hdepth
      exact ⟨r,hr,hwf,hdenote,hheight,by simp [hxe],by simp [hye]⟩

theorem length_pos (h : x.WellFormed) (hxe : x.isEmpty = false) : 0 < x.denote.length :=
  Nat.zero_lt_of_lt (Cord.height_lt_length h hxe)

theorem slotOk_null (i : Nat) (n : Nat) : SlotOk i ⟨.empty, n⟩ where
  wf := trivial
  len h := nomatch h
  least h := nomatch h
  below := size_pos _
  bounded := bounded_zero _

theorem SlotOk.height_le (h : SlotOk i e) : e.c.height ≤ i + 1 :=
  h.bounded.le_of_lt_size h.below.le

theorem forestOk_set (h : ForestOk forest) (he : SlotOk i e) : ForestOk (forest.set i e) := by
  intro j e' hj
  rw [List.getElem?_set] at hj
  split at hj
  · split at hj
    · case _ hij _ =>
      obtain rfl := Option.some.inj hj
      exact hij ▸ he
    · cases hj
  · exact h j e' hj

theorem denoteForest_drop (hi : forest[i]? = some e) :
    denoteForest (forest.drop i) = denoteForest (forest.drop (i + 1)) ++ e.c.denote := by
  obtain ⟨hlt,rfl⟩ := List.getElem?_eq_some_iff.mp hi
  rw [drop_eq_getElem_cons hlt,denoteForest]

theorem denoteForest_of_cleared {n : Nat}
    (h : ∀ j < n, ∀ e, forest[j]? = some e → e.c.isEmpty = true) :
    denoteForest forest = denoteForest (forest.drop n) := by
  induction n with
  | zero => rfl
  | succ n ih =>
    rw [ih fun j hj => h j (hj.trans (Nat.lt_succ_self n))]
    cases hn : forest[n]? with
    | none =>
      have hlen := List.getElem?_eq_none_iff.mp hn
      rw [drop_of_length_le hlen,drop_of_length_le (by omega)]
    | some e =>
      rw [denoteForest_drop hn,(Cord.isEmpty_iff _).mp (h n (Nat.lt_succ_self n) e hn),
        Cord.denote,append_nil]

theorem readSlot_eq (hi : forest[i]? = some e) : readSlot forest i = .ok e := by
  rw [readSlot,hi]

theorem Roomy.exists_slot {n : Nat} (h : Roomy n forest) (hi : size i ≤ n) :
    ∃ e, forest[i]? = some e := by
  obtain ⟨k,-,hlen,hk⟩ := h
  have hik : i < k := size_strictMono.lt_iff_lt.mp (hi.trans_lt hk)
  exact ⟨forest[i],List.getElem?_eq_getElem (by omega)⟩

theorem Roomy.mono {n m : Nat} (h : Roomy n forest) (hle : m ≤ n) : Roomy m forest := by
  obtain ⟨k,hk,hlen,hn⟩ := h
  exact ⟨k,hk,hlen,hle.trans_lt hn⟩

theorem Roomy.congr {n : Nat} {forest' : Forest} (h : Roomy n forest)
    (hlen : forest'.length = forest.length) : Roomy n forest' := by
  rw [Roomy,hlen]
  exact h

theorem takeIn_spec {sumLen : Nat} (he : SlotOk i e) (hy : y.WellFormed)
    (hlen : sumLen = y.denote.length) (htotal : e.c.denote.length + y.denote.length ≤ wordMax)
    (hd : e.c.isEmpty = false → y.isEmpty = false → 1 + max e.c.height y.height < cordMaxDepth) :
    ∃ r, takeIn bal e y sumLen = .ok (r, r.denote.length) ∧ Cat e.c y r := by
  have hcat : ∃ r, cat bal e.c y = .ok r ∧ Cat e.c y r := cat_shallow he.wf hy htotal hd
  obtain ⟨r,hr,hc⟩ := hcat
  refine ⟨r,?_,hc⟩
  unfold takeIn
  split
  · case isTrue hempty =>
    rw [hc.left hempty,hlen]
  · case isFalse hne =>
    have helen := he.len (by simpa using hne)
    rw [hr,hlen,helen,wordAdd_of_le (by omega),hc.denote,length_append,Nat.add_comm]
    rfl

theorem absorb_spec (h : WalkOk s w) (hs : s.length ≤ wordMax) (hi : w.forest[w.i]? = some e)
    (hd : e.c.isEmpty = false → w.sum.isEmpty = false →
      1 + max e.c.height w.sum.height < cordMaxDepth) :
    ∃ w', absorb bal w = .ok w' ∧ WalkOk s w' ∧ Cat e.c w.sum w'.sum ∧ w'.i = w.i + 1 ∧
      w'.forest.length = w.forest.length := by
  have hdenotes := h.denotes
  rw [denoteForest_drop hi] at hdenotes
  have htotal : e.c.denote.length + w.sum.denote.length ≤ wordMax := by
    rw [← hdenotes] at hs
    simp only [length_append] at hs
    omega
  have htake : ∃ r, takeIn bal e w.sum w.sumLen = .ok (r, r.denote.length) ∧ Cat e.c w.sum r :=
    takeIn_spec (h.slots _ _ hi) h.wf h.sumLen htotal hd
  obtain ⟨r,hr,hc⟩ := htake
  refine ⟨⟨w.forest.set w.i { e with c := .empty },w.i + 1,r,r.denote.length⟩,?_,?_,hc,rfl,
    length_set⟩
  · rw [absorb,readSlot_eq hi]
    change (takeIn bal e w.sum w.sumLen >>= _) = _
    rw [hr]
    rfl
  · refine ⟨forestOk_set h.slots (slotOk_null _ _),?_,hc.wf,rfl,?_⟩
    · intro j hj e' he'
      rw [List.getElem?_set] at he'
      split at he'
      · split at he'
        · obtain rfl := Option.some.inj he'
          rfl
        · cases he'
      · case _ hne =>
        have hlt : j < w.i := Nat.lt_of_le_of_ne (Nat.le_of_lt_succ hj) (Ne.symm hne)
        exact h.cleared j hlt e' he'
    · rw [drop_set_of_lt (Nat.lt_succ_self w.i),hc.denote,← append_assoc]
      exact hdenotes

theorem gather_step {len n : Nat} {w' : Walk} (hi : w.i ≤ 46) (hlong : size (w.i + 1) < len)
    (habsorb : absorb bal w = .ok w') : gather bal len (n + 1) w = gather bal len n w' := by
  rw [gather,readMinLen_eq (Nat.succ_le_succ hi)]
  change (if len > size (w.i + 1) then _ else _) = _
  rw [if_pos hlong,habsorb]
  rfl

theorem gather_stop {len n : Nat} (hi : w.i ≤ 46) (hlong : len ≤ size (w.i + 1)) :
    gather bal len (n + 1) w = .ok w := by
  rw [gather,readMinLen_eq (Nat.succ_le_succ hi)]
  change (if len > size (w.i + 1) then _ else _) = _
  rw [if_neg (Nat.not_lt_of_le hlong)]
  rfl

theorem settle_step {n : Nat} {w' : Walk} (hi : w.i ≤ 47) (hlong : size w.i ≤ w.sumLen)
    (habsorb : absorb bal w = .ok w') : settle bal (n + 1) w = settle bal n w' := by
  rw [settle,readMinLen_eq hi]
  change (if w.sumLen ≥ size w.i then _ else _) = _
  rw [if_pos hlong,habsorb]
  rfl

theorem settle_stop {n : Nat} (hi : w.i ≤ 47) (hlong : w.sumLen < size w.i) :
    settle bal (n + 1) w = .ok w := by
  rw [settle,readMinLen_eq hi]
  change (if w.sumLen ≥ size w.i then _ else _) = _
  rw [if_neg (Nat.not_le_of_lt hlong)]
  rfl

theorem WalkOk.sum_le (h : WalkOk s w) : w.sum.denote.length ≤ s.length := by
  rw [← h.denotes,length_append]
  omega

theorem gather_spec {len n : Nat} (hs : s.length ≤ balanceMax) (hlen : len ≤ balanceMax)
    (hroomy : Roomy len w.forest) (h : WalkOk s w)
    (hsum : Stacked w.i w.sum.height w.sum.denote.length) (hi : w.i = 0 ∨ size w.i < len)
    (hn : 48 ≤ w.i + n) :
    ∃ w', gather bal len n w = .ok w' ∧ WalkOk s w' ∧
      Stacked w'.i w'.sum.height w'.sum.denote.length ∧ (w'.i = 0 ∨ size w'.i < len) ∧
      len ≤ size (w'.i + 1) ∧ w'.forest.length = w.forest.length := by
  have hindex : w.i ≤ 46 := by
    rcases hi with hi | hi
    · omega
    · exact index_le_of_size_lt hi hlen
  induction n generalizing w with
  | zero => omega
  | succ n ih =>
    by_cases hlong : size (w.i + 1) < len
    · obtain ⟨e,he⟩ := hroomy.exists_slot ((size_mono (Nat.le_succ w.i)).trans hlong.le)
      have hslot := h.slots _ _ he
      have hnext := index_le_of_size_lt hlong hlen
      have hmax := hsum.le_succ
      have hheight := hslot.height_le
      have habsorb : ∃ w', absorb bal w = .ok w' ∧ WalkOk s w' ∧ Cat e.c w.sum w'.sum ∧
          w'.i = w.i + 1 ∧ w'.forest.length = w.forest.length :=
        absorb_spec h (hs.trans balanceMax_le_wordMax) he fun _ _ =>
          show 1 + max e.c.height w.sum.height < 48 by omega
      obtain ⟨w',hw',hok,hcat,hi',hlen'⟩ := habsorb
      have hstacked : Stacked w'.i w'.sum.height w'.sum.denote.length := by
        rw [hi']
        cases hempty : e.c.isEmpty with
        | true =>
          rw [hcat.left hempty]
          exact hsum.skip
        | false =>
          rw [hcat.denote,length_append]
          exact hsum.push hheight (hslot.least hempty) hcat.height
      have hrest := ih (hroomy.congr hlen') hok hstacked (.inr (hi' ▸ hlong)) (by omega) (by omega)
      rw [hlen'] at hrest
      rw [gather_step hindex hlong hw']
      exact hrest
    · have hstop := Nat.le_of_not_lt hlong
      exact ⟨w,gather_stop hindex hstop,h,hsum,hi,hstop,rfl⟩

theorem settle_spec {n : Nat} (hs : s.length ≤ balanceMax) (hroomy : Roomy s.length w.forest)
    (h : WalkOk s w) (hheight : w.sum.height ≤ w.i + 2)
    (hbounded : Bounded w.sum.height w.sum.denote.length)
    (hleast : size (w.i - 1) ≤ w.sum.denote.length) (hn : 48 ≤ w.i + n) :
    ∃ w', settle bal n w = .ok w' ∧ WalkOk s w' ∧ w'.forest.length = w.forest.length ∧
      ∃ k, w'.i = k + 1 ∧ size k ≤ w'.sum.denote.length ∧ SlotOk k ⟨w'.sum, w'.sumLen⟩ := by
  have hsum := h.sum_le
  have hindex := index_le_of_size_le hleast (hsum.trans hs)
  induction n generalizing w with
  | zero => omega
  | succ n ih =>
    by_cases hlong : size w.i ≤ w.sum.denote.length
    · obtain ⟨e,he⟩ := hroomy.exists_slot (hlong.trans hsum)
      have hslot := h.slots _ _ he
      have hjoin (hempty : e.c.isEmpty = false) :
          Bounded (1 + max e.c.height w.sum.height) (e.c.denote.length + w.sum.denote.length) :=
        hslot.bounded.join hbounded (hslot.height_le.trans (Nat.le_succ _)) hheight
          (hslot.least hempty) hlong
      have htotal : e.c.denote.length + w.sum.denote.length ≤ s.length := by
        rw [← h.denotes,denoteForest_drop he]
        simp only [length_append]
        omega
      have habsorb : ∃ w', absorb bal w = .ok w' ∧ WalkOk s w' ∧ Cat e.c w.sum w'.sum ∧
          w'.i = w.i + 1 ∧ w'.forest.length = w.forest.length :=
        absorb_spec h (hs.trans balanceMax_le_wordMax) he fun hempty _ =>
          height_lt_of_bounded (hjoin hempty) (htotal.trans hs)
      obtain ⟨w',hw',hok,hcat,hi',hlen'⟩ := habsorb
      have hbounded' : Bounded w'.sum.height w'.sum.denote.length := by
        cases hempty : e.c.isEmpty with
        | true => exact hcat.left hempty ▸ hbounded
        | false =>
          rw [hcat.denote,length_append]
          exact (hjoin hempty).mono hcat.height le_rfl
      have hlonger : w.sum.denote.length ≤ w'.sum.denote.length := by
        rw [hcat.denote,length_append]
        omega
      have hlonger' : w'.sum.denote.length ≤ s.length := by
        rw [hcat.denote,length_append]
        exact htotal
      have hslotHeight := hslot.height_le
      have hheight' := hcat.height
      have hleast' : size (w'.i - 1) ≤ w'.sum.denote.length := by
        rw [hi']
        exact hlong.trans hlonger
      have hindex' := index_le_of_size_le hleast' (hlonger'.trans hs)
      have hrest := ih (hroomy.congr hlen') hok (by omega) hbounded' hleast' (by omega) hlonger'
        hindex'
      rw [hlen'] at hrest
      rw [settle_step (by omega) (h.sumLen ▸ hlong) hw']
      exact hrest
    · have hstop : settle bal (n + 1) w = .ok w :=
        settle_stop (by omega) (h.sumLen ▸ Nat.lt_of_not_le hlong)
      cases hk : w.i with
      | zero =>
        rw [hk] at hleast hlong
        exact absurd hleast hlong
      | succ k =>
        rw [hk] at hleast hlong
        have hslot : SlotOk k ⟨w.sum,w.sumLen⟩ :=
          ⟨h.wf,fun _ => h.sumLen,fun _ => hleast,Nat.lt_of_not_le hlong,hbounded⟩
        exact ⟨w,hstop,h,rfl,k,hk,hleast,hslot⟩

/-- The cords that `CORD_balance_insert` adds to the forest: leaves and balanced trees. -/
def Leaf (x : Cord) : Prop := x.WellFormed ∧ x.isEmpty = false ∧ size x.height ≤ x.denote.length

theorem catLeaf_spec (h : WalkOk s w) (hx : Leaf x) (htotal : s.length + x.denote.length ≤ balanceMax)
    (hsum : Stacked w.i w.sum.height w.sum.denote.length)
    (hi : w.i = 0 ∨ size w.i < x.denote.length) (hlen : x.denote.length ≤ size (w.i + 1)) :
    ∃ r, cat bal w.sum x = .ok r ∧ Cat w.sum x r ∧ r.height ≤ w.i + 2 ∧
      Bounded r.height r.denote.length ∧ size (w.i - 1) ≤ r.denote.length := by
  obtain ⟨hwf,hxe,hsize⟩ := hx
  have hle := h.sum_le
  have hjoin (hempty : w.sum.isEmpty = false) :
      Bounded (1 + max w.sum.height x.height) (w.sum.denote.length + x.denote.length) :=
    hsum.bounded (length_pos h.wf hempty) hi hsize
  have hcat : ∃ r, cat bal w.sum x = .ok r ∧ Cat w.sum x r := by
    have hmax := balanceMax_le_wordMax
    apply cat_shallow h.wf hwf (by omega)
    intro hempty _
    exact height_lt_of_bounded (hjoin hempty) (by omega)
  obtain ⟨r,hr,hc⟩ := hcat
  have hheight : x.height ≤ w.i + 1 := size_strictMono.le_iff_le.mp (hsize.trans hlen)
  have hsumHeight := hsum.le_succ
  have hrHeight := hc.height
  refine ⟨r,hr,hc,by omega,?_,?_⟩
  · cases hempty : w.sum.isEmpty with
    | true => exact hc.left hempty ▸ bounded_of_size_le hsize
    | false =>
      rw [hc.denote,length_append]
      exact (hjoin hempty).mono hc.height le_rfl
  · have hpos := length_pos hwf hxe
    have hprev : size (w.i - 1) ≤ size w.i := size_mono (Nat.sub_le _ _)
    rw [hc.denote,length_append]
    rcases hi with hi | hi
    · rw [hi,size_zero]
      omega
    · omega

theorem placeSum_spec {k : Nat} (h : WalkOk s w) (hroomy : Roomy s.length w.forest) (hk : w.i = k + 1)
    (hleast : size k ≤ w.sum.denote.length) (hslot : SlotOk k ⟨w.sum, w.sumLen⟩) :
    ∃ forest, placeSum w = .ok forest ∧ ForestOk forest ∧ denoteForest forest = s ∧
      forest.length = w.forest.length := by
  have hle := h.sum_le
  obtain ⟨e,he⟩ := hroomy.exists_slot (hleast.trans hle)
  have hlt := (List.getElem?_eq_some_iff.mp he).1
  have hplace : placeSum w = .ok (w.forest.set k ⟨w.sum,w.sumLen⟩) := by
    rw [placeSum,hk]
    exact if_pos hlt
  refine ⟨_,hplace,forestOk_set h.slots hslot,?_,length_set⟩
  have hcleared : ∀ j < k, ∀ e, (w.forest.set k ⟨w.sum,w.sumLen⟩)[j]? = some e →
      e.c.isEmpty = true := by
    intro j hj e' he'
    rw [List.getElem?_set_ne hj.ne'] at he'
    exact h.cleared j (by omega) e' he'
  have hself : (w.forest.set k ⟨w.sum,w.sumLen⟩)[k]? = some ⟨w.sum,w.sumLen⟩ :=
    List.getElem?_set_self hlt
  rw [denoteForest_of_cleared hcleared,denoteForest_drop hself,
    drop_set_of_lt (Nat.lt_add_one k),← hk]
  exact h.denotes

theorem addForest_eq {len : Nat} {w' : Walk}
    (hgather : gather bal len cordMaxDepth ⟨forest, 0, .empty, 0⟩ = .ok w)
    (hcat : cat bal w.sum x = .ok r)
    (hsettle : settle bal (cordMaxDepth + 1) ⟨w.forest, w.i, r, wordAdd w.sumLen len⟩ = .ok w') :
    addForest bal forest x len = placeSum w' := by
  rw [addForest,hgather]
  change (cat bal w.sum x >>= _) = _
  rw [hcat]
  change (settle bal (cordMaxDepth + 1) ⟨w.forest,w.i,r,wordAdd w.sumLen len⟩ >>= placeSum) = _
  rw [hsettle]
  rfl

theorem addForest_spec (hf : ForestOk forest) (hx : Leaf x)
    (htotal : (denoteForest forest ++ x.denote).length ≤ balanceMax)
    (hroomy : Roomy (denoteForest forest ++ x.denote).length forest) :
    ∃ forest', addForest bal forest x x.denote.length = .ok forest' ∧ ForestOk forest' ∧
      denoteForest forest' = denoteForest forest ++ x.denote ∧ forest'.length = forest.length := by
  have hlen := htotal
  rw [length_append] at hlen
  have hstart : WalkOk (denoteForest forest) ⟨forest,0,.empty,0⟩ :=
    ⟨hf,fun j hj => absurd hj (Nat.not_lt_zero j),trivial,rfl,append_nil _⟩
  have hgather : ∃ w', gather bal x.denote.length cordMaxDepth ⟨forest,0,.empty,0⟩ = .ok w' ∧ _ :=
    gather_spec (by omega) (by omega) (hroomy.mono (by simp)) hstart (stacked_zero _) (.inl rfl)
      le_rfl
  obtain ⟨w,hw,hok,hstacked,hi,hnext,hlength⟩ := hgather
  have hcat : ∃ r, cat bal w.sum x = .ok r ∧ _ := catLeaf_spec hok hx hlen hstacked hi hnext
  obtain ⟨r,hr,hc,hheight,hbounded,hleast⟩ := hcat
  have hsumLen : wordAdd w.sumLen x.denote.length = r.denote.length := by
    have hle := hok.sum_le
    have hmax := balanceMax_le_wordMax
    rw [hok.sumLen,wordAdd_of_le (by omega),hc.denote,length_append]
  have hadded : WalkOk (denoteForest forest ++ x.denote) ⟨w.forest,w.i,r,r.denote.length⟩ := by
    refine ⟨hok.slots,hok.cleared,hc.wf,rfl,?_⟩
    rw [hc.denote,← append_assoc,hok.denotes]
  have hsettle : ∃ w', settle bal (cordMaxDepth + 1) ⟨w.forest,w.i,r,r.denote.length⟩ =
      .ok w' ∧ _ :=
    settle_spec htotal (hroomy.congr hlength) hadded hheight hbounded hleast
      (Nat.le_add_left _ _)
  obtain ⟨w',hw',hok',hlength',k,hk,hleast',hslot⟩ := hsettle
  have hplace := placeSum_spec hok' (hroomy.congr (hlength'.trans hlength)) hk hleast' hslot
  rw [hlength',hlength] at hplace
  rw [← hsumLen] at hw'
  rw [addForest_eq hw hr hw']
  exact hplace

theorem unbalanced_spec (d len : Nat) :
    ∃ b, unbalanced d len = .ok b ∧ (b = false → size d ≤ len) := by
  unfold unbalanced
  by_cases hdeep : (d : Int) ≥ cordMaxDepth
  · exact ⟨true,if_pos hdeep,fun h => nomatch h⟩
  · rw [if_neg hdeep,if_neg (by omega),Int.toNat_natCast]
    have hd : d ≤ 47 := Nat.le_of_lt_succ (Int.ofNat_lt.mp (Int.lt_of_not_ge hdeep))
    rw [readMinLen_eq hd]
    exact ⟨decide (len < size d),rfl,fun h => Nat.le_of_not_lt (of_decide_eq_false h)⟩

section Insert
variable {len xlen leftLen : Nat} {depth : Int} {left right : Cord}

theorem balanceInsert_of_unbalanced {forest' : Forest} (h : unbalanced depth len = .ok true)
    (hleft : balanceInsert bal left (leftLenOf xlen leftLen left right) forest = .ok forest') :
    balanceInsert bal (.concat xlen depth leftLen left right) len forest =
      balanceInsert bal right (wordSub len (leftLenOf xlen leftLen left right)) forest' := by
  rw [balanceInsert,h]
  change (balanceInsert bal left _ forest >>= _) = _
  rw [hleft]
  rfl

theorem balanceInsert_of_balanced (h : unbalanced depth len = .ok false) :
    balanceInsert bal (.concat xlen depth leftLen left right) len forest =
      addForest bal forest (.concat xlen depth leftLen left right) len := by
  rw [balanceInsert,h]
  rfl

end Insert

theorem balanceInsert_spec (hx : x.WellFormed) (hxe : x.isEmpty = false) (hf : ForestOk forest)
    (htotal : (denoteForest forest ++ x.denote).length ≤ balanceMax)
    (hroomy : Roomy (denoteForest forest ++ x.denote).length forest) :
    ∃ forest', balanceInsert bal x x.denote.length forest = .ok forest' ∧ ForestOk forest' ∧
      denoteForest forest' = denoteForest forest ++ x.denote ∧ forest'.length = forest.length := by
  induction x generalizing forest with
  | empty => cases hxe
  | string s => exact addForest_spec hf ⟨hx,rfl,length_pos hx hxe⟩ htotal hroomy
  | function len fn => exact addForest_spec hf ⟨hx,rfl,length_pos hx hxe⟩ htotal hroomy
  | concat len depth leftLen left right ihl ihr =>
    have hcheck := unbalanced_spec (Cord.concat len depth leftLen left right).height
      (Cord.concat len depth leftLen left right).denote.length
    rw [← Cord.depth_eq_height hx] at hcheck
    change ∃ b, unbalanced depth _ = _ ∧ _ at hcheck
    obtain ⟨b,hb,hbalanced⟩ := hcheck
    cases b with
    | false =>
      rw [balanceInsert_of_balanced hb]
      exact addForest_spec hf ⟨hx,hxe,hbalanced rfl⟩ htotal hroomy
    | true =>
      have hlen := Cord.genLen_eq_length hx
      have hmax := balanceMax_le_wordMax
      rw [length_append] at htotal
      have hleftLen := leftLenOf_eq hx (hlen.trans_le (by omega))
      rw [Cord.denote,length_append] at htotal
      rw [Cord.denote,← append_assoc] at hroomy
      have hrightLen : wordSub (left.denote ++ right.denote).length left.denote.length =
          right.denote.length := by
        rw [length_append,wordSub_of_le (by omega) (by omega)]
        omega
      have hleft := ihl hx.1 hx.2.2.1 hf (by rw [length_append]; omega)
        (hroomy.mono (by simp))
      obtain ⟨forest₁,hadd₁,hf₁,hdenote₁,hlength₁⟩ := hleft
      rw [← hdenote₁] at hroomy
      have hright := ihr hx.2.1 hx.2.2.2.1 hf₁
        (by rw [hdenote₁,length_append,length_append]; omega) (hroomy.congr hlength₁)
      rw [hlength₁,hdenote₁,append_assoc] at hright
      rw [balanceInsert_of_unbalanced hb (hleftLen.symm ▸ hadd₁),hleftLen,Cord.denote,hrightLen]
      exact hright

theorem concat_shallow (he : SlotOk i e) (hy : y.WellFormed)
    (hsum : Stacked i y.height y.denote.length)
    (htotal : e.c.denote.length + y.denote.length ≤ balanceMax) (hempty : e.c.isEmpty = false)
    (hye : y.isEmpty = false) : 1 + max e.c.height y.height < cordMaxDepth := by
  have hleast := he.least hempty
  have hheight := he.height_le
  have hmax := hsum.le_succ
  have hindex := index_le_of_size_le hleast (by omega)
  change _ < 48
  rcases Nat.lt_or_ge i 46 with hlt | hge
  · omega
  · -- at the last level one character is left for the sum
    obtain rfl : i = 46 := by omega
    have hlimit := balanceMax_eq
    have hone := Cord.height_lt_length hy hye
    have htree : e.c.height ≤ 46 := he.bounded.le_of_lt_size (by omega)
    omega

theorem concatLoop_step {expectedLen n len len' : Nat} (hlen : len ≠ expectedLen)
    (he : forest[i]? = some e) (htake : takeIn bal e y len = .ok (r, len')) :
    concatLoop bal forest expectedLen (n + 1) i y len =
      concatLoop bal forest expectedLen n (i + 1) r len' := by
  rw [concatLoop,if_neg hlen,readSlot_eq he]
  change (takeIn bal e y len >>= _) = _
  rw [htake]
  rfl

theorem concatLoop_spec {n sumLen : Nat} (hs : s.length ≤ balanceMax) (hf : ForestOk forest)
    (hy : y.WellFormed) (hlen : sumLen = y.denote.length) (hshallow : y.height < cordMaxDepth)
    (hsum : Stacked i y.height y.denote.length)
    (hdenotes : denoteForest (forest.drop i) ++ y.denote = s)
    (hi : i ≤ forest.length) (hn : forest.length < i + n) :
    ∃ r, concatLoop bal forest s.length n i y sumLen = .ok r ∧ r.WellFormed ∧ r.denote = s ∧
      r.height < cordMaxDepth := by
  induction n generalizing i y sumLen with
  | zero => omega
  | succ n ih =>
    rw [hlen]
    by_cases hdone : y.denote.length = s.length
    · have hrest : denoteForest (forest.drop i) = [] := by
        apply eq_nil_of_length_eq_zero
        rw [← hdenotes,length_append] at hdone
        omega
      rw [hrest,nil_append] at hdenotes
      exact ⟨y,if_pos hdone,hy,hdenotes,hshallow⟩
    · cases he : forest[i]? with
      | none =>
        rw [drop_of_length_le (List.getElem?_eq_none_iff.mp he)] at hdenotes
        exact absurd (congrArg List.length hdenotes) hdone
      | some e =>
        have hslot := hf _ _ he
        rw [denoteForest_drop he,append_assoc] at hdenotes
        have htotal : e.c.denote.length + y.denote.length ≤ s.length := by
          rw [← hdenotes]
          simp only [length_append]
          omega
        have hmax := balanceMax_le_wordMax
        have htake : ∃ r, takeIn bal e y y.denote.length = .ok (r, r.denote.length) ∧ Cat e.c y r :=
          takeIn_spec hslot hy rfl (by omega) (concat_shallow hslot hy hsum (htotal.trans hs))
        obtain ⟨r,hr,hc⟩ := htake
        have hstacked : Stacked (i + 1) r.height r.denote.length := by
          cases hempty : e.c.isEmpty with
          | true =>
            rw [hc.left hempty]
            exact hsum.skip
          | false =>
            rw [hc.denote,length_append]
            exact hsum.push hslot.height_le (hslot.least hempty) hc.height
        have hlt := (List.getElem?_eq_some_iff.mp he).1
        have hlow : r.height < cordMaxDepth := by
          cases hempty : e.c.isEmpty with
          | true =>
            rw [hc.left hempty]
            exact hshallow
          | false =>
            cases hye : y.isEmpty with
            | true =>
              have hindex := index_le_of_size_le (hslot.least hempty) (by omega)
              have hheight := hslot.height_le
              rw [hc.right hye]
              change _ < 48
              omega
            | false =>
              exact hc.height.trans_lt (concat_shallow hslot hy hsum (htotal.trans hs) hempty hye)
        have hrest := ih hc.wf rfl hlow hstacked (by rw [hc.denote,hdenotes]) hlt (by omega)
        rw [concatLoop_step hdone he hr]
        exact hrest

theorem initForest_spec {len : Nat} (h : len ≤ balanceMax) :
    ∃ k < cordMaxDepth, initForest len = .ok (List.replicate (k + 1) vacant) ∧ len < size k := by
  unfold initForest
  cases hfind : (List.range cordMaxDepth).find? fun i => decide (minLen i > len) with
  | none =>
    have hlast := List.find?_eq_none.mp hfind 47 (by decide)
    rw [minLen_eq_size le_rfl,decide_eq_true_eq] at hlast
    have := balanceMax_lt_size
    omega
  | some k =>
    have hk : k < cordMaxDepth := mem_range.mp (List.mem_of_find?_eq_some hfind)
    have hlt := List.find?_some hfind
    rw [minLen_eq_size (Nat.le_of_lt_succ hk),decide_eq_true_eq] at hlt
    exact ⟨k,hk,rfl,hlt⟩

theorem denoteForest_replicate (n : Nat) : denoteForest (List.replicate n vacant) = [] := by
  induction n with
  | zero => rfl
  | succ n ih => rw [replicate_succ,denoteForest,ih]; rfl

theorem forestOk_replicate (n : Nat) : ForestOk (List.replicate n vacant) := by
  intro i e he
  rw [List.getElem?_replicate] at he
  split at he
  · obtain rfl := Option.some.inj he
    exact slotOk_null _ _
  · cases he

theorem balanceStep_eq {forest' : Forest} (hxe : x.isEmpty = false) (hxs : x.isString = false)
    (hinit : initForest x.genLen = .ok forest)
    (hinsert : balanceInsert bal x x.genLen forest = .ok forest') :
    balanceStep bal x = concatForest bal forest' x.genLen := by
  have hstep : balanceStep bal x = (initForest x.genLen >>= fun forest =>
      balanceInsert bal x x.genLen forest >>= fun forest => concatForest bal forest x.genLen) := by
    cases x with
    | empty => cases hxe
    | string s => cases hxs
    | _ => rfl
  rw [hstep,hinit]
  change (balanceInsert bal x x.genLen forest >>= _) = _
  rw [hinsert]
  rfl

theorem balanceStep_rep (hx : x.WellFormed) (hxe : x.isEmpty = false) (hxs : x.isString = false)
    (hlen : x.denote.length ≤ balanceMax) :
    ∃ r, balanceStep bal x = .ok r ∧ r.WellFormed ∧ r.denote = x.denote ∧ r.height < cordMaxDepth := by
  have hgen := Cord.genLen_eq_length hx
  obtain ⟨k,hk,hinit,hsize⟩ := initForest_spec hlen
  have hstart := denoteForest_replicate (k + 1)
  have hinsert : ∃ forest', balanceInsert bal x x.denote.length (List.replicate (k + 1) vacant) =
      .ok forest' ∧ _ :=
    balanceInsert_spec hx hxe (forestOk_replicate (k + 1)) (by rwa [hstart])
      ⟨k,hk,length_replicate,by rwa [hstart]⟩
  obtain ⟨forest,hforest,hf,hdenotes,hlength⟩ := hinsert
  rw [hstart,nil_append] at hdenotes
  rw [length_replicate] at hlength
  rw [balanceStep_eq hxe hxs (hgen ▸ hinit) (hgen ▸ hforest),hgen]
  apply concatLoop_spec (y := .empty) hlen hf trivial rfl (Nat.zero_lt_succ 47) (stacked_zero _) ?_ (Nat.zero_le _) ?_
  · rw [drop_zero,hdenotes]
    exact append_nil _
  · omega

theorem balanceStep_spec (hx : x.WellFormed) (hlen : x.denote.length ≤ balanceMax) :
    ∃ r, balanceStep bal x = .ok r ∧ r.WellFormed ∧ r.denote = x.denote ∧ r.height < cordMaxDepth := by
  cases x with
  | empty => exact ⟨.empty,rfl,trivial,rfl,by decide⟩
  | string s => exact ⟨.string s,rfl,hx,rfl,Nat.zero_lt_succ 47⟩
  | _ => exact balanceStep_rep hx rfl rfl hlen

end GcUtil.Cords.Balancing
