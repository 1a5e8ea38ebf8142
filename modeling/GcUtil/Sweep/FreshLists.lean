import GcUtil.Sweep.Blocks

/-! The free list that `GC_build_fl` makes of a fresh block, through the unrolled loops for
objects of two and four words and the general one. -/
namespace GcUtil.Sweep.FreshLists
open Basic MarkBits Blocks

section Model

def writeAll (m : Mem) (stores : List (Nat × Nat)) : Mem :=
  stores.foldl (fun m store => writeWord m store.1 store.2) m

def fillLoop (plim stride : Nat) (stores : Nat → List (Nat × Nat)) : Nat → Mem → Nat → Mem × Nat
  | 0, m, p => (m, p)
  | fuel + 1, m, p =>
    if p < plim then fillLoop plim stride stores fuel (writeAll m (stores p)) (p + stride) else (m, p)

/-- The shape of the unrolled loops: `stores p prev` is what is stored from `p` on when `prev`
is the object before, and the last object ends up `last` bytes before the end. -/
def buildUnrolled (stride last : Nat) (stores : Nat → Nat → List (Nat × Nat)) (h ofl : Nat) (m : Mem) : Mem × Nat :=
  let r := fillLoop (h + hblkSize) stride (fun p => stores p (p - last)) hblkSize (writeAll m (stores h ofl))
    (h + stride)
  (r.1, r.2 - last)

def buildFlClear2 : Nat → Nat → Mem → Mem × Nat :=
  buildUnrolled 32 16 fun p prev => [(p, prev), (p + 8, 0), (p + 16, p), (p + 24, 0)]

def buildFl2 : Nat → Nat → Mem → Mem × Nat := buildUnrolled 32 16 fun p prev => [(p, prev), (p + 16, p)]

def buildFlClear4 : Nat → Nat → Mem → Mem × Nat :=
  buildUnrolled 32 32 fun p prev => [(p, prev), (p + 8, 0), (p + 16, 0), (p + 24, 0)]

def buildFl4 : Nat → Nat → Mem → Mem × Nat := buildUnrolled 64 32 fun p prev => [(p, prev), (p + 32, p)]

def linkLoop (plim step : Nat) : Nat → Mem → Nat → Nat → Mem × Nat
  | 0, m, _, p => (m, p)
  | fuel + 1, m, prev, p =>
    if p ≤ plim then linkLoop plim step fuel (writeWord m p prev) p (p + step) else (m, p)

def bzero (h n : Nat) (m : Mem) : Mem := fun a => if h ≤ a ∧ a < h + n then 0 else m a

def buildFl (h list lg : Nat) (clear : Bool) (m : Mem) : Mem × Nat :=
  let lpw := granuleBytes / 8 * lg
  if lpw = 2 then (if clear then buildFlClear2 h list m else buildFl2 h list m)
  else if lpw = 4 then (if clear then buildFlClear4 h list m else buildFl4 h list m)
  else
    let m := if clear then bzero h hblkSize m else m
    let r := linkLoop (h + hblkSize - lpw * 8) (lpw * 8) hblkSize m h (h + lpw * 8)
    (writeWord r.1 h list, r.2 - lpw * 8)

def freshObjs (h lg : Nat) : List Nat :=
  (List.range (hblkObjs (granuleBytes * lg))).map fun k => h + k * (granuleBytes * lg)

end Model

section Lists

variable {h list lg sz n stride last j : Nat} {clear : Bool} {m : Mem}

/-- The memory with the objects below `p` chained, each to the one before it. -/
def chained (h list sz : Nat) (clear : Bool) (m : Mem) (p : Nat) : Mem := fun a =>
  if h ≤ a ∧ a < p then
    if (a - h) % sz = 0 then (if a = h then list else a - sz)
    else if clear ∧ (a - h) % 8 = 0 then 0 else m a
  else m a

theorem buildUnrolled_eq {stores : Nat → Nat → List (Nat × Nat)} (hn : hblkSize = n * stride)
    (hpos : 0 < stride ∧ 0 < n)
    (hstep : ∀ j a, writeAll (chained h list sz clear m (h + j * stride))
        (stores (h + j * stride) (if j = 0 then list else h + j * stride - sz)) a =
      chained h list sz clear m (h + (j + 1) * stride) a) :
    buildUnrolled stride sz stores h list m =
      (chained h list sz clear m (h + hblkSize), h + hblkSize - sz) := by
  have hloop : ∀ fuel j, 0 < j → j ≤ n → n - j < fuel → fillLoop (h + hblkSize) stride
      (fun p => stores p (p - sz)) fuel (chained h list sz clear m (h + j * stride)) (h + j * stride) =
        (chained h list sz clear m (h + hblkSize), h + hblkSize) := by
    intro fuel
    induction fuel with
    | zero => omega
    | succ fuel ih =>
      intro j hj hle hfuel
      rw [fillLoop]
      rcases Nat.lt_or_eq_of_le hle with hlt | rfl
      · have hmul := Nat.mul_lt_mul_of_pos_right hlt hpos.1
        have hnext := funext (hstep j)
        rw [if_neg hj.ne'] at hnext
        rw [if_pos (by omega),hnext,Nat.add_assoc,← Nat.succ_mul]
        exact ih _ (Nat.succ_pos j) hlt (by omega)
      · rw [hn,if_neg (lt_irrefl _)]
  have hempty : chained h list sz clear m (h + 0 * stride) = m := by
    funext a
    unfold chained
    rw [if_neg (by omega)]
  have hfirst := funext (hstep 0)
  rw [hempty,if_pos rfl,Nat.zero_mul,Nat.add_zero] at hfirst
  have hle : n ≤ hblkSize := hn ▸ Nat.le_mul_of_pos_right n hpos.1
  have hrun := hloop hblkSize 1 Nat.one_pos hpos.2 (by omega)
  rw [Nat.one_mul] at hrun
  rw [buildUnrolled,hfirst,Nat.zero_add,Nat.one_mul,hrun]

theorem buildFlClear2_eq (h list : Nat) (m : Mem) :
    buildFlClear2 h list m = (chained h list 16 true m (h + hblkSize), h + hblkSize - 16) := by
  apply buildUnrolled_eq (n := 128) rfl (by decide)
  intro j a
  simp only [writeAll,List.foldl,writeWord,chained,true_and]
  split_ifs <;> omega

theorem buildFl2_eq (h list : Nat) (m : Mem) :
    buildFl2 h list m = (chained h list 16 false m (h + hblkSize), h + hblkSize - 16) := by
  apply buildUnrolled_eq (n := 128) rfl (by decide)
  intro j a
  simp only [writeAll,List.foldl,writeWord,chained,Bool.false_eq_true,false_and,if_false]
  split_ifs <;> omega

theorem buildFlClear4_eq (h list : Nat) (m : Mem) :
    buildFlClear4 h list m = (chained h list 32 true m (h + hblkSize), h + hblkSize - 32) := by
  apply buildUnrolled_eq (n := 128) rfl (by decide)
  intro j a
  simp only [writeAll,List.foldl,writeWord,chained,true_and]
  split_ifs <;> omega

theorem buildFl4_eq (h list : Nat) (m : Mem) :
    buildFl4 h list m = (chained h list 32 false m (h + hblkSize), h + hblkSize - 32) := by
  apply buildUnrolled_eq (n := 64) rfl (by decide)
  intro j a
  simp only [writeAll,List.foldl,writeWord,chained,Bool.false_eq_true,false_and,if_false]
  split_ifs <;> omega

theorem chained_link (h list : Nat) (clear : Bool) (m : Mem) (hsz : 0 < sz) (hj : j < n) :
    chained h list sz clear m (h + n * sz) (h + j * sz) = if j = 0 then list else h + j * sz - sz := by
  have hlt : j * sz < n * sz := Nat.mul_lt_mul_of_pos_right hj hsz
  have hstart : h + j * sz = h ↔ j = 0 := by
    rw [Nat.add_eq_left,Nat.mul_eq_zero,or_iff_left hsz.ne']
  unfold chained
  rw [if_pos (by omega),Nat.add_sub_cancel_left,Nat.mul_mod_left,if_pos rfl]
  simp only [hstart]

theorem chained_body {a : Nat} (hj : j < n) (hlow : h + j * sz < a) (hhigh : a < h + j * sz + sz) :
    chained h list sz clear m (h + n * sz) a = if clear ∧ (a - h) % 8 = 0 then 0 else m a := by
  have hle : (j + 1) * sz ≤ n * sz := Nat.mul_le_mul_right sz hj
  rw [Nat.add_one_mul] at hle
  have hmod : (a - h) % sz = a - h - j * sz := by
    rw [show a - h = a - h - j * sz + sz * j by rw [Nat.mul_comm sz]; omega,Nat.add_mul_mod_self_left,
      Nat.mod_eq_of_lt (by omega),Nat.mul_comm]
    omega
  unfold chained
  rw [if_pos (by omega),hmod,if_neg (by omega)]

section Zeroed

variable (hzero : clear = true → ∀ a, h ≤ a → a < h + hblkSize → m a = 0)
include hzero

/-- In a block that is zeroed, or need not be, an object is chained by its link alone. -/
theorem chained_succ {a : Nat} (hfits : (j + 1) * sz ≤ hblkSize) (ha : a ≠ h + j * sz) :
    chained h list sz clear m (h + (j + 1) * sz) a = chained h list sz clear m (h + j * sz) a := by
  have hsucc := Nat.add_one_mul j sz
  by_cases hin : h + j * sz ≤ a ∧ a < h + j * sz + sz
  · have hunset : chained h list sz clear m (h + j * sz) a = m a := if_neg (by omega)
    rw [chained_body (Nat.lt_succ_self j) (by omega) hin.2,hunset]
    split
    · next hc => exact (hzero hc.1 a (by omega) (by omega)).symm
    · rfl
  · have hsame : (h ≤ a ∧ a < h + (j + 1) * sz) ↔ (h ≤ a ∧ a < h + j * sz) := by omega
    simp only [chained,hsame]

theorem linkLoop_chained (hsz : 0 < sz) (hle : sz ≤ hblkSize) {m' : Mem} {fuel : Nat} (hj : j + 1 ≤ hblkObjs sz)
    (hfuel : hblkObjs sz - j ≤ fuel) (hm : ∀ a, a ≠ h → m' a = chained h list sz clear m (h + (j + 1) * sz) a) :
    ∃ m'', linkLoop (h + hblkSize - sz) sz fuel m' (h + j * sz) (h + (j + 1) * sz) =
      (m'', h + hblkObjs sz * sz) ∧ ∀ a, a ≠ h → m'' a = chained h list sz clear m (h + hblkObjs sz * sz) a := by
  induction fuel generalizing j m' with
  | zero => omega
  | succ fuel ih =>
    rw [linkLoop]
    rcases Nat.lt_or_eq_of_le hj with hlt | hlast
    · have hfits : h + (j + 1) * sz ≤ h + hblkSize - sz := (cursor_le_iff hsz hle).mpr hlt
      rw [if_pos hfits,Nat.add_assoc,← Nat.succ_mul]
      refine ih hlt (by omega) fun a ha => ?_
      have hsucc := Nat.add_one_mul (j + 1) sz
      by_cases hlink : a = h + (j + 1) * sz
      · rw [hlink,writeWord_same,chained_link h list clear m hsz (Nat.lt_add_one _),if_neg (Nat.succ_ne_zero j),
          Nat.add_one_mul]
        omega
      · rw [writeWord_ne _ _ hlink,hm a ha,chained_succ hzero (by omega) hlink]
    · rw [if_neg (by rw [cursor_le_iff hsz hle]; omega),hlast]
      exact ⟨m',rfl,hlast ▸ hm⟩

end Zeroed

theorem buildFl_chained (h list : Nat) (clear : Bool) (m : Mem) (hpos : 0 < lg) (hle : granuleBytes * lg ≤ hblkSize) :
    ∃ m₀, (∀ a, ¬ (h ≤ a ∧ a < h + hblkSize) → m₀ a = m a) ∧ buildFl h list lg clear m =
      (chained h list (granuleBytes * lg) clear m₀ (h + hblkObjs (granuleBytes * lg) * (granuleBytes * lg)),
        h + hblkObjs (granuleBytes * lg) * (granuleBytes * lg) - granuleBytes * lg) := by
  have hbytes : granuleBytes / 8 * lg * 8 = granuleBytes * lg := by
    unfold granuleBytes
    omega
  unfold buildFl
  dsimp only
  split
  · next htwo =>
    obtain rfl : lg = 1 := by unfold granuleBytes at htwo; omega
    refine ⟨m,fun _ _ => rfl,?_⟩
    cases clear
    · exact buildFl2_eq h list m
    · exact buildFlClear2_eq h list m
  split
  · next hfour =>
    obtain rfl : lg = 2 := by unfold granuleBytes at hfour; omega
    refine ⟨m,fun _ _ => rfl,?_⟩
    cases clear
    · exact buildFl4_eq h list m
    · exact buildFlClear4_eq h list m
  have hsz : 0 < granuleBytes * lg := Nat.mul_pos (by decide) hpos
  rw [hbytes]
  generalize granuleBytes * lg = sz at *
  have hcount : 0 < hblkObjs sz := Nat.div_pos hle hsz
  refine ⟨if clear then bzero h hblkSize m else m,fun a ha => ?_,?_⟩
  · split
    · exact if_neg ha
    · rfl
  have hzero : clear = true → ∀ a, h ≤ a → a < h + hblkSize → (if clear then bzero h hblkSize m else m) a = 0 := by
    intro hc a hlow hhigh
    rw [if_pos hc]
    exact if_pos ⟨hlow,hhigh⟩
  generalize (if clear then bzero h hblkSize m else m) = m₀ at *
  have hfirst : ∀ a, a ≠ h → m₀ a = chained h list sz clear m₀ (h + (0 + 1) * sz) a := by
    intro a ha
    rw [chained_succ hzero (by omega) (by omega)]
    exact (if_neg (by omega)).symm
  obtain ⟨m',hloop,hm'⟩ := linkLoop_chained hzero hsz hle hcount (Nat.div_le_self _ _) hfirst
  rw [Nat.zero_mul,Nat.zero_add,Nat.one_mul,Nat.add_zero] at hloop
  rw [hloop,Prod.mk.injEq]
  refine ⟨funext fun a => ?_,rfl⟩
  by_cases ha : a = h
  · have hlink := chained_link h list clear m₀ hsz hcount
    rw [if_pos rfl,Nat.zero_mul,Nat.add_zero] at hlink
    rw [ha,writeWord_same,hlink]
  · exact (writeWord_ne _ _ ha).trans (hm' a ha)

theorem linked_chained (h list : Nat) (clear : Bool) (m : Mem) (hsz : 0 < sz) (hj : j ≤ n) :
    Linked (chained h list sz clear m (h + n * sz)) (if j = 0 then list else h + j * sz - sz)
      ((List.range j).map fun k => h + k * sz).reverse list := by
  induction j with
  | zero => rfl
  | succ j ih =>
    rw [List.range_succ,List.map_append,List.reverse_append]
    refine ⟨?_,?_⟩
    · rw [if_neg (Nat.succ_ne_zero j),Nat.add_one_mul]
      dsimp only
      omega
    · rw [chained_link h list clear m hsz hj]
      exact ih (by omega)

/-- The list consists of the whole objects that fit in the block, the last one first, and goes
on with the incoming list; nothing outside the block is written. -/
theorem buildFl_complete (h list : Nat) (clear : Bool) (m : Mem) (hpos : 0 < lg) (hlg : lg ≤ maxObjGranules) :
    let r := buildFl h list lg clear m
    Linked r.1 r.2 (freshObjs h lg).reverse list ∧ (freshObjs h lg).Nodup ∧
      (∀ old last, Linked m list old last → (∀ o ∈ old, ¬ (h ≤ o ∧ o < h + hblkSize)) →
        Linked r.1 r.2 ((freshObjs h lg).reverse ++ old) last) ∧
      (clear = true → ∀ q ∈ freshObjs h lg, ∀ w, 0 < w → w < granuleBytes * lg → w % 8 = 0 → r.1 (q + w) = 0) ∧
      ∀ a, ¬ (h ≤ a ∧ a < h + hblkSize) → r.1 a = m a := by
  have hle : granuleBytes * lg ≤ hblkSize := (Nat.mul_le_mul_left _ hlg).trans (by decide)
  have hsz : 0 < granuleBytes * lg := Nat.mul_pos (by decide) hpos
  have hfits : hblkObjs (granuleBytes * lg) * (granuleBytes * lg) ≤ hblkSize := Nat.div_mul_le_self _ _
  obtain ⟨m₀,hsame,heq⟩ := buildFl_chained h list clear m hpos hle
  have hlinked := linked_chained h list clear m₀ hsz (le_refl (hblkObjs (granuleBytes * lg)))
  rw [if_neg (show hblkObjs _ ≠ 0 from (Nat.div_pos hle hsz).ne')] at hlinked
  have hframe : ∀ a, ¬ (h ≤ a ∧ a < h + hblkSize) → (buildFl h list lg clear m).1 a = m a := by
    intro a ha
    rw [heq,← hsame a ha]
    exact if_neg (by omega)
  dsimp only
  refine ⟨heq ▸ hlinked,?_,fun old last hold hout => ?_,fun hc q hq w hw hlt hdvd => ?_,hframe⟩
  · refine List.nodup_range.map fun i j hij => Nat.eq_of_mul_eq_mul_right hsz ?_
    omega
  · exact Linked.append (heq ▸ hlinked) (hold.congr fun o ho => hframe o (hout o ho))
  · obtain ⟨j,hj,rfl⟩ := List.mem_map.mp hq
    have hgran : 8 ∣ j * (granuleBytes * lg) := ⟨j * (2 * lg),by unfold granuleBytes; ring⟩
    rw [heq]
    refine (chained_body (List.mem_range.mp hj) ?_ ?_).trans (if_pos ⟨hc,?_⟩)
    · omega
    · omega
    · omega

theorem buildFl_complete_three : (buildFl 4096 8192 3 true fun _ => 7).1 (4096 + 8) = 0 ∧
    Linked (buildFl 4096 8192 3 true fun _ => 7).1 (buildFl 4096 8192 3 true fun _ => 7).2
      (freshObjs 4096 3).reverse 8192 := by
  have hlist := @buildFl_complete 3 4096 8192 true (fun _ => 7) (by decide) (by decide)
  exact ⟨hlist.2.2.2.1 rfl 4096 (by decide) 8 (by decide) (by decide) (by decide),hlist.1⟩

end Lists

end GcUtil.Sweep.FreshLists
