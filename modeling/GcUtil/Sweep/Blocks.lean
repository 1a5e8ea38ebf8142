import GcUtil.Sweep.MarkBits

/-! Sweeping one block of small objects. The loops of the source differ only in what they do
with an unmarked object, and the free list they extend is either a chain of links in memory
or the list of its members. -/
namespace GcUtil.Sweep.Blocks
open Basic MarkBits List

abbrev Mem := Nat → Nat

def writeWord (m : Mem) (a v : Nat) : Mem := fun x => if x = a then v else m x

/-- How a free list is kept: `push p` stands for `obj_link(p) = list; list = p`, and
`clearBlock p sz` for `GC_clear_block`, with the address behind the object. -/
structure FreeList (α : Type) where
  push : Nat → α → α
  clearBlock : Nat → Nat → α → α × Nat

structure Pass (α : Type) where
  free : α
  count : Int
  hdr : Hdr

section Loops

variable {α : Type}

/-- `for (bit_no = 0; ADDR_GE(plim, p); bit_no += off)`, where `visit` gives the next `p`. -/
def sweepLoop (off plim : Nat) (visit : Nat → Nat → Pass α → Pass α × Nat) :
    Nat → Nat → Nat → Pass α → Pass α
  | 0, _, _, s => s
  | fuel + 1, bitNo, p, s =>
    if p ≤ plim then
      let r := visit bitNo p s
      sweepLoop off plim visit fuel (bitNo + off) r.2 r.1
    else s

def sweepObjects (L : Layout) (hbp sz : Nat) (visit : Nat → Nat → Pass α → Pass α × Nat)
    (s : Pass α) : Pass α :=
  sweepLoop (markBitOffset L sz) (hbp + hblkSize - sz) visit (hblkSize + 1) 0 hbp s

variable (F : FreeList α)

def putClear (sz p : Nat) (s : Pass α) : Pass α × Nat :=
  let r := F.clearBlock p sz (F.push p s.free)
  ({ s with free := r.1, count := s.count + sz }, r.2)

def reclaimClear (L : Layout) (hbp : Nat) (hd : Hdr) (sz : Nat) (list : α) (count : Int) : Pass α :=
  sweepObjects L hbp sz
    (fun bitNo p s => if s.hdr.hbMarks bitNo then (s, p + sz) else putClear F sz p s) ⟨list, count, hd⟩

def reclaimUninit (L : Layout) (hbp : Nat) (hd : Hdr) (sz : Nat) (list : α) (count : Int) : Pass α :=
  let r := sweepObjects L hbp sz
    (fun bitNo p s => if s.hdr.hbMarks bitNo then (s, p + sz)
      else ({ s with free := F.push p s.free, count := s.count + sz }, p + sz)) ⟨list, 0, hd⟩
  { r with count := count + r.count }

def disclaimAndReclaim (L : Layout) (disclaim : Nat → α → Bool × α) (hbp : Nat) (hd : Hdr) (sz : Nat)
    (list : α) (count : Int) : Pass α :=
  sweepObjects L hbp sz
    (fun bitNo p s =>
      if s.hdr.hbMarks bitNo then (s, p + sz)
      else
        let answer := disclaim p s.free
        let s := { s with free := answer.2 }
        if answer.1 then ({ s with hdr := incrMarks (setMarkBitFromHdr s.hdr bitNo) }, p + sz)
        else putClear F sz p s) ⟨list, count, hd⟩

/-- The final `if` sets every mark of an uncollectable block again. -/
def reclaimGeneric (L : Layout) (disclaim : Nat → α → Bool × α) (debuggingStarted : Bool) (hbp : Nat)
    (hd : Hdr) (sz : Nat) (init : Bool) (list : α) (count : Int) : Pass α :=
  let r :=
    if hd.hasDisclaim then disclaimAndReclaim F L disclaim hbp hd sz list count
    else if init || debuggingStarted then reclaimClear F L hbp hd sz list count
    else reclaimUninit F L hbp hd sz list count
  if isUncollectable hd.hbObjKind then { r with hdr := setHdrMarks L r.hdr } else r

end Loops

section Memory

/-- The loop of `GC_clear_block`, over pairs of words with mark bytes. -/
def clearLoop (double : Bool) (plim : Nat) : Nat → Mem → Nat → Mem × Nat
  | 0, m, p => (m, p)
  | fuel + 1, m, p =>
    if p < plim then
      if double then clearLoop double plim fuel (writeWord (writeWord m p 0) (p + 8) 0) (p + 16)
      else clearLoop double plim fuel (writeWord m p 0) (p + 8)
    else (m, p)

def clearBlock (L : Layout) (m : Mem) (q sz : Nat) : Mem × Nat :=
  if L.useMarkBytes then clearLoop true (q + sz) sz (writeWord m (q + 8) 0) (q + 16)
  else clearLoop false (q + sz) sz m (q + 8)

def inMemory (L : Layout) : FreeList (Mem × Nat) where
  push p free := (writeWord free.1 p free.2, p)
  clearBlock p sz free :=
    let r := clearBlock L free.1 p sz
    ((r.1, free.2), r.2)

def members : FreeList (List Nat) where
  push p free := p :: free
  clearBlock p sz free := (free, p + sz)

def Linked (m : Mem) (q : Nat) : List Nat → Nat → Prop
  | [], last => q = last
  | o :: objs, last => q = o ∧ Linked m (m o) objs last

end Memory

section Rule

variable {α : Type}

theorem cursor_le_iff {hbp sz k : Nat} (hpos : 0 < sz) (hle : sz ≤ hblkSize) :
    hbp + k * sz ≤ hbp + hblkSize - sz ↔ k < hblkObjs sz := by
  have hfit : k < hblkObjs sz ↔ (k + 1) * sz ≤ hblkSize := Nat.le_div_iff_mul_le hpos
  rw [hfit,Nat.succ_mul]
  omega

theorem sweepLoop_rule {off sz hbp : Nat} {visit : Nat → Nat → Pass α → Pass α × Nat} (hpos : 0 < sz)
    (hle : sz ≤ hblkSize) (I : Nat → Pass α → Prop)
    (hstep : ∀ k s, k < hblkObjs sz → I k s →
      (visit (k * off) (hbp + k * sz) s).2 = hbp + (k + 1) * sz ∧ I (k + 1) (visit (k * off) (hbp + k * sz) s).1)
    {fuel k : Nat} {s : Pass α} (hk : k ≤ hblkObjs sz) (hfuel : hblkObjs sz - k < fuel) (hI : I k s) :
    I (hblkObjs sz) (sweepLoop off (hbp + hblkSize - sz) visit fuel (k * off) (hbp + k * sz) s) := by
  induction fuel generalizing k s with
  | zero => omega
  | succ fuel ih =>
    unfold sweepLoop
    by_cases hlast : k = hblkObjs sz
    · rw [if_neg]
      · exact hlast ▸ hI
      · rw [cursor_le_iff hpos hle]
        omega
    · have hlt : k < hblkObjs sz := by omega
      obtain ⟨hnext,hI'⟩ := hstep k s hlt hI
      rw [if_pos ((cursor_le_iff hpos hle).mpr hlt)]
      dsimp only
      rw [hnext,← Nat.succ_mul]
      exact ih hlt (by omega) hI'

/-- The rule for a loop over the objects of a small block, with an invariant indexed by the
number of objects visited. -/
theorem sweepObjects_rule {L : Layout} {sz hbp : Nat} {visit : Nat → Nat → Pass α → Pass α × Nat} (hpos : 0 < sz)
    (hsmall : sz ≤ maxObjBytes) (I : Nat → Pass α → Prop) {s : Pass α} (hI : I 0 s)
    (hstep : ∀ k s, k < hblkObjs sz → I k s →
      (visit (k * markBitOffset L sz) (hbp + k * sz) s).2 = hbp + (k + 1) * sz ∧
        I (k + 1) (visit (k * markBitOffset L sz) (hbp + k * sz) s).1) :
    I (hblkObjs sz) (sweepObjects L hbp sz visit s) := by
  have hle : sz ≤ hblkSize := hsmall.trans (by decide)
  have hfuel : hblkObjs sz - 0 < hblkSize + 1 := Nat.lt_succ_of_le (Nat.div_le_self _ _)
  have hrule := sweepLoop_rule hpos hle I hstep (Nat.zero_le _) hfuel hI
  rw [Nat.zero_mul,Nat.zero_mul,Nat.add_zero] at hrule
  exact hrule

end Rule

section Clearing

theorem writeWord_same (m : Mem) (a v : Nat) : writeWord m a v a = v := if_pos rfl

theorem writeWord_ne (m : Mem) {a x : Nat} (v : Nat) (h : x ≠ a) : writeWord m a v x = m x := if_neg h

theorem clearLoop_spec {double : Bool} {plim fuel p : Nat} {m : Mem} (hle : p ≤ plim) (hfuel : plim - p ≤ fuel)
    (hdvd : (if double then 16 else 8) ∣ plim - p) :
    (clearLoop double plim fuel m p).2 = plim ∧
      ∀ a, (clearLoop double plim fuel m p).1 a = if p ≤ a ∧ a < plim ∧ (a - p) % 8 = 0 then 0 else m a := by
  induction fuel generalizing p m with
  | zero =>
    have hend : p = plim := by omega
    refine ⟨hend,fun a => ?_⟩
    rw [if_neg (by omega)]
    rfl
  | succ fuel ih =>
    unfold clearLoop
    by_cases hlt : p < plim
    · rw [if_pos hlt]
      cases double with
      | false =>
        simp only [Bool.false_eq_true,if_false] at hdvd ⊢
        obtain ⟨hend,hmem⟩ := @ih (p + 8) (writeWord m p 0) (by omega) (by omega) (by simp; omega)
        refine ⟨hend,fun a => ?_⟩
        rw [hmem]
        unfold writeWord
        split_ifs <;> first | rfl | omega
      | true =>
        simp only [if_true] at hdvd ⊢
        obtain ⟨hend,hmem⟩ := @ih (p + 16) (writeWord (writeWord m p 0) (p + 8) 0) (by omega) (by omega)
          (by simp; omega)
        refine ⟨hend,fun a => ?_⟩
        rw [hmem]
        unfold writeWord
        split_ifs <;> first | rfl | omega
    · rw [if_neg hlt]
      refine ⟨by dsimp only; omega,fun a => ?_⟩
      rw [if_neg (by omega)]

/-- `GC_clear_block` zeroes every word of the object but the first and ends behind it, whichever
of its loops is compiled. -/
theorem clearBlock_spec (L : Layout) (m : Mem) (q : Nat) {sz : Nat} (hpos : 0 < sz) (hdvd : granuleBytes ∣ sz) :
    (clearBlock L m q sz).2 = q + sz ∧
      ∀ a, (clearBlock L m q sz).1 a = if q < a ∧ a < q + sz ∧ (a - q) % 8 = 0 then 0 else m a := by
  unfold granuleBytes at hdvd
  unfold clearBlock
  split
  · obtain ⟨hend,hmem⟩ := @clearLoop_spec true (q + sz) sz (q + 16) (writeWord m (q + 8) 0) (by omega) (by omega)
      (by simp; omega)
    refine ⟨hend,fun a => ?_⟩
    rw [hmem]
    unfold writeWord
    split_ifs <;> first | rfl | omega
  · obtain ⟨hend,hmem⟩ := @clearLoop_spec false (q + sz) sz (q + 8) m (by omega) (by omega) (by simp; omega)
    refine ⟨hend,fun a => ?_⟩
    rw [hmem]
    split_ifs <;> first | rfl | omega

end Clearing

section Exactness

variable (L : Layout) (hbp : Nat) (hd : Hdr)

def objAt (k : Nat) : Nat := hbp + k * hd.hbSz

def unmarkedBelow (k : Nat) : List Nat := (List.range k).filter fun j => !marked L hd j

def unmarkedObjs : List Nat := (unmarkedBelow L hd (hblkObjs hd.hbSz)).map (objAt hbp hd)

def Inside (k a : Nat) : Prop := objAt hbp hd k ≤ a ∧ a < objAt hbp hd k + hd.hbSz

/-- The state of a sweep that has visited the first `k` objects: the unmarked ones are chained
in front of `list`, the last one first, and nothing else has been written. -/
structure SweptTo (clears : Bool) (m : Mem) (list : Nat) (count : Int) (k : Nat) (s : Pass (Mem × Nat)) :
    Prop where
  hdr : s.hdr = hd
  counted : s.count = count + hd.hbSz * (unmarkedBelow L hd k).length
  linked : Linked s.free.1 s.free.2 ((unmarkedBelow L hd k).map (objAt hbp hd)).reverse list
  frame : ∀ a, (∀ j ∈ unmarkedBelow L hd k, ¬ Inside hbp hd j a) → s.free.1 a = m a
  cleared : clears = true → ∀ j ∈ unmarkedBelow L hd k, ∀ w, 0 < w → w < hd.hbSz → w % 8 = 0 →
    s.free.1 (objAt hbp hd j + w) = 0

variable {L hbp hd} {clears : Bool} {m : Mem} {list k : Nat} {count : Int} {s s' : Pass (Mem × Nat)}

theorem Linked.congr {m m' : Mem} {q last : Nat} {objs : List Nat} (h : Linked m q objs last)
    (heq : ∀ o ∈ objs, m' o = m o) : Linked m' q objs last := by
  induction objs generalizing q with
  | nil => exact h
  | cons o objs ih =>
    refine ⟨h.1,?_⟩
    rw [heq o mem_cons_self]
    exact ih h.2 fun o' ho' => heq o' (mem_cons_of_mem o ho')

theorem Linked.append {m : Mem} {q mid last : Nat} {objs rest : List Nat} (h : Linked m q objs mid)
    (hrest : Linked m mid rest last) : Linked m q (objs ++ rest) last := by
  induction objs generalizing q with
  | nil => exact h ▸ hrest
  | cons o objs ih => exact ⟨h.1,ih h.2⟩

theorem unmarkedBelow_succ (L : Layout) (hd : Hdr) (k : Nat) :
    unmarkedBelow L hd (k + 1) =
      if marked L hd k then unmarkedBelow L hd k else unmarkedBelow L hd k ++ [k] := by
  unfold unmarkedBelow
  rw [range_succ,filter_append]
  by_cases hmark : marked L hd k = true
  · simp [hmark]
  · simp [hmark]

theorem lt_of_mem_unmarkedBelow {j : Nat} (h : j ∈ unmarkedBelow L hd k) : j < k :=
  mem_range.mp (mem_of_mem_filter h)

theorem objAt_succ (hbp : Nat) (hd : Hdr) (k : Nat) : objAt hbp hd (k + 1) = objAt hbp hd k + hd.hbSz := by
  unfold objAt
  rw [Nat.succ_mul]
  omega

theorem objAt_add_le {j : Nat} (h : j < k) : objAt hbp hd j + hd.hbSz ≤ objAt hbp hd k := by
  rw [← objAt_succ]
  exact Nat.add_le_add_left (Nat.mul_le_mul_right _ h) _

theorem SweptTo.start (L : Layout) (hbp : Nat) (hd : Hdr) (clears : Bool) (m : Mem) (list : Nat) (count : Int) :
    SweptTo L hbp hd clears m list count 0 ⟨(m, list), count, hd⟩ where
  hdr := rfl
  counted := by simp [unmarkedBelow]
  linked := rfl
  frame _ _ := rfl
  cleared _ j hj := absurd (lt_of_mem_unmarkedBelow hj) (Nat.not_lt_zero j)

theorem SweptTo.skip (h : SweptTo L hbp hd clears m list count k s) (hmark : marked L hd k = true) :
    SweptTo L hbp hd clears m list count (k + 1) s := by
  have hsame : unmarkedBelow L hd (k + 1) = unmarkedBelow L hd k := by
    rw [unmarkedBelow_succ,if_pos hmark]
  exact ⟨h.hdr,hsame ▸ h.counted,hsame ▸ h.linked,hsame ▸ h.frame,hsame ▸ h.cleared⟩

/-- An unmarked object is put in front of the list, and only its own words are written. -/
theorem SweptTo.put (h : SweptTo L hbp hd clears m list count k s) (hmark : marked L hd k = false)
    (hhdr : s'.hdr = s.hdr) (hcount : s'.count = s.count + hd.hbSz) (hfirst : s'.free.2 = objAt hbp hd k)
    (hlink : s'.free.1 (objAt hbp hd k) = s.free.2)
    (hframe : ∀ a, ¬ Inside hbp hd k a → s'.free.1 a = s.free.1 a)
    (hclear : clears = true → ∀ w, 0 < w → w < hd.hbSz → w % 8 = 0 → s'.free.1 (objAt hbp hd k + w) = 0) :
    SweptTo L hbp hd clears m list count (k + 1) s' := by
  have hmore : unmarkedBelow L hd (k + 1) = unmarkedBelow L hd k ++ [k] := by
    rw [unmarkedBelow_succ,if_neg (by simp [hmark])]
  have hbefore : ∀ j ∈ unmarkedBelow L hd k, ∀ w < hd.hbSz, ¬ Inside hbp hd k (objAt hbp hd j + w) := by
    intro j hj w hw hin
    have := @objAt_add_le hbp hd k j (lt_of_mem_unmarkedBelow hj)
    have := hin.1
    omega
  constructor
  case hdr => rw [hhdr,h.hdr]
  case counted =>
    rw [hmore,length_append,length_singleton,hcount,h.counted]
    push_cast
    ring
  case linked =>
    rw [hmore,map_append,reverse_append]
    refine ⟨hfirst,?_⟩
    rw [hlink]
    apply h.linked.congr
    intro o ho
    obtain ⟨j,hj,rfl⟩ := mem_map.mp (mem_reverse.mp ho)
    exact hframe _ (hbefore j hj 0 hd.hbSz_pos)
  case frame =>
    intro a ha
    rw [hmore] at ha
    rw [hframe a (ha k (by simp))]
    exact h.frame a fun j hj => ha j (by simp [hj])
  case cleared =>
    intro hc j hj w hpos hlt hw
    rw [hmore] at hj
    rcases mem_append.mp hj with hj | hj
    · rw [hframe _ (hbefore j hj w hlt)]
      exact h.cleared hc j hj w hpos hlt hw
    · rw [mem_singleton.mp hj]
      exact hclear hc w hpos hlt hw

theorem reclaimClear_sweptTo (hsmall : hd.hbSz ≤ maxObjBytes) (clears : Bool) :
    SweptTo L hbp hd clears m list count (hblkObjs hd.hbSz)
      (reclaimClear (inMemory L) L hbp hd hd.hbSz (m, list) count) := by
  apply sweepObjects_rule hd.hbSz_pos hsmall _ (SweptTo.start L hbp hd clears m list count)
  intro k s hk h
  have hbit : s.hdr.hbMarks (k * markBitOffset L hd.hbSz) = marked L hd k := by rw [h.hdr]; rfl
  rw [hbit]
  by_cases hmark : marked L hd k = true
  · rw [if_pos hmark]
    exact ⟨(objAt_succ hbp hd k).symm,h.skip hmark⟩
  · rw [if_neg hmark]
    obtain ⟨hnext,hmem⟩ := clearBlock_spec L (writeWord s.free.1 (objAt hbp hd k) s.free.2) (objAt hbp hd k)
      hd.hbSz_pos hd.granule_dvd
    refine ⟨hnext.trans (objAt_succ hbp hd k).symm,?_⟩
    refine h.put (Bool.not_eq_true _ ▸ hmark) (by rfl) (by rfl) (by rfl) ?_ ?_ ?_
    · refine (hmem _).trans ?_
      rw [if_neg (by omega),writeWord_same]
    · intro a ha
      refine (hmem a).trans ?_
      have hpos := hd.hbSz_pos
      unfold Inside at ha
      rw [if_neg (by omega),writeWord_ne _ _ (by omega)]
    · intro _ w hpos hlt hw
      refine (hmem _).trans ?_
      rw [if_pos ⟨by omega,by omega,by rw [Nat.add_sub_cancel_left]; exact hw⟩]

theorem reclaimUninit_sweptTo (hsmall : hd.hbSz ≤ maxObjBytes) :
    SweptTo L hbp hd false m list count (hblkObjs hd.hbSz)
      (reclaimUninit (inMemory L) L hbp hd hd.hbSz (m, list) count) := by
  have hloop : SweptTo L hbp hd false m list 0 (hblkObjs hd.hbSz) (sweepObjects L hbp hd.hbSz
      (fun bitNo p s => if s.hdr.hbMarks bitNo then (s, p + hd.hbSz)
        else ({ s with free := (inMemory L).push p s.free, count := s.count + hd.hbSz }, p + hd.hbSz))
      ⟨(m, list),0,hd⟩) := by
    apply sweepObjects_rule hd.hbSz_pos hsmall _ (SweptTo.start L hbp hd false m list 0)
    intro k s hk h
    have hbit : s.hdr.hbMarks (k * markBitOffset L hd.hbSz) = marked L hd k := by rw [h.hdr]; rfl
    rw [hbit]
    by_cases hmark : marked L hd k = true
    · rw [if_pos hmark]
      exact ⟨(objAt_succ hbp hd k).symm,h.skip hmark⟩
    · rw [if_neg hmark]
      refine ⟨(objAt_succ hbp hd k).symm,?_⟩
      refine h.put (Bool.not_eq_true _ ▸ hmark) (by rfl) (by rfl) (by rfl) ?_ ?_ ?_
      · exact writeWord_same _ _ _
      · intro a ha
        have hpos := hd.hbSz_pos
        unfold Inside at ha
        have hne : a ≠ objAt hbp hd k := by omega
        exact writeWord_ne _ _ hne
      · intro hc
        cases hc
  refine ⟨hloop.hdr,?_,hloop.linked,hloop.frame,hloop.cleared⟩
  show count + _ = _
  rw [hloop.counted]
  ring

/-- Whatever the kind asks for, the sweep chains the unmarked objects and writes nothing else;
setting the marks of an uncollectable block again touches no memory. -/
theorem reclaimGeneric_free (disclaim : Nat → Mem × Nat → Bool × (Mem × Nat)) (debuggingStarted init : Bool)
    (hsmall : hd.hbSz ≤ maxObjBytes) (hkind : hd.hasDisclaim = false) :
    ∃ s, SweptTo L hbp hd init m list count (hblkObjs hd.hbSz) s ∧
      (reclaimGeneric (inMemory L) L disclaim debuggingStarted hbp hd hd.hbSz init (m, list) count).free = s.free ∧
      (reclaimGeneric (inMemory L) L disclaim debuggingStarted hbp hd hd.hbSz init (m, list) count).count =
        s.count := by
  unfold reclaimGeneric
  rw [hkind]
  simp only [Bool.false_eq_true,if_false]
  by_cases hclear : (init || debuggingStarted) = true
  · refine ⟨_,reclaimClear_sweptTo hsmall init,?_⟩
    rw [if_pos hclear]
    split <;> exact ⟨rfl,rfl⟩
  · have hinit : init = false := by
      cases init
      · rfl
      · exact absurd rfl hclear
    subst hinit
    refine ⟨_,reclaimUninit_sweptTo hsmall,?_⟩
    rw [if_neg hclear]
    split <;> exact ⟨rfl,rfl⟩

theorem objAt_strictMono (hbp : Nat) (hd : Hdr) : StrictMono (objAt hbp hd) := by
  intro i j hij
  have hle := @objAt_add_le hbp hd j i hij
  have hpos := hd.hbSz_pos
  omega

theorem unmarkedObjs_nodup (L : Layout) (hbp : Nat) (hd : Hdr) : (unmarkedObjs L hbp hd).Nodup :=
  (nodup_range.filter _).map (objAt_strictMono hbp hd).injective

theorem not_inside_other {i j a : Nat} (hne : i ≠ j) (hin : Inside hbp hd i a) : ¬ Inside hbp hd j a := by
  intro hin'
  unfold Inside at hin hin'
  rcases Nat.lt_or_gt_of_ne hne with hlt | hlt
  · have := @objAt_add_le hbp hd j i hlt
    omega
  · have := @objAt_add_le hbp hd i j hlt
    omega

/-- Sweeping a block of small objects of a kind without a disclaim callback extends the free
list by exactly its unmarked objects. -/
theorem reclaimGeneric_exact (L : Layout) (disclaim : Nat → Mem × Nat → Bool × (Mem × Nat))
    (debuggingStarted init : Bool) (hbp : Nat) (hd : Hdr) (m : Mem) (list : Nat) (count : Int)
    (hsmall : hd.hbSz ≤ maxObjBytes) (hkind : hd.hasDisclaim = false) :
    let r := reclaimGeneric (inMemory L) L disclaim debuggingStarted hbp hd hd.hbSz init (m, list) count
    Linked r.free.1 r.free.2 (unmarkedObjs L hbp hd).reverse list ∧
      (unmarkedObjs L hbp hd).Nodup ∧
      (∀ old last, Linked m list old last → (∀ o ∈ old, ∀ q ∈ unmarkedObjs L hbp hd, ¬ (q ≤ o ∧ o < q + hd.hbSz)) →
        Linked r.free.1 r.free.2 ((unmarkedObjs L hbp hd).reverse ++ old) last) ∧
      (init = true → ∀ q ∈ unmarkedObjs L hbp hd, ∀ w, 0 < w → w < hd.hbSz → w % 8 = 0 → r.free.1 (q + w) = 0) ∧
      (∀ k < hblkObjs hd.hbSz, marked L hd k = true → ∀ a, Inside hbp hd k a → r.free.1 a = m a) ∧
      (∀ a, (∀ q ∈ unmarkedObjs L hbp hd, ¬ (q ≤ a ∧ a < q + hd.hbSz)) → r.free.1 a = m a) ∧
      r.count = count + hd.hbSz * (unmarkedObjs L hbp hd).length := by
  obtain ⟨s,hs,hfree,hcount⟩ := reclaimGeneric_free (L := L) (m := m) disclaim debuggingStarted init hsmall hkind
  intro r
  have hframe : ∀ a, (∀ q ∈ unmarkedObjs L hbp hd, ¬ (q ≤ a ∧ a < q + hd.hbSz)) → r.free.1 a = m a := by
    intro a ha
    rw [hfree]
    exact hs.frame a fun j hj => ha _ (mem_map_of_mem hj)
  have hlinked : Linked r.free.1 r.free.2 (unmarkedObjs L hbp hd).reverse list := by
    rw [hfree]
    exact hs.linked
  refine ⟨hlinked,unmarkedObjs_nodup L hbp hd,?_,?_,?_,hframe,?_⟩
  · intro old last hold hout
    exact hlinked.append (hold.congr fun o ho => hframe o (hout o ho))
  · intro hinit q hq w hpos hlt hw
    obtain ⟨j,hj,rfl⟩ := mem_map.mp hq
    rw [hfree]
    exact hs.cleared hinit j hj w hpos hlt hw
  · intro k _ hmark a ha
    rw [hfree]
    apply hs.frame
    intro j hj
    have hne : k ≠ j := by
      rintro rfl
      simp [unmarkedBelow,hmark] at hj
    exact not_inside_other hne ha
  · rw [hcount,hs.counted]
    simp only [unmarkedObjs,length_map]

def halfBlock : Hdr := ⟨2048, 1, false, fun i => decide (i = 0), 1, by decide, by decide⟩

theorem reclaimGeneric_exact_halfBlock :
    halfBlock.hbSz ≤ maxObjBytes ∧ halfBlock.hasDisclaim = false ∧
      Linked (reclaimGeneric (inMemory ⟨true, false⟩) ⟨true, false⟩ (fun _ a => (false, a)) false 4096 halfBlock 2048
        true (fun _ => 7, 8192) 0).free.1 6144 [6144] 8192 := by
  refine ⟨by decide,rfl,?_⟩
  exact (reclaimGeneric_exact ⟨true,false⟩ (fun _ a => (false, a)) false true 4096 halfBlock (fun _ => 7) 8192 0
    (by decide) rfl).1

end Exactness

end GcUtil.Sweep.Blocks
