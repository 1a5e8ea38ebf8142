import GcUtil.Sweep.Blocks

/-! `GC_reclaim_block` and the functions behind it, on the headers of the blocks in use, the
lists of free objects and of blocks to be swept, and `GC_bytes_found`. -/
namespace GcUtil.Sweep.Reclaim
open Basic MarkBits Blocks List

/-- What is fixed while a collector runs: how marks are kept, the kinds whose objects are cleared
(`ok_init`) or swept early (`ok_eager_sweep`), `GC_debugging_started`, `GC_find_leak_inner` and
whether pointers are compressed. -/
structure Setup where
  layout : Layout
  okInit : Nat → Bool
  okEagerSweep : Nat → Bool
  debuggingStarted : Bool
  findLeak : Bool
  compressed : Bool

/-- Blocks are named by their address, `freelist kind lg` and `reclaimList kind lg` are
`ok_freelist[lg]` and `ok_reclaim_list[lg]`, first member first, and `kindUsed` says whether the
kind has reclaim lists at all. -/
structure Heap where
  hdr : Nat → Option Hdr
  freelist : Nat → Nat → List Nat
  kindUsed : Nat → Bool
  reclaimList : Nat → Nat → List Nat
  bytesFound : Int

/-- What clients and the leak reports decide during a sweep: the objects a disclaim callback
refuses to give up, and the leaked objects that get marked to be kept in this cycle. -/
structure Answers where
  refuses : Nat → Bool
  keepsLeaked : Nat → Bool

def bytesToGranules (lb : Nat) : Nat := lb / granuleBytes

def blockEmpty (hd : Hdr) : Bool := hd.hbNMarks == 0

def blockNearlyFull (hd : Hdr) (sz : Nat) : Bool := decide (hd.hbNMarks > hblkObjs sz * 7 / 8)

section Heap

variable (cfg : Setup) (ans : Answers) (h : Heap) (hbp : Nat)

def Heap.setHdr (hd : Hdr) : Heap :=
  { h with hdr := fun b => if b = hbp then some hd else h.hdr b }

def Heap.freehblk : Heap :=
  { h with hdr := fun b => if b = hbp then none else h.hdr b }

def Heap.setFreelist (kind lg : Nat) (list : List Nat) : Heap :=
  { h with freelist := fun k l => if k = kind ∧ l = lg then list else h.freelist k l }

/-- `GC_add_leaked`, which keeps the object by marking it unless the report is full. -/
def addLeaked (hd : Hdr) (bitNo p : Nat) : Hdr := if ans.keepsLeaked p then markOnce hd bitNo else hd

def reclaimCheck (hd : Hdr) (sz : Nat) : Hdr :=
  (sweepObjects cfg.layout hbp sz
    (fun bitNo p s =>
      if s.hdr.hbMarks bitNo then (s, p + sz) else ({ s with hdr := addLeaked ans s.hdr bitNo p }, p + sz))
    (⟨(), 0, hd⟩ : Pass Unit)).hdr

/-- `GC_reclaim_generic` on the list of the kind and size, with `GC_bytes_found` as its count. -/
def sweepInto (hd : Hdr) : Pass (List Nat) :=
  reclaimGeneric members cfg.layout (fun p free => (ans.refuses p, free)) cfg.debuggingStarted hbp hd hd.hbSz
    (cfg.okInit hd.hbObjKind) (h.freelist hd.hbObjKind (bytesToGranules hd.hbSz)) h.bytesFound

def reclaimSmallNonemptyBlock (reportIfFound : Bool) : Heap :=
  match h.hdr hbp with
  | none => h
  | some hd =>
    if reportIfFound then h.setHdr hbp (reclaimCheck cfg ans hbp hd hd.hbSz)
    else
      let r := sweepInto cfg ans h hbp hd
      { (h.setHdr hbp r.hdr).setFreelist hd.hbObjKind (bytesToGranules hd.hbSz) r.free with bytesFound := r.count }

def disclaimAndReclaimOrFreeSmallBlock (hd : Hdr) : Heap :=
  let r := sweepInto cfg ans h hbp hd
  let h' := { h.setHdr hbp r.hdr with bytesFound := r.count }
  if r.hdr.hbNMarks ≠ 0 then h'.setFreelist hd.hbObjKind (bytesToGranules hd.hbSz) r.free
  else Heap.freehblk { h' with bytesFound := h'.bytesFound + hblkSize } hbp

/-- The case of one big object. A refusal sets its mark and leaves the count. -/
def reclaimLarge (hd : Hdr) (reportIfFound : Bool) : Heap :=
  if hd.hbMarks 0 then h
  else if reportIfFound then h.setHdr hbp (addLeaked ans hd 0 hbp)
  else if hd.hasDisclaim && ans.refuses hbp then h.setHdr hbp (setMarkBitFromHdr hd 0)
  else Heap.freehblk { h with bytesFound := h.bytesFound + hd.hbSz } hbp

def enqueue (hd : Hdr) : Heap :=
  if h.kindUsed hd.hbObjKind then
    { h with
      reclaimList := fun k l =>
        if k = hd.hbObjKind ∧ l = bytesToGranules hd.hbSz then hbp :: h.reclaimList k l else h.reclaimList k l }
  else h

def reclaimBlock (reportIfFound : Bool) : Heap :=
  match h.hdr hbp with
  | none => h
  | some hd =>
    if hd.hbSz > maxObjBytes then reclaimLarge ans h hbp hd reportIfFound
    else if reportIfFound then reclaimSmallNonemptyBlock cfg ans h hbp true
    else if blockEmpty hd then
      if hd.hasDisclaim then disclaimAndReclaimOrFreeSmallBlock cfg ans h hbp hd
      else Heap.freehblk { h with bytesFound := h.bytesFound + hblkSize } hbp
    else if cfg.findLeak || !blockNearlyFull hd hd.hbSz || cfg.okEagerSweep hd.hbObjKind then enqueue h hbp hd
    else h

end Heap

section Members

variable {cfg : Setup} {ans : Answers} (L : Layout) (hbp : Nat) (hd : Hdr) (refuses : Nat → Bool)

def takenBelow (k : Nat) : List Nat :=
  (List.range k).filter fun j => !marked L hd j && !refuses (objAt hbp hd j)

def refusedBelow (k : Nat) : List Nat :=
  (List.range k).filter fun j => !marked L hd j && refuses (objAt hbp hd j)

def resurrect (js : List Nat) : Hdr :=
  js.foldl (fun hd' j => incrMarks (setMarkBitFromHdr hd' (j * markBitOffset L hd.hbSz))) hd

structure TakenTo (list : List Nat) (count : Int) (k : Nat) (s : Pass (List Nat)) : Prop where
  hdr : s.hdr = resurrect L hd (refusedBelow L hbp hd refuses k)
  counted : s.count = count + hd.hbSz * (takenBelow L hbp hd refuses k).length
  listed : s.free = ((takenBelow L hbp hd refuses k).map (objAt hbp hd)).reverse ++ list

variable {L hbp hd refuses} {list : List Nat} {count : Int} {k : Nat} {s : Pass (List Nat)}

theorem resurrect_append (L : Layout) (hd : Hdr) (js : List Nat) (j : Nat) :
    resurrect L hd (js ++ [j]) =
      incrMarks (setMarkBitFromHdr (resurrect L hd js) (j * markBitOffset L hd.hbSz)) := by
  unfold resurrect
  rw [foldl_append]
  rfl

theorem resurrect_hbNMarks (L : Layout) (hd : Hdr) (js : List Nat) :
    (resurrect L hd js).hbNMarks = hd.hbNMarks + js.length := by
  induction js using List.reverseRecOn with
  | nil => rfl
  | append_singleton js j ih =>
    rw [resurrect_append,length_append,length_singleton,← Nat.add_assoc,← ih]
    rfl

theorem resurrect_fields (L : Layout) (hd : Hdr) (js : List Nat) :
    (resurrect L hd js).hbSz = hd.hbSz ∧ (resurrect L hd js).hbObjKind = hd.hbObjKind ∧
      (resurrect L hd js).hasDisclaim = hd.hasDisclaim := by
  induction js using List.reverseRecOn with
  | nil => exact ⟨rfl,rfl,rfl⟩
  | append_singleton js j ih =>
    rw [resurrect_append]
    exact ih

theorem resurrect_marks (L : Layout) (hd : Hdr) (js : List Nat) (k : Nat) :
    (resurrect L hd js).hbMarks (k * markBitOffset L hd.hbSz) = (marked L hd k || decide (k ∈ js)) := by
  induction js using List.reverseRecOn with
  | nil => simp [resurrect,marked]
  | append_singleton js j ih =>
    rw [resurrect_append]
    simp only [incrMarks,setMarkBitFromHdr,mul_markBitOffset_inj,ih]
    by_cases hkj : k = j
    · simp [hkj]
    · simp [hkj]

theorem refusedBelow_succ (L : Layout) (hbp : Nat) (hd : Hdr) (refuses : Nat → Bool) (k : Nat) :
    refusedBelow L hbp hd refuses (k + 1) =
      refusedBelow L hbp hd refuses k ++ if !marked L hd k && refuses (objAt hbp hd k) then [k] else [] := by
  unfold refusedBelow
  rw [range_succ,filter_append,filter_singleton]
  cases (!marked L hd k && refuses (objAt hbp hd k)) <;> rfl

theorem takenBelow_succ (L : Layout) (hbp : Nat) (hd : Hdr) (refuses : Nat → Bool) (k : Nat) :
    takenBelow L hbp hd refuses (k + 1) =
      takenBelow L hbp hd refuses k ++ if !marked L hd k && !refuses (objAt hbp hd k) then [k] else [] := by
  unfold takenBelow
  rw [range_succ,filter_append,filter_singleton]
  cases (!marked L hd k && !refuses (objAt hbp hd k)) <;> rfl

section

variable (h : TakenTo L hbp hd refuses list count k s)
include h

theorem TakenTo.mark :
    s.hdr.hbMarks (k * markBitOffset L hd.hbSz) = marked L hd k := by
  have hnot : k ∉ refusedBelow L hbp hd refuses k := by
    intro hk
    exact absurd (mem_range.mp (mem_of_mem_filter hk)) (Nat.lt_irrefl k)
  rw [h.hdr,resurrect_marks]
  simp [hnot]

theorem TakenTo.skip (hmark : marked L hd k = true) :
    TakenTo L hbp hd refuses list count (k + 1) s := by
  constructor
  · rw [h.hdr,refusedBelow_succ]
    simp [hmark]
  · rw [h.counted,takenBelow_succ]
    simp [hmark]
  · rw [h.listed,takenBelow_succ]
    simp [hmark]

theorem TakenTo.refuse (hmark : marked L hd k = false)
    (href : refuses (objAt hbp hd k) = true) :
    TakenTo L hbp hd refuses list count (k + 1)
      { s with hdr := incrMarks (setMarkBitFromHdr s.hdr (k * markBitOffset L hd.hbSz)) } := by
  constructor
  · dsimp only
    rw [h.hdr,refusedBelow_succ]
    simp only [hmark,href,Bool.not_false,Bool.and_self,if_true,resurrect_append]
  · rw [takenBelow_succ]
    simpa [href] using h.counted
  · rw [takenBelow_succ]
    simpa [href] using h.listed

theorem TakenTo.take (hmark : marked L hd k = false)
    (href : refuses (objAt hbp hd k) = false) :
    TakenTo L hbp hd refuses list count (k + 1)
      { s with free := objAt hbp hd k :: s.free, count := s.count + hd.hbSz } := by
  constructor
  · rw [refusedBelow_succ]
    simpa [href] using h.hdr
  · rw [takenBelow_succ]
    simp only [hmark,href,h.counted,Bool.not_false,Bool.and_self,if_true,length_append,
      length_singleton]
    push_cast
    ring
  · rw [takenBelow_succ]
    simp [hmark,href,h.listed]

end

theorem TakenTo.start (L : Layout) (hbp : Nat) (hd : Hdr) (refuses : Nat → Bool) (list : List Nat) (count : Int) :
    TakenTo L hbp hd refuses list count 0 ⟨list, count, hd⟩ := by
  constructor <;> simp [refusedBelow,takenBelow,resurrect]

theorem disclaimAndReclaim_takenTo (hsmall : hd.hbSz ≤ maxObjBytes) :
    TakenTo L hbp hd refuses list count (hblkObjs hd.hbSz)
      (disclaimAndReclaim members L (fun p free => (refuses p, free)) hbp hd hd.hbSz list count) := by
  apply sweepObjects_rule hd.hbSz_pos hsmall _ (TakenTo.start L hbp hd refuses list count)
  intro k s hk h
  rw [h.mark]
  have hnext : hbp + k * hd.hbSz + hd.hbSz = hbp + (k + 1) * hd.hbSz := (objAt_succ hbp hd k).symm
  by_cases hmark : marked L hd k = true
  · rw [if_pos hmark]
    exact ⟨hnext,h.skip hmark⟩
  · rw [if_neg hmark]
    dsimp only
    by_cases href : refuses (hbp + k * hd.hbSz) = true
    · rw [if_pos href]
      exact ⟨hnext,h.refuse (Bool.not_eq_true _ ▸ hmark) href⟩
    · rw [if_neg href]
      exact ⟨hnext,h.take (Bool.not_eq_true _ ▸ hmark) (Bool.not_eq_true _ ▸ href)⟩

theorem reclaimClear_eq_disclaim (L : Layout) (hbp : Nat) (hd : Hdr) (sz : Nat) (list : List Nat) (count : Int) :
    reclaimClear members L hbp hd sz list count =
      disclaimAndReclaim members L (fun _ free => (false, free)) hbp hd sz list count := by
  unfold reclaimClear disclaimAndReclaim
  simp only [Bool.false_eq_true,if_false]

theorem reclaimUninit_eq_clear (L : Layout) (hbp : Nat) (hd : Hdr) (sz : Nat) (list : List Nat) (count : Int) :
    reclaimUninit members L hbp hd sz list count =
      { reclaimClear members L hbp hd sz list 0 with
        count := count + (reclaimClear members L hbp hd sz list 0).count } := by
  unfold reclaimUninit reclaimClear putClear members
  rfl

theorem reclaimClear_takenTo (hsmall : hd.hbSz ≤ maxObjBytes) :
    TakenTo L hbp hd (fun _ => false) list count (hblkObjs hd.hbSz)
      (reclaimClear members L hbp hd hd.hbSz list count) := by
  rw [reclaimClear_eq_disclaim]
  exact disclaimAndReclaim_takenTo hsmall

theorem reclaimUninit_takenTo (hsmall : hd.hbSz ≤ maxObjBytes) :
    TakenTo L hbp hd (fun _ => false) list count (hblkObjs hd.hbSz)
      (reclaimUninit members L hbp hd hd.hbSz list count) := by
  have hloop := @reclaimClear_takenTo L hbp hd list 0 hsmall
  rw [reclaimUninit_eq_clear]
  refine ⟨hloop.hdr,?_,hloop.listed⟩
  dsimp only
  rw [hloop.counted,Int.zero_add]

end Members

section Sweep

variable (cfg : Setup) (ans : Answers) (h : Heap) (hbp : Nat) (hd : Hdr)

def refusal (p : Nat) : Bool := hd.hasDisclaim && ans.refuses p

def taken : List Nat := takenBelow cfg.layout hbp hd (refusal ans hd) (hblkObjs hd.hbSz)

def refused : List Nat := refusedBelow cfg.layout hbp hd (refusal ans hd) (hblkObjs hd.hbSz)

variable {cfg ans h hbp hd}

theorem sweepInto_spec (hsmall : hd.hbSz ≤ maxObjBytes) :
    (sweepInto cfg ans h hbp hd).free =
        ((taken cfg ans hbp hd).map (objAt hbp hd)).reverse ++ h.freelist hd.hbObjKind (bytesToGranules hd.hbSz) ∧
      (sweepInto cfg ans h hbp hd).count = h.bytesFound + hd.hbSz * (taken cfg ans hbp hd).length ∧
      (sweepInto cfg ans h hbp hd).hdr =
        if isUncollectable hd.hbObjKind then
          setHdrMarks cfg.layout (resurrect cfg.layout hd (refused cfg ans hbp hd))
        else resurrect cfg.layout hd (refused cfg ans hbp hd) := by
  have htaken : ∃ s, TakenTo cfg.layout hbp hd (refusal ans hd) (h.freelist hd.hbObjKind (bytesToGranules hd.hbSz))
      h.bytesFound (hblkObjs hd.hbSz) s ∧ sweepInto cfg ans h hbp hd =
        if isUncollectable hd.hbObjKind then { s with hdr := setHdrMarks cfg.layout s.hdr } else s := by
    unfold sweepInto reclaimGeneric
    cases hkind : hd.hasDisclaim with
    | true =>
      have hsame : refusal ans hd = ans.refuses := by
        funext p
        simp [refusal,hkind]
      rw [hsame]
      exact ⟨_,disclaimAndReclaim_takenTo hsmall,rfl⟩
    | false =>
      have hnone : refusal ans hd = fun _ => false := by
        funext p
        simp [refusal,hkind]
      rw [hnone]
      simp only [Bool.false_eq_true,if_false]
      by_cases hclear : (cfg.okInit hd.hbObjKind || cfg.debuggingStarted) = true
      · rw [if_pos hclear]
        exact ⟨_,reclaimClear_takenTo hsmall,rfl⟩
      · rw [if_neg hclear]
        exact ⟨_,reclaimUninit_takenTo hsmall,rfl⟩
  obtain ⟨s,hs,heq⟩ := htaken
  rw [heq]
  by_cases hunc : isUncollectable hd.hbObjKind = true
  · simp only [if_pos hunc,hs.hdr]
    exact ⟨hs.listed,hs.counted,rfl⟩
  · simp only [if_neg hunc]
    exact ⟨hs.listed,hs.counted,hs.hdr⟩

theorem taken_bytes_le (cfg : Setup) (ans : Answers) (hbp : Nat) (hd : Hdr) :
    hd.hbSz * (taken cfg ans hbp hd).length ≤ hblkSize := by
  have hlen : (taken cfg ans hbp hd).length ≤ hblkObjs hd.hbSz := by
    refine (length_filter_le _ _).trans ?_
    rw [length_range]
  exact (Nat.mul_le_mul_left _ hlen).trans (Nat.mul_div_le hblkSize hd.hbSz)

theorem sweepInto_unmarked_iff (hsmall : hd.hbSz ≤ maxObjBytes) :
    (sweepInto cfg ans h hbp hd).hdr.hbNMarks = 0 ↔
      hd.hbNMarks = 0 ∧ isUncollectable hd.hbObjKind = false ∧ refused cfg ans hbp hd = [] := by
  rw [(sweepInto_spec hsmall).2.2]
  by_cases hunc : isUncollectable hd.hbObjKind = true
  · rw [if_pos hunc]
    have hpos := objCount_pos hd
    rw [objCount_small hsmall] at hpos
    have hall : (setHdrMarks cfg.layout (resurrect cfg.layout hd (refused cfg ans hbp hd))).hbNMarks =
        hblkObjs hd.hbSz := by
      have hsz := (resurrect_fields cfg.layout hd (refused cfg ans hbp hd)).1
      simp only [setHdrMarks,finalMarkBit,hsz,if_neg (show ¬ hd.hbSz > maxObjBytes by omega)]
      split <;> rfl
    rw [hall]
    simp [hunc]
    omega
  · rw [if_neg hunc,resurrect_hbNMarks,Nat.add_eq_zero_iff,length_eq_zero_iff]
    simp [hunc]

end Sweep

section Accounting

variable (cfg : Setup) (ans : Answers) (h h' : Heap) (hbp : Nat) (hd : Hdr)

def growth : Int := h'.bytesFound - h.bytesFound

def wholeBytes : Nat := if hd.hbSz > maxObjBytes then hd.hbSz else hblkSize

/-- What sweeping the block has made available: the objects put on the free list of its kind and
size, and the block itself if it is no longer in use. -/
def madeAvailable : Int :=
  hd.hbSz * (((h'.freelist hd.hbObjKind (bytesToGranules hd.hbSz)).length : Int) -
      (h.freelist hd.hbObjKind (bytesToGranules hd.hbSz)).length) +
    if (h'.hdr hbp).isNone then wholeBytes hd else 0

/-- The growth is what became available and no more than the block takes. -/
def Accounted : Prop :=
  growth h h' = madeAvailable h h' hbp hd ∧ growth h h' ≤ objSzToBlocks hd.hbSz * hblkSize

/-- A block of small objects without a mark, of a collectable kind, all of whose objects the
callback gives up. -/
def SweptThenFreed : Prop :=
  hd.hbSz ≤ maxObjBytes ∧ hd.hbNMarks = 0 ∧ isUncollectable hd.hbObjKind = false ∧
    (∃ k < hblkObjs hd.hbSz, marked cfg.layout hd k = false) ∧
    ∀ k < hblkObjs hd.hbSz, marked cfg.layout hd k = false → ans.refuses (objAt hbp hd k) = false

variable {cfg ans h h' hbp hd}

theorem hblkSize_le_blockBytes (hd : Hdr) : hblkSize ≤ objSzToBlocks hd.hbSz * hblkSize :=
  Nat.le_mul_of_pos_left _ (objSzToBlocks_pos hd.hbSz_pos)

theorem hbSz_le_blockBytes (hd : Hdr) : hd.hbSz ≤ objSzToBlocks hd.hbSz * hblkSize := by
  unfold objSzToBlocks divHblksz hblkSize
  omega

theorem accounted_of_unchanged (hbytes : h'.bytesFound = h.bytesFound) (hlists : h'.freelist = h.freelist)
    (huse : (h'.hdr hbp).isNone = false) : Accounted h h' hbp hd := by
  unfold Accounted growth madeAvailable
  rw [hbytes,hlists,huse]
  refine ⟨by simp,?_⟩
  rw [Int.sub_self]
  exact_mod_cast Nat.zero_le _

theorem accounted_of_listed (hbytes : h'.bytesFound = h.bytesFound + hd.hbSz * (taken cfg ans hbp hd).length)
    (hlist : h'.freelist hd.hbObjKind (bytesToGranules hd.hbSz) =
      ((taken cfg ans hbp hd).map (objAt hbp hd)).reverse ++ h.freelist hd.hbObjKind (bytesToGranules hd.hbSz))
    (huse : (h'.hdr hbp).isNone = false) : Accounted h h' hbp hd := by
  have hgrowth : growth h h' = hd.hbSz * ((taken cfg ans hbp hd).length : Int) := by
    unfold growth
    rw [hbytes,add_sub_cancel_left]
  constructor
  · rw [hgrowth]
    unfold madeAvailable
    rw [huse,hlist]
    simp
  · rw [hgrowth]
    exact_mod_cast (taken_bytes_le cfg ans hbp hd).trans (hblkSize_le_blockBytes hd)

theorem reclaimSmallNonemptyBlock_accounted (hhdr : h.hdr hbp = some hd) (hsmall : hd.hbSz ≤ maxObjBytes)
    (report : Bool) : Accounted h (reclaimSmallNonemptyBlock cfg ans h hbp report) hbp hd := by
  unfold reclaimSmallNonemptyBlock
  rw [hhdr]
  cases report with
  | true => exact accounted_of_unchanged rfl rfl (by simp [Heap.setHdr])
  | false =>
    apply accounted_of_listed (sweepInto_spec hsmall).2.1
    · simpa [Heap.setFreelist] using (sweepInto_spec hsmall).1
    · simp [Heap.setFreelist,Heap.setHdr]

theorem reclaimLarge_accounted (hlarge : hd.hbSz > maxObjBytes) (hhdr : h.hdr hbp = some hd) (report : Bool) :
    Accounted h (reclaimLarge ans h hbp hd report) hbp hd := by
  unfold reclaimLarge
  split_ifs
  · exact accounted_of_unchanged rfl rfl (by simp [hhdr])
  · exact accounted_of_unchanged rfl rfl (by simp [Heap.setHdr])
  · exact accounted_of_unchanged rfl rfl (by simp [Heap.setHdr])
  · unfold Accounted growth madeAvailable wholeBytes
    have hle := hbSz_le_blockBytes hd
    simp only [Heap.freehblk,if_true,Option.isNone_none,if_pos hlarge,Int.sub_self,Int.mul_zero,Int.zero_add,
      add_sub_cancel_left,true_and]
    exact_mod_cast hle

theorem disclaimAndReclaimOrFreeSmallBlock_accounted_iff (hsmall : hd.hbSz ≤ maxObjBytes) :
    Accounted h (disclaimAndReclaimOrFreeSmallBlock cfg ans h hbp hd) hbp hd ↔
      ((sweepInto cfg ans h hbp hd).hdr.hbNMarks = 0 → taken cfg ans hbp hd = []) := by
  obtain ⟨hfree,hcount,-⟩ := @sweepInto_spec cfg ans h hbp hd hsmall
  unfold disclaimAndReclaimOrFreeSmallBlock
  by_cases hzero : (sweepInto cfg ans h hbp hd).hdr.hbNMarks = 0
  · simp only [hzero,ne_eq,not_true_eq_false,if_false]
    unfold Accounted growth madeAvailable wholeBytes
    have hle := hblkSize_le_blockBytes hd
    simp only [Heap.freehblk,Heap.setHdr,if_true,Option.isNone_none,if_neg (show ¬ hd.hbSz > maxObjBytes by omega),
      hcount,Int.sub_self,Int.mul_zero,Int.zero_add]
    have hpos : (0 : Int) < hd.hbSz := by exact_mod_cast hd.hbSz_pos
    constructor
    · intro hacc _
      have hmul : (hd.hbSz : Int) * (taken cfg ans hbp hd).length = 0 := by linarith [hacc.1]
      have hlen : ((taken cfg ans hbp hd).length : Int) = 0 := (Int.mul_eq_zero.mp hmul).resolve_left hpos.ne'
      exact length_eq_zero_iff.mp (by exact_mod_cast hlen)
    · intro hnone
      have hle' : (hblkSize : Int) ≤ objSzToBlocks hd.hbSz * hblkSize := by exact_mod_cast hle
      rw [hnone trivial]
      refine ⟨?_,?_⟩
      · simp
      · simpa using hle'
  · simp only [ne_eq,hzero,not_false_eq_true,if_true,false_imp_iff,iff_true]
    apply accounted_of_listed hcount
    · simpa [Heap.setFreelist] using hfree
    · simp [Heap.setFreelist,Heap.setHdr]

theorem sweptThenFreed_iff (hdis : hd.hasDisclaim = true) (hsmall : hd.hbSz ≤ maxObjBytes) :
    SweptThenFreed cfg ans hbp hd ↔
      (hd.hbNMarks = 0 ∧ isUncollectable hd.hbObjKind = false ∧ refused cfg ans hbp hd = []) ∧
        taken cfg ans hbp hd ≠ [] := by
  unfold SweptThenFreed refused refusedBelow taken takenBelow refusal
  simp only [hdis,Bool.true_and,filter_eq_nil_iff,mem_range,ne_eq,not_forall,Bool.and_eq_true,
    Bool.not_eq_true']
  constructor
  · rintro ⟨-,hzero,hcoll,⟨k,hk,hclear⟩,hno⟩
    refine ⟨⟨hzero,hcoll,?_⟩,k,hk,?_⟩
    · rintro j hj ⟨hclear',href⟩
      rw [hno j hj hclear'] at href
      cases href
    · simp [hclear,hno k hk hclear]
  · rintro ⟨⟨hzero,hcoll,hno⟩,k,hk,htaken⟩
    refine ⟨hsmall,hzero,hcoll,⟨k,hk,?_⟩,?_⟩
    · exact (not_not.mp htaken).1
    · intro j hj hclear
      by_contra href
      exact hno j hj ⟨hclear,by simpa using href⟩

/-- Sweeping a block of a kind with a disclaim callback accounts for exactly what it makes
available, except where the block is swept object by object and then freed as a whole. -/
theorem reclaimBlock_accounted_iff (cfg : Setup) (ans : Answers) (h : Heap) (hbp : Nat) (hd : Hdr)
    (hhdr : h.hdr hbp = some hd) (hdis : hd.hasDisclaim = true) :
    (∀ report, Accounted h (reclaimBlock cfg ans h hbp report) hbp hd ↔
        ¬ (report = false ∧ SweptThenFreed cfg ans hbp hd)) ∧
      (hd.hbSz ≤ maxObjBytes →
        ∀ report, Accounted h (reclaimSmallNonemptyBlock cfg ans h hbp report) hbp hd) := by
  refine ⟨fun report => ?_,fun hsmall report => reclaimSmallNonemptyBlock_accounted hhdr hsmall report⟩
  unfold reclaimBlock
  rw [hhdr]
  dsimp only
  by_cases hlarge : hd.hbSz > maxObjBytes
  · rw [if_pos hlarge]
    have hnot : ¬ SweptThenFreed cfg ans hbp hd := fun hswept => absurd hswept.1 (by omega)
    simp only [hnot,and_false,not_false_eq_true,iff_true]
    exact reclaimLarge_accounted hlarge hhdr report
  · have hsmall : hd.hbSz ≤ maxObjBytes := by omega
    rw [if_neg hlarge]
    cases report with
    | true => simpa using reclaimSmallNonemptyBlock_accounted hhdr hsmall true
    | false =>
      simp only [Bool.false_eq_true,if_false,true_and]
      by_cases hempty : blockEmpty hd = true
      · rw [if_pos hempty,if_pos hdis,disclaimAndReclaimOrFreeSmallBlock_accounted_iff hsmall,
          sweptThenFreed_iff hdis hsmall,sweepInto_unmarked_iff hsmall]
        simp only [ne_eq,not_and,not_not]
      · rw [if_neg hempty]
        have hnot : ¬ SweptThenFreed cfg ans hbp hd := fun hswept => hempty (by simp [blockEmpty,hswept.2.1])
        simp only [hnot,not_false_eq_true,iff_true]
        split
        · unfold enqueue
          split <;> exact accounted_of_unchanged rfl rfl (by simp [hhdr])
        · exact accounted_of_unchanged rfl rfl (by simp [hhdr])

/-- Bits for granules, no kind cleared, and a heap of one block of two objects of kind 4, which
has a callback. -/
def plainSetup : Setup := ⟨⟨false, false⟩, fun _ => false, fun _ => false, false, false, false⟩

def oneBlock (hd : Hdr) : Heap := ⟨fun b => if b = 4096 then some hd else none, fun _ _ => [], fun _ => true,
  fun _ _ => [], 0⟩

def emptyBlock : Hdr :=
  { halfBlock with hbObjKind := 4, hasDisclaim := true, hbMarks := fun i => decide (i = 256), hbNMarks := 0 }

/-- With the second object refused, the sweep finds one object. -/
theorem reclaimBlock_accounted_iff_refused :
    Accounted (oneBlock emptyBlock)
      (reclaimBlock plainSetup ⟨fun p => decide (p = 6144), fun _ => false⟩ (oneBlock emptyBlock) 4096 false)
      4096 emptyBlock := by
  have hiff := (reclaimBlock_accounted_iff plainSetup ⟨fun p => decide (p = 6144),fun _ => false⟩
    (oneBlock emptyBlock) 4096 emptyBlock rfl rfl).1 false
  apply hiff.mpr
  rintro ⟨-,-,-,-,-,hall⟩
  exact absurd (hall 1 (by decide) (by decide)) (by decide)

/-- Both objects are given up: `GC_bytes_found` grows by two blocks where one becomes available. -/
theorem reclaimBlock_counts_twice :
    growth (oneBlock emptyBlock)
        (reclaimBlock plainSetup ⟨fun _ => false, fun _ => false⟩ (oneBlock emptyBlock) 4096 false) = 8192 ∧
      madeAvailable (oneBlock emptyBlock)
        (reclaimBlock plainSetup ⟨fun _ => false, fun _ => false⟩ (oneBlock emptyBlock) 4096 false) 4096 emptyBlock =
          4096 ∧
      objSzToBlocks emptyBlock.hbSz * hblkSize = 4096 := by
  decide +kernel

end Accounting

end GcUtil.Sweep.Reclaim
