import GcUtil.Sweep.Reclaim
import GcUtil.Sweep.FreshLists

/-! The count of marks in every header over whole runs: allocation, explicit frees, marking,
free-list marking, lazy sweeps and the sweeps that start a cycle, in any order. -/
namespace GcUtil.Sweep.MarkCounts
open Basic MarkBits Blocks Reclaim FreshLists List

def hblkPtr (p : Nat) : Nat := p / hblkSize * hblkSize

structure ObjSize where
  bytes : Nat
  pos : 0 < bytes
  granule_dvd : granuleBytes ∣ bytes

section Operations

variable (cfg : Setup) (h : Heap)

def resize (hd : Hdr) (sz : ObjSize) : Hdr :=
  { hd with hbSz := sz.bytes, hbSz_pos := sz.pos, granule_dvd := sz.granule_dvd }

/-- `setup_header` for a block of a kind that may have a disclaim callback. -/
def setupHeader (sz : ObjSize) (kind : Nat) (hasDisclaim : Bool) : Hdr :=
  clearHdrMarks cfg.layout ⟨sz.bytes, kind, hasDisclaim, fun _ => false, 0, sz.pos, sz.granule_dvd⟩

def newHeader (sz : ObjSize) (kind : Nat) (hasDisclaim : Bool) : Hdr :=
  let hd := setupHeader cfg sz kind hasDisclaim
  if isUncollectable kind then setHdrMarks cfg.layout hd else hd

def onHdr (q : Nat) (f : Hdr → Hdr) : Heap :=
  match h.hdr (hblkPtr q) with
  | none => h
  | some hd => h.setHdr (hblkPtr q) (f hd)

def setMarkBit (q : Nat) : Heap :=
  onHdr h q fun hd => markOnce hd (markBitNo cfg.layout (q - hblkPtr q) hd.hbSz)

def clearMarkBit (q : Nat) : Heap :=
  onHdr h q fun hd => unmarkOnce hd (markBitNo cfg.layout (q - hblkPtr q) hd.hbSz)

def objSize (q : Nat) : Nat :=
  match h.hdr (hblkPtr q) with
  | none => 0
  | some hd => hd.hbSz

def clearFlMark (q : Nat) : Heap :=
  { clearMarkBit cfg h q with bytesFound := h.bytesFound - objSize h q }

def clearMarks : Heap :=
  { h with
    hdr := fun b => (h.hdr b).map fun hd =>
      if isUncollectable hd.hbObjKind then hd else clearHdrMarks cfg.layout hd }

def freeInternal (q : Nat) : Heap :=
  match h.hdr (hblkPtr q) with
  | none => h
  | some hd =>
    if hd.hbSz ≤ maxObjBytes then
      let h' := if cfg.compressed then setMarkBit cfg h q else h
      let lg := bytesToGranules hd.hbSz
      h'.setFreelist hd.hbObjKind lg (q :: h'.freelist hd.hbObjKind lg)
    else h.freehblk (hblkPtr q)

def clearLists (report : Bool) : Heap :=
  { h with
    freelist := fun k lg => if h.kindUsed k && !report then [] else h.freelist k lg
    reclaimList := fun k lg => if h.kindUsed k then [] else h.reclaimList k lg }

def popPending (kind lg : Nat) : Heap :=
  { h with reclaimList := fun k l => if k = kind ∧ l = lg then (h.reclaimList k l).tail else h.reclaimList k l }

/-- Sweep the first pending block for `GC_generic_malloc_many`, which hands out what it finds. -/
def sweepMany (ans : Answers) (h : Heap) (hbp : Nat) : Heap :=
  match h.hdr hbp with
  | none => h
  | some hd =>
    let r := reclaimGeneric members cfg.layout (fun p free => (ans.refuses p, free)) cfg.debuggingStarted hbp hd
      hd.hbSz (cfg.okInit hd.hbObjKind) [] 0
    { h.setHdr hbp r.hdr with bytesFound := h.bytesFound + r.count }

/-- What can happen to headers and lists. `newMany` is a block of `GC_generic_malloc_many`,
`allocLarge` one of `GC_alloc_large`, `pin` the end of a large uncollectable allocation, and the
number given with the marking of a free list or with the start of a sweep says how far it has
come. -/
inductive Op where
  | useKind (kind : Nat)
  | newHblk (hbp : Nat) (sz : ObjSize) (kind : Nat) (hasDisclaim : Bool)
  | newMany (hbp : Nat) (sz : ObjSize) (kind : Nat) (hasDisclaim : Bool)
  | allocLarge (hbp : Nat) (sz : ObjSize) (kind : Nat) (hasDisclaim : Bool)
  | pin (hbp : Nat)
  | take (kind lg i : Nat)
  | takeMany (kind lg n : Nat)
  | free (q : Nat)
  | realloc (hbp : Nat) (sz : ObjSize)
  | setMarkBit (q : Nat)
  | clearMarkBit (q : Nat)
  | clearMarks
  | setFlMarks (kind lg n : Nat)
  | clearFlMarks (kind lg n : Nat)
  | startReclaim (report : Bool) (ans : Answers) (order : List Nat) (n : Nat)
  | sweepPending (kind lg : Nat) (ans : Answers)
  | sweepMany (kind lg : Nat) (ans : Answers)
  | dropPending (kind lg : Nat)

def apply : Op → Heap
  | .useKind kind => { h with kindUsed := fun k => k == kind || h.kindUsed k }
  | .newHblk hbp sz kind dis =>
    let lg := bytesToGranules sz.bytes
    -- the members of the list `GC_build_fl` makes in memory
    (h.setHdr hbp (newHeader cfg sz kind dis)).setFreelist kind lg ((freshObjs hbp lg).reverse ++ h.freelist kind lg)
  | .newMany hbp sz kind dis => h.setHdr hbp (newHeader cfg sz kind dis)
  | .allocLarge hbp sz kind dis => h.setHdr hbp (setupHeader cfg sz kind dis)
  | .pin hbp => onHdr h hbp fun hd => { setMarkBitFromHdr hd 0 with hbNMarks := 1 }
  | .take kind lg i => h.setFreelist kind lg ((h.freelist kind lg).eraseIdx i)
  | .takeMany kind lg n => h.setFreelist kind lg ((h.freelist kind lg).drop n)
  | .free q => freeInternal cfg h q
  | .realloc hbp sz => onHdr h hbp fun hd => resize hd sz
  | .setMarkBit q => setMarkBit cfg h q
  | .clearMarkBit q => clearMarkBit cfg h q
  | .clearMarks => clearMarks cfg h
  | .setFlMarks kind lg n => ((h.freelist kind lg).take n).foldl (setMarkBit cfg) h
  | .clearFlMarks kind lg n => ((h.freelist kind lg).take n).foldl (clearFlMark cfg) h
  | .startReclaim report ans order n =>
    (order.take n).foldl (fun h b => reclaimBlock cfg ans h b report) (clearLists h report)
  | .sweepPending kind lg ans =>
    match h.reclaimList kind lg with
    | [] => h
    | b :: _ => reclaimSmallNonemptyBlock cfg ans (popPending h kind lg) b false
  | .sweepMany kind lg ans =>
    match h.reclaimList kind lg with
    | [] => h
    | b :: _ => sweepMany cfg ans (popPending h kind lg) b
  | .dropPending kind lg => popPending h kind lg

def IsObject (q : Nat) : Prop :=
  ∃ hd, h.hdr (hblkPtr q) = some hd ∧ ∃ j < objCount hd.hbSz, q = objAt (hblkPtr q) hd j

/-- What the callers see to: a new block is none of those in use, only objects are freed or
marked, only large ones are pinned or resized in place, and a sweep starts with a walk over the
blocks in use. -/
def Enabled : Op → Prop
  | .newHblk hbp sz kind _ => h.hdr hbp = none ∧ hblkSize ∣ hbp ∧ sz.bytes ≤ maxObjBytes ∧ h.kindUsed kind = true
  | .newMany hbp sz _ _ => h.hdr hbp = none ∧ hblkSize ∣ hbp ∧ sz.bytes ≤ maxObjBytes
  | .allocLarge hbp _ _ _ => h.hdr hbp = none ∧ hblkSize ∣ hbp
  | .pin hbp => ∃ hd, h.hdr hbp = some hd ∧ hd.hbSz > maxObjBytes
  | .realloc hbp sz => sz.bytes > maxObjBytes ∧ ∃ hd, h.hdr hbp = some hd ∧ hd.hbSz > maxObjBytes
  | .free q => IsObject h q
  | .setMarkBit q => IsObject h q
  | .clearMarkBit q => IsObject h q
  | .startReclaim _ _ order _ => order.Nodup ∧ ∀ b, b ∈ order ↔ (h.hdr b).isSome
  | _ => True

inductive Reaches (P : Heap → Op → Prop) : Heap → Prop
  | start : Reaches P ⟨fun _ => none, fun _ _ => [], fun _ => false, fun _ _ => [], 0⟩
  | step {h : Heap} {op : Op} : Reaches P h → Enabled h op → P h op → Reaches P (apply cfg h op)

/-- The sweep of an empty block of small objects keeps the block, for an object that the callback
refuses or since the kind is uncollectable, and puts other objects of it on a free list. -/
def Refills (ans : Answers) (b : Nat) (hd : Hdr) : Prop :=
  blockEmpty hd = true ∧ taken cfg ans b hd ≠ [] ∧ (refused cfg ans b hd ≠ [] ∨ isUncollectable hd.hbObjKind = true)

def SweptHarmless (ans : Answers) (h : Heap) (b : Nat) : Prop :=
  ∀ hd, h.hdr b = some hd → hd.hasDisclaim = true →
    (hd.hbSz > maxObjBytes → hd.hbMarks 0 = false → ans.refuses b = false) ∧
      (hd.hbSz ≤ maxObjBytes → Refills cfg ans b hd → h.kindUsed hd.hbObjKind = true)

/-- No callback that a sweep asks refuses an unmarked large object, and neither an explicit free
nor the sweep of an empty block puts an object on a free list of a kind without reclaim lists. -/
def Harmless : Op → Prop
  | .free q => ∀ hd, h.hdr (hblkPtr q) = some hd → hd.hbSz ≤ maxObjBytes → h.kindUsed hd.hbObjKind = true
  | .startReclaim report ans order n => report = false → ∀ b ∈ order.take n, SweptHarmless cfg ans h b
  | _ => True

end Operations

section Invariant

variable {cfg : Setup} {ans : Answers} {Z Z' : Nat → Prop} {h h' : Heap} {b q k lg : Nat} {hd hd' : Hdr}

def Listed (h : Heap) (k lg q : Nat) : Prop :=
  ∃ hd, h.hdr (hblkPtr q) = some hd ∧ hd.hbSz ≤ maxObjBytes ∧ bytesToGranules hd.hbSz = lg ∧ hd.hbObjKind = k ∧
    ∃ j < hblkObjs hd.hbSz, q = objAt (hblkPtr q) hd j

def Pending (h : Heap) (k lg b : Nat) : Prop :=
  ∃ hd, h.hdr b = some hd ∧ hd.hbSz ≤ maxObjBytes ∧ bytesToGranules hd.hbSz = lg ∧ hd.hbObjKind = k

/-- The counts are exact, and what is on a list is in a block in use, one of those in `Z`, of the
kind and size the list is for. -/
structure Sound (cfg : Setup) (Z : Nat → Prop) (h : Heap) : Prop where
  exact : ∀ b hd, h.hdr b = some hd → Exact cfg.layout hd
  aligned : ∀ b hd, h.hdr b = some hd → hblkSize ∣ b
  free : ∀ k lg q, q ∈ h.freelist k lg → Listed h k lg q ∧ Z (hblkPtr q) ∧ h.kindUsed k = true
  pending : ∀ k lg b, b ∈ h.reclaimList k lg → Pending h k lg b ∧ Z b ∧ h.kindUsed k = true

def Stays (h h' : Heap) (b : Nat) : Prop :=
  ∀ hd, h.hdr b = some hd → hd.hbSz ≤ maxObjBytes →
    ∃ hd', h'.hdr b = some hd' ∧ hd'.hbSz = hd.hbSz ∧ hd'.hbObjKind = hd.hbObjKind

theorem Listed.stays (hl : Listed h k lg q) (hst : Stays h h' (hblkPtr q)) : Listed h' k lg q := by
  obtain ⟨hd,hhdr,hsmall,hlg,hkind,j,hj,hq⟩ := hl
  obtain ⟨hd',hhdr',hsz,hkind'⟩ := hst hd hhdr hsmall
  refine ⟨hd',hhdr',hsz ▸ hsmall,hsz ▸ hlg,hkind'.trans hkind,j,hsz ▸ hj,?_⟩
  unfold objAt
  rw [hsz]
  exact hq

theorem Pending.stays (hp : Pending h k lg b) (hst : Stays h h' b) : Pending h' k lg b := by
  obtain ⟨hd,hhdr,hsmall,hlg,hkind⟩ := hp
  obtain ⟨hd',hhdr',hsz,hkind'⟩ := hst hd hhdr hsmall
  exact ⟨hd',hhdr',hsz ▸ hsmall,hsz ▸ hlg,hkind'.trans hkind⟩

theorem Stays.of_eq (heq : h'.hdr b = h.hdr b) : Stays h h' b :=
  fun hd hhdr _ => ⟨hd,heq.trans hhdr,rfl,rfl⟩

section

variable (hs : Sound cfg Z h)
include hs

/-- An operation keeps the invariant if the blocks with listed members stay, changed headers are
exact, and what it adds to a list belongs there. -/
theorem Sound.update (hZ : ∀ b, Z b → Z' b) (hstays : ∀ b, Z b → Stays h h' b)
    (hhdr : ∀ b hd', h'.hdr b = some hd' → h.hdr b = some hd' ∨ (Exact cfg.layout hd' ∧ hblkSize ∣ b))
    (hused : ∀ k, h.kindUsed k = true → h'.kindUsed k = true)
    (hfree : ∀ k lg q, q ∈ h'.freelist k lg →
      q ∈ h.freelist k lg ∨ (Listed h' k lg q ∧ Z' (hblkPtr q) ∧ h'.kindUsed k = true))
    (hpend : ∀ k lg b, b ∈ h'.reclaimList k lg →
      b ∈ h.reclaimList k lg ∨ (Pending h' k lg b ∧ Z' b ∧ h'.kindUsed k = true)) : Sound cfg Z' h' := by
  constructor
  case exact =>
    intro b hd' hb
    rcases hhdr b hd' hb with hold | hnew
    · exact hs.exact b hd' hold
    · exact hnew.1
  case aligned =>
    intro b hd' hb
    rcases hhdr b hd' hb with hold | hnew
    · exact hs.aligned b hd' hold
    · exact hnew.2
  case free =>
    intro k lg q hq
    rcases hfree k lg q hq with hold | hnew
    · obtain ⟨hl,hz,hu⟩ := hs.free k lg q hold
      exact ⟨hl.stays (hstays _ hz),hZ _ hz,hused k hu⟩
    · exact hnew
  case pending =>
    intro k lg b hb
    rcases hpend k lg b hb with hold | hnew
    · obtain ⟨hp,hz,hu⟩ := hs.pending k lg b hold
      exact ⟨hp.stays (hstays _ hz),hZ _ hz,hused k hu⟩
    · exact hnew

theorem Sound.mono (hZ : ∀ b, Z b → Z' b) : Sound cfg Z' h :=
  hs.update hZ (fun _ _ => Stays.of_eq rfl) (fun _ _ h => .inl h) (fun _ h => h) (fun _ _ _ h => .inl h)
    fun _ _ _ h => .inl h

theorem Sound.onHdrs (hdr' : Nat → Option Hdr)
    (hstays : ∀ b, Z b → Stays h { h with hdr := hdr' } b)
    (hhdr : ∀ b hd', hdr' b = some hd' → h.hdr b = some hd' ∨ (Exact cfg.layout hd' ∧ hblkSize ∣ b)) :
    Sound cfg Z { h with hdr := hdr' } :=
  hs.update (fun _ h => h) hstays hhdr (fun _ h => h) (fun _ _ _ h => .inl h) fun _ _ _ h => .inl h

theorem Sound.onLists (hZ : ∀ b, Z b → Z' b) (hhdr : h'.hdr = h.hdr)
    (hused : h'.kindUsed = h.kindUsed)
    (hfree : ∀ k lg q, q ∈ h'.freelist k lg →
      q ∈ h.freelist k lg ∨ (Listed h' k lg q ∧ Z' (hblkPtr q) ∧ h'.kindUsed k = true))
    (hpend : ∀ k lg b, b ∈ h'.reclaimList k lg →
      b ∈ h.reclaimList k lg ∨ (Pending h' k lg b ∧ Z' b ∧ h'.kindUsed k = true)) : Sound cfg Z' h' :=
  hs.update hZ (fun b _ => Stays.of_eq (congrFun hhdr b)) (fun b _ hb => .inl (congrFun hhdr b ▸ hb))
    (fun k hk => congrFun hused k ▸ hk) hfree hpend

theorem Sound.setHdr (hhdr : h.hdr b = some hd)
    (hshape : hd.hbSz ≤ maxObjBytes → hd'.hbSz = hd.hbSz ∧ hd'.hbObjKind = hd.hbObjKind)
    (hexact : Exact cfg.layout hd') : Sound cfg Z (h.setHdr b hd') := by
  refine hs.onHdrs _ (fun c _ hd₀ hc hsmall => ?_) fun c hd₀ hc => ?_
  · by_cases hcb : c = b
    · subst hcb
      obtain rfl : hd = hd₀ := Option.some.inj (hhdr.symm.trans hc)
      exact ⟨hd',if_pos rfl,hshape hsmall⟩
    · exact ⟨hd₀,(if_neg hcb).trans hc,rfl,rfl⟩
  · by_cases hcb : c = b
    · subst hcb
      obtain rfl : hd' = hd₀ := Option.some.inj ((if_pos rfl).symm.trans hc)
      exact .inr ⟨hexact,hs.aligned c hd hhdr⟩
    · exact .inl ((if_neg hcb).symm.trans hc)

theorem Sound.newBlock (hnone : h.hdr b = none) (halign : hblkSize ∣ b)
    (hexact : Exact cfg.layout hd') : Sound cfg Z (h.setHdr b hd') := by
  refine hs.onHdrs _ (fun c _ hd₀ hc _ => ?_) fun c hd₀ hc => ?_
  · have hcb : c ≠ b := by
      rintro rfl
      rw [hnone] at hc
      cases hc
    exact ⟨hd₀,(if_neg hcb).trans hc,rfl,rfl⟩
  · by_cases hcb : c = b
    · subst hcb
      obtain rfl : hd' = hd₀ := Option.some.inj ((if_pos rfl).symm.trans hc)
      exact .inr ⟨hexact,halign⟩
    · exact .inl ((if_neg hcb).symm.trans hc)

theorem Sound.freehblk (hout : Z b → ∀ hd, h.hdr b = some hd → hd.hbSz > maxObjBytes) :
    Sound cfg Z (h.freehblk b) := by
  refine hs.onHdrs _ (fun c hc hd₀ hhdr hsmall => ?_) fun c hd₀ hc => ?_
  · have hcb : c ≠ b := by
      rintro rfl
      exact absurd (hout hc hd₀ hhdr) (by omega)
    exact ⟨hd₀,(if_neg hcb).trans hhdr,rfl,rfl⟩
  · by_cases hcb : c = b
    · exact absurd ((if_pos hcb).symm.trans hc) (by simp)
    · exact .inl ((if_neg hcb).symm.trans hc)

theorem Sound.bytesFound (n : Int) : Sound cfg Z { h with bytesFound := n } :=
  hs.onLists (fun _ h => h) rfl rfl (fun _ _ _ h => .inl h) fun _ _ _ h => .inl h

end

theorem Sound.setFreelist {kind lg : Nat} {list : List Nat} (hs : Sound cfg Z h)
    (hlist : ∀ q ∈ list, q ∈ h.freelist kind lg ∨ (Listed h kind lg q ∧ Z (hblkPtr q) ∧ h.kindUsed kind = true)) :
    Sound cfg Z (h.setFreelist kind lg list) := by
  refine hs.onLists (fun _ h => h) rfl rfl (fun k l q hq => ?_) fun _ _ _ h => .inl h
  unfold Heap.setFreelist at hq
  dsimp only at hq
  split at hq
  · next heq =>
    obtain ⟨rfl,rfl⟩ := heq
    exact hlist q hq
  · exact .inl hq

theorem hblkPtr_objAt (halign : hblkSize ∣ b) {j : Nat} (hj : j < objCount hd.hbSz) :
    hblkPtr (objAt b hd j) = b := by
  have hlt : j * hd.hbSz < hblkSize := by
    unfold objCount hblkObjs at hj
    split at hj
    · rw [Nat.lt_one_iff.mp hj,Nat.zero_mul]
      decide
    · exact (Nat.mul_lt_mul_of_pos_right hj hd.hbSz_pos).trans_le (Nat.div_mul_le_self _ _)
  obtain ⟨n,rfl⟩ := halign
  unfold hblkPtr objAt
  rw [Nat.mul_add_div (by decide),Nat.div_eq_of_lt hlt,Nat.add_zero,Nat.mul_comm]

theorem listed_objAt (halign : hblkSize ∣ b) (hhdr : h.hdr b = some hd) (hsmall : hd.hbSz ≤ maxObjBytes) {j : Nat}
    (hj : j < hblkObjs hd.hbSz) : Listed h hd.hbObjKind (bytesToGranules hd.hbSz) (objAt b hd j) := by
  have hptr : hblkPtr (objAt b hd j) = b := hblkPtr_objAt halign (by rwa [objCount_small hsmall])
  refine ⟨hd,by rwa [hptr],hsmall,rfl,rfl,j,hj,?_⟩
  rw [hptr]

/-- The header `hd'` describes the same objects as `hd`, and its count is exact. -/
structure Recounted (L : Layout) (hd hd' : Hdr) : Prop where
  hbSz : hd'.hbSz = hd.hbSz
  hbObjKind : hd'.hbObjKind = hd.hbObjKind
  exact : Exact L hd'

theorem Sound.recount (hs : Sound cfg Z h) (hhdr : h.hdr b = some hd) (hr : Recounted cfg.layout hd hd') :
    Sound cfg Z (h.setHdr b hd') :=
  hs.setHdr hhdr (fun _ => ⟨hr.hbSz,hr.hbObjKind⟩) hr.exact

end Invariant

section Sweeps

variable {cfg : Setup} {ans : Answers} {Z : Nat → Prop} {h : Heap} {b : Nat} {hd : Hdr}

theorem resurrect_exact {L : Layout} {js : List Nat} (hexact : Exact L hd) (hnodup : js.Nodup)
    (hjs : ∀ j ∈ js, j < objCount hd.hbSz ∧ marked L hd j = false) : Exact L (resurrect L hd js) := by
  induction js using List.reverseRecOn with
  | nil => exact hexact
  | append_singleton js j ih =>
    have hsz := (resurrect_fields L hd js).1
    have hnew : j ∉ js := fun hj => disjoint_of_nodup_append hnodup hj (by simp)
    have hclear : marked L (resurrect L hd js) j = false := by
      unfold marked
      rw [hsz,resurrect_marks]
      simp [hnew,(hjs j (by simp)).2]
    have hbefore := ih (hnodup.of_append_left) fun i hi => hjs i (by simp [hi])
    have hset := markedObjs_set (hsz ▸ (hjs j (by simp)).1) hclear
    rw [hsz] at hset
    rw [resurrect_append]
    show (resurrect L hd js).hbNMarks + 1 =
      markedObjs L (setMarkBitFromHdr (resurrect L hd js) (j * markBitOffset L hd.hbSz))
    rw [hset,hbefore]

theorem refused_mem {j : Nat} (hsmall : hd.hbSz ≤ maxObjBytes) (hj : j ∈ refused cfg ans b hd) :
    j < objCount hd.hbSz ∧ marked cfg.layout hd j = false := by
  unfold refused refusedBelow at hj
  rw [mem_filter,mem_range] at hj
  rw [objCount_small hsmall]
  refine ⟨hj.1,?_⟩
  simpa using And.left (by simpa using hj.2 : marked cfg.layout hd j = false ∧ refusal ans hd (objAt b hd j) = true)

theorem sweepInto_hdr (cfg : Setup) (ans : Answers) (h : Heap) (b : Nat) (hsmall : hd.hbSz ≤ maxObjBytes)
    (hexact : Exact cfg.layout hd) : Recounted cfg.layout hd (sweepInto cfg ans h b hd).hdr := by
  have hkept := resurrect_exact hexact (nodup_range.filter _) fun j hj => @refused_mem cfg ans b hd j hsmall hj
  obtain ⟨hsz,hkind,-⟩ := resurrect_fields cfg.layout hd (refused cfg ans b hd)
  rw [(sweepInto_spec hsmall).2.2]
  split
  · exact ⟨hsz,hkind,setHdrMarks_exact cfg.layout (hsz.symm ▸ hsmall)⟩
  · exact ⟨hsz,hkind,hkept⟩

theorem addLeaked_hdr {j p : Nat} (hj : j < objCount hd.hbSz) (hexact : Exact cfg.layout hd) :
    Recounted cfg.layout hd (addLeaked ans hd (j * markBitOffset cfg.layout hd.hbSz) p) := by
  unfold addLeaked
  split
  · exact ⟨markOnce_hbSz _ _,markOnce_hbObjKind _ _,markOnce_exact hj hexact⟩
  · exact ⟨rfl,rfl,hexact⟩

theorem reclaimCheck_hdr (cfg : Setup) (ans : Answers) (b : Nat) (hsmall : hd.hbSz ≤ maxObjBytes)
    (hexact : Exact cfg.layout hd) : Recounted cfg.layout hd (reclaimCheck cfg ans b hd hd.hbSz) := by
  apply sweepObjects_rule hd.hbSz_pos hsmall (fun _ (s : Pass Unit) => Recounted cfg.layout hd s.hdr)
    ⟨rfl,rfl,hexact⟩
  rintro k s hk ⟨hsz,hkind,hex⟩
  have hnext : b + k * hd.hbSz + hd.hbSz = b + (k + 1) * hd.hbSz := (objAt_succ b hd k).symm
  split
  · exact ⟨hnext,hsz,hkind,hex⟩
  · refine ⟨hnext,?_⟩
    have hleak := @addLeaked_hdr cfg ans s.hdr k (b + k * hd.hbSz) (by rwa [hsz,objCount_small hsmall]) hex
    rw [hsz] at hleak
    exact ⟨hleak.hbSz.trans hsz,hleak.hbObjKind.trans hkind,hleak.exact⟩

theorem taken_listed {q : Nat} (halign : hblkSize ∣ b) (hhdr : h.hdr b = some hd) (hsmall : hd.hbSz ≤ maxObjBytes)
    (hq : q ∈ ((taken cfg ans b hd).map (objAt b hd)).reverse) :
    Listed h hd.hbObjKind (bytesToGranules hd.hbSz) q ∧ hblkPtr q = b := by
  obtain ⟨j,hj,rfl⟩ := mem_map.mp (mem_reverse.mp hq)
  have hlt : j < hblkObjs hd.hbSz := mem_range.mp (mem_of_mem_filter hj)
  exact ⟨listed_objAt halign hhdr hsmall hlt,hblkPtr_objAt halign (by rwa [objCount_small hsmall])⟩

theorem Sound.sweep (hs : Sound cfg Z h) (hhdr : h.hdr b = some hd) (hsmall : hd.hbSz ≤ maxObjBytes) (hz : Z b)
    (hused : taken cfg ans b hd ≠ [] → h.kindUsed hd.hbObjKind = true) :
    Sound cfg Z ((h.setHdr b (sweepInto cfg ans h b hd).hdr).setFreelist hd.hbObjKind (bytesToGranules hd.hbSz)
      (sweepInto cfg ans h b hd).free) := by
  have halign := hs.aligned b hd hhdr
  have hswept := sweepInto_hdr cfg ans h b hsmall (hs.exact b hd hhdr)
  apply (hs.recount hhdr hswept).setFreelist
  intro q hq
  rw [(sweepInto_spec hsmall).1,mem_append] at hq
  rcases hq with hq | hq
  · obtain ⟨hlisted,hptr⟩ := taken_listed halign hhdr hsmall hq
    refine .inr ⟨hlisted.stays ?_,hptr.symm ▸ hz,hused ?_⟩
    · rw [hptr]
      intro hd₀ hhdr₀ _
      obtain rfl : hd = hd₀ := Option.some.inj (hhdr.symm.trans hhdr₀)
      exact ⟨_,if_pos rfl,hswept.hbSz,hswept.hbObjKind⟩
    · intro hnone
      simp [hnone] at hq
  · exact .inl hq

theorem Sound.reclaimSmallNonemptyBlock (hs : Sound cfg Z h) {report : Bool} (hhdr : h.hdr b = some hd)
    (hsmall : hd.hbSz ≤ maxObjBytes) (hz : report = false → Z b ∧ h.kindUsed hd.hbObjKind = true) :
    Sound cfg Z (reclaimSmallNonemptyBlock cfg ans h b report) := by
  have hexact := hs.exact b hd hhdr
  unfold Reclaim.reclaimSmallNonemptyBlock
  rw [hhdr]
  cases report with
  | true => exact hs.recount hhdr (reclaimCheck_hdr cfg ans b hsmall hexact)
  | false =>
    obtain ⟨hin,hused⟩ := hz rfl
    exact (hs.sweep hhdr hsmall hin fun _ => hused).bytesFound _

theorem reclaimBlock_other {report : Bool} {c : Nat} (hne : c ≠ b) :
    (reclaimBlock cfg ans h b report).hdr c = h.hdr c := by
  unfold reclaimBlock reclaimLarge Reclaim.reclaimSmallNonemptyBlock disclaimAndReclaimOrFreeSmallBlock enqueue
  unfold Heap.setFreelist Heap.freehblk Heap.setHdr
  split
  · rfl
  · dsimp only
    split_ifs <;> simp [hne]

theorem reclaimBlock_kindUsed {report : Bool} : (reclaimBlock cfg ans h b report).kindUsed = h.kindUsed := by
  unfold reclaimBlock reclaimLarge Reclaim.reclaimSmallNonemptyBlock disclaimAndReclaimOrFreeSmallBlock enqueue
  unfold Heap.setFreelist Heap.freehblk Heap.setHdr
  split
  · rfl
  · dsimp only
    split_ifs <;> rfl

theorem Sound.reclaimLarge (hs : Sound cfg Z h) {report : Bool} (hhdr : h.hdr b = some hd)
    (hlarge : hd.hbSz > maxObjBytes)
    (hkeeps : report = false → hd.hasDisclaim = true → hd.hbMarks 0 = false → ans.refuses b = false) :
    Sound cfg Z (reclaimLarge ans h b hd report) := by
  have hexact := hs.exact b hd hhdr
  unfold Reclaim.reclaimLarge
  split_ifs with hmark hreport href
  · exact hs
  · have hzero := @addLeaked_hdr cfg ans hd 0 b (objCount_pos hd) hexact
    rw [Nat.zero_mul] at hzero
    exact hs.recount hhdr hzero
  · simp only [Bool.and_eq_true] at href
    have hno := hkeeps (by simpa using hreport) href.1 (by simpa using hmark)
    rw [hno] at href
    exact absurd href.2 (by decide)
  · apply (hs.bytesFound _).freehblk
    intro _ hd₀ hhdr₀
    obtain rfl : hd = hd₀ := Option.some.inj (hhdr.symm.trans hhdr₀)
    exact hlarge

theorem Sound.enqueue (hs : Sound cfg Z h) (hhdr : h.hdr b = some hd) (hsmall : hd.hbSz ≤ maxObjBytes) :
    Sound cfg (fun c => Z c ∨ c = b) (enqueue h b hd) := by
  unfold Reclaim.enqueue
  split
  · next hused =>
    refine hs.onLists (fun _ hz => .inl hz) rfl rfl (fun _ _ _ h => .inl h) fun k l c hc => ?_
    dsimp only at hc
    split at hc
    · next heq =>
      obtain ⟨rfl,rfl⟩ := heq
      rcases mem_cons.mp hc with rfl | hc
      · exact .inr ⟨⟨hd,hhdr,hsmall,rfl,rfl⟩,.inr rfl,hused⟩
      · exact .inl hc
    · exact .inl hc
  · exact hs.mono fun _ hz => .inl hz

theorem Sound.reclaimBlock_report (hs : Sound cfg Z h) (ans : Answers) (b : Nat) :
    Sound cfg Z (reclaimBlock cfg ans h b true) := by
  unfold reclaimBlock
  cases hhdr : h.hdr b with
  | none => exact hs
  | some hd =>
    dsimp only
    split
    · next hlarge => exact hs.reclaimLarge hhdr hlarge fun hreport => by cases hreport
    · exact hs.reclaimSmallNonemptyBlock hhdr (by omega) fun hreport => by cases hreport

theorem refills_of_kept (hsmall : hd.hbSz ≤ maxObjBytes) (hempty : blockEmpty hd = true)
    (hkept : (sweepInto cfg ans h b hd).hdr.hbNMarks ≠ 0) (htaken : taken cfg ans b hd ≠ []) :
    Refills cfg ans b hd := by
  refine ⟨hempty,htaken,?_⟩
  by_contra hnone
  simp only [not_or,not_not,Bool.not_eq_true] at hnone
  rw [(sweepInto_spec hsmall).2.2,hnone.1,hnone.2] at hkept
  exact hkept (by simpa [blockEmpty,resurrect] using hempty)

theorem Sound.reclaimBlock_sweep (hs : Sound cfg Z h) (hout : ¬ Z b) (hharm : SweptHarmless cfg ans h b) :
    Sound cfg (fun c => Z c ∨ c = b) (reclaimBlock cfg ans h b false) := by
  unfold reclaimBlock
  cases hhdr : h.hdr b with
  | none => exact hs.mono fun _ hz => .inl hz
  | some hd =>
    dsimp only
    by_cases hlarge : hd.hbSz > maxObjBytes
    · rw [if_pos hlarge]
      have hkept : Sound cfg Z (Reclaim.reclaimLarge ans h b hd false) :=
        hs.reclaimLarge hhdr hlarge fun _ hdis hmark => (hharm hd hhdr hdis).1 hlarge hmark
      exact hkept.mono fun _ hz => .inl hz
    · have hsmall : hd.hbSz ≤ maxObjBytes := by omega
      rw [if_neg hlarge]
      simp only [Bool.false_eq_true,if_false]
      by_cases hempty : blockEmpty hd = true
      · rw [if_pos hempty]
        by_cases hdis : hd.hasDisclaim = true
        · rw [if_pos hdis]
          have hswept := sweepInto_hdr cfg ans h b hsmall (hs.exact b hd hhdr)
          unfold disclaimAndReclaimOrFreeSmallBlock
          dsimp only
          split
          · next hkept =>
            have hmore : Sound cfg (fun c => Z c ∨ c = b) h := hs.mono fun _ hz => .inl hz
            have hused := fun htaken => (hharm hd hhdr hdis).2 hsmall (refills_of_kept hsmall hempty hkept htaken)
            exact (hmore.sweep hhdr hsmall (.inr rfl) hused).bytesFound _
          · have hset := (hs.recount hhdr hswept).bytesFound ((sweepInto cfg ans h b hd).count + hblkSize)
            exact (hset.freehblk fun hz => absurd hz hout).mono fun _ hz => .inl hz
        · rw [if_neg hdis]
          exact ((hs.bytesFound _).freehblk fun hz => absurd hz hout).mono fun _ hz => .inl hz
      · rw [if_neg hempty]
        split
        · exact hs.enqueue hhdr hsmall
        · exact hs.mono fun _ hz => .inl hz

/-- The walk over the blocks not yet visited keeps the invariant, with listed members only in
blocks it has passed. -/
theorem Sound.sweepAll {order : List Nat} (hs : Sound cfg Z h) (hnodup : order.Nodup) (hout : ∀ b ∈ order, ¬ Z b)
    (hharm : ∀ b ∈ order, SweptHarmless cfg ans h b) :
    Sound cfg (fun _ => True) (order.foldl (fun h b => reclaimBlock cfg ans h b false) h) := by
  induction order generalizing h Z with
  | nil => exact hs.mono fun _ _ => trivial
  | cons b order ih =>
    rw [nodup_cons] at hnodup
    rw [foldl_cons]
    have hstep := hs.reclaimBlock_sweep (hout b mem_cons_self) (hharm b mem_cons_self)
    have hother : ∀ c ∈ order, c ≠ b := fun c hc hcb => hnodup.1 (hcb ▸ hc)
    refine ih hstep hnodup.2 (fun c hc hz => ?_) fun c hc hd hhdr hdis => ?_
    · rcases hz with hz | hz
      · exact hout c (mem_cons_of_mem b hc) hz
      · exact hother c hc hz
    · rw [reclaimBlock_other (hother c hc)] at hhdr
      rw [reclaimBlock_kindUsed]
      exact hharm c (mem_cons_of_mem b hc) hd hhdr hdis

theorem Sound.reportAll (hs : Sound cfg Z h) (ans : Answers) (order : List Nat) :
    Sound cfg Z (order.foldl (fun h b => reclaimBlock cfg ans h b true) h) := by
  induction order generalizing h with
  | nil => exact hs
  | cons b order ih => exact ih (hs.reclaimBlock_report ans b)

end Sweeps

section Runs

variable {cfg : Setup} {ans : Answers} {Z : Nat → Prop} {h : Heap} {b q : Nat} {hd : Hdr}

theorem markBitNo_object (L : Layout) {j : Nat} (hq : q = objAt (hblkPtr q) hd j) :
    markBitNo L (q - hblkPtr q) hd.hbSz = j * markBitOffset L hd.hbSz := by
  have hoff : q - hblkPtr q = j * hd.hbSz := by
    unfold objAt at hq
    omega
  rw [hoff,markBitNo_obj]

section

variable (hs : Sound cfg Z h) (hq : IsObject h q)
include hs hq

theorem Sound.onObject (f : Hdr → Nat → Hdr)
    (hf : ∀ hd j, j < objCount hd.hbSz → Exact cfg.layout hd →
      Recounted cfg.layout hd (f hd (j * markBitOffset cfg.layout hd.hbSz))) :
    Sound cfg Z (onHdr h q fun hd => f hd (markBitNo cfg.layout (q - hblkPtr q) hd.hbSz)) := by
  obtain ⟨hd,hhdr,j,hj,hobj⟩ := hq
  unfold onHdr
  rw [hhdr]
  dsimp only
  rw [markBitNo_object cfg.layout hobj]
  exact hs.recount hhdr (hf hd j hj (hs.exact _ hd hhdr))

theorem Sound.setMarkBit : Sound cfg Z (setMarkBit cfg h q) :=
  hs.onObject hq markOnce fun _ _ hj hex => ⟨markOnce_hbSz _ _,markOnce_hbObjKind _ _,markOnce_exact hj hex⟩

theorem Sound.clearMarkBit : Sound cfg Z (clearMarkBit cfg h q) :=
  hs.onObject hq unmarkOnce fun _ _ hj hex => ⟨unmarkOnce_hbSz _ _,unmarkOnce_hbObjKind _ _,unmarkOnce_exact hj hex⟩

end

theorem Listed.isObject {k lg : Nat} (hl : Listed h k lg q) : IsObject h q := by
  obtain ⟨hd,hhdr,hsmall,-,-,j,hj,hq⟩ := hl
  exact ⟨hd,hhdr,j,by rwa [objCount_small hsmall],hq⟩

theorem onHdr_freelist (h : Heap) (q : Nat) (f : Hdr → Hdr) : (onHdr h q f).freelist = h.freelist := by
  unfold onHdr
  split <;> rfl

theorem Sound.alongList {k lg : Nat} {qs : List Nat} {f : Heap → Nat → Heap} (hs : Sound cfg Z h)
    (hqs : ∀ q ∈ qs, q ∈ h.freelist k lg) (hf : ∀ h q, Sound cfg Z h → IsObject h q → Sound cfg Z (f h q))
    (hfree : ∀ h q, (f h q).freelist = h.freelist) : Sound cfg Z (qs.foldl f h) := by
  induction qs generalizing h with
  | nil => exact hs
  | cons q qs ih =>
    rw [foldl_cons]
    apply ih (hf h q hs (hs.free k lg q (hqs q mem_cons_self)).1.isObject)
    intro q' hq'
    rw [hfree]
    exact hqs q' (mem_cons_of_mem q hq')

theorem Sound.clearMarks (hs : Sound cfg Z h) : Sound cfg Z (clearMarks cfg h) := by
  refine hs.onHdrs _ (fun c _ hd hc _ => ?_) fun c hd' hc => ?_
  · refine ⟨if isUncollectable hd.hbObjKind then hd else clearHdrMarks cfg.layout hd,?_,?_⟩
    · simp [hc]
    · split <;> exact ⟨rfl,rfl⟩
  · obtain ⟨hd,hhdr,rfl⟩ := Option.map_eq_some_iff.mp hc
    refine .inr ⟨?_,hs.aligned c hd hhdr⟩
    split
    · exact hs.exact c hd hhdr
    · exact clearHdrMarks_exact cfg.layout hd

theorem newHeader_exact (sz : ObjSize) (kind : Nat) (dis : Bool) (hsmall : sz.bytes ≤ maxObjBytes) :
    Exact cfg.layout (newHeader cfg sz kind dis) := by
  unfold newHeader
  dsimp only
  split
  · exact setHdrMarks_exact cfg.layout hsmall
  · exact clearHdrMarks_exact _ _

theorem newHeader_fields (cfg : Setup) (sz : ObjSize) (kind : Nat) (dis : Bool) :
    (newHeader cfg sz kind dis).hbSz = sz.bytes ∧ (newHeader cfg sz kind dis).hbObjKind = kind := by
  unfold newHeader
  dsimp only
  split <;> exact ⟨rfl,rfl⟩

theorem exact_large (L : Layout) (hlarge : hd.hbSz > maxObjBytes) :
    Exact L hd ↔ hd.hbNMarks = if hd.hbMarks 0 then 1 else 0 := by
  have hcount : markedObjs L hd = if hd.hbMarks 0 then 1 else 0 := by
    unfold markedObjs objCount
    rw [if_pos hlarge]
    simp [marked]
  unfold Exact
  rw [hcount]

theorem hblkPtr_of_dvd (hdvd : hblkSize ∣ b) : hblkPtr b = b := Nat.div_mul_cancel hdvd

theorem Sound.pin (hs : Sound cfg Z h) (hhdr : h.hdr b = some hd) (hlarge : hd.hbSz > maxObjBytes) :
    Sound cfg Z (onHdr h b fun hd => { setMarkBitFromHdr hd 0 with hbNMarks := 1 }) := by
  unfold onHdr
  rw [hblkPtr_of_dvd (hs.aligned b hd hhdr),hhdr]
  refine hs.setHdr hhdr (fun _ => ⟨rfl,rfl⟩) ?_
  rw [exact_large]
  · rfl
  · exact hlarge

theorem Sound.resize (hs : Sound cfg Z h) {sz : ObjSize} (hhdr : h.hdr b = some hd) (hlarge : hd.hbSz > maxObjBytes)
    (hsz : sz.bytes > maxObjBytes) : Sound cfg Z (onHdr h b fun hd => resize hd sz) := by
  unfold onHdr
  rw [hblkPtr_of_dvd (hs.aligned b hd hhdr),hhdr]
  refine hs.setHdr hhdr (fun hsmall => by omega) ?_
  rw [exact_large cfg.layout (show (MarkCounts.resize hd sz).hbSz > maxObjBytes from hsz)]
  exact (exact_large cfg.layout hlarge).mp (hs.exact b hd hhdr)

theorem Sound.popPending (hs : Sound cfg Z h) (kind lg : Nat) : Sound cfg Z (popPending h kind lg) := by
  refine hs.onLists (fun _ h => h) rfl rfl (fun _ _ _ h => .inl h) fun k l b hb => .inl ?_
  unfold MarkCounts.popPending at hb
  dsimp only at hb
  split at hb
  · exact mem_of_mem_tail hb
  · exact hb

theorem Sound.sweepMany (hs : Sound cfg Z h) (hhdr : h.hdr b = some hd) (hsmall : hd.hbSz ≤ maxObjBytes) :
    Sound cfg Z (sweepMany cfg ans h b) := by
  unfold MarkCounts.sweepMany
  rw [hhdr]
  have hswept := sweepInto_hdr cfg ans { h with freelist := fun _ _ => [], bytesFound := 0 } b hsmall
    (hs.exact b hd hhdr)
  exact (hs.recount hhdr hswept).bytesFound _

section

variable (hs : Sound cfg (fun _ => True) h)
include hs

theorem Sound.newHblk {sz : ObjSize} {kind : Nat} {dis : Bool}
    (hnone : h.hdr b = none) (halign : hblkSize ∣ b) (hsmall : sz.bytes ≤ maxObjBytes)
    (hused : h.kindUsed kind = true) : Sound cfg (fun _ => True) (apply cfg h (.newHblk b sz kind dis)) := by
  obtain ⟨hsz,hkind⟩ := newHeader_fields cfg sz kind dis
  apply (hs.newBlock hnone halign (newHeader_exact sz kind dis hsmall)).setFreelist
  intro q hq
  unfold freshObjs bytesToGranules at hq
  rw [Nat.mul_div_cancel' sz.granule_dvd,mem_append,mem_reverse,mem_map] at hq
  rcases hq with ⟨j,hj,rfl⟩ | hq
  · have hlisted := @listed_objAt (h.setHdr b (newHeader cfg sz kind dis)) b (newHeader cfg sz kind dis) halign
      (if_pos rfl) (hsz ▸ hsmall) j (hsz ▸ mem_range.mp hj)
    unfold objAt at hlisted
    rw [hsz,hkind] at hlisted
    exact .inr ⟨hlisted,trivial,hused⟩
  · exact .inl hq

theorem Sound.freeInternal (hq : IsObject h q)
    (hused : ∀ hd, h.hdr (hblkPtr q) = some hd → hd.hbSz ≤ maxObjBytes → h.kindUsed hd.hbObjKind = true) :
    Sound cfg (fun _ => True) (freeInternal cfg h q) := by
  have hmarked := hs.setMarkBit hq
  obtain ⟨hd,hhdr,j,hj,hobj⟩ := hq
  unfold MarkCounts.freeInternal
  rw [hhdr]
  dsimp only
  split
  · next hsmall =>
    rw [objCount_small hsmall] at hj
    have hlisted : Listed h hd.hbObjKind (bytesToGranules hd.hbSz) q := ⟨hd,hhdr,hsmall,rfl,rfl,j,hj,hobj⟩
    split
    · apply hmarked.setFreelist
      intro q' hq'
      rcases mem_cons.mp hq' with rfl | hq'
      · refine .inr ⟨hlisted.stays ?_,trivial,?_⟩
        · intro hd₀ hhdr₀ _
          unfold MarkCounts.setMarkBit onHdr
          rw [hhdr₀]
          exact ⟨_,if_pos rfl,markOnce_hbSz _ _,markOnce_hbObjKind _ _⟩
        · unfold MarkCounts.setMarkBit onHdr
          rw [hhdr]
          exact hused hd hhdr hsmall
      · exact .inl hq'
    · apply hs.setFreelist
      intro q' hq'
      rcases mem_cons.mp hq' with rfl | hq'
      · exact .inr ⟨hlisted,trivial,hused hd hhdr hsmall⟩
      · exact .inl hq'
  · next hlarge =>
    apply hs.freehblk
    intro _ hd₀ hhdr₀
    obtain rfl : hd = hd₀ := Option.some.inj (hhdr.symm.trans hhdr₀)
    omega

theorem Sound.startReclaim {report : Bool} {order : List Nat} {n : Nat}
    (hen : Enabled h (.startReclaim report ans order n)) (hharm : Harmless cfg h (.startReclaim report ans order n)) :
    Sound cfg (fun _ => True) (apply cfg h (.startReclaim report ans order n)) := by
  have hreclaim : ∀ k lg, (clearLists h report).reclaimList k lg = [] := by
    intro k lg
    unfold clearLists
    dsimp only
    split
    · rfl
    · next hunused =>
      by_contra hne
      obtain ⟨b,hb⟩ := exists_mem_of_ne_nil _ hne
      exact hunused (hs.pending k lg b hb).2.2
  cases report with
  | true =>
    have hcleared : Sound cfg (fun _ => True) (clearLists h true) := by
      refine hs.onLists (fun _ h => h) rfl rfl (fun k lg q hq => .inl ?_) fun k lg b hb => ?_
      · simpa [clearLists] using hq
      · rw [hreclaim] at hb
        cases hb
    exact hcleared.reportAll ans _
  | false =>
    have hcleared : Sound cfg (fun _ => False) (clearLists h false) := by
      refine ⟨hs.exact,hs.aligned,fun k lg q hq => ?_,fun k lg b hb => ?_⟩
      · unfold clearLists at hq
        dsimp only at hq
        split at hq
        · cases hq
        · next hunused => exact absurd (hs.free k lg q hq).2.2 (by simpa using hunused)
      · rw [hreclaim] at hb
        cases hb
    exact hcleared.sweepAll (hen.1.sublist (take_sublist n order)) (fun _ _ h => h) (hharm rfl)

/-- Every operation that meets the condition keeps the invariant. -/
theorem Sound.apply {op : Op} (hen : Enabled h op) (hharm : Harmless cfg h op) :
    Sound cfg (fun _ => True) (apply cfg h op) := by
  cases op with
  | useKind kind =>
    refine hs.update (fun _ h => h) (fun _ _ => Stays.of_eq rfl) (fun _ _ h => .inl h) (fun k hk => ?_)
      (fun _ _ _ h => .inl h) fun _ _ _ h => .inl h
    simp [MarkCounts.apply,hk]
  | newHblk hbp sz kind dis => exact hs.newHblk hen.1 hen.2.1 hen.2.2.1 hen.2.2.2
  | newMany hbp sz kind dis => exact hs.newBlock hen.1 hen.2.1 (newHeader_exact sz kind dis hen.2.2)
  | allocLarge hbp sz kind dis => exact hs.newBlock hen.1 hen.2 (clearHdrMarks_exact _ _)
  | pin hbp =>
    obtain ⟨hd,hhdr,hlarge⟩ := hen
    exact hs.pin hhdr hlarge
  | take kind lg i => exact hs.setFreelist fun q hq => .inl (mem_of_mem_eraseIdx hq)
  | takeMany kind lg n => exact hs.setFreelist fun q hq => .inl (mem_of_mem_drop hq)
  | free q => exact hs.freeInternal hen hharm
  | realloc hbp sz =>
    obtain ⟨hsz,hd,hhdr,hlarge⟩ := hen
    exact hs.resize hhdr hlarge hsz
  | setMarkBit q => exact hs.setMarkBit hen
  | clearMarkBit q => exact hs.clearMarkBit hen
  | clearMarks => exact hs.clearMarks
  | setFlMarks kind lg n =>
    exact hs.alongList (fun q hq => mem_of_mem_take hq) (fun h q hs hq => hs.setMarkBit hq)
      fun h q => onHdr_freelist h q _
  | clearFlMarks kind lg n =>
    exact hs.alongList (fun q hq => mem_of_mem_take hq) (fun h q hs hq => (hs.clearMarkBit hq).bytesFound _)
      fun h q => onHdr_freelist h q _
  | startReclaim report ans order n => exact hs.startReclaim hen hharm
  | sweepPending kind lg ans =>
    have hpop := hs.popPending kind lg
    simp only [MarkCounts.apply]
    cases hlist : h.reclaimList kind lg with
    | nil => exact hs
    | cons b rest =>
      obtain ⟨⟨hd,hhdr,hsmall,-,rfl⟩,-,hused⟩ := hs.pending kind lg b (hlist ▸ mem_cons_self)
      exact hpop.reclaimSmallNonemptyBlock hhdr hsmall fun _ => ⟨trivial,hused⟩
  | sweepMany kind lg ans =>
    have hpop := hs.popPending kind lg
    simp only [MarkCounts.apply]
    cases hlist : h.reclaimList kind lg with
    | nil => exact hs
    | cons b rest =>
      obtain ⟨⟨hd,hhdr,hsmall,-,rfl⟩,-,hused⟩ := hs.pending kind lg b (hlist ▸ mem_cons_self)
      exact hpop.sweepMany hhdr hsmall
  | dropPending kind lg => exact hs.popPending kind lg

end

theorem reaches_sound (hr : Reaches cfg (Harmless cfg) h) : Sound cfg (fun _ => True) h := by
  induction hr with
  | start =>
    refine ⟨?_,?_,?_,?_⟩ <;> simp
  | step _ hen hharm ih => exact ih.apply hen hharm

/-- In every state of a run in which no callback refuses an unmarked large object and no free or
sweep of an empty block fills a free list of a kind without reclaim lists, the count in the header of each block in use
is the number of its marked objects. -/
theorem reaches_exact (cfg : Setup) (h : Heap) (hr : Reaches cfg (Harmless cfg) h) (b : Nat) (hd : Hdr)
    (hhdr : h.hdr b = some hd) : hd.hbNMarks = markedObjs cfg.layout hd :=
  (reaches_sound hr).exact b hd hhdr

def pageSize : ObjSize := ⟨4096, by decide, by decide⟩

def pageHeap (hd : Hdr) : Heap :=
  ⟨fun b => if b = 4096 then some hd else none, fun _ _ => [], fun _ => false, fun _ _ => [], 0⟩

theorem reaches_exact_marked :
    ∃ h hd, Reaches plainSetup (Harmless plainSetup) h ∧ h.hdr 4096 = some hd ∧ hd.hbNMarks = 1 ∧
      hd.hbNMarks = markedObjs plainSetup.layout hd := by
  have hfresh : Reaches plainSetup (Harmless plainSetup) (pageHeap (setupHeader plainSetup pageSize 4 true)) :=
    @Reaches.step _ _ _ (.allocLarge 4096 pageSize 4 true) .start ⟨rfl,by decide⟩ trivial
  have hmarked := @Reaches.step _ _ _ (.setMarkBit 4096) hfresh ⟨_,rfl,0,by decide,rfl⟩ trivial
  exact ⟨_,_,hmarked,rfl,rfl,reaches_exact plainSetup _ hmarked 4096 _ rfl⟩

/-- The callback refuses a large object: its mark is set and the count stays at zero. -/
theorem refusal_uncounted :
    ∃ h hd, Reaches plainSetup (fun _ _ => True) h ∧ h.hdr 4096 = some hd ∧ hd.hbNMarks = 0 ∧
      markedObjs plainSetup.layout hd = 1 := by
  have hfresh : Reaches plainSetup (fun _ _ => True) (pageHeap (setupHeader plainSetup pageSize 4 true)) :=
    @Reaches.step _ _ _ (.allocLarge 4096 pageSize 4 true) .start ⟨rfl,by decide⟩ trivial
  have hswept := @Reaches.step _ _ _ (.startReclaim false ⟨fun _ => true,fun _ => false⟩ [4096] 1) hfresh
    ⟨by decide,fun b => by by_cases hb : b = 4096 <;> simp [pageHeap,hb]⟩ trivial
  exact ⟨_,_,hswept,rfl,rfl,by decide +kernel⟩

theorem foldl_reclaimBlock_other {report : Bool} {order : List Nat} (hb : b ∉ order) :
    (order.foldl (fun h c => reclaimBlock cfg ans h c report) h).hdr b = h.hdr b := by
  induction order generalizing h with
  | nil => rfl
  | cons c order ih =>
    rw [mem_cons,not_or] at hb
    rw [foldl_cons,ih hb.2,reclaimBlock_other hb.1]

theorem foldl_reclaimBlock_visited {report : Bool} {order : List Nat} (hnodup : order.Nodup) (hb : b ∈ order) :
    ∃ h', h'.hdr b = h.hdr b ∧ (order.foldl (fun h c => reclaimBlock cfg ans h c report) h).hdr b =
      (reclaimBlock cfg ans h' b report).hdr b := by
  induction order generalizing h with
  | nil => cases hb
  | cons c order ih =>
    rw [nodup_cons] at hnodup
    rw [foldl_cons]
    rcases mem_cons.mp hb with rfl | hmem
    · exact ⟨h,rfl,foldl_reclaimBlock_other hnodup.1⟩
    · obtain ⟨h',hsame,hrest⟩ := ih (h := reclaimBlock cfg ans h c report) hnodup.2 hmem
      exact ⟨h',hsame.trans (reclaimBlock_other fun hbc => hnodup.1 (hbc ▸ hmem)),hrest⟩

theorem reclaimBlock_frees (report : Bool) (hhdr : h.hdr b = some hd) (hexact : Exact cfg.layout hd) :
    ((reclaimBlock cfg ans h b report).hdr b = none → hd.hbNMarks = 0) ∧
      (report = false → hd.hasDisclaim = false → hd.hbNMarks = 0 → (reclaimBlock cfg ans h b report).hdr b = none) := by
  unfold reclaimBlock
  rw [hhdr]
  dsimp only
  split
  · next hlarge =>
    rw [(exact_large cfg.layout hlarge).mp hexact]
    unfold Reclaim.reclaimLarge
    cases hd.hbMarks 0 with
    | true => simp [hhdr]
    | false =>
      refine ⟨fun _ => rfl,fun hreport hdis _ => ?_⟩
      simp [hreport,hdis,Heap.freehblk]
  · cases report with
    | true => simp [Reclaim.reclaimSmallNonemptyBlock,hhdr,Heap.setHdr]
    | false =>
      by_cases hempty : hd.hbNMarks = 0
      · refine ⟨fun _ => hempty,fun _ hdis _ => ?_⟩
        simp [blockEmpty,hempty,hdis,Heap.freehblk]
      · have hstays : (Reclaim.enqueue h b hd).hdr b = some hd := by
          unfold Reclaim.enqueue
          split <;> exact hhdr
        simp only [blockEmpty,hempty,beq_iff_eq,if_false,Bool.false_eq_true]
        split <;> simp [hstays,hhdr]

/-- `GC_start_reclaim` takes a block out of use only if none of its objects is marked, and does so
if it comes to the block, reports no leaks and no callback is to be asked. -/
theorem startReclaim_frees (cfg : Setup) (h : Heap) (hr : Reaches cfg (Harmless cfg) h) (report : Bool) (ans : Answers)
    (order : List Nat) (n : Nat) (hen : Enabled h (.startReclaim report ans order n)) (b : Nat) (hd : Hdr)
    (hhdr : h.hdr b = some hd) :
    ((apply cfg h (.startReclaim report ans order n)).hdr b = none → markedObjs cfg.layout hd = 0) ∧
      (report = false → hd.hasDisclaim = false → b ∈ order.take n → markedObjs cfg.layout hd = 0 →
        (apply cfg h (.startReclaim report ans order n)).hdr b = none) := by
  have hexact := (reaches_sound hr).exact b hd hhdr
  rw [← show hd.hbNMarks = markedObjs cfg.layout hd from hexact]
  unfold apply
  dsimp only
  by_cases hb : b ∈ order.take n
  · obtain ⟨h',hsame,hvisit⟩ := @foldl_reclaimBlock_visited cfg ans (clearLists h report) b report _
      (hen.1.sublist (take_sublist n order)) hb
    have hfrees := @reclaimBlock_frees cfg ans h' b hd report (hsame.trans hhdr) hexact
    rw [hvisit]
    exact ⟨hfrees.1,fun hreport hdis _ => hfrees.2 hreport hdis⟩
  · rw [foldl_reclaimBlock_other hb]
    exact ⟨fun hnone => (by cases hnone.symm.trans hhdr),fun _ _ hmem => absurd hmem hb⟩

theorem startReclaim_frees_page : ∃ h hd, h.hdr 4096 = some hd ∧
    (apply plainSetup h (.startReclaim false ⟨fun _ => true, fun _ => false⟩ [4096] 1)).hdr 4096 = none := by
  have hfresh : Reaches plainSetup (Harmless plainSetup) (pageHeap (setupHeader plainSetup pageSize 4 false)) :=
    @Reaches.step _ _ _ (.allocLarge 4096 pageSize 4 false) .start ⟨rfl,by decide⟩ trivial
  exact ⟨_,_,rfl,(startReclaim_frees plainSetup _ hfresh false _ [4096] 1
    ⟨by decide,fun b => by by_cases hb : b = 4096 <;> simp [pageHeap,hb]⟩ 4096 _ rfl).2 rfl rfl (by decide)
    (by decide +kernel)⟩

end Runs

end GcUtil.Sweep.MarkCounts
