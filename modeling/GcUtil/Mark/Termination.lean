import GcUtil.Mark.Soundness

/-! Marking ends. Every call of `GC_mark_some` marks a new object, or goes on to a later
state of the machine, or comes closer to the end of the heap, or takes work off the mark
stack; an overflow that does none of the others comes with a newly marked object. -/
namespace GcUtil.Mark.Termination
open Basic Pointers Ranges Machine References Pushing Scanning Soundness Library.DiscardStack List

variable {cfg : Config}

section Measure

def Settles (w : World cfg) (e : Mse) : Prop :=
  formatted cfg e.mseStart = false ∧ (dsTag (realDescr w e.mseStart e.mseDescr) = .length ∨
    dsTag (realDescr w e.mseStart e.mseDescr) = .bitmap)

instance (w : World cfg) (e : Mse) : Decidable (Settles w e) := inferInstanceAs (Decidable (_ ∧ (_ ∨ _)))

/-- All there is to scan is described by lengths and bitmaps, and the bit past the last object
of a block is set. -/
structure Tame (s : State cfg) : Prop where
  entries : ∀ e ∈ s.markStack.entries, Settles s.world e
  objects : ∀ b ∈ s.world.table.blocks, ∀ o ∈ b.objs, Settles s.world ⟨b.entryStart o, b.descr⟩
  final : ∀ b ∈ s.world.table.blocks, b.Contains b.finalMark → s.marks b.finalMark = true

def unmarked (s : State cfg) : Nat :=
  (s.world.table.blocks.flatMap Block.objs).countP fun o => !s.marks o

def rank (s : State cfg) : Nat :=
  match s.markState with
  | .none => 0
  | .rootsPushed => 1
  | .partiallyInvalid => if s.objectsAreMarked then 2 else 5
  | .invalid => if s.objectsAreMarked then 3 else 5
  | .pushRescuers | .pushUncollectable => 4

def blocksAhead (s : State cfg) : Nat := s.world.table.blocks.countP fun b => decide (s.scanPtr ≤ b.start)

/-- The blocks the current scan of the heap has still to visit; `MS_INVALID` ends at `NULL`. -/
def ahead (s : State cfg) : Nat :=
  if s.markState = .invalid then if s.scanPtr = 0 then 0 else 1 + blocksAhead s else blocksAhead s

def descrWork (descr : Nat) : Nat := if dsTag descr = .length then descr + 1 else 1

def entryWork (w : World cfg) (e : Mse) : Nat :=
  (if dsTag e.mseDescr = .perObject then 1 else 0) + descrWork (realDescr w e.mseStart e.mseDescr)

def work (w : World cfg) (l : List Mse) : Nat := (l.map (entryWork w)).sum

def idle (l : List Mse) : Nat := (l.map fun e => if dsTag e.mseDescr = .perObject then 2 else 1).sum

def Closer (s' s : State cfg) : Prop :=
  unmarked s' < unmarked s ∨ unmarked s' = unmarked s ∧ (rank s' < rank s ∨ rank s' = rank s ∧
    (ahead s' < ahead s ∨ ahead s' = ahead s ∧
      work s'.world s'.markStack.entries < work s.world s.markStack.entries))

theorem closer_wf : WellFounded (@Closer cfg) := by
  have hlex : WellFounded (Prod.Lex (· < · : Nat → Nat → Prop) (Prod.Lex (· < · : Nat → Nat → Prop)
      (Prod.Lex (· < · : Nat → Nat → Prop) (· < · : Nat → Nat → Prop)))) :=
    Nat.lt_wfRel.wf.prod_lex (Nat.lt_wfRel.wf.prod_lex (Nat.lt_wfRel.wf.prod_lex Nat.lt_wfRel.wf))
  have hinv := InvImage.wf (fun s : State cfg =>
    (unmarked s, rank s, ahead s, work s.world s.markStack.entries)) hlex
  apply hinv.mono
  intro s' s h
  simpa [InvImage,Prod.lex_iff,Closer] using h

end Measure

section Marks

variable {s s' : State cfg} {b : Block} {o q : Nat}

theorem countP_lt {α : Type} {p p' : α → Bool} {l : List α} (hle : ∀ a ∈ l, p' a = true → p a = true) {a : α}
    (ha : a ∈ l) (hp : p a = true) (hp' : p' a = false) : l.countP p' < l.countP p := by
  induction l with
  | nil => cases ha
  | cons c l ih =>
    have hrest : l.countP p' ≤ l.countP p := countP_mono_left fun d hd => hle d (mem_cons_of_mem c hd)
    have hhead := hle c mem_cons_self
    rw [countP_cons,countP_cons]
    rcases mem_cons.mp ha with rfl | ha
    · simp only [hp,hp',if_true,Bool.false_eq_true,if_false]
      omega
    · have := ih (fun d hd => hle d (mem_cons_of_mem c hd)) ha
      split
      · rw [if_pos (hhead (by assumption))]
        omega
      · split <;> omega

theorem unmarked_setMark (hb : b ∈ s.world.table.blocks) (ho : o ∈ b.objs) (hclear : s.marks o = false) :
    unmarked (setMark o b s) < unmarked s := by
  refine countP_lt (fun p _ hp => ?_) (mem_flatMap.mpr ⟨b,hb,ho⟩) (by simp [hclear]) ?_
  · by_contra hno
    simp only [Bool.not_eq_true',Bool.not_eq_false] at hp hno
    rw [(setMark_marks o b s).mpr (.inr hno)] at hp
    cases hp
  · simp [(setMark_marks o b s).mpr (.inl rfl)]

theorem objBase_mem {check : Bool} (hok : b.Ok) (hq : b.Contains q) (h : objBase cfg b q check = some o) :
    o ∈ b.objs ∨ o = b.finalMark := by
  by_cases hlarge : maxObjBytes < b.sz
  · simp only [objBase,hlarge,if_true] at h
    split at h <;> cases h
    exact .inl ((Block.mem_objs_large hlarge).mpr rfl)
  · rw [objBase_small hok hq hlarge h]
    have hindex : q % hblkSize / b.sz ≤ hblkSize / b.sz :=
      Nat.div_le_div_right (Nat.mod_lt q (by decide)).le
    rcases Nat.lt_or_eq_of_le hindex with hlt | heq
    · exact .inl ((Block.mem_objs_small hlarge).mpr ⟨_,hlt,rfl⟩)
    · right
      rw [heq,Block.finalMark,if_neg hlarge]

def Finds (w : World cfg) (find : Nat → Option (Block × Nat)) : Prop :=
  ∀ q b o, find q = some (b, o) → w.table.blockAt o = some b ∧ (o ∈ b.objs ∨ o = b.finalMark)

theorem finds_of_filter {w : World cfg} {keep : Nat → Block → Bool} {check : Bool} :
    Finds w fun q => ((w.table.blockAt q).filter (keep q)).bind fun b =>
      (objBase cfg b q check).map fun o => (b, o) := by
  intro q b o h
  refine ⟨(target_blockAt rfl h).2,?_⟩
  simp only [Option.bind_eq_some_iff,Option.filter_eq_some_iff,Option.map_eq_some_iff,Prod.mk.injEq] at h
  obtain ⟨c,⟨hc,-⟩,p,hp,rfl,rfl⟩ := h
  have hmem := w.table.blockAt_some hc
  exact objBase_mem (w.table.ok c hmem.1).1 hmem.2 hp

theorem heapTarget_finds (w : World cfg) : Finds w (heapTarget w.table) := finds_of_filter

theorem clientTarget_finds (w : World cfg) : Finds w (clientTarget w.table) := finds_of_filter

theorem stackTarget_finds (w : World cfg) : Finds w (stackTarget w.table) := finds_of_filter

def Fresh (s s' : State cfg) : Prop := s' = s ∨ unmarked s' < unmarked s

theorem Fresh.trans {s'' : State cfg} (h : Fresh s s') (h' : Fresh s' s'') : Fresh s s'' := by
  rcases h with rfl | h
  · exact h'
  · rcases h' with rfl | h'
    · exact .inr h
    · exact .inr (h'.trans h)

theorem Tame.push {obj descr : Nat} (h : Tame s) (hsettles : Settles s.world ⟨obj, descr⟩) :
    Tame (msPushObjDescr obj descr s) := by
  obtain ⟨hw,hm,hstack⟩ := msPushObjDescr_stack obj descr s
  refine ⟨fun e he => ?_,?_,?_⟩
  · rw [hstack] at he
    rw [hw]
    rcases BoundedStack.mem_push he with rfl | he
    · exact hsettles
    · exact h.entries e he
  · rw [hw]
    exact h.objects
  · rw [hw,hm]
    exact h.final

theorem Tame.pushObj (h : Tame s) (hb : b ∈ s.world.table.blocks) (ho : o ∈ b.objs) :
    Tame (msPushObjHdr o b s) := by
  unfold msPushObjHdr
  split
  · exact h
  · exact h.push (h.objects b hb o ho)

theorem msPushObjDescr_unmarked (obj descr : Nat) (s : State cfg) :
    unmarked (msPushObjDescr obj descr s) = unmarked s := by
  obtain ⟨hw,hm,-⟩ := msPushObjDescr_stack obj descr s
  simp only [unmarked,hw,hm]

theorem msPushObjHdr_unmarked (obj : Nat) (b : Block) (s : State cfg) :
    unmarked (msPushObjHdr obj b s) = unmarked s := by
  unfold msPushObjHdr
  split
  · rfl
  · exact msPushObjDescr_unmarked _ _ s

theorem msPushContentsHdr_fresh (h : Tame s) (hb : s.world.table.blockAt o = some b)
    (ho : o ∈ b.objs ∨ o = b.finalMark) :
    Tame (msPushContentsHdr o b s) ∧ Fresh s (msPushContentsHdr o b s) := by
  have hmem := s.world.table.blockAt_some hb
  unfold msPushContentsHdr
  split
  · exact ⟨h,.inl rfl⟩
  · rename_i hclear
    have hclear : s.marks o = false := by simpa using hclear
    -- the bit of the last part of a block is set, so that it is never pushed
    have hobj : o ∈ b.objs := by
      refine ho.resolve_right fun hfinal => ?_
      have := h.final b hmem.1 (hfinal ▸ hmem.2)
      rw [← hfinal,hclear] at this
      cases this
    have hset : Tame (setMark o b s) :=
      ⟨h.entries,h.objects,fun c hc hin => (setMark_marks o b s).mpr (.inr (h.final c hc hin))⟩
    refine ⟨hset.pushObj hmem.1 hobj,.inr ?_⟩
    rw [msPushObjHdr_unmarked]
    exact unmarked_setMark hmem.1 hobj hclear

theorem pushWord_fresh {find : Nat → Option (Block × Nat)} (h : Tame s) (hfind : Finds s.world find) (q : Nat) :
    Tame (pushWord find s q) ∧ Fresh s (pushWord find s q) := by
  unfold pushWord
  split
  · split
    · exact ⟨h,.inl rfl⟩
    · rename_i b o hq
      exact msPushContentsHdr_fresh h (hfind q b o hq).1 (hfind q b o hq).2
  · exact ⟨h,.inl rfl⟩

theorem foldl_fresh {α : Type} {f : State cfg → α → State cfg} {l : List α} (h : Tame s)
    (hf : ∀ a ∈ l, ∀ s', s'.world = s.world → Tame s' →
      (f s' a).world = s'.world ∧ Tame (f s' a) ∧ Fresh s' (f s' a)) :
    Tame (l.foldl f s) ∧ Fresh s (l.foldl f s) := by
  induction l generalizing s with
  | nil => exact ⟨h,.inl rfl⟩
  | cons a l ih =>
    obtain ⟨hw,ht,hfresh⟩ := hf a mem_cons_self s rfl h
    have hrest := ih ht fun a' ha' s' hs' => hf a' (mem_cons_of_mem a ha') s' (hs'.trans hw)
    exact ⟨hrest.1,hfresh.trans hrest.2⟩

theorem pushWords_fresh {w : World cfg} {find : Nat → Option (Block × Nat)} (hworld : s.world = w) (h : Tame s)
    (hsound : Sound w find) (hfind : Finds w find) (qs : List Nat) :
    Tame (pushWords find s qs) ∧ Fresh s (pushWords find s qs) := by
  apply foldl_fresh h
  intro q _ s' hs' ht
  rw [← hworld,← hs'] at hsound hfind
  exact ⟨(pushWord_progress hsound).world,pushWord_fresh ht hfind q⟩

end Marks

section MarkFrom

variable {s s' : State cfg} {e : Mse} {rest : List Mse} {w : World cfg}

theorem idle_le (l : List Mse) : idle l ≤ 2 * l.length := by
  induction l with
  | nil => simp [idle]
  | cons e l ih =>
    simp only [idle,map_cons,sum_cons,length_cons] at ih ⊢
    split <;> omega

theorem entryWork_pos (w : World cfg) (e : Mse) : 0 < entryWork w e := by
  unfold entryWork descrWork
  split <;> split <;> omega

theorem Tame.replaceStack {st : BoundedStack Mse (markStackLimits cfg)} (h : Tame s)
    (hst : ∀ e ∈ st.entries, Settles s.world e) : Tame { s with markStack := st } :=
  ⟨hst,h.objects,h.final⟩

theorem Tame.popped (h : Tame s) : Tame { s with markStack := s.markStack.pop } :=
  h.replaceStack fun e he => h.entries e (mem_of_mem_tail he)

/-- What a turn of `GC_mark_from` does to the stack before it pushes anything. -/
structure Turned (s : State cfg) (st : BoundedStack Mse (markStackLimits cfg)) (result : State cfg × Nat) : Prop where
  size : st.size = s.markStack.size
  less : work s.world st.entries < work s.world s.markStack.entries
  tame : Tame result.1
  fresh : Fresh { s with markStack := st } result.1
  paid : 0 < result.2 ∨ result.1 = { s with markStack := st } ∧ idle st.entries < idle s.markStack.entries

theorem settles_realDescr (h : Settles w e) : Settles w ⟨e.mseStart, realDescr w e.mseStart e.mseDescr⟩ ∧
    dsTag (realDescr w e.mseStart e.mseDescr) ≠ .perObject := by
  have hne : dsTag (realDescr w e.mseStart e.mseDescr) ≠ .perObject := by
    rcases h.2 with h | h <;> simp [h]
  refine ⟨⟨h.1,?_⟩,hne⟩
  dsimp only
  rw [realDescr_of_ne hne]
  exact h.2

theorem settles_remainder (h : Settles w e) (htag : dsTag e.mseDescr = .length)
    (hlong : 8 * splitRangePtrs ≤ e.mseDescr) :
    Settles w (remainder e) ∧ entryWork w (remainder e) < entryWork w e := by
  have htag' : dsTag (remainder e).mseDescr = .length := by
    rw [dsTag_length] at htag ⊢
    unfold remainder splitRangePtrs at *
    dsimp only
    omega
  have hreal : realDescr w (remainder e).mseStart (remainder e).mseDescr = (remainder e).mseDescr :=
    realDescr_of_ne (by simp [htag'])
  refine ⟨⟨formatted_remainder h.1,.inl (by rw [hreal]; exact htag')⟩,?_⟩
  rw [entryWork,entryWork,hreal,realDescr_of_ne (by simp [htag]),descrWork,descrWork,htag,htag']
  simp only [if_true,remainder]
  unfold splitRangePtrs at *
  omega

section

variable (h : Tame s) (he : s.markStack.entries = e :: rest)
include h he

theorem Tame.replacedTop {part : Mse}
    (hpart : Settles s.world part) : Tame { s with markStack := s.markStack.replaceTop part } := by
  apply h.replaceStack
  intro e' he'
  rw [BoundedStack.replaceTop_entries he] at he'
  rcases mem_cons.mp he' with rfl | he'
  · exact hpart
  · apply h.entries
    rw [he]
    exact mem_cons_of_mem e he'

theorem Turned.pop (slots : List Nat) {cost : Nat}
    (hpaid : 0 < cost ∨ slots = []) :
    Turned s s.markStack.pop (scanSlots { s with markStack := s.markStack.pop } slots, cost) := by
  have hpush := pushWords_fresh (s := { s with markStack := s.markStack.pop }) rfl h.popped
    (heapTarget_sound s.world) (heapTarget_finds s.world) (slots.map s.world.mem)
  have hentry := entryWork_pos s.world e
  refine ⟨rfl,?_,hpush.1,hpush.2,hpaid.imp_right fun hnil => ⟨by rw [hnil]; rfl,?_⟩⟩
  · rw [BoundedStack.pop_entries,he]
    simp only [tail_cons,work,map_cons,sum_cons]
    omega
  · rw [BoundedStack.pop_entries,he]
    simp only [tail_cons,idle,map_cons,sum_cons]
    split <;> omega

theorem Turned.replace {part : Mse} (slots : List Nat)
    {cost : Nat} (hpart : Settles s.world part) (hwork : entryWork s.world part < entryWork s.world e)
    (hpaid : 0 < cost ∨ slots = [] ∧ dsTag e.mseDescr = .perObject ∧ dsTag part.mseDescr ≠ .perObject) :
    Turned s (s.markStack.replaceTop part)
      (scanSlots { s with markStack := s.markStack.replaceTop part } slots, cost) := by
  have hpush := pushWords_fresh (s := { s with markStack := s.markStack.replaceTop part }) rfl
    (h.replacedTop he hpart) (heapTarget_sound s.world) (heapTarget_finds s.world) (slots.map s.world.mem)
  refine ⟨rfl,?_,hpush.1,hpush.2,hpaid.imp_right fun ⟨hnil,hold,hnew⟩ => ⟨by rw [hnil]; rfl,?_⟩⟩
  · rw [BoundedStack.replaceTop_entries he,he]
    simp only [work,map_cons,sum_cons]
    omega
  · rw [BoundedStack.replaceTop_entries he,he]
    simp only [idle,map_cons,sum_cons,hold,hnew,if_true,if_false]
    omega

theorem markEntry_turned :
    ∃ st, Turned s st (markEntry s e) := by
  have hsettles : Settles s.world e := h.entries e (by rw [he]; exact mem_cons_self)
  have heq : markEntry s e = markDescribed s e := by
    rw [markEntry,hsettles.1]
    rfl
  rw [heq]
  cases htag : dsTag e.mseDescr with
  | length =>
    rcases Nat.lt_or_ge e.mseDescr 8 with hshort | hlow
    · rw [markDescribed_short htag hshort]
      exact ⟨_,Turned.pop h he [] (.inr rfl)⟩
    rcases Nat.lt_or_ge e.mseDescr (8 * splitRangePtrs) with hhigh | hlong
    · obtain ⟨slots,hturn,-⟩ := markDescribed_small (s := s) htag hlow hhigh
      rw [hturn]
      exact ⟨_,Turned.pop h he slots (.inl (by omega))⟩
    · rw [markDescribed_chunk htag hlong]
      obtain ⟨hpart,hwork⟩ := settles_remainder hsettles htag hlong
      exact ⟨_,Turned.replace h he _ hpart hwork (.inl (by decide))⟩
  | bitmap =>
    simp only [markDescribed,htag]
    exact ⟨_,Turned.pop h he _ (.inl (by decide))⟩
  | proc =>
    rcases hsettles.2 with hreal | hreal <;> rw [realDescr_of_ne (by simp [htag]),htag] at hreal <;> cases hreal
  | perObject =>
    have hreal : realDescr s.world e.mseStart e.mseDescr =
        perObjectDescr cfg s.world.mem e.mseStart e.mseDescr := if_pos htag
    obtain ⟨hpart,hne⟩ := settles_realDescr hsettles
    rw [hreal] at hpart hne
    simp only [markDescribed,htag]
    split
    · exact ⟨_,Turned.pop h he [] (.inr rfl)⟩
    · refine ⟨_,Turned.replace h he [] hpart ?_ (.inr ⟨rfl,htag,hne⟩)⟩
      rw [entryWork,entryWork,realDescr_of_ne hne,hreal,htag]
      simp [hne]

end

def Consumed (s s' : State cfg) : Prop :=
  unmarked s' < unmarked s ∨ ∃ st, s' = { s with markStack := st } ∧
    work s.world st.entries ≤ work s.world s.markStack.entries

theorem Consumed.le (h : Consumed s s') : unmarked s' ≤ unmarked s := by
  rcases h with h | ⟨st,rfl,-⟩
  · exact h.le
  · exact le_refl _

theorem Turned.consumed {st : BoundedStack Mse (markStackLimits cfg)} {result : State cfg × Nat}
    (h : Turned s st result) (h' : Consumed result.1 s') :
    unmarked s' < unmarked s ∨ ∃ st', s' = { s with markStack := st' } ∧
      work s.world st'.entries < work s.world s.markStack.entries := by
  rcases h.fresh with heq | hless
  · rw [heq] at h'
    rcases h' with h' | ⟨st',rfl,hle⟩
    · exact .inl h'
    · exact .inr ⟨st',rfl,lt_of_le_of_lt hle h.less⟩
  · exact .inl (lt_of_le_of_lt h'.le hless)

theorem potential_lt {credit : Int} {cost size left left' : Nat} (hcredit : 0 ≤ credit) (hleft : left' ≤ 2 * size)
    (h : 0 < cost ∨ left' < left) :
    (credit - cost + 1).toNat * (2 * size + 2) + left' < (credit + 1).toNat * (2 * size + 2) + left := by
  rcases Nat.eq_zero_or_pos cost with rfl | hcost
  · have hless : left' < left := h.resolve_left (lt_irrefl 0)
    simpa using hless
  · have hle : (credit - cost + 1).toNat + 1 ≤ (credit + 1).toNat := by omega
    have hmul := Nat.mul_le_mul_right (2 * size + 2) hle
    rw [Nat.add_mul] at hmul
    omega

def Enough (fuel : Nat) (credit : Int) (s : State cfg) : Prop :=
  (credit + 1).toNat * (2 * s.markStack.size + 2) + idle s.markStack.entries < fuel

theorem markLoop_turn {fuel : Nat} {credit : Int} (h : Tame s) (he : s.markStack.entries = e :: rest)
    (hcredit : 0 ≤ credit) (hfuel : Enough (fuel + 1) credit s)
    (hrest : ∀ (credit : Int) (s : State cfg), Tame s → Enough fuel credit s →
      ∃ s', markLoop fuel credit s = some s' ∧ Tame s' ∧ Consumed s s') :
    ∃ s', markLoop (fuel + 1) credit s = some s' ∧ Tame s' ∧ (unmarked s' < unmarked s ∨
      ∃ st, s' = { s with markStack := st } ∧ work s.world st.entries < work s.world s.markStack.entries) := by
  obtain ⟨st,hturn⟩ := markEntry_turned h he
  have hsize := (markEntry_progress he).size
  have hidle : idle (markEntry s e).1.markStack.entries ≤ 2 * s.markStack.size := by
    have hle := idle_le (markEntry s e).1.markStack.entries
    have hfits := (markEntry s e).1.markStack.fits
    rw [hsize] at hfits
    omega
  have hpaid : 0 < (markEntry s e).2 ∨ idle (markEntry s e).1.markStack.entries < idle s.markStack.entries :=
    hturn.paid.imp_right fun ⟨heq,hless⟩ => by
      rw [heq]
      exact hless
  have henough : Enough fuel (credit - (markEntry s e).2) (markEntry s e).1 := by
    have hnext := potential_lt hcredit hidle hpaid
    unfold Enough at *
    rw [hsize]
    omega
  obtain ⟨s',hrun,htame,hconsumed⟩ := hrest _ _ hturn.tame henough
  refine ⟨s',?_,htame,hturn.consumed hconsumed⟩
  rw [markLoop,he]
  dsimp only
  rw [if_neg (by omega)]
  exact hrun

theorem markLoop_ends {fuel : Nat} {credit : Int} (h : Tame s) (hfuel : Enough fuel credit s) :
    ∃ s', markLoop fuel credit s = some s' ∧ Tame s' ∧ Consumed s s' := by
  induction fuel generalizing credit s with
  | zero => exact absurd hfuel (Nat.not_lt_zero _)
  | succ fuel ih =>
    by_cases hcredit : credit < 0
    · refine ⟨s,?_,h,.inr ⟨_,rfl,le_refl _⟩⟩
      rw [markLoop]
      split
      · rfl
      · rw [if_pos hcredit]
    cases he : s.markStack.entries with
    | nil =>
      refine ⟨s,?_,h,.inr ⟨_,rfl,le_refl _⟩⟩
      rw [markLoop,he]
    | cons e rest =>
      obtain ⟨s',hrun,htame,hless⟩ := markLoop_turn h he (by omega) hfuel fun _ _ => ih
      refine ⟨s',hrun,htame,?_⟩
      rcases hless with hless | ⟨st,heq,hwork⟩
      · exact .inl hless
      · exact .inr ⟨st,heq,hwork.le⟩

theorem markFrom_ends (h : Tame s) (hne : s.markStack.entries ≠ []) :
    ∃ s', markFrom s = some s' ∧ Tame s' ∧ (unmarked s' < unmarked s ∨
      ∃ st, s' = { s with markStack := st, objectsAreMarked := true } ∧
        work s.world st.entries < work s.world s.markStack.entries) := by
  have hflag : Tame { s with objectsAreMarked := true } := ⟨h.entries,h.objects,h.final⟩
  obtain ⟨e,rest,he⟩ := exists_cons_of_ne_nil hne
  have hfuel : ∃ fuel, markFromFuel s.markStack.size = fuel + 1 :=
    Nat.exists_eq_succ_of_ne_zero (by unfold markFromFuel; positivity)
  obtain ⟨fuel,hfuel⟩ := hfuel
  have henough : Enough (fuel + 1) hblkSize { s with objectsAreMarked := true } := by
    have hidle := idle_le s.markStack.entries
    have hfits := s.markStack.fits
    have hcredit : ((hblkSize : Int) + 1).toNat = 4097 := rfl
    unfold Enough
    rw [← hfuel,markFromFuel,hcredit]
    dsimp only [hblkSize]
    omega
  unfold markFrom
  rw [hfuel]
  exact markLoop_turn hflag he (by decide) henough fun _ _ => markLoop_ends

end MarkFrom

section Blocks

variable {s s' : State cfg} {b : Block} {o : Nat}

/-- What pushing from a block or a range comes to: an object was marked, or only the stack has
changed; with room on the stack it has not overflowed. -/
structure Visited (n : Nat) (s s' : State cfg) : Prop where
  world : s'.world = s.world
  size : s'.markStack.size = s.markStack.size
  tame : Tame s'
  flag : s.objectsAreMarked = true → s'.objectsAreMarked = true
  state : s'.markState = s.markState ∨ s'.markState = .invalid
  marked : unmarked s' < unmarked s ∨ unmarked s' = unmarked s ∧
    (s.markStack.entries.length + n ≤ s.markStack.size →
      s'.markState = s.markState ∧ s'.markStack.entries.length ≤ s.markStack.entries.length + n)

theorem Visited.refl (h : Tame s) : Visited 0 s s :=
  ⟨rfl,rfl,h,id,.inl rfl,.inr ⟨rfl,fun _ => ⟨rfl,le_refl _⟩⟩⟩

theorem Visited.le {n : Nat} (h : Visited n s s') : unmarked s' ≤ unmarked s := by
  rcases h.marked with h | h
  · exact h.le
  · exact h.1.le

theorem Visited.trans {n m : Nat} {s'' : State cfg} (h : Visited n s s') (h' : Visited m s' s'') :
    Visited (n + m) s s'' := by
  refine ⟨h'.world.trans h.world,h'.size.trans h.size,h'.tame,fun hflag => h'.flag (h.flag hflag),?_,?_⟩
  · rcases h'.state with he | he
    · rw [he]
      exact h.state
    · exact .inr he
  · have hle' := h'.le
    have hsize := h.size
    rcases h.marked with hless | ⟨heq,hroom⟩
    · exact .inl (by omega)
    rcases h'.marked with hless | ⟨heq',hroom'⟩
    · exact .inl (by omega)
    refine .inr ⟨by omega,fun hfits => ?_⟩
    obtain ⟨hstate,hlen⟩ := hroom (by omega)
    obtain ⟨hstate',hlen'⟩ := hroom' (by omega)
    exact ⟨hstate'.trans hstate,by omega⟩

theorem Visited.mono {n m : Nat} (h : Visited n s s') (hle : n ≤ m) : Visited m s s' :=
  ⟨h.world,h.size,h.tame,h.flag,h.state,h.marked.imp_right fun ⟨heq,hroom⟩ => ⟨heq,fun hfits => by
    obtain ⟨hstate,hlen⟩ := hroom (by omega)
    exact ⟨hstate,by omega⟩⟩⟩

theorem Visited.of_fresh (hp : Progress s s') (h : Tame s') (hfresh : Fresh s s') : Visited 0 s s' := by
  refine ⟨hp.world,hp.size,h,hp.flag,hp.state,?_⟩
  rcases hfresh with rfl | hless
  · exact .inr ⟨rfl,fun _ => ⟨rfl,le_refl _⟩⟩
  · exact .inl hless

theorem msPushObjDescr_visited {obj descr : Nat} (h : Tame s) (hsettles : Settles s.world ⟨obj, descr⟩) :
    Visited 1 s (msPushObjDescr obj descr s) := by
  have hp := msPushObjDescr_progress obj descr s
  refine ⟨hp.world,hp.size,h.push hsettles,hp.flag,hp.state,
    .inr ⟨msPushObjDescr_unmarked obj descr s,fun hroom => ?_⟩⟩
  have hfull := BoundedStack.full_eq_false_of_lt (s := s.markStack) (by omega)
  rw [msPushObjDescr,hfull]
  refine ⟨rfl,?_⟩
  simp only [Bool.false_eq_true,if_false,BoundedStack.push_entries hfull,length_cons]
  exact le_refl _

theorem foldl_visited {α : Type} {f : State cfg → α → State cfg} {l : List α} (h : Tame s)
    (hf : ∀ a ∈ l, ∀ s', s'.world = s.world → Tame s' → Visited 1 s' (f s' a)) :
    Visited l.length s (l.foldl f s) := by
  induction l generalizing s with
  | nil => exact Visited.refl h
  | cons a l ih =>
    have hstep := hf a mem_cons_self s rfl h
    have hrest := ih hstep.tame fun a' ha' s' hs' =>
      hf a' (mem_cons_of_mem a ha') s' (hs'.trans hstep.world)
    have hboth := hstep.trans hrest
    rw [Nat.add_comm] at hboth
    exact hboth

theorem pushObjs_visited (keep : State cfg → Nat → Prop) [∀ s p, Decidable (keep s p)] (h : Tame s)
    (hb : b ∈ s.world.table.blocks) :
    Visited b.objs.length s (b.objs.foldl (fun s p => if keep s p then msPushObjHdr p b s else s) s) := by
  apply foldl_visited h
  intro o ho s' hs' ht
  split
  · unfold msPushObjHdr
    split
    · exact (Visited.refl ht).mono (Nat.zero_le 1)
    · exact msPushObjDescr_visited ht (ht.objects b (hs' ▸ hb) o ho)
  · exact (Visited.refl ht).mono (Nat.zero_le 1)

theorem objs_length_le (hok : b.Ok) : b.objs.length ≤ 256 := by
  unfold Block.objs
  split
  · simp
  · obtain ⟨-,hpos,hgran,-⟩ := hok
    have hge : 16 ≤ b.sz := by
      unfold granuleBytes at hgran
      omega
    rw [length_map,length_range]
    exact Nat.div_le_div_left hge (by decide)

theorem pushMarkedGranules_visited (n : Nat) (b : Block) (h : Tame s) : Visited 0 s (pushMarkedGranules n b s) := by
  have hfresh : Tame (pushMarkedGranules n b s) ∧ Fresh s (pushMarkedGranules n b s) := by
    apply foldl_fresh h
    intro k _ s' _ ht
    refine ⟨(Progress.foldl fun _ _ _ _ => pushMarkedGranules_step_progress).world,?_⟩
    apply foldl_fresh ht
    intro j _ s'' _ ht'
    refine ⟨pushMarkedGranules_step_progress.world,?_⟩
    dsimp only
    split
    · exact pushWords_fresh rfl ht' (clientTarget_sound s''.world) (clientTarget_finds s''.world) _
    · exact ⟨ht',.inl rfl⟩
  exact Visited.of_fresh (pushMarkedGranules_progress n b s) hfresh.1 hfresh.2

theorem Tame.flagged (h : Tame s) : Tame { s with objectsAreMarked := true } := ⟨h.entries,h.objects,h.final⟩

/-- A routine that pushes from a block: unless it does nothing it sets `GC_objects_are_marked`. -/
def Pusher (push : Block → State cfg → State cfg) (s : State cfg) (b : Block) : Prop :=
  Visited 256 s (push b s) ∧ (push b s = s ∨ (push b s).objectsAreMarked = true)

theorem Pusher.skip {push : Block → State cfg → State cfg} (h : Tame s) (heq : push b s = s) : Pusher push s b := by
  unfold Pusher
  rw [heq]
  exact ⟨(Visited.refl h).mono (Nat.zero_le _),.inl rfl⟩

theorem Pusher.of_flagged {push : Block → State cfg → State cfg} {n : Nat}
    (h : Visited n { s with objectsAreMarked := true } (push b s)) (hn : n ≤ 256) : Pusher push s b := by
  have hv := h.mono hn
  exact ⟨⟨hv.world,hv.size,hv.tame,fun _ => hv.flag rfl,hv.state,hv.marked⟩,.inr (hv.flag rfl)⟩

theorem pushMarked_pusher (h : Tame s) (hb : b ∈ s.world.table.blocks) : Pusher pushMarked s b := by
  by_cases hskip : b.descr = 0 ∨ s.nMarks b.start = 0
  · apply Pusher.skip h
    unfold pushMarked
    rcases hskip with hd | hn
    · rw [if_pos hd]
    · rw [if_pos hn,ite_self]
  · have hd : b.descr ≠ 0 := fun hd => hskip (.inl hd)
    have hn : s.nMarks b.start ≠ 0 := fun hn => hskip (.inr hn)
    have haccel : ∀ n, Visited 256 { s with objectsAreMarked := true }
        (pushMarkedGranules n b { s with objectsAreMarked := true }) := fun n =>
      (pushMarkedGranules_visited n b h.flagged).mono (Nat.zero_le _)
    apply Pusher.of_flagged (n := 256) _ (le_refl _)
    unfold pushMarked
    rw [if_neg hd,if_neg hn]
    dsimp only
    split
    · exact haccel 1
    · exact haccel 2
    · exact haccel 4
    · exact (pushObjs_visited (fun s p => s.marks p = true) h.flagged hb).mono
        (objs_length_le (s.world.table.ok b hb).1)

theorem pushUnconditionally_pusher (h : Tame s) (hb : b ∈ s.world.table.blocks) :
    Pusher pushUnconditionally s b := by
  by_cases hd : b.descr = 0
  · apply Pusher.skip h
    rw [pushUnconditionally,if_pos hd]
  · apply Pusher.of_flagged (n := 256) _ (le_refl _)
    rw [pushUnconditionally,if_neg hd]
    exact (pushObjs_visited (fun s p => s.world.mem p % 4 ≠ 0) h.flagged hb).mono
      (objs_length_le (s.world.table.ok b hb).1)

end Blocks

section Roots

variable {s s' : State cfg}

theorem pushAll_visited (h : Tame s) (range : Nat × Nat) : Visited 1 s (pushAll s range) := by
  unfold pushAll
  dsimp only
  split
  · exact (Visited.refl h).mono (Nat.zero_le 1)
  · apply msPushObjDescr_visited h
    have htag : dsTag (range.2 / 8 * 8 - (range.1 + 7) / 8 * 8) = .length := by
      rw [dsTag_length]
      omega
    refine ⟨formatted_of_dvd (by dsimp only; omega),.inl ?_⟩
    rw [realDescr_of_ne (by simp [htag])]
    exact htag

theorem pushRoots_visited (h : Tame s) : Visited s.world.staticRoots.length s (pushRoots s) := by
  have hstatic : Visited s.world.staticRoots.length s (s.world.staticRoots.foldl pushAll s) :=
    foldl_visited h fun range _ _ _ ht => pushAll_visited ht range
  have hstacks : Tame (pushRoots s) ∧ Fresh (s.world.staticRoots.foldl pushAll s) (pushRoots s) := by
    apply foldl_fresh hstatic.tame
    intro range _ s' _ ht
    exact ⟨(pushAllEager_progress range).world,
      pushWords_fresh rfl ht (stackTarget_sound s'.world) (stackTarget_finds s'.world) _⟩
  have hrest : Visited 0 (s.world.staticRoots.foldl pushAll s) (pushRoots s) :=
    Visited.of_fresh (pushStacks_progress _ _) hstacks.1 hstacks.2
  exact hstatic.trans hrest

/-- The roots are pushed: the next state is nearer than any that scans the heap, and if they
fit on the stack and nothing was marked it is `MS_ROOTS_PUSHED`. -/
theorem pushRootsAndAdvance_rank (h : Tame s) (hzero : s.scanPtr = 0) :
    (pushRootsAndAdvance s).world = s.world ∧ (pushRootsAndAdvance s).markStack.size = s.markStack.size ∧
    Tame (pushRootsAndAdvance s) ∧ unmarked (pushRootsAndAdvance s) ≤ unmarked s ∧
    rank (pushRootsAndAdvance s) ≤ 3 ∧
    (s.markStack.entries.length + s.world.staticRoots.length ≤ s.markStack.size → s.markState ≠ .invalid →
      unmarked (pushRootsAndAdvance s) < unmarked s ∨ rank (pushRootsAndAdvance s) = 1) := by
  have hv := pushRoots_visited h
  have hle := hv.le
  have htame : Tame { pushRoots s with objectsAreMarked := true } := hv.tame.flagged
  rw [pushRootsAndAdvance,if_neg (by simp [hzero])]
  dsimp only
  split
  · rename_i hinvalid
    refine ⟨hv.world,hv.size,htame,hle,?_,fun hroom hvalid => ?_⟩
    · simp only [rank,hinvalid,if_true,le_refl]
    · rcases hv.marked with hless | ⟨-,hfits⟩
      · exact .inl hless
      · exact absurd ((hfits hroom).1.symm.trans hinvalid) hvalid
  · exact ⟨hv.world,hv.size,⟨htame.entries,htame.objects,htame.final⟩,hle,by simp [rank],fun _ _ => .inr rfl⟩

end Roots

section MarkSome

variable {s s' : State cfg} {b : Block} {inp : StepInput}

structure Descends (s s' : State cfg) : Prop where
  world : s'.world = s.world
  size : s'.markStack.size = s.markStack.size
  tame : Tame s'
  closer : Closer s' s

theorem blocksAhead_lt {scanPtr : Nat} (hb : b ∈ s.world.table.blocks) (hle : s.scanPtr ≤ b.start)
    (hworld : s'.world = s.world) (hptr : s'.scanPtr = scanPtr) (hpast : b.start < scanPtr) :
    blocksAhead s' < blocksAhead s := by
  unfold blocksAhead
  rw [hworld,hptr]
  apply countP_lt (a := b) _ hb
  · simpa using hle
  · simpa using hpast
  · intro c _ hc
    simp only [decide_eq_true_eq] at hc ⊢
    omega

theorem nextBlock_spec {keep : Block → Bool} (h : nextBlock s.world.table s.scanPtr keep = some b) :
    b ∈ s.world.table.blocks ∧ s.scanPtr ≤ b.start ∧ b.start < b.start + b.bytes := by
  have hmem := List.mem_of_find?_eq_some h
  have htest := List.find?_some h
  simp only [Bool.and_eq_true,decide_eq_true_eq] at htest
  have hpos := (s.world.table.ok b hmem).1.2.1
  have hle := b.sz_le_bytes
  exact ⟨hmem,htest.1,by omega⟩

theorem scanBlock_descends {keep : Block → Bool} {push : Block → State cfg → State cfg} (h : Tame s)
    (hstate : s.markState = .pushRescuers ∨ s.markState = .pushUncollectable)
    (hpush : ∀ b ∈ s.world.table.blocks, Pusher push s b) :
    Descends s (pushRootsAndAdvance (pushBlock push s (nextBlock s.world.table s.scanPtr keep))) := by
  have hrank : rank s = 4 := by rcases hstate with he | he <;> simp [rank,he]
  have hvalid : s.markState ≠ .invalid := by rcases hstate with he | he <;> simp [he]
  cases hnext : nextBlock s.world.table s.scanPtr keep with
  | none =>
    have htame : Tame { s with scanPtr := 0 } := ⟨h.entries,h.objects,h.final⟩
    obtain ⟨hw,hsize,ht,hle,hr,-⟩ := pushRootsAndAdvance_rank htame rfl
    refine ⟨hw,hsize,ht,?_⟩
    rcases Nat.lt_or_eq_of_le hle with hless | heq
    · exact .inl hless
    · exact .inr ⟨heq,.inl (by rw [hrank]; exact Nat.lt_succ_of_le hr)⟩
  | some b =>
    obtain ⟨hb,hle,hpast⟩ := nextBlock_spec hnext
    obtain ⟨hv,hflag⟩ := hpush b hb
    rw [pushBlock,pushRootsAndAdvance,if_pos (by dsimp only; omega)]
    refine ⟨hv.world,hv.size,⟨hv.tame.entries,hv.tame.objects,hv.tame.final⟩,?_⟩
    rcases hv.marked with hless | ⟨heq,-⟩
    · exact .inl hless
    refine .inr ⟨heq,?_⟩
    rcases hv.state with hsame | hinvalid
    · right
      have hrank' : rank { push b s with scanPtr := b.start + b.bytes } = rank s := by
        rcases hstate with he | he <;> simp [rank,hsame,he]
      refine ⟨hrank',.inl ?_⟩
      rw [ahead,ahead,if_neg hvalid,if_neg (by dsimp only; rw [hsame]; exact hvalid)]
      exact blocksAhead_lt hb hle hv.world rfl hpast
    · left
      have hset : (push b s).objectsAreMarked = true := by
        refine hflag.resolve_left fun hsame => ?_
        rw [hsame] at hinvalid
        exact hvalid hinvalid
      rw [hrank]
      simp [rank,hinvalid,hset]

theorem markFrom_descends (h : Tame s) (hne : s.markStack.entries ≠ [])
    (hflag : s.markState = .invalid ∨ s.markState = .partiallyInvalid → s.objectsAreMarked = true) :
    ∃ s', markFrom s = some s' ∧ Descends s s' := by
  obtain ⟨s',hrun,ht,hless⟩ := markFrom_ends h hne
  have hp := (markFrom_progress hrun).1
  refine ⟨s',hrun,hp.world,hp.size,ht,?_⟩
  rcases hless with hless | ⟨st,rfl,hwork⟩
  · exact .inl hless
  · refine .inr ⟨rfl,.inr ⟨?_,.inr ⟨rfl,hwork⟩⟩⟩
    unfold rank
    dsimp only
    split
    · rfl
    · rfl
    · rename_i he
      rw [hflag (.inr he)]
    · rename_i he
      rw [hflag (.inl he)]
    · rfl
    · rfl

theorem pushNextMarked_descends (h : Tame s) (hstate : s.markState = .partiallyInvalid)
    (hempty : s.markStack.entries = []) (hflag : s.objectsAreMarked = true) (hroom : 256 ≤ s.markStack.size)
    (hroots : s.world.staticRoots.length ≤ s.markStack.size) :
    Descends s (if (pushNextMarked s).markState = .partiallyInvalid then pushRootsAndAdvance (pushNextMarked s)
      else pushNextMarked s) := by
  have hrank : rank s = 2 := by simp [rank,hstate,hflag]
  unfold pushNextMarked pushBlock
  cases hnext : nextBlock s.world.table s.scanPtr fun _ => true with
  | none =>
    have htame : Tame { s with scanPtr := 0 } := ⟨h.entries,h.objects,h.final⟩
    obtain ⟨hw,hsize,ht,hle,-,hone⟩ := pushRootsAndAdvance_rank htame rfl
    rw [if_pos hstate]
    refine ⟨hw,hsize,ht,?_⟩
    rcases Nat.lt_or_eq_of_le hle with hless | heq
    · exact .inl hless
    rcases hone (by simpa [hempty] using hroots) (by simp [hstate]) with hless | hr
    · exact .inl hless
    · exact .inr ⟨heq,.inl (by rw [hrank,hr]; decide)⟩
  | some b =>
    obtain ⟨hb,hle,hpast⟩ := nextBlock_spec hnext
    obtain ⟨hv,-⟩ := pushMarked_pusher h hb
    have hgoal : Descends s { pushMarked b s with scanPtr := b.start + b.bytes } := by
      refine ⟨hv.world,hv.size,⟨hv.tame.entries,hv.tame.objects,hv.tame.final⟩,?_⟩
      rcases hv.marked with hless | ⟨heq,hfits⟩
      · exact .inl hless
      have hsame := (hfits (by simpa [hempty] using hroom)).1
      refine .inr ⟨heq,.inr ⟨by simp [rank,hsame,hstate,hv.flag hflag,hflag],.inl ?_⟩⟩
      rw [ahead,ahead,if_neg (by simp [hsame,hstate]),if_neg (by simp [hstate])]
      exact blocksAhead_lt hb hle hv.world rfl hpast
    dsimp only
    split
    · rw [pushRootsAndAdvance,if_pos (by dsimp only; omega)]
      exact hgoal
    · exact hgoal

theorem pushNextMarked_invalid_descends (h : Tame s) (hstate : s.markState = .invalid)
    (hflag : s.objectsAreMarked = true) (hptr : s.scanPtr ≠ 0) :
    (pushNextMarked s).markState = .invalid ∧ Descends s (pushNextMarked s) := by
  have hahead : ahead s = 1 + blocksAhead s := by rw [ahead,if_pos hstate,if_neg hptr]
  unfold pushNextMarked pushBlock
  cases hnext : nextBlock s.world.table s.scanPtr fun _ => true with
  | none =>
    refine ⟨hstate,rfl,rfl,⟨h.entries,h.objects,h.final⟩,.inr ⟨rfl,.inr ⟨rfl,.inl ?_⟩⟩⟩
    rw [hahead,ahead,if_pos hstate,if_pos rfl]
    omega
  | some b =>
    obtain ⟨hb,hle,hpast⟩ := nextBlock_spec hnext
    obtain ⟨hv,-⟩ := pushMarked_pusher h hb
    have hinvalid : (pushMarked b s).markState = .invalid := by
      rcases hv.state with he | he
      · exact he.trans hstate
      · exact he
    refine ⟨hinvalid,hv.world,hv.size,⟨hv.tame.entries,hv.tame.objects,hv.tame.final⟩,?_⟩
    rcases Nat.lt_or_eq_of_le hv.le with hless | heq
    · exact .inl hless
    refine .inr ⟨heq,.inr ⟨by simp [rank,hinvalid,hstate,hv.flag hflag,hflag],.inl ?_⟩⟩
    have hless : blocksAhead { pushMarked b s with scanPtr := b.start + b.bytes } < blocksAhead s :=
      blocksAhead_lt hb hle hv.world rfl hpast
    rw [hahead,ahead,if_pos hinvalid,if_neg (by dsimp only; omega)]
    exact Nat.add_lt_add_left hless 1

theorem growMarkStack_fails (hempty : s.markStack.entries = []) (hgrows : inp.grows = false) :
    ∃ st small, growMarkStack inp.grows s = { s with markStack := st, markStackTooSmall := small } ∧
      st.entries = [] ∧ st.size = s.markStack.size := by
  unfold growMarkStack
  split
  · exact ⟨_,false,rfl,by simp [hgrows,BoundedStack.resized],by simp [hgrows,BoundedStack.resized]⟩
  · exact ⟨s.markStack,s.markStackTooSmall,rfl,hempty,rfl⟩

theorem startRescan_descends (h : Tame s) (hstate : s.markState = .invalid) (hempty : s.markStack.entries = [])
    (hflag : s.objectsAreMarked = true) (hgrows : inp.grows = false) :
    ∃ st small, growMarkStack inp.grows s = { s with markStack := st, markStackTooSmall := small } ∧
      st.entries = [] ∧ st.size = s.markStack.size ∧
      Descends s { s with markStack := st, markStackTooSmall := small, markState := .partiallyInvalid } := by
  obtain ⟨st,small,heq,hst,hsize⟩ := growMarkStack_fails hempty hgrows
  refine ⟨st,small,heq,hst,hsize,rfl,hsize,⟨by simp [hst],h.objects,h.final⟩,?_⟩
  exact .inr ⟨rfl,.inl (by simp [rank,hstate,hflag])⟩

theorem Closer.trans {s'' : State cfg} (h' : Closer s'' s') (h : Closer s' s) : Closer s'' s := by
  unfold Closer at *
  omega

theorem markSomeInvalid_descends (h : Tame s) (hstate : s.markState = .invalid ∨ s.markState = .partiallyInvalid)
    (hroom : 256 ≤ s.markStack.size) (hroots : s.world.staticRoots.length ≤ s.markStack.size)
    (hgrows : inp.grows = false) : ∃ s', markSomeInvalid inp s = some (false, s') ∧ Descends s s' := by
  unfold markSomeInvalid
  split
  · rename_i hflag
    refine ⟨_,rfl,rfl,rfl,⟨h.entries,h.objects,h.final⟩,.inr ⟨rfl,.inl ?_⟩⟩
    rcases hstate with he | he <;> simp [rank,he,hflag]
  · rename_i hflag
    have hflag : s.objectsAreMarked = true := by simpa using hflag
    split
    · rename_i hne
      obtain ⟨s',hrun,hd⟩ := markFrom_descends h hne fun _ => hflag
      exact ⟨s',by rw [hrun]; rfl,hd⟩
    · rename_i hne
      have hempty : s.markStack.entries = [] := by simpa using hne
      dsimp only
      split
      · rename_i hstart
        obtain ⟨st,small,heq,hst,hsize,hd⟩ := startRescan_descends h hstart.2 hempty hflag hgrows
        rw [heq]
        have hnext := pushNextMarked_descends hd.tame rfl hst hflag (by rw [hsize]; exact hroom)
          (by rw [hsize]; exact hroots)
        exact ⟨_,rfl,hnext.world,hnext.size.trans hsize,hnext.tame,hnext.closer.trans hd.closer⟩
      · rename_i hgoing
        by_cases hpartial : s.markState = .partiallyInvalid
        · exact ⟨_,rfl,pushNextMarked_descends h hpartial hempty hflag hroom hroots⟩
        · have hinvalid : s.markState = .invalid := hstate.resolve_right hpartial
          obtain ⟨he,hd⟩ := pushNextMarked_invalid_descends h hinvalid hflag fun hzero => hgoing ⟨hzero,hinvalid⟩
          rw [if_neg (by simp [he])]
          exact ⟨_,rfl,hd⟩

theorem markSome_descends (inp : StepInput) (h : Tame s) (hroom : 256 ≤ s.markStack.size)
    (hroots : s.world.staticRoots.length ≤ s.markStack.size) (hgrows : inp.grows = false) :
    (∃ s', markSome inp s = some (true, s') ∧ s'.markState = .none) ∨
      ∃ s', markSome inp s = some (false, s') ∧ Descends s s' := by
  unfold markSome
  split
  · rename_i hstate
    exact .inl ⟨s,rfl,hstate⟩
  · rename_i hstate
    right
    split
    · rename_i hfull
      have hne : s.markStack.entries ≠ [] := by
        have := cfg.eight_le_initial
        have hfloor : cfg.initialMarkStackSize ≤ s.markStack.size := s.markStack.floor_le
        intro hnil
        rw [hnil,length_nil] at hfull
        omega
      have htame : Tame { s with markStackTooSmall := true } := ⟨h.entries,h.objects,h.final⟩
      obtain ⟨s',hrun,hd⟩ := markFrom_descends htame hne (by simp [hstate])
      exact ⟨s',by rw [hrun]; rfl,hd.world,hd.size,hd.tame,hd.closer⟩
    · refine ⟨_,rfl,scanBlock_descends h (.inl hstate) fun b hb => ?_⟩
      by_cases hu : b.markUnconditionally = true
      · simpa [Pusher,hu] using pushUnconditionally_pusher h hb
      · simpa [Pusher,hu] using pushMarked_pusher h hb
  · rename_i hstate
    right
    split
    · rename_i hfull
      have hne : s.markStack.entries ≠ [] := by
        intro hnil
        rw [hnil,length_nil] at hfull
        omega
      obtain ⟨s',hrun,hd⟩ := markFrom_descends h hne (by simp [hstate])
      exact ⟨s',by rw [hrun]; rfl,hd⟩
    · refine ⟨_,rfl,scanBlock_descends h (.inr hstate) fun b hb => ?_⟩
      by_cases hu : b.objKind = uncollectable
      · simpa [Pusher,hu] using pushMarked_pusher h hb
      · simpa [Pusher,hu] using pushUnconditionally_pusher h hb
  · rename_i hstate
    split
    · rename_i hne
      obtain ⟨s',hrun,hd⟩ := markFrom_descends h hne (by simp [hstate])
      exact .inr ⟨s',by rw [hrun]; rfl,hd⟩
    · rename_i hne
      have hempty : s.markStack.entries = [] := by simpa using hne
      have hfresh := pushWords_fresh rfl h (clientTarget_sound s.world) (clientTarget_finds s.world)
        (inp.onMsEmpty.getD [])
      have hp := pushWords_progress (s := s) rfl (clientTarget_sound s.world) (inp.onMsEmpty.getD [])
      dsimp only
      split
      · rename_i hmore
        refine .inr ⟨_,rfl,hp.world,hp.size,hfresh.1,.inl ?_⟩
        refine hfresh.2.resolve_left fun hsame => hmore ?_
        rw [onMarkStackEmpty,hsame]
        exact hempty
      · exact .inl ⟨_,rfl,rfl⟩
  · rename_i hstate
    exact .inr (markSomeInvalid_descends h (.inl hstate) hroom hroots hgrows)
  · rename_i hstate
    exact .inr (markSomeInvalid_descends h (.inr hstate) hroom hroots hgrows)

/-- The mark stack is never smaller than `INITIAL_MARK_STACK_SIZE` entries, which fill whole
hblks, and no block has more objects. -/
theorem objects_fit (hinitial : hblkSize ∣ 16 * cfg.initialMarkStackSize) (s : State cfg) :
    256 ≤ s.markStack.size := by
  have hfloor : cfg.initialMarkStackSize ≤ s.markStack.size := s.markStack.floor_le
  have hpos := cfg.eight_le_initial
  obtain ⟨k,hk⟩ := hinitial
  unfold hblkSize at hk
  rcases Nat.eq_zero_or_pos k with rfl | hkpos
  · omega
  · omega

/-- Marking ends although the mark stack never grows, whatever overflows. -/
theorem markWhile_ends (hinitial : hblkSize ∣ 16 * cfg.initialMarkStackSize) (h : Tame s)
    (hroots : s.world.staticRoots.length ≤ s.markStack.size) (inps : Nat → StepInput)
    (hgrows : ∀ n, (inps n).grows = false) :
    ∃ n s', markWhile ((List.range n).map inps) s = some (true, s') ∧ s'.markState = .none := by
  induction s using closer_wf.induction generalizing inps with
  | _ s ih =>
    rcases markSome_descends (inps 0) h (objects_fit hinitial s) hroots (hgrows 0) with
      ⟨s',hrun,hnone⟩ | ⟨s',hrun,hd⟩
    · refine ⟨1,s',?_,hnone⟩
      simp [markWhile,hrun]
    · obtain ⟨n,s'',hrest,hnone⟩ := ih s' hd.closer hd.tame (by rw [hd.world,hd.size]; exact hroots)
        (fun n => inps (n + 1)) fun n => hgrows (n + 1)
      refine ⟨n + 1,s'',?_,hnone⟩
      rw [range_succ_eq_map,map_cons,map_map,markWhile,hrun]
      exact hrest

end MarkSome

section Chain

/-- A collection of a root, an object and what it refers to. -/
theorem markWhile_ends_chain : ∃ n s', markWhile ((List.range n).map fun _ => ⟨false, none⟩)
    (fullStart (chainState 16)) = some (true, s') ∧ s'.markState = .none := by
  exact markWhile_ends (by decide) ⟨by decide,by decide +kernel,by decide +kernel⟩ (by decide) _ fun _ => rfl

end Chain

section Loop

def loopState : State chainConfig :=
  { chainState 11 with
    world :=
      { table :=
          { blocks := [⟨65536, 48, 11, uncollectable, false, false, .words⟩]
            ok := by decide
            sorted := by simp }
        mem := fun a => if a = 65544 then 11 else 0
        staticRoots := []
        stackRoots := []
        dirtyPages := fun _ => false
        grungyPages := fun _ => false }
    marks := fun a => decide (a = 65536) || decide (a = 65536 + 4080)
    nMarks := fun a => if a = 65536 then 1 else 0 }

theorem markLoop_stuck {s : State chainConfig} (hworld : s.world = loopState.world) {rest : List Mse}
    (he : s.markStack.entries = ⟨65536, 11⟩ :: rest) {credit : Int} (hcredit : 0 ≤ credit) (fuel : Nat) :
    markLoop fuel credit s = none := by
  induction fuel generalizing s with
  | zero => rfl
  | succ fuel ih =>
    have hturn : markEntry s ⟨65536,11⟩ = ({ s with markStack := s.markStack.replaceTop ⟨65536,11⟩ }, 0) := by
      have hdescr : perObjectDescr chainConfig s.world.mem 65536 11 = 11 := by
        rw [hworld]
        decide
      have htag : dsTag 11 = .perObject := by decide
      rw [markEntry,if_neg (by decide)]
      simp only [markDescribed,htag,hdescr]
      rfl
    rw [markLoop,he]
    dsimp only
    rw [if_neg (by omega),hturn]
    have hnext := ih (s := { s with markStack := s.markStack.replaceTop ⟨65536,11⟩ }) hworld
      (BoundedStack.replaceTop_entries he)
    simpa using hnext

/-- The fourth call of `GC_mark_some` does not return: the descriptor of the object leads to
itself. -/
theorem markWhile_stuck : ∃ s : State chainConfig,
    markWhile (List.replicate 3 ⟨false, none⟩) (fullStart loopState) = some (false, s) ∧
    s.markState = .rootsPushed ∧ s.markStack.entries ≠ [] ∧
    ∀ fuel, markLoop fuel hblkSize { s with objectsAreMarked := true } = none := by
  have hrun : ((markWhile (List.replicate 3 ⟨false,none⟩) (fullStart loopState)).map fun r =>
      (r.1, r.2.markState, r.2.markStack.entries)) = some (false, .rootsPushed, [⟨65536,11⟩]) := by
    decide +kernel
  obtain ⟨⟨done,s⟩,hrun,hs⟩ := Option.map_eq_some_iff.mp hrun
  simp only [Prod.mk.injEq] at hs
  obtain ⟨rfl,hstate,hentries⟩ := hs
  have hcount : ∀ b ∈ loopState.world.table.blocks, ∀ o ∈ b.objs, loopState.marks o = true →
      loopState.nMarks b.start ≠ 0 := by decide +kernel
  have hworld : s.world = loopState.world := by
    exact (markWhile_stepped _ (fullStart_inv hcount) nofun hrun).1.world.trans (fullStart_cleared loopState).world
  refine ⟨s,hrun,hstate,by simp [hentries],fun fuel => ?_⟩
  exact markLoop_stuck (s := { s with objectsAreMarked := true }) hworld hentries (Int.natCast_nonneg _) fuel

end Loop

end GcUtil.Mark.Termination
