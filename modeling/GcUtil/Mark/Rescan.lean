import GcUtil.Mark.Scanning

/-! `GC_push_marked` against `GC_mark_from`: the objects that the descriptor of a marked
object leads the marker to, and those that going through the block again marks or pushes an
entry for. The routines for objects of one, two and four granules do not look at descriptors:
they push every word of the object. -/
namespace GcUtil.Mark.Rescan
open Basic Pointers Ranges Machine References Pushing Scanning Library.DiscardStack List

variable {cfg : Config}

section Model

/-- A turn of `GC_mark_from`: how it looks pointers up, the candidates, and the entry it
leaves. -/
structure EntryTurn where
  find : Nat → Option (Block × Nat)
  words : List Nat
  rest : Option Mse

def describedTurn (w : World cfg) (e : Mse) : EntryTurn :=
  match dsTag e.mseDescr with
  | .length =>
      let turn := lengthTurn (wordBuild false) (fun a => plausibleHeapAddr cfg (w.mem a)) 0 e.mseStart e.mseDescr
      ⟨heapTarget w.table, turn.pushed.map w.mem, turn.rest.head?⟩
  | .bitmap => ⟨heapTarget w.table, (bitmapSlots e.mseStart e.mseDescr).map w.mem, none⟩
  | .proc =>
      ⟨clientTarget w.table,
        cfg.markProc e.mseDescr ((wordsAt e.mseStart (cfg.procWords e.mseDescr)).map w.mem), none⟩
  | .perObject =>
      let descr := perObjectDescr cfg w.mem e.mseStart e.mseDescr
      ⟨heapTarget w.table, [], if descr = 0 then none else some ⟨e.mseStart, descr⟩⟩

def entryTurn (w : World cfg) (e : Mse) : EntryTurn :=
  if formatted cfg e.mseStart then
    ⟨heapTarget w.table, (formattedTurn w e).ptrs, (formattedTurn w e).rest⟩
  else describedTurn w e

/-- The objects that `GC_mark_from` is led to by an entry and by what it leaves of it. -/
inductive Reaches (w : World cfg) : Mse → Nat → Prop where
  | now {e q b o} : q ∈ (entryTurn w e).words → (entryTurn w e).find q = some (b, o) → Reaches w e o
  | later {e e' o} : (entryTurn w e).rest = some e' → Reaches w e' o → Reaches w e o

def entryOf (b : Block) (o : Nat) : Mse := ⟨b.entryStart o, b.descr⟩

def EntriesPushed (b : Block) (s : State cfg) (log : List Mse) : Prop :=
  ∀ s' : State cfg, s'.world = s.world → s'.marks = s.marks → s'.nMarks = s.nMarks →
    (pushMarked b s').markStack = s'.markStack.pushList log

end Model

section Turns

variable {w : World cfg} {e : Mse} {p r : Nat}

end Turns

section Runs

variable {w : World cfg} {marks marks' : Nat → Bool} {f g : State cfg → State cfg}

def Logs (w : World cfg) (marks marks' : Nat → Bool) (f : State cfg → State cfg) (log : List Mse) : Prop :=
  ∀ s : State cfg, s.world = w → s.marks = marks →
    (f s).world = w ∧ (f s).marks = marks' ∧ (f s).markStack = s.markStack.pushList log

theorem Logs.comp {marks'' : Nat → Bool} {log log' : List Mse} (h : Logs w marks marks' f log)
    (h' : Logs w marks' marks'' g log') : Logs w marks marks'' (fun s => g (f s)) (log ++ log') := by
  intro s hw hm
  obtain ⟨hw₁,hm₁,hstack₁⟩ := h s hw hm
  obtain ⟨hw₂,hm₂,hstack₂⟩ := h' (f s) hw₁ hm₁
  refine ⟨hw₂,hm₂,?_⟩
  rw [hstack₂,hstack₁,BoundedStack.pushList_append]

/-- A routine that marks at least the objects of `found`. -/
def Marks (w : World cfg) (marks : Nat → Bool) (f : State cfg → State cfg) (found : Nat → Prop) : Prop :=
  ∃ marks' log, Logs w marks marks' f log ∧ marks ≤ marks' ∧ ∀ o, found o → marks' o = true

theorem Marks.id (w : World cfg) (marks : Nat → Bool) : Marks w marks (fun s => s) fun _ => False :=
  ⟨marks,[],fun _ hw hm => ⟨hw,hm,rfl⟩,le_refl _,fun _ => False.elim⟩

theorem Marks.mono {found found' : Nat → Prop} (h : Marks w marks f found) (himp : ∀ o, found' o → found o) :
    Marks w marks f found' := by
  obtain ⟨marks',log,hlog,hle,hmarks⟩ := h
  exact ⟨marks',log,hlog,hle,fun o ho => hmarks o (himp o ho)⟩

theorem Marks.of_eq {found : Nat → Prop} (h : Marks w marks g found)
    (heq : ∀ s : State cfg, s.world = w → s.marks = marks → f s = g s) : Marks w marks f found := by
  obtain ⟨marks',log,hlog,hle,hmarks⟩ := h
  refine ⟨marks',log,fun s hw hm => ?_,hle,hmarks⟩
  rw [heq s hw hm]
  exact hlog s hw hm

theorem Marks.comp {found found' : Nat → Prop} (h : Marks w marks f found)
    (h' : ∀ marks', marks ≤ marks' → Marks w marks' g found') :
    Marks w marks (fun s => g (f s)) fun o => found o ∨ found' o := by
  obtain ⟨marks₁,log₁,hlog₁,hle₁,hmarks₁⟩ := h
  obtain ⟨marks₂,log₂,hlog₂,hle₂,hmarks₂⟩ := h' marks₁ hle₁
  refine ⟨marks₂,log₁ ++ log₂,hlog₁.comp hlog₂,hle₁.trans hle₂,fun o ho => ?_⟩
  exact ho.elim (fun ho => hle₂ o (hmarks₁ o ho)) (hmarks₂ o)

theorem Marks.foldl {α : Type} {step : State cfg → α → State cfg} {found : α → Nat → Prop} (l : List α)
    (h : ∀ a ∈ l, ∀ marks', marks ≤ marks' → Marks w marks' (fun s => step s a) (found a)) :
    Marks w marks (fun s => l.foldl step s) fun o => ∃ a ∈ l, found a o := by
  induction l generalizing marks with
  | nil => exact (Marks.id w marks).mono (by simp)
  | cons a l ih =>
    have hrest := Marks.comp (g := fun s => l.foldl step s) (h a mem_cons_self marks (le_refl _)) fun marks' hle =>
      ih fun a' ha' marks'' hle' => h a' (mem_cons_of_mem a ha') marks'' (hle.trans hle')
    exact hrest.mono (by simp)

theorem msPushContentsHdr_marks (b : Block) (o : Nat) (marks : Nat → Bool) :
    Marks w marks (msPushContentsHdr o b) (· = o) := by
  by_cases hmark : marks o = true
  · refine ⟨marks,[],fun s hw hm => ?_,le_refl _,fun o' ho => ho ▸ hmark⟩
    have hset : s.marks o = true := by rw [hm,hmark]
    simp only [msPushContentsHdr,hset,if_true]
    exact ⟨hw,hm,rfl⟩
  · refine ⟨Function.update marks o true,if b.descr = 0 then [] else [entryOf b o],fun s hw hm => ?_,
      fun o' => ?_,fun o' ho => by rw [ho,Function.update_self]⟩
    · have hclear : s.marks o = false := by
        rw [hm]
        simpa using hmark
      simp only [msPushContentsHdr,hclear,msPushObjHdr,Bool.false_eq_true,if_false]
      split
      · exact ⟨hw,by rw [← hm]; rfl,rfl⟩
      · obtain ⟨hw',hm',hstack⟩ := msPushObjDescr_stack (b.entryStart o) b.descr (setMark o b s)
        refine ⟨hw'.trans hw,?_,hstack⟩
        rw [hm',← hm]
        rfl
    · by_cases ho : o' = o
      · simp [ho,Bool.le_true]
      · rw [Function.update_of_ne ho]

theorem pushWord_marks {find : Nat → Option (Block × Nat)} (hfind : Sound w find) (q : Nat) (marks : Nat → Bool) :
    Marks w marks (fun s => pushWord find s q) fun o => ∃ c, find q = some (c, o) := by
  unfold pushWord
  cases hq : find q with
  | none =>
    simp only [ite_self]
    exact (Marks.id w marks).mono (by simp)
  | some target =>
    obtain ⟨b,o⟩ := target
    have hlikely := w.table.plausibleHeapAddr_of_blockAt (hfind q b o hq).1
    simp only [hlikely,if_true]
    apply (msPushContentsHdr_marks b o marks).mono
    rintro o' ⟨c,hc⟩
    cases hc
    rfl

end Runs

section Granules

variable {w : World cfg} {n : Nat} {b : Block} {marks : Nat → Bool}

def place (n : Nat) (b : Block) (k j : Nat) : Nat := b.start + granuleBytes * (64 * k + n * j)

end Granules

section Rescan

variable {w : World cfg} {s : State cfg} {b : Block} {n : Nat} {marks : Nat → Bool}

theorem EntriesPushed.unique {log log' : List Mse} (h : EntriesPushed b s log) (h' : EntriesPushed b s log') :
    log = log' := by
  apply BoundedStack.pushList_injective (markStackLimits cfg)
  intro st
  have hst := h { s with markStack := st } rfl rfl rfl
  rw [h' { s with markStack := st } rfl rfl rfl] at hst
  exact hst.symm

end Rescan

section Words

variable {w : World cfg} {s : State cfg} {b : Block} {n p d r o : Nat}

end Words

section Packed

end Packed

end GcUtil.Mark.Rescan
