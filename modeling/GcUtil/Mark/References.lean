import GcUtil.Library.Tracing
import GcUtil.Mark.Machine

/-! What the mark descriptors designate and what the words there refer to: the object
graph that marking has to follow, stated without reference to how the marker does it. -/
namespace GcUtil.Mark.References
open Basic Pointers Ranges Machine Library.Tracing

inductive Source where
  | slot (a : Nat)
  | proc (p descr : Nat)
deriving DecidableEq, Repr

def direct (p descr : Nat) : List Source :=
  match dsTag descr with
  | .length => (wordsAt p (descr / 8)).map .slot
  | .bitmap => (bitmapSlots p descr).map .slot
  | .proc => [.proc p descr]
  | .perObject => []

variable {cfg : Config}

section Graph

variable (w : World cfg)

def realDescr (p descr : Nat) : Nat :=
  if dsTag descr = .perObject then perObjectDescr cfg w.mem p descr else descr

def designated (p descr : Nat) : List Source := direct p (realDescr w p descr)

def Whole (descr : Nat) : Prop := dsTag descr = .length → 8 ∣ descr ∨ descr < 8

instance (descr : Nat) : Decidable (Whole descr) := inferInstanceAs (Decidable (_ → _ ∨ _))

/-- What `GC_mark_from` looks at for an entry, whatever the memory holds. -/
def promised (p descr : Nat) : List Source :=
  if formatted cfg p = false ∧ Whole (realDescr w p descr) then designated w p descr else []

def objBlock (o : Nat) : Option Block :=
  (w.table.blockAt o).filter fun b => decide (o ∈ b.objs)

def sources (o : Nat) : List Source :=
  (objBlock w o).elim [] fun b => designated w o b.descr

/-- A mark procedure, or a word of the object: the routines that push the marked objects of a
block may read all the words of an object in place of its descriptor. -/
def inside (b : Block) (o : Nat) (src : Source) : Bool :=
  decide (dsTag b.descr = .proc ∨ ∃ i < b.sz / 8, src = .slot (o + 8 * i))

def followedIn (b : Block) (o : Nat) : List Source :=
  (promised w (b.entryStart o) b.descr).filter (inside b o)

/-- The sources of an object that every routine of the marker looks at. -/
def followed (o : Nat) : List Source := (objBlock w o).elim [] fun b => followedIn w b o

def sourceWords : Source → List Nat
  | .slot a => [w.mem a]
  | .proc p descr => cfg.markProc descr ((wordsAt p (cfg.procWords descr)).map w.mem)

def realTarget (target : Option (Block × Nat)) : Option Nat :=
  (target.filter fun x => decide (x.2 ∈ x.1.objs)).map Prod.snd

def objAt (q : Nat) : Option Nat := realTarget (heapTarget w.table q)

def stackObjAt (q : Nat) : Option Nat := realTarget (stackTarget w.table q)

def graph : RefGraph Source Nat where
  sources := sources w
  refs src o := ∃ q ∈ sourceWords w src, objAt w q = some o

def traced : RefGraph Source Nat := { graph w with sources := followed w }

end Graph

def view (s : State cfg) : View Source Nat where
  marked o := s.marks o = true
  pending src := ∃ e ∈ s.markStack.entries, src ∈ promised s.world e.mseStart e.mseDescr

def RootObject (s : State cfg) (o : Nat) : Prop :=
  (∃ b ∈ s.world.table.blocks, b.objKind = uncollectable ∧ o ∈ b.objs ∧ s.marks o = true) ∨
    ∃ range ∈ s.world.stackRoots, ∃ a ∈ rangeSlots range, stackObjAt s.world (s.world.mem a) = some o

def RootSource (w : World cfg) (src : Source) : Prop :=
  ∃ range ∈ w.staticRoots, ∃ a ∈ rangeSlots range, src = .slot a

def Reachable (s : State cfg) (o : Nat) : Prop :=
  Reach (graph s.world) (RootObject s) (RootSource s.world) o

/-- Per-object descriptors lead to a length or a bitmap, and what a length or a bitmap
designates lies in the object. -/
def DescriptorsOk (s : State cfg) : Prop :=
  ∀ b ∈ s.world.table.blocks, ∀ o ∈ b.objs, Reachable s o → dsTag b.descr ≠ .proc →
    ∀ src ∈ designated s.world o b.descr, ∃ i, src = .slot (o + 8 * i) ∧ 8 * i + 8 ≤ b.sz

/-- Objects hold pointers in words, and the lengths that describe them are whole numbers of
words. -/
def LengthsOk (s : State cfg) : Prop :=
  ∀ b ∈ s.world.table.blocks, ∀ o ∈ b.objs, Reachable s o →
    b.format = .words ∧ Whole (realDescr s.world o b.descr)

section Lemmas

variable {w : World cfg} {b : Block} {o q p descr : Nat} {src : Source}

theorem objBlock_eq_some : objBlock w o = some b ↔ w.table.blockAt o = some b ∧ o ∈ b.objs := by
  simp [objBlock,Option.filter_eq_some_iff]

theorem followed_subset (hb : w.table.blockAt o = some b) (hsrc : src ∈ followed w o) :
    src ∈ followedIn w b o := by
  unfold followed at hsrc
  cases h : objBlock w o with
  | none => simp [h] at hsrc
  | some c =>
    rw [objBlock_eq_some,hb] at h
    cases h.1
    simpa [objBlock_eq_some.mpr ⟨hb,h.2⟩] using hsrc

theorem realTarget_eq_some {target : Option (Block × Nat)} :
    realTarget target = some o ↔ ∃ b, target = some (b, o) ∧ o ∈ b.objs := by
  simp only [realTarget,Option.map_eq_some_iff,Option.filter_eq_some_iff,decide_eq_true_eq]
  constructor
  · rintro ⟨⟨b,p⟩,⟨h,hmem⟩,rfl⟩
    exact ⟨b,h,hmem⟩
  · rintro ⟨b,h,hmem⟩
    exact ⟨(b, o),⟨h,hmem⟩,rfl⟩

@[simp]
theorem direct_zero : direct p 0 = [] := by simp [direct,dsTag,wordsAt]

@[simp]
theorem designated_zero : designated w p 0 = [] := by simp [designated,realDescr,dsTag]

theorem realDescr_of_ne (h : dsTag descr ≠ .perObject) : realDescr w p descr = descr := if_neg h

theorem promised_of_whole (hp : formatted cfg p = false) (h : Whole (realDescr w p descr)) :
    promised w p descr = designated w p descr :=
  if_pos ⟨hp,h⟩

theorem promised_of_formatted (hp : formatted cfg p = true) : promised w p descr = [] := by
  simp [promised,hp]

theorem promised_of_ne (hp : formatted cfg p = false) (h : dsTag descr ≠ .perObject) :
    promised w p descr = if Whole descr then direct p descr else [] := by
  rw [promised,designated,realDescr_of_ne h]
  simp only [hp,true_and]

theorem formatted_of_dvd (h : 4 ∣ p) : formatted cfg p = false := by
  simp [formatted,Nat.mod_eq_zero_of_dvd h]

theorem mem_direct_of_mem_promised (h : src ∈ promised w p descr) : src ∈ direct p (realDescr w p descr) := by
  unfold promised at h
  split at h
  · exact h
  · cases h

@[simp]
theorem followedIn_of_zero (hdescr : b.descr = 0) : followedIn w b o = [] := by
  simp [followedIn,promised,hdescr]

theorem mem_followed {s : State cfg} (hok : DescriptorsOk s) (hlengths : LengthsOk s) (ho : Reachable s o)
    (hsrc : src ∈ sources s.world o) : src ∈ followed s.world o := by
  unfold sources at hsrc
  unfold followed
  cases h : objBlock s.world o with
  | none => simp [h] at hsrc
  | some b =>
    rw [h] at hsrc
    obtain ⟨hat,hobj⟩ := objBlock_eq_some.mp h
    have hb := (s.world.table.blockAt_some hat).1
    obtain ⟨hformat,hwhole⟩ := hlengths b hb o hobj ho
    have hstart : b.entryStart o = o := by simp [Block.entryStart,hformat,Format.tag]
    have hdvd : 4 ∣ o := (by decide : 4 ∣ granuleBytes).trans (Block.granule_dvd_obj (s.world.table.ok b hb).1 hobj)
    refine List.mem_filter.mpr ⟨?_,decide_eq_true ?_⟩
    · rw [hstart,promised_of_whole (formatted_of_dvd hdvd) hwhole]
      exact hsrc
    · by_cases hproc : dsTag b.descr = .proc
      · exact .inl hproc
      · obtain ⟨i,hi,hle⟩ := hok b hb o hobj ho hproc src hsrc
        exact .inr ⟨i,by omega,hi⟩

/-- With the descriptors of the reachable objects in order, tracing finds all of them. -/
theorem Reachable.traced {s : State cfg} (hok : DescriptorsOk s) (hlengths : LengthsOk s) (h : Reachable s o) :
    Reach (traced s.world) (RootObject s) (RootSource s.world) o := by
  induction h with
  | object ho => exact .object ho
  | source hsrc href => exact .source hsrc href
  | edge ho hsrc href ih => exact .edge ih (mem_followed hok hlengths ho hsrc) href

end Lemmas

end GcUtil.Mark.References
