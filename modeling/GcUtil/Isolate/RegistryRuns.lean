import GcUtil.Isolate.RegistryScan
import Mathlib.Logic.Function.Basic

/-! Runs of the registry calls of all isolates. Every call holds `range_lock`, so
an interleaving is a list of calls. A section is registered once, when its isolate
obtains the memory, and disappears with the isolate. -/
namespace GcUtil.Isolate.RegistryRuns
open Basic Registry RegistryRefinement RegistryScan List

structure System where
  registry : RangeRegistry
  heapSects : Nat → List HeapSect

def System.init : System := ⟨emptyRegistry, fun _ => []⟩

inductive Call where
  | register (iso start bytes : Nat)
  | noteUnmap (iso start bytes : Nat)
  | noteRemap (iso start bytes : Nat)
  | deinit (iso : Nat)
deriving DecidableEq, Repr

def addSect (heapSects : Nat → List HeapSect) (iso start bytes : Nat) : Nat → List HeapSect :=
  Function.update heapSects iso (heapSects iso ++ [⟨start, bytes⟩])

def clearSects (heapSects : Nat → List HeapSect) (iso : Nat) : Nat → List HeapSect :=
  Function.update heapSects iso []

def callStep (realloc : Nat → Bool) (incremental : Nat → Bool) (s : System) : Call → System
  | .register iso start bytes =>
      ⟨registerHeapSect realloc (incremental iso) start bytes s.registry,
        addSect s.heapSects iso start bytes⟩
  | .noteUnmap iso start bytes =>
      { s with registry := noteUnmap realloc (incremental iso) start bytes s.registry }
  | .noteRemap iso start bytes =>
      { s with registry := noteRemap realloc (incremental iso) start bytes s.registry }
  | .deinit iso =>
      ⟨deinitRanges realloc (incremental iso) (s.heapSects iso) s.registry,
        clearSects s.heapSects iso⟩

def runCalls (realloc : Nat → Bool) (incremental : Nat → Bool) (calls : List Call) : System :=
  calls.foldl (callStep realloc incremental) System.init

/-- The state of the reference: what every address is, and who holds which section. -/
structure Reference where
  map : AddrMap
  heapSects : Nat → List HeapSect

def Reference.init : Reference := ⟨fun _ => .unregistered, fun _ => []⟩

def noteMap (committed : Bool) (start bytes : Nat) (m : AddrMap) : AddrMap :=
  if start = 0 then m else markMap start (start + bytes) committed m

def referenceStep (incremental : Nat → Bool) (ref : Reference) : Call → Reference
  | .register iso start bytes =>
      ⟨if incremental iso then registerMap start bytes ref.map else ref.map,
        addSect ref.heapSects iso start bytes⟩
  | .noteUnmap iso start bytes =>
      { ref with map := if incremental iso then noteMap false start bytes ref.map else ref.map }
  | .noteRemap iso start bytes =>
      { ref with map := if incremental iso then noteMap true start bytes ref.map else ref.map }
  | .deinit iso =>
      ⟨if incremental iso then deinitMap (ref.heapSects iso) ref.map else ref.map,
        clearSects ref.heapSects iso⟩

def referenceRun (incremental : Nat → Bool) (calls : List Call) : Reference :=
  calls.foldl (referenceStep incremental) Reference.init

def Admissible (m : AddrMap) : Call → Prop
  | .register _ start bytes =>
      0 < bytes ∧ ∀ a, start ≤ a → a < start + bytes → m a = .unregistered
  | _ => True

def AdmissibleFrom (incremental : Nat → Bool) (ref : Reference) : List Call → Prop
  | [] => True
  | c :: calls => Admissible ref.map c ∧ AdmissibleFrom incremental (referenceStep incremental ref c) calls

structure Represents (realloc : Nat → Bool) (ranges : List IsolateRange) (m : AddrMap) : Prop where
  canonical : Canonical ranges
  sound : Sound ranges m
  complete : (∀ n, realloc n = true) → Complete ranges m

theorem coalesceRanges_represents {realloc : Nat → Bool} {st : RangeRegistry} {m : AddrMap}
    (hsound : Sound st.ranges m) (hcomplete : (∀ n, realloc n = true) → Complete st.ranges m) :
    Represents realloc (coalesceRanges st).ranges m where
  canonical := (coalesceRanges_sound hsound).1
  sound := (coalesceRanges_sound hsound).2
  complete := fun htotal => coalesceRanges_complete hsound (hcomplete htotal)

section Register

variable {m : AddrMap} {start bytes : Nat} {st : RangeRegistry} {realloc : Nat → Bool}

theorem sound_register {ranges : List IsolateRange} (hbytes : 0 < bytes)
    (hfresh : ∀ a, start ≤ a → a < start + bytes → m a = .unregistered) (h : Sound ranges m) :
    Sound (ranges ++ [⟨start, start + bytes, true⟩]) (registerMap start bytes m) := by
  have hout : ∀ r ∈ ranges, r.stop ≤ start ∨ start + bytes ≤ r.start := by
    intro r hr
    have hproper : r.start < r.stop := h.proper r hr
    by_contra hmeet
    have hin := h.agrees r hr (max r.start start) ⟨by omega,by omega⟩
    rw [hfresh _ (by omega) (by omega)] at hin
    exact stateOf_ne_unregistered _ hin.symm
  refine ⟨?_,?_,?_⟩
  · intro r hr
    rcases mem_append.mp hr with hr | hr
    · exact h.proper r hr
    · rw [mem_singleton.mp hr]
      change start < start + bytes
      omega
  · refine pairwise_append.mpr ⟨h.apart,pairwise_singleton _ _,?_⟩
    intro r hr s hs
    rw [mem_singleton.mp hs]
    exact hout r hr
  · intro r hr a ha
    have hax : r.start ≤ a ∧ a < r.stop := ha
    rcases mem_append.mp hr with hr | hr
    · have := hout r hr
      rw [registerMap,if_neg (by omega)]
      exact h.agrees r hr a ha
    · rw [mem_singleton.mp hr] at hax ⊢
      exact if_pos hax

theorem sound_register_lost {ranges : List IsolateRange}
    (hfresh : ∀ a, start ≤ a → a < start + bytes → m a = .unregistered) (h : Sound ranges m) :
    Sound ranges (registerMap start bytes m) := by
  refine ⟨h.proper,h.apart,?_⟩
  intro r hr a ha
  rw [registerMap,if_neg]
  · exact h.agrees r hr a ha
  · intro hin
    have hm := h.agrees r hr a ha
    rw [hfresh a hin.1 hin.2] at hm
    exact stateOf_ne_unregistered _ hm.symm

theorem complete_register {ranges : List IsolateRange} (h : Complete ranges m) :
    Complete (ranges ++ [⟨start, start + bytes, true⟩]) (registerMap start bytes m) := by
  intro a ha
  by_cases hin : start ≤ a ∧ a < start + bytes
  · exact ⟨⟨start,start + bytes,true⟩,by simp,hin⟩
  · rw [registerMap,if_neg hin] at ha
    obtain ⟨r,hr,hra⟩ := h a ha
    exact ⟨r,by simp [hr],hra⟩

theorem registerHeapSect_represents (incremental : Bool) (hbytes : 0 < bytes)
    (hfresh : ∀ a, start ≤ a → a < start + bytes → m a = .unregistered)
    (h : Represents realloc st.ranges m) :
    Represents realloc (registerHeapSect realloc incremental start bytes st).ranges
      (if incremental then registerMap start bytes m else m) := by
  unfold registerHeapSect
  cases incremental with
  | false => exact h
  | true =>
    simp only [Bool.not_true,Bool.false_eq_true,ite_false,ite_true]
    split
    · exact coalesceRanges_represents (sound_register hbytes hfresh h.sound)
        (fun htotal => complete_register (h.complete htotal))
    · rename_i hfull
      rw [ensureRangeCapacity_ranges]
      refine ⟨h.canonical,sound_register_lost hfresh h.sound,?_⟩
      intro htotal
      exact absurd (ensureRangeCapacity_of_total realloc htotal st 1) hfull

end Register

section Note

variable {m : AddrMap} {start bytes : Nat} {committed : Bool} {st : RangeRegistry}
  {realloc : Nat → Bool}

theorem markMap_empty (m : AddrMap) (start : Nat) (committed : Bool) :
    markMap start start committed m = m := by
  funext a
  exact if_neg (by omega)

theorem noteRange_cases (realloc : Nat → Bool) (committed : Bool) (start bytes : Nat)
    (st : RangeRegistry) (m : AddrMap) :
    (noteRange realloc true committed start bytes st = st ∧ noteMap committed start bytes m = m) ∨
      (0 < bytes ∧
        noteRange realloc true committed start bytes st =
          coalesceRanges (markRange realloc start (start + bytes) committed st) ∧
        noteMap committed start bytes m = markMap start (start + bytes) committed m) := by
  unfold noteRange noteMap
  by_cases hstart : start = 0
  · exact .inl ⟨by simp [hstart],if_pos hstart⟩
  by_cases hbytes : bytes = 0
  · exact .inl ⟨by simp [hbytes],by rw [if_neg hstart,hbytes,Nat.add_zero,markMap_empty]⟩
  · exact .inr ⟨by omega,if_neg (by simp [hstart,hbytes]),if_neg hstart⟩

theorem noteRange_represents (incremental : Bool) (h : Represents realloc st.ranges m) :
    Represents realloc (noteRange realloc incremental committed start bytes st).ranges
      (if incremental then noteMap committed start bytes m else m) := by
  cases incremental with
  | false => simpa [noteRange] using h
  | true =>
    rcases noteRange_cases realloc committed start bytes st m with ⟨hst,hm⟩ | ⟨hbytes,hst,hm⟩
    · rw [hst,if_pos rfl,hm]
      exact h
    · rw [hst,if_pos rfl,hm]
      exact coalesceRanges_represents (markRange_sound (by omega) st h.sound)
        (fun htotal => markRange_complete htotal (by omega) st (h.complete htotal))

end Note

section Deinit

variable {m : AddrMap} {st : RangeRegistry} {realloc : Nat → Bool}

theorem deinitMap_cons (sect : HeapSect) (heapSects : List HeapSect) (m : AddrMap) :
    deinitMap (sect :: heapSects) m =
      deinitMap heapSects (deleteMap sect.hsStart (sect.hsStart + sect.hsBytes) m) := by
  funext a
  unfold deinitMap deleteMap
  by_cases hsect : sect.hsStart ≤ a ∧ a < sect.hsStart + sect.hsBytes
  · have hcon : sect.Contains a := hsect
    simp [hsect,hcon]
  · have hcon : ¬ sect.Contains a := hsect
    simp [hsect,hcon]

theorem deinitMap_nil (m : AddrMap) : deinitMap [] m = m := by
  funext a
  exact if_neg (by simp)

theorem deleteSects_rule {P : List IsolateRange → AddrMap → Prop}
    (hstep : ∀ (st : RangeRegistry) m start stop, start ≤ stop → P st.ranges m →
      P (deleteRange realloc start stop st).ranges (deleteMap start stop m))
    (heapSects : List HeapSect) (h : P st.ranges m) :
    P (heapSects.foldl (fun st sect =>
      deleteRange realloc sect.hsStart (sect.hsStart + sect.hsBytes) st) st).ranges
      (deinitMap heapSects m) := by
  induction heapSects generalizing st m with
  | nil => rwa [foldl_nil,deinitMap_nil]
  | cons sect heapSects ih =>
    rw [foldl_cons,deinitMap_cons]
    exact ih (hstep st m _ _ (by omega) h)

theorem deinitRanges_represents (incremental : Bool) (heapSects : List HeapSect)
    (h : Represents realloc st.ranges m) :
    Represents realloc (deinitRanges realloc incremental heapSects st).ranges
      (if incremental then deinitMap heapSects m else m) := by
  cases incremental with
  | false => exact h
  | true =>
    exact coalesceRanges_represents
      (deleteSects_rule (fun st _ _ _ hle h => deleteRange_sound hle st h) heapSects h.sound)
      (fun htotal => deleteSects_rule (fun st _ _ _ hle h => deleteRange_complete htotal hle st h)
        heapSects (h.complete htotal))

end Deinit

section Runs

variable {realloc : Nat → Bool} {incremental : Nat → Bool} {A : Prop}

def CautiousRanges (ranges : List IsolateRange) (m : AddrMap) : Prop :=
  ∀ r ∈ ranges, Agrees Cautious m r

theorem registerHeapSect_cautious (incremental : Bool) {m : AddrMap} {st : RangeRegistry}
    (start bytes : Nat) (h : CautiousRanges st.ranges m) :
    CautiousRanges (registerHeapSect realloc incremental start bytes st).ranges
      (if incremental then registerMap start bytes m else m) := by
  unfold registerHeapSect
  cases incremental with
  | false => exact h
  | true =>
    have hold : CautiousRanges st.ranges (registerMap start bytes m) := by
      intro r hr a ha
      unfold registerMap
      split
      · exact ⟨by simp,fun _ => rfl⟩
      · exact h r hr a ha
    simp only [Bool.not_true,Bool.false_eq_true,ite_false,ite_true]
    split
    · apply coalesceRanges_agrees
      intro r hr
      rcases mem_append.mp hr with hr | hr
      · exact hold r hr
      · rw [mem_singleton.mp hr]
        intro a ha
        have hin : start ≤ a ∧ a < start + bytes := ha
        rw [registerMap,if_pos hin]
        exact reading_cautious.exact true
    · rw [ensureRangeCapacity_ranges]
      exact hold

theorem noteRange_cautious (incremental committed : Bool) {m : AddrMap} {st : RangeRegistry}
    (start bytes : Nat) (h : CautiousRanges st.ranges m) :
    CautiousRanges (noteRange realloc incremental committed start bytes st).ranges
      (if incremental then noteMap committed start bytes m else m) := by
  cases incremental with
  | false => simpa [noteRange] using h
  | true =>
    rcases noteRange_cases realloc committed start bytes st m with ⟨hst,hm⟩ | ⟨hbytes,hst,hm⟩
    · rw [hst,if_pos rfl,hm]
      exact h
    · rw [hst,if_pos rfl,hm]
      exact coalesceRanges_agrees (markRange_agrees reading_cautious (by omega) st h)

theorem deinitRanges_cautious (incremental : Bool) {m : AddrMap} {st : RangeRegistry}
    (heapSects : List HeapSect) (h : CautiousRanges st.ranges m) :
    CautiousRanges (deinitRanges realloc incremental heapSects st).ranges
      (if incremental then deinitMap heapSects m else m) := by
  cases incremental with
  | false => exact h
  | true =>
    exact coalesceRanges_agrees (deleteSects_rule (P := CautiousRanges)
      (fun st _ _ _ hle h => deleteRange_agrees hle st h) heapSects h)

/-- The registry is never too bold, and it represents the map if the calls are
admissible. -/
structure Refines (realloc : Nat → Bool) (A : Prop) (s : System) (ref : Reference) : Prop where
  heapSects : s.heapSects = ref.heapSects
  cautious : CautiousRanges s.registry.ranges ref.map
  represents : A → Represents realloc s.registry.ranges ref.map

theorem refines_init : Refines realloc A System.init Reference.init where
  heapSects := rfl
  cautious := by simp [CautiousRanges,System.init,emptyRegistry]
  represents := fun _ => {
    canonical := ⟨by simp [System.init,emptyRegistry],List.Pairwise.nil,List.Pairwise.nil⟩
    sound := ⟨by simp [System.init,emptyRegistry],List.Pairwise.nil,
      by simp [System.init,emptyRegistry]⟩
    complete := fun _ a ha => absurd rfl ha }

theorem callStep_refines (incremental : Nat → Bool) {s : System} {ref : Reference} (c : Call)
    (hadm : A → Admissible ref.map c) (h : Refines realloc A s ref) :
    Refines realloc A (callStep realloc incremental s c) (referenceStep incremental ref c) := by
  obtain ⟨hsects,hcautious,hrep⟩ := h
  cases c with
  | register iso start bytes =>
    exact ⟨congrArg (addSect · iso start bytes) hsects,
      registerHeapSect_cautious (incremental iso) start bytes hcautious,
      fun hA => registerHeapSect_represents (incremental iso) (hadm hA).1 (hadm hA).2 (hrep hA)⟩
  | noteUnmap iso start bytes =>
    exact ⟨hsects,noteRange_cautious (incremental iso) false start bytes hcautious,
      fun hA => noteRange_represents (incremental iso) (hrep hA)⟩
  | noteRemap iso start bytes =>
    exact ⟨hsects,noteRange_cautious (incremental iso) true start bytes hcautious,
      fun hA => noteRange_represents (incremental iso) (hrep hA)⟩
  | deinit iso =>
    refine ⟨congrArg (clearSects · iso) hsects,?_,?_⟩
    all_goals
      dsimp only [callStep,referenceStep]
      rw [hsects]
    · exact deinitRanges_cautious (incremental iso) (ref.heapSects iso) hcautious
    · exact fun hA => deinitRanges_represents (incremental iso) (ref.heapSects iso) (hrep hA)

theorem runFrom_refines (calls : List Call) {s : System} {ref : Reference}
    (hadm : A → AdmissibleFrom incremental ref calls) (h : Refines realloc A s ref) :
    Refines realloc A (calls.foldl (callStep realloc incremental) s)
      (calls.foldl (referenceStep incremental) ref) := by
  induction calls generalizing s ref with
  | nil => exact h
  | cons c calls ih =>
    exact ih (fun hA => (hadm hA).2) (callStep_refines incremental c (fun hA => (hadm hA).1) h)

theorem runCalls_refines (realloc incremental : Nat → Bool) (calls : List Call) :
    Refines realloc (AdmissibleFrom incremental Reference.init calls)
      (runCalls realloc incremental calls) (referenceRun incremental calls) :=
  runFrom_refines calls id refines_init

end Runs

/-- With every isolate incremental and no failing `realloc`, the registry answers
as the pointwise map does and the array is canonical after each call. -/
theorem classifyFault_runCalls (realloc : Nat → Bool) (htotal : ∀ n, realloc n = true)
    (calls : List Call) (hadm : AdmissibleFrom (fun _ => true) Reference.init calls) :
    Canonical (runCalls realloc (fun _ => true) calls).registry.ranges ∧
      ∀ a, classifyFault (runCalls realloc (fun _ => true) calls).registry a =
        answer ((referenceRun (fun _ => true) calls).map a) := by
  have hrep := (runCalls_refines realloc _ calls).represents hadm
  exact ⟨hrep.canonical,
    fun a => classifyFault_exact hrep.canonical hrep.sound (hrep.complete htotal) a⟩

def twoSections : List Call :=
  [.register 0 4096 8192, .register 1 16384 4096, .noteUnmap 0 4096 4096]

theorem twoSections_admissible (incremental : Nat → Bool) :
    AdmissibleFrom incremental Reference.init twoSections := by
  refine ⟨⟨by decide,fun _ _ _ => rfl⟩,⟨by decide,fun a ha _ => ?_⟩,trivial,trivial⟩
  dsimp only [referenceStep]
  split
  · exact if_neg (by omega)
  · rfl

theorem classifyFault_twoSections :
    classifyFault (runCalls (fun _ => true) (fun _ => true) twoSections).registry 5000 =
      .decommitted :=
  ((classifyFault_runCalls (fun _ => true) (fun _ => rfl) twoSections
    (twoSections_admissible _)).2 5000).trans (by decide)

/-- Whatever `realloc` does, an answer is the map's or `unknown`. That memory which
is not committed is never reported as another isolate's holds even for sections
that overlap. -/
theorem classifyFault_failSafe (realloc : Nat → Bool) (incremental : Nat → Bool)
    (calls : List Call) (a : Nat) :
    (AdmissibleFrom incremental Reference.init calls →
      classifyFault (runCalls realloc incremental calls).registry a =
          answer ((referenceRun incremental calls).map a) ∨
        classifyFault (runCalls realloc incremental calls).registry a = .unknown) ∧
      ((referenceRun incremental calls).map a ≠ .committed →
        classifyFault (runCalls realloc incremental calls).registry a ≠ .crossIsolate) := by
  refine ⟨?_,?_⟩
  · intro hadm
    have hrep := (runCalls_refines realloc _ calls).represents hadm
    exact classifyFault_sound hrep.canonical hrep.sound a
  · intro hstate hcross
    obtain ⟨r,hr,ha,hcommitted⟩ := classifyFault_crossIsolate hcross
    exact hstate (((runCalls_refines realloc incremental calls).cautious r hr a ha).2 hcommitted)

theorem classifyFault_lostSection :
    (classifyFault (runCalls (fun n => n != 0) (fun _ => true) twoSections).registry 9000 =
          .crossIsolate ∨
        classifyFault (runCalls (fun n => n != 0) (fun _ => true) twoSections).registry 9000 =
          .unknown) ∧
      classifyFault (runCalls (fun n => n != 0) (fun _ => true) twoSections).registry 5000 ≠
        .crossIsolate :=
  ⟨(classifyFault_failSafe (fun n => n != 0) (fun _ => true) twoSections 9000).1
      (twoSections_admissible _),
    (classifyFault_failSafe (fun n => n != 0) (fun _ => true) twoSections 5000).2 (by decide)⟩

end GcUtil.Isolate.RegistryRuns
