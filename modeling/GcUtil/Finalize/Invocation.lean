import GcUtil.Basic

/-! `GC_invoke_finalizers` in the build without threads, as steps between which finalizers and the
client run: they free memory, collect, set the interrupt request and call `GC_invoke_finalizers`
again. An entry of the queue is named by a number. -/
namespace GcUtil.Finalize.Invocation
open Basic List Option

section Model

/-- A call of `invoke_finalizers_internal` that has not returned; `running` tells that it is inside a
finalizer. -/
structure Frame where
  count : Nat
  bytesFreedBefore : BitVec 64
  running : Bool

/-- The variables of the collector, the calls in progress with the innermost one first, and the
history: the entries queued, invoked and taken back from the queue, and the bytes freed by
finalizers since the counters were reset. -/
structure State where
  finalizeNow : List Nat
  bytesFreed : BitVec 64
  finalizerBytesFreed : BitVec 64
  finalizerNested : Bool
  interruptFinalizers : Nat
  calls : List Frame
  assertFailed : Bool
  arrivals : List Nat
  invoked : List Nat
  putBack : List Nat
  freedByFinalizers : BitVec 64

def initial : State := ⟨[], 0, 0, false, 0, [], false, [], [], [], 0⟩

variable (s : State) (f : Frame) (rest : List Frame)

def State.clientRuns : Bool := s.calls.head?.elim true Frame.running

/-- `GC_invoke_finalizers` up to its loop; `GC_check_finalizer_nested` refuses a nested call. -/
def invokeFinalizers : State :=
  if s.finalizerNested then s else { s with finalizerNested := true, calls := ⟨0, 0, false⟩ :: s.calls }

def takeEntry (entry : Nat) (queue : List Nat) : State :=
  { s with finalizeNow := queue, calls := { f with running := true } :: rest, invoked := s.invoked ++ [entry] }

/-- The end of `invoke_finalizers_internal` and of `GC_invoke_finalizers`. -/
def leave : State :=
  { s with
    finalizerBytesFreed :=
      if f.count ≠ 0 then s.finalizerBytesFreed + (s.bytesFreed - f.bytesFreedBefore) else s.finalizerBytesFreed
    finalizerNested := false
    assertFailed := s.assertFailed || !s.finalizeNow.isEmpty
    calls := rest }

def turn : State :=
  match s.finalizeNow with
  | [] => leave s f rest
  | entry :: queue =>
      if f.count = 0 then takeEntry s { f with bytesFreedBefore := s.bytesFreed } rest entry queue
      else if s.interruptFinalizers ≠ 0 ∧ s.interruptFinalizers ≤ f.count then leave s f rest
      else takeEntry s f rest entry queue

/-- What a collection does here: `GC_finalize` puts entries in front of the others and may put some of
them all back into the table, and after an allocation failure it resets the nesting level; the
counters of freed bytes are reset. -/
def collect (ready : List Nat) (revived : Nat → Bool) (allocFailed : Bool) : State :=
  { s with
    finalizeNow := (ready ++ s.finalizeNow).filter fun e => !revived e
    bytesFreed := 0
    finalizerBytesFreed := 0
    finalizerNested := s.finalizerNested && !allocFailed
    arrivals := ready.filter (fun e => !revived e) ++ s.arrivals
    putBack := s.putBack ++ s.finalizeNow.filter revived
    freedByFinalizers := 0 }

def freeBytes (n : Nat) : State :=
  { s with
    bytesFreed := s.bytesFreed + BitVec.ofNat 64 n
    freedByFinalizers :=
      if s.calls.isEmpty then s.freedByFinalizers else s.freedByFinalizers + BitVec.ofNat 64 n }

inductive Event where
  | invoke
  | turn
  | finalizerReturns
  | free (n : Nat)
  | collect (ready : List Nat) (revived : Nat → Bool) (allocFailed : Bool)
  | setInterrupt (value : Nat)

/-- An event has no result where it cannot take place. -/
def step : Event → Option State
  | .invoke => if s.clientRuns then some (invokeFinalizers s) else none
  | .turn =>
      match s.calls with
      | [] => none
      | f :: rest => if f.running then none else some (turn s f rest)
  | .finalizerReturns =>
      match s.calls with
      | [] => none
      | f :: rest =>
          if f.running then some { s with calls := { f with count := f.count + 1, running := false } :: rest } else none
  | .free n => if s.clientRuns then some (freeBytes s n) else none
  | .collect ready revived allocFailed => if s.clientRuns then some (collect s ready revived allocFailed) else none
  | .setInterrupt value => if s.clientRuns then some { s with interruptFinalizers := value } else none

def run (events : List Event) : Option State := events.foldlM step s

end Model

section Steps

variable {s s' : State} {ev : Event} {f : Frame} {rest : List Frame}

def Interrupted (s : State) (f : Frame) : Prop :=
  s.finalizeNow ≠ [] ∧ f.count ≠ 0 ∧ s.interruptFinalizers ≠ 0 ∧ s.interruptFinalizers ≤ f.count

theorem turn_cases (s : State) (f : Frame) (rest : List Frame) :
    ((s.finalizeNow = [] ∨ Interrupted s f) ∧ turn s f rest = leave s f rest) ∨
    (∃ entry queue, s.finalizeNow = entry :: queue ∧ ¬ Interrupted s f ∧
      turn s f rest = takeEntry s
        { f with bytesFreedBefore := if f.count = 0 then s.bytesFreed else f.bytesFreedBefore } rest entry queue) := by
  unfold turn
  cases hqueue : s.finalizeNow with
  | nil => exact .inl ⟨.inl rfl,rfl⟩
  | cons entry queue =>
    dsimp only
    by_cases hcount : f.count = 0
    · refine .inr ⟨entry,queue,rfl,fun h => h.2.1 hcount,?_⟩
      rw [if_pos hcount,if_pos hcount]
    · rw [if_neg hcount]
      split
      · rename_i hrequest
        exact .inl ⟨.inr ⟨by rw [hqueue]; exact cons_ne_nil _ _,hcount,hrequest⟩,rfl⟩
      · rename_i hrequest
        exact .inr ⟨entry,queue,rfl,fun h => hrequest h.2.2,rfl⟩

theorem step_cases (h : step s ev = some s') :
    (ev = .invoke ∧ s.clientRuns = true ∧ s' = invokeFinalizers s) ∨
    (∃ f rest, ev = .turn ∧ s.calls = f :: rest ∧ f.running = false ∧ s' = turn s f rest) ∨
    (∃ f rest, ev = .finalizerReturns ∧ s.calls = f :: rest ∧ f.running = true ∧
      s' = { s with calls := { f with count := f.count + 1, running := false } :: rest }) ∨
    (∃ n, ev = .free n ∧ s.clientRuns = true ∧ s' = freeBytes s n) ∨
    (∃ ready revived allocFailed, ev = .collect ready revived allocFailed ∧ s.clientRuns = true ∧
      s' = collect s ready revived allocFailed) ∨
    (∃ value, ev = .setInterrupt value ∧ s.clientRuns = true ∧ s' = { s with interruptFinalizers := value }) := by
  cases ev with
  | invoke =>
    rw [step] at h
    split at h
    · rename_i hclient
      exact .inl ⟨rfl,hclient,(Option.some.inj h).symm⟩
    · cases h
  | turn =>
    rw [step] at h
    cases hcalls : s.calls with
    | nil =>
      rw [hcalls] at h
      cases h
    | cons f rest =>
      rw [hcalls] at h
      dsimp only at h
      split at h
      · cases h
      · rename_i hrunning
        exact .inr (.inl ⟨f,rest,rfl,rfl,Bool.eq_false_iff.mpr hrunning,(Option.some.inj h).symm⟩)
  | finalizerReturns =>
    rw [step] at h
    cases hcalls : s.calls with
    | nil =>
      rw [hcalls] at h
      cases h
    | cons f rest =>
      rw [hcalls] at h
      dsimp only at h
      split at h
      · rename_i hrunning
        exact .inr (.inr (.inl ⟨f,rest,rfl,rfl,hrunning,(Option.some.inj h).symm⟩))
      · cases h
  | free n =>
    rw [step] at h
    split at h
    · rename_i hclient
      exact .inr (.inr (.inr (.inl ⟨n,rfl,hclient,(Option.some.inj h).symm⟩)))
    · cases h
  | collect ready revived allocFailed =>
    rw [step] at h
    split at h
    · rename_i hclient
      exact .inr (.inr (.inr (.inr (.inl ⟨ready,revived,allocFailed,rfl,hclient,
        (Option.some.inj h).symm⟩))))
    · cases h
  | setInterrupt value =>
    rw [step] at h
    split at h
    · rename_i hclient
      exact .inr (.inr (.inr (.inr (.inr ⟨value,rfl,hclient,(Option.some.inj h).symm⟩))))
    · cases h

end Steps

section Invariants

variable {s s' : State} {ev : Event} {f : Frame} {rest : List Frame}

structure State.Inv (s : State) : Prop where
  entries : (s.invoked ++ s.putBack ++ s.finalizeNow).Perm s.arrivals
  order : s.finalizeNow.Sublist s.arrivals
  nested : s.finalizerNested = true → s.calls ≠ []

theorem initial_inv : initial.Inv where
  entries := List.Perm.nil
  order := List.Sublist.refl _
  nested h := absurd h (by decide)

theorem turn_inv (hinv : s.Inv) (f : Frame) (rest : List Frame) : (turn s f rest).Inv := by
  rcases turn_cases s f rest with ⟨_,heq⟩ | ⟨entry,queue,hqueue,_,heq⟩
  · rw [heq]
    exact ⟨hinv.entries,hinv.order,fun h => absurd h Bool.false_ne_true⟩
  · rw [heq]
    have hentries := hinv.entries
    have horder := hinv.order
    rw [hqueue] at hentries horder
    refine ⟨?_,(sublist_cons_self entry queue).trans horder,fun _ => cons_ne_nil _ _⟩
    refine List.Perm.trans ?_ hentries
    simp only [takeEntry,append_assoc,singleton_append]
    exact (perm_middle.symm).append_left s.invoked

theorem collect_inv (hinv : s.Inv) (ready : List Nat) (revived : Nat → Bool) (allocFailed : Bool) :
    (collect s ready revived allocFailed).Inv := by
  rw [collect,filter_append]
  set arrived := ready.filter fun e => !revived e
  refine ⟨?_,(filter_sublist.trans hinv.order).append_left arrived,fun h => ?_⟩
  · have hsplit := filter_append_perm revived s.finalizeNow
    calc s.invoked ++ (s.putBack ++ s.finalizeNow.filter revived) ++
          (arrived ++ s.finalizeNow.filter fun e => !revived e)
        |>.Perm (arrived ++ (s.invoked ++ (s.putBack ++ s.finalizeNow.filter revived) ++
            s.finalizeNow.filter fun e => !revived e)) := perm_append_comm_assoc _ _ _
      _ = arrived ++ (s.invoked ++ s.putBack ++ (s.finalizeNow.filter revived ++
            s.finalizeNow.filter fun e => !revived e)) := by simp only [append_assoc]
      _ |>.Perm (arrived ++ (s.invoked ++ s.putBack ++ s.finalizeNow)) := (hsplit.append_left _).append_left _
      _ |>.Perm (arrived ++ s.arrivals) := hinv.entries.append_left arrived
  · exact hinv.nested (Bool.and_eq_true_iff.mp h).1

theorem step_inv (hinv : s.Inv) (h : step s ev = some s') : s'.Inv := by
  rcases step_cases h with ⟨_,_,rfl⟩ | ⟨f,rest,_,_,_,rfl⟩ | ⟨f,rest,_,_,_,rfl⟩ | ⟨n,_,_,rfl⟩ |
    ⟨ready,revived,allocFailed,_,_,rfl⟩ | ⟨value,_,_,rfl⟩
  · unfold invokeFinalizers
    split
    · exact hinv
    · exact ⟨hinv.entries,hinv.order,fun _ => cons_ne_nil _ _⟩
  · exact turn_inv hinv f rest
  · exact ⟨hinv.entries,hinv.order,fun _ => cons_ne_nil _ _⟩
  · exact ⟨hinv.entries,hinv.order,hinv.nested⟩
  · exact collect_inv hinv ready revived allocFailed
  · exact ⟨hinv.entries,hinv.order,hinv.nested⟩

theorem run_inv (hinv : s.Inv) {events : List Event} (h : run s events = some s') : s'.Inv := by
  induction events generalizing s with
  | nil =>
    cases h
    exact hinv
  | cons ev events ih =>
    obtain ⟨mid,hmid,hrest⟩ := bind_eq_some_iff.mp h
    exact ih (step_inv hinv hmid) hrest

end Invariants

section Conditions

variable {s s' : State} {ev : Event} {f : Frame} {rest : List Frame}

def NotInterrupted (s : State) : Event → Prop
  | .turn => ∀ f rest, s.calls = f :: rest → ¬ Interrupted s f
  | _ => True

/-- No collection takes an entry back that an earlier one left on the queue. -/
def QueueKept (s : State) : Event → Prop
  | .collect _ revived _ => ∀ e ∈ s.finalizeNow, revived e = false
  | _ => True

/-- A finalizer collects only if no bytes were counted as freed when the outermost call took its first
entry, and a nested call that was not refused ends with no bytes freed since its first entry. -/
def BytesKept (s : State) : Event → Prop
  | .turn => ∀ f rest, s.calls = f :: rest → rest ≠ [] → s.finalizeNow = [] ∨ Interrupted s f →
      f.count = 0 ∨ s.bytesFreed = f.bytesFreedBefore
  | .collect _ _ _ => ∀ f, s.calls.getLast? = some f → f.bytesFreedBefore = 0
  | _ => True

def Always (C : State → Event → Prop) : State → List Event → Prop
  | _, [] => True
  | s, ev :: events => C s ev ∧ ∀ s', step s ev = some s' → Always C s' events

theorem step_assertFailed (h : step s ev = some s') :
    s'.assertFailed = false ↔ s.assertFailed = false ∧ NotInterrupted s ev := by
  rcases step_cases h with ⟨rfl,_,rfl⟩ | ⟨f,rest,rfl,hcalls,_,rfl⟩ | ⟨f,rest,rfl,_,_,rfl⟩ |
    ⟨n,rfl,_,rfl⟩ | ⟨ready,revived,allocFailed,rfl,_,rfl⟩ | ⟨value,rfl,_,rfl⟩
  · unfold invokeFinalizers
    split <;> simp [NotInterrupted]
  · have hcond : NotInterrupted s .turn ↔ ¬ Interrupted s f := by
      simp [NotInterrupted,hcalls]
    rw [hcond]
    rcases turn_cases s f rest with ⟨hend,heq⟩ | ⟨entry,queue,_,hnot,heq⟩
    · rw [heq,leave]
      rcases hend with hempty | hinterrupted
      · have hnot : ¬ Interrupted s f := fun hi => hi.1 hempty
        simp [hempty,hnot]
      · simp [hinterrupted,hinterrupted.1]
    · rw [heq,takeEntry]
      simp [hnot]
  · simp [NotInterrupted]
  · simp [NotInterrupted,freeBytes]
  · simp [NotInterrupted,collect]
  · simp [NotInterrupted]

theorem step_putBack (h : step s ev = some s') : s'.putBack = [] ↔ s.putBack = [] ∧ QueueKept s ev := by
  rcases step_cases h with ⟨rfl,_,rfl⟩ | ⟨f,rest,rfl,_,_,rfl⟩ | ⟨f,rest,rfl,_,_,rfl⟩ |
    ⟨n,rfl,_,rfl⟩ | ⟨ready,revived,allocFailed,rfl,_,rfl⟩ | ⟨value,rfl,_,rfl⟩
  · unfold invokeFinalizers
    split <;> simp [QueueKept]
  · rcases turn_cases s f rest with ⟨_,heq⟩ | ⟨entry,queue,_,_,heq⟩
    · simp [heq,leave,QueueKept]
    · simp [heq,takeEntry,QueueKept]
  · simp [QueueKept]
  · simp [QueueKept,freeBytes]
  · simp [QueueKept,collect]
  · simp [QueueKept]

/-- What every step that meets a condition keeps, and no other, is kept by the runs that meet it. -/
theorem run_iff_always {P : State → Prop} {C : State → Event → Prop} {events : List Event}
    (hstep : ∀ s ev s', step s ev = some s' → (P s' ↔ P s ∧ C s ev)) (h : run s events = some s') :
    P s' ↔ P s ∧ Always C s events := by
  induction events generalizing s with
  | nil =>
    cases h
    simp [Always]
  | cons ev events ih =>
    obtain ⟨mid,hmid,hrest⟩ := bind_eq_some_iff.mp h
    rw [ih hrest,hstep s ev mid hmid,Always,and_assoc]
    simp [hmid]

def Counts (s : State) : Prop :=
  s.freedByFinalizers = s.finalizerBytesFreed + s.calls.getLast?.elim 0 fun f =>
    if f.count = 0 ∧ f.running = false then 0 else s.bytesFreed - f.bytesFreedBefore

def OuterRunning (s : State) : Prop := ∀ f ∈ s.calls.tail, f.running = true

theorem OuterRunning.last (hout : OuterRunning s) (hclient : s.clientRuns = true)
    (hlast : s.calls.getLast? = some f) : f.running = true := by
  unfold OuterRunning State.clientRuns at *
  cases hcalls : s.calls with
  | nil =>
    rw [hcalls] at hlast
    cases hlast
  | cons g rest =>
    rw [hcalls] at hlast hclient hout
    rcases mem_cons.mp (List.mem_of_getLast? hlast) with rfl | hmem
    · exact hclient
    · exact hout f hmem

theorem step_outerRunning (hout : OuterRunning s) (h : step s ev = some s') : OuterRunning s' := by
  rcases step_cases h with ⟨_,hclient,rfl⟩ | ⟨f,rest,_,hcalls,_,rfl⟩ | ⟨f,rest,_,hcalls,_,rfl⟩ |
    ⟨n,_,_,rfl⟩ | ⟨ready,revived,allocFailed,_,_,rfl⟩ | ⟨value,_,_,rfl⟩
  · unfold invokeFinalizers
    split
    · exact hout
    · intro g hg
      have hg : g ∈ s.calls := hg
      cases hcalls : s.calls with
      | nil =>
        rw [hcalls] at hg
        cases hg
      | cons f rest =>
        unfold OuterRunning State.clientRuns at *
        rw [hcalls] at hg hclient hout
        rcases mem_cons.mp hg with rfl | hg
        · exact hclient
        · exact hout g hg
  · have hrest : ∀ g ∈ rest, g.running = true := by
      unfold OuterRunning at hout
      rwa [hcalls] at hout
    rcases turn_cases s f rest with ⟨_,heq⟩ | ⟨entry,queue,_,_,heq⟩
    · rw [heq]
      exact fun g hg => hrest g (mem_of_mem_tail hg)
    · rw [heq]
      exact hrest
  · unfold OuterRunning at hout ⊢
    rwa [hcalls] at hout
  · exact hout
  · exact hout
  · exact hout

theorem leave_counts (hcounts : Counts s) (hcalls : s.calls = f :: rest)
    (hrunning : f.running = false) (hkept : rest ≠ [] → f.count = 0 ∨ s.bytesFreed = f.bytesFreedBefore) :
    Counts (leave s f rest) := by
  unfold Counts at *
  rw [hcalls] at hcounts
  unfold leave
  dsimp only
  by_cases hrest : rest = []
  · subst hrest
    rw [hcounts]
    by_cases hcount : f.count = 0 <;> simp [hcount,hrunning]
  · rw [List.getLast?_cons_of_ne_nil hrest] at hcounts
    rw [hcounts]
    rcases hkept hrest with hcount | hbytes
    · rw [if_neg (not_not.mpr hcount)]
    · rw [hbytes,BitVec.sub_self,BitVec.add_zero,ite_self]

theorem takeEntry_counts (hcounts : Counts s) (hcalls : s.calls = f :: rest) (hrunning : f.running = false)
    (entry : Nat) (queue : List Nat) :
    Counts (takeEntry s { f with bytesFreedBefore := if f.count = 0 then s.bytesFreed else f.bytesFreedBefore }
      rest entry queue) := by
  unfold Counts at *
  rw [hcalls] at hcounts
  unfold takeEntry
  dsimp only
  by_cases hrest : rest = []
  · subst hrest
    rw [hcounts]
    by_cases hcount : f.count = 0 <;> simp [hcount,hrunning]
  · rw [List.getLast?_cons_of_ne_nil hrest] at hcounts ⊢
    exact hcounts

theorem step_counts (hout : OuterRunning s) (hcounts : Counts s) (h : step s ev = some s') (hkept : BytesKept s ev) :
    Counts s' := by
  rcases step_cases h with ⟨rfl,hclient,rfl⟩ | ⟨f,rest,rfl,hcalls,hrunning,rfl⟩ |
    ⟨f,rest,rfl,hcalls,hrunning,rfl⟩ | ⟨n,rfl,hclient,rfl⟩ | ⟨ready,revived,allocFailed,rfl,hclient,rfl⟩ |
    ⟨value,rfl,_,rfl⟩
  · unfold invokeFinalizers
    split
    · exact hcounts
    · unfold Counts at *
      dsimp only
      by_cases hnil : s.calls = []
      · rw [hnil] at hcounts ⊢
        simpa using hcounts
      · rw [List.getLast?_cons_of_ne_nil hnil]
        exact hcounts
  · rcases turn_cases s f rest with ⟨hend,heq⟩ | ⟨entry,queue,_,_,heq⟩
    · rw [heq]
      exact leave_counts hcounts hcalls hrunning fun hrest => hkept f rest hcalls hrest hend
    · rw [heq]
      exact takeEntry_counts hcounts hcalls hrunning entry queue
  · unfold Counts at *
    rw [hcalls] at hcounts
    dsimp only
    by_cases hrest : rest = []
    · subst hrest
      rw [hcounts]
      simp [hrunning]
    · rw [List.getLast?_cons_of_ne_nil hrest] at hcounts ⊢
      exact hcounts
  · unfold Counts at *
    unfold freeBytes
    dsimp only
    cases hlast : s.calls.getLast? with
    | none =>
      rw [hlast] at hcounts
      rw [List.getLast?_eq_none_iff.mp hlast]
      exact hcounts
    | some f =>
      rw [hlast] at hcounts
      have hrunning := hout.last hclient hlast
      have hcalls : s.calls.isEmpty = false := by
        rw [isEmpty_eq_false_iff]
        intro hnil
        rw [hnil] at hlast
        cases hlast
      rw [hcalls,if_neg Bool.false_ne_true,hcounts]
      simp only [elim_some,hrunning,Bool.true_eq_false,and_false,if_false]
      ring
  · unfold Counts at *
    unfold collect
    dsimp only
    cases hlast : s.calls.getLast? with
    | none => rfl
    | some f =>
      have hrunning := hout.last hclient hlast
      simp [hrunning,hkept f hlast]
  · exact hcounts

theorem run_counts (hout : OuterRunning s) (hcounts : Counts s) {events : List Event} (h : run s events = some s')
    (hkept : Always BytesKept s events) : Counts s' := by
  induction events generalizing s with
  | nil =>
    cases h
    exact hcounts
  | cons ev events ih =>
    obtain ⟨mid,hmid,hrest⟩ := bind_eq_some_iff.mp h
    exact ih (step_outerRunning hout hmid) (step_counts hout hcounts hmid hkept.1) hrest (hkept.2 mid hmid)

end Conditions

section Runs

variable {s : State} {f : Frame} {rest : List Frame} {events : List Event}

def quietTurns : Nat → List Event
  | 0 => [.turn]
  | n + 1 => .turn :: .finalizerReturns :: quietTurns n

theorem run_quietTurns (hcalls : s.calls = f :: rest) (hrunning : f.running = false)
    (hrequest : s.interruptFinalizers = 0) :
    ∃ s', run s (quietTurns s.finalizeNow.length) = some s' ∧ s'.finalizeNow = [] ∧
      s'.invoked = s.invoked ++ s.finalizeNow ∧ s'.calls = rest ∧ s'.finalizerNested = false := by
  have hnot : ∀ t g, t.interruptFinalizers = 0 → ¬ Interrupted t g := fun t g h hi => hi.2.2.1 h
  generalize hn : s.finalizeNow.length = n
  induction n generalizing s f with
  | zero =>
    have hempty := eq_nil_of_length_eq_zero hn
    refine ⟨leave s f rest,?_,hempty,by rw [hempty,append_nil]; rfl,rfl,rfl⟩
    simp [quietTurns,run,step,hcalls,hrunning,turn,hempty]
  | succ n ih =>
    rcases turn_cases s f rest with ⟨hempty | hinterrupted,_⟩ | ⟨entry,queue,hqueue,_,heq⟩
    · rw [hempty] at hn
      cases hn
    · exact absurd hinterrupted (hnot s f hrequest)
    · set g : Frame := { f with bytesFreedBefore := if f.count = 0 then s.bytesFreed else f.bytesFreedBefore }
      have hlen : queue.length = n := by
        rw [hqueue] at hn
        exact Nat.succ.inj hn
      obtain ⟨s',hrun,hempty,hinvoked,hrest,hnested⟩ := @ih
        { takeEntry s g rest entry queue with calls := ⟨g.count + 1,g.bytesFreedBefore,false⟩ :: rest }
        ⟨g.count + 1,g.bytesFreedBefore,false⟩ rfl rfl hrequest hlen
      refine ⟨s',?_,hempty,?_,hrest,hnested⟩
      · rw [← hrun,quietTurns]
        simp only [run,foldlM_cons,step,hcalls,hrunning,heq,Bool.false_eq_true,if_false,
          bind_eq_bind,bind_some,takeEntry,if_true]
      · rw [hinvoked,hqueue]
        simp [takeEntry]

/-- In every run an entry that was queued is invoked once, taken back by a collection or still queued
in its place, and it is invoked once or still queued exactly if no collection takes it back. No call
leaves the nesting level raised; the assertion that the queue is empty holds if and only if no call
gives up with entries queued; the bytes that finalizers free are counted as long as collections and
nested calls keep to the condition; and a call goes through the whole queue. -/
theorem run_invocation (h : run initial events = some s) :
    (s.invoked ++ s.putBack ++ s.finalizeNow).Perm s.arrivals ∧ s.finalizeNow.Sublist s.arrivals ∧
    ((s.invoked ++ s.finalizeNow).Perm s.arrivals ↔ Always QueueKept initial events) ∧
    (s.calls = [] → s.finalizerNested = false) ∧
    (s.assertFailed = false ↔ Always NotInterrupted initial events) ∧
    (Always BytesKept initial events → s.calls = [] → s.finalizerBytesFreed = s.freedByFinalizers) ∧
    ∀ f rest, s.calls = f :: rest → f.running = false → s.interruptFinalizers = 0 →
      ∃ s', run s (quietTurns s.finalizeNow.length) = some s' ∧ s'.finalizeNow = [] ∧
        s'.invoked = s.invoked ++ s.finalizeNow ∧ s'.calls = rest ∧ s'.finalizerNested = false := by
  have hinv := run_inv initial_inv h
  refine ⟨hinv.entries,hinv.order,?_,fun hcalls => ?_,?_,fun hkept hcalls => ?_,
    fun f rest hcalls hrunning hrequest => run_quietTurns hcalls hrunning hrequest⟩
  · have hback : s.putBack = [] ↔ Always QueueKept initial events := by
      rw [run_iff_always (fun _ _ _ => step_putBack) h]
      simp [initial]
    rw [← hback]
    constructor
    · intro hperm
      have hlen := hperm.length_eq.trans hinv.entries.length_eq.symm
      simp only [length_append] at hlen
      exact eq_nil_of_length_eq_zero (by omega)
    · intro hnil
      have hentries := hinv.entries
      rwa [hnil,append_nil] at hentries
  · exact Bool.eq_false_iff.mpr fun hnested => hinv.nested hnested hcalls
  · rw [run_iff_always (fun _ _ _ => step_assertFailed) h]
    simp [initial]
  · have hout : OuterRunning initial := fun f hf => absurd hf not_mem_nil
    have hcounts := run_counts hout rfl h hkept
    unfold Counts at hcounts
    rw [hcalls] at hcounts
    simpa using hcounts.symm

/-- The first finalizer collects: one entry is queued, another one goes back at once. -/
def oneCall : List Event :=
  [.collect [1, 2] (fun _ => false) false, .invoke, .turn, .collect [3, 4] (· == 4) false, .finalizerReturns,
    .turn, .finalizerReturns, .turn, .finalizerReturns, .turn]

theorem run_invocation_oneCall :
    ∃ s, run initial oneCall = some s ∧ Always QueueKept initial oneCall ∧ Always NotInterrupted initial oneCall ∧
      s.invoked = [1, 3, 2] ∧ s.finalizeNow = [] := by
  obtain ⟨s,hrun⟩ : ∃ s, run initial oneCall = some s := ⟨_,rfl⟩
  have hfields : (run initial oneCall).map (fun s => (s.invoked, s.finalizeNow, s.arrivals, s.assertFailed)) =
      some ([1,3,2], [], [3,1,2], false) := rfl
  rw [hrun,map_some,Option.some.injEq,Prod.mk.injEq,Prod.mk.injEq,Prod.mk.injEq] at hfields
  obtain ⟨hinvoked,hqueue,harrivals,hassert⟩ := hfields
  obtain ⟨-,-,hkept,-,hnot,-⟩ := run_invocation hrun
  rw [hinvoked,hqueue,harrivals] at hkept
  exact ⟨s,hrun,hkept.mp (by decide),hnot.mp hassert,hinvoked,hqueue⟩

/-- With a request to stop after one finalizer the assertion fails with the second entry queued; and a
finalizer that collects makes the counter of freed bytes wrap around. -/
theorem run_interrupted :
    (∃ s, run initial [.collect [1, 2] (fun _ => false) false, .setInterrupt 1, .invoke, .turn, .finalizerReturns,
        .turn] = some s ∧ s.calls = [] ∧ s.finalizeNow = [2] ∧ s.assertFailed = true) ∧
    ∃ s, run initial [.collect [1] (fun _ => false) false, .free 100, .invoke, .turn,
        .collect [] (fun _ => false) false, .finalizerReturns, .turn] = some s ∧ s.calls = [] ∧
      s.freedByFinalizers = 0 ∧ s.finalizerBytesFreed.toNat = 2 ^ 64 - 100 :=
  ⟨⟨_,rfl,rfl,rfl,rfl⟩,⟨_,rfl,rfl,rfl,by decide⟩⟩

end Runs

end GcUtil.Finalize.Invocation
