import GcUtil.Mark.Scanning

/-! The invariant of the `MS_` states: a marked object has everything it designates marked
or on the mark stack, unless its block was written to meanwhile or is one that the state
promises to visit. Every call of `GC_mark_some` keeps it. -/
namespace GcUtil.Mark.States
open Basic Pointers Ranges Machine References Pushing Scanning Library.DiscardStack Library.Tracing List

variable {cfg : Config}

def Owed (s : State cfg) (b : Block) : Prop :=
  match s.markState with
  | .none | .rootsPushed => False
  | .pushRescuers => blockWasDirty s.world.grungyPages b = true ∧ s.scanPtr ≤ b.start
  | .pushUncollectable => b.objKind = uncollectable ∧ s.scanPtr ≤ b.start
  | .partiallyInvalid => s.scanPtr ≤ b.start
  | .invalid => s.objectsAreMarked = true ∨ b.objKind = uncollectable ∧ s.scanPtr ≤ b.start

def Exempt (D : Block → Prop) (w : World cfg) (K : Block → Prop) (o : Nat) : Prop :=
  ∃ b, objBlock w o = some b ∧ (D b ∨ K b)

structure Inv (D : Block → Prop) (s : State cfg) : Prop where
  scanned : Scanned (traced s.world) (view s) (Exempt D s.world (Owed s))
  counted : Counted s
  flagged : s.markState = .rootsPushed ∨ s.markState = .partiallyInvalid → s.objectsAreMarked = true
  idle : s.markState = .none → s.markStack.entries = []

def LiveWords (s : State cfg) : Prop :=
  ∀ b ∈ s.world.table.blocks, b.markUnconditionally = true → ∀ o ∈ b.objs, s.marks o = true →
    s.world.mem o % 4 ≠ 0

variable {D : Block → Prop} {s s' : State cfg} {b c : Block} {o : Nat}

theorem exempt_mono {w : World cfg} {K K' : Block → Prop} (h : ∀ b, K b → K' b) (ho : Exempt D w K o) :
    Exempt D w K' o := by
  obtain ⟨b,hb,hk⟩ := ho
  exact ⟨b,hb,hk.imp_right (h b)⟩

theorem scanned_mono {w : World cfg} {v : View Source Nat} {K K' : Block → Prop}
    (h : Scanned (traced w) v (Exempt D w K)) (hK : ∀ b, K b → K' b) :
    Scanned (traced w) v (Exempt D w K') :=
  h.mono fun _ _ ho => .inl (exempt_mono hK ho)

theorem scanned_all {w : World cfg} {v : View Source Nat} {K : Block → Prop} (hK : ∀ b, K b) :
    Scanned (traced w) v (Exempt D w K) := by
  intro o _
  cases h : objBlock w o with
  | some b => exact .inl ⟨b,h,.inr (hK b)⟩
  | none =>
    right
    intro src hsrc
    change src ∈ followed w o at hsrc
    simp [followed,h] at hsrc

theorem Inv.of_invalid (hstate : s.markState = .invalid) (hflag : s.objectsAreMarked = true)
    (hcounted : Counted s) : Inv D s where
  scanned := scanned_all fun b => by
    rw [Owed,hstate]
    exact .inl hflag
  counted := hcounted
  flagged _ := hflag
  idle h := by simp [hstate] at h

theorem owed_congr (hstate : s'.markState = s.markState) (hvalid : s'.markState ≠ .invalid)
    (hworld : s'.world = s.world) (hscan : s'.scanPtr = s.scanPtr) (b : Block) :
    Owed s' b ↔ Owed s b := by
  unfold Owed
  rw [hworld,hscan,← hstate]
  cases h : s'.markState <;> simp_all

theorem Inv.of_progress (h : Inv D s) (hp : Progress s s') (hbusy : s.markState ≠ .none)
    (hflag : s'.markState = .invalid → s'.objectsAreMarked = true) : Inv D s' := by
  by_cases hvalid : s'.markState = .invalid
  · exact Inv.of_invalid hvalid (hflag hvalid) (hp.counted h.counted)
  · have hstate : s'.markState = s.markState := hp.state.resolve_right hvalid
    constructor
    · rw [hp.world]
      apply scanned_mono ((hp.advance hvalid).scanned h.scanned)
      intro b
      exact (owed_congr hstate hvalid hp.world hp.scanPtr b).mpr
    · exact hp.counted h.counted
    · intro hs
      rw [hstate] at hs
      exact hp.flag (h.flagged hs)
    · intro hnone
      exact absurd (hstate.symm.trans hnone) hbusy

section Blocks

variable {K : Block → Prop} {keep : Block → Bool} {h : Nat}

theorem nextBlock_first {t : BlockTable cfg} (hnext : nextBlock t h keep = some b)
    (hc : c ∈ t.blocks) (hle : h ≤ c.start) (hkeep : keep c = true) :
    c = b ∨ b.start + b.bytes ≤ c.start := by
  obtain ⟨-,as,bs,hl,has⟩ := List.find?_eq_some_iff_append.mp hnext
  have hsorted := t.sorted
  rw [hl] at hc hsorted
  simp only [mem_append,mem_cons] at hc
  rcases hc with hc | rfl | hc
  · have := has c hc
    simp [hle,hkeep] at this
  · exact .inl rfl
  · right
    exact (pairwise_cons.mp (pairwise_append.mp hsorted).2.1).1 c hc

theorem nextBlock_none {t : BlockTable cfg} (hnext : nextBlock t h keep = none)
    (hc : c ∈ t.blocks) (hkeep : keep c = true) : ¬ h ≤ c.start := by
  have := List.find?_eq_none.mp hnext c hc
  simpa [hkeep] using this

theorem nextBlock_mem {t : BlockTable cfg} (hnext : nextBlock t h keep = some b) :
    b ∈ t.blocks ∧ keep b = true := by
  refine ⟨List.mem_of_find?_eq_some hnext,?_⟩
  have := List.find?_some hnext
  simp only [Bool.and_eq_true] at this
  exact this.2

theorem scanned_of_next
    (hs : Scanned (traced s.world) (view s) (Exempt D s.world fun b => K b ∧ s.scanPtr ≤ b.start))
    (hnext : nextBlock s.world.table s.scanPtr keep = some b) (hkeep : ∀ c, K c → keep c = true)
    (hpush : Progress s s') (hvalid : s'.markState ≠ .invalid)
    (hsettled : K b → ∀ o ∈ b.objs, s.marks o = true →
      ∀ src ∈ followedIn s.world b o, Settled (traced s.world) (view s') src) :
    Scanned (traced s.world) (view s')
      (Exempt D s.world fun c => K c ∧ b.start + b.bytes ≤ c.start) := by
  have hadv := hpush.advance hvalid
  intro o ho
  by_cases hold : s.marks o = true
  · rcases hs o hold with ⟨c,hc,hdirty | ⟨hK,hle⟩⟩ | hall
    · exact .inl ⟨c,hc,.inl hdirty⟩
    · have hcat := objBlock_eq_some.mp hc
      have hmem := (s.world.table.blockAt_some hcat.1).1
      rcases nextBlock_first hnext hmem hle (hkeep c hK) with rfl | hafter
      · right
        intro src hsrc
        exact hsettled hK o hcat.2 hold src (followed_subset hcat.1 hsrc)
      · exact .inl ⟨c,hc,.inr ⟨hK,hafter⟩⟩
    · exact .inr fun src hsrc => hadv.settled src (hall src hsrc)
  · exact .inr (hadv.fresh o hold ho)

theorem scanned_of_none
    (hs : Scanned (traced s.world) (view s) (Exempt D s.world fun b => K b ∧ s.scanPtr ≤ b.start))
    (hnext : nextBlock s.world.table s.scanPtr keep = none) (hkeep : ∀ c, K c → keep c = true) :
    Scanned (traced s.world) (view s) (Exempt D s.world fun _ => False) := by
  apply hs.mono
  rintro o _ ⟨c,hc,hdirty | ⟨hK,hle⟩⟩
  · exact .inl ⟨c,hc,.inl hdirty⟩
  · have hmem := (s.world.table.blockAt_some (objBlock_eq_some.mp hc).1).1
    exact absurd hle (nextBlock_none hnext hmem (hkeep c hK))

end Blocks

section Roots

/-- What holds after the roots were pushed and until they change: all they refer to is
marked or on the stack. -/
def RootsOk (s : State cfg) : Prop :=
  s.markState = .rootsPushed ∨ s.markState = .none →
    (∀ src, RootSource s.world src → Settled (traced s.world) (view s) src) ∧
    ∀ range ∈ s.world.stackRoots, ∀ a ∈ rangeSlots range,
      ∀ o, stackObjAt s.world (s.world.mem a) = some o → s.marks o = true

theorem pushStacks_marks {s : State cfg} {ranges : List (Nat × Nat)} {range : Nat × Nat} {a : Nat}
    (hrange : range ∈ ranges) (ha : a ∈ rangeSlots range)
    (ho : stackObjAt s.world (s.world.mem a) = some o) :
    (ranges.foldl pushAllEager s).marks o = true := by
  obtain ⟨b,htarget,-⟩ := realTarget_eq_some.mp ho
  induction ranges generalizing s with
  | nil => simp at hrange
  | cons r ranges ih =>
    have hstep := pushAllEager_progress (s := s) r
    rcases mem_cons.mp hrange with rfl | hrange
    · apply (pushStacks_progress _ ranges).marks
      exact pushWords_marks (stackTarget_sound s.world) (mem_flatMap.mpr ⟨a,ha,mem_cons_self⟩) htarget
    · apply ih hrange
      · rw [hstep.world]
        exact ho
      · rw [hstep.world]
        exact htarget

theorem pushRoots_marks {range : Nat × Nat} {a : Nat} (hrange : range ∈ s.world.stackRoots)
    (ha : a ∈ rangeSlots range) (ho : stackObjAt s.world (s.world.mem a) = some o) :
    (pushRoots s).marks o = true := by
  apply pushStacks_marks hrange ha
  rw [(pushStatic_progress s s.world.staticRoots).world]
  exact ho

theorem pushRootsAndAdvance_inv (hzero : s.scanPtr = 0) (hcounted : Counted s)
    (hs : s.markState ≠ .invalid →
      Scanned (traced s.world) (view s) (Exempt D s.world fun _ => False)) :
    Inv D (pushRootsAndAdvance s) ∧ RootsOk (pushRootsAndAdvance s) := by
  have hp := pushRoots_progress s
  rw [pushRootsAndAdvance,if_neg (by simp [hzero])]
  dsimp only
  split
  · rename_i hinvalid
    have hinvalid' : (pushRoots s).markState = .invalid := hinvalid
    refine ⟨Inv.of_invalid hinvalid rfl (hp.counted hcounted),?_⟩
    rintro (h | h) <;> simp [hinvalid'] at h
  · rename_i hvalid
    have hvalid' : (pushRoots s).markState ≠ .invalid := hvalid
    refine ⟨⟨?_,hp.counted hcounted,fun _ => rfl,nofun⟩,?_⟩
    · change Scanned (traced (pushRoots s).world) (view (pushRoots s)) _
      rw [hp.world]
      exact scanned_mono ((hp.advance hvalid').scanned (hs (hp.valid hvalid')))
        (fun _ h => h.elim)
    · intro _
      change (∀ src, RootSource (pushRoots s).world src →
          Settled (traced (pushRoots s).world) (view (pushRoots s)) src) ∧
        ∀ range ∈ (pushRoots s).world.stackRoots, ∀ a ∈ rangeSlots range, ∀ o,
          stackObjAt (pushRoots s).world ((pushRoots s).world.mem a) = some o →
            (pushRoots s).marks o = true
      rw [hp.world]
      exact ⟨fun src => pushRoots_settled hvalid',fun range hr a ha o => pushRoots_marks hr ha⟩

end Roots

section Step

/-- What a call of `GC_mark_some` leaves as it was, and what it keeps. -/
structure Stepped (D : Block → Prop) (s s' : State cfg) : Prop where
  inv : Inv D s'
  roots : RootsOk s → RootsOk s'
  world : s'.world = s.world
  marks : ∀ o, s.marks o = true → s'.marks o = true
  rescuers : s'.markState = .pushRescuers → s.markState = .pushRescuers

theorem RootsOk.of_progress (h : RootsOk s) (hp : Progress s s') :
    RootsOk s' := by
  intro hstate
  have hvalid : s'.markState ≠ .invalid := by
    rcases hstate with he | he <;> simp [he]
  rw [hp.state.resolve_right hvalid] at hstate
  obtain ⟨hsources,hstacks⟩ := h hstate
  rw [hp.world]
  exact ⟨fun src hsrc => (hp.advance hvalid).settled src (hsources src hsrc),
    fun range hr a ha o ho => hp.marks o (hstacks range hr a ha o ho)⟩

theorem Stepped.of_progress (h : Inv D s) (hp : Progress s s') (hbusy : s.markState ≠ .none)
    (hflag : s'.markState = .invalid → s'.objectsAreMarked = true) : Stepped D s s' where
  inv := h.of_progress hp hbusy hflag
  roots hr := hr.of_progress hp
  world := hp.world
  marks := hp.marks
  rescuers hstate := by
    rw [← hstate]
    exact (hp.state.resolve_right (by simp [hstate])).symm

theorem markFrom_stepped (h : Inv D s) (hbusy : s.markState ≠ .none) (hm : markFrom s = some s') :
    Stepped D s s' := by
  have hp := markFrom_progress hm
  exact Stepped.of_progress h hp.1 hbusy fun _ => hp.2

theorem pushRootsAndAdvance_world (s : State cfg) : (pushRootsAndAdvance s).world = s.world := by
  unfold pushRootsAndAdvance
  split
  · rfl
  · dsimp only
    split <;> exact (pushRoots_progress s).world

theorem pushRootsAndAdvance_rescuers (h : (pushRootsAndAdvance s).markState = .pushRescuers) :
    s.markState = .pushRescuers := by
  unfold pushRootsAndAdvance at h
  split at h
  · exact h
  · dsimp only at h
    split at h
    · rename_i hinvalid
      cases hinvalid.symm.trans h
    · cases h

theorem pushRootsAndAdvance_marks (h : s.marks o = true) :
    (pushRootsAndAdvance s).marks o = true := by
  unfold pushRootsAndAdvance
  split
  · exact h
  · dsimp only
    split <;> exact (pushRoots_progress s).marks o h

theorem scanBlock_stepped {K : Block → Prop} {keep : Block → Bool}
    {push : Block → State cfg → State cfg} (h : Inv D s)
    (hscanning : s.markState = .pushRescuers ∨ s.markState = .pushUncollectable ∨
      s.markState = .partiallyInvalid)
    (howed : ∀ s' : State cfg, s'.markState = s.markState → s'.world = s.world →
      ∀ b, Owed s' b ↔ K b ∧ s'.scanPtr ≤ b.start)
    (hkeep : ∀ b, K b → keep b = true)
    (hpush : ∀ b ∈ s.world.table.blocks, keep b = true → ∃ k : Nat → Prop, Pushes b k s (push b s) ∧
      (K b → ∀ o ∈ b.objs, s.marks o = true → k o)) :
    Stepped D s (pushRootsAndAdvance
      (pushBlock push s (nextBlock s.world.table s.scanPtr keep))) := by
  have hvalid : s.markState ≠ .invalid := by
    rcases hscanning with he | he | he <;> simp [he]
  have hs : Scanned (traced s.world) (view s) (Exempt D s.world fun b => K b ∧ s.scanPtr ≤ b.start) :=
    scanned_mono h.scanned fun b => (howed s rfl rfl b).mp
  cases hnext : nextBlock s.world.table s.scanPtr keep with
  | none =>
    have hnone := scanned_of_none hs hnext hkeep
    have hroots := pushRootsAndAdvance_inv (s := { s with scanPtr := 0 }) rfl h.counted
      fun _ => hnone
    exact ⟨hroots.1,fun _ => hroots.2,pushRootsAndAdvance_world _,
      fun _ ho => pushRootsAndAdvance_marks ho,pushRootsAndAdvance_rescuers⟩
  | some b =>
    have hb := nextBlock_mem hnext
    obtain ⟨k,hpushes,hk⟩ := hpush b hb.1 hb.2
    have hp := hpushes.progress
    have hstart : b.start + b.bytes ≠ 0 := by
      have := (s.world.table.ok b hb.1).2.1
      omega
    rw [pushBlock,pushRootsAndAdvance,if_pos hstart]
    refine ⟨?_,fun _ => ?_,hp.world,hp.marks,fun hstate => ?_⟩
    · by_cases hinvalid : (push b s).markState = .invalid
      · exact Inv.of_invalid hinvalid (hpushes.flagged hvalid hinvalid) (hp.counted h.counted)
      · have hstate := hp.state.resolve_right hinvalid
        refine ⟨?_,hp.counted h.counted,fun hs => hp.flag (h.flagged (hstate ▸ hs)),?_⟩
        · have hnew := scanned_of_next hs hnext hkeep hp hinvalid fun hK o ho hmark =>
            hpushes.settled hinvalid o ho (hk hK o ho hmark)
          change Scanned (traced (push b s).world) (view (push b s)) _
          rw [hp.world]
          apply scanned_mono hnew
          intro c hc
          exact (howed _ (by exact hstate) (by rfl) c).mpr hc
        · intro hnone
          have hnone' : s.markState = .none := hstate.symm.trans hnone
          rcases hscanning with he | he | he <;> simp [he] at hnone'
    · intro hstate
      have hstate' : s.markState = .rootsPushed ∨ s.markState = .none := by
        have hne : (push b s).markState ≠ .invalid := by
          rcases hstate with he | he <;> exact fun h => by simp [h] at he
        rw [← hp.state.resolve_right hne]
        exact hstate
      rcases hscanning with he | he | he <;> simp [he] at hstate'
    · have hstate : (push b s).markState = .pushRescuers := hstate
      rw [← hp.state.resolve_right (by simp [hstate])]
      exact hstate

section

variable (h : Inv D s)
include h

theorem pushNextMarkedDirty_stepped (hlive : LiveWords s)
    (hstate : s.markState = .pushRescuers) :
    Stepped D s (pushRootsAndAdvance (pushNextMarkedDirty s)) := by
  apply scanBlock_stepped (K := fun b => blockWasDirty s.world.grungyPages b = true) h (.inl hstate)
  · intro s' hs' hw b
    rw [Owed,hs',hstate,hw]
  · exact fun _ hK => hK
  · intro b hb _
    by_cases hu : b.markUnconditionally = true
    · refine ⟨fun o => s.world.mem o % 4 ≠ 0,?_,fun _ o ho => hlive b hb hu o ho⟩
      rw [if_pos hu]
      exact pushUnconditionally_pushes b s
    · refine ⟨fun o => s.marks o = true,?_,fun _ _ _ hmark => hmark⟩
      rw [if_neg hu]
      exact pushMarked_pushes hb h.counted

theorem pushNextMarkedUncollectable_stepped (hstate : s.markState = .pushUncollectable) :
    Stepped D s (pushRootsAndAdvance (pushNextMarkedUncollectable s)) := by
  apply scanBlock_stepped (K := fun b => b.objKind = uncollectable) h (.inr (.inl hstate))
  · intro s' hs' hw b
    rw [Owed,hs',hstate]
  · intro b hK
    simp [hK]
  · intro b hb _
    by_cases hu : b.objKind = uncollectable
    · refine ⟨fun o => s.marks o = true,?_,fun _ _ _ hmark => hmark⟩
      rw [if_pos hu]
      exact pushMarked_pushes hb h.counted
    · refine ⟨fun o => s.world.mem o % 4 ≠ 0,?_,fun hK => absurd hK hu⟩
      rw [if_neg hu]
      exact pushUnconditionally_pushes b s

theorem pushNextMarked_stepped (hstate : s.markState = .partiallyInvalid) :
    Stepped D s (pushRootsAndAdvance (pushNextMarked s)) := by
  apply scanBlock_stepped (K := fun _ => True) h (.inr (.inr hstate))
  · intro s' hs' hw b
    simp [Owed,hs',hstate]
  · exact fun _ _ => rfl
  · intro b hb _
    exact ⟨fun o => s.marks o = true,pushMarked_pushes hb h.counted,fun _ _ _ hmark => hmark⟩

end

variable {inp : StepInput} {done : Bool}

theorem growMarkStack_spec (grows : Bool) (hempty : s.markStack.entries = []) :
    ∃ st small, growMarkStack grows s = { s with markStack := st, markStackTooSmall := small } ∧
      st.entries = [] := by
  unfold growMarkStack
  split
  · refine ⟨_,false,rfl,?_⟩
    cases grows <;> rfl
  · exact ⟨s.markStack,s.markStackTooSmall,rfl,hempty⟩

theorem map_false_eq_some {r : Option (State cfg)}
    (h : r.map (fun s => (false, s)) = some (done, s')) : r = some s' ∧ done = false := by
  obtain ⟨s'',hr,he⟩ := Option.map_eq_some_iff.mp h
  cases he
  exact ⟨hr,rfl⟩

theorem pushNextMarked_invalid (h : Inv D s) (hstate : s.markState = .invalid) (hflag : s.objectsAreMarked = true) :
    Stepped D s (pushNextMarked s) ∧ (pushNextMarked s).markState = .invalid := by
  unfold pushNextMarked pushBlock
  cases hnext : nextBlock s.world.table s.scanPtr fun _ => true with
  | none =>
    refine ⟨⟨Inv.of_invalid hstate hflag h.counted,?_,rfl,fun _ h => h,id⟩,hstate⟩
    rintro - (h | h) <;> simp [hstate] at h
  | some b =>
    have hp := (pushMarked_pushes (nextBlock_mem hnext).1 h.counted).progress
    have hinvalid : (pushMarked b s).markState = .invalid := by
      rcases hp.state with he | he
      · exact he.trans hstate
      · exact he
    refine ⟨⟨Inv.of_invalid hinvalid (hp.flag hflag) (hp.counted h.counted),?_,hp.world,hp.marks,?_⟩,
      hinvalid⟩
    · rintro - (h | h) <;> simp [hinvalid] at h
    · intro h
      simp [hinvalid] at h

theorem Stepped.trans {s'' : State cfg} (h : Stepped D s s') (h' : Stepped D s' s'') : Stepped D s s'' where
  inv := h'.inv
  roots hr := h'.roots (h.roots hr)
  world := h'.world.trans h.world
  marks o ho := h'.marks o (h.marks o ho)
  rescuers hstate := h.rescuers (h'.rescuers hstate)

theorem pushNextMarked_then_roots (hstate : s.markState = .partiallyInvalid) :
    (if (pushNextMarked s).markState = .partiallyInvalid then pushRootsAndAdvance (pushNextMarked s)
      else pushNextMarked s) = pushRootsAndAdvance (pushNextMarked s) := by
  unfold pushNextMarked pushBlock
  cases hnext : nextBlock s.world.table s.scanPtr fun _ => true with
  | none => rw [if_pos hstate]
  | some b =>
    have hstart : b.start + b.bytes ≠ 0 := by
      have := (s.world.table.ok b (nextBlock_mem hnext).1).2.1
      omega
    dsimp only
    split
    · rfl
    · rw [pushRootsAndAdvance,if_pos hstart]

theorem startRescan_stepped (inp : StepInput) (h : Inv D s) (hempty : s.markStack.entries = []) (hzero : s.scanPtr = 0)
    (hflag : s.objectsAreMarked = true) :
    Stepped D s { growMarkStack inp.grows s with markState := .partiallyInvalid } := by
  obtain ⟨st,small,heq,hst⟩ := growMarkStack_spec inp.grows hempty
  rw [heq]
  refine ⟨⟨scanned_all fun b => ?_,h.counted,fun _ => hflag,nofun⟩,?_,rfl,fun _ ho => ho,nofun⟩
  · simp [Owed,hzero]
  · rintro - (h | h) <;> cases h

theorem markSomeInvalid_stepped (h : Inv D s)
    (hstate : s.markState = .invalid ∨ s.markState = .partiallyInvalid)
    (hm : markSomeInvalid inp s = some (done, s')) : Stepped D s s' ∧ done = false := by
  have hbusy : s.markState ≠ .none := by
    rcases hstate with he | he <;> simp [he]
  unfold markSomeInvalid at hm
  split at hm
  · rename_i hflag
    cases hm
    have hinvalid : s.markState = .invalid := by
      refine hstate.resolve_right fun hpartial => ?_
      simp [h.flagged (.inr hpartial)] at hflag
    refine ⟨⟨⟨scanned_mono h.scanned fun b hb => ?_,h.counted,?_,nofun⟩,?_,rfl,fun _ ho => ho,nofun⟩,rfl⟩
    · simpa [Owed,hinvalid,hflag] using hb
    · rintro (h | h) <;> cases h
    · rintro - (h | h) <;> cases h
  · rename_i hflag
    have hflag' : s.objectsAreMarked = true := by simpa using hflag
    split at hm
    · obtain ⟨hfrom,rfl⟩ := map_false_eq_some hm
      exact ⟨markFrom_stepped h hbusy hfrom,rfl⟩
    · rename_i hempty
      have hempty' : s.markStack.entries = [] := by simpa using hempty
      dsimp only at hm
      split at hm
      · rename_i hstart
        have hs := startRescan_stepped inp h hempty' hstart.1 hflag'
        rw [pushNextMarked_then_roots rfl] at hm
        cases hm
        exact ⟨hs.trans (pushNextMarked_stepped hs.inv rfl),rfl⟩
      · rcases hstate with hinvalid | hpartial
        · have hs := pushNextMarked_invalid h hinvalid hflag'
          rw [if_neg (by simp [hs.2])] at hm
          cases hm
          exact ⟨hs.1,rfl⟩
        · rw [pushNextMarked_then_roots hpartial] at hm
          cases hm
          exact ⟨pushNextMarked_stepped h hpartial,rfl⟩

theorem onMarkStackEmpty_stepped (inp : StepInput) (h : Inv D s) (hstate : s.markState = .rootsPushed) :
    Stepped D s (onMarkStackEmpty inp.onMsEmpty s) ∧
      ((onMarkStackEmpty inp.onMsEmpty s).markStack.entries = [] →
        Stepped D s
          { growMarkStack inp.grows (onMarkStackEmpty inp.onMsEmpty s) with markState := .none }) := by
  have hp : Progress s (onMarkStackEmpty inp.onMsEmpty s) :=
    pushWords_progress rfl (clientTarget_sound s.world) _
  have hs := Stepped.of_progress h hp (by simp [hstate]) fun _ => hp.flag (h.flagged (.inl hstate))
  refine ⟨hs,fun hempty => ?_⟩
  have hstate' : (onMarkStackEmpty inp.onMsEmpty s).markState = .rootsPushed :=
    (pushWords_empty hempty).2.trans hstate
  obtain ⟨st,small,heq,hst⟩ := growMarkStack_spec inp.grows hempty
  have hview : view { growMarkStack inp.grows (onMarkStackEmpty inp.onMsEmpty s) with markState := .none }
      = view (onMarkStackEmpty inp.onMsEmpty s) := by
    simp [view,heq,hst,hempty]
  rw [heq] at hview ⊢
  refine ⟨⟨?_,hs.inv.counted,?_,fun _ => hst⟩,fun hr _ => ?_,hs.world,hs.marks,nofun⟩
  · rw [hview]
    apply scanned_mono hs.inv.scanned
    intro b hb
    simp [Owed,hstate'] at hb
  · rintro (h | h) <;> cases h
  · rw [hview]
    exact hs.roots hr (.inl hstate')

/-- One call of `GC_mark_some` keeps the invariant of the states. -/
theorem markSome_stepped (h : Inv D s)
    (hlive : s.markState = .pushRescuers → LiveWords s) (hm : markSome inp s = some (done, s')) :
    Stepped D s s' ∧ (done = true → s'.markState = .none) := by
  unfold markSome at hm
  split at hm
  · rename_i hstate
    cases hm
    exact ⟨⟨h,id,rfl,fun _ ho => ho,id⟩,fun _ => hstate⟩
  · rename_i hstate
    split at hm
    · obtain ⟨hfrom,rfl⟩ := map_false_eq_some hm
      have hinv : Inv D { s with markStackTooSmall := true } :=
        ⟨h.scanned,h.counted,h.flagged,h.idle⟩
      have hs := markFrom_stepped hinv (by simp [hstate]) hfrom
      exact ⟨⟨hs.inv,hs.roots,hs.world,hs.marks,hs.rescuers⟩,nofun⟩
    · cases hm
      exact ⟨pushNextMarkedDirty_stepped h (hlive hstate) hstate,nofun⟩
  · rename_i hstate
    split at hm
    · obtain ⟨hfrom,rfl⟩ := map_false_eq_some hm
      exact ⟨markFrom_stepped h (by simp [hstate]) hfrom,nofun⟩
    · cases hm
      exact ⟨pushNextMarkedUncollectable_stepped h hstate,nofun⟩
  · rename_i hstate
    split at hm
    · obtain ⟨hfrom,rfl⟩ := map_false_eq_some hm
      exact ⟨markFrom_stepped h (by simp [hstate]) hfrom,nofun⟩
    · have hs := onMarkStackEmpty_stepped inp h hstate
      dsimp only at hm
      split at hm
      · cases hm
        exact ⟨hs.1,nofun⟩
      · rename_i hempty
        cases hm
        exact ⟨hs.2 (by simpa using hempty),fun _ => rfl⟩
  · rename_i hstate
    have hs := markSomeInvalid_stepped h (.inl hstate) hm
    exact ⟨hs.1,fun hdone => by simp [hs.2] at hdone⟩
  · rename_i hstate
    have hs := markSomeInvalid_stepped h (.inr hstate) hm
    exact ⟨hs.1,fun hdone => by simp [hs.2] at hdone⟩

end Step

end GcUtil.Mark.States
