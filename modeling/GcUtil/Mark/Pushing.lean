import GcUtil.Mark.References

/-! What pushing onto the mark stack does. Unless the stack overflows, which leaves the
state at `MS_INVALID`, marks and entries together advance the tracing of the heap. -/
namespace GcUtil.Mark.Pushing
open Basic Pointers Ranges Machine References Library.DiscardStack Library.Tracing

variable {cfg : Config}

def Counted (s : State cfg) : Prop :=
  ∀ b ∈ s.world.table.blocks, ∀ o ∈ b.objs, s.marks o = true → s.nMarks b.start ≠ 0

structure Progress (s s' : State cfg) : Prop where
  world : s'.world = s.world
  scanPtr : s'.scanPtr = s.scanPtr
  size : s'.markStack.size = s.markStack.size
  flag : s.objectsAreMarked = true → s'.objectsAreMarked = true
  state : s'.markState = s.markState ∨ s'.markState = .invalid
  marks : ∀ o, s.marks o = true → s'.marks o = true
  advance : s'.markState ≠ .invalid → Advance (traced s.world) (view s) (view s')
  counted : Counted s → Counted s'

variable {s s' s'' : State cfg} {b : Block} {obj o q descr : Nat}

theorem Progress.refl (s : State cfg) : Progress s s where
  world := rfl
  scanPtr := rfl
  size := rfl
  flag h := h
  state := .inl rfl
  marks _ h := h
  advance _ := Advance.refl _
  counted h := h

theorem Progress.valid (h : Progress s s') (hvalid : s'.markState ≠ .invalid) :
    s.markState ≠ .invalid := by
  rcases h.state with he | he
  · rw [← he]
    exact hvalid
  · exact absurd he hvalid

theorem Progress.trans (h : Progress s s') (h' : Progress s' s'') : Progress s s'' where
  world := h'.world.trans h.world
  scanPtr := h'.scanPtr.trans h.scanPtr
  size := h'.size.trans h.size
  flag hf := h'.flag (h.flag hf)
  state := by
    rcases h'.state with he | he
    · rw [he]
      exact h.state
    · exact .inr he
  marks o ho := h'.marks o (h.marks o ho)
  advance hvalid := by
    have hadv := h'.advance hvalid
    rw [h.world] at hadv
    exact (h.advance (h'.valid hvalid)).trans hadv
  counted hc := h'.counted (h.counted hc)

theorem Progress.ofFlag (s : State cfg) : Progress s { s with objectsAreMarked := true } where
  world := rfl
  scanPtr := rfl
  size := rfl
  flag _ := rfl
  state := .inl rfl
  marks _ h := h
  advance _ := Advance.refl _
  counted h := h

theorem Progress.foldl {α : Type} {f : State cfg → α → State cfg} {l : List α}
    (hf : ∀ a ∈ l, ∀ s', s'.world = s.world → Progress s' (f s' a)) : Progress s (l.foldl f s) := by
  induction l generalizing s with
  | nil => exact Progress.refl s
  | cons a l ih =>
    have hstep := hf a (by simp) s rfl
    have htail : ∀ a' ∈ l, ∀ s', s'.world = (f s a).world → Progress s' (f s' a') := by
      intro a' ha' s' hs'
      exact hf a' (List.mem_cons_of_mem a ha') s' (hs'.trans hstep.world)
    exact hstep.trans (ih htail)

/-- What one move of such a fold settles is settled at its end. -/
theorem Progress.foldl_settled {α : Type} {f : State cfg → α → State cfg} {l : List α} {a : α}
    {src : Source} (hf : ∀ a ∈ l, ∀ s', s'.world = s.world → Progress s' (f s' a)) (ha : a ∈ l)
    (hpost : ∀ s', Progress s s' → (f s' a).markState ≠ .invalid →
      Settled (traced s.world) (view (f s' a)) src)
    (hvalid : (l.foldl f s).markState ≠ .invalid) :
    Settled (traced s.world) (view (l.foldl f s)) src := by
  induction l generalizing s with
  | nil => simp at ha
  | cons b l ih =>
    have hstep := hf b (by simp) s rfl
    have htail : ∀ a' ∈ l, ∀ s', s'.world = (f s b).world → Progress s' (f s' a') := by
      intro a' ha' s' hs'
      exact hf a' (List.mem_cons_of_mem b ha') s' (hs'.trans hstep.world)
    have hrest : Progress (f s b) (l.foldl f (f s b)) := Progress.foldl htail
    rw [← hstep.world] at hpost ⊢
    rcases List.mem_cons.mp ha with rfl | ha
    · exact (hrest.advance hvalid).settled src (hpost s (Progress.refl s) (hrest.valid hvalid))
    · exact ih htail ha (fun s' hs' => hpost s' (hstep.trans hs')) hvalid

section Push

theorem advance_of_subset (hmarks : s'.marks = s.marks) (hworld : s'.world = s.world)
    (hsub : ∀ e ∈ s.markStack.entries, e ∈ s'.markStack.entries) :
    Advance (traced s.world) (view s) (view s') where
  marked o ho := by
    change s'.marks o = true
    rw [hmarks]
    exact ho
  settled src hsrc := by
    apply hsrc.mono
    · intro o ho
      change s'.marks o = true
      rw [hmarks]
      exact ho
    · rintro ⟨e,he,hd⟩
      refine ⟨e,hsub e he,?_⟩
      rw [hworld]
      exact hd
  fresh o hno ho := by
    change s'.marks o = true at ho
    rw [hmarks] at ho
    exact absurd ho hno

theorem msPushObjDescr_progress (obj descr : Nat) (s : State cfg) :
    Progress s (msPushObjDescr obj descr s) := by
  unfold msPushObjDescr
  split
  · exact
      { world := rfl
        scanPtr := rfl
        size := BoundedStack.push_size
        flag := id
        state := .inr rfl
        marks := fun _ h => h
        advance := fun h => absurd rfl h
        counted := id }
  · rename_i hfull
    exact
      { world := rfl
        scanPtr := rfl
        size := BoundedStack.push_size
        flag := id
        state := .inl rfl
        marks := fun _ h => h
        advance := fun _ => advance_of_subset rfl rfl fun _ he =>
          BoundedStack.mem_push_of_mem (by simpa using hfull) he
        counted := id }

theorem msPushObjDescr_stack (obj descr : Nat) (s : State cfg) :
    (msPushObjDescr obj descr s).world = s.world ∧ (msPushObjDescr obj descr s).marks = s.marks ∧
      (msPushObjDescr obj descr s).markStack = s.markStack.push ⟨obj, descr⟩ := by
  unfold msPushObjDescr
  split <;> exact ⟨rfl,rfl,rfl⟩

theorem msPushObjDescr_mem (obj descr : Nat) (s : State cfg) :
    (⟨obj, descr⟩ : Mse) ∈ (msPushObjDescr obj descr s).markStack.entries := by
  unfold msPushObjDescr
  split <;> exact BoundedStack.mem_push_self

theorem msPushObjDescr_pending {src : Source} (hsrc : src ∈ promised s.world obj descr) :
    (view (msPushObjDescr obj descr s)).pending src := by
  refine ⟨⟨obj,descr⟩,msPushObjDescr_mem obj descr s,?_⟩
  rw [(msPushObjDescr_progress obj descr s).world]
  exact hsrc

theorem msPushObjHdr_progress (obj : Nat) (b : Block) (s : State cfg) :
    Progress s (msPushObjHdr obj b s) := by
  unfold msPushObjHdr
  split
  · exact Progress.refl s
  · exact msPushObjDescr_progress (b.entryStart obj) b.descr s

theorem msPushObjHdr_pending {src : Source} (hsrc : src ∈ promised s.world (b.entryStart obj) b.descr) :
    (view (msPushObjHdr obj b s)).pending src := by
  unfold msPushObjHdr
  split
  · rename_i hzero
    simp [hzero,promised] at hsrc
  · exact msPushObjDescr_pending hsrc

theorem setMark_marks (obj : Nat) (b : Block) (s : State cfg) :
    (setMark obj b s).marks o = true ↔ o = obj ∨ s.marks o = true := by
  by_cases h : o = obj <;> simp [setMark,h]

theorem setMark_counted (hb : s.world.table.blockAt obj = some b) (h : Counted s) :
    Counted (setMark obj b s) := by
  intro c hc o ho hmark
  rw [setMark_marks] at hmark
  change Function.update s.nMarks b.start (s.nMarks b.start + 1) c.start ≠ 0
  rw [Function.update_apply]
  split
  · omega
  · rename_i hne
    rcases hmark with rfl | hmark
    · have hcat := s.world.table.blockAt_of_mem hc
        (Block.contains_of_mem_objs (s.world.table.ok c hc).1.2.1 ho)
      rw [hb] at hcat
      cases hcat
      exact absurd rfl hne
    · exact h c hc o ho hmark

theorem setMark_push_advance (hb : s.world.table.blockAt obj = some b)
    (hpush : Advance (traced s.world) (view (setMark obj b s))
      (view (msPushObjHdr obj b (setMark obj b s)))) :
    Advance (traced s.world) (view s) (view (msPushObjHdr obj b (setMark obj b s))) where
  marked o ho := hpush.marked o ((setMark_marks obj b s).mpr (.inr ho))
  settled src hsrc :=
    hpush.settled src (hsrc.mono (fun o ho => (setMark_marks obj b s).mpr (.inr ho)) id)
  fresh o hno ho src hsrc := by
    by_cases hobj : o = obj
    · subst hobj
      exact .inr (msPushObjHdr_pending (List.mem_of_mem_filter (followed_subset hb hsrc)))
    · refine hpush.fresh o ?_ ho src hsrc
      intro hmark
      exact ((setMark_marks obj b s).mp hmark).elim hobj hno

theorem msPushContentsHdr_progress (hb : s.world.table.blockAt obj = some b) :
    Progress s (msPushContentsHdr obj b s) := by
  unfold msPushContentsHdr
  split
  · exact Progress.refl s
  · have h := msPushObjHdr_progress obj b (setMark obj b s)
    exact
      { world := h.world
        scanPtr := h.scanPtr
        size := h.size
        flag := h.flag
        state := h.state
        marks := fun o ho => h.marks o ((setMark_marks obj b s).mpr (.inr ho))
        advance := fun hvalid => setMark_push_advance hb (h.advance hvalid)
        counted := fun hc => h.counted (setMark_counted hb hc) }

theorem msPushContentsHdr_marks (obj : Nat) (b : Block) (s : State cfg) :
    (msPushContentsHdr obj b s).marks obj = true := by
  unfold msPushContentsHdr
  split
  · assumption
  · exact (msPushObjHdr_progress obj b _).marks obj ((setMark_marks obj b s).mpr (.inl rfl))

end Push

section Words

def Sound (w : World cfg) (find : Nat → Option (Block × Nat)) : Prop :=
  ∀ q b o, find q = some (b, o) → w.table.blockAt q = some b ∧ w.table.blockAt o = some b

theorem heapTarget_sound (w : World cfg) : Sound w (heapTarget w.table) :=
  fun _ _ _ => heapTarget_blockAt

theorem clientTarget_sound (w : World cfg) : Sound w (clientTarget w.table) :=
  fun _ _ _ => clientTarget_blockAt

theorem stackTarget_sound (w : World cfg) : Sound w (stackTarget w.table) :=
  fun _ _ _ => stackTarget_blockAt

variable {w : World cfg} {find : Nat → Option (Block × Nat)}

theorem pushWord_progress (hfind : Sound s.world find) : Progress s (pushWord find s q) := by
  unfold pushWord
  split
  · split
    · exact Progress.refl s
    · rename_i b obj h
      exact msPushContentsHdr_progress (hfind q b obj h).2
  · exact Progress.refl s

theorem pushWord_marks (hfind : Sound s.world find) (h : find q = some (b, o)) :
    (pushWord find s q).marks o = true := by
  have hlikely := s.world.table.plausibleHeapAddr_of_blockAt (hfind q b o h).1
  simp only [pushWord,hlikely,if_true,h]
  exact msPushContentsHdr_marks o b s

theorem pushWords_progress (hworld : s.world = w) (hfind : Sound w find) (qs : List Nat) :
    Progress s (pushWords find s qs) := by
  apply Progress.foldl
  intro q _ s' hs'
  apply pushWord_progress
  rw [hs',hworld]
  exact hfind

theorem pushWords_marks (hfind : Sound s.world find) {qs : List Nat} (hq : q ∈ qs)
    (h : find q = some (b, o)) : (pushWords find s qs).marks o = true := by
  induction qs generalizing s with
  | nil => simp at hq
  | cons q' qs ih =>
    have hstep := pushWord_progress (q := q') hfind
    have hfind' : Sound (pushWord find s q').world find := by
      rw [hstep.world]
      exact hfind
    rcases List.mem_cons.mp hq with rfl | hq
    · exact (pushWords_progress rfl hfind' qs).marks o (pushWord_marks hfind h)
    · exact ih hfind' hq

theorem pushWord_empty (h : (pushWord find s q).markStack.entries = []) :
    s.markStack.entries = [] ∧ (pushWord find s q).markState = s.markState := by
  unfold pushWord at h ⊢
  split at h
  · rename_i hlikely
    rw [if_pos hlikely]
    split at h
    · exact ⟨h,rfl⟩
    · rename_i b obj _
      unfold msPushContentsHdr at h ⊢
      split at h
      · rename_i hmark
        rw [if_pos hmark]
        exact ⟨h,rfl⟩
      · rename_i hmark
        rw [if_neg hmark]
        unfold msPushObjHdr at h ⊢
        split at h
        · rename_i hzero
          rw [if_pos hzero]
          exact ⟨h,rfl⟩
        · have hmem := msPushObjDescr_mem (b.entryStart obj) b.descr (setMark obj b s)
          simp [h] at hmem
  · rename_i hlikely
    rw [if_neg hlikely]
    exact ⟨h,rfl⟩

theorem pushWords_empty {qs : List Nat} (h : (pushWords find s qs).markStack.entries = []) :
    s.markStack.entries = [] ∧ (pushWords find s qs).markState = s.markState := by
  induction qs generalizing s with
  | nil => exact ⟨h,rfl⟩
  | cons q qs ih =>
    have htail := ih h
    have hhead := pushWord_empty htail.1
    exact ⟨hhead.1,htail.2.trans hhead.2⟩

theorem pushWords_covers {src : Source} (hworld : s.world = w) (hfind : Sound w find)
    (hheap : ∀ q b o, heapTarget w.table q = some (b, o) → find q = some (b, o))
    {qs : List Nat} (hqs : ∀ q ∈ sourceWords w src, q ∈ qs) :
    Covered (traced w) (view (pushWords find s qs)) src := by
  subst hworld
  rintro o ⟨q,hq,hobj⟩
  obtain ⟨b,htarget,-⟩ := realTarget_eq_some.mp hobj
  exact pushWords_marks hfind (hqs q hq) (hheap q b o htarget)

theorem scanSlots_progress (s : State cfg) (slots : List Nat) : Progress s (scanSlots s slots) :=
  pushWords_progress rfl (heapTarget_sound s.world) _

theorem scanSlots_covers (hworld : s.world = w) {slots : List Nat} {a : Nat} (ha : a ∈ slots) :
    Covered (traced w) (view (scanSlots s slots)) (.slot a) := by
  subst hworld
  apply pushWords_covers rfl (heapTarget_sound s.world) (fun _ _ _ h => h)
  intro q hq
  rw [sourceWords,List.mem_singleton] at hq
  rw [hq]
  exact List.mem_map_of_mem ha

end Words

end GcUtil.Mark.Pushing
