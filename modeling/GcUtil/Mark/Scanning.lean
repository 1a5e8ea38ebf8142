import GcUtil.Mark.Pushing

/-! The loops of the marker make progress: the one that empties the mark stack, and those
that push the contents of a block or the roots. -/
namespace GcUtil.Mark.Scanning
open Basic Pointers Ranges Machine References Pushing Library.DiscardStack Library.Tracing List

variable {cfg : Config} {s s' : State cfg}

section MarkFrom

theorem progress_of_replaced (st : BoundedStack Mse (markStackLimits cfg))
    (hsize : st.size = s.markStack.size) (h : Progress { s with markStack := st } s')
    (hsrc : s'.markState ≠ .invalid → ∀ e ∈ s.markStack.entries, e ∈ st.entries ∨
      ∀ src ∈ promised s.world e.mseStart e.mseDescr, Settled (traced s.world) (view s') src) :
    Progress s s' where
  world := h.world
  scanPtr := h.scanPtr
  size := h.size.trans hsize
  flag := h.flag
  state := h.state
  marks := h.marks
  advance hvalid :=
    { marked := h.marks
      settled := by
        rintro src (hc | ⟨e,he,hd⟩)
        · exact .inl (hc.mono h.marks)
        · rcases hsrc hvalid e he with hmem | hall
          · exact (h.advance hvalid).settled src (.inr ⟨e,hmem,hd⟩)
          · exact hall src hd
      fresh := (h.advance hvalid).fresh }
  counted := h.counted

variable {e : Mse} {rest : List Mse}

theorem progress_of_popped (he : s.markStack.entries = e :: rest)
    (h : Progress { s with markStack := s.markStack.pop } s')
    (hsrc : ∀ src ∈ promised s.world e.mseStart e.mseDescr, Covered (traced s.world) (view s') src) :
    Progress s s' := by
  apply progress_of_replaced s.markStack.pop rfl h
  intro _ e' he'
  rw [he] at he'
  rcases mem_cons.mp he' with rfl | he'
  · exact .inr fun src hs => .inl (hsrc src hs)
  · left
    rw [BoundedStack.pop_entries,he]
    exact he'

theorem progress_of_replacedTop {e' : Mse} (he : s.markStack.entries = e :: rest)
    (h : Progress { s with markStack := s.markStack.replaceTop e' } s')
    (hsrc : ∀ src ∈ promised s.world e.mseStart e.mseDescr,
      Covered (traced s.world) (view s') src ∨ src ∈ promised s.world e'.mseStart e'.mseDescr) :
    Progress s s' := by
  apply progress_of_replaced (s.markStack.replaceTop e') BoundedStack.replaceTop_size h
  intro hvalid e'' he''
  have htop : (s.markStack.replaceTop e').entries = e' :: rest := BoundedStack.replaceTop_entries he
  rw [he] at he''
  rcases mem_cons.mp he'' with rfl | he''
  · right
    intro src hs
    rcases hsrc src hs with hc | hd
    · exact .inl hc
    · apply (h.advance hvalid).settled
      refine .inr ⟨e',?_,hd⟩
      rw [htop]
      simp
  · left
    rw [htop]
    exact mem_cons_of_mem e' he''

theorem mem_wordsAt {p n a : Nat} : a ∈ wordsAt p n ↔ ∃ i < n, a = p + 8 * i := by
  simp [wordsAt,eq_comm]

theorem dsTag_length {d : Nat} : dsTag d = .length ↔ d % 4 = 0 := by
  unfold dsTag
  split <;> simp_all

theorem mem_direct_split {p d n : Nat} {src : Source} (hd : dsTag d = .length) (hn : 8 * n ≤ d)
    (hsrc : src ∈ direct p d) :
    (∃ a ∈ wordsAt p n, src = .slot a) ∨ src ∈ direct (p + 8 * n) (d - 8 * n) := by
  have hrest : dsTag (d - 8 * n) = .length := by
    rw [dsTag_length] at hd ⊢
    omega
  simp only [direct,hd,hrest,mem_map] at hsrc ⊢
  obtain ⟨a,ha,rfl⟩ := hsrc
  obtain ⟨i,hi,rfl⟩ := mem_wordsAt.mp ha
  by_cases hin : i < n
  · exact .inl ⟨_,mem_wordsAt.mpr ⟨i,hin,rfl⟩,rfl⟩
  · right
    refine ⟨_,mem_wordsAt.mpr ⟨i - n,by omega,?_⟩,rfl⟩
    omega

theorem scanSlots_covers_direct {w : World cfg} (hworld : s.world = w) {slots : List Nat}
    {src : Source} (h : src ∈ slots.map Source.slot) :
    Covered (traced w) (view (scanSlots s slots)) src := by
  obtain ⟨a,ha,rfl⟩ := mem_map.mp h
  exact scanSlots_covers hworld ha

theorem pushWords_idle {find : Nat → Option (Block × Nat)} {qs : List Nat}
    (h : ∀ q ∈ qs, plausibleHeapAddr cfg q = false ∨ find q = none) (s : State cfg) : pushWords find s qs = s := by
  induction qs with
  | nil => rfl
  | cons q qs ih =>
    have hskip : pushWord find s q = s := by
      rcases h q mem_cons_self with hq | hq <;> simp [pushWord,hq]
    rw [pushWords,foldl_cons,hskip]
    exact ih fun q' hq' => h q' (mem_cons_of_mem q hq')

theorem scanSlots_scanRange (s : State cfg) {p limit : Nat} (hp : p ≤ limit) (hdvd : 8 ∣ limit - p) :
    scanSlots s (scanRange (wordBuild false) (fun a => plausibleHeapAddr cfg (s.world.mem a)) p limit).2 =
      scanSlots s (wordsAt p ((limit - p) / 8 + 1)) := by
  obtain ⟨skipped,hslots,hskip⟩ := scanRange_pushed (wordBuild false)
    (fun a => plausibleHeapAddr cfg (s.world.mem a)) hdvd hp
  change wordsAt p ((limit - p) / 8 + 1) = _ at hslots
  rw [hslots]
  unfold scanSlots pushWords
  rw [map_append,foldl_append]
  symm
  apply pushWords_idle
  intro q hq
  obtain ⟨a,ha,rfl⟩ := mem_map.mp hq
  exact .inl (hskip a ha)

theorem ptrsToBytes_word (n : Nat) : (wordBuild false).ptrsToBytes n = n * 8 := rfl

theorem markDescribed_short (htag : dsTag e.mseDescr = .length) (hd : e.mseDescr < 8) :
    markDescribed s e = ({ s with markStack := s.markStack.pop }, 0) := by
  simp only [markDescribed,htag]
  rw [lengthTurn,if_neg,if_pos]
  · rfl
  · exact hd
  · rw [ptrsToBytes_word]
    unfold splitRangePtrs
    omega

/-- A turn on less than a part of a range; a partial word at the end shifts the words. -/
theorem markDescribed_small (htag : dsTag e.mseDescr = .length) (hlow : 8 ≤ e.mseDescr)
    (hhigh : e.mseDescr < 8 * splitRangePtrs) :
    ∃ slots, markDescribed s e = (scanSlots { s with markStack := s.markStack.pop } slots, e.mseDescr) ∧
      (8 ∣ e.mseDescr → scanSlots { s with markStack := s.markStack.pop } slots =
        scanSlots { s with markStack := s.markStack.pop } (wordsAt e.mseStart (e.mseDescr / 8))) := by
  refine ⟨(scanRange (wordBuild false) (fun a => plausibleHeapAddr cfg (s.world.mem a)) e.mseStart
    (e.mseStart + e.mseDescr - 8)).2,?_,fun hdvd => ?_⟩
  · simp only [markDescribed,htag]
    rw [lengthTurn,if_neg,if_neg]
    · rfl
    · exact Nat.not_lt.mpr hlow
    · rw [ptrsToBytes_word]
      omega
  · have hscan := scanSlots_scanRange { s with markStack := s.markStack.pop }
      (show e.mseStart ≤ e.mseStart + e.mseDescr - 8 by omega) (by omega)
    rw [show (e.mseStart + e.mseDescr - 8 - e.mseStart) / 8 + 1 = e.mseDescr / 8 by omega] at hscan
    exact hscan

def remainder (e : Mse) : Mse :=
  ⟨e.mseStart + 8 * (splitRangePtrs - 1), e.mseDescr - 8 * (splitRangePtrs - 1)⟩

theorem markDescribed_chunk (htag : dsTag e.mseDescr = .length) (hlong : 8 * splitRangePtrs ≤ e.mseDescr) :
    markDescribed s e = (scanSlots { s with markStack := s.markStack.replaceTop (remainder e) }
      (wordsAt e.mseStart (splitRangePtrs - 1)), 8 * (splitRangePtrs - 1)) := by
  have hscan := scanSlots_scanRange { s with markStack := s.markStack.replaceTop (remainder e) }
    (show e.mseStart ≤ e.mseStart + 1008 by omega) (by omega)
  rw [show (e.mseStart + 1008 - e.mseStart) / 8 + 1 = splitRangePtrs - 1 by unfold splitRangePtrs; omega] at hscan
  have hturn : lengthTurn (wordBuild false) (fun a => plausibleHeapAddr cfg (s.world.mem a)) 0 e.mseStart
      e.mseDescr = lengthTurn.chunk (wordBuild false) (fun a => plausibleHeapAddr cfg (s.world.mem a))
        e.mseStart e.mseDescr := by
    rw [lengthTurn,if_pos]
    rw [ptrsToBytes_word]
    omega
  rw [← hscan]
  simp only [markDescribed,htag,hturn]
  rw [Prod.mk.injEq]
  constructor
  · rfl
  · change e.mseStart + 1016 + 0 - e.mseStart = 8 * (splitRangePtrs - 1)
    unfold splitRangePtrs
    omega

theorem promised_length {w : World cfg} {p d : Nat} (hp : formatted cfg p = false) (htag : dsTag d = .length) :
    promised w p d = if 8 ∣ d ∨ d < 8 then direct p d else [] := by
  rw [promised_of_ne hp (by simp [htag])]
  simp only [Whole,htag,forall_const]

theorem formatted_remainder (hp : formatted cfg e.mseStart = false) :
    formatted cfg (remainder e).mseStart = false := by
  have hmod : (e.mseStart + 8 * (splitRangePtrs - 1)) % 4 = e.mseStart % 4 := by
    unfold splitRangePtrs
    omega
  simpa only [formatted,remainder,hmod] using hp

section

variable (he : s.markStack.entries = e :: rest)
include he

theorem markDescribed_length_progress (hp : formatted cfg e.mseStart = false) (htag : dsTag e.mseDescr = .length) :
    Progress s (markDescribed s e).1 := by
  have hsrc : ∀ src ∈ promised s.world e.mseStart e.mseDescr,
      (8 ∣ e.mseDescr ∨ e.mseDescr < 8) ∧ src ∈ direct e.mseStart e.mseDescr := by
    intro src hsrc
    rw [promised_length hp htag] at hsrc
    split at hsrc
    · exact ⟨by assumption,hsrc⟩
    · cases hsrc
  rcases Nat.lt_or_ge e.mseDescr 8 with hshort | hlow
  · rw [markDescribed_short htag hshort]
    apply progress_of_popped he (Progress.refl _)
    intro src hs
    have hzero : e.mseDescr / 8 = 0 := by omega
    have hnone := (hsrc src hs).2
    simp [direct,htag,hzero,wordsAt] at hnone
  rcases Nat.lt_or_ge e.mseDescr (8 * splitRangePtrs) with hhigh | hlong
  · obtain ⟨slots,heq,hslots⟩ := markDescribed_small (s := s) htag hlow hhigh
    rw [heq]
    apply progress_of_popped he (scanSlots_progress _ _)
    intro src hs
    obtain ⟨hwhole,hs⟩ := hsrc src hs
    rw [direct,htag] at hs
    rw [hslots (hwhole.resolve_right (by omega))]
    exact scanSlots_covers_direct (by rfl) hs
  · rw [markDescribed_chunk htag hlong]
    have hsplit : 8 * (splitRangePtrs - 1) ≤ e.mseDescr := by
      unfold splitRangePtrs at *
      omega
    apply progress_of_replacedTop he (scanSlots_progress _ _)
    intro src hs
    obtain ⟨hwhole,hs⟩ := hsrc src hs
    rcases mem_direct_split htag hsplit hs with ⟨a,ha,rfl⟩ | hrest
    · exact .inl (scanSlots_covers (by rfl) ha)
    · right
      rw [promised_length (formatted_remainder hp),if_pos]
      · exact hrest
      · unfold remainder
        dsimp only
        omega
      · rw [dsTag_length] at htag ⊢
        unfold remainder
        dsimp only
        omega

theorem markDescribed_perObject_progress (hp : formatted cfg e.mseStart = false) (htag : dsTag e.mseDescr = .perObject) :
    Progress s (markDescribed s e).1 := by
  simp only [markDescribed,htag]
  have hreal : realDescr s.world e.mseStart e.mseDescr = perObjectDescr cfg s.world.mem e.mseStart e.mseDescr :=
    if_pos htag
  have hsrc : ∀ src ∈ promised s.world e.mseStart e.mseDescr,
      src ∈ direct e.mseStart (perObjectDescr cfg s.world.mem e.mseStart e.mseDescr) := by
    intro src hsrc
    rw [← hreal]
    exact mem_direct_of_mem_promised hsrc
  split
  · rename_i hzero
    apply progress_of_popped he (Progress.refl _)
    intro src hs
    have hnone := hsrc src hs
    simp [hzero] at hnone
  · apply progress_of_replacedTop he (Progress.refl _)
    intro src hs
    right
    by_cases hagain : dsTag (perObjectDescr cfg s.world.mem e.mseStart e.mseDescr) = .perObject
    · have hnone := hsrc src hs
      simp [direct,hagain] at hnone
    · rw [promised_of_ne hp hagain,← hreal]
      rw [promised,designated] at hs
      simpa only [hp,true_and] using hs

theorem markDescribed_progress (hp : formatted cfg e.mseStart = false) :
    Progress s (markDescribed s e).1 := by
  cases htag : dsTag e.mseDescr with
  | length => exact markDescribed_length_progress he hp htag
  | perObject => exact markDescribed_perObject_progress he hp htag
  | bitmap =>
    simp only [markDescribed,htag]
    apply progress_of_popped he (scanSlots_progress _ _)
    intro src hsrc
    have hsrc := mem_direct_of_mem_promised hsrc
    rw [realDescr_of_ne (by simp [htag]),direct,htag] at hsrc
    exact scanSlots_covers_direct (by rfl) hsrc
  | proc =>
    simp only [markDescribed,htag]
    apply progress_of_popped he (pushWords_progress (by rfl) (clientTarget_sound s.world) _)
    intro src hsrc
    have hsrc := mem_direct_of_mem_promised hsrc
    rw [realDescr_of_ne (by simp [htag]),direct,htag,mem_singleton] at hsrc
    subst hsrc
    exact pushWords_covers (by rfl) (clientTarget_sound s.world)
      (fun _ _ _ => clientTarget_of_heapTarget) (fun _ hq => hq)

theorem markFormatted_progress (hp : formatted cfg e.mseStart = true) :
    Progress s (markFormatted s e).1 := by
  have hsrc : ∀ src ∈ promised s.world e.mseStart e.mseDescr, False := by
    intro src hsrc
    rw [promised_of_formatted hp] at hsrc
    cases hsrc
  unfold markFormatted
  dsimp only
  cases (formattedTurn s.world e).rest with
  | none =>
    apply progress_of_popped he (pushWords_progress (by rfl) (heapTarget_sound s.world) _)
    intro src hs
    exact (hsrc src hs).elim
  | some part =>
    apply progress_of_replacedTop he (pushWords_progress (by rfl) (heapTarget_sound s.world) _)
    intro src hs
    exact (hsrc src hs).elim

theorem markEntry_progress : Progress s (markEntry s e).1 := by
  unfold markEntry
  split
  · rename_i hp
    exact markFormatted_progress he hp
  · rename_i hp
    exact markDescribed_progress he (by simpa using hp)

end

theorem markLoop_progress {fuel : Nat} {credit : Int} (h : markLoop fuel credit s = some s') :
    Progress s s' := by
  induction fuel generalizing credit s with
  | zero => simp [markLoop] at h
  | succ fuel ih =>
    rw [markLoop] at h
    split at h
    · cases h
      exact Progress.refl s'
    · rename_i e rest he
      split at h
      · cases h
        exact Progress.refl s'
      · exact (markEntry_progress he).trans (ih h)

theorem markFrom_progress (h : markFrom s = some s') :
    Progress s s' ∧ s'.objectsAreMarked = true := by
  have hloop := markLoop_progress h
  exact ⟨(Progress.ofFlag s).trans hloop,hloop.flag rfl⟩

end MarkFrom

section Blocks

variable {b : Block}

/-- What a routine that pushes from a block does: it makes progress, an overflow leaves
the flag set, and the objects `keep` selects have their sources settled. -/
structure Pushes (b : Block) (keep : Nat → Prop) (s s' : State cfg) : Prop where
  progress : Progress s s'
  flagged : s.markState ≠ .invalid → s'.markState = .invalid → s'.objectsAreMarked = true
  settled : s'.markState ≠ .invalid → ∀ o ∈ b.objs, keep o →
    ∀ src ∈ followedIn s.world b o, Settled (traced s.world) (view s') src

theorem Pushes.ofFlag {keep : Nat → Prop} (h : Progress { s with objectsAreMarked := true } s')
    (hsettled : s'.markState ≠ .invalid → ∀ o ∈ b.objs, keep o →
      ∀ src ∈ followedIn s.world b o, Settled (traced s.world) (view s') src) :
    Pushes b keep s s' where
  progress := (Progress.ofFlag s).trans h
  flagged _ _ := h.flag rfl
  settled := hsettled

theorem Pushes.of_empty {keep : Nat → Prop} (s : State cfg) (hdescr : b.descr = 0) :
    Pushes b keep s s where
  progress := Progress.refl s
  flagged hno h := absurd h hno
  settled _ o _ _ src hsrc := by simp [hdescr] at hsrc

theorem pushIf_progress (keep : State cfg → Nat → Prop) [∀ s p, Decidable (keep s p)] (p : Nat) :
    Progress s (if keep s p then msPushObjHdr p b s else s) := by
  split
  · exact msPushObjHdr_progress p b s
  · exact Progress.refl s

theorem pushObjs_settled (keep : State cfg → Nat → Prop) [∀ s p, Decidable (keep s p)] {l : List Nat}
    {o : Nat} (ho : o ∈ l) (hkeep : ∀ s', Progress s s' → keep s' o)
    (hvalid : (l.foldl (fun s p => if keep s p then msPushObjHdr p b s else s) s).markState ≠ .invalid)
    {src : Source} (hsrc : src ∈ promised s.world (b.entryStart o) b.descr) :
    Settled (traced s.world)
      (view (l.foldl (fun s p => if keep s p then msPushObjHdr p b s else s) s)) src := by
  apply Progress.foldl_settled (fun p _ s' _ => pushIf_progress keep p) ho _ hvalid
  intro s' hs' _
  rw [if_pos (hkeep s' hs')]
  apply Or.inr
  apply msPushObjHdr_pending
  rw [hs'.world]
  exact hsrc

theorem pushUnconditionally_pushes (b : Block) (s : State cfg) :
    Pushes b (fun o => s.world.mem o % 4 ≠ 0) s (pushUnconditionally b s) := by
  unfold pushUnconditionally
  split
  · exact Pushes.of_empty s (by assumption)
  · apply Pushes.ofFlag
    · exact Progress.foldl fun p _ s' _ => pushIf_progress (fun s p => s.world.mem p % 4 ≠ 0) p
    · intro hvalid o ho hlive src hsrc
      refine pushObjs_settled (s := { s with objectsAreMarked := true })
        (fun s p => s.world.mem p % 4 ≠ 0) ho ?_ hvalid (mem_of_mem_filter hsrc)
      intro s' hs'
      rw [hs'.world]
      exact hlive

/-- The words of a marked object, as the accelerated routines push them. -/
theorem pushMarkedGranules_step_progress {n q : Nat} {markWord : Nat → Bool} :
    Progress s (if markWord q = true then
      pushWords (clientTarget s.world.table) s ((wordsAt q (2 * n)).map s.world.mem) else s) := by
  split
  · exact pushWords_progress rfl (clientTarget_sound s.world) _
  · exact Progress.refl s

theorem pushMarkedGranules_progress (n : Nat) (b : Block) (s : State cfg) :
    Progress s (pushMarkedGranules n b s) :=
  Progress.foldl fun _ _ _ _ => Progress.foldl fun _ _ _ _ => pushMarkedGranules_step_progress

section

variable {n o : Nat} (hn : n = 1 ∨ n = 2 ∨ n = 4) (hsz : b.sz = granuleBytes * n)
include hn hsz

/-- Every object of a block of such a size has its bit at one of the places looked at. -/
theorem exists_mark_place (ho : o ∈ b.objs) :
    ∃ k < 4, ∃ j < 64 / n, o = b.start + granuleBytes * (64 * k + n * j) := by
  have hsmall : ¬ maxObjBytes < b.sz := by
    unfold maxObjBytes hblkSize granuleBytes at *
    omega
  obtain ⟨i,hi,rfl⟩ := (Block.mem_objs_small hsmall).mp ho
  refine ⟨i * n / 64,?_,i * n % 64 / n,?_,?_⟩ <;> unfold granuleBytes hblkSize at * <;>
    rcases hn with rfl | rfl | rfl <;> simp only [hsz] at * <;> omega

theorem pushMarkedGranules_settled (ho : o ∈ b.objs) (hmark : s.marks o = true)
    (hvalid : (pushMarkedGranules n b s).markState ≠ .invalid) {i : Nat} (hi : 8 * i + 8 ≤ b.sz) :
    Settled (traced s.world) (view (pushMarkedGranules n b s)) (.slot (o + 8 * i)) := by
  obtain ⟨k,hk,j,hj,rfl⟩ := exists_mark_place hn hsz ho
  apply Progress.foldl_settled
    (fun _ _ _ _ => Progress.foldl fun _ _ _ _ => pushMarkedGranules_step_progress)
    (mem_range.mpr hk) _ hvalid
  intro s' hs' hvalid'
  rw [← hs'.world]
  apply Progress.foldl_settled (fun _ _ _ _ => pushMarkedGranules_step_progress)
    (mem_range.mpr hj) _ hvalid'
  intro s'' hs'' _
  rw [if_pos (hs'.marks _ hmark),← hs''.world]
  apply Or.inl
  apply pushWords_covers rfl (clientTarget_sound s''.world) (fun _ _ _ => clientTarget_of_heapTarget)
  intro q hq
  rw [sourceWords,mem_singleton] at hq
  rw [hq]
  apply mem_map_of_mem
  apply mem_wordsAt.mpr
  refine ⟨i,?_,rfl⟩
  unfold granuleBytes at hsz
  omega

end

theorem pushMarkedGranules_pushes {n : Nat} (hn : n = 1 ∨ n = 2 ∨ n = 4)
    (hsz : b.sz = granuleBytes * n) (hproc : dsTag b.descr ≠ .proc) :
    Pushes b (fun o => s.marks o = true) s
      (pushMarkedGranules n b { s with objectsAreMarked := true }) := by
  apply Pushes.ofFlag (pushMarkedGranules_progress n b _)
  intro hvalid o ho hmark src hsrc
  obtain ⟨i,hi,rfl⟩ := (of_decide_eq_true (mem_filter.mp hsrc).2).resolve_left hproc
  exact pushMarkedGranules_settled (s := { s with objectsAreMarked := true }) hn hsz ho hmark hvalid (by omega)

theorem pushMarked_general_pushes (b : Block) (s : State cfg) :
    Pushes b (fun o => s.marks o = true) s
      (b.objs.foldl (fun s p => if s.marks p = true then msPushObjHdr p b s else s)
        { s with objectsAreMarked := true }) := by
  apply Pushes.ofFlag
  · exact Progress.foldl fun p _ s' _ => pushIf_progress (fun s p => s.marks p = true) p
  · intro hvalid o ho hmark src hsrc
    exact pushObjs_settled (s := { s with objectsAreMarked := true }) (fun s p => s.marks p = true) ho
      (fun s' hs' => hs'.marks o hmark) hvalid (mem_of_mem_filter hsrc)

theorem pushMarked_pushes (hb : b ∈ s.world.table.blocks) (hcounted : Counted s) :
    Pushes b (fun o => s.marks o = true) s (pushMarked b s) := by
  unfold pushMarked
  split
  · exact Pushes.of_empty s (by assumption)
  · split
    · rename_i hnone
      exact ⟨Progress.refl s,fun hno h => absurd h hno,
        fun _ o ho hmark => absurd hnone (hcounted b hb o ho hmark)⟩
    · have hdiv : b.sz % granuleBytes = 0 := (s.world.table.ok b hb).1.2.2.1
      have haccel : ∀ n, (n = 1 ∨ n = 2 ∨ n = 4) →
          (if b.format ≠ .words ∨ dsTag b.descr = .proc then 0 else b.sz / granuleBytes) = n →
          Pushes b (fun o => s.marks o = true) s
            (pushMarkedGranules n b { s with objectsAreMarked := true }) := by
        intro n hn heq
        split at heq
        · omega
        · rename_i hproc
          apply pushMarkedGranules_pushes hn _ (not_or.mp hproc).2
          unfold granuleBytes at *
          omega
      dsimp only
      split
      · exact haccel 1 (.inl rfl) (by assumption)
      · exact haccel 2 (.inr (.inl rfl)) (by assumption)
      · exact haccel 4 (.inr (.inr rfl)) (by assumption)
      · exact pushMarked_general_pushes b s

end Blocks

section Roots

theorem pushAll_progress (range : Nat × Nat) : Progress s (pushAll s range) := by
  unfold pushAll
  dsimp only
  split
  · exact Progress.refl s
  · exact msPushObjDescr_progress _ _ s

theorem pushAll_settled {range : Nat × Nat} {a : Nat} (ha : a ∈ rangeSlots range) :
    Settled (traced s.world) (view (pushAll s range)) (.slot a) := by
  apply Or.inr
  unfold pushAll
  dsimp only
  split
  · rename_i hle
    have hzero : range.2 / 8 * 8 - (range.1 + 7) / 8 * 8 = 0 := by omega
    simp [rangeSlots,hzero,wordsAt] at ha
  · have htag : dsTag (range.2 / 8 * 8 - (range.1 + 7) / 8 * 8) = .length := by
      rw [dsTag_length]
      omega
    apply msPushObjDescr_pending
    rw [promised_length (formatted_of_dvd (by omega)) htag,if_pos (by omega),direct,htag]
    exact mem_map_of_mem ha

theorem pushAllEager_progress (range : Nat × Nat) : Progress s (pushAllEager s range) :=
  pushWords_progress rfl (stackTarget_sound s.world) _

theorem pushStatic_progress (s : State cfg) (ranges : List (Nat × Nat)) :
    Progress s (ranges.foldl pushAll s) :=
  Progress.foldl fun range _ _ _ => pushAll_progress range

theorem pushStacks_progress (s : State cfg) (ranges : List (Nat × Nat)) :
    Progress s (ranges.foldl pushAllEager s) :=
  Progress.foldl fun range _ _ _ => pushAllEager_progress range

theorem pushRoots_progress (s : State cfg) : Progress s (pushRoots s) :=
  (pushStatic_progress s s.world.staticRoots).trans (pushStacks_progress _ _)

theorem pushRoots_settled (hvalid : (pushRoots s).markState ≠ .invalid) {src : Source}
    (hsrc : RootSource s.world src) : Settled (traced s.world) (view (pushRoots s)) src := by
  obtain ⟨range,hrange,a,ha,rfl⟩ := hsrc
  have hstatic := pushStatic_progress s s.world.staticRoots
  have hstacks := pushStacks_progress (s.world.staticRoots.foldl pushAll s) s.world.stackRoots
  have hsettled : Settled (traced s.world) (view (s.world.staticRoots.foldl pushAll s)) (.slot a) := by
    apply Progress.foldl_settled (fun range _ _ _ => pushAll_progress range) hrange _
      (hstacks.valid hvalid)
    intro s' hs' _
    rw [← hs'.world]
    exact pushAll_settled ha
  have hadvance := hstacks.advance hvalid
  rw [hstatic.world] at hadvance
  exact hadvance.settled _ hsettled

end Roots

end GcUtil.Mark.Scanning
