import GcUtil.Mark.States
import GcUtil.Sweep.MarkCounts

/-! A full collection in a stopped world: whatever the size of the mark stack and however
often it overflows, once `GC_mark_some` reports that it is done every object reachable from
the roots is marked. -/
namespace GcUtil.Mark.Soundness
open List
open Basic Pointers Ranges Machine References Pushing Scanning States Library.DiscardStack Library.Tracing

variable {cfg : Config} {s s' : State cfg} {b : Block} {o : Nat}

section Start

theorem ne_finalMark (hpos : 0 < b.sz) (ho : o ∈ b.objs) : o ≠ b.finalMark := by
  unfold Block.finalMark
  split
  · have := Block.contains_of_mem_objs hpos ho
    exact this.2.ne
  · rename_i hsmall
    obtain ⟨k,hk,rfl⟩ := (Block.mem_objs_small hsmall).mp ho
    have := Nat.mul_lt_mul_of_pos_right hk hpos
    omega

/-- What `GC_clear_marks` leaves once it went over the blocks of `l`. -/
structure Cleared (s s' : State cfg) (l : List Block) : Prop where
  world : s'.world = s.world
  marks : ∀ b ∈ s.world.table.blocks, ∀ a, b.Contains a →
    s'.marks a = if b ∈ l ∧ isUncollectable b.objKind = false then decide (a = b.finalMark) else s.marks a
  nMarks : ∀ b ∈ s.world.table.blocks,
    s'.nMarks b.start = if b ∈ l ∧ isUncollectable b.objKind = false then 0 else s.nMarks b.start

theorem clearMarksForBlock_cleared (hb : b ∈ s.world.table.blocks) : Cleared s (clearMarksForBlock s b) [b] := by
  unfold clearMarksForBlock
  split
  · rename_i hkind
    have hno : ∀ c, ¬ (c ∈ [b] ∧ isUncollectable c.objKind = false) := by
      rintro c ⟨hc,hfalse⟩
      simp [mem_singleton.mp hc,hkind] at hfalse
    exact ⟨rfl,fun c _ a _ => (if_neg (hno c)).symm,fun c _ => (if_neg (hno c)).symm⟩
  · rename_i hkind
    refine ⟨rfl,fun c hc a ha => ?_,fun c hc => ?_⟩ <;> by_cases hcb : c = b
    · subst hcb
      simp [hkind,ha]
    · have hout : ¬ b.Contains a := fun hin => hcb (s.world.table.eq_of_contains hc hb ha hin)
      simp [hcb,hout]
    · subst hcb
      simp [hkind]
    · have hstart : c.start ≠ b.start := fun heq =>
        hcb (s.world.table.eq_of_contains hc hb (Block.contains_start (s.world.table.ok c hc).1.2.1)
          (heq ▸ Block.contains_start (s.world.table.ok b hb).1.2.1))
      simp [hcb,Function.update_of_ne hstart]

theorem foldl_clearMarksForBlock (l : List Block) (s : State cfg) (hl : ∀ c ∈ l, c ∈ s.world.table.blocks) :
    Cleared s (l.foldl clearMarksForBlock s) l := by
  induction l generalizing s with
  | nil => exact ⟨rfl,fun _ _ _ _ => by simp,fun _ _ => by simp⟩
  | cons c l ih =>
    have hstep := clearMarksForBlock_cleared (hl c mem_cons_self)
    have hrest := ih (clearMarksForBlock s c) fun d hd => hstep.world ▸ hl d (mem_cons_of_mem c hd)
    refine ⟨hrest.world.trans hstep.world,fun b hb a ha => ?_,fun b hb => ?_⟩
    · rw [List.foldl_cons,hrest.marks b (hstep.world ▸ hb) a ha,hstep.marks b hb a ha]
      cases isUncollectable b.objKind <;> by_cases hin : b ∈ l <;> simp [hin]
    · rw [List.foldl_cons,hrest.nMarks b (hstep.world ▸ hb),hstep.nMarks b hb]
      cases isUncollectable b.objKind <;> by_cases hin : b ∈ l <;> simp [hin]

theorem clearMarks_cleared (s : State cfg) : Cleared s (clearMarks s) s.world.table.blocks := by
  have h := foldl_clearMarksForBlock s.world.table.blocks s fun _ hc => hc
  exact ⟨h.world,h.marks,h.nMarks⟩

def fullStart (s : State cfg) : State cfg := initiateGc false (clearMarks (invalidateMarkState s))

theorem fullStart_cleared (s : State cfg) : Cleared s (fullStart s) s.world.table.blocks := by
  have h := clearMarks_cleared (invalidateMarkState s)
  exact ⟨h.world,h.marks,h.nMarks⟩

theorem Cleared.marks_obj {l : List Block} (h : Cleared s s' l) (hb : b ∈ s.world.table.blocks) (ho : o ∈ b.objs) :
    s'.marks o = if b ∈ l ∧ isUncollectable b.objKind = false then false else s.marks o := by
  have hpos := (s.world.table.ok b hb).1.2.1
  rw [h.marks b hb o (Block.contains_of_mem_objs hpos ho),decide_eq_false (ne_finalMark hpos ho)]

/-- Only uncollectable objects are marked, and they are owed. -/
theorem fullStart_inv (hcount : Counted s) : Inv (fun _ => False) (fullStart s) := by
  have hclear := fullStart_cleared s
  have hkind : ∀ b ∈ s.world.table.blocks, ∀ o ∈ b.objs, (fullStart s).marks o = true →
      s.marks o = true ∧ isUncollectable b.objKind = true := by
    intro b hb o ho hmark
    rw [hclear.marks_obj hb ho] at hmark
    by_cases hk : isUncollectable b.objKind = true
    · exact ⟨by simpa [hk] using hmark,hk⟩
    · simp [hb,hk] at hmark
  constructor
  · rw [hclear.world]
    intro o ho
    cases hblock : objBlock s.world o with
    | none =>
      right
      intro src hsrc
      change src ∈ followed s.world o at hsrc
      simp [followed,hblock] at hsrc
    | some b =>
      obtain ⟨hat,hobj⟩ := objBlock_eq_some.mp hblock
      have hb := (s.world.table.blockAt_some hat).1
      rcases isUncollectable_iff.mp (hkind b hb o hobj ho).2 with hk | hk
      · exact .inl ⟨b,hblock,.inr (.inr ⟨hk,Nat.zero_le _⟩)⟩
      · right
        intro src hsrc
        have hsrc := followed_subset hat hsrc
        simp [(s.world.table.ok b hb).1.2.2.2 hk] at hsrc
  · intro b hb o ho hmark
    rw [hclear.world] at hb
    obtain ⟨hold,hk⟩ := hkind b hb o ho hmark
    rw [hclear.nMarks b hb,if_neg (by simp [hk])]
    exact hcount b hb o ho hold
  · rintro (h | h) <;> cases h
  · intro h
    cases h

end Start

section Headers

/-- The marks of a block are those of its header, one for each granule of the first page. -/
structure Shown (s : State cfg) (b : Block) (hd : Sweep.MarkBits.Hdr) : Prop where
  kind : hd.hbObjKind = b.objKind
  sz : hd.hbSz = b.sz
  marks : ∀ i < hblkSize / granuleBytes, hd.hbMarks i = s.marks (b.start + granuleBytes * i)
  nMarks : hd.hbNMarks = s.nMarks b.start

def Shows (s : State cfg) (h : Sweep.Reclaim.Heap) : Prop :=
  ∀ b ∈ s.world.table.blocks, ∃ hd, h.hdr b.start = some hd ∧ Shown s b hd

theorem hblkSize_le_bytes (hpos : 0 < b.sz) : hblkSize ≤ b.bytes :=
  Nat.le_mul_of_pos_left _ (objSzToBlocks_pos hpos)

theorem finalMark_iff {L : Sweep.MarkBits.Layout} (hper : L.markBitPerObj = false) (hok : b.Ok) {i : Nat}
    (hi : i < hblkSize / granuleBytes) :
    b.start + granuleBytes * i = b.finalMark ↔ i = Sweep.MarkBits.finalMarkBit L b.sz := by
  obtain ⟨_,hpos,hwhole,_⟩ := hok
  unfold Block.finalMark Sweep.MarkBits.finalMarkBit Sweep.MarkBits.hblkObjs
  simp only [hper,Bool.false_eq_true,if_false]
  by_cases hlarge : maxObjBytes < b.sz
  · have hbytes := hblkSize_le_bytes hpos
    rw [if_pos hlarge,if_pos hlarge]
    unfold hblkSize granuleBytes at *
    omega
  · have hdvd : granuleBytes ∣ hblkSize / b.sz * b.sz := (Nat.dvd_of_mod_eq_zero hwhole).mul_left _
    rw [if_neg hlarge,if_neg hlarge]
    unfold granuleBytes at *
    omega

/-- `GC_clear_marks` of the marker is `GC_clear_marks` on the headers. -/
theorem clearMarks_shows (setup : Sweep.Reclaim.Setup) (hper : setup.layout.markBitPerObj = false)
    {h : Sweep.Reclaim.Heap} (hs : Shows s h) : Shows (clearMarks s) (Sweep.MarkCounts.clearMarks setup h) := by
  have hclear := clearMarks_cleared s
  intro b hb
  rw [hclear.world] at hb
  obtain ⟨hd,hhd,hshown⟩ := hs b hb
  have hok := (s.world.table.ok b hb).1
  have hin : ∀ i < hblkSize / granuleBytes, b.Contains (b.start + granuleBytes * i) := by
    intro i hi
    have := hblkSize_le_bytes hok.2.1
    unfold Block.Contains hblkSize granuleBytes at *
    omega
  refine ⟨_,congrArg (Option.map _) hhd,?_⟩
  beta_reduce
  rw [hshown.kind]
  by_cases hkind : isUncollectable b.objKind = true
  · rw [if_pos hkind]
    refine ⟨hshown.kind,hshown.sz,fun i hi => ?_,?_⟩
    · rw [hshown.marks i hi,hclear.marks b hb _ (hin i hi),if_neg (by simp [hkind])]
    · rw [hshown.nMarks,hclear.nMarks b hb,if_neg (by simp [hkind])]
  · have hcond : b ∈ s.world.table.blocks ∧ isUncollectable b.objKind = false := ⟨hb,by simpa using hkind⟩
    rw [if_neg hkind]
    refine ⟨hshown.kind,hshown.sz,fun i hi => ?_,?_⟩
    · rw [hclear.marks b hb _ (hin i hi),if_pos hcond]
      simp [Sweep.MarkBits.clearHdrMarks,Sweep.MarkBits.setMarkBitFromHdr,finalMark_iff hper hok hi,hshown.sz]
    · rw [hclear.nMarks b hb,if_pos hcond]
      rfl

end Headers

section Run

variable {D : Block → Prop} {done : Bool}

/-- A run of `GC_mark_some` that does not start with the dirty pages. -/
theorem markWhile_stepped (inps : List StepInput) (h : Inv D s) (hstate : s.markState ≠ .pushRescuers)
    (hrun : markWhile inps s = some (done, s')) :
    Stepped D s s' ∧ (done = true → s'.markState = .none) := by
  induction inps generalizing s with
  | nil =>
    cases hrun
    exact ⟨⟨h,id,rfl,fun _ ho => ho,id⟩,nofun⟩
  | cons inp inps ih =>
    rw [markWhile] at hrun
    split at hrun
    · cases hrun
    · rename_i s₁ hstep
      cases hrun
      exact markSome_stepped h (fun hr => absurd hr hstate) hstep
    · rename_i s₁ hstep
      have hs := (markSome_stepped h (fun hr => absurd hr hstate) hstep).1
      have hrest := ih hs.inv (fun hr => hstate (hs.rescuers hr)) hrun
      exact ⟨hs.trans hrest.1,hrest.2⟩

theorem Inv.closed (h : Inv (fun _ => False) s) (hstate : s.markState = .none) (ho : s.marks o = true) :
    ∀ src ∈ followed s.world o, Covered (traced s.world) (view s) src := by
  intro src hsrc
  have hempty : ¬ (view s).pending src := by
    rintro ⟨e,he,-⟩
    simp [h.idle hstate] at he
  rcases h.scanned o ho with ⟨b,-,hd | howed⟩ | hall
  · exact hd.elim
  · simp [Owed,hstate] at howed
  · exact (hall src hsrc).covered hempty

/-- A full collection marks every reachable object if, in each of these, lengths are whole
numbers of words and what descriptors designate lies in the object. -/
theorem fullMark_marks_reachable {inps : List StepInput} (hcount : Counted s)
    (hok : DescriptorsOk s) (hlengths : LengthsOk s)
    (hrun : fullMark inps s = some (true, s')) (ho : Reachable s o) : s'.marks o = true := by
  have hclear := fullStart_cleared s
  have hrun : markWhile inps (fullStart s) = some (true, s') := hrun
  obtain ⟨hs,hdone⟩ := markWhile_stepped inps (fullStart_inv hcount) nofun hrun
  have hstate := hdone rfl
  have hworld : s'.world = s.world := hs.world.trans hclear.world
  have hroots : RootsOk s' := hs.roots (by rintro (h | h) <;> cases h)
  obtain ⟨hsources,hstacks⟩ := hroots (.inr hstate)
  rw [hworld] at hsources hstacks
  have hempty : ∀ src, ¬ (view s').pending src := by
    rintro src ⟨e,he,-⟩
    simp [hs.inv.idle hstate] at he
  refine Reach.marked (v := view s') (ho.traced hok hlengths) ?_ ?_ ?_
  · rintro o (⟨b,hb,hkind,hobj,hmark⟩ | ⟨range,hr,a,ha,hat⟩)
    · apply hs.marks o
      rw [hclear.marks_obj hb hobj,if_neg (by simp [isUncollectable_iff.mpr (.inl hkind)])]
      exact hmark
    · exact hstacks range hr a ha o hat
  · intro src hsrc
    exact (hsources src hsrc).covered (hempty src)
  · intro o ho src hsrc
    have hclosed := Inv.closed hs.inv hstate ho
    rw [hworld] at hclosed
    exact hclosed src hsrc

end Run

section Chain

def chainConfig : Config := plainConfig 65535 69632

def chainState (descr : Nat) : State chainConfig where
  world :=
    { table :=
        { blocks := [⟨65536, 16, descr, 1, false, false, .words⟩]
          ok := by simp [Block.Ok, Block.bytes, chainConfig, plainConfig, hblkSize, granuleBytes, auncollectable,
            objSzToBlocks, divHblksz]
          sorted := by simp }
      mem := fun a => if a = 4096 then 65536 else if a = 65536 then 65552 else 0
      staticRoots := [(4096, 4104)]
      stackRoots := []
      dirtyPages := fun _ => false
      grungyPages := fun _ => false }
  marks _ := false
  nMarks _ := 0
  markStack := .resized 4096 (by decide)
  markStackTooSmall := false
  markState := .none
  scanPtr := 0
  objectsAreMarked := false

theorem chain_reachable {descr : Nat} (hsource : .slot 65536 ∈ sources (chainState descr).world 65536)
    (hfirst : objAt (chainState descr).world 65536 = some 65536)
    (hsecond : objAt (chainState descr).world 65552 = some 65552) : Reachable (chainState descr) 65552 := by
  have hroot : Reachable (chainState descr) 65536 :=
    .source ⟨(4096, 4104),mem_singleton_self _,4096,by decide,rfl⟩
      ⟨65536,mem_singleton_self _,hfirst⟩
  exact .edge hroot hsource ⟨65552,mem_singleton_self _,hsecond⟩

def chainInputs : List StepInput := List.replicate 4 ⟨false, none⟩

/-- The second object is found through a length of two words. -/
theorem fullMark_marks_reachable_chain :
    ∃ s', fullMark chainInputs (chainState 16) = some (true, s') ∧ s'.marks 65552 = true := by
  have hdone : ((fullMark chainInputs (chainState 16)).map fun r => r.1) = some true := by decide +kernel
  obtain ⟨⟨done,s'⟩,hrun,hd⟩ := Option.map_eq_some_iff.mp hdone
  cases hd
  refine ⟨s',hrun,fullMark_marks_reachable ?_ ?_ ?_ hrun ?_⟩
  · intro b _ o _ hmark
    cases hmark
  · intro b hb o ho _ _ src hsrc
    obtain rfl := mem_singleton.mp hb
    obtain ⟨i,hi,rfl⟩ : ∃ i, i < 2 ∧ Source.slot (o + 8 * i) = src := by
      simpa [designated,realDescr,direct,dsTag,wordsAt] using hsrc
    exact ⟨i,rfl,by dsimp only; omega⟩
  · have hwhole : ∀ b ∈ (chainState 16).world.table.blocks, b.format = .words ∧
        ∀ o ∈ b.objs, Whole (realDescr (chainState 16).world o b.descr) := by decide +kernel
    exact fun b hb o ho _ => ⟨(hwhole b hb).1,(hwhole b hb).2 o ho⟩
  · exact chain_reachable (by decide) (by decide) (by decide)

/-- With a length of a word and a half the marker reads a word at an odd place and misses the
first one. -/
theorem fullMark_misses_reachable :
    ∃ s', fullMark chainInputs (chainState 12) = some (true, s') ∧ Reachable (chainState 12) 65552 ∧
      s'.marks 65552 = false := by
  have hdone : ((fullMark chainInputs (chainState 12)).map fun r => (r.1, r.2.marks 65552)) =
      some (true, false) := by decide +kernel
  obtain ⟨⟨done,s'⟩,hrun,hd⟩ := Option.map_eq_some_iff.mp hdone
  simp only [Prod.mk.injEq] at hd
  obtain ⟨rfl,hclear⟩ := hd
  exact ⟨s',hrun,chain_reachable (by decide) (by decide) (by decide),hclear⟩

end Chain

end GcUtil.Mark.Soundness
