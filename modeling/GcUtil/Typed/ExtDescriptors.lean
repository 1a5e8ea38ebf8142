import GcUtil.Typed.Descriptors

/-! The table of extended descriptors. Threads store their bitmaps word by word in the same array,
which grows while they hold no lock, and `GC_typed_mark_proc` replays a bitmap through the mark
stack. Threads take turns at the allocator lock: a step of the model is what one of them does
between taking it and giving it up. -/
namespace GcUtil.Typed.ExtDescriptors
open Mark.Ranges Mark.Machine Mark.Compressed Descriptors Function List

section Model

structure ExtDescr where
  edBitmap : BitVec 64
  edContinued : Bool

/-- `GC_ed_size`, `GC_avail_descr` and the array `GC_ext_descriptors`. -/
structure ExtTable where
  edSize : Nat
  availDescr : Nat
  extDescriptors : Nat → ExtDescr

def edInitialSize : Nat := 100

def emptyTable : ExtTable := ⟨0, 0, fun _ => ⟨0, false⟩⟩

def nwords (nbits : Nat) : Nat := (nbits + 64 - 1) / 64

def storedWord (bm : Nat → BitVec 64) (nbits i : Nat) : ExtDescr :=
  if i < nwords nbits - 1 then ⟨bm i, true⟩
  else ⟨bm i &&& BitVec.allOnes 64 >>> (nwords nbits * 64 - nbits), false⟩

def storeWords (bm : Nat → BitVec 64) (nbits : Nat) (t : ExtTable) : ExtTable :=
  { t with
    availDescr := t.availDescr + nwords nbits
    extDescriptors := (List.range (nwords nbits)).foldl
      (fun ext i => Function.update ext (t.availDescr + i) (storedWord bm nbits i)) t.extDescriptors }

def newSize (edSize : Nat) : Nat := if edSize = 0 then edInitialSize else 2 * edSize

/-- What a thread that has got memory does with it: another one may have replaced the table. -/
def installTable (edSize : Nat) (newExtD : Nat → ExtDescr) (t : ExtTable) : ExtTable :=
  if edSize = t.edSize then
    { edSize := newSize edSize
      availDescr := t.availDescr
      extDescriptors := fun i => if i < t.availDescr then t.extDescriptors i else newExtD i }
  else t

/-- A call of `GC_make_descriptor` that waits for memory, with the size of the table when it
gave up the lock. -/
structure Call where
  bm : Nat → BitVec 64
  len : Nat
  nbits : Nat
  edSize : Nat

/-- A call that has returned `descr`; `exhausted` if it could not store its bitmap. -/
structure Issued where
  bm : Nat → BitVec 64
  len : Nat
  descr : Nat
  exhausted : Bool

structure State where
  table : ExtTable
  waiting : Nat → Option Call
  issued : List Issued

def initial : State := ⟨emptyTable, fun _ => none, []⟩

/-- A thread calls `GC_make_descriptor`, or comes back from `GC_malloc_atomic` in it. -/
inductive Event where
  | call (thread : Nat) (bm : Nat → BitVec 64) (len : Nat)
  | resume (thread : Nat) (newExtD : Option (Nat → ExtDescr))

variable (index : Nat)

/-- `GC_add_ext_descriptor` with the lock: the bitmap is stored, or the lock is given up to
allocate a larger table. -/
def addExtDescriptor (s : State) (thread : Nat) (c : Call) : State :=
  if s.table.edSize ≤ s.table.availDescr + nwords c.nbits then
    { s with waiting := Function.update s.waiting thread (some { c with edSize := s.table.edSize }) }
  else
    { table := storeWords c.bm c.nbits s.table
      waiting := Function.update s.waiting thread none
      issued := ⟨c.bm, c.len, makeProc index s.table.availDescr, false⟩ :: s.issued }

/-- `GC_make_descriptor` where `GC_add_ext_descriptor` has returned -1. -/
def approximate (s : State) (thread : Nat) (c : Call) : State :=
  { s with
    waiting := Function.update s.waiting thread none
    issued := ⟨c.bm, c.len, ptrsToBytes c.nbits, true⟩ :: s.issued }

def step (s : State) : Event → State
  | .call thread bm len =>
      match s.waiting thread with
      | some _ => s
      | none =>
          match plan bm len with
          | .ready d => { s with issued := ⟨bm, len, d, false⟩ :: s.issued }
          | .extend nbits => addExtDescriptor index s thread ⟨bm, len, nbits, 0⟩
  | .resume thread newExtD =>
      match s.waiting thread with
      | none => s
      | some c =>
          if c.edSize ≠ 0 ∧ maxEnv < newSize c.edSize then approximate s thread c
          else
            match newExtD with
            | none => approximate s thread c
            | some newExtD =>
                addExtDescriptor index { s with table := installTable c.edSize newExtD s.table } thread c

def run (events : List Event) : State := events.foldl (step index) initial

/-- A thread comes back from `GC_malloc_atomic` `n` times without another one in between. -/
def resumed (thread : Nat) (answers : Nat → Option (Nat → ExtDescr)) : Nat → State → State
  | 0, s => s
  | n + 1, s => resumed thread (fun i => answers (i + 1)) n (step index s (.resume thread (answers 0)))

def scanWord : Nat → BitVec 64 → Nat → List Nat
  | 0, _, _ => []
  | n + 1, bm, p =>
      if bm = 0 then []
      else if bm.getLsbD 0 then p :: scanWord n (bm >>> 1) (p + 8)
      else scanWord n (bm >>> 1) (p + 8)

def typedMarkProc (t : ExtTable) (addr env : Nat) : Scan :=
  let ed := t.extDescriptors env
  ⟨scanWord 64 ed.edBitmap addr, if ed.edContinued then [⟨addr + 8 * 64, makeProc index (env + 1)⟩] else []⟩

end Model

section Meaning

variable {index n p a nbits idx : Nat} {bm : Nat → BitVec 64} {t t' : ExtTable} {w : BitVec 64}

theorem mem_scanWord : a ∈ scanWord n w p ↔ ∃ i < n, w.getLsbD i = true ∧ a = p + 8 * i := by
  induction n generalizing w p with
  | zero => simp [scanWord]
  | succ n ih =>
    have hshift : (∃ i < n + 1, w.getLsbD i = true ∧ a = p + 8 * i) ↔
        (w.getLsbD 0 = true ∧ a = p) ∨ a ∈ scanWord n (w >>> 1) (p + 8) := by
      rw [ih]
      constructor
      · rintro ⟨i,hi,hbit,ha⟩
        cases i with
        | zero => exact .inl ⟨hbit,by omega⟩
        | succ i =>
          refine .inr ⟨i,by omega,?_,by omega⟩
          rwa [BitVec.getLsbD_ushiftRight,Nat.add_comm]
      · rintro (⟨hbit,ha⟩ | ⟨i,hi,hbit,ha⟩)
        · exact ⟨0,by omega,hbit,by omega⟩
        · rw [BitVec.getLsbD_ushiftRight] at hbit
          exact ⟨1 + i,by omega,hbit,by omega⟩
    rw [hshift,scanWord]
    split
    · rename_i hzero
      rw [ih,hzero]
      simp
    · split <;> simp_all

structure Stored (t : ExtTable) (idx : Nat) (bm : Nat → BitVec 64) (nbits : Nat) : Prop where
  inUse : idx + nwords nbits ≤ t.availDescr
  words : ∀ i < nwords nbits, t.extDescriptors (idx + i) = storedWord bm nbits i

structure Extends (t t' : ExtTable) : Prop where
  sizes : t.edSize ≤ t'.edSize
  avail : t.availDescr ≤ t'.availDescr
  keeps : ∀ i < t.availDescr, t'.extDescriptors i = t.extDescriptors i

theorem Extends.refl (t : ExtTable) : Extends t t := ⟨le_refl _,le_refl _,fun _ _ => rfl⟩

theorem Extends.trans {t'' : ExtTable} (h : Extends t t') (h' : Extends t' t'') : Extends t t'' where
  sizes := h.sizes.trans h'.sizes
  avail := h.avail.trans h'.avail
  keeps i hi := by rw [h'.keeps i (by have := h.avail; omega),h.keeps i hi]

theorem Stored.extend (h : Stored t idx bm nbits) (hext : Extends t t') : Stored t' idx bm nbits where
  inUse := h.inUse.trans hext.avail
  words i hi := by
    have := h.inUse
    rw [hext.keeps _ (by omega),h.words i hi]

theorem foldl_update {α : Type} (f : Nat → α) (ext : Nat → α) (base n i : Nat) :
    (List.range n).foldl (fun ext i => update ext (base + i) (f i)) ext i =
      if base ≤ i ∧ i < base + n then f (i - base) else ext i := by
  induction n with
  | zero => simp
  | succ n ih =>
    rw [range_succ,foldl_append,foldl_cons,foldl_nil,update_apply,ih]
    by_cases h : i = base + n
    · simp [h]
    · rw [if_neg h]
      exact if_congr (by omega) rfl rfl

theorem storeWords_extends (bm : Nat → BitVec 64) (nbits : Nat) (t : ExtTable) : Extends t (storeWords bm nbits t) where
  sizes := le_refl _
  avail := by simp [storeWords]
  keeps i hi := by
    rw [storeWords]
    dsimp only
    rw [foldl_update,if_neg (by omega)]

theorem storeWords_stored (bm : Nat → BitVec 64) (nbits : Nat) (t : ExtTable) :
    Stored (storeWords bm nbits t) t.availDescr bm nbits where
  inUse := by simp [storeWords]
  words i hi := by
    rw [storeWords]
    dsimp only
    rw [foldl_update,if_pos (by omega),Nat.add_sub_cancel_left]

theorem le_newSize (edSize : Nat) : edSize ≤ newSize edSize := by
  unfold newSize
  split <;> omega

theorem installTable_extends (edSize : Nat) (newExtD : Nat → ExtDescr) (t : ExtTable) :
    Extends t (installTable edSize newExtD t) := by
  unfold installTable
  split
  · rename_i h
    refine ⟨?_,le_refl _,fun i hi => if_pos hi⟩
    rw [← h]
    exact le_newSize edSize
  · exact Extends.refl t

theorem getLsbD_storedWord {i k : Nat} (hi : i < nwords nbits) (hk : k < 64) :
    (storedWord bm nbits i).edBitmap.getLsbD k = (decide (64 * i + k < nbits) && getBit bm (64 * i + k)) := by
  have hbit : getBit bm (64 * i + k) = (bm i).getLsbD k := by
    rw [getBit,show (64 * i + k) / 64 = i by omega,show (64 * i + k) % 64 = k by omega]
  have hwords : nwords nbits * 64 < nbits + 64 := by
    unfold nwords
    omega
  unfold storedWord
  split
  · rename_i hlt
    have hin : 64 * i + k < nbits := by
      unfold nwords at hlt hi hwords
      omega
    rw [hbit,decide_eq_true hin,Bool.true_and]
  · rename_i hge
    dsimp only
    rw [BitVec.getLsbD_and,BitVec.getLsbD_ushiftRight,BitVec.getLsbD_allOnes,hbit,Bool.and_comm]
    congr 2
    apply propext
    unfold nwords at *
    omega

theorem storedWord_continued {i : Nat} : (storedWord bm nbits i).edContinued = decide (i < nwords nbits - 1) := by
  unfold storedWord
  split <;> simp_all

section

variable {M : Marker} (hindex : index < 64) (hsize : t.availDescr ≤ maxEnv)
  (hproc : M.markProcs index = typedMarkProc index t) (h : Stored t idx bm nbits)
include hindex hsize hproc h

theorem examined_word {i : Nat} (hi : i < nwords nbits) :
    M.Examined ⟨p + 512 * i, makeProc index (idx + i)⟩ a ↔
      (∃ k, 64 * i ≤ k ∧ k < 64 * (i + 1) ∧ k < nbits ∧ getBit bm k = true ∧ a = p + 8 * k) ∨
      (i + 1 < nwords nbits ∧ M.Examined ⟨p + 512 * (i + 1), makeProc index (idx + (i + 1))⟩ a) := by
  have hin := h.inUse
  have hscan : M.markProcs (procIndex (makeProc index (idx + i))) (p + 512 * i) (env (makeProc index (idx + i))) =
      typedMarkProc index t (p + 512 * i) (idx + i) := by
    rw [procIndex_makeProc hindex (by omega),env_makeProc hindex (by omega),hproc]
  rw [examined_proc (makeProc_mod hindex (by omega)) hscan,typedMarkProc,h.words i hi]
  dsimp only
  rw [mem_scanWord,storedWord_continued,show p + 512 * i + 8 * 64 = p + 512 * (i + 1) by omega,Nat.add_assoc idx]
  refine or_congr ?_ ?_
  · constructor
    · rintro ⟨k,hk,hbit,ha⟩
      rw [getLsbD_storedWord hi hk,Bool.and_eq_true,decide_eq_true_eq] at hbit
      exact ⟨64 * i + k,by omega,by omega,hbit.1,hbit.2,by omega⟩
    · rintro ⟨k,hk,hk',hn,hbit,ha⟩
      refine ⟨k - 64 * i,by omega,?_,by omega⟩
      rw [getLsbD_storedWord hi (by omega),show 64 * i + (k - 64 * i) = k by omega,decide_eq_true hn,hbit]
      rfl
  · by_cases hmore : i + 1 < nwords nbits
    · simp [hmore,show i < nwords nbits - 1 by omega]
    · simp [hmore,show ¬ i < nwords nbits - 1 by omega]

theorem examined_from {i : Nat} (hi : i < nwords nbits) :
    M.Examined ⟨p + 512 * i, makeProc index (idx + i)⟩ a ↔
      ∃ k, 64 * i ≤ k ∧ k < nbits ∧ getBit bm k = true ∧ a = p + 8 * k := by
  -- over the words that are left
  induction hleft : nwords nbits - 1 - i generalizing i with
  | zero =>
    have hlast : nbits ≤ 64 * (i + 1) := by
      unfold nwords at hleft
      omega
    rw [examined_word hindex hsize hproc h hi]
    constructor
    · rintro (⟨k,hk,_,hrest⟩ | ⟨hmore,_⟩)
      · exact ⟨k,hk,hrest⟩
      · omega
    · rintro ⟨k,hk,hn,hrest⟩
      exact .inl ⟨k,hk,by omega,hn,hrest⟩
  | succ left ih =>
    have hmore : i + 1 < nwords nbits := by omega
    rw [examined_word hindex hsize hproc h hi,ih hmore (by omega)]
    constructor
    · rintro (⟨k,hk,_,hrest⟩ | ⟨_,k,hk,hrest⟩)
      · exact ⟨k,hk,hrest⟩
      · exact ⟨k,by omega,hrest⟩
    · rintro ⟨k,hk,hrest⟩
      rcases Nat.lt_or_ge k (64 * (i + 1)) with hlt | hge
      · exact .inl ⟨k,hk,hlt,hrest⟩
      · exact .inr ⟨hmore,k,hge,hrest⟩

theorem examined_stored (hn : 0 < nbits) :
    M.Examined ⟨p, makeProc index idx⟩ a ↔ ∃ i < nbits, getBit bm i = true ∧ a = p + 8 * i := by
  have hfirst := examined_from (p := p) (a := a) hindex hsize hproc h (i := 0) (by unfold nwords; omega)
  simpa using hfirst

end

end Meaning

section Runs

variable {index thread : Nat} {s : State} {t t' : ExtTable} {c : Call} {d : Issued}

/-- A descriptor that was returned has what it needs in the table. -/
def Kept (index : Nat) (t : ExtTable) (d : Issued) : Prop :=
  (plan d.bm d.len = .ready d.descr ∧ d.exhausted = false) ∨
    ∃ nbits, plan d.bm d.len = .extend nbits ∧
      ((d.exhausted = true ∧ d.descr = ptrsToBytes nbits) ∨
        (d.exhausted = false ∧ ∃ idx, d.descr = makeProc index idx ∧ Stored t idx d.bm nbits))

structure Sound (index : Nat) (s : State) : Prop where
  fits : s.table.availDescr ≤ s.table.edSize
  small : s.table.edSize ≤ maxEnv
  kept : ∀ d ∈ s.issued, Kept index s.table d
  calls : ∀ thread c, s.waiting thread = some c → plan c.bm c.len = .extend c.nbits ∧ c.edSize ≤ s.table.edSize

theorem Kept.extend (h : Kept index t d) (hext : Extends t t') : Kept index t' d := by
  obtain hready | ⟨nbits,hplan,hexh | ⟨hok,idx,hd,hstored⟩⟩ := h
  · exact .inl hready
  · exact .inr ⟨nbits,hplan,.inl hexh⟩
  · exact .inr ⟨nbits,hplan,.inr ⟨hok,idx,hd,hstored.extend hext⟩⟩

theorem initial_sound : Sound index initial where
  fits := le_refl _
  small := Nat.zero_le _
  kept _ hd := by cases hd
  calls _ _ hc := by cases hc

section

variable (h : Sound index s)
include h

theorem Sound.extendTable (hext : Extends s.table t) (hfits : t.availDescr ≤ t.edSize)
    (hsmall : t.edSize ≤ maxEnv) : Sound index { s with table := t } where
  fits := hfits
  small := hsmall
  kept d hd := (h.kept d hd).extend hext
  calls thread c hc := ⟨(h.calls thread c hc).1,(h.calls thread c hc).2.trans hext.sizes⟩

theorem Sound.setWaiting (thread : Nat) (call : Option Call)
    (hcall : ∀ c, call = some c → plan c.bm c.len = .extend c.nbits ∧ c.edSize ≤ s.table.edSize) :
    Sound index { s with waiting := update s.waiting thread call } where
  fits := h.fits
  small := h.small
  kept := h.kept
  calls thread' c hc := by
    dsimp only at hc
    rcases eq_or_ne thread' thread with rfl | hne
    · rw [update_self] at hc
      exact hcall c hc
    · rw [update_of_ne hne] at hc
      exact h.calls thread' c hc

theorem Sound.issue (hd : Kept index s.table d) :
    Sound index { s with issued := d :: s.issued } where
  fits := h.fits
  small := h.small
  kept d' hd' := by
    rcases mem_cons.mp hd' with rfl | hd'
    · exact hd
    · exact h.kept d' hd'
  calls := h.calls

theorem addExtDescriptor_sound (hplan : plan c.bm c.len = .extend c.nbits) :
    Sound index (addExtDescriptor index s thread c) := by
  unfold addExtDescriptor
  split
  · exact h.setWaiting thread _ fun c' hc' => by cases hc'; exact ⟨hplan,le_refl _⟩
  · rename_i hroom
    have htable := h.extendTable (storeWords_extends c.bm c.nbits s.table)
      (by simp only [storeWords]; omega) h.small
    have hwait := htable.setWaiting thread none fun c' hc' => by cases hc'
    exact hwait.issue (.inr ⟨c.nbits,hplan,.inr ⟨rfl,_,rfl,storeWords_stored c.bm c.nbits s.table⟩⟩)

theorem approximate_sound (hplan : plan c.bm c.len = .extend c.nbits) :
    Sound index (approximate s thread c) := by
  have hwait := h.setWaiting thread none fun c' hc' => by cases hc'
  exact hwait.issue (.inr ⟨c.nbits,hplan,.inl ⟨rfl,rfl⟩⟩)

theorem installTable_sound (newExtD : Nat → ExtDescr) {edSize : Nat}
    (hlimit : ¬ (edSize ≠ 0 ∧ maxEnv < newSize edSize)) :
    Sound index { s with table := installTable edSize newExtD s.table } := by
  have hsmall : newSize edSize ≤ maxEnv := by
    by_cases hzero : edSize = 0
    · subst hzero
      decide
    · exact Nat.not_lt.mp fun hlt => hlimit ⟨hzero,hlt⟩
  refine h.extendTable (installTable_extends edSize newExtD s.table) ?_ ?_
  · unfold installTable
    split
    · rename_i heq
      have := h.fits
      have := le_newSize edSize
      dsimp only
      omega
    · exact h.fits
  · unfold installTable
    split
    · exact hsmall
    · exact h.small

theorem step_sound (e : Event) : Sound index (step index s e) := by
  cases e with
  | call thread bm len =>
    rw [step]
    split
    · exact h
    · split
      · rename_i d hplan
        exact h.issue (.inl ⟨hplan,rfl⟩)
      · rename_i nbits hplan
        exact addExtDescriptor_sound h hplan
  | resume thread newExtD =>
    rw [step]
    split
    · exact h
    · rename_i c hc
      have hplan := (h.calls thread c hc).1
      split
      · exact approximate_sound h hplan
      · rename_i hlimit
        cases newExtD with
        | none => exact approximate_sound h hplan
        | some newExtD => exact addExtDescriptor_sound (installTable_sound h newExtD hlimit) hplan

end

theorem run_append (events : List Event) (e : Event) : run index (events ++ [e]) = step index (run index events) e := by
  simp [run]

theorem run_sound (events : List Event) : Sound index (run index events) := by
  induction events using List.reverseRecOn with
  | nil => exact initial_sound
  | append_singleton events e ih =>
    rw [run_append]
    exact step_sound ih e

theorem addExtDescriptor_extends : Extends s.table (addExtDescriptor index s thread c).table := by
  unfold addExtDescriptor
  split
  · exact Extends.refl _
  · exact storeWords_extends _ _ _

theorem step_extends (e : Event) : Extends s.table (step index s e).table := by
  cases e with
  | call thread bm len =>
    rw [step]
    split
    · exact Extends.refl _
    · split
      · exact Extends.refl _
      · exact addExtDescriptor_extends
  | resume thread newExtD =>
    rw [step]
    split
    · exact Extends.refl _
    · rename_i c _
      split
      · exact Extends.refl _
      · cases newExtD with
        | none => exact Extends.refl _
        | some newExtD =>
          refine (installTable_extends c.edSize newExtD s.table).trans ?_
          exact @addExtDescriptor_extends index thread { s with table := installTable c.edSize newExtD s.table } c

theorem mem_addExtDescriptor_issued (hd : d ∈ (addExtDescriptor index s thread c).issued) :
    d ∈ s.issued ∨ d.exhausted = false := by
  unfold addExtDescriptor at hd
  split at hd
  · exact .inl hd
  · rcases mem_cons.mp hd with rfl | hd
    · exact .inr rfl
    · exact .inl hd

theorem mem_step_issued (h : Sound index s) {e : Event} (hd : d ∈ (step index s e).issued) :
    d ∈ s.issued ∨ d.exhausted = false ∨ (∃ thread, e = .resume thread none) ∨ maxEnv < 2 * s.table.edSize := by
  cases e with
  | call thread bm len =>
    rw [step] at hd
    split at hd
    · exact .inl hd
    · split at hd
      · rcases mem_cons.mp hd with rfl | hd
        · exact .inr (.inl rfl)
        · exact .inl hd
      · exact (mem_addExtDescriptor_issued hd).imp id .inl
  | resume thread newExtD =>
    rw [step] at hd
    split at hd
    · exact .inl hd
    · rename_i c hc
      split at hd
      · rename_i hlimit
        have hle := (h.calls thread c hc).2
        have hgrow := hlimit.2
        rw [newSize,if_neg hlimit.1] at hgrow
        exact .inr (.inr (.inr (by omega)))
      · cases newExtD with
        | none => exact .inr (.inr (.inl ⟨thread,rfl⟩))
        | some newExtD => exact (mem_addExtDescriptor_issued hd).imp id .inl

theorem run_exhausted (events : List Event) (hd : d ∈ (run index events).issued) (hexh : d.exhausted = true) :
    (∃ thread, .resume thread none ∈ events) ∨ maxEnv < 2 * (run index events).table.edSize := by
  induction events using List.reverseRecOn with
  | nil => cases hd
  | append_singleton events e ih =>
    rw [run_append] at hd ⊢
    have hsizes := (@step_extends index (run index events) e).sizes
    rcases mem_step_issued (run_sound events) hd with hd | hok | ⟨thread,rfl⟩ | hlimit
    · rcases ih hd with ⟨thread,hmem⟩ | hlimit
      · exact .inl ⟨thread,mem_append_left _ hmem⟩
      · exact .inr (by omega)
    · rw [hok] at hexh
      cases hexh
    · exact .inl ⟨thread,by simp⟩
    · exact .inr (by omega)

end Runs

section Returning

variable {index thread : Nat} {s : State} {c c' : Call}

theorem addExtDescriptor_waiting (h : (addExtDescriptor index s thread c).waiting thread = some c') :
    c'.nbits = c.nbits ∧ c'.edSize = s.table.edSize ∧ (addExtDescriptor index s thread c).table = s.table ∧
      s.table.edSize ≤ s.table.availDescr + nwords c.nbits := by
  unfold addExtDescriptor at h ⊢
  split at h
  · rename_i hfull
    dsimp only at h
    rw [update_self] at h
    cases h
    rw [if_pos hfull]
    exact ⟨rfl,rfl,rfl,hfull⟩
  · dsimp only at h
    rw [update_self] at h
    cases h

/-- If a thread has to wait again, it waits for a table larger than the one there is now, and it
has replaced the one there was if no other thread did. -/
theorem resume_waiting {newExtD : Option (Nat → ExtDescr)} (hc : s.waiting thread = some c)
    (h : (step index s (.resume thread newExtD)).waiting thread = some c') :
    c'.nbits = c.nbits ∧ c'.edSize = (step index s (.resume thread newExtD)).table.edSize ∧
      (step index s (.resume thread newExtD)).table.availDescr = s.table.availDescr ∧
      c'.edSize ≤ s.table.availDescr + nwords c.nbits ∧ (c.edSize = s.table.edSize → s.table.edSize < c'.edSize) := by
  simp only [step,hc] at h ⊢
  split at h
  · simp [approximate] at h
  · rename_i hlimit
    rw [if_neg hlimit]
    cases newExtD with
    | none => simp [approximate] at h
    | some newExtD =>
      obtain ⟨hnbits,hsize,htable,hfull⟩ := addExtDescriptor_waiting h
      dsimp only at hsize htable hfull ⊢
      rw [htable,hsize]
      have havail : (installTable c.edSize newExtD s.table).availDescr = s.table.availDescr := by
        unfold installTable
        split <;> rfl
      refine ⟨hnbits,rfl,havail,by omega,fun heq => ?_⟩
      rw [installTable,if_pos heq,heq]
      dsimp only
      unfold newSize edInitialSize
      split <;> omega

theorem resumed_returns_of_current (left : Nat) (s : State) (c : Call)
    (answers : Nat → Option (Nat → ExtDescr)) (hc : s.waiting thread = some c) (hsize : c.edSize = s.table.edSize)
    (hleft : s.table.availDescr + nwords c.nbits < s.table.edSize + left) :
    ∃ n, (resumed index thread answers n s).waiting thread = none := by
  induction left generalizing s c answers with
  | zero =>
    cases h : (step index s (.resume thread (answers 0))).waiting thread with
    | none => exact ⟨1,h⟩
    | some c' =>
      obtain ⟨_,_,_,hfull,hlt⟩ := resume_waiting hc h
      have := hlt hsize
      omega
  | succ left ih =>
    cases h : (step index s (.resume thread (answers 0))).waiting thread with
    | none => exact ⟨1,h⟩
    | some c' =>
      obtain ⟨hnbits,hsize',havail,_,hlt⟩ := resume_waiting hc h
      have := hlt hsize
      obtain ⟨n,hn⟩ := ih _ c' (fun i => answers (i + 1)) h hsize' (by rw [havail,hnbits]; omega)
      exact ⟨n + 1,hn⟩

theorem resumed_returns (s : State) (answers : Nat → Option (Nat → ExtDescr)) :
    ∃ n, (resumed index thread answers n s).waiting thread = none := by
  cases hc : s.waiting thread with
  | none => exact ⟨0,hc⟩
  | some c =>
    cases h : (step index s (.resume thread (answers 0))).waiting thread with
    | none => exact ⟨1,h⟩
    | some c' =>
      obtain ⟨_,hsize,_⟩ := resume_waiting hc h
      obtain ⟨n,hn⟩ := @resumed_returns_of_current index thread _ _ c' (fun i => answers (i + 1)) h hsize
        (Nat.lt_add_left _ (Nat.lt_succ_self _))
      exact ⟨n + 1,hn⟩

end Returning

section Descriptors

variable {index p : Nat} {t : ExtTable} {d : Issued} {M : Marker}

theorem Kept.exact (h : Kept index t d) (hok : d.exhausted = false) (hindex : index < 64)
    (hsize : t.availDescr ≤ maxEnv) (hproc : M.markProcs index = typedMarkProc index t) (hp : 8 ∣ p)
    (hlen : 8 * d.len < 2 ^ 64) (a : Nat) :
    M.Examined ⟨p, d.descr⟩ a ↔ ∃ i < d.len, getBit d.bm i = true ∧ a = p + 8 * i := by
  obtain ⟨hready,_⟩ | ⟨nbits,hplan,⟨hexh,_⟩ | ⟨_,idx,hd,hstored⟩⟩ := h
  · exact plan_ready hready hp hlen
  · rw [hok] at hexh
    cases hexh
  · obtain ⟨_,hlong,hbits⟩ := plan_extend hplan
    rw [hd,examined_stored hindex hsize hproc hstored (by omega)]
    constructor
    · rintro ⟨i,hi,hbit,ha⟩
      exact ⟨i,((hbits i).mpr ⟨hi,hbit⟩).1,hbit,ha⟩
    · rintro ⟨i,hi,hbit,ha⟩
      exact ⟨i,((hbits i).mp ⟨hi,hbit⟩).1,hbit,ha⟩

/-- The length that stands in for a bitmap covers its bits. -/
theorem Kept.covers (h : Kept index t d) (hexh : d.exhausted = true) (hp : 8 ∣ p) (hlen : 8 * d.len < 2 ^ 64)
    {i : Nat} (hi : i < d.len) (hbit : getBit d.bm i = true) : M.Examined ⟨p, d.descr⟩ (p + 8 * i) := by
  obtain ⟨_,hok⟩ | ⟨nbits,hplan,⟨_,hd⟩ | ⟨hok,_⟩⟩ := h
  · rw [hexh] at hok
    cases hok
  · obtain ⟨hle,_,hbits⟩ := plan_extend hplan
    have hin := ((hbits i).mp ⟨hi,hbit⟩).1
    rw [hd,ptrsToBytes,Nat.mod_eq_of_lt (by omega),examined_length hp (by simp)]
    exact ⟨i,by omega,rfl⟩
  · rw [hexh] at hok
    cases hok

end Descriptors

/-- However the threads take turns, every descriptor returned so far means in the present table the
bits it was made from, also after later ones and larger tables; one made when there was no memory,
or no room in a table of 2 ^ 55 entries, means at least them. Every call returns. -/
theorem run_meaning (index : Nat) (hindex : index < 64) (events : List Event) :
    (∀ d ∈ (run index events).issued, ∀ M : Marker,
      M.markProcs index = typedMarkProc index (run index events).table →
      ∀ p, 8 ∣ p → 0 < p → p + 8 * d.len ≤ 2 ^ 64 →
        (∀ i < d.len, getBit d.bm i = true → M.Examined ⟨p, d.descr⟩ (p + 8 * i)) ∧
        (d.exhausted = false →
          ∀ a, M.Examined ⟨p, d.descr⟩ a ↔ ∃ i < d.len, getBit d.bm i = true ∧ a = p + 8 * i) ∧
        (d.exhausted = true →
          (∃ thread, .resume thread none ∈ events) ∨ maxEnv < 2 * (run index events).table.edSize)) ∧
    ∀ thread answers, ∃ n, (resumed index thread answers n (run index events)).waiting thread = none := by
  refine ⟨fun d hd M hproc p hp hpos hobj => ?_,fun thread answers => resumed_returns _ _⟩
  have hsound := @run_sound index events
  have hkept := hsound.kept d hd
  have havail : (run index events).table.availDescr ≤ maxEnv := hsound.fits.trans hsound.small
  have hlen : 8 * d.len < 2 ^ 64 := by omega
  refine ⟨fun i hi hbit => ?_,fun hok => hkept.exact hok hindex havail hproc hp hlen,run_exhausted events hd⟩
  cases hexh : d.exhausted with
  | true => exact hkept.covers hexh hp hlen hi hbit
  | false => exact (hkept.exact hexh hindex havail hproc hp hlen _).mpr ⟨i,hi,hbit,rfl⟩

def twoBits (i : Nat) : BitVec 64 := if i = 0 then 1#64 else 1#64 <<< 36

def twoCalls : List Event := [.call 0 twoBits 101, .resume 0 (some fun _ => ⟨0, false⟩), .call 1 twoBits 101]

def twoCallsMarker : Marker :=
  ⟨false, ⟨fun _ => 0, fun _ _ => true⟩, fun _ => 0, fun _ => typedMarkProc 3 (run 3 twoCalls).table⟩

/-- The first descriptor still means its two bits. -/
theorem run_meaning_twoCalls :
    ⟨twoBits, 101, makeProc 3 0, false⟩ ∈ (run 3 twoCalls).issued ∧
      ∀ a, twoCallsMarker.Examined ⟨4096, makeProc 3 0⟩ a ↔ ∃ i < 101, getBit twoBits i = true ∧ a = 4096 + 8 * i := by
  have hmem : ⟨twoBits,101,makeProc 3 0,false⟩ ∈ (run 3 twoCalls).issued := List.Mem.tail _ (List.Mem.head _)
  have hmeaning := (run_meaning 3 (by decide) twoCalls).1 _ hmem twoCallsMarker rfl 4096 (by decide) (by decide)
    (by decide)
  exact ⟨hmem,hmeaning.2.1 rfl⟩

end GcUtil.Typed.ExtDescriptors
