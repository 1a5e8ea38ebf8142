import GcUtil.Basic

/-! How `GC_mark_from` works through a range of memory: the slots one turn of its loop reads
and the entries it leaves for later turns. A range starts at `mse_start` and has `mse_descr`
bytes; in the compressed build the start of one with 4-byte slots has bit 1 set. -/
namespace GcUtil.Mark.Ranges
open List

structure Mse where
  mseStart : Nat
  mseDescr : Nat
deriving DecidableEq, Repr

/-- `sizeof(ptr_t)`, `ALIGNMENT` and whether `ESCARGOT_USE_32BIT_IN_64BIT` is defined. -/
structure Build where
  ptrBytes : Nat
  alignment : Nat
  compressed : Bool
  ptrBytes_eq : ptrBytes = 4 ∨ ptrBytes = 8
  alignment_pos : 0 < alignment
  alignment_dvd : alignment ∣ ptrBytes

def wordBuild (compressed : Bool) : Build := ⟨8, 8, compressed, by decide, by decide, by decide⟩

def splitRangePtrs : Nat := 128

def shareBytes : Nat := 2048

section Model

variable (B : Build)

def Build.ptrsToBytes (n : Nat) : Nat := n * B.ptrBytes

/-- What a turn of the loop does with an entry: the slots it reads, the slots whose words it
hands to `PUSH_CONTENTS`, the entries it leaves in its place, the top first, and what it
takes off the credit. -/
structure Turn where
  read : List Nat
  pushed : List Nat
  rest : List Mse
  bytes : Nat

structure Tail where
  skipped : List Nat
  deferred : Option Nat

def Build.slots (p n : Nat) : List Nat := (List.range n).map fun i => p + B.alignment * i

/-- The loop that goes down from `limit` to the last plausible pointer at or above `p`. -/
def trimTail (plausibleSlot : Nat → Bool) (p limit : Nat) : Tail :=
  if plausibleSlot limit then ⟨[], some limit⟩
  else if limit < p + B.alignment then ⟨[limit], none⟩
  else
    let tail := trimTail plausibleSlot p (limit - B.alignment)
    { tail with skipped := limit :: tail.skipped }
termination_by limit
decreasing_by
  have := B.alignment_pos
  omega

/-- The slots read and those pushed from `p` up to `limit`: the tail is trimmed, the slots
below the deferred pointer follow from `p` on, and the deferred pointer is pushed last. -/
def scanRange (plausibleSlot : Nat → Bool) (p limit : Nat) : List Nat × List Nat :=
  let tail := trimTail B plausibleSlot p limit
  match tail.deferred with
  | none => (tail.skipped, [])
  | some d =>
      let forward := B.slots p ((d - p) / B.alignment)
      (tail.skipped ++ d :: forward, forward ++ [d])

/-- A turn on a range that starts at `p`. Parallel markers share a long one while there is
room on the stack, and `room` is 0 where they do not run. -/
def lengthTurn (plausibleSlot : Nat → Bool) : (room p descr : Nat) → Turn
  | room, p, descr =>
      if B.ptrsToBytes splitRangePtrs ≤ descr then
        match room with
        | room + 1 =>
            if shareBytes < descr then
              let newSize := descr / 2 / B.ptrBytes * B.ptrBytes
              let turn := lengthTurn plausibleSlot room (p + newSize) (descr - newSize)
              { turn with rest := turn.rest ++ [⟨p, newSize + B.ptrBytes⟩] }
            else chunk p descr
        | 0 => chunk p descr
      else if descr < B.ptrBytes then ⟨[], [], [], 0⟩
      else
        let scan := scanRange B plausibleSlot p (p + descr - B.ptrBytes)
        ⟨scan.1, scan.2, [], descr⟩
where
  chunk (p descr : Nat) : Turn :=
    let done := B.ptrsToBytes (splitRangePtrs - 1)
    let limit := p + done + (B.ptrBytes - B.alignment)
    let scan := scanRange B plausibleSlot p (limit - B.ptrBytes)
    ⟨scan.1, scan.2, [⟨p + done, descr - done⟩], limit - p⟩

def push32bitRange (start bytes : Nat) : Option Mse :=
  if bytes = 0 then none else some ⟨start ||| 2, bytes⟩

/-- A turn on a range of 4-byte slots; `candidate` stands for the tests on a slot's word. -/
def compressedTurn (candidate : Nat → Bool) (start descr : Nat) : Turn :=
  let payload := start - 2
  let bytes := min descr (B.ptrsToBytes splitRangePtrs)
  let slots := (List.range ((bytes + 3) / 4)).map fun i => payload + 4 * i
  { read := slots
    pushed := slots.filter candidate
    rest := if B.ptrsToBytes splitRangePtrs < descr then [⟨payload + bytes ||| 2, descr - bytes⟩] else []
    bytes := bytes }

/-- What a turn depends on besides its entry: the room for shares on the stack, and which
slots hold a plausible pointer at the time. -/
structure Surroundings where
  room : Mse → Nat
  plausibleSlot : Mse → Nat → Bool

def rangeTurn (around : Surroundings) (e : Mse) : Turn :=
  if B.compressed && e.mseStart.testBit 1 then compressedTurn B (around.plausibleSlot e) e.mseStart e.mseDescr
  else lengthTurn B (around.plausibleSlot e) (around.room e) e.mseStart e.mseDescr

/-- The slots read in the turn on an entry and in those on what it leaves. -/
inductive Examined (around : Surroundings) : Mse → Nat → Prop where
  | now {e a} : a ∈ (rangeTurn B around e).read → Examined around e a
  | later {e e' a} : e' ∈ (rangeTurn B around e).rest → Examined around e' a → Examined around e a

end Model

section Tail

variable {B : Build} {plausibleSlot : Nat → Bool} {p limit d a n : Nat}

theorem Build.mem_slots : a ∈ B.slots p n ↔ ∃ i < n, a = p + B.alignment * i := by
  simp [Build.slots,eq_comm]

theorem Build.slots_succ : B.slots p (n + 1) = B.slots p n ++ [p + B.alignment * n] := by
  simp [Build.slots,range_succ]

theorem Build.slots_add (p m n : Nat) :
    B.slots p (m + n) = B.slots p m ++ B.slots (p + B.alignment * m) n := by
  simp [Build.slots,range_add,Nat.mul_add,Nat.add_assoc]

theorem trimTail_deferred (hp : p ≤ limit) (hd : (trimTail B plausibleSlot p limit).deferred = some d) :
    p ≤ d ∧ d ≤ limit ∧ B.alignment ∣ limit - d ∧ plausibleSlot d = true := by
  induction limit using Nat.strong_induction_on with
  | _ limit ih =>
    have hpos := B.alignment_pos
    rw [trimTail] at hd
    split at hd
    · rename_i hlikely
      cases hd
      exact ⟨hp,le_refl _,by simp,hlikely⟩
    · split at hd
      · cases hd
      · obtain ⟨hle,hled,hdvd,hlikely⟩ := ih (limit - B.alignment) (by omega) (by omega) hd
        refine ⟨hle,by omega,?_,hlikely⟩
        rw [show limit - d = limit - B.alignment - d + B.alignment by omega]
        exact Nat.dvd_add_self_right.mpr hdvd

theorem mem_trimTail_skipped (hp : p ≤ limit) : a ∈ (trimTail B plausibleSlot p limit).skipped ↔
    p ≤ a ∧ a ≤ limit ∧ B.alignment ∣ limit - a ∧
      ∀ d, (trimTail B plausibleSlot p limit).deferred = some d → d < a := by
  induction limit using Nat.strong_induction_on with
  | _ limit ih =>
    have hpos := B.alignment_pos
    rw [trimTail]
    split
    · simp only [not_mem_nil,Option.some.injEq,forall_eq',false_iff]
      omega
    · split
      · simp only [mem_singleton,reduceCtorEq,false_implies,implies_true,and_true]
        constructor
        · rintro rfl
          exact ⟨hp,le_refl _,by simp⟩
        · rintro ⟨hpa,hal,hdvd⟩
          have := Nat.eq_zero_of_dvd_of_lt hdvd (by omega)
          omega
      · have hrec := ih (limit - B.alignment) (by omega) (by omega)
        have hbelow : ∀ d, (trimTail B plausibleSlot p (limit - B.alignment)).deferred = some d → d < limit := by
          intro d hd
          have := trimTail_deferred (show p ≤ limit - B.alignment by omega) hd
          omega
        dsimp only
        rw [mem_cons,hrec]
        constructor
        · rintro (rfl | ⟨hpa,hal,hdvd,hlt⟩)
          · exact ⟨hp,le_refl _,by simp,hbelow⟩
          · refine ⟨hpa,by omega,?_,hlt⟩
            rw [show limit - a = limit - B.alignment - a + B.alignment by omega]
            exact Nat.dvd_add_self_right.mpr hdvd
        · rintro ⟨hpa,hal,hdvd,hlt⟩
          by_cases ha : a = limit
          · exact .inl ha
          · right
            have hstep := Nat.le_of_dvd (by omega) hdvd
            refine ⟨hpa,by omega,?_,hlt⟩
            rw [show limit - a = limit - B.alignment - a + B.alignment by omega] at hdvd
            exact Nat.dvd_add_self_right.mp hdvd

theorem plausibleSlot_of_mem_skipped (ha : a ∈ (trimTail B plausibleSlot p limit).skipped) : plausibleSlot a = false := by
  induction limit using Nat.strong_induction_on with
  | _ limit ih =>
    have hpos := B.alignment_pos
    rw [trimTail] at ha
    split at ha
    · cases ha
    · rename_i hno
      split at ha
      · rw [mem_singleton.mp ha]
        simpa using hno
      · rcases mem_cons.mp ha with rfl | ha
        · simpa using hno
        · exact ih (limit - B.alignment) (by omega) ha

end Tail

section Scan

variable {B : Build} {plausibleSlot : Nat → Bool} {p limit a i : Nat}

theorem scanRange_within (hp : p ≤ limit) (ha : a ∈ (scanRange B plausibleSlot p limit).1) :
    p ≤ a ∧ a ≤ limit := by
  unfold scanRange at ha
  dsimp only at ha
  split at ha
  · have hmem := (mem_trimTail_skipped hp).mp ha
    exact ⟨hmem.1,hmem.2.1⟩
  · rename_i d hd
    have hdef := trimTail_deferred hp hd
    rcases mem_append.mp ha with ha | ha
    · have hmem := (mem_trimTail_skipped hp).mp ha
      exact ⟨hmem.1,hmem.2.1⟩
    · rcases mem_cons.mp ha with rfl | ha
      · exact ⟨hdef.1,hdef.2.1⟩
      · obtain ⟨i,hi,rfl⟩ := Build.mem_slots.mp ha
        have hle := (Nat.le_div_iff_mul_le B.alignment_pos).mp hi
        rw [Nat.succ_mul,Nat.mul_comm] at hle
        omega

theorem scanRange_complete (hdvd : B.alignment ∣ limit - p) (hi : p + B.alignment * i ≤ limit) :
    p + B.alignment * i ∈ (scanRange B plausibleSlot p limit).1 := by
  have hline : B.alignment ∣ limit - (p + B.alignment * i) := by
    rw [Nat.sub_add_eq]
    exact Nat.dvd_sub hdvd (Nat.dvd_mul_right _ _)
  have hskip : p + B.alignment * i ∈ (trimTail B plausibleSlot p limit).skipped ↔ _ :=
    mem_trimTail_skipped (show p ≤ limit by omega)
  unfold scanRange
  dsimp only
  split
  · rename_i hnone
    exact hskip.mpr ⟨by omega,hi,hline,fun d hd => by simp [hnone] at hd⟩
  · rename_i d hd
    obtain ⟨hle,hled,hdvd',_⟩ := trimTail_deferred (show p ≤ limit by omega) hd
    rcases Nat.lt_trichotomy (p + B.alignment * i) d with hlt | heq | hgt
    · refine mem_append_right _ (mem_cons_of_mem _ (Build.mem_slots.mpr ⟨i,?_,rfl⟩))
      have hgap : B.alignment ∣ d - (p + B.alignment * i) := by
        rw [show d - (p + B.alignment * i) = limit - (p + B.alignment * i) - (limit - d) by omega]
        exact Nat.dvd_sub hline hdvd'
      have hstep := Nat.le_of_dvd (by omega) hgap
      rw [Nat.lt_iff_add_one_le,Nat.le_div_iff_mul_le B.alignment_pos,Nat.add_mul,Nat.mul_comm i]
      omega
    · rw [heq]
      simp
    · refine mem_append_left _ (hskip.mpr ⟨by omega,hi,hline,fun d' hd' => ?_⟩)
      rw [hd] at hd'
      cases hd'
      exact hgt

theorem scanRange_inLine (hp : p ≤ limit) (hdvd : B.alignment ∣ limit - p)
    (ha : a ∈ (scanRange B plausibleSlot p limit).1) : B.alignment ∣ a - p := by
  have hback : ∀ c, p ≤ c → c ≤ limit → B.alignment ∣ limit - c → B.alignment ∣ c - p := by
    intro c hpc hcl hc
    rw [show c - p = limit - p - (limit - c) by omega]
    exact Nat.dvd_sub hdvd hc
  unfold scanRange at ha
  dsimp only at ha
  split at ha
  · have hmem := (mem_trimTail_skipped hp).mp ha
    exact hback a hmem.1 hmem.2.1 hmem.2.2.1
  · rename_i d hd
    obtain ⟨hle,hled,hdvd',_⟩ := trimTail_deferred hp hd
    rcases mem_append.mp ha with ha | ha
    · have hmem := (mem_trimTail_skipped hp).mp ha
      exact hback a hmem.1 hmem.2.1 hmem.2.2.1
    · rcases mem_cons.mp ha with rfl | ha
      · exact hback a hle hled hdvd'
      · obtain ⟨i,hi,rfl⟩ := Build.mem_slots.mp ha
        simp

theorem scanRange_misses (hp : p ≤ limit) (hdvd : ¬ B.alignment ∣ limit - p)
    (hi : limit < p + B.alignment * i + B.alignment) :
    p + B.alignment * i ∉ (scanRange B plausibleSlot p limit).1 := by
  have hout : ∀ c, p ≤ c → c ≤ limit → B.alignment ∣ limit - c → p + B.alignment * i ≠ c := by
    rintro c hpc hcl hc rfl
    apply hdvd
    rw [show limit - p = limit - (p + B.alignment * i) + B.alignment * i by omega]
    exact (Nat.dvd_add_iff_left (Nat.dvd_mul_right _ _)).mp hc
  intro ha
  unfold scanRange at ha
  dsimp only at ha
  split at ha
  · have hmem := (mem_trimTail_skipped hp).mp ha
    exact hout _ hmem.1 hmem.2.1 hmem.2.2.1 rfl
  · rename_i d hd
    obtain ⟨hle,hled,hdvd',_⟩ := trimTail_deferred hp hd
    rcases mem_append.mp ha with ha | ha
    · have hmem := (mem_trimTail_skipped hp).mp ha
      exact hout _ hmem.1 hmem.2.1 hmem.2.2.1 rfl
    · rcases mem_cons.mp ha with heq | ha
      · exact hout d hle hled hdvd' heq
      · obtain ⟨k,hk,heq⟩ := Build.mem_slots.mp ha
        have hbound := (Nat.le_div_iff_mul_le B.alignment_pos).mp hk
        rw [Nat.succ_mul,Nat.mul_comm] at hbound
        omega

/-- The words passed over without being pushed are not plausible, so that the range is
pushed as if it was scanned from its start. -/
theorem scanRange_pushed (B : Build) (plausibleSlot : Nat → Bool) (hdvd : B.alignment ∣ limit - p) (hp : p ≤ limit) :
    ∃ skipped, B.slots p ((limit - p) / B.alignment + 1) = (scanRange B plausibleSlot p limit).2 ++ skipped ∧
      ∀ a ∈ skipped, plausibleSlot a = false := by
  have hpos := B.alignment_pos
  have hin : ∀ a ∈ B.slots p ((limit - p) / B.alignment + 1), p ≤ a ∧ a ≤ limit ∧ B.alignment ∣ limit - a := by
    intro a ha
    obtain ⟨i,hi,rfl⟩ := Build.mem_slots.mp ha
    have hle := (Nat.le_div_iff_mul_le hpos).mp (Nat.lt_succ_iff.mp hi)
    rw [Nat.mul_comm] at hle
    refine ⟨by omega,by omega,?_⟩
    rw [Nat.sub_add_eq]
    exact Nat.dvd_sub hdvd (Nat.dvd_mul_right _ _)
  unfold scanRange
  dsimp only
  split
  · rename_i hnone
    refine ⟨_,rfl,fun a ha => ?_⟩
    obtain ⟨hpa,hal,hline⟩ := hin a ha
    exact plausibleSlot_of_mem_skipped ((mem_trimTail_skipped hp).mpr ⟨hpa,hal,hline,by simp [hnone]⟩)
  · rename_i d hd
    obtain ⟨hle,hled,hdvd',_⟩ := trimTail_deferred hp hd
    obtain ⟨k,hk⟩ : B.alignment ∣ d - p := by
      rw [show d - p = limit - p - (limit - d) by omega]
      exact Nat.dvd_sub hdvd hdvd'
    obtain ⟨m,hm⟩ := hdvd'
    have hcount : (limit - p) / B.alignment + 1 = k + 1 + m := by
      rw [show limit - p = B.alignment * (k + m) by rw [Nat.mul_add]; omega,Nat.mul_div_cancel_left _ hpos]
      omega
    have hend : d = p + B.alignment * k := by omega
    rw [hcount] at hin ⊢
    rw [Build.slots_add,Build.slots_succ,← hend,hk,Nat.mul_div_cancel_left _ hpos]
    refine ⟨_,rfl,fun a ha => ?_⟩
    rw [Build.slots_add] at hin
    obtain ⟨hpa,hal,hline⟩ := hin a (mem_append_right _ ha)
    refine plausibleSlot_of_mem_skipped ((mem_trimTail_skipped hp).mpr ⟨hpa,hal,hline,fun d' hd' => ?_⟩)
    rw [hd] at hd'
    cases hd'
    obtain ⟨i,_,rfl⟩ := Build.mem_slots.mp ha
    rw [Nat.mul_add,Nat.mul_one]
    omega

end Scan

section Turns

variable (B : Build)

def Build.Holds (e : Mse) (a : Nat) : Prop :=
  e.mseStart ≤ a ∧ a + B.ptrBytes ≤ e.mseStart + e.mseDescr

def Build.AlignedSlot (e : Mse) (a : Nat) : Prop := B.Holds e a ∧ B.alignment ∣ a - e.mseStart

def Build.LastSlot (e : Mse) (a : Nat) : Prop :=
  B.AlignedSlot e a ∧ e.mseStart + e.mseDescr < a + B.ptrBytes + B.alignment

/-- What a turn on a range comes to: it reads in the range and leaves shorter parts of it, and
an aligned slot is read or left to a part, but for the last one if the length is not a
multiple of `ALIGNMENT`. -/
structure TurnOk (e : Mse) (t : Turn) : Prop where
  reads : ∀ a ∈ t.read, B.Holds e a
  parts : ∀ e' ∈ t.rest, e.mseStart ≤ e'.mseStart ∧
    e'.mseStart + e'.mseDescr ≤ e.mseStart + e.mseDescr ∧ e'.mseDescr < e.mseDescr
  starts : ∀ e' ∈ t.rest, 4 ∣ e'.mseStart - e.mseStart
  complete : B.alignment ∣ e.mseDescr → ∀ a, B.AlignedSlot e a →
    a ∈ t.read ∨ ∃ e' ∈ t.rest, B.alignment ∣ e'.mseDescr ∧ B.AlignedSlot e' a
  misses : ¬ B.alignment ∣ e.mseDescr → ∀ a, B.LastSlot e a →
    a ∉ t.read ∧ ∀ e' ∈ t.rest, B.Holds e' a → ¬ B.alignment ∣ e'.mseDescr ∧ B.LastSlot e' a

variable {B} {plausibleSlot : Nat → Bool} {room p descr a : Nat}

theorem Build.alignment_le (B : Build) : B.alignment ≤ B.ptrBytes := by
  apply Nat.le_of_dvd _ B.alignment_dvd
  have := B.ptrBytes_eq
  omega

theorem Build.four_dvd_ptrBytes (B : Build) : 4 ∣ B.ptrBytes := by
  rcases B.ptrBytes_eq with h | h <;> simp [h]

theorem Build.dvd_sub_iff {n : Nat} (hn : B.ptrBytes ∣ n) (hpa : p + n ≤ a) :
    B.alignment ∣ a - (p + n) ↔ B.alignment ∣ a - p := by
  have hdvd := B.alignment_dvd.trans hn
  rw [show a - p = a - (p + n) + n by omega]
  exact Nat.dvd_add_iff_left hdvd

theorem Build.dvd_descr_sub_iff {n : Nat} (hn : B.ptrBytes ∣ n) (hle : n ≤ descr) :
    B.alignment ∣ descr - n ↔ B.alignment ∣ descr := by
  have hdvd := B.alignment_dvd.trans hn
  conv_rhs => rw [← Nat.sub_add_cancel hle]
  exact Nat.dvd_add_iff_left hdvd

theorem turnOk_short (h : descr < B.ptrBytes) : TurnOk B ⟨p, descr⟩ ⟨[], [], [], 0⟩ where
  reads _ ha := by cases ha
  parts _ he := by cases he
  starts _ he := by cases he
  complete _ a ha := by
    have := ha.1
    unfold Build.Holds at this
    dsimp only at this
    omega
  misses _ _ _ := ⟨not_mem_nil,nofun⟩

theorem turnOk_small (h : B.ptrBytes ≤ descr) {pushed : List Nat} {bytes : Nat} :
    TurnOk B ⟨p, descr⟩ ⟨(scanRange B plausibleSlot p (p + descr - B.ptrBytes)).1, pushed, [], bytes⟩ where
  reads a ha := by
    have := scanRange_within (by omega) ha
    unfold Build.Holds
    dsimp only
    omega
  parts _ he := by cases he
  starts _ he := by cases he
  complete hdvd a ha := by
    obtain ⟨⟨hpa,hap⟩,i,hi⟩ := ha
    dsimp only at hpa hap hi hdvd
    left
    rw [show a = p + B.alignment * i by omega]
    apply scanRange_complete
    · rw [show p + descr - B.ptrBytes - p = descr - B.ptrBytes by omega]
      exact (B.dvd_descr_sub_iff (dvd_refl _) h).mpr hdvd
    · omega
  misses hdvd a ha := by
    obtain ⟨⟨⟨hpa,hap⟩,i,hi⟩,hlast⟩ := ha
    dsimp only at hpa hap hi hdvd hlast
    refine ⟨?_,nofun⟩
    rw [show a = p + B.alignment * i by omega]
    apply scanRange_misses (by omega)
    · rw [show p + descr - B.ptrBytes - p = descr - B.ptrBytes by omega]
      exact (B.dvd_descr_sub_iff (dvd_refl _) h).not.mpr hdvd
    · omega

theorem turnOk_chunk (h : B.ptrsToBytes splitRangePtrs ≤ descr) :
    TurnOk B ⟨p, descr⟩ (lengthTurn.chunk B plausibleSlot p descr) := by
  have hle := B.alignment_le
  have hpos := B.alignment_pos
  set done := B.ptrsToBytes (splitRangePtrs - 1) with hdone
  have hptr : B.ptrBytes ∣ done := Dvd.intro_left _ rfl
  have hsum : done + B.ptrBytes ≤ descr := by
    unfold Build.ptrsToBytes splitRangePtrs at *
    omega
  have hmany : B.alignment ≤ done := by
    unfold Build.ptrsToBytes splitRangePtrs at hdone
    omega
  have hlimit : p + done + (B.ptrBytes - B.alignment) - B.ptrBytes = p + done - B.alignment := by omega
  constructor
  case reads =>
    intro a ha
    have := scanRange_within (by omega) ha
    unfold Build.Holds
    dsimp only
    omega
  case parts =>
    intro e' he'
    rw [mem_singleton.mp he']
    dsimp only
    omega
  case starts =>
    intro e' he'
    rw [mem_singleton.mp he']
    dsimp only
    rw [Nat.add_sub_cancel_left]
    exact B.four_dvd_ptrBytes.trans hptr
  case complete =>
    rintro hdvd a ⟨⟨hpa,hap⟩,i,hi⟩
    dsimp only at hpa hap hi hdvd
    rcases Nat.lt_or_ge a (p + done) with hlt | hge
    · left
      have hgap : B.alignment ∣ p + done - a := by
        rw [show p + done - a = done - B.alignment * i by omega]
        exact Nat.dvd_sub (B.alignment_dvd.trans hptr) (Nat.dvd_mul_right _ _)
      have hstep := Nat.le_of_dvd (by omega) hgap
      rw [show a = p + B.alignment * i by omega]
      apply scanRange_complete
      · rw [hlimit,show p + done - B.alignment - p = done - B.alignment by omega]
        exact Nat.dvd_sub (B.alignment_dvd.trans hptr) (dvd_refl _)
      · omega
    · right
      refine ⟨_,mem_singleton_self _,(B.dvd_descr_sub_iff hptr (by omega)).mpr hdvd,?_⟩
      exact ⟨⟨hge,by dsimp only; omega⟩,(B.dvd_sub_iff hptr hge).mpr ⟨i,hi⟩⟩
  case misses =>
    rintro hdvd a ⟨⟨⟨hpa,hap⟩,hline⟩,hlast⟩
    dsimp only at hpa hap hline hdvd hlast
    have hge : p + done ≤ a := by
      by_contra hlt
      obtain ⟨i,hi⟩ := hline
      have hgap : B.alignment ∣ p + done - a := by
        rw [show p + done - a = done - B.alignment * i by omega]
        exact Nat.dvd_sub (B.alignment_dvd.trans hptr) (Nat.dvd_mul_right _ _)
      have hstep := Nat.le_of_dvd (by omega) hgap
      omega
    constructor
    · intro ha
      have := scanRange_within (by omega) ha
      omega
    · intro e' he' hholds
      rw [mem_singleton.mp he'] at hholds ⊢
      refine ⟨(B.dvd_descr_sub_iff hptr (by omega)).not.mpr hdvd,⟨hholds,(B.dvd_sub_iff hptr hge).mpr hline⟩,?_⟩
      dsimp only
      omega

theorem turnOk_share {n : Nat} {t : Turn} (hn : B.ptrBytes ∣ n) (hhalf : n ≤ descr / 2)
    (hlong : shareBytes < descr) (h : TurnOk B ⟨p + n, descr - n⟩ t) (hpos : 0 < n) :
    TurnOk B ⟨p, descr⟩ { t with rest := t.rest ++ [⟨p, n + B.ptrBytes⟩] } := by
  have hle := B.alignment_le
  have hptr := B.ptrBytes_eq
  unfold shareBytes at hlong
  constructor
  case reads =>
    intro a ha
    have := h.reads a ha
    unfold Build.Holds at *
    dsimp only at *
    omega
  case parts =>
    intro e' he'
    rcases mem_append.mp he' with he' | he'
    · have := h.parts e' he'
      dsimp only at *
      omega
    · rw [mem_singleton.mp he']
      dsimp only
      omega
  case starts =>
    intro e' he'
    rcases mem_append.mp he' with he' | he'
    · have hstart := h.starts e' he'
      have hparts := h.parts e' he'
      dsimp only at *
      rw [show e'.mseStart - p = e'.mseStart - (p + n) + n by omega]
      exact (Nat.dvd_add_iff_left (B.four_dvd_ptrBytes.trans hn)).mp hstart
    · rw [mem_singleton.mp he']
      simp
  case complete =>
    rintro hdvd a ⟨⟨hpa,hap⟩,hline⟩
    dsimp only at hpa hap hline hdvd
    rcases Nat.lt_or_ge a (p + n) with hlt | hge
    · refine .inr ⟨_,mem_append_right _ (mem_singleton_self _),?_,⟨hpa,?_⟩,hline⟩
      · exact Nat.dvd_add (B.alignment_dvd.trans hn) B.alignment_dvd
      · dsimp only
        omega
    · have hpart := h.complete ((B.dvd_descr_sub_iff hn (by omega)).mpr hdvd) a
        ⟨⟨hge,by dsimp only; omega⟩,(B.dvd_sub_iff hn hge).mpr hline⟩
      refine hpart.imp_right ?_
      rintro ⟨e',he',hrest⟩
      exact ⟨e',mem_append_left _ he',hrest⟩
  case misses =>
    rintro hdvd a ⟨⟨⟨hpa,hap⟩,hline⟩,hlast⟩
    dsimp only at hpa hap hline hdvd hlast
    have hge : p + n ≤ a := by omega
    obtain ⟨hread,hrest⟩ := h.misses ((B.dvd_descr_sub_iff hn (by omega)).not.mpr hdvd) a
      ⟨⟨⟨hge,by dsimp only; omega⟩,(B.dvd_sub_iff hn hge).mpr hline⟩,by dsimp only; omega⟩
    refine ⟨hread,fun e' he' hholds => ?_⟩
    rcases mem_append.mp he' with he' | he'
    · exact hrest e' he' hholds
    · rw [mem_singleton.mp he'] at hholds
      unfold Build.Holds at hholds
      dsimp only at hholds
      omega

theorem lengthTurn_ok (B : Build) (plausibleSlot : Nat → Bool) (room p descr : Nat) :
    TurnOk B ⟨p, descr⟩ (lengthTurn B plausibleSlot room p descr) := by
  induction room generalizing p descr with
  | zero =>
    rw [lengthTurn]
    split
    · exact turnOk_chunk (by assumption)
    · split
      · exact turnOk_short (by assumption)
      · exact turnOk_small (by omega)
  | succ room ih =>
    rw [lengthTurn]
    split
    · split
      · rename_i hlong
        have hptr := B.ptrBytes_eq
        refine turnOk_share (Nat.dvd_mul_left _ _) (Nat.div_mul_le_self _ _) hlong (ih _ _) ?_
        apply Nat.mul_pos _ (by omega)
        apply Nat.div_pos _ (by omega)
        unfold shareBytes at hlong
        omega
      · exact turnOk_chunk (by assumption)
    · split
      · exact turnOk_short (by assumption)
      · exact turnOk_small (by omega)

theorem chunk_parts_dvd {k : Nat} {e' : Mse} (hk : k ∣ B.ptrBytes) (hd : k ∣ descr)
    (he' : e' ∈ (lengthTurn.chunk B plausibleSlot p descr).rest) : k ∣ e'.mseStart - p ∧ k ∣ e'.mseDescr := by
  have hdone : k ∣ B.ptrsToBytes (splitRangePtrs - 1) := Dvd.dvd.mul_left hk _
  rw [mem_singleton.mp he']
  dsimp only
  rw [Nat.add_sub_cancel_left]
  exact ⟨hdone,Nat.dvd_sub hd hdone⟩

/-- What divides a pointer and the length divides the parts that are left. -/
theorem lengthTurn_parts_dvd {k : Nat} {e' : Mse} (hk : k ∣ B.ptrBytes) (room : Nat) (hd : k ∣ descr)
    (he' : e' ∈ (lengthTurn B plausibleSlot room p descr).rest) : k ∣ e'.mseStart - p ∧ k ∣ e'.mseDescr := by
  induction room generalizing p descr with
  | zero =>
    rw [lengthTurn] at he'
    split at he'
    · exact chunk_parts_dvd hk hd he'
    · split at he' <;> cases he'
  | succ room ih =>
    rw [lengthTurn] at he'
    split at he'
    · split at he'
      · set n := descr / 2 / B.ptrBytes * B.ptrBytes
        have hn : k ∣ n := Dvd.dvd.mul_left hk _
        rcases mem_append.mp he' with he' | he'
        · have hle : p + n ≤ e'.mseStart := ((lengthTurn_ok B plausibleSlot room _ _).parts e' he').1
          have hrec := ih (Nat.dvd_sub hd hn) he'
          refine ⟨?_,hrec.2⟩
          rw [show e'.mseStart - p = e'.mseStart - (p + n) + n by omega]
          exact Nat.dvd_add hrec.1 hn
        · rw [mem_singleton.mp he']
          dsimp only
          rw [Nat.sub_self]
          exact ⟨dvd_zero _,Nat.dvd_add hn hk⟩
      · exact chunk_parts_dvd hk hd he'
    · split at he' <;> cases he'

theorem chunk_reads_inLine (ha : a ∈ (lengthTurn.chunk B plausibleSlot p descr).read) : B.alignment ∣ a - p := by
  have hle := B.alignment_le
  set done := B.ptrsToBytes (splitRangePtrs - 1) with hdone
  have hmany : B.ptrBytes ≤ done := by
    unfold Build.ptrsToBytes splitRangePtrs at hdone
    omega
  have hlimit : p + done + (B.ptrBytes - B.alignment) - B.ptrBytes = p + done - B.alignment := by omega
  refine scanRange_inLine (by omega) ?_ ha
  rw [hlimit,show p + done - B.alignment - p = done - B.alignment by omega]
  exact Nat.dvd_sub (B.alignment_dvd.trans (Dvd.intro_left _ rfl)) (dvd_refl _)

theorem small_reads_inLine (h : B.ptrBytes ≤ descr) (hd : B.alignment ∣ descr)
    (ha : a ∈ (scanRange B plausibleSlot p (p + descr - B.ptrBytes)).1) : B.alignment ∣ a - p := by
  refine scanRange_inLine (by omega) ?_ ha
  rw [show p + descr - B.ptrBytes - p = descr - B.ptrBytes by omega]
  exact Nat.dvd_sub hd B.alignment_dvd

theorem lengthTurn_reads_inLine (room : Nat) (hd : B.alignment ∣ descr)
    (ha : a ∈ (lengthTurn B plausibleSlot room p descr).read) : B.alignment ∣ a - p := by
  induction room generalizing p descr with
  | zero =>
    rw [lengthTurn] at ha
    split at ha
    · exact chunk_reads_inLine ha
    · split at ha
      · cases ha
      · exact small_reads_inLine (by omega) hd ha
  | succ room ih =>
    rw [lengthTurn] at ha
    split at ha
    · split at ha
      · set n := descr / 2 / B.ptrBytes * B.ptrBytes
        have hn : B.ptrBytes ∣ n := Nat.dvd_mul_left _ _
        have hle : p + n ≤ a := ((lengthTurn_ok B plausibleSlot room _ _).reads a ha).1
        exact (B.dvd_sub_iff hn hle).mp (ih (Nat.dvd_sub hd (B.alignment_dvd.trans hn)) ha)
      · exact chunk_reads_inLine ha
    · split at ha
      · cases ha
      · exact small_reads_inLine (by omega) hd ha

end Turns

section Coverage

variable {B : Build} {around : Surroundings} {e : Mse} {p a bytes : Nat}

/-- In the compressed build the start of a range of pointers has no tag. -/
def Build.Untagged (B : Build) (e : Mse) : Prop := B.compressed = true → 4 ∣ e.mseStart

theorem rangeTurn_eq_lengthTurn (around : Surroundings) (h : B.Untagged e) :
    rangeTurn B around e = lengthTurn B (around.plausibleSlot e) (around.room e) e.mseStart e.mseDescr := by
  have hlength : (B.compressed && e.mseStart.testBit 1) = false := by
    cases hc : B.compressed with
    | false => rfl
    | true =>
      obtain ⟨k,hk⟩ := h hc
      rw [hk,Nat.testBit_succ,Bool.true_and,show 4 * k / 2 = 2 * k by omega,Nat.testBit_zero]
      simp
  rw [rangeTurn,hlength]
  rfl

theorem rangeTurn_of_untagged (around : Surroundings) (h : B.Untagged e) :
    TurnOk B e (rangeTurn B around e) := by
  rw [rangeTurn_eq_lengthTurn around h]
  exact lengthTurn_ok B _ _ _ _

theorem Build.Untagged.part {e' : Mse} (h : B.Untagged e) (he' : e' ∈ (rangeTurn B around e).rest) :
    B.Untagged e' := by
  intro hc
  have hok := rangeTurn_of_untagged around h
  have hle := hok.parts e' he'
  rw [show e'.mseStart = e'.mseStart - e.mseStart + e.mseStart by omega]
  exact Nat.dvd_add (hok.starts e' he') (h hc)

theorem examined_holds (h : B.Untagged e) (ha : Examined B around e a) : B.Holds e a := by
  induction ha with
  | now ha => exact (rangeTurn_of_untagged around h).reads _ ha
  | later he' _ ih =>
    have hpart := ih (h.part he')
    have hle := (rangeTurn_of_untagged around h).parts _ he'
    unfold Build.Holds at *
    omega

theorem examined_of_dvd (h : B.Untagged e) (hdvd : B.alignment ∣ e.mseDescr) (ha : B.AlignedSlot e a) :
    Examined B around e a := by
  induction hd : e.mseDescr using Nat.strong_induction_on generalizing e with
  | _ d ih =>
    have hok := rangeTurn_of_untagged around h
    rcases hok.complete hdvd a ha with hread | ⟨e',he',hdvd',ha'⟩
    · exact Examined.now hread
    · have hlt := (hok.parts e' he').2.2
      exact Examined.later he' (ih e'.mseDescr (by omega) (h.part he') hdvd' ha' rfl)

/-- With a length that is a multiple of `ALIGNMENT`, the aligned slots are all that is examined. -/
theorem examined_iff_alignedSlot (h : B.Untagged e) (hdvd : B.alignment ∣ e.mseDescr) :
    Examined B around e a ↔ B.AlignedSlot e a := by
  refine ⟨fun ha => ⟨examined_holds h ha,?_⟩,examined_of_dvd h hdvd⟩
  induction ha with
  | now ha =>
    rw [rangeTurn_eq_lengthTurn around h] at ha
    exact lengthTurn_reads_inLine _ hdvd ha
  | @later e e' a he' hex ih =>
    have hle := ((rangeTurn_of_untagged around h).parts e' he').1
    have hholds := (examined_holds (h.part he') hex).1
    have hpart := he'
    rw [rangeTurn_eq_lengthTurn around h] at hpart
    obtain ⟨hstart,hdescr⟩ := lengthTurn_parts_dvd B.alignment_dvd _ hdvd hpart
    rw [show a - e.mseStart = a - e'.mseStart + (e'.mseStart - e.mseStart) by omega]
    exact Nat.dvd_add (ih (h.part he') hdescr) hstart

theorem not_examined_last (h : B.Untagged e) (hdvd : ¬ B.alignment ∣ e.mseDescr) (ha : B.LastSlot e a) :
    ¬ Examined B around e a := by
  intro hex
  induction hex with
  | now hread => exact ((rangeTurn_of_untagged around h).misses hdvd _ ha).1 hread
  | later he' hex ih =>
    have hholds := examined_holds (h.part he') hex
    obtain ⟨hdvd',hlast⟩ := ((rangeTurn_of_untagged around h).misses hdvd _ ha).2 _ he' hholds
    exact ih (h.part he') hdvd' hlast

theorem exists_lastSlot (h : B.ptrBytes ≤ e.mseDescr) : ∃ a, B.LastSlot e a := by
  have hpos := B.alignment_pos
  have hmod := Nat.div_add_mod (e.mseDescr - B.ptrBytes) B.alignment
  have hlt := Nat.mod_lt (e.mseDescr - B.ptrBytes) hpos
  refine ⟨e.mseStart + B.alignment * ((e.mseDescr - B.ptrBytes) / B.alignment),⟨⟨?_,?_⟩,?_⟩,?_⟩
  · omega
  · omega
  · simp
  · omega

theorem or_two_of_dvd (h : 4 ∣ p) : p ||| 2 = p + 2 := by
  obtain ⟨k,rfl⟩ := h
  exact (Nat.two_pow_add_eq_or_of_lt (i := 2) (by decide) k).symm

theorem rangeTurn_compressed (hb : B.compressed = true) :
    rangeTurn B around ⟨p ||| 2, bytes⟩ = compressedTurn B (around.plausibleSlot ⟨p ||| 2, bytes⟩) (p ||| 2) bytes := by
  have htag : (p ||| 2).testBit 1 = true := by
    rw [Nat.testBit_or,show Nat.testBit 2 1 = true from rfl,Bool.or_true]
  simp [rangeTurn,hb,htag]

theorem examined_compressed_iff (hb : B.compressed = true) (hp : 4 ∣ p) (hbytes : 4 ∣ bytes) :
    Examined B around ⟨p ||| 2, bytes⟩ a ↔ ∃ i, a = p + 4 * i ∧ 4 * i + 4 ≤ bytes := by
  induction bytes using Nat.strong_induction_on generalizing p with
  | _ bytes ih =>
    set part := B.ptrsToBytes splitRangePtrs with hpart
    have hmany : 4 ∣ part ∧ 0 < part := by
      have := B.ptrBytes_eq
      unfold Build.ptrsToBytes splitRangePtrs at hpart
      omega
    have hread : a ∈ (rangeTurn B around ⟨p ||| 2,bytes⟩).read ↔
        ∃ i, a = p + 4 * i ∧ 4 * i + 4 ≤ min bytes part := by
      rw [rangeTurn_compressed hb,compressedTurn,or_two_of_dvd hp]
      simp only [mem_map,mem_range,Nat.add_sub_cancel,← hpart]
      constructor
      · rintro ⟨i,hi,rfl⟩
        exact ⟨i,rfl,by omega⟩
      · rintro ⟨i,rfl,hi⟩
        exact ⟨i,by omega,rfl⟩
    have hrest : ∀ e', e' ∈ (rangeTurn B around ⟨p ||| 2,bytes⟩).rest ↔
        part < bytes ∧ e' = ⟨(p + part) ||| 2,bytes - part⟩ := by
      intro e'
      rw [rangeTurn_compressed hb,compressedTurn,or_two_of_dvd hp]
      simp only [Nat.add_sub_cancel,← hpart]
      split
      · rename_i hlong
        rw [Nat.min_eq_right hlong.le,mem_singleton]
        exact (and_iff_right hlong).symm
      · rename_i hshort
        simp [hshort]
    constructor
    · intro ha
      cases ha with
      | now ha =>
        obtain ⟨i,rfl,hi⟩ := hread.mp ha
        exact ⟨i,rfl,by omega⟩
      | later he' ha =>
        obtain ⟨hlong,rfl⟩ := (hrest _).mp he'
        obtain ⟨i,rfl,hi⟩ := (ih (bytes - part) (by omega) (by omega) (by omega)).mp ha
        exact ⟨part / 4 + i,by omega,by omega⟩
    · rintro ⟨i,rfl,hi⟩
      by_cases hin : 4 * i + 4 ≤ part
      · exact Examined.now (hread.mpr ⟨i,rfl,by omega⟩)
      · have hlong : part < bytes := by omega
        refine Examined.later ((hrest _).mpr ⟨hlong,rfl⟩) ?_
        exact (ih (bytes - part) (by omega) (by omega) (by omega)).mpr ⟨i - part / 4,by omega,by omega⟩

/-- Every slot read for a range lies in it, and every aligned slot is read exactly if the
length is a multiple of `ALIGNMENT` or there is no slot; ranges of 4-byte slots are read in
full. -/
theorem examined_complete_iff (B : Build) (around : Surroundings) (e : Mse) (h : B.Untagged e) :
    (∀ a, Examined B around e a → B.Holds e a) ∧
      ((∀ a, B.AlignedSlot e a → Examined B around e a) ↔
        B.alignment ∣ e.mseDescr ∨ e.mseDescr < B.ptrBytes) ∧
      ∀ start bytes, B.compressed = true → 4 ∣ start → 4 ∣ bytes → ∀ e', push32bitRange start bytes = some e' →
        ∀ a, Examined B around e' a ↔ ∃ i, a = start + 4 * i ∧ 4 * i + 4 ≤ bytes := by
  refine ⟨fun a ha => examined_holds h ha,⟨fun hall => ?_,fun hor a ha => ?_⟩,?_⟩
  · by_contra hno
    obtain ⟨hdvd,hlong⟩ := not_or.mp hno
    obtain ⟨a,ha⟩ := exists_lastSlot (B := B) (e := e) (by omega)
    exact not_examined_last h hdvd ha (hall a ha.1)
  · rcases hor with hdvd | hshort
    · exact examined_of_dvd h hdvd ha
    · have := ha.1
      unfold Build.Holds at this
      omega
  · intro start bytes hb hstart hbytes e' he'
    unfold push32bitRange at he'
    split at he'
    · cases he'
    · cases he'
      exact fun a => examined_compressed_iff hb hstart hbytes

/-- A page shared with other markers is read up to its last word. -/
theorem examined_complete_iff_page :
    (wordBuild true).Untagged ⟨65536, 4096⟩ ∧
      Examined (wordBuild true) ⟨fun _ => 2, fun _ _ => false⟩ ⟨65536, 4096⟩ 69624 := by
  have hstart : (wordBuild true).Untagged ⟨65536,4096⟩ := fun _ => by decide
  have hall := (examined_complete_iff (wordBuild true) ⟨fun _ => 2,fun _ _ => false⟩ _ hstart).2.1
  exact ⟨hstart,hall.mpr (.inl (by decide)) 69624 ⟨⟨by decide,by decide⟩,by decide⟩⟩

/-- Of 12 bytes only the upper 8 are read, and the pointer at their start is not seen. -/
theorem examined_misses_word :
    (wordBuild false).AlignedSlot ⟨65536, 12⟩ 65536 ∧
      ∀ around, ¬ Examined (wordBuild false) around ⟨65536, 12⟩ 65536 := by
  have hslot : (wordBuild false).AlignedSlot ⟨65536,12⟩ 65536 := ⟨⟨by decide,by decide⟩,by decide⟩
  exact ⟨hslot,fun around => not_examined_last nofun (by decide) ⟨hslot,by decide⟩⟩

end Coverage

end GcUtil.Mark.Ranges
