import GcUtil.Mark.Machine

/-! Mark descriptors and what `GC_mark_from` examines for them in the 64-bit build, and the part of
`GC_make_descriptor` that needs no table: lengths, bitmaps of one word, and the choice between them. -/
namespace GcUtil.Typed.Descriptors
open Mark.Ranges Mark.Machine Mark.Compressed

section Model

/-- What a turn of `GC_mark_from` does with an entry: the slots it reads and the entries it
pushes for the rest of the object. -/
structure Scan where
  read : List Nat
  rest : List Mse

/-- What a turn depends on besides its entry: the words of memory and `GC_mark_procs`, from the
index of a procedure, an address and an environment. -/
structure Marker where
  compressed : Bool
  around : Surroundings
  mem : Nat → Nat
  markProcs : Nat → Nat → Nat → Scan

def procIndex (descr : Nat) : Nat := descr >>> 2 &&& 63

def env (descr : Nat) : Nat := descr >>> 8

def maxEnv : Nat := 2 ^ 56 - 1

def makeProc (procIndex env : Nat) : Nat := ((env <<< 6 ||| procIndex) <<< 2 ||| 2) % 2 ^ 64

/-- The descriptor a `GC_DS_PER_OBJECT` descriptor leads to, 0 where there is none. -/
def storedDescr (mem : Nat → Nat) (p descr : Nat) : Nat :=
  if descr < 2 ^ 63 then mem (p + descr - 3)
  else if mem p = 0 then 0
  else mem (mem p + (2 ^ 64 - descr) - (16 - 3))

/-- The turn of `GC_mark_from` on an entry whose start is a word. -/
def Marker.turn (M : Marker) (e : Mse) : Scan :=
  match dsTag e.mseDescr with
  | .length =>
      let turn := rangeTurn (wordBuild M.compressed) M.around e
      ⟨turn.read, turn.rest⟩
  | .bitmap => ⟨bitmapSlots e.mseStart e.mseDescr, []⟩
  | .proc => M.markProcs (procIndex e.mseDescr) e.mseStart (env e.mseDescr)
  | .perObject =>
      let descr := storedDescr M.mem e.mseStart e.mseDescr
      ⟨[], if descr = 0 then [] else [⟨e.mseStart, descr⟩]⟩

inductive Marker.Examined (M : Marker) : Mse → Nat → Prop where
  | now {e a} : a ∈ (M.turn e).read → M.Examined e a
  | later {e e' a} : e' ∈ (M.turn e).rest → M.Examined e' a → M.Examined e a

def signb : BitVec 64 := 1#64 <<< 63

def bitmapBits : Nat := 62

def ptrsToBytes (n : Nat) : Nat := 8 * n % 2 ^ 64

def lastSetBit (bm : Nat → BitVec 64) : Nat → Option Nat
  | 0 => none
  | n + 1 => if getBit bm n then some n else lastSetBit bm n

def reverseBits (bm : Nat → BitVec 64) : Nat → BitVec 64 → BitVec 64
  | 0, d => d
  | i + 1, d => reverseBits bm i (if getBit bm i then d >>> 1 ||| signb else d >>> 1)

/-- How `GC_make_descriptor` goes on: it has a descriptor, or bits to store in the table. -/
inductive Plan where
  | ready (d : Nat)
  | extend (nbits : Nat)

/-- `GC_make_descriptor` up to the call of `GC_add_ext_descriptor`. A length with the sign bit
is negative for it. -/
def plan (bm : Nat → BitVec 64) (len : Nat) : Plan :=
  match if len < 2 ^ 63 then lastSetBit bm len else none with
  | none => .ready 0
  | some last =>
      if (List.range last).all (getBit bm) then .ready (ptrsToBytes (last + 1))
      else if last < bitmapBits then .ready (reverseBits bm last signb ||| 1#64).toNat
      else .extend (last + 1)

end Model

section Interpretation

variable {M : Marker} {e : Mse} {p d a : Nat}

theorem Marker.examined_iff :
    M.Examined e a ↔ a ∈ (M.turn e).read ∨ ∃ e' ∈ (M.turn e).rest, M.Examined e' a := by
  constructor
  · intro h
    cases h with
    | now h => exact .inl h
    | later he' h => exact .inr ⟨_,he',h⟩
  · rintro (h | ⟨e',he',h⟩)
    · exact .now h
    · exact .later he' h

theorem dsTag_of_dvd (h : 4 ∣ d) : dsTag d = .length := by
  rw [dsTag,Nat.mod_eq_zero_of_dvd h]
  rfl

theorem turn_length (h : 4 ∣ e.mseDescr) :
    M.turn e = ⟨(rangeTurn (wordBuild M.compressed) M.around e).read,
      (rangeTurn (wordBuild M.compressed) M.around e).rest⟩ := by
  rw [Marker.turn,dsTag_of_dvd h]

theorem examined_length_iff_range (h : (wordBuild M.compressed).Untagged e) (hd : 4 ∣ e.mseDescr) :
    M.Examined e a ↔ Mark.Ranges.Examined (wordBuild M.compressed) M.around e a := by
  have hparts : ∀ {e e' : Mse}, (wordBuild M.compressed).Untagged e → 4 ∣ e.mseDescr →
      e' ∈ (rangeTurn (wordBuild M.compressed) M.around e).rest → 4 ∣ e'.mseDescr := by
    intro e e' h hd he'
    rw [rangeTurn_eq_lengthTurn _ h] at he'
    exact (lengthTurn_parts_dvd (Build.four_dvd_ptrBytes _) _ hd he').2
  constructor
  · intro hex
    induction hex with
    | now ha =>
      rw [turn_length hd] at ha
      exact .now ha
    | later he' _ ih =>
      rw [turn_length hd] at he'
      exact .later he' (ih (h.part he') (hparts h hd he'))
  · intro hex
    induction hex with
    | now ha =>
      refine .now ?_
      rwa [turn_length hd]
    | later he' _ ih =>
      refine .later ?_ (ih (h.part he') (hparts h hd he'))
      rwa [turn_length hd]

theorem untagged_of_dvd {b : Bool} (hp : 8 ∣ p) : (wordBuild b).Untagged ⟨p, d⟩ :=
  fun _ => Dvd.dvd.trans (by decide) hp

theorem examined_length (hp : 8 ∣ p) (hd : 8 ∣ d) :
    M.Examined ⟨p, d⟩ a ↔ ∃ i, 8 * (i + 1) ≤ d ∧ a = p + 8 * i := by
  rw [examined_length_iff_range (untagged_of_dvd hp) (Dvd.dvd.trans (by decide) hd),
    examined_iff_alignedSlot (untagged_of_dvd hp) hd]
  unfold Build.AlignedSlot Build.Holds wordBuild
  dsimp only
  constructor
  · rintro ⟨⟨hpa,hap⟩,i,hi⟩
    exact ⟨i,by omega,by omega⟩
  · rintro ⟨i,hi,rfl⟩
    exact ⟨⟨by omega,by omega⟩,by simp⟩

theorem not_examined_short (h : d < 8) (hp : 8 ∣ p) (hd : 4 ∣ d) : ¬ M.Examined ⟨p, d⟩ a := by
  rw [examined_length_iff_range (untagged_of_dvd hp) hd]
  intro hex
  have hholds := examined_holds (untagged_of_dvd hp) hex
  unfold Build.Holds wordBuild at hholds
  dsimp only at hholds
  omega

theorem mem_bitmapSlots : a ∈ bitmapSlots p d ↔ ∃ i < 62, d.testBit (63 - i) = true ∧ a = p + 8 * i := by
  simp only [bitmapSlots,List.mem_map,List.mem_filter,List.mem_range]
  constructor
  · rintro ⟨i,⟨hi,hbit⟩,rfl⟩
    exact ⟨i,hi,hbit,rfl⟩
  · rintro ⟨i,hi,hbit,rfl⟩
    exact ⟨i,⟨hi,hbit⟩,rfl⟩

theorem examined_bitmap (h : d % 4 = 1) :
    M.Examined ⟨p, d⟩ a ↔ ∃ i < 62, d.testBit (63 - i) = true ∧ a = p + 8 * i := by
  have hturn : M.turn ⟨p,d⟩ = ⟨bitmapSlots p d,[]⟩ := by
    rw [Marker.turn,dsTag,h]
    rfl
  rw [Marker.examined_iff,hturn]
  simp [mem_bitmapSlots]

/-- A descriptor kept in the object is read as if it was the object's own. -/
theorem examined_perObject (h : d % 4 = 3) :
    M.Examined ⟨p, d⟩ a ↔ storedDescr M.mem p d ≠ 0 ∧ M.Examined ⟨p, storedDescr M.mem p d⟩ a := by
  have hturn : M.turn ⟨p,d⟩ = ⟨[],if storedDescr M.mem p d = 0 then [] else [⟨p,storedDescr M.mem p d⟩]⟩ := by
    rw [Marker.turn,dsTag,h]
    rfl
  rw [Marker.examined_iff,hturn]
  by_cases hzero : storedDescr M.mem p d = 0 <;> simp [hzero]

theorem examined_proc (h : d % 4 = 2) (hscan : M.markProcs (procIndex d) p (env d) = scan) :
    M.Examined ⟨p, d⟩ a ↔ a ∈ scan.read ∨ ∃ e' ∈ scan.rest, M.Examined e' a := by
  have hturn : M.turn ⟨p,d⟩ = scan := by
    rw [Marker.turn,dsTag,h]
    exact hscan
  rw [Marker.examined_iff,hturn]

end Interpretation

section MakeProc

variable {index n : Nat}

section

variable (hindex : index < 64) (hn : n ≤ maxEnv)
include hindex hn

theorem makeProc_eq : makeProc index n = n * 256 + index * 4 + 2 := by
  have hor : n <<< 6 ||| index = n * 64 + index := by
    rw [← Nat.shiftLeft_add_eq_or_of_lt hindex,Nat.shiftLeft_eq]
  have htag : (n * 64 + index) <<< 2 ||| 2 = (n * 64 + index) * 4 + 2 := by
    rw [← Nat.shiftLeft_add_eq_or_of_lt (by decide),Nat.shiftLeft_eq]
  unfold maxEnv at hn
  rw [makeProc,hor,htag,Nat.mod_eq_of_lt (by omega)]
  omega

theorem makeProc_mod : makeProc index n % 4 = 2 := by
  rw [makeProc_eq hindex hn]
  omega

theorem procIndex_makeProc : procIndex (makeProc index n) = index := by
  rw [procIndex,makeProc_eq hindex hn,Nat.shiftRight_eq_div_pow,show 63 = 2 ^ 6 - 1 by rfl,
    Nat.and_two_pow_sub_one_eq_mod]
  omega

theorem env_makeProc : env (makeProc index n) = n := by
  rw [env,makeProc_eq hindex hn,Nat.shiftRight_eq_div_pow]
  omega

end

end MakeProc

section Plan

variable {bm : Nat → BitVec 64} {len last i : Nat}

theorem lastSetBit_eq_none (h : lastSetBit bm len = none) (hi : i < len) : getBit bm i = false := by
  induction len with
  | zero => omega
  | succ len ih =>
    rw [lastSetBit] at h
    split at h
    · cases h
    · rename_i hbit
      rcases Nat.lt_succ_iff_lt_or_eq.mp hi with hlt | rfl
      · exact ih h hlt
      · simpa using hbit

theorem lastSetBit_eq_some (h : lastSetBit bm len = some last) :
    last < len ∧ getBit bm last = true ∧ ∀ i, last < i → i < len → getBit bm i = false := by
  induction len with
  | zero => cases h
  | succ len ih =>
    rw [lastSetBit] at h
    split at h
    · rename_i hbit
      cases h
      exact ⟨by omega,hbit,fun i _ _ => by omega⟩
    · rename_i hbit
      obtain ⟨hlt,hset,hclear⟩ := ih h
      refine ⟨by omega,hset,fun i hi hlen => ?_⟩
      rcases Nat.lt_succ_iff_lt_or_eq.mp hlen with hlt' | rfl
      · exact hclear i hi hlt'
      · simpa using hbit

theorem setBit_iff (h : lastSetBit bm len = some last) :
    i < len ∧ getBit bm i = true ↔ i < last + 1 ∧ getBit bm i = true := by
  obtain ⟨hlt,_,hclear⟩ := lastSetBit_eq_some h
  constructor
  · rintro ⟨hi,hbit⟩
    refine ⟨?_,hbit⟩
    by_contra hge
    rw [hclear i (by omega) hi] at hbit
    cases hbit
  · rintro ⟨hi,hbit⟩
    exact ⟨by omega,hbit⟩

theorem getLsbD_signb (k : Nat) : signb.getLsbD k = decide (k = 63) := by
  unfold signb
  by_cases h : k = 63
  · subst h
    decide
  · rw [BitVec.getLsbD_shiftLeft,decide_eq_false h]
    simp only [BitVec.getLsbD_one]
    simp
    omega

theorem getLsbD_reverseBits (n : Nat) (hn : n < 64) (d : BitVec 64) (k : Nat) (hk : k < 64) :
    (reverseBits bm n d).getLsbD k = if 64 - n ≤ k then getBit bm (63 - k) else d.getLsbD (k + n) := by
  induction n generalizing d with
  | zero =>
    rw [reverseBits,if_neg (by omega),Nat.add_zero]
  | succ n ih =>
    rw [reverseBits,ih (by omega)]
    by_cases hhigh : 64 - n ≤ k
    · rw [if_pos hhigh,if_pos (by omega)]
    · rw [if_neg hhigh]
      by_cases htop : k + n = 63
      · rw [if_pos (show 64 - (n + 1) ≤ k by omega),htop,show 63 - k = n by omega]
        cases getBit bm n with
        | false => simp
        | true => simp [getLsbD_signb]
      · rw [if_neg (show ¬ 64 - (n + 1) ≤ k by omega),show k + (n + 1) = 1 + (k + n) by omega]
        cases getBit bm n with
        | false => simp
        | true => simp [getLsbD_signb,htop]

theorem testBit_bitmapDescr (hlast : last < bitmapBits) (hi : i < 62) :
    (reverseBits bm last signb ||| 1#64).toNat.testBit (63 - i) =
      (decide (i = last) || (decide (i < last) && getBit bm i)) := by
  unfold bitmapBits at hlast
  rw [BitVec.testBit_toNat,BitVec.getLsbD_or,getLsbD_reverseBits last (by omega) _ _ (by omega)]
  have hone : (1#64).getLsbD (63 - i) = false := by
    rw [BitVec.getLsbD_one]
    simp
    omega
  rw [hone,Bool.or_false,getLsbD_signb]
  by_cases hlt : i < last
  · rw [if_pos (by omega),show 63 - (63 - i) = i by omega]
    simp [hlt,show i ≠ last by omega]
  · rw [if_neg (by omega)]
    simp only [hlt,decide_false,Bool.false_and,Bool.or_false]
    congr 1
    apply propext
    omega

theorem bitmapDescr_mod (hlast : last < bitmapBits) : (reverseBits bm last signb ||| 1#64).toNat % 4 = 1 := by
  unfold bitmapBits at hlast
  set d := reverseBits bm last signb ||| 1#64 with hd
  have hzero : d.toNat.testBit 0 = true := by
    rw [BitVec.testBit_toNat,hd,BitVec.getLsbD_or]
    simp
  have hone : d.toNat.testBit 1 = false := by
    rw [BitVec.testBit_toNat,hd,BitVec.getLsbD_or,getLsbD_reverseBits last (by omega) _ _ (by omega),
      if_neg (by omega),getLsbD_signb]
    simp
    omega
  rw [Nat.testBit_zero,decide_eq_true_eq] at hzero
  rw [Nat.testBit_succ,Nat.testBit_zero,decide_eq_false_iff_not] at hone
  omega

variable {M : Marker} {p a : Nat}

theorem examined_allSet (hp : 8 ∣ p) (hall : (List.range last).all (getBit bm) = true)
    (hset : getBit bm last = true) (hlen : 8 * (last + 1) < 2 ^ 64) :
    M.Examined ⟨p, ptrsToBytes (last + 1)⟩ a ↔ ∃ i < last + 1, getBit bm i = true ∧ a = p + 8 * i := by
  rw [ptrsToBytes,Nat.mod_eq_of_lt hlen,examined_length hp (by simp)]
  constructor
  · rintro ⟨i,hi,ha⟩
    refine ⟨i,by omega,?_,ha⟩
    rcases Nat.lt_or_ge i last with hlt | hge
    · exact List.all_eq_true.mp hall i (List.mem_range.mpr hlt)
    · rw [show i = last by omega]
      exact hset
  · rintro ⟨i,hi,_,ha⟩
    exact ⟨i,by omega,ha⟩

theorem examined_bitmapDescr (hshort : last < bitmapBits) (hset : getBit bm last = true) :
    M.Examined ⟨p, (reverseBits bm last signb ||| 1#64).toNat⟩ a ↔
      ∃ i < last + 1, getBit bm i = true ∧ a = p + 8 * i := by
  rw [examined_bitmap (bitmapDescr_mod hshort)]
  unfold bitmapBits at hshort
  constructor
  · rintro ⟨i,hi,hbit,ha⟩
    rw [testBit_bitmapDescr hshort hi] at hbit
    have hor : i = last ∨ i < last ∧ getBit bm i = true := by simpa using hbit
    rcases hor with rfl | ⟨hbelow,hbit'⟩
    · exact ⟨i,by omega,hset,ha⟩
    · exact ⟨i,by omega,hbit',ha⟩
  · rintro ⟨i,hi,hbit,ha⟩
    refine ⟨i,by omega,?_,ha⟩
    rw [testBit_bitmapDescr hshort (by omega),hbit]
    simp
    omega

/-- A descriptor made without the table means the bits that are set. -/
theorem plan_ready {d : Nat} (h : plan bm len = .ready d) (hp : 8 ∣ p) (hlen : 8 * len < 2 ^ 64) :
    M.Examined ⟨p, d⟩ a ↔ ∃ i < len, getBit bm i = true ∧ a = p + 8 * i := by
  rw [plan,if_pos (by omega)] at h
  split at h
  · rename_i hnone
    cases h
    constructor
    · intro hex
      exact absurd hex (not_examined_short (by decide) hp (by decide))
    · rintro ⟨i,hi,hbit,_⟩
      rw [lastSetBit_eq_none hnone hi] at hbit
      cases hbit
  · rename_i last hlast
    obtain ⟨hlt,hset,_⟩ := lastSetBit_eq_some hlast
    have hbits : (∃ i < len, getBit bm i = true ∧ a = p + 8 * i) ↔
        ∃ i < last + 1, getBit bm i = true ∧ a = p + 8 * i := by
      simp only [← and_assoc,setBit_iff hlast]
    rw [hbits]
    split at h
    · cases h
      exact examined_allSet hp (by assumption) hset (by omega)
    · split at h
      · cases h
        exact examined_bitmapDescr (by assumption) hset
      · cases h

theorem plan_extend {nbits : Nat} (h : plan bm len = .extend nbits) :
    nbits ≤ len ∧ bitmapBits < nbits ∧ ∀ i, i < len ∧ getBit bm i = true ↔ i < nbits ∧ getBit bm i = true := by
  rw [plan] at h
  split at h
  · cases h
  · rename_i last hlast
    split at hlast
    · have hlt := (lastSetBit_eq_some hlast).1
      split at h
      · cases h
      · split at h
        · cases h
        · rename_i hlong
          cases h
          exact ⟨by omega,by omega,fun i => setBit_iff hlast⟩
    · cases hlast

end Plan

end GcUtil.Typed.Descriptors
