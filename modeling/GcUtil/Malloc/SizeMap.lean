import GcUtil.Basic

/-! `GC_size_map`, which gives the granules for a small request and is filled in on demand. The
64-bit build; `extra` is `EXTRA_BYTES`. An access outside the array is `none`. -/
namespace GcUtil.Malloc.SizeMap
open Basic List Option

section Model

def tinyFreelists : Nat := 25

def hblkGranules : Nat := hblkSize / granuleBytes

def extraBytes (allInteriorPointers : Bool) : Nat := if allInteriorPointers then 1 else 0

variable (extra : Nat)

def allocRequestGrans (lb : Nat) : Nat := (lb + (granuleBytes - 1 + extra)) / granuleBytes

def smallObj (lb : Nat) : Bool := decide (lb ≤ maxObjBytes - extra)

def entryAt (m : Nat → Nat) (i : Nat) : Option Nat := if i ≤ maxObjBytes then some (m i) else none

def initSizeMap (i : Nat) : Nat :=
  if i = 0 then 1
  else if i ≤ (tinyFreelists - 1) * granuleBytes - extra then allocRequestGrans extra i
  else 0

/-- `while (GC_size_map[low_limit] != 0) low_limit++`, which cannot go on past the array. -/
def skipFilled (m : Nat → Nat) : (fuel low : Nat) → Option Nat
  | 0, _ => none
  | fuel + 1, low => do
      let lg ← entryAt m low
      if lg ≠ 0 then skipFilled m fuel (low + 1) else some low

def fillIn (lg : Nat) : (n low : Nat) → (Nat → Nat) → Option (Nat → Nat)
  | 0, _, m => some m
  | n + 1, low, m => do
      let _ ← entryAt m low
      fillIn lg n (low + 1) (Function.update m low lg)

/-- Where `GC_extend_size_map` begins to fill in, and the granules it starts from. -/
def lowLimit (m : Nat → Nat) (i : Nat) : Option (Nat × Nat) := do
  let originalLg := allocRequestGrans extra i
  let byteSz := originalLg * granuleBytes
  let smallerThanI := byteSz - byteSz / 8
  if (← entryAt m smallerThanI) = 0 then
    let low ← skipFilled m (maxObjBytes + 1) (byteSz - byteSz / 4)
    some (low, originalLg)
  else
    let low ← skipFilled m (maxObjBytes + 1) (smallerThanI + 1)
    let lg := allocRequestGrans extra low
    some (low, max (lg + lg / 8) originalLg)

def sectionGranules (lg : Nat) : Nat :=
  let lg := min ((lg + 1) / 2 * 2) maxObjGranules
  hblkGranules / (hblkGranules / lg) / 2 * 2

def extendSizeMap (m : Nat → Nat) (i : Nat) : Option (Nat → Nat) := do
  let (low, lg) ← lowLimit extra m i
  let lg := sectionGranules lg
  let byteSz := lg * granuleBytes - extra
  fillIn lg (byteSz + 1 - low) low m

/-- A small request, as `GC_generic_malloc_inner_small` serves it. -/
def request (m : Nat → Nat) (lb : Nat) : Option (Nat → Nat) := do
  if (← entryAt m lb) = 0 then extendSizeMap extra m lb else some m

def requests (lbs : List Nat) : Option (Nat → Nat) := lbs.foldlM (request extra) (initSizeMap extra)

end Model

section Filling

variable {extra lg n low fuel i : Nat} {m m' : Nat → Nat}

theorem entryAt_of_le (h : i ≤ maxObjBytes) : entryAt m i = some (m i) := if_pos h

theorem skipFilled_spec (fuel low : Nat) (hi : m i = 0) (hle : low ≤ i) (hin : i ≤ maxObjBytes) (hfuel : i < low + fuel) :
    ∃ low', skipFilled m fuel low = some low' ∧ low ≤ low' ∧ low' ≤ i := by
  induction fuel generalizing low with
  | zero => omega
  | succ fuel ih =>
    simp only [skipFilled,entryAt_of_le (show low ≤ maxObjBytes by omega),bind_eq_bind,bind_some]
    split
    · rename_i hset
      have hne : low ≠ i := by
        rintro rfl
        exact hset hi
      obtain ⟨low',hsome,hlow,hle'⟩ := ih (low + 1) (by omega) (by omega)
      exact ⟨low',hsome,by omega,hle'⟩
    · exact ⟨low,rfl,le_refl _,hle⟩

theorem fillIn_spec (hin : low + n ≤ maxObjBytes + 1) :
    fillIn lg n low m = some fun k => if low ≤ k ∧ k < low + n then lg else m k := by
  induction n generalizing low m with
  | zero =>
    rw [fillIn]
    congr 1
    funext k
    rw [if_neg (by omega)]
  | succ n ih =>
    rw [fillIn,entryAt_of_le (show low ≤ maxObjBytes by omega)]
    simp only [bind_eq_bind,bind_some]
    rw [ih (by omega)]
    congr 1
    funext k
    by_cases hk : k = low
    · subst hk
      simp
    · rw [Function.update_of_ne hk]
      exact if_congr (by omega) rfl rfl

theorem sectionGranules_spec (hlg : 0 < lg) :
    min lg maxObjGranules ≤ sectionGranules lg ∧ sectionGranules lg ≤ maxObjGranules := by
  unfold sectionGranules maxObjGranules hblkGranules maxObjBytes granuleBytes hblkSize
  dsimp only
  set even := min ((lg + 1) / 2 * 2) (4096 / 2 / 16)
  have hle : even ≤ 128 := by omega
  have hpos : 2 ≤ even := by omega
  have htwo : 2 ≤ 4096 / 16 / even := by
    rw [Nat.le_div_iff_mul_le (by omega)]
    omega
  have hup : even ≤ 4096 / 16 / (4096 / 16 / even) := by
    rw [Nat.le_div_iff_mul_le (by omega),Nat.mul_comm]
    exact Nat.div_mul_le_self _ _
  have hdown : 4096 / 16 / (4096 / 16 / even) ≤ 128 := by
    calc 4096 / 16 / (4096 / 16 / even) ≤ 4096 / 16 / 2 := Nat.div_le_div_left htwo (by decide)
      _ = 128 := by decide
  omega

end Filling

section Invariant

variable {extra lg low i : Nat} {m m' : Nat → Nat}

structure Sound (extra : Nat) (m : Nat → Nat) : Prop where
  tiny : ∀ k ≤ (tinyFreelists - 1) * granuleBytes - extra, m k ≠ 0
  enough : ∀ k ≤ maxObjBytes, m k ≠ 0 → k + extra ≤ m k * granuleBytes ∧ m k * granuleBytes ≤ maxObjBytes

def Keeps (m m' : Nat → Nat) : Prop := ∀ k, m k ≠ 0 → m' k ≠ 0

section

variable (hextra : extra ≤ 1)
include hextra

theorem initSizeMap_sound : Sound extra (initSizeMap extra) := by
  constructor
  · intro k hk
    unfold initSizeMap
    rw [if_pos hk]
    unfold allocRequestGrans granuleBytes
    split <;> omega
  · intro k hk hne
    unfold initSizeMap at *
    by_cases hzero : k = 0
    · simp only [hzero,if_true,maxObjBytes,hblkSize,granuleBytes]
      omega
    · by_cases htiny : k ≤ (tinyFreelists - 1) * granuleBytes - extra
      · rw [if_neg hzero,if_pos htiny]
        unfold allocRequestGrans tinyFreelists maxObjBytes hblkSize granuleBytes at *
        omega
      · simp [hzero,htiny] at hne

/-- The section for a request that has no entry begins at or below it, at a place that is free, and
starts from enough granules for it. -/
theorem lowLimit_spec (h : Sound extra m) (hi : m i = 0) (hsmall : i ≤ maxObjBytes - extra) :
    ∃ low lg, lowLimit extra m i = some (low, lg) ∧ low ≤ i ∧ allocRequestGrans extra i ≤ lg := by
  have hbig : (tinyFreelists - 1) * granuleBytes - extra < i := by
    by_contra hle
    exact h.tiny i (by omega) hi
  set originalLg := allocRequestGrans extra i with hlg
  have hup : i + extra ≤ originalLg * 16 ∧ originalLg * 16 < i + extra + 16 ∧ 24 < originalLg := by
    unfold allocRequestGrans granuleBytes tinyFreelists at *
    omega
  have hin : i ≤ maxObjBytes ∧ originalLg * 16 ≤ maxObjBytes := by
    unfold maxObjBytes hblkSize at *
    omega
  unfold lowLimit
  simp only [← hlg,granuleBytes,bind_eq_bind]
  rw [entryAt_of_le (by omega),bind_some]
  split
  · obtain ⟨low,hsome,_,hle⟩ := skipFilled_spec (maxObjBytes + 1) (originalLg * 16 - originalLg * 16 / 4)
      hi (by omega) hin.1 (by omega)
    exact ⟨low,originalLg,by rw [hsome]; rfl,hle,le_refl _⟩
  · obtain ⟨low,hsome,_,hle⟩ := skipFilled_spec (maxObjBytes + 1) (originalLg * 16 - originalLg * 16 / 8 + 1)
      hi (by omega) hin.1 (by omega)
    exact ⟨low,_,by rw [hsome]; rfl,hle,le_max_right _ _⟩

theorem extendSizeMap_spec (h : Sound extra m) (hi : m i = 0) (hsmall : i ≤ maxObjBytes - extra) :
    ∃ m', extendSizeMap extra m i = some m' ∧ Sound extra m' ∧ m' i ≠ 0 ∧ Keeps m m' := by
  obtain ⟨low,lg,hlow,hle,hlg⟩ := lowLimit_spec hextra h hi hsmall
  have hgrans : i + extra ≤ allocRequestGrans extra i * granuleBytes ∧ 0 < allocRequestGrans extra i ∧
      allocRequestGrans extra i ≤ maxObjGranules := by
    have hpos : i ≠ 0 := fun hzero => h.tiny 0 (Nat.zero_le _) (hzero ▸ hi)
    unfold allocRequestGrans maxObjGranules maxObjBytes hblkSize granuleBytes at *
    omega
  obtain ⟨hmin,hmax⟩ := sectionGranules_spec (show 0 < lg by omega)
  set g := sectionGranules lg
  have hfill : i + extra ≤ g * granuleBytes ∧ g * granuleBytes ≤ maxObjBytes ∧ 0 < g := by
    unfold maxObjGranules maxObjBytes hblkSize granuleBytes at *
    omega
  have hsome : extendSizeMap extra m i =
      some fun k => if low ≤ k ∧ k < low + (g * granuleBytes - extra + 1 - low) then g else m k := by
    have hroom : low + (g * granuleBytes - extra + 1 - low) ≤ maxObjBytes + 1 := by omega
    rw [extendSizeMap,hlow]
    exact fillIn_spec hroom
  refine ⟨_,hsome,⟨fun k hk => ?_,fun k hk hne => ?_⟩,?_,fun k hk => ?_⟩
  · split
    · omega
    · exact h.tiny k hk
  · split
    · omega
    · rename_i hout
      rw [if_neg hout] at hne
      exact h.enough k hk hne
  · rw [if_pos (by omega)]
    omega
  · dsimp only
    split
    · omega
    · exact hk

theorem request_spec (h : Sound extra m) {lb : Nat} (hsmall : lb ≤ maxObjBytes - extra) :
    ∃ m', request extra m lb = some m' ∧ Sound extra m' ∧ m' lb ≠ 0 ∧ Keeps m m' := by
  rw [request,entryAt_of_le (by omega),bind_eq_bind,bind_some]
  split
  · rename_i hzero
    exact extendSizeMap_spec hextra h hzero hsmall
  · rename_i hset
    exact ⟨m,rfl,h,hset,fun _ hk => hk⟩

theorem foldlM_request (lbs : List Nat) (h : Sound extra m)
    (hsmall : ∀ lb ∈ lbs, lb ≤ maxObjBytes - extra) :
    ∃ m', lbs.foldlM (request extra) m = some m' ∧ Sound extra m' ∧ (∀ lb ∈ lbs, m' lb ≠ 0) ∧ Keeps m m' := by
  induction lbs generalizing m with
  | nil => exact ⟨m,rfl,h,(fun _ hx => absurd hx not_mem_nil),fun _ hk => hk⟩
  | cons lb lbs ih =>
    obtain ⟨m₁,hsome,hsound,hset,hkeeps⟩ := request_spec hextra h (hsmall lb mem_cons_self)
    obtain ⟨m₂,hrest,hsound',hall,hkeeps'⟩ := ih hsound fun x hx => hsmall x (mem_cons_of_mem lb hx)
    refine ⟨m₂,?_,hsound',fun x hx => ?_,fun k hk => hkeeps' k (hkeeps k hk)⟩
    · rw [foldlM_cons,hsome]
      exact hrest
    · rcases mem_cons.mp hx with rfl | hx
      · exact hkeeps' _ hset
      · exact hall x hx

end

end Invariant

/-- For every sequence of small requests the map is extended without leaving the array; what is
filled in gives enough granules for every request and no more than a small object has; the entry of
each request is filled in, and entries once filled in stay so. -/
theorem requests_sound (allInteriorPointers : Bool) (lbs later : List Nat)
    (hsmall : ∀ lb ∈ lbs ++ later, smallObj (extraBytes allInteriorPointers) lb = true) :
    ∃ m m', requests (extraBytes allInteriorPointers) lbs = some m ∧
      requests (extraBytes allInteriorPointers) (lbs ++ later) = some m' ∧
      (∀ k ≤ maxObjBytes, m k ≠ 0 →
        k + extraBytes allInteriorPointers ≤ m k * granuleBytes ∧ m k * granuleBytes ≤ maxObjBytes) ∧
      (∀ lb ∈ lbs, m lb ≠ 0) ∧ ∀ k, m k ≠ 0 → m' k ≠ 0 := by
  have hextra : extraBytes allInteriorPointers ≤ 1 := by cases allInteriorPointers <;> decide
  have hle : ∀ lb ∈ lbs ++ later, lb ≤ maxObjBytes - extraBytes allInteriorPointers :=
    fun lb hlb => of_decide_eq_true (hsmall lb hlb)
  obtain ⟨m,hsome,hsound,hall,_⟩ := foldlM_request hextra lbs (initSizeMap_sound hextra)
    fun lb hlb => hle lb (mem_append_left later hlb)
  obtain ⟨m',hsome',_,_,hkeeps⟩ := foldlM_request hextra later hsound
    fun lb hlb => hle lb (mem_append_right lbs hlb)
  refine ⟨m,m',hsome,?_,hsound.enough,hall,hkeeps⟩
  rw [requests,foldlM_append,hsome]
  exact hsome'

/-- Requests of 800 and then of 590 bytes. -/
theorem requests_sound_twoRequests :
    ∃ m, requests (extraBytes true) [800, 590] = some m ∧ m 800 ≠ 0 ∧ m 590 ≠ 0 := by
  obtain ⟨m,_,hsome,_,_,hall,_⟩ := requests_sound true [800,590] [] (by decide)
  exact ⟨m,hsome,hall 800 (by decide),hall 590 (by decide)⟩

/-- The second one takes an entry of the first one's section into its own, with fewer granules. -/
theorem requests_change_entry :
    (requests (extraBytes true) [800]).map (· 650) = some 64 ∧
      (requests (extraBytes true) [800, 590]).map (· 650) = some 42 :=
  ⟨by decide +kernel,by decide +kernel⟩

end GcUtil.Malloc.SizeMap
