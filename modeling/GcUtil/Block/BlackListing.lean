import GcUtil.Block.Searching

/-! Black lists: the lookup over whole words of the tables against a scan of the hblks one by one,
and the search for the lowest part of a free block that is not listed. -/
namespace GcUtil.Block.BlackListing
open Basic FreeLists Allocator Searching Library.Outcome

section Scan

variable (bl : BlackLists)

def stackListed (b : Nat) : Bool :=
  bl.oldStack (b % bl.phtEntries) || bl.incompleteStack (b % bl.phtEntries)

def startListed (b : Nat) : Bool :=
  !bl.allInteriorPointers && (bl.oldNormal (b % bl.phtEntries) || bl.incompleteNormal (b % bl.phtEntries))

def ListedIn (h n : Nat) : Prop :=
  (0 < n ∧ startListed bl h = true) ∨ ∃ j < n, stackListed bl (h + j) = true

def consulted (len : Nat) : Nat := max 1 (divHblksz len)

variable {bl} {h i k nblocks fuel x : Nat}

theorem stackListed_of_wordZero (hpht : bl.phtEntries = 2 ^ k) {b j : Nat}
    (hzero : stackWordZero bl (b % bl.phtEntries / 64) = true) (hj : j < 64 - b % bl.phtEntries % 64) :
    stackListed bl (b + j) = false := by
  have hsame : (b + j) % bl.phtEntries / 64 = b % bl.phtEntries / 64 := by
    rcases Nat.le_total k 6 with hk | hk
    · have hle : bl.phtEntries ≤ 64 := hpht ▸ Nat.pow_le_pow_right (by decide) hk
      have hpos : 0 < bl.phtEntries := hpht ▸ Nat.two_pow_pos k
      have h1 := Nat.mod_lt (b + j) hpos
      have h2 := Nat.mod_lt b hpos
      omega
    · obtain ⟨c,hc⟩ : 64 ∣ bl.phtEntries := hpht ▸ Nat.pow_dvd_pow 2 hk
      have hlt := Nat.mod_lt b (show 0 < bl.phtEntries from hpht ▸ Nat.two_pow_pos k)
      have hin : b % bl.phtEntries + j < bl.phtEntries := by omega
      rw [Nat.add_mod,Nat.mod_eq_of_lt (show j < bl.phtEntries by omega),Nat.mod_eq_of_lt hin]
      omega
  have hbit := List.all_eq_true.mp hzero ((b + j) % bl.phtEntries % 64) (List.mem_range.mpr (Nat.mod_lt _ (by decide)))
  rw [← hsame,Nat.div_add_mod'] at hbit
  simpa [stackListed] using hbit

def ScannedFrom (bl : BlackLists) (h nblocks i : Nat) : Option Nat → Prop
  | none => ∀ j, i ≤ j → j < max (i + 1) nblocks → stackListed bl (h + j) = false
  | some x => ∃ j, i ≤ j ∧ j < max (i + 1) nblocks ∧ stackListed bl (h + j) = true ∧ x = h + j + 1

theorem scannedFrom_none {step : Nat} (hclear : ∀ j < step, stackListed bl (h + i + j) = false)
    (hstep : 0 < step) (hdone : nblocks ≤ i + step) : ScannedFrom bl h nblocks i none := by
  intro j hij hj
  have := hclear (j - i) (by omega)
  rwa [show h + i + (j - i) = h + j by omega] at this

theorem ScannedFrom.skip {step : Nat} {r : Option Nat} (hr : ScannedFrom bl h nblocks (i + step) r)
    (hclear : ∀ j < step, stackListed bl (h + i + j) = false) (hmore : i + step < nblocks) :
    ScannedFrom bl h nblocks i r := by
  cases r with
  | none =>
    intro j hij hj
    rcases Nat.lt_or_ge j (i + step) with hlt | hge
    · have := hclear (j - i) (by omega)
      rwa [show h + i + (j - i) = h + j by omega] at this
    · exact hr j hge (by omega)
  | some x =>
    obtain ⟨j,hij,hj,hrest⟩ := hr
    exact ⟨j,by omega,by omega,hrest⟩

theorem isBlackListedLoop_spec (hpht : bl.phtEntries = 2 ^ k) (hi : i = 0 ∨ i < nblocks)
    (hfuel : nblocks < fuel + i) : ScannedFrom bl h nblocks i (isBlackListedLoop bl h nblocks fuel i) := by
  induction fuel generalizing i with
  | zero => omega
  | succ fuel ih =>
    rw [isBlackListedLoop]
    split
    · rename_i hzero
      have hclear : ∀ j < 64 - (h + i) % bl.phtEntries % 64, stackListed bl (h + i + j) = false :=
        fun j hj => stackListed_of_wordZero hpht hzero hj
      split
      · exact scannedFrom_none hclear (by omega) (by assumption)
      · exact (ih (by omega) (by omega)).skip hclear (by omega)
    · split
      · rename_i hset
        exact ⟨i,le_refl _,by omega,hset,rfl⟩
      · rename_i hset
        have hclear : ∀ j < 1, stackListed bl (h + i + j) = false := by
          intro j hj
          rw [show h + i + j = h + i by omega]
          simpa [stackListed] using hset
        split
        · exact scannedFrom_none hclear (by omega) (by assumption)
        · exact (ih (by omega) (by omega)).skip hclear (by omega)

/-- The lookup finds the tables without a bit for the hblks it looks at, or every start below its
result has a listed hblk among those that would be looked at. -/
theorem isBlackListed_spec (hpht : bl.phtEntries = 2 ^ k) (h len : Nat) :
    (isBlackListed bl h len = none ∧ ¬ ListedIn bl h (consulted len)) ∨
      ∃ x, isBlackListed bl h len = some x ∧ h < x ∧ ∀ s, h ≤ s → s < x → ListedIn bl s (consulted len) := by
  have hone : 0 < consulted len := by
    unfold consulted
    omega
  unfold isBlackListed
  dsimp only
  split
  · rename_i hstart
    refine .inr ⟨h + 1,rfl,by omega,fun s hs hlt => ?_⟩
    rw [show s = h by omega]
    exact .inl ⟨hone,hstart⟩
  · rename_i hstart
    have hspec : ScannedFrom bl h (divHblksz len) 0 _ :=
      isBlackListedLoop_spec hpht (.inl rfl) (Nat.lt_succ_self (divHblksz len))
    cases hr : isBlackListedLoop bl h (divHblksz len) (divHblksz len + 1) 0 with
    | none =>
      rw [hr] at hspec
      refine .inl ⟨rfl,?_⟩
      rintro (⟨_,hset⟩ | ⟨j,hj,hset⟩)
      · exact hstart hset
      · rw [hspec j (Nat.zero_le j) hj] at hset
        cases hset
    | some x =>
      rw [hr] at hspec
      obtain ⟨j,_,hj,hset,rfl⟩ := hspec
      refine .inr ⟨_,rfl,by omega,fun s hs hlt => .inr ⟨h + j - s,?_,?_⟩⟩
      · unfold consulted
        omega
      · rwa [show s + (h + j - s) = h + j by omega]

theorem isBlackListed_eq_none_iff (hpht : bl.phtEntries = 2 ^ k) {len : Nat} :
    isBlackListed bl h len = none ↔ ¬ ListedIn bl h (consulted len) := by
  rcases isBlackListed_spec hpht h len with ⟨hnone,hnot⟩ | ⟨x,hsome,hlt,hall⟩
  · simp [hnone,hnot]
  · simp [hsome,hall h (le_refl h) hlt]

end Scan

section Lookup

variable {bl : BlackLists} {h k len : Nat}

/-- What the lookup should do: it returns nothing exactly if no hblk that the `len` bytes reach
into is listed, and otherwise an hblk before which every start has a listed one. -/
structure ExactLookup (bl : BlackLists) (h len : Nat) : Prop where
  none_iff : isBlackListed bl h len = none ↔ ¬ ListedIn bl h (objSzToBlocks len)
  skips : ∀ x, isBlackListed bl h len = some x → h < x ∧ ∀ s, h ≤ s → s < x → ListedIn bl s (objSzToBlocks len)

/-- The hblks looked at decide for all that the bytes reach into: there is one, and where the last
one is reached into only in part and is listed, another one is listed too. -/
def WholeHblksDecide (bl : BlackLists) (h len : Nat) : Prop :=
  (len = 0 → ¬ ListedIn bl h 1) ∧
    (hblkSize < len → ¬ hblkSize ∣ len → stackListed bl (h + divHblksz len) = true → ListedIn bl h (divHblksz len))

theorem ListedIn.mono {m n : Nat} (hl : ListedIn bl h m) (hle : m ≤ n) : ListedIn bl h n := by
  rcases hl with ⟨hpos,hset⟩ | ⟨j,hj,hset⟩
  · exact .inl ⟨by omega,hset⟩
  · exact .inr ⟨j,by omega,hset⟩

theorem listedIn_succ {n : Nat} (hn : 0 < n) :
    ListedIn bl h (n + 1) ↔ ListedIn bl h n ∨ stackListed bl (h + n) = true := by
  constructor
  · rintro (⟨_,hset⟩ | ⟨j,hj,hset⟩)
    · exact .inl (.inl ⟨hn,hset⟩)
    · rcases Nat.lt_succ_iff_lt_or_eq.mp hj with hlt | rfl
      · exact .inl (.inr ⟨j,hlt,hset⟩)
      · exact .inr hset
  · rintro (hl | hset)
    · exact hl.mono (by omega)
    · exact .inr ⟨n,by omega,hset⟩

theorem not_listedIn_zero : ¬ ListedIn bl h 0 := by
  rintro (⟨hpos,_⟩ | ⟨j,hj,_⟩) <;> omega

theorem consulted_cases (len : Nat) :
    (len = 0 ∧ consulted len = 1 ∧ objSzToBlocks len = 0) ∨
    (0 < len ∧ (hblkSize ∣ len ∨ len ≤ hblkSize) ∧ objSzToBlocks len = consulted len) ∨
    (hblkSize < len ∧ ¬ hblkSize ∣ len ∧ 0 < divHblksz len ∧ consulted len = divHblksz len ∧
      objSzToBlocks len = divHblksz len + 1) := by
  unfold consulted objSzToBlocks divHblksz hblkSize
  omega

theorem wholeHblksDecide_iff :
    WholeHblksDecide bl h len ↔ (ListedIn bl h (consulted len) ↔ ListedIn bl h (objSzToBlocks len)) := by
  unfold WholeHblksDecide
  rcases consulted_cases len with ⟨hzero,hc,ho⟩ | ⟨hpos,hwhole,ho⟩ | ⟨hlong,hpart,hpos,hc,ho⟩
  · rw [hc,ho]
    simp [hzero,not_listedIn_zero]
  · rw [ho]
    simp only [iff_true]
    refine ⟨by omega,fun hlong hpart => ?_⟩
    rcases hwhole with hdvd | hle
    · exact absurd hdvd hpart
    · omega
  · rw [hc,ho,listedIn_succ hpos]
    have hne : len ≠ 0 := by omega
    simp only [hne,false_implies,true_and,hlong,hpart,not_false_eq_true,true_implies]
    constructor
    · intro hlast
      exact ⟨.inl,fun hl => hl.elim id hlast⟩
    · intro hiff hset
      exact hiff.mpr (.inr hset)

/-- The lookup is exact, also where the range wraps around the tables, if and only if the whole
hblks of the range decide. -/
theorem exactLookup_iff (hpht : bl.phtEntries = 2 ^ k) (h len : Nat) :
    ExactLookup bl h len ↔ WholeHblksDecide bl h len := by
  rw [wholeHblksDecide_iff]
  constructor
  · intro hexact
    have hnone := hexact.none_iff
    rw [isBlackListed_eq_none_iff hpht] at hnone
    exact not_iff_not.mp hnone
  · intro hsame
    refine ⟨by rw [isBlackListed_eq_none_iff hpht,hsame],fun x hx => ?_⟩
    rcases isBlackListed_spec hpht h len with ⟨hnone,_⟩ | ⟨y,hsome,hlt,hall⟩
    · rw [hnone] at hx
      cases hx
    · rw [hsome] at hx
      cases hx
      refine ⟨hlt,fun s hs hsx => ?_⟩
      rcases consulted_cases len with ⟨_,_,ho⟩ | ⟨_,_,ho⟩ | ⟨_,_,_,hc,ho⟩
      · -- an empty range is never listed, and then nothing is returned
        have hl := hsame.mp (hall h (le_refl h) hlt)
        rw [ho] at hl
        exact absurd hl not_listedIn_zero
      · rw [ho]
        exact hall s hs hsx
      · rw [ho,← hc]
        exact (hall s hs hsx).mono (by omega)

/-- Tables in which one index is listed for pointers from the stack. -/
def listing (index : Nat) : BlackLists where
  phtEntries := 2 ^ 15
  allInteriorPointers := true
  oldNormal _ := false
  incompleteNormal _ := false
  oldStack i := decide (i = index)
  incompleteStack _ := false

/-- Two hblks at the end of the tables, of which the second one hashes to their start. -/
theorem exactLookup_iff_wrapped :
    ExactLookup (listing 0) (2 ^ 15 - 1) (2 * hblkSize) ∧
      isBlackListed (listing 0) (2 ^ 15 - 1) (2 * hblkSize) = some (2 ^ 15 + 1) := by
  refine ⟨(@exactLookup_iff (listing 0) 15 rfl _ _).mpr ⟨fun h => absurd h (by decide),fun _ hpart => ?_⟩,by decide +kernel⟩
  exact absurd (Nat.dvd_mul_left _ _) hpart

/-- A range of one hblk and a part of the next one, which is listed. -/
theorem isBlackListed_misses_part :
    isBlackListed (listing 17) 16 6000 = none ∧ ListedIn (listing 17) 16 (objSzToBlocks 6000) :=
  ⟨by decide +kernel,.inr ⟨1,by decide,by decide⟩⟩

end Lookup

section Search

variable {bl : BlackLists} {k alignM1 searchEnd size last fuel p : Nat}

def GoodStart (bl : BlackLists) (size alignM1 p : Nat) : Prop :=
  alignM1 + 1 ∣ p * hblkSize ∧ isBlackListed bl p size = none

theorem padded_le (halign : alignM1 + 1 ∣ hblkSize ∨ hblkSize ∣ alignM1 + 1) {h : Nat}
    (hp : alignM1 + 1 ∣ p * hblkSize) (hle : h ≤ p) : h + divHblksz (alignPadSz h alignM1) ≤ p := by
  have hpad := alignPadSz_le hp (Nat.mul_le_mul_right hblkSize hle)
  rw [← alignPadSz_dvd halign,← Nat.add_mul] at hpad
  exact Nat.le_of_mul_le_mul_right hpad (by decide)

def LeastStart (bl : BlackLists) (searchEnd size alignM1 last : Nat) : Option Nat → Prop
  | none => ∀ p, last ≤ p → p * hblkSize ≤ searchEnd → ¬ GoodStart bl size alignM1 p
  | some x => last ≤ x ∧ x * hblkSize ≤ searchEnd ∧ GoodStart bl size alignM1 x ∧
      ∀ p, last ≤ p → GoodStart bl size alignM1 p → x ≤ p

section

variable (hpht : bl.phtEntries = 2 ^ k) (halign : alignM1 + 1 ∣ hblkSize ∨ hblkSize ∣ alignM1 + 1)
include hpht halign

theorem le_of_goodStart {next : Nat} (hnext : isBlackListed bl (last + divHblksz (alignPadSz last alignM1)) size = some next)
    (hlast : last ≤ p) (hp : GoodStart bl size alignM1 p) : next ≤ p := by
  have hle := padded_le halign hp.1 hlast
  by_contra hlt
  rcases isBlackListed_spec hpht (last + divHblksz (alignPadSz last alignM1)) size with
    ⟨hnone,_⟩ | ⟨x,hsome,_,hall⟩
  · rw [hnone] at hnext
    cases hnext
  · rw [hsome] at hnext
    cases hnext
    exact (isBlackListed_eq_none_iff hpht).mp hp.2 (hall p hle (by omega))

theorem findNonBlLoop_least (hend : alignM1 + 1 ∣ searchEnd)
    (hlast : last * hblkSize ≤ searchEnd) :
    Returns (searchEnd < (last + fuel) * hblkSize) (findNonBlLoop bl searchEnd size alignM1 fuel last)
      (LeastStart bl searchEnd size alignM1 last) := by
  induction fuel generalizing last with
  | zero =>
    rw [findNonBlLoop,returns_none,Nat.add_zero]
    omega
  | succ fuel ih =>
    rw [findNonBlLoop]
    split
    · rename_i hnone
      have hpad := alignPadSz_le hend hlast
      rw [← alignPadSz_dvd halign,← Nat.add_mul] at hpad
      rw [returns_some]
      exact ⟨by omega,hpad,⟨alignPadSz_hblk_aligned halign last,hnone⟩,
        fun p hle hp => padded_le halign hp.1 hle⟩
    · rename_i next hnext
      have hgt := isBlackListed_gt hnext
      split
      · rename_i hin
        refine (ih hin).mono (fun hlt => ?_) fun r hr => ?_
        · have hmore : last + (fuel + 1) ≤ next + fuel := by omega
          exact lt_of_lt_of_le hlt (Nat.mul_le_mul_right hblkSize hmore)
        · cases r with
          | none =>
            intro p hle hpend hp
            exact hr p (le_of_goodStart hpht halign hnext hle hp) hpend hp
          | some x =>
            obtain ⟨hx,hxend,hgood,hleast⟩ := hr
            exact ⟨by omega,hxend,hgood,
              fun p hle hp => hleast p (le_of_goodStart hpht halign hnext hle hp) hp⟩
      · rename_i hout
        rw [returns_some]
        intro p hle hpend hp
        have := Nat.mul_le_mul_right hblkSize (le_of_goodStart hpht halign hnext hle hp)
        omega

end

/-- The starts in the block of `sizeAvail` bytes at `n` at which a request fits, aligned and not
listed. -/
def Starts (bl : BlackLists) (n sizeNeeded sizeAvail effSizeNeeded alignM1 : Nat) : Set Nat :=
  {p | n ≤ p ∧ p * hblkSize + sizeNeeded ≤ n * hblkSize + sizeAvail ∧ GoodStart bl effSizeNeeded alignM1 p}

theorem mem_starts_iff {n sizeNeeded sizeAvail : Nat} (hle : sizeNeeded ≤ sizeAvail) :
    p ∈ Starts bl n sizeNeeded sizeAvail size alignM1 ↔
      n ≤ p ∧ p * hblkSize ≤ (n * hblkSize + (sizeAvail - sizeNeeded)) / (alignM1 + 1) * (alignM1 + 1) ∧
        GoodStart bl size alignM1 p := by
  have hfits : alignM1 + 1 ∣ p * hblkSize → (p * hblkSize + sizeNeeded ≤ n * hblkSize + sizeAvail ↔
      p * hblkSize ≤ (n * hblkSize + (sizeAvail - sizeNeeded)) / (alignM1 + 1) * (alignM1 + 1)) := by
    rintro ⟨c,hc⟩
    rw [hc,Nat.mul_comm (alignM1 + 1) c,Nat.mul_le_mul_right_iff (Nat.add_one_pos alignM1),
      Nat.le_div_iff_mul_le (Nat.add_one_pos alignM1)]
    omega
  constructor
  · rintro ⟨hn,hfit,hgood⟩
    exact ⟨hn,(hfits hgood.1).mp hfit,hgood⟩
  · rintro ⟨hn,hend,hgood⟩
    exact ⟨hn,(hfits hgood.1).mpr hend,hgood⟩

/-- `find_non_bl_hblk` returns with the lowest start for the request, or with none exactly if
there is none. -/
theorem findNonBlHblk_isLeast (hpht : bl.phtEntries = 2 ^ k) {n sizeNeeded sizeAvail : Nat} (effSizeNeeded : Nat)
    (halign : (alignM1 + 1).isPowerOfTwo) (hroom : sizeNeeded + alignPadSz n alignM1 ≤ sizeAvail)
    (hfuel : sizeAvail - sizeNeeded < fuel * hblkSize) :
    ∃ r, findNonBlHblk bl fuel n (sizeAvail - sizeNeeded) effSizeNeeded alignM1 = some r ∧
      (∀ x, r = some x ↔ IsLeast (Starts bl n sizeNeeded sizeAvail effSizeNeeded alignM1) x) ∧
      (r = none ↔ Starts bl n sizeNeeded sizeAvail effSizeNeeded alignM1 = ∅) := by
  have hsound : alignM1 + 1 ∣ hblkSize ∨ hblkSize ∣ alignM1 + 1 :=
    (@sound_of_isPowerOfTwo ⟨1,0,false,alignM1⟩ Nat.one_pos halign).align
  have hle : sizeNeeded ≤ sizeAvail := by omega
  have hstart := le_searchEnd (show alignPadSz n alignM1 ≤ sizeAvail - sizeNeeded by omega)
  have hdown := Nat.div_mul_le_self (n * hblkSize + (sizeAvail - sizeNeeded)) (alignM1 + 1)
  obtain ⟨r,hr,hleast⟩ := (findNonBlLoop_least hpht hsound (Nat.dvd_mul_left _ _) hstart).some_of
    (show _ < (n + fuel) * hblkSize by rw [Nat.add_mul]; omega)
  refine ⟨r,hr,?_⟩
  cases r with
  | none =>
    have hempty : Starts bl n sizeNeeded sizeAvail effSizeNeeded alignM1 = ∅ := by
      ext p
      rw [mem_starts_iff hle]
      simp only [Set.mem_empty_iff_false,iff_false]
      rintro ⟨hn,hpend,hgood⟩
      exact hleast p hn hpend hgood
    refine ⟨fun x => ?_,by simp [hempty]⟩
    simp [hempty,IsLeast]
  | some y =>
    obtain ⟨hn,hyend,hgood,hbelow⟩ := hleast
    have hy : IsLeast (Starts bl n sizeNeeded sizeAvail effSizeNeeded alignM1) y :=
      ⟨(mem_starts_iff hle).mpr ⟨hn,hyend,hgood⟩,fun p hp => hbelow p hp.1 hp.2.2⟩
    refine ⟨fun x => ⟨fun hx => ?_,fun hx => ?_⟩,?_⟩
    · cases hx
      exact hy
    · rw [hy.unique hx]
    · simp only [reduceCtorEq,false_iff]
      exact Set.Nonempty.ne_empty ⟨y,hy.1⟩

/-- Two of the four hblks at 16, of which 17 is listed. -/
theorem findNonBlHblk_isLeast_afterListed :
    IsLeast (Starts (listing 17) 16 (2 * hblkSize) (4 * hblkSize) (2 * hblkSize) 0) 18 := by
  obtain ⟨r,hr,hleast,_⟩ := @findNonBlHblk_isLeast (listing 17) 15 0 3 rfl 16 (2 * hblkSize) (4 * hblkSize)
    (2 * hblkSize) ⟨0,rfl⟩ (by decide) (by decide)
  have hfound : findNonBlHblk (listing 17) 3 16 (4 * hblkSize - 2 * hblkSize) (2 * hblkSize) 0 = some (some 18) := by
    decide +kernel
  rw [hfound] at hr
  exact (hleast 18).mp (Option.some.inj hr).symm

end Search

end GcUtil.Block.BlackListing
