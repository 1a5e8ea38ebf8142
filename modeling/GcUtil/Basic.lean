import Mathlib

/-! Sizes of the 64-bit configuration and the record of a heap section. An hblk
is named by its number, the address divided by `hblkSize`. -/
namespace GcUtil.Basic

def hblkSize : Nat := 4096

def divHblksz (n : Nat) : Nat := n / hblkSize

def objSzToBlocks (lb : Nat) : Nat := divHblksz (lb + hblkSize - 1)

def sizetSignb : Nat := 2 ^ 63

/-- `GC_WORD_MAX`, also `GC_SIZE_MAX`. -/
def wordMax : Nat := 2 ^ 64 - 1

/-- `SIZET_SAT_ADD`. -/
def sizetSatAdd (a b : Nat) : Nat := if a < wordMax - b then a + b else wordMax

def alignment : Nat := 8

def granuleBytes : Nat := 16

def maxObjBytes : Nat := hblkSize / 2

def maxObjGranules : Nat := maxObjBytes / granuleBytes

def ptrfree : Nat := 0
def normal : Nat := 1
def uncollectable : Nat := 2
def auncollectable : Nat := 3

def isUncollectable (kind : Nat) : Bool := kind / 2 * 2 == uncollectable

theorem isUncollectable_iff {kind : Nat} :
    isUncollectable kind = true ↔ kind = uncollectable ∨ kind = auncollectable := by
  simp only [isUncollectable,uncollectable,auncollectable,beq_iff_eq]
  omega

/-- `HBLK_PAGE_ALIGNED`, for a page of `pageHblks` hblks. -/
def hblkPageAligned (pageHblks h : Nat) : Nat := h / pageHblks * pageHblks

def wordAdd (a b : Nat) : Nat := (a + b) % (wordMax + 1)

def wordSub (a b : Nat) : Nat := (a + (wordMax + 1 - b)) % (wordMax + 1)

/-- `GC_heap_sects[i]`. -/
structure HeapSect where
  hsStart : Nat
  hsBytes : Nat
deriving DecidableEq, Repr

def HeapSect.Contains (sect : HeapSect) (a : Nat) : Prop :=
  sect.hsStart ≤ a ∧ a < sect.hsStart + sect.hsBytes

instance (sect : HeapSect) (a : Nat) : Decidable (sect.Contains a) :=
  inferInstanceAs (Decidable (_ ∧ _))

theorem wordAdd_of_le {a b : Nat} (h : a + b ≤ wordMax) : wordAdd a b = a + b :=
  Nat.mod_eq_of_lt (Nat.lt_succ_of_le h)

theorem wordSub_of_le {a b : Nat} (hle : b ≤ a) (ha : a ≤ wordMax) : wordSub a b = a - b := by
  unfold wordSub
  have hsplit : a + (wordMax + 1 - b) = a - b + (wordMax + 1) := by omega
  rw [hsplit,Nat.add_mod_right]
  apply Nat.mod_eq_of_lt
  omega

theorem objSzToBlocks_pos {lb : Nat} (h : 0 < lb) : 0 < objSzToBlocks lb := by
  unfold objSzToBlocks divHblksz hblkSize
  omega

theorem objSzToBlocks_mul (n : Nat) : objSzToBlocks (n * hblkSize) = n := by
  unfold objSzToBlocks divHblksz hblkSize
  omega

theorem objSzToBlocks_of_dvd {sz : Nat} (h : hblkSize ∣ sz) : objSzToBlocks sz * hblkSize = sz := by
  unfold objSzToBlocks divHblksz hblkSize at *
  omega

end GcUtil.Basic
