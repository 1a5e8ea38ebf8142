import GcUtil.Basic

/-! Cords as values: the nodes of the representation, the string that a cord denotes
and what makes a cord well formed. A client function is its values. -/
namespace GcUtil.Cords.Nodes
open Basic

/-- The `fn` and the `client_data` of a function node. Those of a substring node are one of the two
access functions with its `substr_args`, whose `sa_cord` is a string or a function node. -/
inductive CordFn where
  | client (fn : Nat → UInt8)
  | indexAccess (saCord : List UInt8) (saIndex : Nat)
  | applyAccess (saCord : CordFn) (saIndex : Nat)

def CordFn.call : CordFn → Nat → UInt8
  | client fn, i => fn i
  | indexAccess saCord saIndex, i => saCord.getD (wordAdd i saIndex) 0
  | applyAccess saCord saIndex, i => saCord.call (wordAdd i saIndex)

/-- `CORD`; `concat` and `function` are the two kinds of `CordRep`, with the fields of its
`generic` part that each kind uses. -/
inductive Cord where
  | empty
  | string (s : List UInt8)
  | concat (len : Nat) (depth : Int) (leftLen : Nat) (left right : Cord)
  | function (len : Nat) (fn : CordFn)

def toChar (n : Int) : Int := (n + 128) % 256 - 128

namespace Cord

def isString : Cord → Bool
  | string _ => true
  | _ => false

def isEmpty : Cord → Bool
  | empty => true
  | _ => false

/-- `GEN_LEN`, which is `LEN` of a `CordRep`. -/
def genLen : Cord → Nat
  | empty => 0
  | string s => s.length
  | concat len _ _ _ _ => len
  | function len _ => len

def depth : Cord → Int
  | concat _ depth _ _ _ => depth
  | _ => 0

def cordLen (x : Cord) : Nat := if x.isEmpty then 0 else x.genLen

def denote : Cord → List UInt8
  | empty => []
  | string s => s
  | concat _ _ _ left right => left.denote ++ right.denote
  | function len fn => (List.range len).map fn.call

def height : Cord → Nat
  | concat _ _ _ left right => 1 + max left.height right.height
  | _ => 0

def WellFormed : Cord → Prop
  | empty => True
  | string s => s ≠ [] ∧ 0 ∉ s
  | concat len depth leftLen left right =>
    left.WellFormed ∧ right.WellFormed ∧ left.isEmpty = false ∧ right.isEmpty = false ∧
      len = left.genLen + right.genLen ∧ (leftLen = 0 ∨ leftLen = left.genLen) ∧
      depth = 1 + max left.depth right.depth
  | function len _ => 0 < len

instance decidableWellFormed : (x : Cord) → Decidable x.WellFormed
  | empty => inferInstanceAs (Decidable True)
  | string s => inferInstanceAs (Decidable (s ≠ [] ∧ 0 ∉ s))
  | concat _ _ _ left right =>
    have := decidableWellFormed left
    have := decidableWellFormed right
    inferInstanceAs (Decidable (_ ∧ _))
  | function len _ => inferInstanceAs (Decidable (0 < len))

theorem isEmpty_iff (x : Cord) : x.isEmpty = true ↔ x = empty := by
  cases x <;> simp [isEmpty]

section

variable {x : Cord} (h : x.WellFormed)
include h

theorem depth_eq_height : x.depth = x.height := by
  induction x with
  | concat len d leftLen left right ihl ihr =>
    simp only [WellFormed] at h
    have hl := ihl h.1
    have hr := ihr h.2.1
    simp only [depth,height]
    omega
  | _ => rfl

theorem genLen_eq_length : x.genLen = x.denote.length := by
  induction x with
  | concat len d leftLen left right ihl ihr =>
    simp only [WellFormed] at h
    have hlen : len = left.genLen + right.genLen := h.2.2.2.2.1
    simp only [genLen,denote,List.length_append]
    rw [hlen,ihl h.1,ihr h.2.1]
  | _ => simp [genLen,denote]

theorem cordLen_eq_length : x.cordLen = x.denote.length := by
  rw [← genLen_eq_length h]
  cases x <;> rfl

/-- A cord that is not empty has more characters than nested concatenations. -/
theorem height_lt_length (hne : x.isEmpty = false) :
    x.height < x.denote.length := by
  induction x with
  | empty => cases hne
  | string s => exact List.length_pos_iff.mpr h.1
  | concat len d leftLen left right ihl ihr =>
    simp only [WellFormed] at h
    have hl := ihl h.1 h.2.2.1
    have hr := ihr h.2.1 h.2.2.2.1
    simp only [height,denote,List.length_append]
    omega
  | function len fn =>
    simp only [height,denote,List.length_map,List.length_range]
    exact h

end

end Cord

theorem toChar_of_le {n : Nat} (h : n ≤ 127) : toChar n = n := by
  unfold toChar
  omega

end GcUtil.Cords.Nodes
