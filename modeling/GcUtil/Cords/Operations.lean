import GcUtil.Cords.Nodes

/-! The constructors of cords and their balancing. `CORD_cat`, `CORD_cat_char_star` and
`CORD_balance` call each other: the functions of one round take the `bal` that an over-deep
result is handed to, and `balance` ties the knot with a bound on how deep the calls nest.
Allocation succeeds. -/
namespace GcUtil.Cords.Operations
open Basic Nodes

/-- Why nothing comes back: the abort of `CORD_init_forest`, another one, an access outside the
initialised part of an array, or calls nested beyond the bound. -/
inductive Stop where
  | tooLong
  | abort (msg : String)
  | outOfBounds
  | noReturn
deriving DecidableEq, Repr

abbrev Result := Except Stop

def shortLimit : Nat := 31

def maxLeftLen : Nat := 255

def cordMaxDepth : Nat := 48

def copyCharSubstr (s : List UInt8) (len : Nat) : List UInt8 := s.take len

def catCharSubstr (x : List UInt8) (lenX : Nat) (y : List UInt8) (lenY : Nat) : List UInt8 :=
  x.take lenX ++ y.take lenY

/-- `y[len_y] == '\0' ? y : copy_char_substr(y, len_y)`. -/
def terminated (y : List UInt8) (lenY : Nat) : List UInt8 :=
  if y.getD lenY 0 = 0 then y else copyCharSubstr y lenY

section Constructors
variable (bal : Cord → Result Cord)

def general (x y : Cord) (lenX resultLen : Nat) (depth : Int) : Result Cord :=
  let result := Cord.concat resultLen (toChar depth) (if lenX ≤ maxLeftLen then lenX else 0) x y
  if depth ≥ cordMaxDepth then bal result else .ok result

def rightStringLen (lenX leftLen : Nat) (left : Cord) (right : List UInt8) : Nat :=
  if !left.isString then wordSub lenX left.genLen
  else if leftLen ≠ 0 then wordSub lenX leftLen
  else right.length

def catCharStar (x : Cord) (y : List UInt8) (lenY : Nat) : Result Cord :=
  if lenY = 0 then .ok x
  else
    match x with
    | .empty => .ok (.string (terminated y lenY))
    | .string s =>
      let resultLen := wordAdd s.length lenY
      if resultLen ≤ shortLimit then .ok (.string (catCharSubstr s s.length y lenY))
      else general bal x (.string (terminated y lenY)) s.length resultLen 1
    | .concat lenX depth leftLen left (.string right) =>
      let rightLen := rightStringLen lenX leftLen left right
      let resultLen := wordAdd rightLen lenY
      if lenY ≤ shortLimit / 2 ∧ resultLen ≤ shortLimit then
        -- `y` is merged into the right part of `x`
        general bal left (.string (catCharSubstr right rightLen y lenY)) (wordSub lenX rightLen)
          (wordAdd (wordSub lenX rightLen) resultLen) (if left.isString then 1 else left.depth + 1)
      else
        general bal x (.string (terminated y lenY)) lenX (wordAdd lenX lenY) (depth + 1)
    | x => general bal x (.string (terminated y lenY)) x.genLen (wordAdd x.genLen lenY) (x.depth + 1)

def cat (x y : Cord) : Result Cord :=
  match x, y with
  | .empty, y => .ok y
  | x, .empty => .ok x
  | x, .string s => catCharStar bal x s s.length
  | .string s, y => general bal (.string s) y s.length (wordAdd s.length y.genLen) (y.depth + 1)
  | x, y =>
    let depth := x.depth + 1
    general bal x y x.genLen (wordAdd x.genLen y.genLen)
      (if y.depth ≥ depth then y.depth + 1 else depth)

end Constructors

def fromFn (fn : CordFn) (len : Nat) : Cord :=
  if len = 0 then .empty
  else
    let buf := (List.range len).map fn.call
    if len ≤ shortLimit ∧ 0 ∉ buf then .string (copyCharSubstr buf len) else .function len fn

/-- The pair `previous`, `last` of `CORD_init_min_len` when the loop gets to the element
after `i + 1`. -/
def minLenPair : Nat → Nat × Nat
  | 0 => (1, 2)
  | i + 1 =>
    let (previous, last) := minLenPair i
    (last, if last < wordMax - previous then last + previous else last)

def minLen (i : Nat) : Nat := (minLenPair i).1

def readMinLen (i : Nat) : Result Nat :=
  if i < cordMaxDepth then .ok (minLen i) else .error .outOfBounds

structure ForestElement where
  c : Cord
  len : Nat

abbrev Forest := List ForestElement

def vacant : ForestElement := ⟨.empty, 0⟩

def readSlot (forest : Forest) (i : Nat) : Result ForestElement :=
  match forest[i]? with
  | some e => .ok e
  | none => .error .outOfBounds

def writeSlot (forest : Forest) (i : Nat) (e : ForestElement) : Result Forest :=
  if i < forest.length then .ok (forest.set i e) else .error .outOfBounds

/-- `CORD_init_forest`: an element for each index up to the first whose `min_len` is above
`maxLen`. -/
def initForest (maxLen : Nat) : Result Forest :=
  match (List.range cordMaxDepth).find? fun i => minLen i > maxLen with
  | some i => .ok (List.replicate (i + 1) vacant)
  | none => .error .tooLong

structure Walk where
  forest : Forest
  i : Nat
  sum : Cord
  sumLen : Nat

/-- The end of `CORD_add_forest`: the sum goes to the element before the index. -/
def placeSum (w : Walk) : Result Forest :=
  match w.i with
  | 0 => .error .outOfBounds
  | i + 1 => writeSlot w.forest i ⟨w.sum, w.sumLen⟩

section Balancing
variable (bal : Cord → Result Cord)

def takeIn (e : ForestElement) (sum : Cord) (sumLen : Nat) : Result (Cord × Nat) :=
  if e.c.isEmpty then .ok (sum, sumLen)
  else do return (← cat bal e.c sum, wordAdd sumLen e.len)

def absorb (w : Walk) : Result Walk := do
  let e ← readSlot w.forest w.i
  let (sum, sumLen) ← takeIn bal e w.sum w.sumLen
  return {
    forest := w.forest.set w.i { e with c := .empty }
    i := w.i + 1
    sum := sum
    sumLen := sumLen }

/-- The first loop of `CORD_add_forest`. The number counts the elements of `min_len` from
the index on. -/
def gather (len : Nat) : Nat → Walk → Result Walk
  | 0, _ => .error .outOfBounds
  | n + 1, w => do
    if len > (← readMinLen (w.i + 1)) then gather len n (← absorb bal w) else return w

def settle : Nat → Walk → Result Walk
  | 0, _ => .error .outOfBounds
  | n + 1, w => do
    if w.sumLen ≥ (← readMinLen w.i) then settle n (← absorb bal w) else return w

def addForest (forest : Forest) (x : Cord) (len : Nat) : Result Forest := do
  let w ← gather bal len cordMaxDepth ⟨forest, 0, .empty, 0⟩
  let sum ← cat bal w.sum x
  placeSum (← settle bal (cordMaxDepth + 1) { w with sum := sum, sumLen := wordAdd w.sumLen len })

/-- The loop of `CORD_concat_forest`; unlike the others it leaves the trees where they are. -/
def concatLoop (forest : Forest) (expectedLen : Nat) : Nat → Nat → Cord → Nat → Result Cord
  | 0, _, _, _ => .error .outOfBounds
  | n + 1, i, sum, sumLen => do
    if sumLen = expectedLen then return sum
    let (sum, sumLen) ← takeIn bal (← readSlot forest i) sum sumLen
    concatLoop forest expectedLen n (i + 1) sum sumLen

def concatForest (forest : Forest) (expectedLen : Nat) : Result Cord :=
  concatLoop bal forest expectedLen (cordMaxDepth + 1) 0 .empty 0

def leftLenOf (len leftLen : Nat) (left right : Cord) : Nat :=
  if leftLen ≠ 0 then leftLen
  else if left.isString then wordSub len right.genLen
  else left.genLen

/-- `(depth = DEPTH(x)) >= CORD_MAX_DEPTH || len < min_len[depth]`. -/
def unbalanced (depth : Int) (len : Nat) : Result Bool :=
  if depth ≥ cordMaxDepth then .ok true
  else if depth < 0 then .error .outOfBounds
  else do return decide (len < (← readMinLen depth.toNat))

def balanceInsert : Cord → Nat → Forest → Result Forest
  | .concat xlen depth leftLen left right, len, forest => do
    if ← unbalanced depth len then
      let left_len := leftLenOf xlen leftLen left right
      balanceInsert right (wordSub len left_len) (← balanceInsert left left_len forest)
    else addForest bal forest (.concat xlen depth leftLen left right) len
  | x, len, forest => addForest bal forest x len

def balanceStep (x : Cord) : Result Cord :=
  match x with
  | .empty => .ok x
  | .string _ => .ok x
  | x => do
    let forest ← initForest x.genLen
    concatForest bal (← balanceInsert bal x x.genLen forest) x.genLen

end Balancing

/-- `CORD_balance`, when its activations nest less than `fuel` deep. -/
def balance : Nat → Cord → Result Cord
  | 0, _ => .error .noReturn
  | fuel + 1, x => balanceStep (balance fuel) x

end GcUtil.Cords.Operations
