import GcUtil.Cords.Balancing

/-! Positions in a cord: the path to the current leaf, and the characters around the current one
that can be read without it. Those of a function node are a window that `CORD__next` fills, and
that `CORD__prev` does not give up when it moves to the character before it. -/
namespace GcUtil.Cords.Positions
open Basic Nodes Operations Concatenation Balancing List

/-- `struct CORD_pe`. -/
structure PathEntry where
  cord : Cord
  startPos : Nat

/-- `CORD_pos`. The path is the array from `path[path_len]` down to `path[0]`, and `valid` tells
whether `path_len` is not `CORD_POS_INVALID`. -/
structure Pos where
  curPos : Nat
  valid : Bool
  path : List PathEntry
  curLeaf : List UInt8
  curStart : Nat
  curEnd : Nat

section Model

def functionBufSz : Nat := 8

def push (pe : PathEntry) (path : List PathEntry) : Result (List PathEntry) :=
  if path.length < cordMaxDepth + 1 then .ok (pe :: path) else .error .outOfBounds

/-- The loop of `CORD_extend_path`; the length of the last entry comes with the path. -/
def descend (pos : Nat) : Cord → Nat → Nat → List PathEntry → Result (List PathEntry × Nat)
  | .concat len _ leftLen left right, topPos, topLen, path =>
    let leftLen' := leftLenOf len leftLen left right
    let rightPos := wordAdd topPos leftLen'
    if pos ≥ rightPos then
      push ⟨right, rightPos⟩ path >>= descend pos right rightPos (wordSub topLen leftLen')
    else push ⟨left, topPos⟩ path >>= descend pos left topPos leftLen'
  | _, _, topLen, path => .ok (path, topLen)

def extendPath (p : Pos) : Result Pos := do
  let pe :: _ := p.path | .error .outOfBounds
  let (path, topLen) ← descend p.curPos pe.cord pe.startPos pe.cord.genLen p.path
  let pe :: _ := path | .error .outOfBounds
  let p := { p with path := path, valid := decide (p.curPos < wordAdd pe.startPos topLen) }
  match pe.cord with
  | .string s =>
    return { p with curLeaf := s, curStart := pe.startPos, curEnd := wordAdd pe.startPos topLen }
  | _ => return { p with curEnd := 0 }

/-- `CORD__pos_fetch`. -/
def posFetchHard (p : Pos) : Result UInt8 :=
  if !p.valid then .error (.abort "CORD_pos_fetch: invalid argument")
  else
    match p.path with
    | ⟨.function _ fn, startPos⟩ :: _ => .ok (fn.call (wordSub p.curPos startPos))
    | _ => .error (.abort "CORD_pos_fetch: bad leaf")

def posFetch (p : Pos) : Result UInt8 :=
  if p.curEnd ≠ 0 then
    match p.curLeaf[wordSub p.curPos p.curStart]? with
    | some c => .ok c
    | none => .error .outOfBounds
  else posFetchHard p

/-- The characters from the current one on are taken from the function. -/
def fillWindow (p : Pos) (fn : CordFn) (startPos endPos : Nat) : Pos :=
  let limit := if endPos - p.curPos < functionBufSz then endPos - p.curPos else functionBufSz
  { p with
    curLeaf := (List.range limit).map fun i => fn.call (wordSub (wordAdd i p.curPos) startPos)
    curStart := p.curPos
    curEnd := wordAdd p.curPos limit }

/-- Pop the path while the start positions of an entry and the one above it are as `differ` says. -/
def popWhile (differ : Bool) : List PathEntry → List PathEntry
  | pe :: parent :: rest =>
    if decide (pe.startPos ≠ parent.startPos) = differ then popWhile differ (parent :: rest)
    else pe :: parent :: rest
  | path => path

def leaveLeaf (p : Pos) : Result Pos :=
  match popWhile true p.path with
  | _ :: parent :: rest => extendPath { p with path := parent :: rest }
  | _ => .ok { p with valid := false }

/-- `CORD__next`. -/
def nextHard (p : Pos) : Result Pos :=
  if !p.valid then .error (.abort "CORD_next: invalid argument")
  else
    let q := { p with curPos := wordAdd p.curPos 1 }
    match p.path with
    | [] => .error .outOfBounds
    | ⟨.function len fn, startPos⟩ :: _ =>
      if q.curPos < wordAdd startPos len then .ok (fillWindow q fn startPos (wordAdd startPos len))
      else leaveLeaf q
    | _ => leaveLeaf q

def next (p : Pos) : Result Pos :=
  if wordAdd p.curPos 1 < p.curEnd then .ok { p with curPos := wordAdd p.curPos 1 } else nextHard p

/-- `CORD__prev`. -/
def prevHard (p : Pos) : Result Pos :=
  if p.curPos = 0 then .ok { p with valid := false }
  else if !p.valid then .error .outOfBounds
  else
    let q := { p with curPos := p.curPos - 1 }
    match p.path with
    | [] => .error .outOfBounds
    | pe :: _ =>
      if q.curPos ≥ pe.startPos then .ok q
      else extendPath { q with path := (popWhile false p.path).tail }

def prev (p : Pos) : Result Pos :=
  if p.curEnd ≠ 0 ∧ p.curPos > p.curStart then .ok { p with curPos := p.curPos - 1 } else prevHard p

def setPos (p : Pos) (x : Cord) (i : Nat) : Result Pos :=
  if x.isEmpty then .ok { p with valid := false }
  else extendPath { p with path := [⟨x, 0⟩], valid := true, curPos := i }

end Model

/-- The entries lead from `x` at position 0 to the first one, each a part of the next with the
position where the part begins. -/
inductive Trail (x : Cord) : List PathEntry → Prop
  | root : Trail x [⟨x, 0⟩]
  | left {len : Nat} {depth : Int} {leftLen start : Nat} {left right : Cord} {rest : List PathEntry}
      (h : Trail x (⟨.concat len depth leftLen left right, start⟩ :: rest)) :
      Trail x (⟨left, start⟩ :: ⟨.concat len depth leftLen left right, start⟩ :: rest)
  | right {len : Nat} {depth : Int} {leftLen start : Nat} {left right : Cord} {rest : List PathEntry}
      (h : Trail x (⟨.concat len depth leftLen left right, start⟩ :: rest)) :
      Trail x (⟨right, start + left.denote.length⟩ :: ⟨.concat len depth leftLen left right, start⟩ :: rest)

/-- The entry `⟨c, start⟩` with `n` entries above it is a part of `x`. -/
structure PartOf (x c : Cord) (start n : Nat) : Prop where
  kept : Kept c
  pos : 0 < c.denote.length
  stop : start + c.denote.length ≤ x.denote.length
  depth : n + c.height ≤ x.height
  get : ∀ k < c.denote.length, x.denote[start + k]? = c.denote[k]?

/-- The position is at a character of the leaf `c` that its path leads to. -/
structure Located (x : Cord) (p : Pos) (c : Cord) (start : Nat) (rest : List PathEntry) : Prop where
  valid : p.valid = true
  path : p.path = ⟨c, start⟩ :: rest
  trail : Trail x (⟨c, start⟩ :: rest)
  leaf : c.height = 0
  begun : start ≤ p.curPos
  stop : p.curPos < start + c.denote.length
  string : c.isString = true → p.curStart = start ∧ p.curEnd = start + c.denote.length
  window : p.curEnd ≠ 0 → start ≤ p.curStart ∧ p.curPos < p.curEnd ∧
    p.curEnd ≤ start + c.denote.length ∧
    p.curLeaf = (c.denote.drop (p.curStart - start)).take (p.curEnd - p.curStart)

/-- The current character is in the window, or is fetched without it. -/
def Fresh (p : Pos) : Prop := p.curEnd ≠ 0 → p.curStart ≤ p.curPos

/-- A position from which characters of `x` can be fetched. -/
def Ready (x : Cord) (p : Pos) : Prop := Fresh p ∧ ∃ c start rest, Located x p c start rest

variable {x c : Cord} {p : Pos} {rest path : List PathEntry} {i n start : Nat}

section Paths

section Parts
variable {len leftLen : Nat} {depth : Int} {left right : Cord}

theorem PartOf.left_part (h : PartOf x (.concat len depth leftLen left right) start n) :
    PartOf x left start (n + 1) := by
  obtain ⟨hkept,-,hstop,hdepth,hget⟩ := h
  simp only [Cord.denote,Cord.height,length_append] at hstop hdepth hget
  refine ⟨kept_left hkept,length_pos hkept.wf.1 hkept.wf.2.2.1,by omega,by omega,fun k hk => ?_⟩
  rw [hget k (by omega)]
  exact List.getElem?_append_left hk

theorem PartOf.right_part (h : PartOf x (.concat len depth leftLen left right) start n) :
    PartOf x right (start + left.denote.length) (n + 1) := by
  obtain ⟨hkept,-,hstop,hdepth,hget⟩ := h
  simp only [Cord.denote,Cord.height,length_append] at hstop hdepth hget
  refine ⟨kept_right hkept,length_pos hkept.wf.2.1 hkept.wf.2.2.2.1,by omega,by omega,fun k hk => ?_⟩
  rw [Nat.add_assoc,hget _ (by omega),List.getElem?_append_right (Nat.le_add_right _ _),
    Nat.add_sub_cancel_left]

end Parts

variable (hx : Kept x) (hpos : 0 < x.denote.length)
include hx hpos

section

variable (h : Trail x (⟨c, start⟩ :: rest))
include h

theorem Trail.partOf : PartOf x c start rest.length := by
  generalize hpath : ⟨c,start⟩ :: rest = path at h
  induction h generalizing c start rest with
  | root =>
    cases hpath
    exact ⟨hx,hpos,by simp,by simp,by simp⟩
  | left _ ih =>
    cases hpath
    exact (ih rfl).left_part
  | right _ ih =>
    cases hpath
    exact (ih rfl).right_part

theorem descend_spec (hstart : start ≤ i) :
    ∃ leaf leafPos above, descend i c start c.denote.length (⟨c, start⟩ :: rest) =
        .ok (⟨leaf, leafPos⟩ :: above, leaf.denote.length) ∧
      Trail x (⟨leaf, leafPos⟩ :: above) ∧ leaf.height = 0 ∧ leafPos ≤ i ∧
      (i < leafPos + leaf.denote.length ↔ i < start + c.denote.length) := by
  induction c generalizing start rest with
  | concat len depth leftLen left right ihl ihr =>
    have hpart := h.partOf hx hpos
    have hstop := hpart.stop
    have hmax := hx.length_le
    have hdepth := hpart.depth
    have hheight := hx.height
    simp only [Cord.denote,Cord.height,length_append] at hstop hdepth ⊢
    have hroom : (⟨.concat len depth leftLen left right,start⟩ :: rest : List PathEntry).length <
        cordMaxDepth + 1 := by
      rw [length_cons]
      omega
    rw [descend,leftLenOf_eq hpart.kept.wf hpart.kept.len,wordAdd_of_le (by omega),
      wordSub_of_le (by omega) (by omega),Nat.add_sub_cancel_left]
    simp only [push,if_pos hroom]
    split
    · case isTrue hright =>
      obtain ⟨leaf,leafPos,above,hd,htrail,hleaf,hle,hiff⟩ := ihr (.right h) hright
      exact ⟨leaf,leafPos,above,hd,htrail,hleaf,hle,hiff.trans (by omega)⟩
    · case isFalse hleft =>
      obtain ⟨leaf,leafPos,above,hd,htrail,hleaf,hle,hiff⟩ := ihl (.left h) hstart
      exact ⟨leaf,leafPos,above,hd,htrail,hleaf,hle,hiff.trans (by omega)⟩
  | _ => exact ⟨_,start,rest,rfl,h,rfl,hstart,Iff.rfl⟩

/-- A path that leads to the current position or to one before it is extended to a leaf. -/
theorem extendPath_spec (hpath : p.path = ⟨c, start⟩ :: rest)
    (hstart : start ≤ p.curPos) :
    ∃ q, extendPath p = .ok q ∧ q.curPos = p.curPos ∧
      q.valid = decide (p.curPos < start + c.denote.length) ∧
      (p.curPos < start + c.denote.length → Ready x q) := by
  obtain ⟨leaf,leafPos,above,hd,htrail,hleaf,hle,hiff⟩ := descend_spec hx hpos h hstart
  have hpart := htrail.partOf hx hpos
  have hmax := hx.length_le
  have hstop := hpart.stop
  have hlength := hpart.pos
  have hsum : wordAdd leafPos leaf.denote.length = leafPos + leaf.denote.length := wordAdd_of_le (by omega)
  rw [← Cord.genLen_eq_length (h.partOf hx hpos).kept.wf] at hd
  rw [← decide_eq_decide.mpr hiff,← hiff]
  simp only [extendPath,hpath]
  change ∃ q, (descend p.curPos c start c.genLen (⟨c,start⟩ :: rest) >>= _) = .ok q ∧ _
  rw [hd]
  change ∃ q, (match leaf with
    | .string s => .ok _
    | _ => .ok _) = Except.ok q ∧ _
  rw [hsum]
  cases leaf with
  | concat len depth leftLen left right => simp [Cord.height] at hleaf
  | empty => cases hlength
  | string s =>
    refine ⟨_,rfl,rfl,rfl,fun hin => ⟨fun _ => hle,.string s,leafPos,above,?_⟩⟩
    refine ⟨decide_eq_true hin,rfl,htrail,rfl,hle,hin,fun _ => ⟨rfl,rfl⟩,
      fun _ => ⟨le_rfl,hin,le_rfl,?_⟩⟩
    rw [Nat.sub_self,drop_zero,Nat.add_sub_cancel_left,Cord.denote,take_length]
  | function len fn =>
    refine ⟨_,rfl,rfl,rfl,fun hin => ⟨fun h => absurd rfl h,.function len fn,leafPos,above,?_⟩⟩
    exact ⟨decide_eq_true hin,rfl,htrail,rfl,hle,hin,fun h => (by cases h),fun h => absurd rfl h⟩

/-- At the end of a part it is the end of the cord, or the part ends a left one. -/
theorem popWhile_true :
    ∃ top above, popWhile true (⟨c, start⟩ :: rest) = top :: above ∧
      (above = [] ∧ start + c.denote.length = x.denote.length ∨
        ∃ parent from' rest', above = ⟨parent, from'⟩ :: rest' ∧ Trail x above ∧ from' ≤ start ∧
          start + c.denote.length < from' + parent.denote.length) := by
  generalize hpath : ⟨c,start⟩ :: rest = path at h
  induction h generalizing c start rest with
  | root =>
    cases hpath
    exact ⟨_,[],rfl,.inl ⟨rfl,Nat.zero_add _⟩⟩
  | @left len depth leftLen start left right rest h ih =>
    cases hpath
    have hright := (h.partOf hx hpos).right_part.pos
    refine ⟨⟨left,start⟩,_,by simp [popWhile],.inr ⟨_,start,rest,rfl,h,le_rfl,?_⟩⟩
    rw [Cord.denote,length_append]
    omega
  | @right len depth leftLen start left right rest h ih =>
    cases hpath
    have hne : start + left.denote.length ≠ start := by
      have := (h.partOf hx hpos).left_part.pos
      omega
    obtain ⟨top,above,hpop,hcases⟩ := ih rfl
    rw [Cord.denote,length_append,← Nat.add_assoc] at hcases
    rw [popWhile,if_pos (decide_eq_true hne),hpop]
    refine ⟨top,above,rfl,hcases.imp_right ?_⟩
    rintro ⟨parent,from',rest',habove,htrail,hle,hlt⟩
    exact ⟨parent,from',rest',habove,htrail,hle.trans (Nat.le_add_right _ _),hlt⟩

/-- At the start of a part that does not begin the cord, the part begins a right one. -/
theorem popWhile_false (hstart : 0 < start) :
    ∃ parent from' rest', (popWhile false (⟨c, start⟩ :: rest)).tail = ⟨parent, from'⟩ :: rest' ∧
      Trail x (⟨parent, from'⟩ :: rest') ∧ from' < start ∧ start ≤ from' + parent.denote.length := by
  generalize hpath : ⟨c,start⟩ :: rest = path at h
  induction h generalizing c start rest with
  | root =>
    cases hpath
    cases hstart
  | left h ih =>
    cases hpath
    rw [popWhile,if_pos (by simp)]
    exact ih hstart rfl
  | @right len depth leftLen start left right rest h ih =>
    cases hpath
    have hleft := (h.partOf hx hpos).left_part.pos
    have hne : start + left.denote.length ≠ start := by omega
    refine ⟨_,start,rest,?_,h,by omega,by simp [Cord.denote]⟩
    rw [popWhile,decide_eq_true hne]
    rfl

end

end Paths

section Moves
variable (hx : Kept x) (hpos : 0 < x.denote.length)
include hx hpos

theorem posFetch_fresh (h : Located x p c start rest) (hfresh : Fresh p) :
    ∃ a, posFetch p = .ok a ∧ x.denote[p.curPos]? = some a := by
  obtain ⟨hvalid,hpath,htrail,hleaf,hstart,hstop,hstring,hwindow⟩ := h
  have hpart := htrail.partOf hx hpos
  have hlength := hpart.pos
  have hmax := hx.length_le
  have hend := hpart.stop
  have hword : p.curPos ≤ wordMax := by omega
  have hget := hpart.get (p.curPos - start) (by omega)
  rw [Nat.add_sub_cancel' hstart] at hget
  obtain ⟨a,ha⟩ : ∃ a, c.denote[p.curPos - start]? = some a := ⟨_,List.getElem?_eq_getElem (by omega)⟩
  refine ⟨a,?_,hget.trans ha⟩
  unfold posFetch
  split
  · case isTrue hcached =>
    obtain ⟨hlow,hhigh,-,hcur⟩ := hwindow hcached
    have hin := hfresh hcached
    have hindex : p.curStart - start + (p.curPos - p.curStart) = p.curPos - start := by omega
    rw [hcur,wordSub_of_le hin (by omega),List.getElem?_take_of_lt (by omega),List.getElem?_drop,
      hindex,ha]
  · case isFalse hcached =>
    rw [posFetchHard,hvalid,hpath]
    cases c with
    | concat len depth leftLen left right => simp [Cord.height] at hleaf
    | empty => cases hlength
    | string s => exact absurd (hstring rfl).2 (by omega)
    | function len fn =>
      simp only [Cord.denote,length_map,length_range] at hstop ha
      rw [List.getElem?_map,List.getElem?_range (by omega)] at ha
      dsimp only
      rw [wordSub_of_le hstart hword]
      exact congrArg Except.ok (Option.some.inj ha)

theorem posFetch_stale (h : Located x p c start rest) (hstale : ¬ Fresh p) :
    posFetch p = .error .outOfBounds := by
  have hmax := hx.length_le
  have hend := (h.trail.partOf hx hpos).stop
  rw [Fresh,Classical.not_imp,Nat.not_le] at hstale
  obtain ⟨hcached,hlow⟩ := hstale
  obtain ⟨-,hin,hle,hleaf⟩ := h.window hcached
  have hwrap : wordSub p.curPos p.curStart = p.curPos + (wordMax + 1 - p.curStart) :=
    Nat.mod_eq_of_lt (by omega)
  have hnone : p.curLeaf[wordSub p.curPos p.curStart]? = none := by
    rw [List.getElem?_eq_none_iff,hleaf,hwrap,length_take]
    omega
  rw [posFetch,if_pos hcached,hnone]

theorem leaveLeaf_spec (h : Trail x (⟨c, start⟩ :: rest)) (hpath : p.path = ⟨c, start⟩ :: rest)
    (hend : p.curPos = start + c.denote.length) :
    ∃ q, leaveLeaf p = .ok q ∧ q.curPos = p.curPos ∧ (p.curPos < x.denote.length → Ready x q) ∧
      (p.curPos = x.denote.length → q.valid = false) := by
  obtain ⟨top,above,hpop,⟨rfl,hlast⟩ | ⟨parent,from',rest',rfl,htrail,hle,hlt⟩⟩ :=
    popWhile_true hx hpos h
  all_goals rw [leaveLeaf,hpath,hpop]
  · exact ⟨_,rfl,rfl,fun hin => by omega,fun _ => rfl⟩
  · have hextend : ∃ q, extendPath { p with path := ⟨parent,from'⟩ :: rest' } = .ok q ∧ _ :=
      extendPath_spec hx hpos htrail rfl (show from' ≤ p.curPos by omega)
    obtain ⟨q,hq,hcur,-,hready⟩ := hextend
    refine ⟨q,hq,hcur,fun _ => hready (show p.curPos < _ by omega),fun hlast => ?_⟩
    have := (htrail.partOf hx hpos).stop
    omega

/-- `CORD__next` inside a function node. -/
theorem fillWindow_located {len : Nat} {fn : CordFn}
    (h : Trail x (⟨.function len fn, start⟩ :: rest)) (hvalid : p.valid = true)
    (hpath : p.path = ⟨.function len fn, start⟩ :: rest) (hstart : start ≤ p.curPos)
    (hin : p.curPos < start + len) : Ready x (fillWindow p fn start (start + len)) := by
  have hmax := hx.length_le
  have hend := (h.partOf hx hpos).stop
  simp only [Cord.denote,length_map,length_range] at hend
  obtain ⟨limit,hlimit,hpositive,hle⟩ : ∃ limit, (if start + len - p.curPos < functionBufSz then
      start + len - p.curPos else functionBufSz) = limit ∧ 0 < limit ∧ p.curPos + limit ≤ start + len := by
    refine ⟨_,rfl,?_,?_⟩ <;> split <;> simp only [functionBufSz] at * <;> omega
  unfold fillWindow
  rw [hlimit]
  dsimp only
  rw [wordAdd_of_le (by omega)]
  refine ⟨fun _ => le_rfl,.function len fn,start,rest,hvalid,hpath,h,rfl,hstart,?_,
    fun h => (by cases h),fun _ => ⟨hstart,?_,?_,?_⟩⟩
  · simpa [Cord.denote] using hin
  · simp [hpositive]
  · simpa [Cord.denote] using hle
  · apply ext_getElem
    · simp [Cord.denote]
      omega
    · intro j hj hj'
      simp only [length_map,length_range] at hj
      simp [Cord.denote,wordAdd_of_le (show j + p.curPos ≤ wordMax by omega),
        wordSub_of_le (show start ≤ j + p.curPos by omega) (by omega)]
      congr 1
      omega

theorem next_spec (h : Located x p c start rest) (hfresh : Fresh p) :
    ∃ q, next p = .ok q ∧ q.curPos = p.curPos + 1 ∧ (p.curPos + 1 < x.denote.length → Ready x q) ∧
      (p.curPos + 1 = x.denote.length → q.valid = false) := by
  obtain ⟨hvalid,hpath,htrail,hleaf,hstart,hstop,hstring,hwindow⟩ := h
  have hpart := htrail.partOf hx hpos
  have hlength := hpart.pos
  have hmax := hx.length_le
  have hend := hpart.stop
  have hsucc : wordAdd p.curPos 1 = p.curPos + 1 := wordAdd_of_le (by omega)
  have hleave (hlast : p.curPos + 1 = start + c.denote.length) :
      ∃ q, leaveLeaf { p with curPos := p.curPos + 1 } = .ok q ∧ _ :=
    leaveLeaf_spec hx hpos htrail hpath hlast
  unfold next
  rw [hsucc]
  split
  · case isTrue hcached =>
    have hne : p.curEnd ≠ 0 := by omega
    obtain ⟨hlow,hhigh,hle,hcur⟩ := hwindow hne
    refine ⟨_,rfl,rfl,fun _ => ⟨fun _ => (hfresh hne).trans (Nat.le_succ _),c,start,rest,?_⟩,
      fun _ => ?_⟩
    · exact ⟨hvalid,hpath,htrail,hleaf,hstart.trans (Nat.le_succ _),hcached.trans_le hle,hstring,
        fun _ => ⟨hlow,hcached,hle,hcur⟩⟩
    · omega
  · case isFalse hcached =>
    rw [nextHard,if_neg (by simp [hvalid]),hsucc]
    dsimp only
    split
    · case h_1 hnil => simp [hpath] at hnil
    · case h_2 len fn startPos above hfn =>
      obtain ⟨⟨rfl,rfl⟩,rfl⟩ : (c = .function len fn ∧ start = startPos) ∧ rest = above := by
        simpa [hpath] using hfn
      simp only [Cord.denote,length_map,length_range] at hstop hend hleave
      rw [wordAdd_of_le (by omega)]
      split
      · case isTrue hin =>
        refine ⟨_,rfl,rfl,fun _ => ?_,fun _ => by omega⟩
        exact fillWindow_located hx hpos htrail hvalid hpath (hstart.trans (Nat.le_succ _)) hin
      · exact hleave (by omega)
    · case h_3 hnil hfn =>
      apply hleave
      cases c with
      | concat len depth leftLen left right => simp [Cord.height] at hleaf
      | empty => cases hlength
      | string s =>
        have := (hstring rfl).2
        omega
      | function len fn => exact absurd hpath (hfn len fn start rest)

/-- The move to the character before does not leave the window of a function node for another
character of the node. -/
def KeepsWindow (p : Pos) : Prop :=
  p.curEnd = 0 ∨ p.curStart < p.curPos ∨ p.path.head?.all fun pe => pe.startPos = p.curPos

instance (p : Pos) : Decidable (KeepsWindow p) := inferInstanceAs (Decidable (_ ∨ _))

theorem prev_spec (h : Located x p c start rest) (hcur : 0 < p.curPos) :
    ∃ q, prev p = .ok q ∧ q.curPos = p.curPos - 1 ∧ (∃ c start rest, Located x q c start rest) ∧
      (Fresh q ↔ KeepsWindow p) := by
  obtain ⟨hvalid,hpath,htrail,hleaf,hstart,hstop,hstring,hwindow⟩ := h
  have hkeeps : KeepsWindow p ↔ p.curEnd = 0 ∨ p.curStart < p.curPos ∨ start = p.curPos := by
    simp [KeepsWindow,hpath]
  have hstay (hin : start ≤ p.curPos - 1) :
      Located x { p with curPos := p.curPos - 1 } c start rest := by
    refine ⟨hvalid,hpath,htrail,hleaf,hin,(show p.curPos - 1 < _ by omega),hstring,fun hne => ?_⟩
    obtain ⟨hlow,hhigh,hrest⟩ := hwindow hne
    exact ⟨hlow,(show p.curPos - 1 < p.curEnd by omega),hrest⟩
  have hsame : Fresh { p with curPos := p.curPos - 1 } ↔ (p.curEnd ≠ 0 → p.curStart ≤ p.curPos - 1) :=
    Iff.rfl
  unfold prev
  split
  · case isTrue hcached =>
    have hlow := (hwindow hcached.1).1
    refine ⟨_,rfl,rfl,⟨c,start,rest,hstay (by omega)⟩,?_⟩
    rw [hkeeps,hsame]
    omega
  · case isFalse hcached =>
    rw [prevHard,if_neg (by omega),if_neg (by simp [hvalid])]
    dsimp only
    split
    · case h_1 hnil => simp [hpath] at hnil
    case h_2 pe above hcons =>
    obtain ⟨rfl,rfl⟩ : ⟨c,start⟩ = pe ∧ rest = above := by simpa [hpath] using hcons
    dsimp only
    split
    · case isTrue hin =>
      refine ⟨_,rfl,rfl,⟨c,start,rest,hstay hin⟩,?_⟩
      rw [hkeeps,hsame]
      omega
    · case isFalse hout =>
      obtain ⟨parent,from',rest',hpop,htrail',hlt,hle⟩ :=
        popWhile_false hx hpos htrail (by omega)
      rw [hpath,hpop]
      have hextend : ∃ q, extendPath { p with
          curPos := p.curPos - 1
          path := ⟨parent,from'⟩ :: rest' } = .ok q ∧ _ :=
        extendPath_spec hx hpos htrail' rfl (show from' ≤ p.curPos - 1 by omega)
      obtain ⟨q,hq,hindex,-,hready⟩ := hextend
      obtain ⟨hfresh',hlocated⟩ := hready (show p.curPos - 1 < from' + parent.denote.length by omega)
      refine ⟨q,hq,hindex,hlocated,iff_of_true hfresh' (hkeeps.mpr ?_)⟩
      omega

omit hx hpos in
theorem prev_first (hfirst : p.curPos = 0) : ∃ q, prev p = .ok q ∧ q.valid = false := by
  refine ⟨{ p with valid := false },?_,rfl⟩
  rw [prev,if_neg (by omega),prevHard,if_pos hfirst]

theorem setPos_spec (p : Pos) (i : Nat) :
    ∃ q, setPos p x i = .ok q ∧ q.curPos = i ∧ q.valid = decide (i < x.denote.length) ∧
      (i < x.denote.length → Ready x q) := by
  have hempty : x.isEmpty = false := by
    cases x with
    | empty => cases hpos
    | _ => rfl
  have hextend : ∃ q, extendPath { p with path := [⟨x,0⟩], valid := true, curPos := i } = .ok q ∧ _ :=
    extendPath_spec hx hpos .root rfl (Nat.zero_le _)
  rw [Nat.zero_add] at hextend
  rwa [setPos,if_neg (by simp [hempty])]

end Moves

section Traversal

/-- `CORD_next` again and again. -/
def walk : Nat → Pos → Result Pos
  | 0, p => .ok p
  | k + 1, p => walk k p >>= next

theorem Ready.fetch (hx : Kept x) (hpos : 0 < x.denote.length) (h : Ready x p) :
    ∃ a, posFetch p = .ok a ∧ x.denote[p.curPos]? = some a := by
  obtain ⟨hfresh,c,start,rest,hlocated⟩ := h
  exact posFetch_fresh hx hpos hlocated hfresh

theorem walk_spec (hx : Kept x) (hpos : 0 < x.denote.length) {k : Nat} (h : Ready x p)
    (hk : p.curPos + k ≤ x.denote.length) :
    ∃ q, walk k p = .ok q ∧ q.curPos = p.curPos + k ∧ (p.curPos + k < x.denote.length → Ready x q) ∧
      (p.curPos + k = x.denote.length → q.valid = false) := by
  induction k with
  | zero =>
    obtain ⟨-,c,start,rest,hlocated⟩ := id h
    have hstop := hlocated.stop
    have hend := (hlocated.trail.partOf hx hpos).stop
    exact ⟨p,rfl,rfl,fun _ => h,fun hlast => by omega⟩
  | succ k ih =>
    obtain ⟨q,hq,hcur,hready,-⟩ := ih (by omega)
    obtain ⟨hfresh,c,start,rest,hlocated⟩ := hready (by omega)
    have hnext := next_spec hx hpos hlocated hfresh
    rw [hcur] at hnext
    rw [walk,hq]
    exact hnext

/-- The position is valid as long as it is in the cord, fetches the character there, and its path
leads down to the leaf with that character. -/
theorem walk_visits (x : Cord) (p : Pos) (i k : Nat) (hx : Kept x) (hk : k = 0 ∨ i + k ≤ x.cordLen) :
    ∃ q, (setPos p x i >>= walk k) = .ok q ∧ (q.valid = true ↔ i + k < x.cordLen) ∧
      (q.valid = true → q.curPos = i + k ∧
        (∃ a, posFetch q = .ok a ∧ x.denote[i + k]? = some a) ∧
        ∃ c start rest, q.path = ⟨c, start⟩ :: rest ∧ Trail x q.path ∧ c.height = 0 ∧
          start ≤ i + k ∧ i + k < start + c.denote.length) := by
  rw [Cord.cordLen_eq_length hx.wf] at hk ⊢
  cases hempty : x.isEmpty with
  | true =>
    obtain rfl := (Cord.isEmpty_iff x).mp hempty
    obtain rfl : k = 0 := by
      simp only [Cord.denote,length_nil] at hk
      omega
    exact ⟨{ p with valid := false },rfl,by simp [Cord.denote],by simp⟩
  | false =>
    have hpos := length_pos hx.wf hempty
    obtain ⟨q,hq,hcur,hvalid,hready⟩ := setPos_spec hx hpos p i
    rw [hq]
    change ∃ r, walk k q = .ok r ∧ _
    by_cases hi : i < x.denote.length
    · obtain ⟨r,hr,hindex,hready',hlast⟩ := walk_spec hx hpos (k := k) (hready hi) (by omega)
      rw [hcur] at hindex hready' hlast
      have hiff : r.valid = true ↔ i + k < x.denote.length := by
        constructor
        · intro hr'
          by_contra hout
          rw [hlast (by omega)] at hr'
          cases hr'
        · intro hin
          obtain ⟨-,c,start,rest,hlocated⟩ := hready' hin
          exact hlocated.valid
      refine ⟨r,hr,hiff,fun hr' => ⟨hindex,?_⟩⟩
      have hr' := hready' (hiff.mp hr')
      have hfetch := hr'.fetch hx hpos
      obtain ⟨-,c,start,rest,hlocated⟩ := hr'
      rw [hindex] at hfetch
      refine ⟨hfetch,c,start,rest,hlocated.path,hlocated.path ▸ hlocated.trail,hlocated.leaf,?_,?_⟩
      · exact hindex ▸ hlocated.begun
      · exact hindex ▸ hlocated.stop
    · obtain rfl : k = 0 := by omega
      rw [decide_eq_false hi] at hvalid
      exact ⟨q,rfl,by simp [hvalid,hi],by simp [hvalid]⟩

def sampleCord : Cord :=
  .concat 16 2 3 (.concat 3 1 2 (.string [97, 98]) (.string [99]))
    (.concat 13 1 12 (.function 12 (.client fun i => UInt8.ofNat i)) (.string [100]))

def blankPos : Pos := ⟨0, false, [], [], 0, 0⟩

theorem walk_visits_sampleCord :
    Kept sampleCord ∧ ∃ q, (setPos blankPos sampleCord 1 >>= walk 13) = .ok q ∧
      posFetch q = .ok 11 := by
  have hkept : Kept sampleCord := ⟨by decide,by decide,by decide⟩
  obtain ⟨q,hq,hvalid,hrest⟩ := walk_visits sampleCord blankPos 1 13 hkept (.inr (by decide))
  obtain ⟨-,⟨a,ha,hget⟩,-⟩ := hrest (hvalid.mpr (by decide))
  obtain rfl : (11 : UInt8) = a := Option.some.inj (Eq.trans (by decide) hget)
  exact ⟨hkept,q,hq,ha⟩

inductive Move where
  | next
  | prev
deriving DecidableEq, Repr

def move : Move → Pos → Result Pos
  | .next, p => next p
  | .prev, p => prev p

def moves : List Move → Pos → Result Pos
  | [], p => .ok p
  | m :: ms, p => move m p >>= moves ms

/-- The index after the moves, as long as they stay inside a cord of the length. -/
def indexAfter (len : Nat) : List Move → Nat → Option Nat
  | [], i => some i
  | .next :: ms, i => if i + 1 < len then indexAfter len ms (i + 1) else none
  | .prev :: ms, i => if 0 < i then indexAfter len ms (i - 1) else none

/-- No `CORD_prev` of the run leaves the window of a function node behind. -/
def KeepsWindows : List Move → Pos → Prop
  | [], _ => True
  | m :: ms, p => (m = .prev → KeepsWindow p) ∧
      match move m p with
      | .ok q => KeepsWindows ms q
      | .error _ => True

theorem moves_ready (hx : Kept x) (hpos : 0 < x.denote.length) {ms : List Move} {j : Nat} (h : Ready x p)
    (hkeeps : KeepsWindows ms p) (hinside : indexAfter x.denote.length ms p.curPos = some j) :
    ∃ q, moves ms p = .ok q ∧ q.curPos = j ∧ Ready x q := by
  induction ms generalizing p with
  | nil => exact ⟨p,rfl,Option.some.inj hinside,h⟩
  | cons m ms ih =>
    obtain ⟨hfresh,c,start,rest,hlocated⟩ := h
    have hstep : ∃ q, move m p = .ok q ∧ Ready x q ∧ indexAfter x.denote.length ms q.curPos = some j := by
      cases m with
      | next =>
        rw [indexAfter] at hinside
        split at hinside
        · case isTrue hin =>
          obtain ⟨q,hq,hcur,hready,-⟩ := next_spec hx hpos hlocated hfresh
          exact ⟨q,hq,hready hin,hcur ▸ hinside⟩
        · cases hinside
      | prev =>
        rw [indexAfter] at hinside
        split at hinside
        · case isTrue hin =>
          obtain ⟨q,hq,hcur,hlocated',hiff⟩ := prev_spec hx hpos hlocated hin
          exact ⟨q,hq,⟨hiff.mpr (hkeeps.1 rfl),hlocated'⟩,hcur ▸ hinside⟩
        · cases hinside
    obtain ⟨q,hq,hready,hinside'⟩ := hstep
    rw [KeepsWindows,hq] at hkeeps
    rw [moves,hq]
    exact ih hready hkeeps.2 hinside'

/-- In a run that keeps the windows the position fetches the character at its index. The move to
the next character and back gives the index, and the character if it keeps the window too, and
the move back from index 0 ends the traversal. -/
theorem moves_inverse (x : Cord) (p : Pos) (i : Nat) (ms : List Move) (j : Nat) (hx : Kept x)
    (hi : i < x.cordLen) (hinside : indexAfter x.cordLen ms i = some j)
    (hkeeps : ∀ q, setPos p x i = .ok q → KeepsWindows ms q) :
    ∃ q a, (setPos p x i >>= moves ms) = .ok q ∧ q.curPos = j ∧ posFetch q = .ok a ∧
      x.denote[j]? = some a ∧ (j = 0 → ∃ r, prev q = .ok r ∧ r.valid = false) ∧
      (j + 1 < x.cordLen → ∃ r t, next q = .ok r ∧ prev r = .ok t ∧ t.curPos = j ∧
        (posFetch t = .ok a ↔ KeepsWindow r)) := by
  rw [Cord.cordLen_eq_length hx.wf] at hi hinside ⊢
  have hpos : 0 < x.denote.length := Nat.zero_lt_of_lt hi
  obtain ⟨q₀,hq₀,hcur₀,-,hready₀⟩ := setPos_spec hx hpos p i
  obtain ⟨q,hq,hcur,hready⟩ := moves_ready hx hpos (hready₀ hi) (hkeeps q₀ hq₀) (hcur₀.symm ▸ hinside)
  obtain ⟨a,ha,hget⟩ := hready.fetch hx hpos
  obtain ⟨hfresh,c,start,rest,hlocated⟩ := hready
  rw [hq₀]
  refine ⟨q,a,hq,hcur,ha,hcur ▸ hget,fun hfirst => prev_first (hcur.trans hfirst),fun hin => ?_⟩
  obtain ⟨r,hr,hcur',hready',-⟩ := next_spec hx hpos hlocated hfresh
  obtain ⟨-,c',start',rest',hlocated'⟩ := hready' (hcur.symm ▸ hin)
  obtain ⟨t,ht,hback,⟨c'',start'',rest'',hlocated''⟩,hiff⟩ :=
    prev_spec hx hpos hlocated' (by omega)
  have hindex : t.curPos = q.curPos := by omega
  refine ⟨r,t,hr,ht,hindex.trans hcur,?_⟩
  rw [← hiff]
  constructor
  · intro hfetch
    by_contra hstale
    rw [posFetch_stale hx hpos hlocated'' hstale] at hfetch
    cases hfetch
  · intro hfresh''
    obtain ⟨b,hb,hget'⟩ := posFetch_fresh hx hpos hlocated'' hfresh''
    rw [hindex,hget] at hget'
    rw [hb,← Option.some.inj hget']

theorem moves_inverse_sampleCord :
    ∃ q, (setPos blankPos sampleCord 2 >>= moves [.next, .next, .next, .prev]) = .ok q ∧
      posFetch q = .ok 1 := by
  have hkept : Kept sampleCord := ⟨by decide,by decide,by decide⟩
  have hkeeps : ∀ q, setPos blankPos sampleCord 2 = .ok q →
      KeepsWindows [.next,.next,.next,.prev] q := by
    intro q hq
    obtain rfl := Except.ok.inj hq
    have hnext : Move.next ≠ .prev := by decide
    exact ⟨fun h => absurd h hnext,fun h => absurd h hnext,fun h => absurd h hnext,fun _ => by decide,
      trivial⟩
  obtain ⟨q,a,hq,-,ha,hget,-⟩ :=
    moves_inverse sampleCord blankPos 2 [.next,.next,.next,.prev] 4 hkept (by decide) (by decide) hkeeps
  obtain rfl : (1 : UInt8) = a := Option.some.inj (Eq.trans (by decide) hget)
  exact ⟨q,hq,ha⟩

/-- The second character, a NUL, makes a function node of two characters. There the move forward
and back reads before the window. -/
theorem moves_stale : let fn : CordFn := .client fun i => if i = 0 then 65 else 0
    fromFn fn 2 = .function 2 fn ∧ Kept (.function 2 fn) ∧ indexAfter 2 [.next, .prev] 0 = some 0 ∧
    ((setPos blankPos (.function 2 fn) 0 >>= moves [.next, .prev]) >>= posFetch) = .error .outOfBounds :=
  ⟨rfl,⟨by decide,by decide,by decide⟩,rfl,rfl⟩

end Traversal

end GcUtil.Cords.Positions
