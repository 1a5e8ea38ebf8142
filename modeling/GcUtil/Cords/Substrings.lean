import GcUtil.Cords.Balancing

/-! Substrings. They are put together from shared subtrees, copies and function nodes that read
the characters later. `CORD_substr` clamps the length with a sum that can wrap around, and a
longer length than there are characters then goes down the tree. -/
namespace GcUtil.Cords.Substrings
open Basic Nodes Operations Concatenation Balancing List

def substrLimit : Nat := 10 * shortLimit

/-- `CORD_substr_closure`; `fn` is the access function with its `substr_args`. -/
def substrClosure (fn : CordFn) (n : Nat) : Cord := fromFn fn n

/-- `copy_char_substr(x + i, n)`, which may copy the terminator of `x` but nothing behind it. -/
def substrString (s : List UInt8) (i n : Nat) : Result Cord :=
  if i + n ≤ s.length + 1 then .ok (.string (copyCharSubstr (s.drop i) n)) else .error .outOfBounds

def rebase : CordFn → Nat → CordFn
  | .client fn, i => .applyAccess (.client fn) i
  | .indexAccess saCord saIndex, i => .indexAccess saCord (wordAdd i saIndex)
  | .applyAccess saCord saIndex, i => .applyAccess saCord (wordAdd i saIndex)

def substrFunction (fn : CordFn) (i n : Nat) : Cord :=
  if n > substrLimit then substrClosure (rebase fn i) n
  else
    let buf := (List.range n).map fun j => fn.call (wordAdd i j)
    if 0 ∈ buf then substrClosure (.applyAccess fn i) n else .string (copyCharSubstr buf n)

section Substr
variable (bal : Cord → Result Cord)

def substrChecked : Cord → Nat → Nat → Result Cord
  | .empty, _, _ => .error .outOfBounds
  | .string s, i, n =>
    if n > substrLimit then .ok (substrClosure (.indexAccess s i) n) else substrString s i n
  | .concat len _ leftLen left right, i, n =>
    let left_len := leftLenOf len leftLen left right
    let right_len := wordSub len left_len
    if i ≥ left_len then
      if n = right_len then .ok right else substrChecked right (i - left_len) n
    else if wordAdd i n ≤ left_len then
      if n = left_len then .ok left else substrChecked left i n
    else do
      let left_part_len := left_len - i
      let left_part ← (if i = 0 then .ok left else substrChecked left i left_part_len)
      let right_part ← (if wordAdd i n = wordAdd right_len left_len then .ok right
        else substrChecked right 0 (wordSub n left_part_len))
      cat bal left_part right_part
  | .function _ fn, i, n => .ok (substrFunction fn i n)

def substr (x : Cord) (i n : Nat) : Result Cord :=
  let len := x.cordLen
  if i ≥ len ∨ n = 0 then .ok .empty
  else substrChecked bal x i (if wordAdd i n > len then len - i else n)

end Substr

/-- A length that is one too long does no harm where the one character behind the cord is the
terminator of its last string, and is copied with it. -/
def CopiesTerminator : Cord → Nat → Nat → Prop
  | .string s, i, n => n ≤ substrLimit ∧ i + n = s.length + 1
  | .concat _ _ _ left right, i, n =>
    if left.genLen ≤ i then n ≠ right.genLen ∧ CopiesTerminator right (i - left.genLen) n
    else i + n ≤ wordMax ∧ CopiesTerminator right 0 (n - (left.genLen - i))
  | _, _, _ => False

structure Part (x : Cord) (s : List UInt8) (r : Cord) : Prop where
  wf : r.WellFormed
  denote : r.denote = s
  height : r.height ≤ x.height

variable {bal : Cord → Result Cord} {x r : Cord} {i n : Nat} {s : List UInt8} {fn : CordFn}

theorem part_fromFn (h : (List.range n).map fn.call = s) : Part x s (fromFn fn n) where
  wf := fromFn_wellFormed fn n
  denote := (denote_fromFn fn n).trans h
  height := by
    rw [height_fromFn]
    exact Nat.zero_le _

theorem call_rebase (fn : CordFn) (i j : Nat) : (rebase fn i).call j = fn.call (wordAdd i j) := by
  have hassoc (k : Nat) : wordAdd j (wordAdd i k) = wordAdd (wordAdd i j) k := by
    unfold wordAdd wordMax
    omega
  cases fn with
  | client fn => simp [rebase,CordFn.call,wordAdd,Nat.add_comm]
  | indexAccess saCord saIndex => simp only [rebase,CordFn.call,hassoc]
  | applyAccess saCord saIndex => simp only [rebase,CordFn.call,hassoc]

theorem substrFunction_part (hn : n ≠ 0) :
    Part x ((List.range n).map fun j => fn.call (wordAdd i j)) (substrFunction fn i n) := by
  unfold substrFunction substrClosure
  split
  · exact part_fromFn (map_congr_left fun j _ => call_rebase fn i j)
  · dsimp only
    split
    · exact part_fromFn (map_congr_left fun j _ => by rw [CordFn.call,wordAdd,Nat.add_comm]; rfl)
    · case isFalse hnul =>
      have hcopy : copyCharSubstr ((List.range n).map fun j => fn.call (wordAdd i j)) n =
          (List.range n).map fun j => fn.call (wordAdd i j) := take_of_length_le (by simp)
      rw [hcopy]
      exact ⟨⟨by simp [hn],hnul⟩,rfl,Nat.zero_le _⟩

theorem substrString_part (hs : (Cord.string s).WellFormed) (hi : i < s.length) (hn : n ≠ 0)
    (hend : i + n ≤ s.length + 1) :
    ∃ r, substrString s i n = .ok r ∧ Part x ((s.drop i).take n) r := by
  have hnul : 0 ∉ s.drop i := fun h => hs.2 (mem_of_mem_drop h)
  refine ⟨_,if_pos hend,⟨?_,fun h => hnul (mem_of_mem_take h)⟩,rfl,Nat.zero_le _⟩
  simp [copyCharSubstr,hn,hi]

theorem map_range_call (f : Nat → UInt8) {len : Nat} (hend : i + n ≤ len) (hlen : len ≤ wordMax) :
    (((List.range len).map f).drop i).take n = (List.range n).map fun j => f (wordAdd i j) := by
  apply ext_getElem
  · simp
    omega
  · intro j hj hj'
    simp only [length_map,length_range] at hj'
    simp [wordAdd_of_le (show i + j ≤ wordMax by omega)]

theorem indexAccess_call (hend : i + n ≤ s.length) (hlen : s.length ≤ wordMax) :
    (List.range n).map (CordFn.indexAccess s i).call = (s.drop i).take n := by
  apply ext_getElem
  · simp
    omega
  · intro j hj hj'
    simp only [length_map,length_range] at hj
    simp [CordFn.call,wordAdd_of_le (show j + i ≤ wordMax by omega),Nat.add_comm j i,
      List.getElem?_eq_getElem (show i + j < s.length by omega)]

section Concat
variable {len leftLen : Nat} {depth : Int} {left right : Cord}

theorem substrChecked_concat (hx : Kept (.concat len depth leftLen left right)) :
    substrChecked bal (.concat len depth leftLen left right) i n =
      if i ≥ left.denote.length then
        if n = right.denote.length then .ok right
        else substrChecked bal right (i - left.denote.length) n
      else if wordAdd i n ≤ left.denote.length then
        if n = left.denote.length then .ok left else substrChecked bal left i n
      else
        (if i = 0 then .ok left else substrChecked bal left i (left.denote.length - i)) >>=
          fun left_part =>
            (if wordAdd i n = left.denote.length + right.denote.length then .ok right
              else substrChecked bal right 0 (wordSub n (left.denote.length - i))) >>=
              fun right_part => cat bal left_part right_part := by
  have hleft := leftLenOf_eq hx.wf hx.len
  have hlen : len = left.denote.length + right.denote.length := by
    rw [← length_append]
    exact Cord.genLen_eq_length hx.wf
  have hmax : len ≤ wordMax := hx.len
  have hright : wordSub len left.denote.length = right.denote.length := by
    rw [wordSub_of_le (by omega) hmax]
    omega
  have hsum : wordAdd right.denote.length left.denote.length =
      left.denote.length + right.denote.length := by
    rw [wordAdd_of_le (by omega),Nat.add_comm]
  rw [substrChecked,hleft,hright,hsum]

theorem part_cat {l : Cord} {t : List UInt8} (hx : Kept (.concat len depth leftLen left right))
    (hl : Part left s l) (hr : Part right t r) (htotal : s.length + t.length ≤ wordMax) :
    ∃ c, cat bal l r = .ok c ∧ Part (.concat len depth leftLen left right) (s ++ t) c := by
  have hheight := hx.height
  have hlow := hl.height
  have hlow' := hr.height
  simp only [Cord.height] at hheight
  rw [← hl.denote,← hr.denote] at htotal ⊢
  have hcat : ∃ c, cat bal l r = .ok c ∧ Cat l r c :=
    cat_shallow hl.wf hr.wf htotal fun _ _ => by omega
  obtain ⟨c,hc,hcat⟩ := hcat
  refine ⟨c,hc,hcat.wf,hcat.denote,hcat.height.trans ?_⟩
  simp only [Cord.height]
  omega

theorem part_left (hr : Part left s r) : Part (.concat len depth leftLen left right) s r :=
  { hr with height := hr.height.trans (by simp only [Cord.height]; omega) }

theorem part_right (hr : Part right s r) : Part (.concat len depth leftLen left right) s r :=
  { hr with height := hr.height.trans (by simp only [Cord.height]; omega) }

theorem drop_concat_right (h : left.denote.length ≤ i) :
    (Cord.concat len depth leftLen left right).denote.drop i =
      right.denote.drop (i - left.denote.length) := by
  rw [Cord.denote,drop_append,drop_of_length_le h,nil_append]

theorem drop_concat_left (h : i ≤ left.denote.length) :
    (Cord.concat len depth leftLen left right).denote.drop i = left.denote.drop i ++ right.denote := by
  rw [Cord.denote,drop_append_of_le_length h]

/-- The left part of a substring that needs characters of both sides. -/
theorem leftPart_spec (hleft : left.WellFormed)
    (ih : i ≠ 0 → ∃ r, substrChecked bal left i (left.denote.length - i) = .ok r ∧
      Part left ((left.denote.drop i).take (left.denote.length - i)) r) :
    ∃ r, (if i = 0 then .ok left else substrChecked bal left i (left.denote.length - i)) = .ok r ∧
      Part left (left.denote.drop i) r := by
  by_cases hzero : i = 0
  · rw [if_pos hzero,hzero,drop_zero]
    exact ⟨left,rfl,hleft,rfl,le_rfl⟩
  · rw [if_neg hzero]
    have hpart := ih hzero
    rwa [take_of_length_le (by simp)] at hpart

end Concat

theorem substrChecked_exact (hx : Kept x) (hn : n ≠ 0) (hend : i + n ≤ x.denote.length) :
    ∃ r, substrChecked bal x i n = .ok r ∧ Part x ((x.denote.drop i).take n) r := by
  induction x generalizing i n with
  | empty =>
    simp only [Cord.denote,length_nil] at hend
    omega
  | string s =>
    have hlen := hx.length_le
    simp only [Cord.denote] at hend hlen ⊢
    rw [substrChecked]
    split
    · exact ⟨_,rfl,part_fromFn (indexAccess_call hend hlen)⟩
    · exact substrString_part hx.wf (by omega) hn (by omega)
  | function len fn =>
    have hlen : len ≤ wordMax := hx.len
    simp only [Cord.denote,length_map,length_range] at hend
    rw [Cord.denote,map_range_call _ hend hlen]
    exact ⟨_,rfl,substrFunction_part hn⟩
  | concat len depth leftLen left right ihl ihr =>
    have hlen := hx.length_le
    have hkl := kept_left hx
    have hkr := kept_right hx
    rw [Cord.denote,length_append] at hend hlen
    rw [substrChecked_concat hx,wordAdd_of_le (by omega)]
    by_cases hi : i ≥ left.denote.length
    · rw [if_pos hi,drop_concat_right hi]
      split
      · case isTrue hall =>
        have hstart : i - left.denote.length = 0 := by omega
        rw [hstart,drop_zero,take_of_length_le hall.ge]
        exact ⟨right,rfl,part_right ⟨hkr.wf,rfl,le_rfl⟩⟩
      · obtain ⟨r,hr,hpart⟩ := ihr hkr hn (show i - left.denote.length + n ≤ right.denote.length by omega)
        exact ⟨r,hr,part_right hpart⟩
    · rw [if_neg hi,drop_concat_left (by omega)]
      by_cases hinside : i + n ≤ left.denote.length
      · rw [if_pos hinside,take_append_of_le_length (by simp; omega)]
        split
        · case isTrue hall =>
          have hstart : i = 0 := by omega
          rw [hstart,drop_zero,take_of_length_le hall.ge]
          exact ⟨left,rfl,part_left ⟨hkl.wf,rfl,le_rfl⟩⟩
        · obtain ⟨r,hr,hpart⟩ := ihl hkl hn hinside
          exact ⟨r,hr,part_left hpart⟩
      · rw [if_neg hinside,take_append,take_of_length_le (by simp; omega),length_drop,
          wordSub_of_le (by omega) (by omega)]
        obtain ⟨l,hl,hpartl⟩ := leftPart_spec hkl.wf
          fun _ => ihl hkl (show left.denote.length - i ≠ 0 by omega) (by omega)
        have hright : ∃ r, (if i + n = left.denote.length + right.denote.length then .ok right
            else substrChecked bal right 0 (n - (left.denote.length - i))) = .ok r ∧
              Part right (right.denote.take (n - (left.denote.length - i))) r := by
          split
          · rw [take_of_length_le (by omega)]
            exact ⟨right,rfl,hkr.wf,rfl,le_rfl⟩
          · have hpart := ihr hkr (show n - (left.denote.length - i) ≠ 0 by omega)
              (show 0 + (n - (left.denote.length - i)) ≤ right.denote.length by omega)
            rwa [drop_zero] at hpart
        obtain ⟨r,hr,hpartr⟩ := hright
        rw [hl,hr]
        exact part_cat hx hpartl hpartr (by simp; omega)

structure Overrun (bal : Cord → Result Cord) (x : Cord) (i n : Nat) : Prop where
  copied : CopiesTerminator x i n →
    ∃ r, substrChecked bal x i n = .ok r ∧ Part x (x.denote.drop i) r
  wrong : ¬ CopiesTerminator x i n → ∀ r, substrChecked bal x i n = .ok r →
    Part x r.denote r ∧ (r.denote.length = n ∨ r.denote.length < x.denote.length - i)

theorem overrun_string (hs : (Cord.string s).WellFormed) (hi : i < s.length) (hlong : s.length < i + n) :
    Overrun bal (.string s) i n := by
  constructor
  · rintro ⟨hshort,hend⟩
    have hcopy : ∃ r, substrString s i n = .ok r ∧ Part (.string s) ((s.drop i).take n) r :=
      substrString_part hs hi (by omega) hend.le
    rw [take_of_length_le (by simp; omega)] at hcopy
    rwa [substrChecked,if_neg (by omega)]
  · intro hnot r hr
    rw [substrChecked] at hr
    split at hr
    · obtain rfl := Except.ok.inj hr
      exact ⟨part_fromFn (denote_fromFn _ n).symm,.inl (by simp [substrClosure,denote_fromFn])⟩
    · case isFalse hshort =>
      rw [substrString,if_neg fun hend => hnot ⟨by omega,by omega⟩] at hr
      cases hr

theorem overrun_function {len : Nat} (hn : n ≠ 0) : Overrun bal (.function len fn) i n := by
  refine ⟨False.elim,fun _ r hr => ?_⟩
  obtain rfl := Except.ok.inj hr
  have hpart : Part (.function len fn) _ (substrFunction fn i n) := substrFunction_part hn
  refine ⟨{ hpart with denote := rfl },.inl ?_⟩
  rw [hpart.denote,length_map,length_range]

section Concat
variable {len leftLen : Nat} {depth : Int} {left right : Cord}

section

variable (hx : Kept (.concat len depth leftLen left right))
include hx

theorem overrun_right (hi : left.denote.length ≤ i)
    (ih : n ≠ right.denote.length → Overrun bal right (i - left.denote.length) n) :
    Overrun bal (.concat len depth leftLen left right) i n := by
  have hkr := kept_right hx
  have hlen := Cord.genLen_eq_length (kept_left hx).wf
  have hlen' := Cord.genLen_eq_length hkr.wf
  constructor
  · intro hcopies
    rw [CopiesTerminator,hlen,hlen',if_pos hi] at hcopies
    obtain ⟨r,hr,hpart⟩ := (ih hcopies.1).copied hcopies.2
    rw [substrChecked_concat hx,if_pos hi,if_neg hcopies.1,drop_concat_right hi]
    exact ⟨r,hr,part_right hpart⟩
  · intro hnot r hr
    rw [CopiesTerminator,hlen,hlen',if_pos hi] at hnot
    rw [substrChecked_concat hx,if_pos hi] at hr
    rw [Cord.denote,length_append]
    split at hr
    · case isTrue hall =>
      obtain rfl := Except.ok.inj hr
      exact ⟨part_right ⟨hkr.wf,rfl,le_rfl⟩,.inl hall.symm⟩
    · case isFalse hall =>
      obtain ⟨hpart,hlength⟩ := (ih hall).wrong (fun h => hnot ⟨hall,h⟩) r hr
      exact ⟨part_right hpart,hlength.imp_right fun h => by omega⟩

/-- The end of the substring has wrapped around to a place before its start. -/
theorem overrun_left (hi : i < left.denote.length)
    (hwrap : wordMax < i + n) (hn : n ≤ wordMax)
    (ih : Overrun bal left i n) : Overrun bal (.concat len depth leftLen left right) i n := by
  have hkl := kept_left hx
  have hlen := Cord.genLen_eq_length hkl.wf
  have hpos := length_pos (kept_right hx).wf hx.wf.2.2.2.1
  have hmax := hx.length_le
  have hless : wordAdd i n ≤ left.denote.length := by
    unfold wordAdd
    rw [Cord.denote,length_append] at hmax
    rw [Nat.mod_eq_sub_mod (by omega),Nat.mod_eq_of_lt (by omega)]
    omega
  constructor
  · intro hcopies
    rw [CopiesTerminator,hlen,if_neg (by omega)] at hcopies
    exact absurd hcopies.1 (by omega)
  · intro _ r hr
    rw [substrChecked_concat hx,if_neg (by omega),if_pos hless] at hr
    rw [Cord.denote,length_append]
    split at hr
    · case isTrue hall =>
      obtain rfl := Except.ok.inj hr
      exact ⟨part_left ⟨hkl.wf,rfl,le_rfl⟩,.inl hall.symm⟩
    · by_cases hcopies : CopiesTerminator left i n
      · obtain ⟨r',hr',hpart⟩ := ih.copied hcopies
        obtain rfl := Except.ok.inj (hr.symm.trans hr')
        refine ⟨part_left { hpart with denote := rfl },.inr ?_⟩
        rw [hpart.denote,length_drop]
        omega
      · obtain ⟨hpart,hlength⟩ := ih.wrong hcopies r hr
        exact ⟨part_left hpart,hlength.imp_right fun h => by omega⟩

/-- The substring begins in the left part and runs beyond the right one. -/
theorem overrun_both (hi : i < left.denote.length)
    (hlong : left.denote.length + right.denote.length < i + n) (hfits : i + n ≤ wordMax)
    (ih : Overrun bal right 0 (n - (left.denote.length - i))) :
    Overrun bal (.concat len depth leftLen left right) i n := by
  have hkl := kept_left hx
  have hlen := Cord.genLen_eq_length hkl.wf
  obtain ⟨l,hl,hpartl⟩ : ∃ l, (if i = 0 then .ok left
      else substrChecked bal left i (left.denote.length - i)) = .ok l ∧
        Part left (left.denote.drop i) l :=
    leftPart_spec hkl.wf fun _ => substrChecked_exact hkl (by omega) (by omega)
  have hstep : substrChecked bal (.concat len depth leftLen left right) i n =
      substrChecked bal right 0 (n - (left.denote.length - i)) >>= cat bal l := by
    rw [substrChecked_concat hx,wordAdd_of_le hfits,if_neg (by omega),if_neg (by omega),hl,
      if_neg (by omega),wordSub_of_le (by omega) (by omega)]
    rfl
  have hcopies : CopiesTerminator (.concat len depth leftLen left right) i n ↔
      CopiesTerminator right 0 (n - (left.denote.length - i)) := by
    rw [CopiesTerminator,hlen,if_neg (by omega)]
    exact and_iff_right hfits
  have hdrop : (Cord.concat len depth leftLen left right).denote.drop i =
      left.denote.drop i ++ right.denote := drop_concat_left hi.le
  constructor
  · intro h
    obtain ⟨r,hr,hpart⟩ := ih.copied (hcopies.mp h)
    rw [hstep,hr,hdrop]
    exact part_cat hx hpartl hpart (by simp; omega)
  · intro h c hc
    rw [hstep] at hc
    cases hr : substrChecked bal right 0 (n - (left.denote.length - i)) with
    | error e =>
      rw [hr] at hc
      cases hc
    | ok r =>
      obtain ⟨hpart,hlength⟩ := ih.wrong (fun h' => h (hcopies.mpr h')) r hr
      have htotal : (left.denote.drop i).length + r.denote.length ≤ wordMax := by
        rw [length_drop]
        omega
      have hjoin : ∃ c, cat bal l r = .ok c ∧ _ := part_cat hx hpartl hpart htotal
      obtain ⟨c',hc',hpartc⟩ := hjoin
      rw [hr] at hc
      obtain rfl := Except.ok.inj (hc'.symm.trans hc)
      refine ⟨{ hpartc with denote := rfl },?_⟩
      rw [hpartc.denote,length_append,length_drop,Cord.denote,length_append]
      omega

end

end Concat

theorem overrun_spec (hx : Kept x) (hi : i < x.denote.length) (hlong : x.denote.length < i + n)
    (hn : n ≤ wordMax) : Overrun bal x i n := by
  induction x generalizing i n with
  | empty => cases hi
  | string s => exact overrun_string hx.wf hi hlong
  | function len fn => exact overrun_function (by omega)
  | concat len depth leftLen left right ihl ihr =>
    have hkr := kept_right hx
    have hpos := length_pos hkr.wf hx.wf.2.2.2.1
    rw [Cord.denote,length_append] at hi hlong
    by_cases hright : left.denote.length ≤ i
    · exact overrun_right hx hright fun _ => ihr hkr (by omega) (by omega) hn
    · by_cases hwrap : wordMax < i + n
      · exact overrun_left hx (by omega) hwrap hn (ihl (kept_left hx) (by omega) (by omega) hn)
      · exact overrun_both hx (by omega) hlong (by omega) (ihr hkr hpos (by omega) (by omega))

/-- The substring is clamped to the characters there are, or ends before them. -/
theorem substr_exact (hx : Kept x) (hfits : x.cordLen ≤ i ∨ n = 0 ∨ i + n ≤ wordMax) :
    ∃ r, substr bal x i n = .ok r ∧ Part x ((x.denote.drop i).take n) r := by
  unfold substr
  rw [Cord.cordLen_eq_length hx.wf] at hfits ⊢
  dsimp only
  split
  · case isTrue hnone =>
    have hnil : (x.denote.drop i).take n = [] := by
      rw [take_eq_nil_iff,drop_eq_nil_iff]
      exact hnone.symm
    rw [hnil]
    exact ⟨.empty,rfl,trivial,rfl,Nat.zero_le _⟩
  · case isFalse hsome =>
    rw [wordAdd_of_le (by omega)]
    split
    · case isTrue hlong =>
      have hall : (x.denote.drop i).take n = (x.denote.drop i).take (x.denote.length - i) := by
        rw [take_of_length_le (by simp; omega),take_of_length_le (by simp)]
      rw [hall]
      exact substrChecked_exact hx (by omega) (by omega)
    · exact substrChecked_exact hx (by omega) (by omega)

theorem substr_wrapped (hx : Kept x) (hi : i < x.denote.length) (hwrap : wordMax < i + n)
    (hn : n ≤ wordMax) : substr bal x i n = substrChecked bal x i n := by
  have hmax := hx.length_le
  have hless : wordAdd i n ≤ x.denote.length := by
    unfold wordAdd
    rw [Nat.mod_eq_sub_mod (by omega),Nat.mod_eq_of_lt (by omega)]
    omega
  unfold substr
  rw [Cord.cordLen_eq_length hx.wf]
  dsimp only
  rw [if_neg (by omega),if_neg (by omega)]

/-- The substring law holds unless the sum of start and length wraps around. Balancing is never
asked for. -/
theorem substr_denotes_iff (bal : Cord → Result Cord) (x : Cord) (i n : Nat) (hx : Kept x)
    (hn : n ≤ wordMax) :
    (∃ r, substr bal x i n = .ok r ∧ r.WellFormed ∧ r.denote = (x.denote.drop i).take n) ↔
      x.cordLen ≤ i ∨ n = 0 ∨ i + n ≤ wordMax ∨ CopiesTerminator x i n := by
  by_cases hfits : x.cordLen ≤ i ∨ n = 0 ∨ i + n ≤ wordMax
  · have hexact : ∃ r, substr bal x i n = .ok r ∧ _ := substr_exact hx hfits
    obtain ⟨r,hr,hpart⟩ := hexact
    apply iff_of_true ⟨r,hr,hpart.wf,hpart.denote⟩
    tauto
  · have hlen := Cord.cordLen_eq_length hx.wf
    have hmax := hx.length_le
    have hover : Overrun bal x i n := overrun_spec hx (by omega) (by omega) hn
    rw [substr_wrapped hx (by omega) (by omega) hn,take_of_length_le (by simp; omega)]
    constructor
    · rintro ⟨r,hr,-,hdenote⟩
      by_contra hnot
      have hlength := (hover.wrong (by tauto) r hr).2
      rw [hdenote,length_drop] at hlength
      omega
    · intro h
      obtain ⟨r,hr,hpart⟩ := hover.copied (by tauto)
      exact ⟨r,hr,hpart.wf,hpart.denote⟩

def mixedCord : Cord :=
  .concat 404 2 3 (.string [97, 98, 99])
    (.concat 401 1 0 (.function 400 (.applyAccess (.client fun i => UInt8.ofNat i) 5)) (.string [100]))

theorem substr_denotes_iff_mixedCord :
    Kept mixedCord ∧
      ∃ r, substr (balance 1) mixedCord 2 350 = .ok r ∧ r.WellFormed ∧
        r.denote = (mixedCord.denote.drop 2).take 350 := by
  have hkept : Kept mixedCord := ⟨by decide,by decide,by decide⟩
  exact ⟨hkept,(substr_denotes_iff (balance 1) mixedCord 2 350 hkept (by decide)).mpr
    (.inr (.inr (.inl (by decide))))⟩

/-- The rest of `"ab"` from its second character on is to be `"b"`, but it has a length of
`SIZE_MAX`. -/
theorem substr_wraps : Kept (.string [97, 98]) ∧ ¬ ∃ r,
    substr (balance 1) (.string [97, 98]) 1 wordMax = .ok r ∧ r.WellFormed ∧
      r.denote = ((Cord.string [97, 98]).denote.drop 1).take wordMax := by
  have hkept : Kept (.string [97,98]) := ⟨by decide,by decide,by decide⟩
  refine ⟨hkept,?_⟩
  rintro ⟨r,hr,-,hdenote⟩
  rw [substr_wrapped hkept (by decide) (by decide) le_rfl] at hr
  have hlong : ¬ CopiesTerminator (.string [97,98]) 1 wordMax := fun h => absurd h.1 (by decide)
  have hlength := ((overrun_spec hkept (by decide) (by decide) le_rfl).wrong hlong r hr).2
  rw [hdenote,take_of_length_le (by decide)] at hlength
  revert hlength
  decide

end GcUtil.Cords.Substrings
