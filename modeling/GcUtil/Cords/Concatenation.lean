import GcUtil.Cords.Operations

/-! What the constructors return: a well-formed node that denotes the concatenation, or what
balancing makes of that node once it is too deep. -/
namespace GcUtil.Cords.Concatenation
open Basic Nodes Operations List

def charMax : Nat := 127

def Joins (bal : Cord → Result Cord) (r : Result Cord) (s : List UInt8) (d : Nat) : Prop :=
  ∃ node : Cord, node.WellFormed ∧ node.denote = s ∧ node.height ≤ 1 + d ∧
    (r = .ok node ∧ (node.height ≤ d ∨ node.height < cordMaxDepth) ∨
      cordMaxDepth ≤ node.height ∧ r = bal node)

variable {bal : Cord → Result Cord} {x y : Cord} {s t : List UInt8} {n d : Nat}

theorem joins_ok (hwf : x.WellFormed) (hd : x.height ≤ d) : Joins bal (.ok x) x.denote d :=
  ⟨x,hwf,rfl,hd.trans (Nat.le_add_left d 1),.inl ⟨rfl,.inl hd⟩⟩

theorem Joins.mono {r : Result Cord} {e : Nat} (h : Joins bal r s d) (hle : d ≤ e) :
    Joins bal r s e := by
  obtain ⟨node,hwf,hdenote,hd,hr⟩ := h
  refine ⟨node,hwf,hdenote,by omega,?_⟩
  rcases hr with ⟨hr,hheight⟩ | hr
  · exact .inl ⟨hr,hheight.imp_left fun h => h.trans hle⟩
  · exact .inr hr

theorem Joins.ok {r : Result Cord} (h : Joins bal r s d) (hd : 1 + d < cordMaxDepth) :
    ∃ node : Cord, r = .ok node ∧ node.WellFormed ∧ node.denote = s ∧ node.height ≤ 1 + d := by
  obtain ⟨node,hwf,hdenote,hheight,⟨hr,-⟩ | ⟨hdeep,-⟩⟩ := h
  · exact ⟨node,hr,hwf,hdenote,hheight⟩
  · omega

theorem general_joins {lenX resultLen : Nat} {depth : Int} (hx : x.WellFormed) (hy : y.WellFormed)
    (hxe : x.isEmpty = false) (hye : y.isEmpty = false) (hlenX : lenX = x.genLen)
    (hlen : resultLen = x.genLen + y.genLen) (hdepth : depth = 1 + max x.depth y.depth)
    (hd : 1 + max x.height y.height ≤ charMax) :
    Joins bal (general bal x y lenX resultLen depth) (x.denote ++ y.denote)
      (max x.height y.height) := by
  have hheight : depth = (1 + max x.height y.height : Nat) := by
    rw [hdepth,Cord.depth_eq_height hx,Cord.depth_eq_height hy]
    omega
  have hchar : toChar depth = depth := by
    rw [hheight]
    exact toChar_of_le hd
  refine ⟨.concat resultLen (toChar depth) (if lenX ≤ maxLeftLen then lenX else 0) x y,?_,
    rfl,le_rfl,?_⟩
  · refine ⟨hx,hy,hxe,hye,hlen,?_,hchar.trans hdepth⟩
    split
    · exact .inr hlenX
    · exact .inl rfl
  · unfold general
    dsimp only
    split
    · case isTrue hdeep =>
      rw [hheight] at hdeep
      exact .inr ⟨Int.ofNat_le.mp hdeep,rfl⟩
    · case isFalse hdeep =>
      rw [hheight] at hdeep
      exact .inl ⟨rfl,.inr (Int.ofNat_lt.mp (Int.lt_of_not_ge hdeep))⟩

theorem terminated_eq (hs : 0 ∉ s) : terminated s n = s.take n := by
  unfold terminated copyCharSubstr
  split
  · case isTrue hnul =>
    rcases Nat.lt_or_ge n s.length with hlt | hge
    · rw [getD_eq_getElem _ _ hlt] at hnul
      exact absurd (hnul ▸ getElem_mem hlt) hs
    · rw [take_of_length_le hge]
  · rfl

theorem take_wellFormed (hs : 0 ∉ s) (hn : n ≠ 0) (hle : n ≤ s.length) :
    (Cord.string (s.take n)).WellFormed := by
  refine ⟨?_,fun h => hs (mem_of_mem_take h)⟩
  rw [Ne,take_eq_nil_iff]
  rintro (h | h)
  · exact hn h
  · rw [h] at hle
    exact hn (Nat.le_zero.mp hle)

theorem general_string_joins {lenX resultLen : Nat} {depth : Int} (hx : x.WellFormed)
    (hxe : x.isEmpty = false) (ht : (Cord.string t).WellFormed) (hlenX : lenX = x.genLen)
    (hlen : resultLen = x.genLen + t.length) (hdepth : depth = x.depth + 1)
    (hd : 1 + x.height ≤ charMax) :
    Joins bal (general bal x (.string t) lenX resultLen depth) (x.denote ++ t) x.height := by
  have hmax : max x.height (Cord.string t).height = x.height := Nat.max_zero _
  have hnonneg : 0 ≤ x.depth := by
    rw [Cord.depth_eq_height hx]
    exact Int.natCast_nonneg _
  have hsum : depth = 1 + max x.depth (Cord.string t).depth := by
    rw [hdepth,show (Cord.string t).depth = 0 from rfl]
    omega
  have hjoin : Joins bal (general bal x (.string t) lenX resultLen depth) _ _ :=
    general_joins hx ht hxe rfl hlenX hlen hsum (by rw [hmax]; exact hd)
  rw [hmax] at hjoin
  exact hjoin

theorem rightStringLen_eq {lenX leftLen : Nat} {depth : Int} {left : Cord}
    (h : (Cord.concat lenX depth leftLen left (.string t)).WellFormed) (hmax : lenX ≤ wordMax) :
    rightStringLen lenX leftLen left t = t.length := by
  obtain ⟨-,-,-,-,hlen,hleftLen,-⟩ := h
  change lenX = left.genLen + t.length at hlen
  have hsub : wordSub lenX left.genLen = t.length := by
    rw [wordSub_of_le (by omega) hmax]
    omega
  unfold rightStringLen
  split
  · exact hsub
  · split
    · case isTrue hne =>
      rw [hleftLen.resolve_left hne]
      exact hsub
    · rfl

theorem catCharSubstr_wellFormed (hs : (Cord.string s).WellFormed) (ht : 0 ∉ t) :
    (Cord.string (catCharSubstr s s.length t n)).WellFormed := by
  unfold catCharSubstr
  rw [take_length]
  refine ⟨by simp [hs.1],?_⟩
  rw [mem_append]
  rintro (h | h)
  · exact hs.2 h
  · exact ht (mem_of_mem_take h)

theorem merge_joins {lenX leftLen : Nat} {depth : Int} {left : Cord} {right : List UInt8}
    (h : (Cord.concat lenX depth leftLen left (.string right)).WellFormed) (ht : 0 ∉ t)
    (hle : n ≤ t.length) (htotal : lenX + n ≤ wordMax) (hd : 1 + left.height ≤ charMax) :
    Joins bal (general bal left (.string (catCharSubstr right right.length t n))
        (wordSub lenX right.length) (wordAdd (wordSub lenX right.length) (wordAdd right.length n))
        (if left.isString then 1 else left.depth + 1))
      (left.denote ++ right ++ t.take n) left.height := by
  obtain ⟨hleft,hright,hle',-,hlen,-,-⟩ := h
  change lenX = left.genLen + right.length at hlen
  have hsub : wordSub lenX right.length = left.genLen := by
    rw [wordSub_of_le (by omega) (by omega)]
    omega
  have hdepth : (if left.isString then 1 else left.depth + 1) = left.depth + 1 := by
    cases left <;> rfl
  have hnew : (catCharSubstr right right.length t n).length = right.length + n := by
    simp [catCharSubstr,hle]
  have hdenote : left.denote ++ right ++ t.take n =
      left.denote ++ catCharSubstr right right.length t n := by
    simp [catCharSubstr]
  rw [wordAdd_of_le (show right.length + n ≤ wordMax by omega),hsub,hdepth,hdenote,
    wordAdd_of_le (by omega)]
  apply general_string_joins hleft hle' (catCharSubstr_wellFormed hright ht) rfl ?_ rfl hd
  rw [hnew]

theorem catCharStar_joins (hx : x.WellFormed) (ht : 0 ∉ t) (hle : n ≤ t.length)
    (htotal : x.genLen + n ≤ wordMax) (hd : 1 + x.height ≤ charMax) :
    Joins bal (catCharStar bal x t n) (x.denote ++ t.take n) x.height := by
  unfold catCharStar
  rw [terminated_eq ht]
  by_cases hn : n = 0
  · rw [if_pos hn,hn,take_zero,append_nil]
    exact joins_ok hx le_rfl
  rw [if_neg hn]
  have htake := take_wellFormed ht hn hle
  have hlen : (t.take n).length = n := length_take_of_le hle
  -- a node keeps its right part and takes the characters on a new one
  have hnode (hxe : x.isEmpty = false) :
      Joins bal (general bal x (.string (t.take n)) x.genLen (wordAdd x.genLen n) (x.depth + 1))
        (x.denote ++ t.take n) x.height := by
    apply general_string_joins hx hxe htake rfl ?_ rfl hd
    rw [wordAdd_of_le htotal,hlen]
  match x, hx, hnode with
  | .empty, _, _ => exact joins_ok (x := .string (t.take n)) htake (Nat.zero_le _)
  | .string s, hx, hnode =>
    dsimp only
    split
    · have hcat := catCharSubstr_wellFormed (n := n) hx ht
      have hdenote : (Cord.string s).denote ++ t.take n = catCharSubstr s s.length t n := by
        simp [catCharSubstr,Cord.denote]
      rw [hdenote]
      exact joins_ok (x := .string (catCharSubstr s s.length t n)) hcat (Nat.zero_le _)
    · exact hnode rfl
  | .function len fn, _, hnode => exact hnode rfl
  | .concat lenX depth leftLen left .empty, hx, hnode => exact hnode rfl
  | .concat lenX depth leftLen left (.concat _ _ _ _ _), hx, hnode => exact hnode rfl
  | .concat lenX depth leftLen left (.function _ _), hx, hnode => exact hnode rfl
  | .concat lenX depth leftLen left (.string right), hx, hnode =>
    have hlenX : lenX ≤ wordMax := Nat.le_of_add_right_le htotal
    dsimp only
    rw [rightStringLen_eq hx hlenX]
    split
    · have hheight : left.height ≤ (Cord.concat lenX depth leftLen left (.string right)).height := by
        simp only [Cord.height]
        omega
      have hmerge : Joins bal _ _ _ := merge_joins hx ht hle htotal (by omega)
      exact hmerge.mono hheight
    · exact hnode rfl

@[simp]
theorem cat_empty_left (y : Cord) : cat bal .empty y = .ok y := by
  cases y <;> rfl

@[simp]
theorem cat_empty_right (x : Cord) : cat bal x .empty = .ok x := by
  cases x <;> rfl

theorem cat_string (hxe : x.isEmpty = false) : cat bal x (.string s) = catCharStar bal x s s.length := by
  cases x with
  | empty => cases hxe
  | _ => rfl

/-- The depth is that of the deeper part and one, whichever of the cases computes it. -/
theorem cat_rep (hx : x.WellFormed) (hy : y.WellFormed) (hxe : x.isEmpty = false)
    (hye : y.isEmpty = false) (hys : y.isString = false) :
    cat bal x y =
      general bal x y x.genLen (wordAdd x.genLen y.genLen) (1 + max x.depth y.depth) := by
  have hnx := Cord.depth_eq_height hx
  have hny := Cord.depth_eq_height hy
  have hstring {s : List UInt8} (hx : x = .string s) : y.depth + 1 = 1 + max x.depth y.depth := by
    rw [hx,show (Cord.string s).depth = 0 from rfl]
    omega
  have hdeeper : (if y.depth ≥ x.depth + 1 then y.depth + 1 else x.depth + 1) =
      1 + max x.depth y.depth := by
    split <;> omega
  cases x with
  | empty => cases hxe
  | string s =>
    rw [← hstring rfl]
    cases y with
    | empty => cases hye
    | string t => cases hys
    | _ => rfl
  | _ =>
    rw [← hdeeper]
    cases y with
    | empty => cases hye
    | string t => cases hys
    | _ => rfl

theorem cat_joins (hx : x.WellFormed) (hy : y.WellFormed) (htotal : x.genLen + y.genLen ≤ wordMax)
    (hd : 1 + max x.height y.height ≤ charMax) :
    Joins bal (cat bal x y) (x.denote ++ y.denote) (max x.height y.height) := by
  cases hxe : x.isEmpty with
  | true =>
    rw [(Cord.isEmpty_iff x).mp hxe,cat_empty_left]
    exact joins_ok hy (by omega)
  | false =>
    cases hye : y.isEmpty with
    | true =>
      rw [(Cord.isEmpty_iff y).mp hye,cat_empty_right,Cord.denote,append_nil]
      exact joins_ok hx (by omega)
    | false =>
      cases y with
      | empty => cases hye
      | string t =>
        have hstar : Joins bal (catCharStar bal x t t.length) _ _ :=
          catCharStar_joins hx hy.2 le_rfl htotal (by omega)
        rw [cat_string hxe]
        rw [take_length] at hstar
        exact hstar.mono (by omega)
      | _ =>
        rw [cat_rep hx hy hxe rfl rfl]
        exact general_joins hx hy hxe rfl rfl (wordAdd_of_le htotal) rfl hd

theorem fromFn_wellFormed (fn : CordFn) (len : Nat) : (fromFn fn len).WellFormed := by
  unfold fromFn copyCharSubstr
  split
  · trivial
  · case isFalse hlen =>
    dsimp only
    split
    · case isTrue hshort =>
      apply take_wellFormed hshort.2 hlen
      simp
    · exact Nat.pos_of_ne_zero hlen

theorem denote_fromFn (fn : CordFn) (len : Nat) :
    (fromFn fn len).denote = (List.range len).map fn.call := by
  unfold fromFn copyCharSubstr
  split
  · case isTrue hlen =>
    rw [hlen]
    rfl
  · dsimp only
    split
    · rw [Cord.denote,take_of_length_le (by simp)]
    · rfl

theorem height_fromFn (fn : CordFn) (len : Nat) : (fromFn fn len).height = 0 := by
  unfold fromFn
  split
  · rfl
  · dsimp only
    split <;> rfl

/-- What the constructors keep to: the depth limit, and lengths that are a `size_t`. -/
structure Kept (x : Cord) : Prop where
  wf : x.WellFormed
  depth : x.depth < cordMaxDepth
  len : x.genLen ≤ wordMax

theorem Kept.height (h : Kept x) : x.height < cordMaxDepth := by
  have hdepth := h.depth
  rw [Cord.depth_eq_height h.wf] at hdepth
  exact Int.ofNat_lt.mp hdepth

theorem Kept.length_le (h : Kept x) : x.denote.length ≤ wordMax :=
  (Cord.genLen_eq_length h.wf).symm.trans_le h.len

section Parts
variable {len leftLen : Nat} {depth : Int} {left right : Cord}

theorem kept_left (h : Kept (.concat len depth leftLen left right)) : Kept left := by
  obtain ⟨⟨hleft,-,-,-,hlen,-,hd⟩,hdepth,hmax⟩ := h
  refine ⟨hleft,?_,?_⟩
  · simp only [Cord.depth] at hdepth
    omega
  · simp only [Cord.genLen] at hmax
    omega

theorem kept_right (h : Kept (.concat len depth leftLen left right)) : Kept right := by
  obtain ⟨⟨-,hright,-,-,hlen,-,hd⟩,hdepth,hmax⟩ := h
  refine ⟨hright,?_,?_⟩
  · simp only [Cord.depth] at hdepth
    omega
  · simp only [Cord.genLen] at hmax
    omega

theorem leftLenOf_eq (h : (Cord.concat len depth leftLen left right).WellFormed) (hmax : len ≤ wordMax) :
    leftLenOf len leftLen left right = left.denote.length := by
  obtain ⟨hleft,-,-,-,hlen,hleftLen,-⟩ := h
  rw [← Cord.genLen_eq_length hleft]
  unfold leftLenOf
  split
  · case isTrue hne => exact hleftLen.resolve_left hne
  · split
    · rw [wordSub_of_le (by omega) hmax]
      omega
    · rfl

end Parts

end GcUtil.Cords.Concatenation
