import GcUtil.Cords.Balancing

/-! Flattening: `CORD_iter5` hands the leaves of a cord to functions that fill a buffer. -/
namespace GcUtil.Cords.Flattening
open Basic Nodes Operations Concatenation Balancing List

section Iteration
variable {σ : Type} (f1 : UInt8 → σ → Result (Bool × σ))

def visit : List UInt8 → σ → Result (Bool × σ)
  | [], d => .ok (false, d)
  | c :: t, d => do
    let (stop, d) ← f1 c d
    if stop then return (true, d) else visit t d

def iter5 (f2 : Option (List UInt8 → σ → Result (Bool × σ))) : Cord → Nat → σ → Result (Bool × σ)
  | .empty, _, d => .ok (false, d)
  | .string s, i, d =>
    if s.length < i then .error .outOfBounds
    else if s.length = i then .error (.abort "2nd arg to CORD_iter5 too big")
    else
      match f2 with
      | some f2 => f2 (s.drop i) d
      | none => visit f1 (s.drop i) d
  | .concat len _ leftLen left right, i, d =>
    if i > 0 ∧ i ≥ leftLenOf len leftLen left right then
      iter5 f2 right (i - leftLenOf len leftLen left right) d
    else do
      let (stop, d) ← iter5 f2 left i d
      if stop then return (true, d) else iter5 f2 right 0 d
  | .function len fn, i, d => visit f1 (((List.range len).map fn.call).drop i) d

end Iteration

structure FillData where
  len : Nat
  count : Nat
  buf : List UInt8

def FillData.store (d : FillData) (c : UInt8) : Result FillData :=
  if d.count < d.buf.length then .ok { d with buf := d.buf.set d.count c } else .error .outOfBounds

def fillProc (c : UInt8) (d : FillData) : Result (Bool × FillData) := do
  let d ← d.store c
  return (decide (d.count + 1 ≥ d.len), { d with count := d.count + 1 })

/-- `CORD_batched_fill_proc`, which stores the terminator too. -/
def batchedFillProc : List UInt8 → FillData → Result (Bool × FillData)
  | [], d => do return (false, ← d.store 0)
  | c :: t, d => do
    let (full, d) ← fillProc c d
    if full then return (true, d) else batchedFillProc t d

def fillBuf (x : Cord) (i len : Nat) (buf : List UInt8) : Result (Bool × List UInt8) := do
  let (full, d) ← iter5 fillProc (some batchedFillProc) x i ⟨len, 0, buf⟩
  return (full, d.buf)

/-- `CORD_to_char_star`; `malloc` gives the contents of a new object, if there is one. -/
def toCharStar (malloc : Nat → Option (List UInt8)) (x : Cord) : Result (List UInt8) := do
  let len := x.cordLen
  match malloc (wordAdd len 1) with
  | none => .error (.abort "Out of memory")
  | some result =>
    let (full, result) ← (if len > 0 then fillBuf x 0 len result else .ok (true, result))
    if !full then .error (.abort "CORD_fill_buf malfunction")
    else if len < result.length then .ok (result.set len 0)
    else .error .outOfBounds

/-- An object has the bytes asked for, and possibly more, in the address space. -/
def Serves (malloc : Nat → Option (List UInt8)) : Prop :=
  ∀ n buf, malloc n = some buf → n ≤ buf.length ∧ buf.length < wordMax

/-- `d'` is `d` with `s` behind what was stored before, and nothing changed beyond the end. -/
structure Stored (d d' : FillData) (s : List UInt8) : Prop where
  len : d'.len = d.len
  count : d'.count = d.count + s.length
  size : d'.buf.length = d.buf.length
  stored : d'.buf.take d'.count = d.buf.take d.count ++ s
  beyond : d'.buf.drop d.len = d.buf.drop d.len

structure Ready (d : FillData) : Prop where
  count : d.count < d.len
  size : d.len ≤ d.buf.length

/-- As much of `s` is stored as there is room for, and the result tells if the buffer is full. -/
def Fills (d : FillData) (s : List UInt8) (res : Result (Bool × FillData)) : Prop :=
  ∃ d', res = .ok (decide (d.len ≤ d.count + s.length), d') ∧ Stored d d' (s.take (d.len - d.count))

variable {d d' : FillData} {s t : List UInt8} {res : Result (Bool × FillData)}

theorem Stored.trans {d₁ : FillData} (h : Stored d d₁ s) (h' : Stored d₁ d' t) :
    Stored d d' (s ++ t) where
  len := h'.len.trans h.len
  count := by rw [h'.count,h.count,length_append,Nat.add_assoc]
  size := h'.size.trans h.size
  stored := by rw [h'.stored,h.stored,append_assoc]
  beyond := by rw [← h.len,h'.beyond,h.len,h.beyond]

theorem fillProc_stored (h : Ready d) (c : UInt8) :
    ∃ d', fillProc c d = .ok (decide (d.len ≤ d.count + 1), d') ∧ Stored d d' [c] := by
  have hlt : d.count < d.buf.length := h.count.trans_le h.size
  refine ⟨{ d with buf := d.buf.set d.count c, count := d.count + 1 },?_,rfl,rfl,by simp,?_,?_⟩
  · rw [fillProc,FillData.store,if_pos hlt]
    rfl
  · rw [take_succ_eq_append_getElem (by simpa using hlt)]
    simp [take_set_of_le]
  · exact drop_set_of_lt h.count

theorem fills_nil (h : Ready d) : Fills d [] (.ok (false, d)) := by
  refine ⟨d,?_,rfl,by simp,rfl,by simp,rfl⟩
  simp [h.count]

/-- The characters `t` follow unless the buffer is full. -/
theorem fills_append {k : FillData → Result (Bool × FillData)} (hd : Ready d) (h : Fills d s res)
    (hk : ∀ d', Ready d' → Fills d' t (k d')) :
    Fills d (s ++ t) (res >>= fun p => if p.1 = true then .ok (true, p.2) else k p.2) := by
  obtain ⟨d₁,hres,hstored⟩ := h
  have hsize := hstored.size
  have hcount := hstored.count
  have hlen := hstored.len
  rw [length_take] at hcount
  have hfit := hd.size
  by_cases hfull : d.len ≤ d.count + s.length
  · refine ⟨d₁,?_,?_⟩
    · rw [hres,decide_eq_true hfull,decide_eq_true (by simp; omega)]
      rfl
    · rwa [take_append_of_le_length (by omega)]
  · have hready : Ready d₁ := ⟨by omega,by omega⟩
    obtain ⟨d',hd',hstored'⟩ := hk d₁ hready
    rw [take_of_length_le (by omega)] at hstored
    refine ⟨d',?_,?_⟩
    · rw [hres,decide_eq_false hfull]
      change k d₁ = _
      rw [hd',hlen,hstored.count,length_append,Nat.add_assoc]
    · rw [take_append,take_of_length_le (by omega)]
      have hroom : d₁.len - d₁.count = d.len - d.count - s.length := by omega
      rw [← hroom]
      exact hstored.trans hstored'

theorem fills_fillProc (hd : Ready d) (c : UInt8) : Fills d [c] (fillProc c d) := by
  obtain ⟨d',hd',hstored⟩ := fillProc_stored hd c
  refine ⟨d',hd',?_⟩
  rwa [take_of_length_le]
  have := hd.count
  simp
  omega

theorem fills_visit (s : List UInt8) (hd : Ready d) : Fills d s (visit fillProc s d) := by
  induction s generalizing d with
  | nil => exact fills_nil hd
  | cons c s ih => exact fills_append hd (fills_fillProc hd c) fun d' hd' => ih hd'

theorem fills_batched (s : List UInt8) (hd : Ready d) : Fills d s (batchedFillProc s d) := by
  induction s generalizing d with
  | nil =>
    have hlt : d.count < d.buf.length := hd.count.trans_le hd.size
    refine ⟨{ d with buf := d.buf.set d.count 0 },?_,rfl,by simp,by simp,?_,?_⟩
    · rw [batchedFillProc,FillData.store,if_pos hlt]
      simp [hd.count]
    · simp [take_set_of_le]
    · exact drop_set_of_lt hd.count
  | cons c s ih => exact fills_append hd (fills_fillProc hd c) fun d' hd' => ih hd'

theorem fills_iter5 {x : Cord} {i : Nat} (hx : x.WellFormed) (hlen : x.genLen ≤ wordMax)
    (hi : i < x.denote.length) (hd : Ready d) :
    Fills d (x.denote.drop i) (iter5 fillProc (some batchedFillProc) x i d) := by
  induction x generalizing i d with
  | empty => cases hi
  | string s =>
    simp only [Cord.denote] at hi ⊢
    rw [iter5,if_neg (by omega),if_neg (by omega)]
    exact fills_batched _ hd
  | function len fn => exact fills_visit _ hd
  | concat len depth leftLen left right ihl ihr =>
    have hpos := length_pos hx.2.1 hx.2.2.2.1
    have hpos' := length_pos hx.1 hx.2.2.1
    have hsum : len = left.genLen + right.genLen := hx.2.2.2.2.1
    have hmax : len ≤ wordMax := hlen
    rw [Cord.denote,length_append] at hi
    rw [iter5,leftLenOf_eq hx hlen,Cord.denote]
    split
    · case isTrue hright =>
      rw [drop_append,drop_of_length_le hright.2,nil_append]
      exact ihr hx.2.1 (by omega) (by omega) hd
    · case isFalse hleft =>
      rw [drop_append_of_le_length (by omega)]
      apply fills_append hd (ihl hx.1 (by omega) (by omega) hd)
      intro d' hd'
      have hright := ihr (i := 0) hx.2.1 (by omega) hpos hd'
      rwa [drop_zero] at hright

theorem fillBuf_spec {x : Cord} {i n : Nat} {buf : List UInt8} (hx : x.WellFormed)
    (hlen : x.genLen ≤ wordMax) (hn : 0 < n) (hend : i + n ≤ x.denote.length) (hbuf : n ≤ buf.length) :
    fillBuf x i n buf = .ok (true, (x.denote.drop i).take n ++ buf.drop n) := by
  obtain ⟨d',hd',hstored⟩ :=
    fills_iter5 (i := i) (d := ⟨n,0,buf⟩) hx hlen (by omega) ⟨hn,hbuf⟩
  have hcount := hstored.count
  have htake := hstored.stored
  have hdrop := hstored.beyond
  have hfull : d'.count = n := by
    rw [hcount]
    simp
    omega
  rw [hfull] at htake
  simp only [Nat.sub_zero,take_zero,nil_append] at htake
  rw [fillBuf,hd',← htake]
  simp only [← hdrop]
  rw [decide_eq_true (by simp; omega)]
  exact congrArg (fun buf => Except.ok (true, buf)) (take_append_drop n d'.buf).symm

section Overflow

/-- The buffer ends before the length that is to be filled. -/
structure Short (d : FillData) : Prop where
  count : d.count ≤ d.buf.length
  size : d.buf.length < d.len

/-- A store is beyond the end of the buffer, or all of `s` is stored before it. -/
def Spills (d : FillData) (s : List UInt8) (res : Result (Bool × FillData)) : Prop :=
  res = .error .outOfBounds ∨ ∃ d', res = .ok (false, d') ∧ Short d' ∧ d'.buf.length = d.buf.length ∧
    d'.count = d.count + s.length

theorem spills_append {k : FillData → Result (Bool × FillData)} (h : Spills d s res)
    (hk : ∀ d', Short d' → Spills d' t (k d')) :
    Spills d (s ++ t) (res >>= fun p => if p.1 = true then .ok (true, p.2) else k p.2) := by
  rcases h with rfl | ⟨d₁,rfl,hshort,hsize,hcount⟩
  · exact .inl rfl
  · change Spills d (s ++ t) (k d₁)
    rcases hk d₁ hshort with herr | ⟨d',hd',hshort',hsize',hcount'⟩
    · exact .inl herr
    · refine .inr ⟨d',hd',hshort',hsize'.trans hsize,?_⟩
      rw [hcount',hcount,length_append,Nat.add_assoc]

theorem store_spills (d : FillData) (c : UInt8) : d.store c = .error .outOfBounds ∨
    d.store c = .ok { d with buf := d.buf.set d.count c } ∧ d.count < d.buf.length := by
  unfold FillData.store
  by_cases hlt : d.count < d.buf.length
  · exact .inr ⟨if_pos hlt,hlt⟩
  · exact .inl (if_neg hlt)

theorem spills_fillProc (hd : Short d) (c : UInt8) : Spills d [c] (fillProc c d) := by
  have hsize := hd.size
  rcases store_spills d c with herr | ⟨hstore,hlt⟩
  · left
    rw [fillProc,herr]
    rfl
  · refine .inr ⟨{ d with buf := d.buf.set d.count c, count := d.count + 1 },?_,⟨by simpa using hlt,by simpa⟩,by simp,
      rfl⟩
    rw [fillProc,hstore]
    change Except.ok (decide (d.count + 1 ≥ d.len), _) = _
    rw [decide_eq_false (by omega)]

theorem spills_visit (s : List UInt8) (hd : Short d) : Spills d s (visit fillProc s d) := by
  induction s generalizing d with
  | nil => exact .inr ⟨d,rfl,hd,rfl,rfl⟩
  | cons c s ih => exact spills_append (spills_fillProc hd c) fun d' hd' => ih hd'

theorem spills_batched (s : List UInt8) (hd : Short d) : Spills d s (batchedFillProc s d) := by
  induction s generalizing d with
  | nil =>
    rcases store_spills d 0 with herr | ⟨hstore,hlt⟩
    · left
      rw [batchedFillProc,herr]
      rfl
    · refine .inr ⟨{ d with buf := d.buf.set d.count 0 },?_,⟨by simpa using hd.count,by simpa using hd.size⟩,
        by simp,rfl⟩
      rw [batchedFillProc,hstore]
      rfl
  | cons c s ih => exact spills_append (spills_fillProc hd c) fun d' hd' => ih hd'

theorem spills_iter5 {x : Cord} (hx : x.WellFormed) (hd : Short d) :
    Spills d x.denote (iter5 fillProc (some batchedFillProc) x 0 d) := by
  induction x generalizing d with
  | empty => exact .inr ⟨d,rfl,hd,rfl,rfl⟩
  | string s =>
    have hpos := List.length_pos_iff.mpr hx.1
    rw [iter5,if_neg (by omega),if_neg (by omega)]
    exact spills_batched _ hd
  | function len fn => exact spills_visit _ hd
  | concat len depth leftLen left right ihl ihr =>
    rw [iter5,if_neg (by omega),Cord.denote]
    exact spills_append (ihl hx.1 hd) fun d' hd' => ihr hx.2.1 hd'

theorem fillBuf_overflows {x : Cord} {n : Nat} {buf : List UInt8} (hx : x.WellFormed) (hn : buf.length < n)
    (htext : buf.length < x.denote.length) : fillBuf x 0 n buf = .error .outOfBounds := by
  have hspills : Spills ⟨n,0,buf⟩ x.denote _ := spills_iter5 hx ⟨Nat.zero_le _,hn⟩
  rcases hspills with herr | ⟨d',_,hshort,hsize,hcount⟩
  · rw [fillBuf,herr]
    rfl
  · have hle := hshort.count
    dsimp only at hsize hcount
    omega

end Overflow

section ToCharStar
variable {malloc : Nat → Option (List UInt8)} {x : Cord} {buf : List UInt8} (hmalloc : Serves malloc)
include hmalloc

theorem toCharStar_spec (hx : x.WellFormed) (hlen : x.denote.length < wordMax)
    (hbuf : malloc (x.denote.length + 1) = some buf) :
    toCharStar malloc x = .ok (x.denote ++ 0 :: buf.drop (x.denote.length + 1)) := by
  set n := x.denote.length with hn
  have hsize := (hmalloc _ _ hbuf).1
  have hfill : (if n > 0 then fillBuf x 0 n buf else .ok (true, buf)) = .ok (true, x.denote ++ buf.drop n) := by
    split
    · case isTrue hpos =>
      rw [fillBuf_spec hx ((Cord.genLen_eq_length hx).trans_le hlen.le) hpos (by omega) (by omega),drop_zero,hn,
        take_length]
    · case isFalse hzero =>
      rw [eq_nil_of_length_eq_zero (by omega : x.denote.length = 0)]
      simp [show n = 0 by omega]
  rw [toCharStar,Cord.cordLen_eq_length hx,← hn,wordAdd_of_le hlen,hbuf]
  dsimp only
  rw [hfill]
  change (if n < (x.denote ++ buf.drop n).length then _ else _) = _
  rw [if_pos (by simp; omega),set_append_right _ _ hn.ge,← hn,Nat.sub_self,
    drop_eq_getElem_cons (by omega : n < buf.length),set_cons_zero]

theorem toCharStar_overflow (hx : x.WellFormed) (hlen : x.denote.length = wordMax) (hbuf : malloc 0 = some buf) :
    toCharStar malloc x = .error .outOfBounds := by
  have hzero : wordAdd wordMax 1 = 0 := by decide +kernel
  have hsize := (hmalloc _ _ hbuf).2
  rw [toCharStar,Cord.cordLen_eq_length hx,hlen,hzero,hbuf]
  dsimp only
  rw [if_pos (by decide),fillBuf_overflows hx hsize (by omega)]
  rfl

end ToCharStar

/-- The buffer holds the characters that were asked for and is otherwise unchanged. The text of a
whole cord comes back with its terminator if and only if there is memory for it and its length is
not `SIZE_MAX`, when `len + 1` is 0. -/
theorem fillBuf_exact (malloc : Nat → Option (List UInt8)) (x : Cord) (hx : x.WellFormed)
    (hlen : x.cordLen ≤ wordMax) (hmalloc : Serves malloc) :
    (∀ i n buf, 0 < n → i + n ≤ x.cordLen → n ≤ buf.length →
      fillBuf x i n buf = .ok (true, (x.denote.drop i).take n ++ buf.drop n)) ∧
    ((∃ rest, toCharStar malloc x = .ok (x.denote ++ 0 :: rest)) ↔
      x.cordLen < wordMax ∧ malloc (x.cordLen + 1) ≠ none) := by
  rw [Cord.cordLen_eq_length hx] at hlen ⊢
  constructor
  · intro i n buf hn hend hbuf
    apply fillBuf_spec hx _ hn hend hbuf
    rwa [Cord.genLen_eq_length hx]
  · constructor
    · rintro ⟨rest,htext⟩
      rcases Nat.lt_or_ge x.denote.length wordMax with hlt | hge
      · refine ⟨hlt,fun hnone => ?_⟩
        rw [toCharStar,Cord.cordLen_eq_length hx,wordAdd_of_le hlt,hnone] at htext
        cases htext
      · cases hbuf : malloc 0 with
        | none =>
          rw [toCharStar,Cord.cordLen_eq_length hx,show x.denote.length = wordMax by omega,
            show wordAdd wordMax 1 = 0 by decide +kernel,hbuf] at htext
          cases htext
        | some buf =>
          rw [toCharStar_overflow hmalloc hx (by omega) hbuf] at htext
          cases htext
    · rintro ⟨hlt,hsome⟩
      obtain ⟨buf,hbuf⟩ := Option.ne_none_iff_exists'.mp hsome
      exact ⟨_,toCharStar_spec hmalloc hx hlt hbuf⟩

def mixedLeaves : Cord :=
  .concat 5 2 3 (.concat 3 1 0 (.string [97]) (.function 2 (.client fun _ => 0))) (.string [98, 99])

/-- Objects of whole granules, of which there is always one. -/
def granules (n : Nat) : Option (List UInt8) :=
  if n < sizetSignb then some (List.replicate (n / 16 * 16 + 16) 7) else none

theorem granules_serves : Serves granules := by
  intro n buf hbuf
  unfold granules at hbuf
  split at hbuf
  · cases hbuf
    simp only [length_replicate,wordMax,sizetSignb] at *
    omega
  · cases hbuf

theorem fillBuf_exact_mixedLeaves :
    ∃ rest, toCharStar granules mixedLeaves = .ok ([97, 0, 0, 98, 99] ++ 0 :: rest) :=
  (fillBuf_exact granules mixedLeaves (by decide) (by decide) granules_serves).2.mpr ⟨by decide,by decide⟩

/-- A function node of `SIZE_MAX` characters. The object for its text is that for no bytes. -/
theorem toCharStar_overflows : (Cord.function wordMax (.client fun _ => 65)).WellFormed ∧
    toCharStar granules (.function wordMax (.client fun _ => 65)) = .error .outOfBounds := by
  refine ⟨by decide,toCharStar_overflow granules_serves (by decide) ?_ rfl⟩
  rw [Cord.denote,length_map,length_range]

end GcUtil.Cords.Flattening
