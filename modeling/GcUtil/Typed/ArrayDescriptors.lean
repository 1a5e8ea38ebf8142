import GcUtil.Typed.Descriptors

/-! The descriptors of typed arrays: how `GC_make_array_descriptor` combines the descriptor of one
element into a simple one, a leaf or a sequence, and which slots of the array these stand for. -/
namespace GcUtil.Typed.ArrayDescriptors
open Mark.Ranges Mark.Machine Mark.Compressed Descriptors Option

section Model

/-- The first step of `GC_double_descr`: a length as the bitmap of an object of pointers. -/
def asBitmap (d : BitVec 64) : BitVec 64 :=
  if dsTag d.toNat = .length then
    if d.toNat < 8 then 1#64 else BitVec.allOnes 64 <<< (64 - d.toNat / 8) ||| 1#64
  else d

def doubleDescr (d : BitVec 64) (lpw : Nat) : BitVec 64 :=
  asBitmap d ||| (asBitmap d &&& ~~~3#64) >>> lpw

inductive ComplexDescriptor where
  | leaf (size nelements : Nat) (d : BitVec 64)
  | sequence (first second : ComplexDescriptor)
deriving DecidableEq, Repr

/-- `SIMPLE`, `LEAF` and `COMPLEX`, with the values returned through pointers. -/
inductive ArrayDescr where
  | simple (d : BitVec 64)
  | leaf (size nelements : Nat) (d : BitVec 64)
  | complex (c : ComplexDescriptor)
deriving DecidableEq, Repr

def request : List Bool → Option (List Bool)
  | true :: answers => some answers
  | _ => none

def makeLeafDescriptor (size nelements : Nat) (d : BitVec 64) (answers : List Bool) :
    Option (ComplexDescriptor × List Bool) :=
  (request answers).map fun answers => (.leaf size nelements d, answers)

def makeSequenceDescriptor (first second : ComplexDescriptor) (answers : List Bool) :
    Option (ComplexDescriptor × List Bool) :=
  (request answers).map fun answers => (.sequence first second, answers)

/-- The descriptor for the elements before the last one, as a `complex_descriptor`. -/
def makeBeginning (size : Nat) (result : ArrayDescr) (answers : List Bool) :
    Option (ComplexDescriptor × List Bool) :=
  match result with
  | .complex c => some (c, answers)
  | .simple d => makeLeafDescriptor size 1 d answers
  | .leaf size' nelements d => makeLeafDescriptor size' nelements d answers

def optThreshold : Nat := 50

/-- `GC_make_array_descriptor`; `none` is `NO_MEM`. -/
def makeArrayDescriptor (nelements size : Nat) (d : BitVec 64) (answers : List Bool) :
    Option (ArrayDescr × List Bool) :=
  if dsTag d.toNat = .length ∧ d.toNat = size then some (.simple (BitVec.ofNat 64 (nelements * size)), answers)
  else if dsTag d.toNat = .length ∧ d = 0 then some (.simple 0, answers)
  else if nelements ≤ optThreshold then
    if nelements ≤ 1 then some (.simple (if nelements = 1 then d else 0), answers)
    else some (.leaf size nelements d, answers)
  else if size ≤ bitmapBits / 2 ∧ dsTag d.toNat ≠ .proc ∧ size % 8 = 0 then
    (makeArrayDescriptor (nelements / 2) (2 * size) (doubleDescr d (size / 8)) answers).bind fun r =>
      if nelements % 2 = 0 then some r
      else
        (makeLeafDescriptor size 1 d r.2).bind fun oneElement =>
          (makeBeginning size r.1 oneElement.2).bind fun beginning =>
            (makeSequenceDescriptor beginning.1 oneElement.1 beginning.2).map fun c => (.complex c.1, c.2)
  else some (.leaf size nelements d, answers)
termination_by nelements
decreasing_by
  unfold optThreshold at *
  omega

def ComplexDescriptor.objSize : ComplexDescriptor → Nat
  | .leaf size nelements _ => nelements * size
  | .sequence first second => first.objSize + second.objSize

/-- The entries that stand for an object with a complex descriptor. -/
def ComplexDescriptor.entries (current : Nat) : ComplexDescriptor → List Mse
  | .leaf size nelements d => (List.range nelements).map fun i => ⟨current + i * size, d.toNat⟩
  | .sequence first second => first.entries current ++ second.entries (current + first.objSize)

end Model

section Slots

def Slot (d : BitVec 64) (j : Nat) : Prop :=
  match dsTag d.toNat with
  | .length => 8 * (j + 1) ≤ d.toNat
  | .bitmap => j < 62 ∧ d.getLsbD (63 - j) = true
  | _ => False

/-- A length of whole words or a bitmap, with all its slots in an element of a given size. -/
structure Designates (d : BitVec 64) (size : Nat) : Prop where
  kind : dsTag d.toNat = .length ∧ 8 ∣ d.toNat ∨ dsTag d.toNat = .bitmap
  inside : ∀ j, Slot d j → 8 * (j + 1) ≤ size

def ArraySlot (n size : Nat) (d : BitVec 64) (p a : Nat) : Prop :=
  ∃ i < n, ∃ j, Slot d j ∧ a = p + i * size + 8 * j

variable {d : BitVec 64} {j n size p a lpw : Nat}

theorem dsTag_eq_length : dsTag n = .length ↔ n % 4 = 0 := by
  unfold dsTag
  split <;> simp_all

theorem dsTag_eq_bitmap : dsTag n = .bitmap ↔ n % 4 = 1 := by
  unfold dsTag
  split <;> simp_all

theorem slot_length (h : dsTag d.toNat = .length) : Slot d j ↔ 8 * (j + 1) ≤ d.toNat := by
  rw [Slot,h]

theorem slot_bitmap (h : dsTag d.toNat = .bitmap) : Slot d j ↔ j < 62 ∧ d.getLsbD (63 - j) = true := by
  rw [Slot,h]

/-- The turns of the marker on a length or a bitmap read the slots it designates. -/
theorem examined_iff_slot {M : Marker} (h : Designates d size) (hp : 8 ∣ p) :
    M.Examined ⟨p, d.toNat⟩ a ↔ ∃ j, Slot d j ∧ a = p + 8 * j := by
  rcases h.kind with ⟨htag,hdvd⟩ | htag
  · rw [examined_length hp hdvd]
    simp only [slot_length htag]
  · rw [examined_bitmap (dsTag_eq_bitmap.mp htag)]
    simp only [slot_bitmap htag,BitVec.testBit_toNat,and_assoc]

theorem bitmap_mod (h0 : d.getLsbD 0 = true) (h1 : d.getLsbD 1 = false) : dsTag d.toNat = .bitmap := by
  rw [← BitVec.testBit_toNat,Nat.testBit_zero,decide_eq_true_eq] at h0
  rw [← BitVec.testBit_toNat,Nat.testBit_succ,Nat.testBit_zero,decide_eq_false_iff_not] at h1
  rw [dsTag_eq_bitmap]
  omega

theorem getLsbD_of_bitmap (h : dsTag d.toNat = .bitmap) : d.getLsbD 0 = true ∧ d.getLsbD 1 = false := by
  rw [dsTag_eq_bitmap] at h
  rw [← BitVec.testBit_toNat,← BitVec.testBit_toNat,Nat.testBit_succ,Nat.testBit_zero,Nat.testBit_zero]
  constructor
  · rw [decide_eq_true_eq]
    omega
  · rw [decide_eq_false_iff_not]
    omega

end Slots

section Doubling

variable {d : BitVec 64} {j n size p a lpw : Nat}

theorem getLsbD_one_high {k : Nat} (hk : 1 ≤ k) : (1#64).getLsbD k = false := by
  rw [BitVec.getLsbD_one]
  simp
  omega

theorem getLsbD_asBitmap_length (htag : dsTag d.toNat = .length) (hle : d.toNat ≤ 62 * 8) {k : Nat}
    (hk : 1 ≤ k) (hk' : k < 64) : (asBitmap d).getLsbD k = decide (64 ≤ k + d.toNat / 8) := by
  rw [asBitmap,if_pos htag]
  split
  · next hshort =>
    rw [getLsbD_one_high hk,eq_comm,decide_eq_false_iff_not]
    omega
  · rw [BitVec.getLsbD_or,getLsbD_one_high hk,Bool.or_false,BitVec.getLsbD_shiftLeft,BitVec.getLsbD_allOnes]
    by_cases h : 64 ≤ k + d.toNat / 8
    · simp [h,hk']
      omega
    · simp [h]

theorem asBitmap_zero (htag : dsTag d.toNat = .length) :
    (asBitmap d).getLsbD 0 = true := by
  rw [asBitmap,if_pos htag]
  split
  · decide
  · rw [BitVec.getLsbD_or]
    simp

theorem asBitmap_spec (h : Designates d size) (hsize : size ≤ 62 * 8) :
    dsTag (asBitmap d).toNat = .bitmap ∧ ∀ j, Slot (asBitmap d) j ↔ Slot d j := by
  rcases h.kind with ⟨htag,hdvd⟩ | htag
  · have hle : d.toNat ≤ 62 * 8 := by
      by_cases hzero : d.toNat = 0
      · omega
      · have := h.inside (d.toNat / 8 - 1) ((slot_length htag).mpr (by omega))
        omega
    have hbitmap : dsTag (asBitmap d).toNat = .bitmap := by
      apply bitmap_mod (asBitmap_zero htag)
      rw [getLsbD_asBitmap_length htag hle (by decide) (by decide),decide_eq_false_iff_not]
      omega
    refine ⟨hbitmap,fun j => ?_⟩
    rw [slot_bitmap hbitmap,slot_length htag]
    constructor
    · rintro ⟨hj,hbit⟩
      rw [getLsbD_asBitmap_length htag hle (by omega) (by omega),decide_eq_true_eq] at hbit
      omega
    · intro hj
      refine ⟨by omega,?_⟩
      rw [getLsbD_asBitmap_length htag hle (by omega) (by omega),decide_eq_true_eq]
      omega
  · have hself : asBitmap d = d := by
      rw [asBitmap,if_neg]
      rw [htag]
      decide
    rw [hself]
    exact ⟨htag,fun _ => Iff.rfl⟩

theorem getLsbD_doubleDescr (d : BitVec 64) (lpw k : Nat) : (doubleDescr d lpw).getLsbD k =
    ((asBitmap d).getLsbD k || ((asBitmap d).getLsbD (lpw + k) && !(3#64).getLsbD (lpw + k))) := by
  rw [doubleDescr,BitVec.getLsbD_or,BitVec.getLsbD_ushiftRight,BitVec.getLsbD_and,BitVec.getLsbD_not]
  by_cases hk : lpw + k < 64
  · simp [hk]
  · rw [BitVec.getLsbD_of_ge _ _ (show 64 ≤ lpw + k by omega)]
    simp

theorem getLsbD_three_high {k : Nat} (hk : 2 ≤ k) : (3#64).getLsbD k = false := by
  rw [← BitVec.testBit_toNat]
  apply Nat.testBit_lt_two_pow
  calc (3#64).toNat < 2 ^ 2 := by decide
    _ ≤ 2 ^ k := Nat.pow_le_pow_right (by decide) hk

section

variable (h : Designates d (8 * lpw)) (hpos : 0 < lpw) (hlpw : lpw ≤ 3)
include h hpos hlpw

theorem doubleDescr_spec :
    dsTag (doubleDescr d lpw).toNat = .bitmap ∧
      ∀ j, Slot (doubleDescr d lpw) j ↔ Slot d j ∨ ∃ k, Slot d k ∧ j = lpw + k := by
  obtain ⟨hbitmap,hslots⟩ := asBitmap_spec h (by omega)
  have hinside : ∀ k, 2 ≤ k → k + lpw < 64 → (asBitmap d).getLsbD k = false := by
    intro k hk hlt
    rw [← Bool.not_eq_true]
    intro hbit
    have hslot : Slot (asBitmap d) (63 - k) := by
      rw [slot_bitmap hbitmap,show 63 - (63 - k) = k by omega]
      exact ⟨by omega,hbit⟩
    have := h.inside _ ((hslots _).mp hslot)
    omega
  obtain ⟨hzero,hone⟩ := getLsbD_of_bitmap hbitmap
  have htag : dsTag (doubleDescr d lpw).toNat = .bitmap := by
    apply bitmap_mod
    · rw [getLsbD_doubleDescr,hzero,Bool.true_or]
    · rw [getLsbD_doubleDescr,hone,hinside (lpw + 1) (by omega) (by omega),Bool.false_or,Bool.false_and]
  refine ⟨htag,fun j => ?_⟩
  rw [slot_bitmap htag,getLsbD_doubleDescr]
  constructor
  · rintro ⟨hj,hbit⟩
    rcases (Bool.or_eq_true _ _).mp hbit with hfirst | hsecond
    · exact .inl ((hslots j).mp ((slot_bitmap hbitmap).mpr ⟨hj,hfirst⟩))
    · rw [Bool.and_eq_true] at hsecond
      by_cases hle : lpw ≤ j
      · refine .inr ⟨j - lpw,(hslots _).mp ((slot_bitmap hbitmap).mpr ⟨by omega,?_⟩),by omega⟩
        rw [show 63 - (j - lpw) = lpw + (63 - j) by omega]
        exact hsecond.1
      · rw [BitVec.getLsbD_of_ge _ _ (show 64 ≤ lpw + (63 - j) by omega)] at hsecond
        cases hsecond.1
  · rintro (hslot | ⟨k,hslot,rfl⟩)
    · obtain ⟨hj,hbit⟩ := (slot_bitmap hbitmap).mp ((hslots j).mpr hslot)
      exact ⟨hj,by rw [hbit,Bool.true_or]⟩
    · have hk := h.inside k hslot
      obtain ⟨_,hbit⟩ := (slot_bitmap hbitmap).mp ((hslots k).mpr hslot)
      refine ⟨by omega,?_⟩
      rw [show lpw + (63 - (lpw + k)) = 63 - k by omega,hbit,getLsbD_three_high (by omega)]
      simp

theorem designates_doubleDescr :
    Designates (doubleDescr d lpw) (2 * (8 * lpw)) := by
  obtain ⟨htag,hslots⟩ := doubleDescr_spec h hpos hlpw
  refine ⟨.inr htag,fun j hj => ?_⟩
  rcases (hslots j).mp hj with hslot | ⟨k,hslot,rfl⟩
  · have := h.inside j hslot
    omega
  · have := h.inside k hslot
    omega

theorem arraySlot_double :
    ArraySlot n (2 * (8 * lpw)) (doubleDescr d lpw) p a ↔ ArraySlot (2 * n) (8 * lpw) d p a := by
  obtain ⟨_,hslots⟩ := doubleDescr_spec h hpos hlpw
  constructor
  · rintro ⟨i,hi,j,hj,ha⟩
    rcases (hslots j).mp hj with hslot | ⟨k,hslot,rfl⟩
    · exact ⟨2 * i,by omega,j,hslot,by rw [ha]; ring⟩
    · exact ⟨2 * i + 1,by omega,k,hslot,by rw [ha]; ring⟩
  · rintro ⟨i,hi,j,hj,ha⟩
    rcases Nat.even_or_odd' i with ⟨m,rfl | rfl⟩
    · exact ⟨m,by omega,j,(hslots j).mpr (.inl hj),by rw [ha]; ring⟩
    · exact ⟨m,by omega,lpw + j,(hslots _).mpr (.inr ⟨j,hj,rfl⟩),by rw [ha]; ring⟩

end

end Doubling

section Meaning

variable {M : Marker} {d d' : BitVec 64} {n size p a : Nat} {c : ComplexDescriptor}

structure Describes (M : Marker) (c : ComplexDescriptor) (n size : Nat) (d : BitVec 64) : Prop where
  examined : ∀ p a, 8 ∣ p → ((∃ e ∈ c.entries p, M.Examined e a) ↔ ArraySlot n size d p a)
  objSize : c.objSize = n * size
  length_le : ∀ p, (c.entries p).length ≤ n

theorem describes_leaf (h : Designates d size) (hsize : 8 ∣ size) : Describes M (.leaf size n d) n size d where
  examined p a hp := by
    have hentry : ∀ i, M.Examined ⟨p + i * size,d.toNat⟩ a ↔ ∃ j, Slot d j ∧ a = p + i * size + 8 * j :=
      fun i => examined_iff_slot h (Dvd.dvd.add hp (hsize.mul_left i))
    simp only [ComplexDescriptor.entries,List.mem_map,List.mem_range,ArraySlot]
    constructor
    · rintro ⟨_,⟨i,hi,rfl⟩,he⟩
      exact ⟨i,hi,(hentry i).mp he⟩
    · rintro ⟨i,hi,hslot⟩
      exact ⟨_,⟨i,hi,rfl⟩,(hentry i).mpr hslot⟩
  objSize := rfl
  length_le p := by simp [ComplexDescriptor.entries]

theorem Describes.sequence (h : Describes M c n size d) (hd : Designates d size) (hsize : 8 ∣ size) :
    Describes M (.sequence c (.leaf size 1 d)) (n + 1) size d where
  examined p a hp := by
    have hlast := (describes_leaf (M := M) (n := 1) hd hsize).examined (p + n * size) a
      (Dvd.dvd.add hp (hsize.mul_left n))
    rw [← h.objSize] at hlast
    simp only [ComplexDescriptor.entries,List.mem_append,or_and_right,exists_or] at hlast ⊢
    rw [h.examined p a hp,hlast,h.objSize]
    constructor
    · rintro (⟨i,hi,j,hj,ha⟩ | ⟨i,hi,j,hj,ha⟩)
      · exact ⟨i,by omega,j,hj,ha⟩
      · obtain rfl : i = 0 := by omega
        exact ⟨n,by omega,j,hj,by omega⟩
    · rintro ⟨i,hi,j,hj,ha⟩
      rcases Nat.lt_succ_iff_lt_or_eq.mp hi with hlt | rfl
      · exact .inl ⟨i,hlt,j,hj,ha⟩
      · exact .inr ⟨0,by omega,j,hj,by omega⟩
  objSize := by
    rw [ComplexDescriptor.objSize,ComplexDescriptor.objSize,h.objSize]
    ring
  length_le p := by
    have hle := h.length_le p
    simp only [ComplexDescriptor.entries,List.length_append,List.length_map,List.length_range]
    omega

theorem Describes.double {lpw : Nat} (h : Describes M c n (2 * (8 * lpw)) (doubleDescr d lpw))
    (hd : Designates d (8 * lpw)) (hpos : 0 < lpw) (hlpw : lpw ≤ 3) : Describes M c (2 * n) (8 * lpw) d where
  examined p a hp := (h.examined p a hp).trans (arraySlot_double hd hpos hlpw)
  objSize := by
    rw [h.objSize]
    ring
  length_le p := by
    have hle := h.length_le p
    omega

def ArrayDescr.Means (M : Marker) (n size : Nat) (d : BitVec 64) : ArrayDescr → Prop
  | .simple d' => Designates d' (n * size) ∧ ∀ p a, (∃ j, Slot d' j ∧ a = p + 8 * j) ↔ ArraySlot n size d p a
  | .leaf size' nelements d' => Describes M (.leaf size' nelements d') n size d
  | .complex c => Describes M c n size d

theorem ArrayDescr.Means.double {r : ArrayDescr} {lpw : Nat}
    (h : r.Means M n (2 * (8 * lpw)) (doubleDescr d lpw)) (hr : ∀ d', r ≠ .simple d')
    (hd : Designates d (8 * lpw)) (hpos : 0 < lpw) (hlpw : lpw ≤ 3) : r.Means M (2 * n) (8 * lpw) d := by
  cases r with
  | simple d' => exact absurd rfl (hr d')
  | leaf size nelements d' => exact Describes.double h hd hpos hlpw
  | complex c => exact Describes.double h hd hpos hlpw

theorem slot_zero (j : Nat) : ¬ Slot 0 j := by
  intro h
  rw [slot_length (by decide)] at h
  simp at h

theorem designates_zero (size : Nat) : Designates 0 size :=
  ⟨.inl ⟨by decide,by decide⟩,fun j hj => absurd hj (slot_zero j)⟩

theorem means_whole (hd : Designates d size) (htag : dsTag d.toNat = .length) (hfull : d.toNat = size)
    (hsize : 0 < size) (hlt : n * size < 2 ^ 64) :
    (ArrayDescr.simple (BitVec.ofNat 64 (n * size))).Means M n size d := by
  have h8 : 8 ∣ size := by
    rcases hd.kind with ⟨_,hdvd⟩ | hbitmap
    · rwa [hfull] at hdvd
    · rw [hbitmap] at htag
      cases htag
  have hnat : (BitVec.ofNat 64 (n * size)).toNat = n * size := by
    rw [BitVec.toNat_ofNat,Nat.mod_eq_of_lt hlt]
  have hlength : dsTag (BitVec.ofNat 64 (n * size)).toNat = .length := by
    rw [hnat]
    exact dsTag_of_dvd (Dvd.dvd.trans (by decide) (h8.mul_left n))
  obtain ⟨w,rfl⟩ := h8
  refine ⟨⟨.inl ⟨hlength,by rw [hnat]; exact ⟨n * w,by ring⟩⟩,fun j hj => ?_⟩,fun p a => ?_⟩
  · rwa [slot_length hlength,hnat] at hj
  · unfold ArraySlot
    simp only [slot_length hlength,slot_length htag,hnat,hfull]
    constructor
    · rintro ⟨j,hj,rfl⟩
      have hw : 0 < w := by omega
      have hjlt : j < w * n := by
        rw [show n * (8 * w) = 8 * (w * n) by ring] at hj
        omega
      refine ⟨j / w,Nat.div_lt_of_lt_mul hjlt,j % w,?_,?_⟩
      · have := Nat.mod_lt j hw
        omega
      · have := Nat.div_add_mod j w
        calc p + 8 * j = p + 8 * (w * (j / w) + j % w) := by rw [this]
          _ = p + j / w * (8 * w) + 8 * (j % w) := by ring
    · rintro ⟨i,hi,j,hj,rfl⟩
      refine ⟨i * w + j,?_,by ring⟩
      have hle : (i + 1) * w ≤ n * w := Nat.mul_le_mul_right w hi
      rw [Nat.add_mul] at hle
      rw [show n * (8 * w) = 8 * (n * w) by ring]
      omega

theorem means_single (hd : Designates d size) : (ArrayDescr.simple d).Means M 1 size d := by
  refine ⟨by rwa [Nat.one_mul],fun p a => ?_⟩
  constructor
  · rintro ⟨j,hj,rfl⟩
    exact ⟨0,by decide,j,hj,by omega⟩
  · rintro ⟨i,hi,j,hj,rfl⟩
    obtain rfl : i = 0 := by omega
    exact ⟨j,hj,by omega⟩

theorem means_zero (h : d = 0) : (ArrayDescr.simple 0).Means M n size d := by
  subst h
  refine ⟨designates_zero _,fun p a => ?_⟩
  constructor
  · rintro ⟨j,hj,_⟩
    exact absurd hj (slot_zero j)
  · rintro ⟨_,_,j,hj,_⟩
    exact absurd hj (slot_zero j)

section

variable {r : ArrayDescr} {answers rest : List Bool}

theorem makeBeginning_spec (hr : ∀ d', r ≠ .simple d')
    (h : makeBeginning size' r answers = some (c, rest)) (hmeans : r.Means M n size d) :
    Describes M c n size d := by
  cases r with
  | simple d' => exact absurd rfl (hr d')
  | leaf size' nelements d' =>
    obtain ⟨_,_,heq⟩ := map_eq_some_iff.mp h
    obtain ⟨rfl,_⟩ := Prod.mk.inj heq
    exact hmeans
  | complex c' =>
    obtain ⟨rfl,_⟩ := Prod.mk.inj (Option.some.inj h)
    exact hmeans

theorem makeSequence_spec {beginning oneElement : ComplexDescriptor}
    (h : (makeSequenceDescriptor beginning oneElement answers).map (fun c => (ArrayDescr.complex c.1, c.2)) =
      some (r, rest)) : r = .complex (.sequence beginning oneElement) := by
  obtain ⟨⟨c,_⟩,hc,heq⟩ := map_eq_some_iff.mp h
  obtain ⟨_,_,hseq⟩ := map_eq_some_iff.mp hc
  rw [← (Prod.mk.inj heq).1,← (Prod.mk.inj hseq).1]

/-- The result stands for the array, and is not simple for several elements with a bitmap. -/
theorem makeArrayDescriptor_spec (h : makeArrayDescriptor n size d answers = some (r, rest)) (hd : Designates d size)
    (h8 : 8 ∣ size)
    (hsize : 0 < size) (hn : 0 < n) (hlt : n * size < 2 ^ 64) :
    r.Means M n size d ∧ (dsTag d.toNat = .bitmap → 1 < n → ∀ d', r ≠ .simple d') := by
  induction n using Nat.strong_induction_on generalizing size d answers r rest with
  | _ n ih =>
  rw [makeArrayDescriptor] at h
  split at h
  · next hfull =>
    obtain ⟨rfl,_⟩ := Prod.mk.inj (Option.some.inj h)
    refine ⟨means_whole hd hfull.1 hfull.2 hsize hlt,fun htag => ?_⟩
    rw [hfull.1] at htag
    cases htag
  split at h
  · next hzero =>
    obtain ⟨rfl,_⟩ := Prod.mk.inj (Option.some.inj h)
    refine ⟨means_zero hzero.2,fun htag => ?_⟩
    rw [hzero.1] at htag
    cases htag
  have hleaf : some (ArrayDescr.leaf size n d, answers) = some (r, rest) →
      r.Means M n size d ∧ (dsTag d.toNat = .bitmap → 1 < n → ∀ d', r ≠ .simple d') := by
    intro heq
    obtain ⟨rfl,_⟩ := Prod.mk.inj (Option.some.inj heq)
    refine ⟨describes_leaf hd h8,fun _ _ d' heq => ?_⟩
    cases heq
  split at h
  · split at h
    · obtain ⟨rfl,_⟩ := Prod.mk.inj (Option.some.inj h)
      obtain rfl : n = 1 := by omega
      exact ⟨means_single hd,fun _ hlt => absurd hlt (Nat.lt_irrefl 1)⟩
    · exact hleaf h
  split at h
  · next hmany hsmall =>
    obtain ⟨lpw,rfl⟩ := h8
    have hlpw : lpw ≤ 3 := by
      have := hsmall.1
      unfold bitmapBits at this
      omega
    have hpos : 0 < lpw := by omega
    unfold optThreshold at hmany
    obtain ⟨⟨r',rest'⟩,hrec,hgo⟩ := bind_eq_some_iff.mp h
    rw [Nat.mul_div_cancel_left lpw (by decide)] at hrec
    have hhalf : 2 * (n / 2) * (8 * lpw) ≤ n * (8 * lpw) := Nat.mul_le_mul_right _ (by omega)
    obtain ⟨hmeans,hne⟩ := ih (n / 2) (by omega) hrec (designates_doubleDescr hd hpos hlpw)
      (Dvd.dvd.mul_left (Nat.dvd_mul_right 8 lpw) 2) (by omega) (by omega)
      (by rw [← Nat.mul_assoc,Nat.mul_comm _ 2]; omega)
    have hsimple := hne (doubleDescr_spec hd hpos hlpw).1 (by omega)
    split at hgo
    · next heven =>
      obtain ⟨rfl,_⟩ := Prod.mk.inj (Option.some.inj hgo)
      refine ⟨?_,fun _ _ => hsimple⟩
      rw [show n = 2 * (n / 2) by omega]
      exact hmeans.double hsimple hd hpos hlpw
    · next hodd =>
      obtain ⟨⟨one,rest₁⟩,hone,hgo⟩ := bind_eq_some_iff.mp hgo
      obtain ⟨⟨beginning,rest₂⟩,hbeginning,hgo⟩ := bind_eq_some_iff.mp hgo
      obtain ⟨_,_,hleafOne⟩ := map_eq_some_iff.mp hone
      have hseq := makeSequence_spec hgo
      rw [← (Prod.mk.inj hleafOne).1] at hseq
      subst hseq
      refine ⟨?_,fun _ _ d' heq => by cases heq⟩
      rw [show n = 2 * (n / 2) + 1 by omega]
      exact ((makeBeginning_spec hsimple hbeginning hmeans).double hd hpos hlpw).sequence hd
        (Nat.dvd_mul_right 8 lpw)
  · exact hleaf h

end

end Meaning

end GcUtil.Typed.ArrayDescriptors
