import GcUtil.Isolate.RegistryRuns

/-! The registry against the real mapping. `GC_unmap`, `GC_remap` and `GC_unmap_gap`
of `os_dep.c` change which pages are mapped; the first two note the change in the
registry, the third does not. `NULL` is address 0. -/
namespace GcUtil.Isolate.Mapping
open Basic Registry RegistryRefinement RegistryRuns Function

section Rounding

variable (pageSize : Nat)

def alignDown (a : Nat) : Nat := a / pageSize * pageSize

def alignUp (a : Nat) : Nat := alignDown pageSize (a + (pageSize - 1))

/-- `GC_unmap_start`, 0 if the block holds no whole page. -/
def unmapStart (start bytes : Nat) : Nat :=
  if start + bytes < alignUp pageSize start + pageSize then 0 else alignUp pageSize start

def unmapEnd (start bytes : Nat) : Nat := alignDown pageSize (start + bytes)

/-- The range that `GC_unmap_gap` passes to `block_unmap_inner`, as its two ends. -/
def gapRange (start1 bytes1 start2 bytes2 : Nat) : Nat × Nat :=
  (if unmapStart pageSize start1 bytes1 = 0 then unmapStart pageSize start1 (bytes1 + bytes2)
    else unmapEnd pageSize start1 bytes1,
   if unmapStart pageSize start2 bytes2 = 0 then unmapEnd pageSize start1 (bytes1 + bytes2)
    else unmapStart pageSize start2 bytes2)

def Straddles (start1 start2 bytes2 a : Nat) : Prop :=
  ¬ pageSize ∣ start2 ∧ start1 ≤ alignDown pageSize start2 ∧
    alignDown pageSize start2 + pageSize ≤ start2 + bytes2 ∧
    alignDown pageSize start2 ≤ a ∧ a < alignDown pageSize start2 + pageSize

variable {pageSize}

theorem alignDown_spec (hpage : 0 < pageSize) (a : Nat) :
    ∃ k, alignDown pageSize a = k * pageSize ∧ k * pageSize ≤ a ∧ a < k * pageSize + pageSize := by
  have hdiv := Nat.div_add_mod a pageSize
  have hmod := Nat.mod_lt a hpage
  rw [Nat.mul_comm] at hdiv
  exact ⟨a / pageSize,rfl,by omega,by omega⟩

theorem alignUp_spec (hpage : 0 < pageSize) (a : Nat) :
    ∃ k, alignUp pageSize a = k * pageSize ∧ a ≤ k * pageSize ∧ k * pageSize < a + pageSize := by
  obtain ⟨k,hk,hle,hlt⟩ := alignDown_spec hpage (a + (pageSize - 1))
  exact ⟨k,hk,by omega,by omega⟩

theorem multiples_apart (pageSize j k : Nat) :
    k * pageSize ≤ j * pageSize ∨ j * pageSize + pageSize ≤ k * pageSize := by
  rcases Nat.lt_or_ge j k with h | h
  · right
    calc j * pageSize + pageSize = (j + 1) * pageSize := by rw [Nat.add_mul,Nat.one_mul]
      _ ≤ k * pageSize := Nat.mul_le_mul_right _ h
  · exact .inl (Nat.mul_le_mul_right _ h)

theorem multiples_near (pageSize j k : Nat) :
    k * pageSize + pageSize ≤ j * pageSize ∨ k * pageSize = j * pageSize ∨
      k * pageSize = j * pageSize + pageSize ∨ j * pageSize + pageSize + pageSize ≤ k * pageSize := by
  have hjk := multiples_apart pageSize j k
  have hkj := multiples_apart pageSize k j
  have hnext := multiples_apart pageSize (j + 1) k
  rw [Nat.add_mul,Nat.one_mul] at hnext
  omega

theorem dvd_iff_alignDown (a : Nat) :
    pageSize ∣ a ↔ alignDown pageSize a = a :=
  ⟨fun h => Nat.div_mul_cancel h,fun h => ⟨a / pageSize,by rw [Nat.mul_comm]; exact h.symm⟩⟩

theorem alignUp_eq (hpage : 0 < pageSize) (a : Nat) :
    alignUp pageSize a =
      if alignDown pageSize a = a then a else alignDown pageSize a + pageSize := by
  obtain ⟨j,hj,hjle,hjlt⟩ := alignDown_spec hpage a
  obtain ⟨k,hk,hkle,hklt⟩ := alignUp_spec hpage a
  have hjk := multiples_near pageSize j k
  rw [hj,hk]
  split <;> omega

theorem gapRange_straddles (hpage : 0 < pageSize) {start1 bytes1 start2 : Nat}
    (hstart : 0 < start1) (hadj : start1 + bytes1 = start2) (bytes2 a : Nat) :
    ((gapRange pageSize start1 bytes1 start2 bytes2).1 ≠ 0 ∧
        (gapRange pageSize start1 bytes1 start2 bytes2).1 ≤ a ∧
        a < (gapRange pageSize start1 bytes1 start2 bytes2).2) ↔
      Straddles pageSize start1 start2 bytes2 a := by
  have hend : start1 + (bytes1 + bytes2) = start2 + bytes2 := by omega
  obtain ⟨i,hi,hile,hilt⟩ := alignUp_spec hpage start1
  obtain ⟨j,hj,hjle,hjlt⟩ := alignDown_spec hpage start2
  obtain ⟨k,hk,hkle,hklt⟩ := alignDown_spec hpage (start2 + bytes2)
  have hup := alignUp_eq hpage start2
  unfold gapRange unmapStart unmapEnd Straddles
  rw [hj] at hup
  rw [dvd_iff_alignDown,hadj,hend,hi,hj,hk,hup]
  have hij := multiples_near pageSize j i
  have hjk := multiples_near pageSize j k
  generalize i * pageSize = u at *
  generalize j * pageSize = d at *
  generalize k * pageSize = e at *
  dsimp only
  split_ifs <;> omega

end Rounding

/-- The process memory: the registry with all heap sections, and which addresses
are mapped. -/
structure Memory where
  sys : System
  mapped : Nat → Bool

def Memory.init : Memory := ⟨System.init, fun _ => false⟩

def blockUnmapInner (startAddr len : Nat) (mapped : Nat → Bool) : Nat → Bool :=
  if startAddr = 0 then mapped
  else fun a => if startAddr ≤ a ∧ a < startAddr + len then false else mapped a

def blockRemapInner (startAddr len : Nat) (mapped : Nat → Bool) : Nat → Bool :=
  if startAddr = 0 then mapped
  else fun a => if startAddr ≤ a ∧ a < startAddr + len then true else mapped a

/-- What an isolate does with its memory. A new section comes mapped from the OS. -/
inductive MapStep where
  | addToHeap (iso start bytes : Nat)
  | unmap (iso start bytes : Nat)
  | remap (iso start bytes : Nat)
  | unmapGap (iso start1 bytes1 start2 bytes2 : Nat)
  | deinit (iso : Nat)
deriving DecidableEq, Repr

section Steps

variable (pageSize : Nat) (realloc : Nat → Bool)

def note (s : System) (c : Call) : System := callStep realloc (fun _ => true) s c

def mapStep (m : Memory) : MapStep → Memory
  | .addToHeap iso start bytes =>
      ⟨note realloc m.sys (.register iso start bytes),
        fun a => if start ≤ a ∧ a < start + bytes then true else m.mapped a⟩
  | .unmap iso start bytes =>
      let startAddr := unmapStart pageSize start bytes
      let endAddr := unmapEnd pageSize start bytes
      ⟨note realloc m.sys (.noteUnmap iso startAddr (endAddr - startAddr)),
        blockUnmapInner startAddr (endAddr - startAddr) m.mapped⟩
  | .remap iso start bytes =>
      let startAddr := unmapStart pageSize start bytes
      let endAddr := unmapEnd pageSize start bytes
      ⟨note realloc m.sys (.noteRemap iso startAddr (endAddr - startAddr)),
        blockRemapInner startAddr (endAddr - startAddr) m.mapped⟩
  | .unmapGap _ start1 bytes1 start2 bytes2 =>
      let gap := gapRange pageSize start1 bytes1 start2 bytes2
      { m with mapped := blockUnmapInner gap.1 (gap.2 - gap.1) m.mapped }
  | .deinit iso => { m with sys := note realloc m.sys (.deinit iso) }

end Steps

def InHeap (m : Memory) (a : Nat) : Prop :=
  ∃ iso, ∃ sect ∈ m.sys.heapSects iso, sect.Contains a

/-- A block of an isolate: whole hblks of its sections, not at address 0. -/
structure BlockOf (m : Memory) (iso start bytes : Nat) : Prop where
  start_pos : 0 < start
  start_aligned : hblkSize ∣ start
  bytes_aligned : hblkSize ∣ bytes
  inside : ∀ a, start ≤ a → a < start + bytes → ∃ sect ∈ m.sys.heapSects iso, sect.Contains a

/-- A new section is memory no isolate has; the other calls are about the blocks
of the caller, and a gap lies between two adjacent ones. -/
def Legal (m : Memory) : MapStep → Prop
  | .addToHeap _ start bytes =>
      0 < bytes ∧ ∀ a, start ≤ a → a < start + bytes → ¬ InHeap m a
  | .unmap iso start bytes => BlockOf m iso start bytes
  | .remap iso start bytes => BlockOf m iso start bytes
  | .unmapGap iso start1 bytes1 start2 bytes2 =>
      BlockOf m iso start1 bytes1 ∧ BlockOf m iso start2 bytes2 ∧ start1 + bytes1 = start2
  | .deinit _ => True

inductive Reach (pageSize : Nat) (realloc : Nat → Bool) (legal : Memory → MapStep → Prop) :
    Memory → Prop
  | init : Reach pageSize realloc legal Memory.init
  | step {m : Memory} (st : MapStep) (hm : Reach pageSize realloc legal m) (hst : legal m st) :
      Reach pageSize realloc legal (mapStep pageSize realloc m st)

/-- A page of a registered section is recorded as decommitted iff it is unmapped. -/
def Agreement (m : Memory) : Prop :=
  ∀ a, InHeap m a → (classifyFault m.sys.registry a = .decommitted ↔ m.mapped a = false)

/-- The page a gap would unmap is unmapped already, or there is no such page. -/
def GapUnmapped (pageSize : Nat) (m : Memory) : MapStep → Prop
  | .unmapGap _ start1 _ start2 bytes2 =>
      ∀ a, InHeap m a → Straddles pageSize start1 start2 bytes2 a → m.mapped a = false
  | _ => True

structure Mirrors (realloc : Nat → Bool) (m : Memory) (ref : Reference) : Prop where
  refines : Refines realloc True m.sys ref
  registered : ∀ a, ref.map a ≠ .unregistered ↔ InHeap m a
  disjoint : ∀ i j, i ≠ j → ∀ s ∈ m.sys.heapSects i, ∀ t ∈ m.sys.heapSects j, ∀ a,
    s.Contains a → ¬ t.Contains a
  mapped : ∀ a, ref.map a ≠ .unregistered → (ref.map a = .decommitted ↔ m.mapped a = false)

theorem Mirrors.agreement {realloc : Nat → Bool} (htotal : ∀ n, realloc n = true) {m : Memory}
    {ref : Reference} (h : Mirrors realloc m ref) : Agreement m := by
  intro a ha
  have hrep := h.refines.represents trivial
  have hreg := (h.registered a).mpr ha
  rw [classifyFault_exact hrep.canonical hrep.sound (hrep.complete htotal),← h.mapped a hreg]
  cases hstate : ref.map a <;> simp [answer]

section Preservation

variable {pageSize : Nat} {realloc : Nat → Bool} {m : Memory} {ref : Reference}

theorem noteMap_registered (committed : Bool) (start bytes : Nat) (map : AddrMap) (a : Nat) :
    noteMap committed start bytes map a ≠ .unregistered ↔ map a ≠ .unregistered := by
  unfold noteMap markMap
  split
  · rfl
  · dsimp only
    split
    · rename_i hin
      simp [stateOf_ne_unregistered,hin.2.2]
    · rfl

theorem inHeap_addSect (iso start bytes a : Nat) (mapped : Nat → Bool) (registry : RangeRegistry) :
    InHeap ⟨⟨registry, addSect m.sys.heapSects iso start bytes⟩, mapped⟩ a ↔
      InHeap m a ∨ (start ≤ a ∧ a < start + bytes) := by
  unfold InHeap addSect
  dsimp only
  refine ⟨?_,?_⟩
  · rintro ⟨i,sect,hsect,ha⟩
    by_cases hi : i = iso
    · subst hi
      rw [update_self] at hsect
      rcases List.mem_append.mp hsect with hsect | hsect
      · exact .inl ⟨i,sect,hsect,ha⟩
      · rw [List.mem_singleton.mp hsect] at ha
        exact .inr ha
    · rw [update_of_ne hi] at hsect
      exact .inl ⟨i,sect,hsect,ha⟩
  · rintro (⟨i,sect,hsect,ha⟩ | ha)
    · refine ⟨i,sect,?_,ha⟩
      by_cases hi : i = iso
      · subst hi
        rw [update_self]
        exact List.mem_append_left _ hsect
      · rwa [update_of_ne hi]
    · exact ⟨iso,⟨start,bytes⟩,by rw [update_self]; simp,ha⟩

theorem Mirrors.addToHeap {iso start bytes : Nat} (hbytes : 0 < bytes)
    (hfresh : ∀ a, start ≤ a → a < start + bytes → ¬ InHeap m a) (h : Mirrors realloc m ref) :
    Mirrors realloc (mapStep pageSize realloc m (.addToHeap iso start bytes))
      (referenceStep (fun _ => true) ref (.register iso start bytes)) where
  refines := by
    have hadm : Admissible ref.map (.register iso start bytes) := by
      refine ⟨hbytes,fun a hge hlt => ?_⟩
      by_contra hreg
      exact hfresh a hge hlt ((h.registered a).mp hreg)
    exact callStep_refines (fun _ => true) _ (fun _ => hadm) h.refines
  registered := by
    intro a
    refine Iff.trans ?_ (inHeap_addSect iso start bytes a _ _).symm
    rw [← h.registered]
    change registerMap start bytes ref.map a ≠ .unregistered ↔ _
    unfold registerMap
    by_cases hin : start ≤ a ∧ a < start + bytes <;> simp [hin]
  disjoint := by
    have hold : ∀ i, ∀ s ∈ addSect m.sys.heapSects iso start bytes i,
        s ∈ m.sys.heapSects i ∨ (i = iso ∧ s = ⟨start,bytes⟩) := by
      intro i s hs
      unfold addSect at hs
      by_cases hi : i = iso
      · subst hi
        rw [update_self] at hs
        rcases List.mem_append.mp hs with hs | hs
        · exact .inl hs
        · exact .inr ⟨rfl,List.mem_singleton.mp hs⟩
      · rw [update_of_ne hi] at hs
        exact .inl hs
    intro i j hij s hs t ht a hsa hta
    rcases hold i s hs with hs | ⟨hi,rfl⟩
    · rcases hold j t ht with ht | ⟨_,rfl⟩
      · exact h.disjoint i j hij s hs t ht a hsa hta
      · exact hfresh a hta.1 hta.2 ⟨i,s,hs,hsa⟩
    · rcases hold j t ht with ht | ⟨hj,_⟩
      · exact hfresh a hsa.1 hsa.2 ⟨j,t,ht,hta⟩
      · exact hij (hi.trans hj.symm)
  mapped := by
    intro a hreg
    change registerMap start bytes ref.map a ≠ .unregistered at hreg
    change registerMap start bytes ref.map a = .decommitted ↔ _
    dsimp only [mapStep]
    unfold registerMap at hreg ⊢
    by_cases hin : start ≤ a ∧ a < start + bytes
    · simp [hin]
    · rw [if_neg hin] at hreg
      rw [if_neg hin,if_neg hin]
      exact h.mapped a hreg

theorem Mirrors.note (committed : Bool) (startAddr len : Nat) {mapped : Nat → Bool}
    {c : Call} (h : Mirrors realloc m ref) (hadm : Admissible ref.map c)
    (hsects : (callStep realloc (fun _ => true) m.sys c).heapSects = m.sys.heapSects)
    (hmap : (referenceStep (fun _ => true) ref c).map = noteMap committed startAddr len ref.map)
    (hin : ∀ a, startAddr ≠ 0 ∧ startAddr ≤ a ∧ a < startAddr + len → mapped a = committed)
    (hout : ∀ a, ¬ (startAddr ≠ 0 ∧ startAddr ≤ a ∧ a < startAddr + len) → mapped a = m.mapped a) :
    Mirrors realloc ⟨callStep realloc (fun _ => true) m.sys c, mapped⟩
      (referenceStep (fun _ => true) ref c) where
  refines := callStep_refines (fun _ => true) c (fun _ => hadm) h.refines
  registered := by
    intro a
    rw [hmap,noteMap_registered,h.registered]
    unfold InHeap
    dsimp only
    rw [hsects]
  disjoint := by
    dsimp only
    rw [hsects]
    exact h.disjoint
  mapped := by
    intro a hreg
    rw [hmap,noteMap_registered] at hreg
    rw [hmap]
    by_cases hr : startAddr ≠ 0 ∧ startAddr ≤ a ∧ a < startAddr + len
    · have hnoted : noteMap committed startAddr len ref.map a = stateOf committed := by
        unfold noteMap
        rw [if_neg hr.1]
        exact if_pos ⟨hr.2.1,hr.2.2,hreg⟩
      rw [hnoted]
      dsimp only
      rw [hin a hr]
      cases committed <;> simp [stateOf]
    · have hkept : noteMap committed startAddr len ref.map a = ref.map a := by
        unfold noteMap
        split
        · rfl
        · exact if_neg (by tauto)
      rw [hkept]
      dsimp only
      rw [hout a hr]
      exact h.mapped a hreg

theorem Mirrors.deinit (iso : Nat) (h : Mirrors realloc m ref) :
    Mirrors realloc (mapStep pageSize realloc m (.deinit iso))
      (referenceStep (fun _ => true) ref (.deinit iso)) := by
  have hold : ∀ i, ∀ s ∈ clearSects m.sys.heapSects iso i, i ≠ iso ∧ s ∈ m.sys.heapSects i := by
    intro i s hs
    unfold clearSects at hs
    by_cases hi : i = iso
    · subst hi
      rw [update_self] at hs
      cases hs
    · rw [update_of_ne hi] at hs
      exact ⟨hi,hs⟩
  have hmap : ∀ a, (referenceStep (fun _ => true) ref (.deinit iso)).map a =
      if ∃ sect ∈ m.sys.heapSects iso, sect.Contains a then .unregistered else ref.map a := by
    intro a
    rw [h.refines.heapSects]
    rfl
  have hadm : Admissible ref.map (.deinit iso) := trivial
  exact {
    refines := callStep_refines (fun _ => true) _ (fun _ => hadm) h.refines
    registered := by
      intro a
      rw [hmap]
      refine ⟨?_,?_⟩
      · intro hreg
        split at hreg
        · contradiction
        · rename_i hnot
          obtain ⟨i,s,hs,ha⟩ := (h.registered a).mp hreg
          have hi : i ≠ iso := by
            rintro rfl
            exact hnot ⟨s,hs,ha⟩
          refine ⟨i,s,?_,ha⟩
          change s ∈ clearSects m.sys.heapSects iso i
          rwa [clearSects,update_of_ne hi]
      · rintro ⟨i,s,hs,ha⟩
        obtain ⟨hi,hs⟩ := hold i s hs
        rw [if_neg]
        · exact (h.registered a).mpr ⟨i,s,hs,ha⟩
        · rintro ⟨t,ht,hta⟩
          exact h.disjoint i iso hi s hs t ht a ha hta
    disjoint := fun i j hij s hs t ht =>
      h.disjoint i j hij s (hold i s hs).2 t (hold j t ht).2
    mapped := by
      intro a hreg
      rw [hmap] at hreg ⊢
      split at hreg
      · contradiction
      · rename_i hnot
        rw [if_neg hnot]
        exact h.mapped a hreg }

theorem mapped_blockUnmapInner (startAddr len : Nat) (mapped : Nat → Bool) (a : Nat) :
    blockUnmapInner startAddr len mapped a =
      if startAddr ≠ 0 ∧ startAddr ≤ a ∧ a < startAddr + len then false else mapped a := by
  unfold blockUnmapInner
  by_cases h : startAddr = 0 <;> simp [h]

theorem mapped_blockRemapInner (startAddr len : Nat) (mapped : Nat → Bool) (a : Nat) :
    blockRemapInner startAddr len mapped a =
      if startAddr ≠ 0 ∧ startAddr ≤ a ∧ a < startAddr + len then true else mapped a := by
  unfold blockRemapInner
  by_cases h : startAddr = 0 <;> simp [h]

section

variable (hpage : 0 < pageSize) {iso start1 bytes1 start2 bytes2 : Nat}
  (hlegal : Legal m (.unmapGap iso start1 bytes1 start2 bytes2))
include hpage hlegal

theorem mapped_unmapGap (a : Nat) :
    (mapStep pageSize realloc m (.unmapGap iso start1 bytes1 start2 bytes2)).mapped a = false ↔
      Straddles pageSize start1 start2 bytes2 a ∨ m.mapped a = false := by
  have hgap := gapRange_straddles hpage hlegal.1.start_pos hlegal.2.2 bytes2 a
  dsimp only [mapStep]
  rw [mapped_blockUnmapInner]
  split
  · rename_i hin
    have hs := hgap.mp ⟨hin.1,hin.2.1,by omega⟩
    simp [hs]
  · rename_i hnot
    have hs : ¬ Straddles pageSize start1 start2 bytes2 a := by
      intro hs
      have := hgap.mpr hs
      omega
    simp [hs]

theorem Mirrors.unmapGap (hgap : GapUnmapped pageSize m (.unmapGap iso start1 bytes1 start2 bytes2))
    (h : Mirrors realloc m ref) :
    Mirrors realloc (mapStep pageSize realloc m (.unmapGap iso start1 bytes1 start2 bytes2)) ref where
  refines := h.refines
  registered := h.registered
  disjoint := h.disjoint
  mapped := by
    intro a hreg
    rw [mapped_unmapGap hpage hlegal,h.mapped a hreg]
    have := hgap a ((h.registered a).mp hreg)
    tauto

end

theorem mapStep_mirrors (hpage : 0 < pageSize) (st : MapStep) (hlegal : Legal m st)
    (hgap : GapUnmapped pageSize m st) (h : Mirrors realloc m ref) :
    ∃ ref', Mirrors realloc (mapStep pageSize realloc m st) ref' := by
  cases st with
  | addToHeap iso start bytes => exact ⟨_,h.addToHeap hlegal.1 hlegal.2⟩
  | unmap iso start bytes =>
    refine ⟨_,h.note false (unmapStart pageSize start bytes)
      (unmapEnd pageSize start bytes - unmapStart pageSize start bytes) (c := .noteUnmap iso _ _)
      trivial rfl rfl ?_ ?_⟩
    · intro a hin
      rw [mapped_blockUnmapInner,if_pos hin]
    · intro a hout
      rw [mapped_blockUnmapInner,if_neg hout]
  | remap iso start bytes =>
    refine ⟨_,h.note true (unmapStart pageSize start bytes)
      (unmapEnd pageSize start bytes - unmapStart pageSize start bytes) (c := .noteRemap iso _ _)
      trivial rfl rfl ?_ ?_⟩
    · intro a hin
      rw [mapped_blockRemapInner,if_pos hin]
    · intro a hout
      rw [mapped_blockRemapInner,if_neg hout]
  | unmapGap iso start1 bytes1 start2 bytes2 => exact ⟨ref,h.unmapGap hpage hlegal hgap⟩
  | deinit iso => exact ⟨_,h.deinit iso⟩

theorem mirrors_init : Mirrors realloc Memory.init Reference.init where
  refines := refines_init
  registered := by
    intro a
    simp [Reference.init,InHeap,Memory.init,System.init]
  disjoint := by simp [Memory.init,System.init]
  mapped := fun a ha => absurd rfl ha

theorem reach_mirrors (hpage : 0 < pageSize)
    (hm : Reach pageSize realloc (fun m st => Legal m st ∧ GapUnmapped pageSize m st) m) :
    ∃ ref, Mirrors realloc m ref := by
  induction hm with
  | init => exact ⟨_,mirrors_init⟩
  | step st _ hst ih =>
    obtain ⟨ref,href⟩ := ih
    exact mapStep_mirrors hpage st hst.1 hst.2 href

theorem unmapGap_agreement_iff (hpage : 0 < pageSize) (hagree : Agreement m)
    {iso start1 bytes1 start2 bytes2 : Nat}
    (hlegal : Legal m (.unmapGap iso start1 bytes1 start2 bytes2)) :
    Agreement (mapStep pageSize realloc m (.unmapGap iso start1 bytes1 start2 bytes2)) ↔
      GapUnmapped pageSize m (.unmapGap iso start1 bytes1 start2 bytes2) := by
  refine ⟨?_,?_⟩
  · intro hafter a ha hs
    have hnoted := (hafter a ha).mpr ((mapped_unmapGap hpage hlegal a).mpr (.inl hs))
    exact (hagree a ha).mp hnoted
  · intro hgap a ha
    rw [mapped_unmapGap hpage hlegal]
    have hold := hagree a ha
    have hs := hgap a ha
    exact hold.trans (by tauto)

end Preservation

def sectionStep : MapStep := .addToHeap 0 65536 65536
def lowerBlock : MapStep := .unmap 0 65536 24576
def upperBlock : MapStep := .unmap 0 90112 40960
def mergeBlocks : MapStep := .unmapGap 0 65536 24576 90112 40960

def twoUnmappedBlocks : Memory :=
  [sectionStep, lowerBlock, upperBlock].foldl (mapStep 16384 fun _ => true) Memory.init

theorem blockOf_section {m : Memory} (hm : m.sys.heapSects 0 = [⟨65536, 65536⟩])
    {start bytes : Nat} (hstart : 65536 ≤ start) (hstop : start + bytes ≤ 131072)
    (hs : hblkSize ∣ start) (hb : hblkSize ∣ bytes) : BlockOf m 0 start bytes where
  start_pos := by omega
  start_aligned := hs
  bytes_aligned := hb
  inside := by
    intro a hge hlt
    refine ⟨⟨65536,65536⟩,by simp [hm],?_⟩
    unfold HeapSect.Contains
    dsimp only
    omega

theorem twoUnmappedBlocks_reach (legal : Memory → MapStep → Prop)
    (hlegal : ∀ m st, st = sectionStep ∨ st = lowerBlock ∨ st = upperBlock → Legal m st → legal m st) :
    Reach 16384 (fun _ => true) legal twoUnmappedBlocks := by
  have hsection : Legal Memory.init sectionStep := by
    refine ⟨by decide,?_⟩
    rintro a _ _ ⟨_,sect,hsect,_⟩
    cases hsect
  refine Reach.step upperBlock (Reach.step lowerBlock (Reach.step sectionStep Reach.init
    (hlegal _ _ (by simp) hsection)) (hlegal _ _ (by simp) ?_)) (hlegal _ _ (by simp) ?_)
  · exact blockOf_section rfl (by decide) (by decide) (by decide) (by decide)
  · exact blockOf_section rfl (by decide) (by decide) (by decide) (by decide)

/-- The page at 81920 is unmapped by the gap and still classified as committed. -/
theorem unmapGap_unnoted :
    ∃ m, Reach 16384 (fun _ => true) Legal m ∧ InHeap m 90000 ∧ m.mapped 90000 = false ∧
      classifyFault m.sys.registry 90000 = .crossIsolate ∧ ¬ Agreement m := by
  have hheap : InHeap (mapStep 16384 (fun _ => true) twoUnmappedBlocks mergeBlocks) 90000 :=
    ⟨0,⟨65536,65536⟩,List.Mem.head _,by decide⟩
  have hunmapped :
      (mapStep 16384 (fun _ => true) twoUnmappedBlocks mergeBlocks).mapped 90000 = false := by
    decide
  have hcross : classifyFault
      (mapStep 16384 (fun _ => true) twoUnmappedBlocks mergeBlocks).sys.registry 90000 =
        .crossIsolate := by
    decide
  refine ⟨_,Reach.step mergeBlocks
    (twoUnmappedBlocks_reach Legal fun _ _ _ h => h) ?_,hheap,hunmapped,hcross,?_⟩
  · exact ⟨blockOf_section rfl (by decide) (by decide) (by decide) (by decide),
      blockOf_section rfl (by decide) (by decide) (by decide) (by decide),rfl⟩
  · intro hagree
    have hnoted := (hagree 90000 hheap).mpr hunmapped
    rw [hcross] at hnoted
    cases hnoted

/-- In runs in which every page cut by the boundary of two merged blocks is
unmapped before the merge, the registry agrees with the mapping in every state and
no unmapped page is reported as another isolate's. A gap that unmaps a mapped page
of the heap breaks the agreement. -/
theorem agreement_of_gapUnmapped (pageSize : Nat) (hpage : 0 < pageSize) (realloc : Nat → Bool)
    (htotal : ∀ n, realloc n = true) (m : Memory)
    (hm : Reach pageSize realloc (fun m st => Legal m st ∧ GapUnmapped pageSize m st) m) :
    Agreement m ∧
      (∀ a, InHeap m a → m.mapped a = false → classifyFault m.sys.registry a ≠ .crossIsolate) ∧
      ∀ iso start1 bytes1 start2 bytes2, Legal m (.unmapGap iso start1 bytes1 start2 bytes2) →
        (Agreement (mapStep pageSize realloc m (.unmapGap iso start1 bytes1 start2 bytes2)) ↔
          GapUnmapped pageSize m (.unmapGap iso start1 bytes1 start2 bytes2)) := by
  obtain ⟨ref,href⟩ := reach_mirrors hpage hm
  have hagree := href.agreement htotal
  refine ⟨hagree,?_,fun _ _ _ _ _ hlegal => unmapGap_agreement_iff hpage hagree hlegal⟩
  intro a ha hunmapped hcross
  rw [(hagree a ha).mpr hunmapped] at hcross
  cases hcross

theorem agreement_twoUnmappedBlocks :
    Agreement twoUnmappedBlocks ∧ twoUnmappedBlocks.mapped 70000 = false :=
  ⟨(agreement_of_gapUnmapped 16384 (by decide) (fun _ => true) (fun _ => rfl) twoUnmappedBlocks
      (twoUnmappedBlocks_reach _ (by
        rintro m st (rfl | rfl | rfl) hlegal <;> exact ⟨hlegal,trivial⟩))).1,
    by decide⟩

end GcUtil.Isolate.Mapping
