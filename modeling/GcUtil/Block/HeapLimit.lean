import GcUtil.Block.Runs
import GcUtil.Library.Intervals

/-! The limit of `GC_set_max_heap_size`, against all that adds memory to the heap:
`GC_expand_hp_inner`, and the recycling of a mark stack or a section table that was outgrown. -/
namespace GcUtil.Block.HeapLimit
open Option
open Basic Headers FreeLists Allocator JointInvariant Merging ChainMerging Searching Runs Library.Outcome List
open Library

variable {pageHblks fuel : Nat} {cells : Finset Nat}

section Model

def heapSectSize : Nat := 16

def mseSize : Nat := 16

def initialHeapSects : Nat := 32

def initialMarkStackSize : Nat := hblkSize

/-- The heap with the two tables that are recycled into it: `GC_heap_sects`, of which the
contents are in `heap`, and `GC_mark_stack`. -/
structure Collector where
  heap : Heap
  maxHeapsize : Nat
  heapSectsAt : Option Nat
  capacityHeapSects : Nat
  markStack : Nat
  markStackSize : Nat

def Collector.init (hdrs : Nat → Hdr) (markStack : Nat) : Collector :=
  ⟨Heap.init hdrs, 0, none, 0, markStack, initialMarkStackSize⟩

def Collector.Full (c : Collector) : Prop := c.heap.heapSects.length = c.capacityHeapSects

instance (c : Collector) : Decidable c.Full := inferInstanceAs (Decidable (_ = _))

/-- What `GC_scratch_alloc` answers to the request for a larger section table and to the
second, smaller request. -/
structure Tables where
  doubled : Option Nat
  retried : Option Nat

def Tables.choose (tables : Tables) (n : Nat) : Option (Nat × Nat) :=
  match tables.doubled with
  | some a => some (a, if 0 < n then n * 2 else initialHeapSects)
  | none => tables.retried.map fun a => (a, n + initialHeapSects)

/-- The first part of `GC_add_to_heap`; no memory for the table is an abort. -/
def growHeapSects (tables : Tables) (c : Collector) : Option Collector :=
  if c.Full then
    (tables.choose c.heap.heapSects.length).map fun table =>
      { c with heapSectsAt := some table.1, capacityHeapSects := table.2 }
  else some c

/-- The whole pages of `sz` bytes at `ptr`: the first hblk, and how many. -/
def recycledPart (pageHblks ptr sz : Nat) : Nat × Nat :=
  let pageSize := pageHblks * hblkSize
  let pageOffset := ptr % pageSize
  let displ := if pageOffset ≠ 0 then pageSize - pageOffset else 0
  let recycledBytes := if displ < sz then (sz - displ) / pageSize * pageSize else 0
  (divHblksz (ptr + displ), divHblksz recycledBytes)

/-- `GC_scratch_recycle_inner`, given `GC_add_to_heap`. -/
def scratchRecycleInner (add : Collector → Nat → Nat → Option Collector) (pageHblks : Nat)
    (ptr : Option Nat) (sz : Nat) (c : Collector) : Option Collector :=
  match ptr with
  | none => some c
  | some ptr =>
      let part := recycledPart pageHblks ptr sz
      if 0 < part.2 then add c part.1 part.2 else some c

/-- `GC_add_to_heap` around the part that `Allocator.addToHeap` models: the section table, and the old
one, recycled by a call of the function itself. -/
def addToHeap (pageHblks : Nat) (tables : Tables) : Nat → Collector → Nat → Nat → Option Collector
  | 0, _, _, _ => none
  | depth + 1, old, h, n => do
      let c ← growHeapSects tables old
      if keptHblks h n = 0 then some c
      else
        let heap ← Allocator.addToHeap c.heap h n
        let c := { c with heap := heap }
        if old.Full ∧ 0 < old.capacityHeapSects then
          scratchRecycleInner (addToHeap pageHblks tables depth) pageHblks old.heapSectsAt
            (old.capacityHeapSects * heapSectSize) c
        else some c

def roundupPagesize (pageHblks lb : Nat) : Nat :=
  sizetSatAdd lb (pageHblks * hblkSize - 1) / (pageHblks * hblkSize) * (pageHblks * hblkSize)

def expandBytes (pageHblks n : Nat) : Nat :=
  roundupPagesize pageHblks ((if n = 0 then 1 else n) * hblkSize % (wordMax + 1))

def Collector.OverLimit (c : Collector) (sz : Nat) : Prop :=
  c.maxHeapsize ≠ 0 ∧ (c.maxHeapsize < sz ∨ c.maxHeapsize - sz < c.heap.heapsize)

instance (c : Collector) (sz : Nat) : Decidable (c.OverLimit sz) :=
  inferInstanceAs (Decidable (_ ≠ _ ∧ (_ < _ ∨ _ < _)))

/-- `GC_expand_hp_inner`; `space` is what the system gives, as an hblk. -/
def expandHpInner (pageHblks n : Nat) (space : Option Nat) (tables : Tables) (c : Collector) :
    Option Collector :=
  let sz := expandBytes pageHblks n
  if c.OverLimit sz then some c
  else
    match space with
    | none => some c
    | some h => addToHeap pageHblks tables 2 c h (divHblksz sz)

def allocMarkStack (pageHblks n : Nat) (newStack : Option Nat) (tables : Tables) (c : Collector) :
    Option Collector :=
  match newStack with
  | none => some c
  | some stack =>
      (scratchRecycleInner (addToHeap pageHblks tables 2) pageHblks (some c.markStack)
        (c.markStackSize * mseSize) c).map fun c => { c with markStack := stack, markStackSize := n }

/-- A `GC_allochblk` that collects is a search, the steps of the collection and a search of
the lists again. -/
inductive Op where
  | setMaxHeapSize (n : Nat)
  | expandHp (n : Nat) (space : Option Nat) (tables : Tables)
  | growMarkStack (newStack : Option Nat) (tables : Tables)
  | allochblk (env : AllocEnv) (req : Request)
  | searchAgain (env : AllocEnv) (req : Request) (startList : Nat)
  | freehblk (h : Nat)
  | mergeUnmapped
  | unmapOld (threshold : Nat)
  | nextGc

def exec (pageHblks fuel : Nat) (c : Collector) : Op → Option Collector
  | .setMaxHeapSize n => some { c with maxHeapsize := n }
  | .expandHp n space tables => expandHpInner pageHblks n space tables c
  | .growMarkStack newStack tables => allocMarkStack pageHblks (2 * c.markStackSize) newStack tables c
  | .allochblk env req => (allochblk env fuel req none c.heap).map fun r => { c with heap := r.2 }
  | .searchAgain env req startList =>
      (allochblkFromFreeLists env fuel req startList c.heap).map fun r => { c with heap := r.2 }
  | .freehblk h => (freehblk c.heap h).map fun heap => { c with heap := heap }
  | .mergeUnmapped => (mergeUnmapped fuel c.heap).map fun r => { c with heap := r.2 }
  | .unmapOld threshold => (unmapOld fuel threshold c.heap).map fun heap => { c with heap := heap }
  | .nextGc => some { c with heap := { c.heap with gcNo := c.heap.gcNo + 1 } }

def execAll (pageHblks fuel : Nat) : List Op → Collector → Option Collector
  | [], c => some c
  | op :: ops, c => (exec pageHblks fuel c op).bind (execAll pageHblks fuel ops)

end Model

section Regions

def Apart (r x : Nat × Nat) : Prop := Intervals.Apart Prod.fst Prod.snd r x

def Within (r x : Nat × Nat) : Prop := x.1 ≤ r.1 ∧ r.2 ≤ x.2

theorem Apart.within {r r' x : Nat × Nat} (h : Apart x r) (hin : Within r' r) : Apart x r' := by
  rcases h with hle | hle
  · exact .inl (hle.trans hin.1)
  · exact .inr (hin.2.trans hle)

theorem Apart.symm {r x : Nat × Nat} (h : Apart r x) : Apart x r := Intervals.Apart.symm _ _ h

def hblkRegion (h n : Nat) : Nat × Nat := (h * hblkSize, (h + n) * hblkSize)

def Collector.sectRegions (c : Collector) : List (Nat × Nat) :=
  c.heap.heapSects.map fun sect => (sect.hsStart, sect.hsStart + sect.hsBytes)

def Collector.tableRegions (c : Collector) : List (Nat × Nat) :=
  c.heapSectsAt.toList.map fun ptr => (ptr, ptr + c.capacityHeapSects * heapSectSize)

def Collector.stackRegion (c : Collector) : Nat × Nat :=
  (c.markStack, c.markStack + c.markStackSize * mseSize)

def Collector.regions (c : Collector) : List (Nat × Nat) := c.tableRegions ++ c.sectRegions

/-- The table of sections is memory of its own and has room for them. -/
structure Sound (cells : Finset Nat) (c : Collector) : Prop where
  ok : Ok cells c.heap
  table : ∀ t ∈ c.tableRegions, t.2 < t.1 + sizetSignb ∧ ∀ r ∈ c.sectRegions, Apart t r
  room : c.heap.heapSects.length ≤ c.capacityHeapSects
  capacity : c.capacityHeapSects = 0 ∨ initialHeapSects ≤ c.capacityHeapSects

structure Inv (cells : Finset Nat) (c : Collector) : Prop extends Sound cells c where
  small : c.markStackSize * mseSize < sizetSignb
  stack : ∀ r ∈ c.regions, Apart c.stackRegion r

def Unused (c : Collector) (r : Nat × Nat) : Prop := r.2 < r.1 + sizetSignb ∧ ∀ x ∈ c.regions, Apart r x

theorem recycledPart_within {ptr sz : Nat} (hpos : 0 < (recycledPart pageHblks ptr sz).2) :
    Within (hblkRegion (recycledPart pageHblks ptr sz).1 (recycledPart pageHblks ptr sz).2)
      (ptr, ptr + sz) := by
  rcases Nat.eq_zero_or_pos pageHblks with rfl | hpage
  · simp [recycledPart,divHblksz] at hpos
  · have hsize : 0 < pageHblks * hblkSize := Nat.mul_pos hpage (by decide)
    have hdvd : hblkSize ∣ pageHblks * hblkSize := Nat.dvd_mul_left _ _
    unfold recycledPart at hpos ⊢
    dsimp only at hpos ⊢
    generalize hdispl : (if ptr % (pageHblks * hblkSize) ≠ 0 then
      pageHblks * hblkSize - ptr % (pageHblks * hblkSize) else 0) = displ at *
    have halign : hblkSize ∣ ptr + displ := by
      refine hdvd.trans ?_
      have hdiv := Nat.div_add_mod ptr (pageHblks * hblkSize)
      have hlt := Nat.mod_lt ptr hsize
      rw [← hdispl]
      split
      · refine ⟨ptr / (pageHblks * hblkSize) + 1,?_⟩
        rw [Nat.mul_succ]
        omega
      · refine ⟨ptr / (pageHblks * hblkSize),?_⟩
        omega
    have hstart : divHblksz (ptr + displ) * hblkSize = ptr + displ := Nat.div_mul_cancel halign
    unfold Within hblkRegion
    dsimp only
    rw [Nat.add_mul,hstart]
    by_cases hin : displ < sz
    · rw [if_pos hin]
      have hbytes := Nat.div_mul_le_self (sz - displ) (pageHblks * hblkSize)
      have hwhole := Nat.div_mul_le_self ((sz - displ) / (pageHblks * hblkSize) * (pageHblks * hblkSize)) hblkSize
      unfold divHblksz
      omega
    · simp [hin,divHblksz] at hpos

end Regions

section Adding

variable {c c' : Collector} {tables : Tables} {h n : Nat}

theorem newSects_within {sect : HeapSect} (hsect : sect ∈ newSects h n) :
    Within (sect.hsStart, sect.hsStart + sect.hsBytes) (hblkRegion h n) := by
  obtain ⟨hlo,hhi,_⟩ := skipLow_spec h n
  have htrim := trimHigh_le (skipLow h n).1 (skipLow h n).2
  unfold newSects at hsect
  split at hsect
  · cases hsect
  · obtain rfl := mem_singleton.mp hsect
    unfold Within hblkRegion keptHblks hblkSize
    dsimp only
    omega

theorem newSects_length (h n : Nat) : (newSects h n).length = if keptHblks h n = 0 then 0 else 1 := by
  unfold newSects
  split <;> rfl

/-- `GC_add_to_heap` when the section table has room. -/
theorem Sound.add (hc : Sound cells c) (hroom : ¬ c.Full) (hsize : n * hblkSize < sizetSignb)
    (hunused : ∀ r ∈ c.regions, Apart (hblkRegion h n) r) :
    ∃ heap cells', Allocator.addToHeap c.heap h n = some heap ∧ Sound cells' { c with heap := heap } ∧
      cells'.card = cells.card + keptHblks h n ∧
      heap.heapSects = c.heap.heapSects ++ newSects h n := by
  have hfresh : ∀ sect ∈ c.heap.heapSects, (h + n) * hblkSize ≤ sect.hsStart ∨
      sect.hsStart + sect.hsBytes ≤ h * hblkSize := by
    intro sect hsect
    exact hunused (sect.hsStart, sect.hsStart + sect.hsBytes)
      (mem_append_right _ (mem_map_of_mem hsect))
  obtain ⟨heap,cells',hheap,hok,hcard,_,hsects,_⟩ := addToHeap_spec hc.ok hsize hfresh
  refine ⟨heap,cells',hheap,⟨hok,fun t ht => ⟨(hc.table t ht).1,fun r hr => ?_⟩,?_,hc.capacity⟩,
    hcard,hsects⟩
  · obtain ⟨sect,hsect,rfl⟩ := mem_map.mp hr
    change sect ∈ heap.heapSects at hsect
    rw [hsects,mem_append] at hsect
    rcases hsect with hold | hnew
    · exact (hc.table t ht).2 _ (mem_map_of_mem hold)
    · exact (hunused t (mem_append_left _ ht)).symm.within (newSects_within hnew)
  · have hle := hc.room
    have hlen := newSects_length h n
    change heap.heapSects.length ≤ c.capacityHeapSects
    rw [hsects,length_append,hlen]
    unfold Collector.Full at hroom
    split <;> omega

def SameStack (c c' : Collector) : Prop :=
  c'.maxHeapsize = c.maxHeapsize ∧ c'.markStack = c.markStack ∧ c'.markStackSize = c.markStackSize

/-- What a collector may have in use after `h` has been added: what it had, the new memory
and the table that was chosen. -/
def Covers (tables : Tables) (c : Collector) (h n : Nat) (c' : Collector) : Prop :=
  ∀ x, (∀ r ∈ c.regions, Apart x r) → Apart x (hblkRegion h n) →
    (∀ table, tables.choose c.heap.heapSects.length = some table →
      Apart x (table.1, table.1 + table.2 * heapSectSize)) → ∀ r ∈ c'.regions, Apart x r

def TablesUnused (tables : Tables) (c : Collector) (x : Nat × Nat) : Prop :=
  ∀ table ∈ tables.choose c.heap.heapSects.length,
    Unused c (table.1, table.1 + table.2 * heapSectSize) ∧
      Apart x (table.1, table.1 + table.2 * heapSectSize)

theorem choose_capacity {table : Nat × Nat} (h : tables.choose n = some table)
    (hn : n = 0 ∨ initialHeapSects ≤ n) : initialHeapSects ≤ table.2 ∧ n + 2 ≤ table.2 := by
  unfold initialHeapSects at hn ⊢
  unfold Tables.choose initialHeapSects at h
  split at h
  · cases h
    dsimp only
    split <;> omega
  · obtain ⟨a,_,rfl⟩ := map_eq_some_iff.mp h
    dsimp only
    omega

theorem growHeapSects_spec (hc : Sound cells c) (hn : TablesUnused tables c (hblkRegion h n))
    (hunused : ∀ r ∈ c.regions, Apart (hblkRegion h n) r) (hg : growHeapSects tables c = some c') :
    Sound cells c' ∧ ¬ c'.Full ∧ (c.Full → c.heap.heapSects.length + 2 ≤ c'.capacityHeapSects) ∧
      (∀ r ∈ c'.regions, Apart (hblkRegion h n) r) ∧
      (c.Full → ∀ t ∈ c.tableRegions, ∀ r ∈ c'.tableRegions, Apart t r) ∧ Covers tables c h n c' ∧
      c'.heap = c.heap ∧ SameStack c c' := by
  unfold growHeapSects at hg
  split at hg
  · rename_i hfull
    obtain ⟨table,htable,rfl⟩ := map_eq_some_iff.mp hg
    obtain ⟨⟨hsmall,hapart⟩,hnew⟩ := hn table htable
    have hcap := choose_capacity htable (by rw [hfull]; exact hc.capacity)
    have hsect : ∀ r ∈ c.sectRegions, Apart (table.1, table.1 + table.2 * heapSectSize) r :=
      fun r hr => hapart r (mem_append_right _ hr)
    refine ⟨⟨hc.ok,?_,?_,.inr hcap.1⟩,?_,fun _ => hcap.2,?_,fun _ t ht r hr => ?_,?_,rfl,
      rfl,rfl,rfl⟩
    · intro t ht
      obtain rfl := mem_singleton.mp ht
      exact ⟨hsmall,hsect⟩
    · change c.heap.heapSects.length ≤ table.2
      omega
    · change c.heap.heapSects.length ≠ table.2
      omega
    · intro r hr
      rcases mem_append.mp hr with ht | hs
      · obtain rfl := mem_singleton.mp ht
        exact hnew
      · exact hunused r (mem_append_right _ hs)
    · obtain rfl := mem_singleton.mp hr
      exact (hapart t (mem_append_left _ ht)).symm
    · intro x hx _ htables r hr
      rcases mem_append.mp hr with ht | hs
      · obtain rfl := mem_singleton.mp ht
        exact htables table htable
      · exact hx r (mem_append_right _ hs)
  · rename_i hroom
    cases hg
    exact ⟨hc,hroom,fun hfull => absurd hfull hroom,hunused,fun hfull => absurd hfull hroom,
      fun x hx _ _ => hx,rfl,rfl,rfl,rfl⟩

theorem addToHeap_room {depth : Nat} (hc : Sound cells c) (hroom : ¬ c.Full)
    (hsize : n * hblkSize < sizetSignb) (hunused : ∀ r ∈ c.regions, Apart (hblkRegion h n) r)
    (hadd : addToHeap pageHblks tables (depth + 1) c h n = some c') :
    ∃ heap cells', c' = { c with heap := heap } ∧ Sound cells' c' ∧
      cells'.card = cells.card + keptHblks h n ∧ heap.heapSects = c.heap.heapSects ++ newSects h n := by
  obtain ⟨heap,cells',hheap,hsound,hcard,hsects⟩ := hc.add hroom hsize hunused
  rw [addToHeap,growHeapSects,if_neg hroom,bind_eq_bind,bind_some] at hadd
  split at hadd
  · rename_i hzero
    cases hadd
    refine ⟨c.heap,cells,rfl,hc,by omega,?_⟩
    rw [newSects,if_pos hzero,append_nil]
  · rw [hheap,bind_eq_bind,bind_some,if_neg (fun hfull => hroom hfull.1)] at hadd
    cases hadd
    exact ⟨heap,cells',rfl,hsound,hcard,hsects⟩

def recycledHblks (pageHblks : Nat) (ptr : Option Nat) (sz : Nat) : Nat :=
  ptr.elim 0 fun ptr => keptHblks (recycledPart pageHblks ptr sz).1 (recycledPart pageHblks ptr sz).2

def tableHblks (pageHblks : Nat) (c : Collector) : Nat :=
  if c.Full ∧ 0 < c.capacityHeapSects then
    recycledHblks pageHblks c.heapSectsAt (c.capacityHeapSects * heapSectSize)
  else 0

def addedHblks (pageHblks : Nat) (c : Collector) (h n : Nat) : Nat :=
  if keptHblks h n = 0 then 0 else keptHblks h n + tableHblks pageHblks c

theorem mem_regions_of_sects {heap : Heap} {r : Nat × Nat}
    (hsects : heap.heapSects = c.heap.heapSects ++ newSects h n)
    (hr : r ∈ Collector.regions { c with heap := heap }) :
    r ∈ c.regions ∨ Within r (hblkRegion h n) := by
  rcases mem_append.mp hr with ht | hs
  · exact .inl (mem_append_left _ ht)
  · obtain ⟨sect,hsect,rfl⟩ := mem_map.mp hs
    change sect ∈ heap.heapSects at hsect
    rw [hsects,mem_append] at hsect
    rcases hsect with hold | hnew
    · exact .inl (mem_append_right _ (mem_map_of_mem hold))
    · exact .inr (newSects_within hnew)

theorem hblks_lt_of_within {h n ptr sz : Nat} (hin : Within (hblkRegion h n) (ptr, ptr + sz))
    (hsmall : sz < sizetSignb) : n * hblkSize < sizetSignb := by
  unfold Within hblkRegion at hin
  dsimp only at hin
  rw [Nat.add_mul] at hin
  omega

theorem scratchRecycleInner_room {depth ptr sz : Nat} (hc : Sound cells c) (hroom : ¬ c.Full)
    (hsmall : sz < sizetSignb) (hunused : ∀ r ∈ c.regions, Apart (ptr, ptr + sz) r)
    (hadd : scratchRecycleInner (addToHeap pageHblks tables (depth + 1)) pageHblks (some ptr) sz c =
      some c') :
    ∃ cells', Sound cells' c' ∧ cells'.card = cells.card + recycledHblks pageHblks (some ptr) sz ∧
      SameStack c c' ∧ ∀ x, (∀ r ∈ c.regions, Apart x r) → Apart x (ptr, ptr + sz) →
        ∀ r ∈ c'.regions, Apart x r := by
  unfold scratchRecycleInner at hadd
  rw [recycledHblks,elim_some]
  dsimp only at hadd
  split at hadd
  · rename_i hpos
    have hin := recycledPart_within hpos
    obtain ⟨heap,cells',rfl,hsound,hcard,hsects⟩ := addToHeap_room hc hroom
      (hblks_lt_of_within hin hsmall) (fun r hr => ((hunused r hr).symm.within hin).symm) hadd
    refine ⟨cells',hsound,hcard,⟨rfl,rfl,rfl⟩,fun x hx hxold r hr => ?_⟩
    rcases mem_regions_of_sects hsects hr with hbefore | hpart
    · exact hx r hbefore
    · exact (hxold.within hin).within hpart
  · rename_i hzero
    cases hadd
    have hle := keptHblks_le (recycledPart pageHblks ptr sz).1 (recycledPart pageHblks ptr sz).2
    exact ⟨cells,hc,by omega,⟨rfl,rfl,rfl⟩,fun x hx _ => hx⟩

theorem addToHeap_grows {depth : Nat} (hc : Sound cells c) (hsize : n * hblkSize < sizetSignb)
    (hunused : ∀ r ∈ c.regions, Apart (hblkRegion h n) r)
    (htables : TablesUnused tables c (hblkRegion h n))
    (hadd : addToHeap pageHblks tables (depth + 2) c h n = some c') :
    ∃ cells', Sound cells' c' ∧ cells'.card = cells.card + addedHblks pageHblks c h n ∧
      SameStack c c' ∧ Covers tables c h n c' := by
  rw [addToHeap] at hadd
  obtain ⟨g,hg,hadd⟩ := bind_eq_some_iff.mp hadd
  obtain ⟨hsound,hroom,hcap,hunusedg,htable,hcovers,hheapg,hstack⟩ :=
    growHeapSects_spec hc htables hunused hg
  unfold addedHblks
  split at hadd
  · rename_i hzero
    cases hadd
    rw [if_pos hzero]
    exact ⟨cells,hsound,rfl,hstack,hcovers⟩
  rename_i hkept
  rw [if_neg hkept]
  obtain ⟨heap,cells',hheap,hsound',hcard,hsects⟩ := hsound.add hroom hsize hunusedg
  rw [hheap,bind_eq_bind,bind_some] at hadd
  have hmem : ∀ r ∈ Collector.regions { g with heap := heap }, r ∈ g.regions ∨ Within r (hblkRegion h n) :=
    fun r hr => mem_regions_of_sects hsects hr
  have hcovers' : Covers tables c h n { g with heap := heap } := by
    intro x hx hxn htab r hr
    rcases hmem r hr with hold | hin
    · exact hcovers x hx hxn htab r hold
    · exact hxn.within hin
  unfold tableHblks
  split at hadd
  · rename_i hfull
    rw [if_pos hfull]
    cases hptr : c.heapSectsAt with
    | none =>
      rw [hptr] at hadd
      cases hadd
      exact ⟨cells',hsound',hcard,hstack,hcovers'⟩
    | some ptr =>
      rw [hptr] at hadd
      let old : Nat × Nat := (ptr, ptr + c.capacityHeapSects * heapSectSize)
      have hold : old ∈ c.tableRegions := by
        unfold Collector.tableRegions
        rw [hptr]
        exact mem_singleton.mpr rfl
      -- The old table is neither the new one nor part of any section.
      have hapart : ∀ r ∈ Collector.regions { g with heap := heap }, Apart old r := by
        intro r hr
        rcases hmem r hr with hreg | hin
        · rcases mem_append.mp hreg with ht | hs
          · exact htable hfull.1 old hold r ht
          · unfold Collector.sectRegions at hs
            rw [hheapg] at hs
            exact (hc.table old hold).2 r hs
        · exact ((hunused old (mem_append_left _ hold)).symm).within hin
      have hlast : ¬ Collector.Full { g with heap := heap } := by
        change heap.heapSects.length ≠ g.capacityHeapSects
        have hle := hcap hfull.1
        have hlen := newSects_length h n
        rw [if_neg hkept] at hlen
        rw [hsects,length_append,hlen,hheapg]
        omega
      obtain ⟨cells'',hsound'',hcard',hstack',happend⟩ := scratchRecycleInner_room hsound' hlast
        (Nat.lt_of_add_lt_add_left (hc.table old hold).1) hapart hadd
      refine ⟨cells'',hsound'',by omega,⟨hstack'.1.trans hstack.1,hstack'.2.1.trans hstack.2.1,
        hstack'.2.2.trans hstack.2.2⟩,fun x hx hxn htab => ?_⟩
      exact happend x (hcovers' x hx hxn htab) (hx old (mem_append_left _ hold))
  · rename_i hfull
    rw [if_neg hfull]
    cases hadd
    exact ⟨cells',hsound',hcard,hstack,hcovers'⟩

end Adding

section Steps

variable {c c' : Collector} {op : Op} {limit : Nat}

/-- What the system and the callers see to: new memory is not in use, blocks are asked for
and freed as in every run. -/
def Allowed (pageHblks : Nat) (c : Collector) : Op → Prop
  | .expandHp n space tables => ∀ h ∈ space,
      expandBytes pageHblks n < sizetSignb ∧
      (∀ r ∈ c.stackRegion :: c.regions, Apart (hblkRegion h (divHblksz (expandBytes pageHblks n))) r) ∧
      TablesUnused tables c (hblkRegion h (divHblksz (expandBytes pageHblks n))) ∧
      TablesUnused tables c c.stackRegion
  | .growMarkStack newStack tables => ∀ stack ∈ newStack,
      2 * c.markStackSize * mseSize < sizetSignb ∧
      (∀ r ∈ c.stackRegion :: c.regions, Apart (stack, stack + 2 * c.markStackSize * mseSize) r) ∧
      TablesUnused tables c (stack, stack + 2 * c.markStackSize * mseSize) ∧
      TablesUnused tables c c.stackRegion
  | .allochblk _ req => Legal req
  | .searchAgain _ req _ => Legal req ∧ req.overflows = false
  | .freehblk h => (c.heap.hdrAt h).any fun hhdr => !hhdr.isFree
  | _ => True

def stackHblks (pageHblks : Nat) (c : Collector) : Nat :=
  let part := recycledPart pageHblks c.markStack (c.markStackSize * mseSize)
  addedHblks pageHblks c part.1 part.2

def growth (pageHblks : Nat) (c : Collector) : Op → Nat
  | .expandHp n space _ =>
      if c.OverLimit (expandBytes pageHblks n) then 0
      else space.elim 0 fun h => addedHblks pageHblks c h (divHblksz (expandBytes pageHblks n))
  | .growMarkStack newStack _ => newStack.elim 0 fun _ => stackHblks pageHblks c
  | _ => 0

theorem Inv.onHeap {heap : Heap} (hc : Inv cells c) (hok : Ok cells heap)
    (hsects : heap.heapSects = c.heap.heapSects) : Inv cells { c with heap := heap } := by
  have hregions : Collector.sectRegions { c with heap := heap } = c.sectRegions := by
    unfold Collector.sectRegions
    rw [hsects]
  refine ⟨⟨hok,?_,?_,hc.capacity⟩,hc.small,?_⟩
  · rw [hregions]
    exact hc.table
  · change heap.heapSects.length ≤ _
    rw [hsects]
    exact hc.room
  · unfold Collector.regions
    rw [hregions]
    exact hc.stack

theorem onHeap_spec {α : Type} {r : Option α} {f : α → Heap} (enough : Prop) (hc : Inv cells c)
    (h : Returns enough r fun a => Ok cells (f a) ∧ (f a).heapSects = c.heap.heapSects)
    (hr : r.map (fun a => { c with heap := f a }) = some c') :
    Inv cells c' ∧ c'.maxHeapsize = c.maxHeapsize := by
  obtain ⟨a,ha,rfl⟩ := map_eq_some_iff.mp hr
  obtain ⟨hok,hsects⟩ := h.of_eq ha
  exact ⟨hc.onHeap hok hsects,rfl⟩

theorem expandHpInner_spec {n : Nat} {space : Option Nat} {tables : Tables} (hc : Inv cells c)
    (hallowed : Allowed pageHblks c (.expandHp n space tables))
    (h : expandHpInner pageHblks n space tables c = some c') :
    ∃ cells', Inv cells' c' ∧ cells'.card = cells.card + growth pageHblks c (.expandHp n space tables) ∧
      c'.maxHeapsize = c.maxHeapsize := by
  rw [Allowed] at hallowed
  unfold expandHpInner at h
  rw [growth]
  dsimp only at h
  split at h
  · rename_i hover
    cases h
    rw [if_pos hover]
    exact ⟨cells,hc,rfl,rfl⟩
  · rename_i hover
    rw [if_neg hover]
    cases space with
    | none =>
      cases h
      exact ⟨cells,hc,rfl,rfl⟩
    | some space =>
      obtain ⟨hsmall,hunused,htables,hstackTables⟩ := hallowed space rfl
      obtain ⟨hstack,hregions⟩ := forall_mem_cons.mp hunused
      obtain ⟨cells',hsound,hcard,hsame,hcovers⟩ := addToHeap_grows hc.toSound
        ((Nat.div_mul_le_self _ _).trans_lt hsmall) hregions htables h
      refine ⟨cells',⟨hsound,hsame.2.2 ▸ hc.small,?_⟩,hcard,hsame.1⟩
      unfold Collector.stackRegion
      rw [hsame.2.1,hsame.2.2]
      exact hcovers _ hc.stack hstack.symm fun table htable => (hstackTables table htable).2

theorem allocMarkStack_spec {newStack : Option Nat} {tables : Tables} (hc : Inv cells c)
    (hallowed : Allowed pageHblks c (.growMarkStack newStack tables))
    (h : allocMarkStack pageHblks (2 * c.markStackSize) newStack tables c = some c') :
    ∃ cells', Inv cells' c' ∧
      cells'.card = cells.card + growth pageHblks c (.growMarkStack newStack tables) ∧
      c'.maxHeapsize = c.maxHeapsize := by
  rw [Allowed] at hallowed
  unfold allocMarkStack at h
  rw [growth]
  cases newStack with
  | none =>
    cases h
    exact ⟨cells,hc,rfl,rfl⟩
  | some stack =>
    obtain ⟨hsmall,hunused,htables,hstackTables⟩ := hallowed stack rfl
    obtain ⟨hstack,hregions⟩ := forall_mem_cons.mp hunused
    obtain ⟨d,hd,rfl⟩ := map_eq_some_iff.mp h
    have hkey : ∃ cells', Sound cells' d ∧ cells'.card = cells.card + stackHblks pageHblks c ∧
        d.maxHeapsize = c.maxHeapsize ∧
        ∀ r ∈ d.regions, Apart (stack, stack + 2 * c.markStackSize * mseSize) r := by
      unfold scratchRecycleInner at hd
      unfold stackHblks
      dsimp only at hd ⊢
      split at hd
      · rename_i hpos
        have hin := recycledPart_within hpos
        obtain ⟨cells',hsound,hcard,hsame,hcovers⟩ := addToHeap_grows hc.toSound
          (hblks_lt_of_within hin hc.small) (fun r hr => ((hc.stack r hr).symm.within hin).symm)
          (fun table htable => ⟨(hstackTables table htable).1,
            ((hstackTables table htable).2.symm.within hin).symm⟩) hd
        exact ⟨cells',hsound,hcard,hsame.1,hcovers _ hregions (hstack.within hin)
          fun table htable => (htables table htable).2⟩
      · rename_i hzero
        cases hd
        have hle := keptHblks_le (recycledPart pageHblks c.markStack (c.markStackSize * mseSize)).1
          (recycledPart pageHblks c.markStack (c.markStackSize * mseSize)).2
        exact ⟨cells,hc.toSound,by rw [addedHblks,if_pos (by omega),Nat.add_zero],rfl,hregions⟩
    obtain ⟨cells',hsound,hcard,hmax,hapart⟩ := hkey
    exact ⟨cells',⟨⟨hsound.ok,hsound.table,hsound.room,hsound.capacity⟩,hsmall,hapart⟩,hcard,hmax⟩

theorem exec_grows (hc : Inv cells c) (hallowed : Allowed pageHblks c op)
    (h : exec pageHblks fuel c op = some c') :
    ∃ cells', Inv cells' c' ∧ cells'.card = cells.card + growth pageHblks c op ∧
      ((∀ n, op ≠ .setMaxHeapSize n) → c'.maxHeapsize = c.maxHeapsize) := by
  have hsame : Inv cells c' ∧ c'.maxHeapsize = c.maxHeapsize → ∃ cells', Inv cells' c' ∧
      cells'.card = cells.card + 0 ∧ ((∀ n, op ≠ .setMaxHeapSize n) → c'.maxHeapsize = c.maxHeapsize) :=
    fun h => ⟨cells,h.1,rfl,fun _ => h.2⟩
  cases op with
  | setMaxHeapSize n =>
    cases h
    exact ⟨cells,⟨⟨hc.ok,hc.table,hc.room,hc.capacity⟩,hc.small,hc.stack⟩,rfl,
      fun hne => absurd rfl (hne n)⟩
  | expandHp n space tables =>
    obtain ⟨cells',hinv,hcard,hmax⟩ := expandHpInner_spec hc hallowed h
    exact ⟨cells',hinv,hcard,fun _ => hmax⟩
  | growMarkStack newStack tables =>
    obtain ⟨cells',hinv,hcard,hmax⟩ := allocMarkStack_spec hc hallowed h
    exact ⟨cells',hinv,hcard,fun _ => hmax⟩
  | allochblk env req =>
    refine hsame (onHeap_spec (Enough cells fuel) hc ?_ h)
    have hlegal : Legal req := hallowed
    unfold allochblk Search.allochblk
    split
    · exact ⟨hc.ok,rfl⟩
    · rename_i hover
      exact (allochblkBeforeCollect_spec env fuel hlegal.sound (sizeNeeded_lt (Bool.eq_false_iff.mpr hover))
        hc.ok).orTry
        (fun _ _ ht => ⟨ht.1,ht.2.sects⟩) fun _ _ ht => ⟨ht.1,ht.2.sects⟩
  | searchAgain env req startList =>
    obtain ⟨hlegal,hover⟩ := hallowed
    exact hsame (onHeap_spec _ hc ((allochblkFromFreeLists_spec env fuel hlegal.sound (sizeNeeded_lt hover)
      startList hc.ok).mono id fun r hr => ⟨hr.1,hr.2.sects⟩) h)
  | freehblk a =>
    obtain ⟨heap,hheap,hok,_,_,_,hsects,_⟩ := freehblk_ok hc.ok hallowed
    rw [exec,hheap] at h
    cases h
    exact hsame ⟨hc.onHeap hok hsects,rfl⟩
  | mergeUnmapped =>
    exact hsame (onHeap_spec _ hc ((mergeUnmapped_spec hc.ok).mono id fun r hr =>
      ⟨hr.1.1,congrArg (·.2.2) hr.1.2.counts⟩) h)
  | unmapOld threshold =>
    exact hsame (onHeap_spec (f := id) _ hc ((unmapOld_spec threshold hc.ok).mono id fun r hr =>
      ⟨hr.1,congrArg (·.2.2) hr.2.counts⟩) h)
  | nextGc =>
    cases h
    have hnext := nextGc_ok hc.ok
    exact hsame ⟨hc.onHeap hnext.1 rfl,rfl⟩

end Steps

section Limit

variable {c c' : Collector} {op : Op} {limit : Nat}

def recycledBy (pageHblks : Nat) (c : Collector) : Op → Nat
  | .expandHp n space _ =>
      if c.OverLimit (expandBytes pageHblks n) then 0
      else space.elim 0 fun h =>
        if keptHblks h (divHblksz (expandBytes pageHblks n)) = 0 then 0 else tableHblks pageHblks c
  | .growMarkStack newStack _ => newStack.elim 0 fun _ => stackHblks pageHblks c
  | _ => 0

def Room (pageHblks limit : Nat) (c : Collector) (op : Op) : Prop :=
  recycledBy pageHblks c op = 0 ∨ c.heap.heapsize + growth pageHblks c op * hblkSize ≤ limit

theorem room_iff (pageHblks : Nat) (op : Op) (hlimit : limit ≠ 0) (hmax : c.maxHeapsize = limit)
    (hle : c.heap.heapsize ≤ limit) :
    Room pageHblks limit c op ↔ c.heap.heapsize + growth pageHblks c op * hblkSize ≤ limit := by
  refine ⟨fun hroom => ?_,.inr⟩
  rcases hroom with hnone | hroom
  · cases op with
    | expandHp n space tables =>
      rw [recycledBy] at hnone
      rw [growth]
      split at hnone
      · rename_i hover
        rw [if_pos hover]
        omega
      · rename_i hover
        rw [if_neg hover]
        cases space with
        | none =>
          rw [elim_none]
          omega
        | some h =>
          rw [elim_some] at hnone ⊢
          have hkept := keptHblks_le h (divHblksz (expandBytes pageHblks n))
          have hbytes := Nat.div_mul_le_self (expandBytes pageHblks n) hblkSize
          have hmul := Nat.mul_le_mul_right hblkSize hkept
          unfold Collector.OverLimit at hover
          unfold addedHblks
          unfold divHblksz at *
          split at hnone
          · rename_i hzero
            rw [if_pos hzero]
            omega
          · rename_i hzero
            rw [if_neg hzero,hnone,Nat.add_zero]
            omega
    | growMarkStack newStack tables =>
      have hzero : growth pageHblks c (.growMarkStack newStack tables) = 0 := hnone
      rw [hzero]
      omega
    | _ =>
      change c.heap.heapsize + 0 * hblkSize ≤ limit
      omega
  · exact hroom

def AllAllowed (pageHblks fuel : Nat) : List Op → Collector → Prop
  | [], _ => True
  | op :: ops, c => Allowed pageHblks c op ∧ ∀ c' ∈ exec pageHblks fuel c op, AllAllowed pageHblks fuel ops c'

def AllRoom (pageHblks fuel limit : Nat) : List Op → Collector → Prop
  | [], _ => True
  | op :: ops, c => ∀ c' ∈ exec pageHblks fuel c op,
      Room pageHblks limit c op ∧ AllRoom pageHblks fuel limit ops c'

section Decidable

instance (r x : Nat × Nat) : Decidable (Apart r x) := inferInstanceAs (Decidable (_ ≤ _ ∨ _ ≤ _))

instance (c : Collector) (r : Nat × Nat) : Decidable (Unused c r) :=
  inferInstanceAs (Decidable (_ < _ ∧ ∀ x ∈ c.regions, Apart r x))

instance (tables : Tables) (c : Collector) (x : Nat × Nat) : Decidable (TablesUnused tables c x) :=
  inferInstanceAs (Decidable (∀ table ∈ tables.choose c.heap.heapSects.length, _ ∧ _))

instance (pageHblks : Nat) (c : Collector) : (op : Op) → Decidable (Allowed pageHblks c op)
  | .expandHp _ space _ => inferInstanceAs (Decidable (∀ h ∈ space, _ < _ ∧ (∀ r ∈ _, Apart _ r) ∧ _))
  | .growMarkStack newStack _ =>
      inferInstanceAs (Decidable (∀ stack ∈ newStack, _ < _ ∧ (∀ r ∈ _, Apart _ r) ∧ _))
  | .allochblk _ req => inferInstanceAs (Decidable (Legal req))
  | .searchAgain _ req _ => inferInstanceAs (Decidable (Legal req ∧ req.overflows = false))
  | .freehblk _ => inferInstanceAs (Decidable (_ = true))
  | .setMaxHeapSize _ | .mergeUnmapped | .unmapOld _ | .nextGc => instDecidableTrue

instance (pageHblks limit : Nat) (c : Collector) (op : Op) : Decidable (Room pageHblks limit c op) :=
  inferInstanceAs (Decidable (_ = _ ∨ _ ≤ _))

def decAllAllowed (pageHblks fuel : Nat) :
    (ops : List Op) → (c : Collector) → Decidable (AllAllowed pageHblks fuel ops c)
  | [], _ => instDecidableTrue
  | op :: ops, c =>
      have (c' : Collector) : Decidable (AllAllowed pageHblks fuel ops c') := decAllAllowed pageHblks fuel ops c'
      inferInstanceAs (Decidable (Allowed pageHblks c op ∧ ∀ c' ∈ exec pageHblks fuel c op, _))

instance (pageHblks fuel : Nat) (ops : List Op) (c : Collector) :
    Decidable (AllAllowed pageHblks fuel ops c) := decAllAllowed pageHblks fuel ops c

def decAllRoom (pageHblks fuel limit : Nat) :
    (ops : List Op) → (c : Collector) → Decidable (AllRoom pageHblks fuel limit ops c)
  | [], _ => instDecidableTrue
  | op :: ops, c =>
      have (c' : Collector) : Decidable (AllRoom pageHblks fuel limit ops c') :=
        decAllRoom pageHblks fuel limit ops c'
      inferInstanceAs (Decidable (∀ c' ∈ exec pageHblks fuel c op, Room pageHblks limit c op ∧ _))

instance (pageHblks fuel limit : Nat) (ops : List Op) (c : Collector) :
    Decidable (AllRoom pageHblks fuel limit ops c) := decAllRoom pageHblks fuel limit ops c

end Decidable

theorem inv_init (hdrs : Nat → Hdr) (markStack : Nat) : Inv ∅ (Collector.init hdrs markStack) where
  ok := ⟨_,heapOk_init hdrs⟩
  table t ht := by cases ht
  room := le_refl _
  capacity := .inl rfl
  small := (by decide : initialMarkStackSize * mseSize < sizetSignb)
  stack r hr := by cases hr

theorem Inv.heapsize (hc : Inv cells c) : c.heap.heapsize = cells.card * hblkSize := by
  obtain ⟨L,hok⟩ := hc.ok
  exact hok.heapsize

theorem execAll_inv {ops : List Op} (hc : Inv cells c) (hallowed : AllAllowed pageHblks fuel ops c)
    (h : execAll pageHblks fuel ops c = some c') : ∃ cells', Inv cells' c' := by
  induction ops generalizing cells c with
  | nil =>
    cases h
    exact ⟨cells,hc⟩
  | cons op ops ih =>
    obtain ⟨d,hd,h⟩ := bind_eq_some_iff.mp h
    obtain ⟨cells',hinv,_⟩ := exec_grows hc hallowed.1 hd
    exact ih hinv (hallowed.2 d hd) h

theorem execAll_within_iff {ops : List Op} (hc : Inv cells c) (hlimit : limit ≠ 0)
    (hmax : c.maxHeapsize = limit) (hle : c.heap.heapsize ≤ limit)
    (hallowed : AllAllowed pageHblks fuel ops c) (hkeep : ∀ op ∈ ops, ∀ n, op ≠ .setMaxHeapSize n) :
    (∀ k d, execAll pageHblks fuel (ops.take k) c = some d → d.heap.heapsize ≤ limit) ↔
      AllRoom pageHblks fuel limit ops c := by
  induction ops generalizing cells c with
  | nil =>
    refine ⟨fun _ => trivial,fun _ k d hd => ?_⟩
    rw [take_nil] at hd
    cases hd
    exact hle
  | cons op ops ih =>
    have hsize := hc.heapsize
    have hroom := room_iff pageHblks op hlimit hmax hle
    have hstep : ∀ d, exec pageHblks fuel c op = some d → ∃ cells', Inv cells' d ∧
        d.maxHeapsize = limit ∧ d.heap.heapsize = c.heap.heapsize + growth pageHblks c op * hblkSize := by
      intro d hd
      obtain ⟨cells',hinv,hcard,hset⟩ := exec_grows hc hallowed.1 hd
      refine ⟨cells',hinv,(hset (hkeep op (by simp))).trans hmax,?_⟩
      rw [hinv.heapsize,hcard,hsize,Nat.add_mul]
    have hrest : ∀ op' ∈ ops, ∀ n, op' ≠ .setMaxHeapSize n := fun op' hop =>
      hkeep op' (mem_cons_of_mem op hop)
    constructor
    · intro hall d hd
      obtain ⟨cells',hinv,hmax',hsize'⟩ := hstep d hd
      have hle' : d.heap.heapsize ≤ limit := by
        refine hall 1 d ?_
        rw [take_succ_cons,execAll,mem_def.mp hd]
        rfl
      refine ⟨hroom.mpr (hsize' ▸ hle'),(ih hinv hmax' hle' (hallowed.2 d hd) hrest).mp ?_⟩
      intro k e he
      refine hall (k + 1) e ?_
      rw [take_succ_cons,execAll,mem_def.mp hd]
      exact he
    · intro hall k d hd
      cases k with
      | zero =>
        cases hd
        exact hle
      | succ k =>
        rw [take_succ_cons] at hd
        obtain ⟨e,he,hd⟩ := bind_eq_some_iff.mp hd
        obtain ⟨cells',hinv,hmax',hsize'⟩ := hstep e he
        obtain ⟨hfits,hnext⟩ := hall e he
        have hle' : e.heap.heapsize ≤ limit := hsize'.trans_le (hroom.mp hfits)
        exact (ih hinv hmax' hle' (hallowed.2 e he) hrest).mpr hnext k d hd

/-- `GC_set_max_heap_size` is given a limit that is not below the heap size. From then on
the heap stays within it exactly if there is room for every table that is recycled. -/
theorem setMaxHeapSize_iff {before after : List Op} {hdrs : Nat → Hdr} {markStack : Nat}
    (hbefore : AllAllowed pageHblks fuel before (Collector.init hdrs markStack))
    (hc : execAll pageHblks fuel before (Collector.init hdrs markStack) = some c) (hlimit : limit ≠ 0)
    (hle : c.heap.heapsize ≤ limit)
    (hafter : AllAllowed pageHblks fuel after { c with maxHeapsize := limit })
    (hkeep : ∀ op ∈ after, ∀ n, op ≠ .setMaxHeapSize n) :
    (∀ k d, execAll pageHblks fuel (.setMaxHeapSize limit :: after.take k) c = some d →
        d.heap.heapsize ≤ limit) ↔
      AllRoom pageHblks fuel limit after { c with maxHeapsize := limit } := by
  obtain ⟨cells,hinv⟩ := execAll_inv (inv_init hdrs markStack) hbefore hc
  exact execAll_within_iff (c := { c with maxHeapsize := limit })
    ⟨⟨hinv.ok,hinv.table,hinv.room,hinv.capacity⟩,hinv.small,hinv.stack⟩ hlimit rfl hle hafter hkeep

def firstExpansion : List Op := [.expandHp 16 (some 1024) ⟨some 8192, none⟩]

def firstGrowth : List Op := [.growMarkStack (some 131072) ⟨none, none⟩]

def smallCollector : Collector := Collector.init (fun _ => blankHdr) 65536

theorem firstExpansion_returns : (execAll 1 200 firstExpansion smallCollector).isSome = true := by
  decide +kernel

def expanded : Collector := (execAll 1 200 firstExpansion smallCollector).get firstExpansion_returns

theorem setMaxHeapSize_iff_firstGrowth : ∃ d : Collector,
    execAll 1 200 firstExpansion smallCollector = some expanded ∧
      execAll 1 200 (.setMaxHeapSize 131072 :: firstGrowth) expanded = some d ∧
      d.heap.heapsize ≤ 131072 := by
  have hend : (execAll 1 200 (.setMaxHeapSize 131072 :: firstGrowth) expanded).isSome = true := by
    decide +kernel
  have hbefore : execAll 1 200 firstExpansion smallCollector = some expanded :=
    (some_get firstExpansion_returns).symm
  have hiff := setMaxHeapSize_iff
    (by decide +kernel : AllAllowed 1 200 firstExpansion smallCollector) hbefore
    (by decide : 131072 ≠ 0) (by decide +kernel) (by decide +kernel : AllAllowed 1 200 firstGrowth _) (by simp [firstGrowth])
  refine ⟨_,hbefore,(some_get hend).symm,?_⟩
  exact hiff.mpr (by decide +kernel) 1 _ (some_get hend).symm

/-- A heap at its limit, and the old mark stack is added to it. -/
theorem setMaxHeapSize_exceeded :
    AllAllowed 1 200 (firstExpansion ++ .setMaxHeapSize 65536 :: firstGrowth) smallCollector ∧
      (execAll 1 200 firstExpansion smallCollector).map (·.heap.heapsize) = some 65536 ∧
      (execAll 1 200 (firstExpansion ++ .setMaxHeapSize 65536 :: firstGrowth) smallCollector).map
        (·.heap.heapsize) = some 131072 := by
  decide +kernel

end Limit

end GcUtil.Block.HeapLimit
