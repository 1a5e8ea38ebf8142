import GcUtil.Library.SwapRemove
import GcUtil.Mark.Ranges

/-! What `GC_free_internal` does to the mark stack when a large object is freed while an
incremental collection is going on: the entries that point into the object are dropped in place. -/
namespace GcUtil.Malloc.Purging
open Basic Library.SwapRemove Mark.Ranges List

section Model

/-- `GC_mark_stack` from the bottom up, and the number of entries up to `GC_mark_stack_top`. -/
structure MarkStack where
  cells : Nat → Mse
  count : Nat

def MarkStack.entries (s : MarkStack) : List Mse := (List.range s.count).map s.cells

/-- A large object: it starts a block and has a whole number of granules. -/
structure LargeObject where
  base : Nat
  lb : Nat
  block_dvd : hblkSize ∣ base
  granule_dvd : granuleBytes ∣ lb
  large : maxObjBytes < lb

/-- `ADDR_INSIDE` for an object. -/
def LargeObject.inside (o : LargeObject) (a : Nat) : Bool := decide (o.base ≤ a) && decide (a < o.base + o.lb)

/-- The loop over the entries from `entry` on, of which there are `left`. -/
def dropScans (o : LargeObject) : (left entry : Nat) → MarkStack → MarkStack
  | 0, _, s => s
  | left + 1, entry, s =>
      if o.inside (s.cells entry).mseStart then
        dropScans o left entry ⟨Function.update s.cells entry (s.cells (s.count - 1)), s.count - 1⟩
      else dropScans o left (entry + 1) s

/-- `GC_free_internal` for a large object, as far as it concerns the mark stack. -/
def freeLarge (collectionInProgress : Bool) (o : LargeObject) (s : MarkStack) : MarkStack :=
  if collectionInProgress then dropScans o s.count 0 s else s

/-- The address an entry starts at; in the compressed build the low bits tell a format. -/
def startAddress (compressed : Bool) (e : Mse) : Nat := if compressed then e.mseStart / 4 * 4 else e.mseStart

end Model

section Loop

variable {o : LargeObject} {s : MarkStack} {left entry i : Nat}

@[simp] theorem MarkStack.entries_length (s : MarkStack) : s.entries.length = s.count := by
  simp [MarkStack.entries]

theorem MarkStack.entries_get (h : i < s.count) : s.entries[i]? = some (s.cells i) := by
  simp [MarkStack.entries,h]

theorem entries_swapRemove (h : entry < s.count) :
    MarkStack.entries ⟨Function.update s.cells entry (s.cells (s.count - 1)), s.count - 1⟩ =
      swapRemove s.entries entry := by
  obtain ⟨n,hn⟩ : ∃ n, s.count = n + 1 := ⟨s.count - 1,by omega⟩
  have hlast : s.entries = (List.range n).map s.cells ++ [s.cells n] := by
    rw [MarkStack.entries,hn,range_succ,map_append,map_singleton]
  rw [hlast,swapRemove_concat]
  apply ext_getElem
  · simp [hn,MarkStack.entries]
  · intro j hj hj'
    have hjn : j < n := by simpa [hn,MarkStack.entries] using hj
    simp only [MarkStack.entries,getElem_map,getElem_range,getElem_dropLast,getElem_set,
      Function.update_apply,hn,Nat.add_sub_cancel]
    by_cases heq : entry = j
    · simp [heq]
    · simp [heq,Ne.symm heq,hjn]

theorem dropScans_entries (h : entry + left = s.count) :
    (dropScans o left entry s).entries = (sweep (fun e => o.inside e.mseStart) left entry s.entries).2 := by
  induction left generalizing entry s with
  | zero => rfl
  | succ left ih =>
    have hget := MarkStack.entries_get (show entry < s.count by omega)
    rw [dropScans,sweep]
    simp only [hget]
    split
    · rw [ih (by dsimp only; omega),entries_swapRemove (by omega)]
    · exact ih (by omega)

theorem inside_startAddress (o : LargeObject) (compressed : Bool) (e : Mse) :
    o.inside (startAddress compressed e) = o.inside e.mseStart := by
  have hbase : 4 ∣ o.base := Dvd.dvd.trans (by decide) o.block_dvd
  have hlb : 4 ∣ o.lb := Dvd.dvd.trans (by decide) o.granule_dvd
  unfold startAddress LargeObject.inside
  split
  · congr 1 <;> apply decide_eq_decide.mpr <;> omega
  · rfl

end Loop

/-- Freeing a large object during a collection leaves on the mark stack the entries that start
outside it, each as often as before, and the top at the last of them. -/
theorem freeLarge_exact (compressed : Bool) (o : LargeObject) (s : MarkStack) :
    (freeLarge true o s).entries.Perm (s.entries.filter fun e => !o.inside (startAddress compressed e)) ∧
      (freeLarge true o s).count = (s.entries.filter fun e => !o.inside (startAddress compressed e)).length := by
  have hperm : (freeLarge true o s).entries.Perm
      (s.entries.filter fun e => !o.inside (startAddress compressed e)) := by
    simp only [freeLarge,if_true,inside_startAddress]
    rw [dropScans_entries (Nat.zero_add _)]
    simpa using sweep_kept (fun e => o.inside e.mseStart) s.entries
  exact ⟨hperm,by rw [← hperm.length_eq,MarkStack.entries_length]⟩

def page : LargeObject := ⟨8192, hblkSize, by decide, by decide, by decide⟩

/-- Entries below the page, at its start, tagged inside it, in its last word and behind it. -/
def aroundPage : MarkStack :=
  ⟨fun i => [⟨4096, 8⟩, ⟨8192, 16⟩, ⟨8195, 1⟩, ⟨12280, 8⟩, ⟨12288, 8⟩].getD i ⟨0, 0⟩, 5⟩

theorem freeLarge_exact_page : (freeLarge true page aroundPage).entries.Perm [⟨4096, 8⟩, ⟨12288, 8⟩] ∧
    (freeLarge true page aroundPage).count = 2 := by
  have hleft : aroundPage.entries.filter (fun e => !page.inside (startAddress true e)) =
      [⟨4096,8⟩,⟨12288,8⟩] := by
    decide +kernel
  have hexact := freeLarge_exact true page aroundPage
  rwa [hleft] at hexact

end GcUtil.Malloc.Purging
