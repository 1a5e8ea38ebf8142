import Mathlib.Data.List.Basic
import Mathlib.Logic.Function.Basic

/-! An index over an array whose chains are threaded through the positions: a head for every key,
and for every position the next one of its chain. Positions are linked in increasing order, each at
the front of its chain. -/
namespace GcUtil.Library.ThreadedIndex

variable {α κ : Type} [DecidableEq α] [DecidableEq κ]

structure Index (κ : Type) where
  head : κ → Option Nat
  next : Nat → Option Nat

def Index.link (key : Nat → κ) (x : Index κ) (i : Nat) : Index κ where
  head := Function.update x.head (key i) (some i)
  next := Function.update x.next i (x.head (key i))

theorem Index.link_head (key : Nat → κ) (x : Index κ) (i : Nat) (k : κ) :
    (x.link key i).head k = if k = key i then some i else x.head k := Function.update_apply ..

theorem Index.link_next (key : Nat → κ) (x : Index κ) (i j : Nat) :
    (x.link key i).next j = if j = i then x.head (key i) else x.next j := Function.update_apply ..

def Index.cleared (x : Index κ) : Index κ := { x with head := fun _ => none }

def Index.rebuild (key : Nat → κ) (n : Nat) (x : Index κ) : Index κ :=
  (List.range n).foldl (Index.link key) x.cleared

/-- The positions of a chain, if it ends within the given number of steps. -/
def Index.walk (x : Index κ) : Nat → Option Nat → Option (List Nat)
  | _, none => some []
  | 0, some _ => none
  | fuel + 1, some i => (x.walk fuel (x.next i)).map (i :: ·)

def Index.search (x : Index κ) (p : Nat → Bool) : Nat → Option Nat → Option Nat
  | _, none => none
  | 0, some _ => none
  | fuel + 1, some i => if p i then some i else x.search p fuel (x.next i)

def newest (key : Nat → κ) (k : κ) : Nat → Option Nat
  | 0 => none
  | n + 1 => if key n = k then some n else newest key k n

def positions (key : Nat → κ) (k : κ) : Nat → List Nat
  | 0 => []
  | n + 1 => if key n = k then n :: positions key k n else positions key k n

variable {key key' : Nat → κ} {k : κ} {n i : Nat} {x : Index κ}

theorem newest_congr (h : ∀ i < n, key i = key' i) : newest key k n = newest key' k n := by
  induction n with
  | zero => rfl
  | succ n ih => rw [newest,newest,h n (by omega),ih fun i hi => h i (by omega)]

theorem newest_eq_some :
    newest key k n = some i ↔ i < n ∧ key i = k ∧ ∀ j, i < j → j < n → key j ≠ k := by
  induction n with
  | zero => simp [newest]
  | succ n ih =>
    rw [newest]
    split
    · rename_i hn
      constructor
      · intro h
        cases h
        exact ⟨by omega,hn,fun j hj hlt => by omega⟩
      · rintro ⟨hi,_,hlater⟩
        rcases Nat.lt_succ_iff_lt_or_eq.mp hi with hlt | rfl
        · exact absurd hn (hlater n hlt (by omega))
        · rfl
    · rename_i hn
      rw [ih]
      constructor
      · rintro ⟨hi,hk,hlater⟩
        refine ⟨by omega,hk,fun j hj hlt => ?_⟩
        rcases Nat.lt_succ_iff_lt_or_eq.mp hlt with hlt | rfl
        · exact hlater j hj hlt
        · exact hn
      · rintro ⟨hi,hk,hlater⟩
        have hne : i ≠ n := fun heq => hn (heq ▸ hk)
        exact ⟨by omega,hk,fun j hj hlt => hlater j hj (by omega)⟩

theorem mem_positions : i ∈ positions key k n ↔ i < n ∧ key i = k := by
  induction n with
  | zero => simp [positions]
  | succ n ih =>
    have hlt : i < n + 1 ↔ i = n ∨ i < n := by omega
    rw [positions]
    split
    · rename_i hn
      rw [List.mem_cons,ih,hlt]
      constructor
      · rintro (rfl | ⟨hi,hk⟩)
        · exact ⟨.inl rfl,hn⟩
        · exact ⟨.inr hi,hk⟩
      · rintro ⟨rfl | hi,hk⟩
        · exact .inl rfl
        · exact .inr ⟨hi,hk⟩
    · rename_i hn
      rw [ih,hlt]
      constructor
      · rintro ⟨hi,hk⟩
        exact ⟨.inr hi,hk⟩
      · rintro ⟨rfl | hi,hk⟩
        · exact absurd hk hn
        · exact ⟨hi,hk⟩

theorem positions_nodup (key : Nat → κ) (k : κ) (n : Nat) : (positions key k n).Nodup := by
  induction n with
  | zero => exact List.nodup_nil
  | succ n ih =>
    rw [positions]
    split
    · refine List.nodup_cons.mpr ⟨fun hmem => ?_,ih⟩
      exact absurd (mem_positions.mp hmem).1 (Nat.lt_irrefl n)
    · exact ih

structure Index.Threads (x : Index κ) (key : Nat → κ) (n : Nat) : Prop where
  head : ∀ k, x.head k = newest key k n
  next : ∀ i < n, x.next i = newest key (key i) i

theorem Index.Threads.congr (h : x.Threads key n) (hkey : ∀ i < n, key i = key' i) : x.Threads key' n where
  head k := by rw [h.head k,newest_congr hkey]
  next i hi := by rw [h.next i hi,← hkey i hi,newest_congr fun j hj => hkey j (Nat.lt_trans hj hi)]

theorem Index.Threads.link (h : x.Threads key n) : (x.link key n).Threads key (n + 1) where
  head k := by
    rw [Index.link_head,newest]
    by_cases hk : k = key n
    · rw [if_pos hk,if_pos hk.symm]
    · rw [if_neg hk,if_neg (Ne.symm hk),h.head k]
  next i hi := by
    rw [Index.link_next]
    split
    · rename_i hin
      rw [hin,h.head]
    · exact h.next i (by omega)

theorem Index.cleared_threads (x : Index κ) (key : Nat → κ) : x.cleared.Threads key 0 where
  head _ := rfl
  next i hi := absurd hi (Nat.not_lt_zero i)

theorem Index.rebuild_threads (x : Index κ) (key : Nat → κ) (n : Nat) : (x.rebuild key n).Threads key n := by
  induction n with
  | zero => exact x.cleared_threads key
  | succ n ih =>
    rw [Index.rebuild,List.range_succ,List.foldl_append]
    exact ih.link

theorem Index.Threads.walk_newest (h : x.Threads key n) {m fuel : Nat} (hm : m ≤ n) (hfuel : m ≤ fuel) :
    x.walk fuel (newest key k m) = some (positions key k m) := by
  induction m generalizing fuel with
  | zero => cases fuel <;> rfl
  | succ m ih =>
    rw [newest,positions]
    split
    · rename_i hk
      obtain ⟨fuel,rfl⟩ : ∃ f, fuel = f + 1 := ⟨fuel - 1,by omega⟩
      rw [Index.walk,h.next m (by omega),hk,ih (by omega) (by omega)]
      rfl
    · exact ih (by omega) (by omega)

theorem Index.Threads.walk_head (h : x.Threads key n) (k : κ) :
    x.walk n (x.head k) = some (positions key k n) := by
  rw [h.head k]
  exact h.walk_newest (Nat.le_refl n) (Nat.le_refl n)

section

variable {val : Nat → α} {hash : α → κ} (h : x.Threads (fun i => hash (val i)) n) (a : α)
include h a

theorem Index.Threads.search_newest {m fuel : Nat} (hm : m ≤ n) (hfuel : m ≤ fuel) :
    x.search (fun i => decide (val i = a)) fuel (newest (fun i => hash (val i)) (hash a) m) = newest val a m := by
  induction m generalizing fuel with
  | zero => cases fuel <;> rfl
  | succ m ih =>
    rw [newest,newest]
    by_cases hhash : hash (val m) = hash a
    · obtain ⟨fuel,rfl⟩ : ∃ f, fuel = f + 1 := ⟨fuel - 1,by omega⟩
      rw [if_pos hhash,Index.search]
      by_cases hval : val m = a
      · simp [hval]
      · rw [if_neg hval,if_neg (by simpa using hval),h.next m (by omega),hhash]
        exact ih (by omega) (by omega)
    · have hval : val m ≠ a := fun heq => hhash (heq ▸ rfl)
      rw [if_neg hhash,if_neg hval]
      exact ih (by omega) (by omega)

theorem Index.Threads.search_head : x.search (fun i => decide (val i = a)) n (x.head (hash a)) = newest val a n := by
  rw [h.head]
  exact h.search_newest a (Nat.le_refl n) (Nat.le_refl n)

end

end GcUtil.Library.ThreadedIndex
