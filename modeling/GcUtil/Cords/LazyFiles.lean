import GcUtil.Cords.Operations
import Mathlib.Logic.Function.Basic

/-! Cords that read a file lazily, through a direct-mapped cache of lines that any number of
threads share. -/
namespace GcUtil.Cords.LazyFiles
open Operations Function List

def lineSz : Nat := 512

def cacheSz : Nat := 16384

structure CacheLine where
  tag : Nat
  data : Nat → UInt8

/-- `lf_state`; `filePos` is where the stream `lf_file` stands. -/
structure LfState where
  filePos : Nat
  lfCurrent : Nat
  lfCache : Nat → Option CacheLine

def lineNo (i : Nat) : Nat := i % cacheSz / lineSz

/-- A new line holds what `fresh` says where `fread` stores nothing. -/
def refillCache (file : List UInt8) (fresh : Nat → UInt8) (lf : LfState) (i : Nat) : Result (UInt8 × LfState) :=
  let lineStart := i / lineSz * lineSz
  let pos := if lineStart ≠ lf.lfCurrent then lineStart else lf.filePos
  let count := min lineSz (file.length - pos)
  if count ≤ i - lineStart then .error (.abort "fread failed")
  else
    let line : CacheLine := ⟨i / lineSz, fun j => if j < count then file.getD (pos + j) 0 else fresh j⟩
    .ok (line.data (i % lineSz), ⟨pos + count, lineStart + lineSz, update lf.lfCache (lineNo i) (some line)⟩)

/-- `loaded t` is the position thread `t` asks for and the line it found in the cache. -/
structure Shared where
  lf : LfState
  loaded : Nat → Option (Nat × Option CacheLine)

/-- The atomic parts of `CORD_lf_func`: a line is loaded, then read or replaced by a new one. -/
inductive Act where
  | load (t i : Nat)
  | finish (t : Nat) (fresh : Nat → UInt8)

def step (file : List UInt8) (s : Shared) : Act → Result (Option UInt8 × Shared)
  | .load t i => .ok (none, ⟨s.lf, update s.loaded t (some (i, s.lf.lfCache (lineNo i)))⟩)
  | .finish t fresh =>
    match s.loaded t with
    | none => .ok (none, s)
    | some (i, cl) =>
      match cl.filter fun line => line.tag = i / lineSz with
      | some line => .ok (some (line.data (i % lineSz)), ⟨s.lf, update s.loaded t none⟩)
      | none => do
        let (c, lf) ← refillCache file fresh s.lf i
        return (some c, ⟨lf, update s.loaded t none⟩)

/-- What the accesses of a run return, in the order in which they end. -/
def lfRun (file : List UInt8) : List Act → Shared → Result (List UInt8)
  | [], _ => .ok []
  | a :: acts, s => do
    let (out, s) ← step file s a
    return out.toList ++ (← lfRun file acts s)

def lfInit : Shared := ⟨⟨0, 0, fun _ => none⟩, fun _ => none⟩

/-- The same accesses to the file itself; `asked t` is the position thread `t` asks for. -/
def direct (file : List UInt8) : List Act → (Nat → Option Nat) → List UInt8
  | [], _ => []
  | .load t i :: acts, asked => direct file acts (update asked t (some i))
  | .finish t _ :: acts, asked =>
    ((asked t).map fun i => file.getD i 0).toList ++ direct file acts (update asked t none)

variable {file : List UInt8} {s : Shared} {lf : LfState} {i : Nat}

def Faithful (file : List UInt8) (line : CacheLine) : Prop :=
  ∀ j < lineSz, ∀ c, file[line.tag * lineSz + j]? = some c → line.data j = c

/-- The stream stands where `lf_current` says unless a short line leaves it at the end. -/
structure Coherent (file : List UInt8) (lf : LfState) : Prop where
  pos : lf.lfCurrent < file.length → lf.filePos = lf.lfCurrent
  lines : ∀ k line, lf.lfCache k = some line → Faithful file line

structure Inv (file : List UInt8) (s : Shared) : Prop where
  lf : Coherent file s.lf
  loaded : ∀ t r, s.loaded t = some r → r.1 < file.length ∧ ∀ line, r.2 = some line → Faithful file line

theorem forall_update {α : Type} {P : α → Prop} {f : Nat → Option α} {v : Option α} {k : Nat}
    (hf : ∀ j a, f j = some a → P a) (hv : ∀ a, v = some a → P a) (j : Nat) (a : α)
    (h : update f k v j = some a) : P a := by
  rcases eq_or_ne j k with rfl | hj
  · exact hv a (by rwa [update_self] at h)
  · exact hf j a (by rwa [update_of_ne hj] at h)

theorem Faithful.data {line : CacheLine} (h : Faithful file line) (htag : line.tag = i / lineSz)
    (hi : i < file.length) : line.data (i % lineSz) = file.getD i 0 := by
  have hsplit : line.tag * lineSz + i % lineSz = i := by
    rw [htag]
    exact Nat.div_add_mod' i lineSz
  apply h _ (Nat.mod_lt _ (by decide))
  rw [hsplit,getD_eq_getElem _ _ hi]
  exact getElem?_eq_getElem hi

theorem refillCache_spec (h : Coherent file lf) (hi : i < file.length) (fresh : Nat → UInt8) :
    ∃ lf', refillCache file fresh lf i = .ok (file.getD i 0, lf') ∧ Coherent file lf' := by
  have hdiv := Nat.div_add_mod' i lineSz
  have hmod : i % lineSz < lineSz := Nat.mod_lt _ (by decide)
  have hpos : (if i / lineSz * lineSz ≠ lf.lfCurrent then i / lineSz * lineSz else lf.filePos) =
      i / lineSz * lineSz := by
    split
    · rfl
    · have := h.pos
      omega
  unfold refillCache
  dsimp only
  rw [hpos,if_neg (by omega)]
  have hnew : Faithful file ⟨i / lineSz,fun j => if j < min lineSz (file.length - i / lineSz * lineSz) then
      file.getD (i / lineSz * lineSz + j) 0 else fresh j⟩ := by
    intro j hj c hc
    have hlt := (List.getElem?_eq_some_iff.mp hc).1
    dsimp only at hc hlt ⊢
    rw [if_pos (by omega),getD_eq_getElem?_getD,hc]
    rfl
  rw [if_pos (show i % lineSz < min lineSz (file.length - i / lineSz * lineSz) by omega),hdiv]
  refine ⟨_,rfl,fun hlt => ?_,forall_update h.lines fun line hline => ?_⟩
  · dsimp only at hlt ⊢
    omega
  · cases hline
    exact hnew

def asked (s : Shared) : Nat → Option Nat := Option.map Prod.fst ∘ s.loaded

theorem step_spec (h : Inv file s) (a : Act) (ha : ∀ t i, a = .load t i → i < file.length) :
    ∃ out s', step file s a = .ok (out, s') ∧ Inv file s' ∧
      ∀ acts, direct file (a :: acts) (asked s) = out.toList ++ direct file acts (asked s') := by
  cases a with
  | load t i =>
    refine ⟨_,_,rfl,⟨h.lf,forall_update h.loaded fun r hr => ?_⟩,fun acts => ?_⟩
    · cases hr
      exact ⟨ha t i rfl,h.lf.lines _⟩
    · rw [direct,asked,asked,comp_update]
      rfl
  | finish t fresh =>
    have hrest : ∀ lf, asked ⟨lf,update s.loaded t none⟩ = update (asked s) t none := fun lf => comp_update ..
    unfold step
    dsimp only
    split
    · next hnone =>
      have hasked : asked s t = none := by rw [asked,comp_apply,hnone]; rfl
      refine ⟨_,_,rfl,h,fun acts => ?_⟩
      rw [direct,hasked,← hasked,update_eq_self,hasked]
      rfl
    · next i cl hloaded =>
      have hasked : asked s t = some i := by rw [asked,comp_apply,hloaded]; rfl
      obtain ⟨hi,hline⟩ := h.loaded t _ hloaded
      have hforget := fun lf (hlf : Coherent file lf) =>
        Inv.mk (s := ⟨lf,update s.loaded t none⟩) hlf (forall_update h.loaded nofun)
      split
      · next line hhit =>
        obtain ⟨hcl,htag⟩ := Option.filter_eq_some_iff.mp hhit
        refine ⟨_,_,rfl,hforget _ h.lf,fun acts => ?_⟩
        rw [direct,hasked,hrest,(hline line hcl).data (of_decide_eq_true htag) hi]
        rfl
      · obtain ⟨lf,hrefill,hlf⟩ := refillCache_spec h.lf hi fresh
        rw [hrefill]
        refine ⟨_,_,rfl,hforget lf hlf,fun acts => ?_⟩
        rw [direct,hasked,hrest]
        rfl

theorem lfRun_spec (acts : List Act) (h : Inv file s) (hacts : ∀ t i, .load t i ∈ acts → i < file.length) :
    lfRun file acts s = .ok (direct file acts (asked s)) := by
  induction acts generalizing s with
  | nil => rfl
  | cons a acts ih =>
    obtain ⟨out,s',hstep,hinv,hdirect⟩ := step_spec h a fun t i ha => hacts t i (ha ▸ mem_cons_self)
    rw [hdirect,lfRun,hstep]
    change (lfRun file acts s' >>= fun r => .ok (out.toList ++ r)) = _
    rw [ih hinv fun t i hi => hacts t i (mem_cons_of_mem a hi)]
    rfl

/-- In whatever order threads load, read and refill lines, no access fails and the cache never
shows: each gives the character of the file. -/
theorem lfRun_eq_direct (file : List UInt8) (acts : List Act) (hacts : ∀ t i, .load t i ∈ acts → i < file.length) :
    lfRun file acts lfInit = .ok (direct file acts fun _ => none) :=
  lfRun_spec acts ⟨⟨fun _ => rfl,nofun⟩,nofun⟩ hacts

def crossedReads : List Act := [.load 0 1, .load 1 0, .finish 1 fun _ => 0, .finish 0 fun _ => 0]

theorem lfRun_eq_direct_crossed : lfRun [7, 8] crossedReads lfInit = .ok [7, 8] :=
  lfRun_eq_direct [7,8] crossedReads (by simp +contextual [crossedReads,or_imp])

end GcUtil.Cords.LazyFiles
