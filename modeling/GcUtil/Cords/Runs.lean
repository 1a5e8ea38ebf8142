import GcUtil.Cords.Balancing

/-! Sequences of the cord operations. Each result joins the pool of cords that the later
operations take their arguments from. The cords denote what the operations make of the
strings, unless balancing one that is longer than `balanceMax` calls itself for ever. -/
namespace GcUtil.Cords.Runs
open Basic Nodes Operations Concatenation Balancing Library.FibonacciDepth List

inductive Op where
  | cat (i j : Nat)
  | catCharStar (i : Nat) (y : List UInt8) (lenY : Nat)
  | fromFn (fn : Nat → UInt8) (len : Nat)
  | balance (i : Nat)

abbrev Pool := List Cord

def pick (pool : Pool) (i : Nat) : Cord := pool.getD i .empty

def exec (fuel : Nat) (pool : Pool) : Op → Result Cord
  | .cat i j => cat (balance fuel) (pick pool i) (pick pool j)
  | .catCharStar i y lenY => catCharStar (balance fuel) (pick pool i) y lenY
  | .fromFn fn len => .ok (fromFn (.client fn) len)
  | .balance i => balance fuel (pick pool i)

def execAll (fuel : Nat) : List Op → Pool → Result Pool
  | [], pool => .ok pool
  | op :: ops, pool => do execAll fuel ops (pool ++ [← exec fuel pool op])

def meaning (strings : List (List UInt8)) : Op → List UInt8
  | .cat i j => strings.getD i [] ++ strings.getD j []
  | .catCharStar i y lenY => strings.getD i [] ++ y.take lenY
  | .fromFn fn len => (List.range len).map fn
  | .balance i => strings.getD i []

def meaningAll : List Op → List (List UInt8) → List (List UInt8)
  | [], strings => strings
  | op :: ops, strings => meaningAll ops (strings ++ [meaning strings op])

def totalLen (pool : Pool) : Op → Nat
  | .cat i j => (pick pool i).cordLen + (pick pool j).cordLen
  | .catCharStar i _ lenY => (pick pool i).cordLen + lenY
  | .fromFn _ len => len
  | .balance i => (pick pool i).cordLen

/-- The arguments are NUL-free strings, and the result is below the length of
"Cord too long". -/
def Proper (pool : Pool) (op : Op) : Prop :=
  totalLen pool op < minLen 47 ∧
    match op with
    | .catCharStar _ y lenY => 0 ∉ y ∧ lenY ≤ y.length
    | _ => True

instance (pool : Pool) : DecidablePred (Proper pool)
  | .cat _ _ => inferInstanceAs (Decidable (_ ∧ True))
  | .catCharStar _ y lenY => inferInstanceAs (Decidable (_ ∧ 0 ∉ y ∧ lenY ≤ y.length))
  | .fromFn _ _ => inferInstanceAs (Decidable (_ ∧ True))
  | .balance _ => inferInstanceAs (Decidable (_ ∧ True))

def Shallow (pool : Pool) : Op → Prop
  | .cat i j => (pick pool i).depth < 47 ∧ (pick pool j).depth < 47
  | .catCharStar i _ _ => (pick pool i).depth < 47
  | .fromFn _ _ => True
  | .balance _ => False

instance (pool : Pool) : DecidablePred (Shallow pool)
  | .cat _ _ => inferInstanceAs (Decidable (_ ∧ _))
  | .catCharStar i _ _ => inferInstanceAs (Decidable ((pick pool i).depth < 47))
  | .fromFn _ _ => inferInstanceAs (Decidable True)
  | .balance _ => inferInstanceAs (Decidable False)

def Balanceable (pool : Pool) (op : Op) : Prop := Shallow pool op ∨ totalLen pool op ≤ balanceMax

instance (pool : Pool) : DecidablePred (Balanceable pool) := fun _ =>
  inferInstanceAs (Decidable (_ ∨ _))

def AllSteps (P : Pool → Op → Prop) (fuel : Nat) : List Op → Pool → Prop
  | [], _ => True
  | op :: ops, pool =>
    P pool op ∧
      match exec fuel pool op with
      | .ok x => AllSteps P fuel ops (pool ++ [x])
      | .error _ => True

instance decidableAllSteps (P : Pool → Op → Prop) [∀ pool op, Decidable (P pool op)] (fuel : Nat) :
    (ops : List Op) → (pool : Pool) → Decidable (AllSteps P fuel ops pool)
  | [], _ => inferInstanceAs (Decidable True)
  | op :: ops, pool =>
    have : Decidable (match exec fuel pool op with
        | .ok x => AllSteps P fuel ops (pool ++ [x])
        | .error _ => True) :=
      match exec fuel pool op with
      | .ok x => decidableAllSteps P fuel ops (pool ++ [x])
      | .error _ => inferInstanceAs (Decidable True)
    inferInstanceAs (Decidable (_ ∧ _))

/-- A cord that may be joined to another: its depth leaves room for one more in a `char`. -/
def Usable (x : Cord) : Prop := x.WellFormed ∧ x.depth < charMax

structure Below (bound : Nat) (x : Cord) : Prop where
  wf : x.WellFormed
  height : x.height < bound

variable {bal : Cord → Result Cord} {pool : Pool} {op : Op} {ops : List Op} {fuel bound : Nat}

theorem usable_iff {x : Cord} : Usable x ↔ Below charMax x := by
  constructor
  · rintro ⟨hwf,hd⟩
    rw [Cord.depth_eq_height hwf] at hd
    exact ⟨hwf,Int.ofNat_lt.mp hd⟩
  · rintro ⟨hwf,hd⟩
    refine ⟨hwf,?_⟩
    rw [Cord.depth_eq_height hwf]
    exact Int.ofNat_lt.mpr hd

theorem below_pick (hbound : 0 < bound) (h : ∀ x ∈ pool, Below bound x) (i : Nat) :
    Below bound (pick pool i) := by
  unfold pick
  rw [getD_eq_getElem?_getD]
  cases hi : pool[i]? with
  | none => exact ⟨trivial,hbound⟩
  | some x => exact h x (mem_of_getElem? hi)

theorem denote_pick (pool : Pool) (i : Nat) :
    (pool.map Cord.denote).getD i [] = (pick pool i).denote := by
  unfold pick
  rw [getD_eq_getElem?_getD,getD_eq_getElem?_getD,List.getElem?_map]
  cases pool[i]? <;> rfl

section Bounded
variable (hlow : cordMaxDepth ≤ bound) (hhigh : bound ≤ charMax)
include hlow

theorem balance_spec {x : Cord} (hx : x.WellFormed) (hlen : x.denote.length ≤ balanceMax) :
    ∃ r, balance (fuel + 1) x = .ok r ∧ Below bound r ∧ r.denote = x.denote := by
  have hstep : ∃ r, balanceStep (balance fuel) x = .ok r ∧ _ := balanceStep_spec hx hlen
  obtain ⟨r,hr,hwf,hdenote,hheight⟩ := hstep
  exact ⟨r,hr,⟨hwf,hheight.trans_le hlow⟩,hdenote⟩

theorem joins_spec {res : Result Cord} {s : List UInt8} {d : Nat}
    (h : Joins (balance (fuel + 1)) res s d) (hd : d < bound)
    (hbalance : 1 + d < cordMaxDepth ∨ s.length ≤ balanceMax) :
    ∃ r, res = .ok r ∧ Below bound r ∧ r.denote = s := by
  obtain ⟨node,hwf,rfl,hheight,⟨hr,hnode⟩ | ⟨hdeep,hr⟩⟩ := h
  · exact ⟨node,hr,⟨hwf,by omega⟩,rfl⟩
  · rw [hr]
    exact balance_spec hlow hwf (hbalance.resolve_left (by omega))

omit hlow in
theorem minLen_le_wordMax : minLen 47 ≤ wordMax := by decide +kernel

include hhigh

theorem cat_spec {x y : Cord} (hx : Below bound x) (hy : Below bound y)
    (htotal : x.cordLen + y.cordLen < minLen 47)
    (hbalance : x.depth < 47 ∧ y.depth < 47 ∨ x.cordLen + y.cordLen ≤ balanceMax) :
    ∃ r, cat (balance (fuel + 1)) x y = .ok r ∧ Below bound r ∧ r.denote = x.denote ++ y.denote := by
  obtain ⟨hxwf,hxd⟩ := hx
  obtain ⟨hywf,hyd⟩ := hy
  have hlimit := minLen_le_wordMax
  rw [Cord.cordLen_eq_length hxwf,Cord.cordLen_eq_length hywf] at htotal hbalance
  have hlen : x.genLen + y.genLen ≤ wordMax := by
    rw [Cord.genLen_eq_length hxwf,Cord.genLen_eq_length hywf]
    omega
  apply joins_spec hlow (cat_joins hxwf hywf hlen (by omega)) (by omega)
  rw [Cord.depth_eq_height hxwf,Cord.depth_eq_height hywf] at hbalance
  rw [length_append]
  apply hbalance.imp_left
  rintro ⟨hxs,hys⟩
  change _ < 48
  omega

theorem catCharStar_spec {x : Cord} {y : List UInt8} {lenY : Nat} (hx : Below bound x) (hy : 0 ∉ y)
    (hle : lenY ≤ y.length) (htotal : x.cordLen + lenY < minLen 47)
    (hbalance : x.depth < 47 ∨ x.cordLen + lenY ≤ balanceMax) :
    ∃ r, catCharStar (balance (fuel + 1)) x y lenY = .ok r ∧ Below bound r ∧
      r.denote = x.denote ++ y.take lenY := by
  obtain ⟨hwf,hd⟩ := hx
  have hlimit := minLen_le_wordMax
  rw [Cord.cordLen_eq_length hwf] at htotal hbalance
  have hlen : x.genLen + lenY ≤ wordMax := by
    rw [Cord.genLen_eq_length hwf]
    omega
  apply joins_spec hlow (catCharStar_joins hwf hy hle hlen (by omega)) hd
  rw [Cord.depth_eq_height hwf] at hbalance
  rw [length_append,length_take_of_le hle]
  apply hbalance.imp_left
  intro hs
  change _ < 48
  omega

theorem exec_spec (hpool : ∀ x ∈ pool, Below bound x) (hproper : Proper pool op)
    (hbalance : Balanceable pool op) :
    ∃ r, exec (fuel + 1) pool op = .ok r ∧ Below bound r ∧
      r.denote = meaning (pool.map Cord.denote) op := by
  obtain ⟨htotal,hstring⟩ := hproper
  have hpos : 0 < bound := Nat.lt_of_lt_of_le (Nat.zero_lt_succ 47) hlow
  cases op with
  | cat i j =>
    rw [meaning,denote_pick,denote_pick]
    exact cat_spec hlow hhigh (below_pick hpos hpool i) (below_pick hpos hpool j) htotal hbalance
  | catCharStar i y lenY =>
    rw [meaning,denote_pick]
    exact catCharStar_spec hlow hhigh (below_pick hpos hpool i) hstring.1 hstring.2 htotal hbalance
  | fromFn fn len =>
    refine ⟨_,rfl,⟨fromFn_wellFormed (.client fn) len,?_⟩,denote_fromFn (.client fn) len⟩
    rw [height_fromFn]
    exact hpos
  | balance i =>
    have hx := (below_pick hpos hpool i).wf
    have hlen := hbalance.resolve_left (fun h => h)
    rw [totalLen,Cord.cordLen_eq_length hx] at hlen
    rw [meaning,denote_pick]
    exact balance_spec hlow hx hlen

end Bounded

theorem execAll_cons {x : Cord} (h : exec fuel pool op = .ok x) :
    execAll fuel (op :: ops) pool = execAll fuel ops (pool ++ [x]) := by
  rw [execAll,h]
  rfl

theorem allSteps_cons {P : Pool → Op → Prop} {x : Cord} (h : exec fuel pool op = .ok x) :
    AllSteps P fuel (op :: ops) pool ↔ P pool op ∧ AllSteps P fuel ops (pool ++ [x]) := by
  rw [AllSteps,h]

theorem execAll_spec (hpool : ∀ x ∈ pool, Below charMax x)
    (hrun : AllSteps (fun pool op => Proper pool op ∧ Balanceable pool op) (fuel + 1) ops pool) :
    ∃ pool', execAll (fuel + 1) ops pool = .ok pool' ∧ (∀ x ∈ pool', Below charMax x) ∧
      pool'.map Cord.denote = meaningAll ops (pool.map Cord.denote) := by
  induction ops generalizing pool with
  | nil => exact ⟨pool,rfl,hpool,rfl⟩
  | cons op ops ih =>
    have hexec : ∃ r, exec (fuel + 1) pool op = .ok r ∧ _ :=
      exec_spec (by decide) le_rfl hpool hrun.1.1 hrun.1.2
    obtain ⟨r,hr,husable,hdenote⟩ := hexec
    have hpool' : ∀ x ∈ pool ++ [r], Below charMax x := by
      intro x hx
      rcases mem_append.mp hx with hx | hx
      · exact hpool x hx
      · exact mem_singleton.mp hx ▸ husable
    have hih := ih hpool' ((allSteps_cons hr).mp hrun).2
    rw [map_append,map_singleton,hdenote] at hih
    rw [execAll_cons hr]
    exact hih

/-- In a run from well-formed cords whose steps are all `Balanceable`, every operation
returns, every cord is well formed and has its length for `CORD_len`, and the cords denote
the strings of the operations. -/
theorem execAll_denotes (ops : List Op) (pool : Pool) (fuel : Nat) (hpool : ∀ x ∈ pool, Usable x)
    (hrun : AllSteps (fun pool op => Proper pool op ∧ Balanceable pool op) (fuel + 1) ops pool) :
    ∃ pool', execAll (fuel + 1) ops pool = .ok pool' ∧
      (∀ x ∈ pool', x.WellFormed ∧ x.cordLen = x.denote.length) ∧
      pool'.map Cord.denote = meaningAll ops (pool.map Cord.denote) := by
  obtain ⟨pool',hexec,husable,hdenotes⟩ := execAll_spec (fun x hx => usable_iff.mp (hpool x hx)) hrun
  refine ⟨pool',hexec,?_,hdenotes⟩
  intro x hx
  exact ⟨(husable x hx).1,Cord.cordLen_eq_length (husable x hx).1⟩

def growingRun : List Op :=
  .fromFn (fun _ => 65) 40 ::
    (List.range 50).map (fun i => .catCharStar i (List.replicate 20 66) 18) ++
      [.catCharStar 50 [67, 68] 2, .cat 51 51, .balance 52]

theorem execAll_denotes_growingRun :
    ∃ pool', execAll 1 growingRun [] = .ok pool' ∧
      (∀ x ∈ pool', x.WellFormed ∧ x.cordLen = x.denote.length) ∧
      pool'.map Cord.denote = meaningAll growingRun [] :=
  execAll_denotes growingRun [] 0 (by simp) (by decide +kernel)

/-! A run that never comes back. Joining Fibonacci cords makes a tree of depth 46 that counts as
balanced. With a character before it and one behind it the depth is 48, and balancing builds
the same tree again: it asks for the concatenation that asked for the balancing. -/

def fibonacciCord : Nat → Cord
  | 0 => .function 1 (.client fun _ => 0)
  | 1 => .concat 2 1 1 (.function 1 (.client fun _ => 0)) (.function 1 (.client fun _ => 0))
  | n + 2 =>
    .concat (size (n + 2)) (n + 2) (if size (n + 1) ≤ maxLeftLen then size (n + 1) else 0)
      (fibonacciCord (n + 1)) (fibonacciCord n)

def fibonacciPool (n : Nat) : Pool := (List.range n).map fibonacciCord

def fibonacciRun (n : Nat) : List Op :=
  [.fromFn (fun _ => 0) 1, .cat 0 0] ++ (List.range n).map fun i => .cat (i + 1) i

def endlessRun : List Op :=
  fibonacciRun 45 ++ [.fromFn (fun _ => 97) 1, .cat 47 46, .catCharStar 48 [98] 1]

theorem fibonacciCord_spec (n : Nat) : (fibonacciCord n).WellFormed ∧
    (fibonacciCord n).isEmpty = false ∧ (fibonacciCord n).isString = false ∧
    (fibonacciCord n).genLen = size n ∧ (fibonacciCord n).depth = n := by
  induction n using Nat.twoStepInduction with
  | zero => exact ⟨Nat.one_pos,rfl,rfl,rfl,rfl⟩
  | one => exact ⟨by decide,rfl,rfl,rfl,rfl⟩
  | more n ih₀ ih₁ =>
    obtain ⟨hwf₀,hne₀,-,hlen₀,hdepth₀⟩ := ih₀
    obtain ⟨hwf₁,hne₁,-,hlen₁,hdepth₁⟩ := ih₁
    refine ⟨⟨hwf₁,hwf₀,hne₁,hne₀,?_,?_,?_⟩,rfl,rfl,rfl,rfl⟩
    · rw [hlen₀,hlen₁,size_add_two,Nat.add_comm]
    · rw [hlen₁]
      split
      · exact .inr rfl
      · exact .inl rfl
    · rw [hdepth₀,hdepth₁]
      push_cast
      omega

theorem cordLen_fibonacciCord (n : Nat) : (fibonacciCord n).cordLen = size n := by
  obtain ⟨-,hne,-,hlen,-⟩ := fibonacciCord_spec n
  rw [Cord.cordLen,hne,← hlen]
  rfl

theorem cat_fibonacciCord {n : Nat} (hn : n ≤ 44) :
    cat bal (fibonacciCord (n + 1)) (fibonacciCord n) = .ok (fibonacciCord (n + 2)) := by
  obtain ⟨hwf₀,hne₀,hrep₀,hlen₀,hdepth₀⟩ := fibonacciCord_spec n
  obtain ⟨hwf₁,hne₁,-,hlen₁,hdepth₁⟩ := fibonacciCord_spec (n + 1)
  have hdepth : 1 + max (fibonacciCord (n + 1)).depth (fibonacciCord n).depth = (n + 2 : Nat) := by
    rw [hdepth₀,hdepth₁]
    push_cast
    omega
  have hsum : wordAdd (size (n + 1)) (size n) = size (n + 2) := by
    have htop : size 46 < wordMax := by decide +kernel
    have hle : size (n + 2) ≤ size 46 := size_mono (by omega)
    rw [size_add_two] at hle ⊢
    rw [wordAdd_of_le (by omega),Nat.add_comm]
  rw [cat_rep hwf₁ hwf₀ hne₁ hne₀ hrep₀,hdepth,hlen₀,hlen₁,hsum,general,
    toChar_of_le (by omega),if_neg (by simp only [cordMaxDepth]; omega)]
  rfl

theorem execAll_append (ops₁ ops₂ : List Op) (pool : Pool) :
    execAll fuel (ops₁ ++ ops₂) pool = execAll fuel ops₁ pool >>= execAll fuel ops₂ := by
  induction ops₁ generalizing pool with
  | nil => rfl
  | cons op ops₁ ih =>
    rw [cons_append,execAll,execAll]
    cases exec fuel pool op with
    | error e => rfl
    | ok x => exact ih (pool ++ [x])

theorem allSteps_append {P : Pool → Op → Prop} {ops₁ ops₂ : List Op} {pool' : Pool}
    (hexec : execAll fuel ops₁ pool = .ok pool') (h₁ : AllSteps P fuel ops₁ pool)
    (h₂ : AllSteps P fuel ops₂ pool') : AllSteps P fuel (ops₁ ++ ops₂) pool := by
  induction ops₁ generalizing pool with
  | nil =>
    obtain rfl := Except.ok.inj hexec
    exact h₂
  | cons op ops₁ ih =>
    rw [execAll] at hexec
    obtain ⟨hop,hrest⟩ := h₁
    refine ⟨hop,?_⟩
    cases hx : exec fuel pool op with
    | error e => trivial
    | ok x =>
      rw [hx] at hexec hrest
      exact ih hexec hrest

theorem pick_fibonacciPool {n i : Nat} (hi : i < n) :
    pick (fibonacciPool n) i = fibonacciCord i := by
  simp [pick,fibonacciPool,getD_eq_getElem?_getD,hi]

theorem fibonacciPool_succ (n : Nat) :
    fibonacciPool (n + 1) = fibonacciPool n ++ [fibonacciCord n] := by
  rw [fibonacciPool,range_succ,map_append]
  rfl

theorem size_lt_minLen {n : Nat} (hn : n ≤ 46) : size n < minLen 47 := by
  rw [minLen_eq_size le_rfl]
  exact size_strictMono (by omega)

theorem fibonacciRun_spec (fuel : Nat) {n : Nat} (hn : n ≤ 45) :
    execAll fuel (fibonacciRun n) [] = .ok (fibonacciPool (n + 2)) ∧
      AllSteps Proper fuel (fibonacciRun n) [] := by
  induction n with
  | zero => exact ⟨rfl,by decide +kernel,by decide +kernel,trivial⟩
  | succ n ih =>
    obtain ⟨hexec,hproper⟩ := ih (by omega)
    have hrun : fibonacciRun (n + 1) = fibonacciRun n ++ [.cat (n + 1) n] := by
      simp [fibonacciRun,range_succ]
    have hop : exec fuel (fibonacciPool (n + 2)) (.cat (n + 1) n) = .ok (fibonacciCord (n + 2)) := by
      rw [exec,pick_fibonacciPool (by omega),pick_fibonacciPool (by omega)]
      exact cat_fibonacciCord (by omega)
    rw [hrun]
    constructor
    · rw [execAll_append,hexec,fibonacciPool_succ (n + 2)]
      exact execAll_cons hop
    · refine allSteps_append hexec hproper ⟨⟨?_,trivial⟩,?_⟩
      · rw [totalLen,pick_fibonacciPool (by omega),pick_fibonacciPool (by omega),
          cordLen_fibonacciCord,cordLen_fibonacciCord,Nat.add_comm,← size_add_two]
        exact size_lt_minLen (by omega)
      · rw [hop]
        trivial

def NullAt (forest : Forest) (j : Nat) : Prop := ∃ m, forest[j]? = some ⟨.empty, m⟩

section Walking
variable {forest : Forest} {x : Cord} {i k len n : Nat}

theorem absorb_null (h : NullAt forest i) :
    absorb bal ⟨forest, i, x, len⟩ = .ok ⟨forest, i + 1, x, len⟩ := by
  obtain ⟨m,hm⟩ := h
  have hsame : forest.set i ⟨.empty,m⟩ = forest := by
    obtain ⟨hlt,hget⟩ := List.getElem?_eq_some_iff.mp hm
    rw [← hget]
    exact set_getElem_self hlt
  rw [absorb,readSlot_eq hm]
  change Except.ok (Walk.mk (forest.set i ⟨.empty,m⟩) _ _ _) = _
  rw [hsame]

theorem gather_null {leafLen : Nat} (hi : i ≤ k) (hk : k ≤ 46)
    (hnull : ∀ j, i ≤ j → j < k → NullAt forest j) (hlong : i < k → size k < leafLen)
    (hlast : leafLen ≤ size (k + 1)) (hn : k < i + n) :
    gather bal leafLen n ⟨forest, i, x, len⟩ = .ok ⟨forest, k, x, len⟩ := by
  induction n generalizing i with
  | zero => omega
  | succ n ih =>
    rcases Nat.eq_or_lt_of_le hi with rfl | hik
    · exact gather_stop hk hlast
    · have hlen := hlong hik
      have hsize : size (i + 1) ≤ size k := size_mono hik
      rw [gather_step (hi.trans hk) (hsize.trans_lt hlen) (absorb_null (hnull i le_rfl hik))]
      exact ih hik (fun j hj => hnull j (Nat.le_of_succ_le hj)) (fun _ => hlen) (by omega)

theorem settle_null (hi : i ≤ k + 1) (hk : k ≤ 46) (hnull : ∀ j, i ≤ j → j ≤ k → NullAt forest j)
    (hlong : size k ≤ len) (hlast : len < size (k + 1)) (hn : k + 1 < i + n) :
    settle bal n ⟨forest, i, x, len⟩ = .ok ⟨forest, k + 1, x, len⟩ := by
  induction n generalizing i with
  | zero => omega
  | succ n ih =>
    have hindex := hi.trans (Nat.succ_le_succ hk)
    rcases Nat.eq_or_lt_of_le hi with rfl | hik
    · exact settle_stop hindex hlast
    · have hle := Nat.le_of_lt_succ hik
      have hsize : size i ≤ size k := size_mono hle
      rw [settle_step hindex (hsize.trans hlong) (absorb_null (hnull i le_rfl hle))]
      exact ih hik (fun j hj => hnull j (Nat.le_of_succ_le hj)) (by omega)

theorem concatLoop_null {expectedLen m : Nat} (hnull : ∀ j, i ≤ j → j < i + m → NullAt forest j)
    (hlen : len ≠ expectedLen) :
    concatLoop bal forest expectedLen (n + m) i x len =
      concatLoop bal forest expectedLen n (i + m) x len := by
  induction m generalizing i with
  | zero => rfl
  | succ m ih =>
    obtain ⟨l,hl⟩ := hnull i le_rfl (by omega)
    have hrest := ih (i := i + 1) fun j hj hlt => hnull j (by omega) (by omega)
    rw [show i + 1 + m = i + (m + 1) by omega] at hrest
    rw [← hrest,show n + (m + 1) = n + m + 1 by omega,concatLoop,if_neg hlen,readSlot_eq hl]
    rfl

theorem nullAt_set {j : Nat} {e : ForestElement} (h : NullAt forest j)
    (hij : i ≠ j) : NullAt (forest.set i e) j := by
  obtain ⟨m,hm⟩ := h
  exact ⟨m,by rw [List.getElem?_set_ne hij,hm]⟩

theorem addForest_char {c : UInt8} (h : NullAt forest 0) :
    addForest bal forest (.string [c]) 1 = .ok (forest.set 0 ⟨.string [c], 1⟩) := by
  have hgather : gather bal 1 cordMaxDepth ⟨forest,0,.empty,0⟩ = .ok ⟨forest,0,.empty,0⟩ :=
    gather_null le_rfl (by decide) (fun j _ hj => absurd hj (Nat.not_lt_zero j))
      (fun h => absurd h (Nat.not_lt_zero 0)) (by decide) (by decide)
  have hnull : ∀ j, 0 ≤ j → j ≤ 0 → NullAt forest j := fun j _ hj => Nat.le_zero.mp hj ▸ h
  have hsettle : settle bal (cordMaxDepth + 1) ⟨forest,0,.string [c],1⟩ =
      .ok ⟨forest,0 + 1,.string [c],1⟩ :=
    settle_null (by decide) (by decide) hnull (by decide) (by decide) (by decide)
  obtain ⟨m,hm⟩ := h
  rw [addForest_eq hgather (cat_empty_left _) hsettle]
  exact if_pos (List.getElem?_eq_some_iff.mp hm).1

end Walking

section Endless
variable {rest : Forest} {leftLen : Nat} {left right : Cord}

def deepCord (leftLen : Nat) (left right : Cord) : Cord := .concat (size 46) 46 leftLen left right

def longCord (leftLen : Nat) (left right : Cord) : Cord :=
  .concat (size 46 + 1) 47 1 (.string [97]) (deepCord leftLen left right)

def endlessCord (leftLen : Nat) (left right : Cord) : Cord :=
  .concat (size 46 + 2) 48 0 (longCord leftLen left right) (.string [98])

theorem size_lt_wordMax : size 46 + 2 < wordMax := by decide +kernel

theorem cat_deepCord :
    cat bal (.string [97]) (deepCord leftLen left right) = .ok (longCord leftLen left right) := by
  have hmax := size_lt_wordMax
  change general bal (.string [97]) _ 1 (wordAdd 1 (size 46)) 47 = _
  rw [wordAdd_of_le (by omega),Nat.add_comm]
  rfl

theorem catCharStar_longCord :
    catCharStar bal (longCord leftLen left right) [98] 1 = bal (endlessCord leftLen left right) := by
  have hmax := size_lt_wordMax
  have hlen : ¬ size 46 + 1 ≤ maxLeftLen := by decide +kernel
  change general bal (longCord leftLen left right) _ (size 46 + 1) (wordAdd (size 46 + 1) 1) 48 = _
  rw [wordAdd_of_le (by omega),general,if_neg hlen]
  rfl

theorem addForest_deepCord (hrest : ∀ j < 47, NullAt rest j) :
    addForest bal (⟨.string [97], 1⟩ :: rest) (deepCord leftLen left right) (size 46) =
      .ok (⟨.empty, 1⟩ :: rest.set 45 ⟨longCord leftLen left right, size 46 + 1⟩) := by
  have hmax := size_lt_wordMax
  have hnull : ∀ j, 1 ≤ j → j < 48 → NullAt (⟨.empty,1⟩ :: rest) j := by
    intro j hj hlt
    obtain ⟨k,rfl⟩ := Nat.exists_eq_add_of_le' hj
    exact hrest k (by omega)
  have hfirst : gather bal (size 46) cordMaxDepth ⟨⟨.string [97],1⟩ :: rest,0,.empty,0⟩ =
      gather bal (size 46) 47 ⟨⟨.empty,1⟩ :: rest,1,.string [97],1⟩ :=
    gather_step (Nat.zero_le 46) (size_strictMono (show 0 + 1 < 46 by decide)) rfl
  have hgather : gather bal (size 46) 47 ⟨⟨.empty,1⟩ :: rest,1,.string [97],1⟩ =
      .ok ⟨⟨.empty,1⟩ :: rest,45,.string [97],1⟩ :=
    gather_null (by decide) (by decide) (fun j hj hlt => hnull j hj (by omega))
      (fun _ => size_strictMono (by decide)) le_rfl (by decide)
  have hsettle : settle bal (cordMaxDepth + 1)
      ⟨⟨.empty,1⟩ :: rest,45,longCord leftLen left right,wordAdd 1 (size 46)⟩ =
      .ok ⟨⟨.empty,1⟩ :: rest,46 + 1,longCord leftLen left right,size 46 + 1⟩ := by
    have hlast := balanceMax_lt_size
    rw [balanceMax_eq] at hlast
    rw [wordAdd_of_le (by omega),Nat.add_comm 1]
    exact settle_null (by decide) (by decide) (fun j hj hle => hnull j (by omega) (by omega))
      (Nat.le_succ _) hlast (by decide)
  obtain ⟨m,hm⟩ := hrest 45 (by decide)
  have hlt : 46 < (⟨.empty,1⟩ :: rest : Forest).length :=
    Nat.succ_lt_succ (List.getElem?_eq_some_iff.mp hm).1
  rw [addForest_eq (hfirst.trans hgather) cat_deepCord hsettle]
  exact if_pos hlt

theorem balanceInsert_endlessCord (hrest : ∀ j < 47, NullAt rest j) :
    balanceInsert bal (endlessCord leftLen left right) (size 46 + 2) (vacant :: rest) =
      .ok (⟨.string [98], 1⟩ :: rest.set 45 ⟨longCord leftLen left right, size 46 + 1⟩) := by
  have hmax := size_lt_wordMax
  have hendless : unbalanced 48 (size 46 + 2) = .ok true := by decide +kernel
  have hlong : unbalanced 47 (size 46 + 1) = .ok true := by decide +kernel
  have hdeep : unbalanced 46 (size 46) = .ok false := by decide +kernel
  have hinner : balanceInsert bal (longCord leftLen left right) (size 46 + 1) (vacant :: rest) =
      .ok (⟨.empty,1⟩ :: rest.set 45 ⟨longCord leftLen left right,size 46 + 1⟩) := by
    have hlen : wordSub (size 46 + 1) 1 = size 46 := wordSub_of_le (by omega) (by omega)
    have hfirst : balanceInsert bal (.string [97]) 1 (vacant :: rest) =
        .ok (⟨.string [97],1⟩ :: rest) := addForest_char ⟨0,rfl⟩
    have hsplit : balanceInsert bal (longCord leftLen left right) (size 46 + 1) (vacant :: rest) =
        balanceInsert bal (deepCord leftLen left right) (wordSub (size 46 + 1) 1)
          (⟨.string [97],1⟩ :: rest) := balanceInsert_of_unbalanced hlong hfirst
    rw [hsplit,hlen,deepCord,balanceInsert_of_balanced hdeep]
    exact addForest_deepCord hrest
  have hlen : wordSub (size 46 + 2) (size 46 + 1) = 1 := by
    rw [wordSub_of_le (by omega) (by omega)]
    omega
  have hsplit : balanceInsert bal (endlessCord leftLen left right) (size 46 + 2) (vacant :: rest) =
      balanceInsert bal (.string [98]) (wordSub (size 46 + 2) (size 46 + 1))
        (⟨.empty,1⟩ :: rest.set 45 ⟨longCord leftLen left right,size 46 + 1⟩) :=
    balanceInsert_of_unbalanced hendless hinner
  rw [hsplit,hlen]
  exact addForest_char ⟨1,rfl⟩

theorem concatForest_endless {e : Stop} (hrest : ∀ j < 47, NullAt rest j)
    (h : bal (endlessCord leftLen left right) = .error e) :
    concatForest bal (⟨.string [98], 1⟩ :: rest.set 45 ⟨longCord leftLen left right, size 46 + 1⟩)
      (size 46 + 2) = .error e := by
  have hnull : ∀ j, 1 ≤ j → j < 1 + 45 → NullAt
      (⟨.string [98],1⟩ :: rest.set 45 ⟨longCord leftLen left right,size 46 + 1⟩) j := by
    intro j hj hlt
    obtain ⟨k,rfl⟩ := Nat.exists_eq_add_of_le' hj
    exact nullAt_set (hrest k (by omega)) (by omega)
  obtain ⟨m,hm⟩ := hrest 45 (by decide)
  have hlast : (⟨.string [98],1⟩ :: rest.set 45 ⟨longCord leftLen left right,size 46 + 1⟩ :
      Forest)[46]? = some ⟨longCord leftLen left right,size 46 + 1⟩ :=
    List.getElem?_set_self (List.getElem?_eq_some_iff.mp hm).1
  have hpos := size_pos 46
  have hcat : cat bal (longCord leftLen left right) (.string [98]) = .error e :=
    catCharStar_longCord.trans h
  rw [concatForest,cordMaxDepth,concatLoop_step (by omega) rfl rfl]
  change concatLoop bal _ _ (2 + 1 + 45) 1 (.string [98]) 1 = _
  rw [concatLoop_null hnull (by omega),concatLoop,if_neg (by omega),readSlot_eq hlast]
  change ((cat bal (longCord leftLen left right) (.string [98]) >>= _) >>= _) = _
  rw [hcat]
  rfl

theorem balanceStep_endlessCord {e : Stop} (h : bal (endlessCord leftLen left right) = .error e) :
    balanceStep bal (endlessCord leftLen left right) = .error e := by
  have hnull : ∀ j < 47, NullAt (List.replicate 47 vacant) j := fun j hj =>
    ⟨0,by rw [List.getElem?_replicate,if_pos hj]; rfl⟩
  have hinit : initForest (size 46 + 2) = .ok (vacant :: List.replicate 47 vacant) := by
    have hfind : (List.range cordMaxDepth).find? (fun i => minLen i > size 46 + 2) = some 47 := by
      decide +kernel
    rw [initForest,hfind]
    rfl
  rw [balanceStep_eq (x := endlessCord leftLen left right) rfl rfl hinit (balanceInsert_endlessCord hnull)]
  exact concatForest_endless hnull h

end Endless

theorem balance_endlessCord {leftLen : Nat} {left right : Cord} :
    balance fuel (endlessCord leftLen left right) = .error .noReturn := by
  induction fuel with
  | zero => rfl
  | succ fuel ih => exact balanceStep_endlessCord ih

theorem fibonacciCord_eq_deepCord : fibonacciCord 46 = deepCord
    (if size 45 ≤ maxLeftLen then size 45 else 0) (fibonacciCord 45) (fibonacciCord 44) := rfl

theorem length_fibonacciPool (n : Nat) : (fibonacciPool n).length = n := by
  rw [fibonacciPool,length_map,length_range]

theorem pick_append_left {rest : Pool} {i : Nat} (hi : i < pool.length) :
    pick (pool ++ rest) i = pick pool i := by
  simp only [pick,getD_eq_getElem?_getD,List.getElem?_append_left hi]

theorem pick_append_length (pool : Pool) (x : Cord) : pick (pool ++ [x]) pool.length = x := by
  simp [pick]

def lastCord : Cord := longCord (if size 45 ≤ maxLeftLen then size 45 else 0) (fibonacciCord 45)
  (fibonacciCord 44)

theorem pick_last : pick (fibonacciPool 47 ++ [.string [97]]) 47 = .string [97] := by
  have hpick := pick_append_length (fibonacciPool 47) (.string [97])
  rwa [length_fibonacciPool] at hpick

theorem pick_deep : pick (fibonacciPool 47 ++ [.string [97]]) 46 = fibonacciCord 46 := by
  rw [pick_append_left (by rw [length_fibonacciPool]; decide),pick_fibonacciPool (by decide)]

theorem exec_lastCord :
    exec fuel (fibonacciPool 47 ++ [.string [97]]) (.cat 47 46) = .ok lastCord := by
  rw [exec,pick_last,pick_deep,fibonacciCord_eq_deepCord]
  exact cat_deepCord

theorem pick_lastCord : pick (fibonacciPool 47 ++ [.string [97]] ++ [lastCord]) 48 = lastCord := by
  have hpick := pick_append_length (fibonacciPool 47 ++ [.string [97]]) lastCord
  rwa [length_append,length_fibonacciPool] at hpick

theorem exec_endless : exec fuel (fibonacciPool 47 ++ [.string [97]] ++ [lastCord])
    (.catCharStar 48 [98] 1) = .error .noReturn := by
  rw [exec,pick_lastCord,lastCord,catCharStar_longCord]
  exact balance_endlessCord

/-- The run ends in a call of `CORD_cat_char_star` that does not return, with strings below
the length of "Cord too long" throughout. -/
theorem endlessRun_noReturn : (∀ fuel, AllSteps Proper fuel endlessRun []) ∧
    ∀ fuel, execAll fuel endlessRun [] = .error .noReturn := by
  have hfirst : ∀ fuel, exec fuel (fibonacciPool 47) (.fromFn (fun _ => 97) 1) = .ok (.string [97]) :=
    fun _ => rfl
  constructor
  · intro fuel
    obtain ⟨hexec,hproper⟩ := fibonacciRun_spec fuel (n := 45) le_rfl
    apply allSteps_append hexec hproper
    rw [allSteps_cons (hfirst fuel),allSteps_cons exec_lastCord]
    have hlimit : 1 + size 46 + 1 < minLen 47 := by decide +kernel
    refine ⟨by decide +kernel,⟨?_,trivial⟩,⟨⟨?_,by decide⟩,?_⟩⟩
    · rw [totalLen,pick_last,pick_deep,cordLen_fibonacciCord]
      exact Nat.lt_of_succ_lt hlimit
    · rw [totalLen,pick_lastCord]
      change size 46 + 1 + 1 < _
      omega
    · rw [exec_endless]
      trivial
  · intro fuel
    obtain ⟨hexec,_⟩ := fibonacciRun_spec fuel (n := 45) le_rfl
    rw [endlessRun,execAll_append,hexec]
    change execAll fuel _ (fibonacciPool 47) = _
    rw [execAll_cons (hfirst fuel),execAll_cons exec_lastCord,execAll,exec_endless]
    rfl

end GcUtil.Cords.Runs
