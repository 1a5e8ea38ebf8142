import GcUtil.Cords.Positions
import GcUtil.Cords.Runs
import GcUtil.Cords.Substrings

/-! The depth of the cords that concatenations, substrings and balancing build, and with it the
length of a path. A cord of more than `balanceMax` characters may keep balancing busy for ever. -/
namespace GcUtil.Cords.Depths
open Basic Nodes Operations Concatenation Balancing Runs Substrings Positions Library.FibonacciDepth List

inductive Step where
  | op (op : Op)
  | substr (i start n : Nat)

def execStep (fuel : Nat) (pool : Pool) : Step → Result Cord
  | .op op => exec fuel pool op
  | .substr i start n => substr (balance fuel) (pick pool i) start n

/-- What is balanced is not too long, and no substring ends beyond the address space. -/
def Admissible (pool : Pool) : Step → Prop
  | .op op => Proper pool op ∧ Balanceable pool op
  | .substr i start n => (pick pool i).cordLen ≤ start ∨ n = 0 ∨ start + n ≤ wordMax

instance (pool : Pool) : DecidablePred (Admissible pool)
  | .op _ => inferInstanceAs (Decidable (_ ∧ _))
  | .substr _ _ _ => inferInstanceAs (Decidable (_ ∨ _ ∨ _))

/-- The pools that admissible steps build from the cords of `start`. -/
inductive Built (fuel : Nat) (start : Pool) : Pool → Prop
  | start : Built fuel start start
  | step {pool : Pool} {step : Step} {x : Cord} (h : Built fuel start pool) (hstep : Admissible pool step)
      (hexec : execStep fuel pool step = .ok x) : Built fuel start (pool ++ [x])

variable {pool : Pool} {fuel : Nat} {op : Op} {step : Step} {x : Cord}

theorem kept_of_below (h : Below cordMaxDepth x) (hlen : x.denote.length ≤ wordMax) : Kept x := by
  refine ⟨h.wf,?_,?_⟩
  · rw [Cord.depth_eq_height h.wf]
    exact Int.ofNat_lt.mpr h.height
  · rwa [Cord.genLen_eq_length h.wf]

theorem kept_pick (h : ∀ x ∈ pool, Kept x) (i : Nat) : Kept (pick pool i) := by
  unfold pick
  rw [getD_eq_getElem?_getD]
  cases hi : pool[i]? with
  | none => exact ⟨trivial,by decide,Nat.zero_le _⟩
  | some x => exact h x (mem_of_getElem? hi)

theorem length_meaning (h : ∀ x ∈ pool, Kept x) (hproper : Proper pool op) :
    (meaning (pool.map Cord.denote) op).length = totalLen pool op := by
  have hpick (i : Nat) : ((pool.map Cord.denote).getD i []).length = (pick pool i).cordLen := by
    rw [denote_pick,Cord.cordLen_eq_length (kept_pick h i).wf]
  cases op with
  | cat i j => rw [meaning,totalLen,length_append,hpick,hpick]
  | catCharStar i y lenY => rw [meaning,totalLen,length_append,hpick,length_take_of_le hproper.2.2]
  | fromFn fn len => rw [meaning,totalLen,length_map,length_range]
  | balance i => exact hpick i

theorem execStep_kept (h : ∀ x ∈ pool, Kept x) (hstep : Admissible pool step) :
    ∃ r, execStep (fuel + 1) pool step = .ok r ∧ Kept r := by
  cases step with
  | op op =>
    obtain ⟨hproper,hbalance⟩ := hstep
    have hbelow : ∀ x ∈ pool, Below cordMaxDepth x := fun x hx => ⟨(h x hx).wf,(h x hx).height⟩
    have hexec : ∃ r, exec (fuel + 1) pool op = .ok r ∧ _ :=
      exec_spec le_rfl (by decide) hbelow hproper hbalance
    obtain ⟨r,hr,hr',hdenote⟩ := hexec
    refine ⟨r,hr,kept_of_below hr' ?_⟩
    rw [hdenote,length_meaning h hproper]
    exact hproper.1.le.trans minLen_le_wordMax
  | substr i start n =>
    have hx := kept_pick h i
    have hsubstr : ∃ r, substr (balance (fuel + 1)) (pick pool i) start n = .ok r ∧ _ :=
      substr_exact hx hstep
    obtain ⟨r,hr,hpart⟩ := hsubstr
    refine ⟨r,hr,kept_of_below ⟨hpart.wf,hpart.height.trans_lt hx.height⟩ ?_⟩
    have hmax := hx.length_le
    rw [hpart.denote,length_take,length_drop]
    omega

theorem Built.kept {start : Pool} (hstart : ∀ x ∈ start, Kept x) (h : Built (fuel + 1) start pool) :
    ∀ x ∈ pool, Kept x := by
  induction h with
  | start => exact hstart
  | step _ hstep hexec ih =>
    obtain ⟨r,hr,hkept⟩ := execStep_kept ih hstep
    obtain rfl := Except.ok.inj (hr.symm.trans hexec)
    intro x hx
    rcases mem_append.mp hx with hx | hx
    · exact ih x hx
    · exact mem_singleton.mp hx ▸ hkept

def endlessTree : Cord :=
  endlessCord (if size 45 ≤ maxLeftLen then size 45 else 0) (fibonacciCord 45) (fibonacciCord 44)

theorem endlessTree_wellFormed : endlessTree.WellFormed := by
  obtain ⟨hwf,hne,-,hlen,hdepth⟩ := fibonacciCord_spec 46
  rw [fibonacciCord_eq_deepCord] at hwf hne hlen hdepth
  have hlong : (longCord (if size 45 ≤ maxLeftLen then size 45 else 0) (fibonacciCord 45)
      (fibonacciCord 44)).WellFormed :=
    ⟨by decide,hwf,rfl,rfl,Nat.add_comm _ _,.inr rfl,rfl⟩
  exact ⟨hlong,by decide,rfl,rfl,rfl,.inl rfl,rfl⟩

theorem cordLen_endlessTree : endlessTree.cordLen = balanceMax + 1 := by
  rw [balanceMax_eq]
  rfl

/-- From cords within the limits every operation returns and gives a cord below the depth limit,
and the path to a leaf fits into its array. The cords of up to `limit` characters can all be
balanced just if `limit` is not above `balanceMax`. -/
theorem built_bounded (fuel limit : Nat) (start pool : Pool) (hstart : ∀ x ∈ start, Kept x)
    (h : Built (fuel + 1) start pool) :
    (∀ step, Admissible pool step → ∃ r, execStep (fuel + 1) pool step = .ok r) ∧
    (∀ x ∈ pool, x.depth < cordMaxDepth ∧ ∀ p c from' above, x.isEmpty = false →
      Trail x (⟨c, from'⟩ :: above) → p.path = ⟨c, from'⟩ :: above → from' ≤ p.curPos →
      ∃ q, extendPath p = .ok q) ∧
    ((∀ x : Cord, x.WellFormed → x.cordLen ≤ limit →
      ∃ r, balance (fuel + 1) x = .ok r ∧ r.depth < cordMaxDepth) ↔ limit ≤ balanceMax) := by
  have hkept := h.kept hstart
  refine ⟨fun step hstep => ?_,fun x hx => ⟨(hkept x hx).depth,?_⟩,fun hall => ?_,fun hlimit x hx hlen => ?_⟩
  · obtain ⟨r,hr,-⟩ := execStep_kept hkept hstep
    exact ⟨r,hr⟩
  · intro p c from' above hne htrail hpath hle
    obtain ⟨q,hq,-⟩ := extendPath_spec (hkept x hx) (length_pos (hkept x hx).wf hne) htrail hpath hle
    exact ⟨q,hq⟩
  · by_contra hlong
    obtain ⟨r,hr,-⟩ := hall endlessTree endlessTree_wellFormed (by rw [cordLen_endlessTree]; omega)
    rw [endlessTree,balance_endlessCord] at hr
    cases hr
  · rw [Cord.cordLen_eq_length hx] at hlen
    obtain ⟨r,hr,hbelow,-⟩ := balance_spec le_rfl hx (hlen.trans hlimit)
    refine ⟨r,hr,?_⟩
    rw [Cord.depth_eq_height hbelow.wf]
    exact Int.ofNat_lt.mpr hbelow.height

def nul : Cord := .function 1 (.client fun _ => 0)

def nuls : Nat → Cord
  | 0 => nul
  | n + 1 => .concat (n + 2) (n + 1) (n + 1) (nuls n) nul

/-- Five characters concatenated one by one have depth 4, and depth 3 once balanced. -/
def fiveSteps : Pool := [nul, nuls 1, nuls 2, nuls 3, nuls 4, .concat 5 3 3 (nuls 2) (nuls 1)]

theorem built_bounded_fiveSteps : Built 1 [nul] fiveSteps ∧
    ∃ r, execStep 1 fiveSteps (.op (.cat 5 4)) = .ok r := by
  have hstart : ∀ x ∈ [nul], Kept x := by
    intro x hx
    obtain rfl := mem_singleton.mp hx
    exact ⟨by decide,by decide,by decide⟩
  have hone : Built 1 [nul] ([nul] ++ [nuls 1]) :=
    .step .start (show Admissible [nul] (.op (.cat 0 0)) by decide +kernel) rfl
  have htwo := hone.step (show Admissible _ (.op (.cat 1 0)) by decide +kernel) rfl
  have hthree := htwo.step (show Admissible _ (.op (.cat 2 0)) by decide +kernel) rfl
  have hfour := hthree.step (show Admissible _ (.op (.cat 3 0)) by decide +kernel) rfl
  have hbuilt := hfour.step (show Admissible _ (.op (.balance 4)) by decide +kernel) rfl
  exact ⟨hbuilt,(built_bounded 0 0 _ fiveSteps hstart hbuilt).1 (.op (.cat 5 4)) (by decide +kernel)⟩

/-- A cord that is shorter than "Cord too long" and cannot be balanced. -/
theorem balance_never_returns : endlessTree.WellFormed ∧ endlessTree.cordLen < minLen 47 ∧
    ∀ fuel, balance fuel endlessTree = .error .noReturn := by
  refine ⟨endlessTree_wellFormed,?_,fun fuel => balance_endlessCord⟩
  rw [cordLen_endlessTree]
  decide +kernel

end GcUtil.Cords.Depths
