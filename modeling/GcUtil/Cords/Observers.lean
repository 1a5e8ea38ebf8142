import GcUtil.Cords.Depths
import GcUtil.Cords.Flattening

/-! Cords stand for strings: what the operations of a run build is read back, character by
character or as a whole, as the string that the same operations give. -/
namespace GcUtil.Cords.Observers
open Basic Nodes Operations Concatenation Balancing Runs Substrings Positions Depths Flattening List

def fetch (p : Pos) (x : Cord) (i : Nat) : Result UInt8 := do
  let xpos ← setPos p x i
  if !xpos.valid then .error (.abort "bad index?") else posFetch xpos

def stepMeaning (strings : List (List UInt8)) : Step → List UInt8
  | .op op => meaning strings op
  | .substr i start n => ((strings.getD i []).drop start).take n

variable {pool : Pool} {fuel i : Nat} {step : Step} {x : Cord}

theorem fetch_spec (p : Pos) (hx : Kept x) :
    fetch p x i = if h : i < x.denote.length then .ok x.denote[i] else .error (.abort "bad index?") := by
  cases hempty : x.isEmpty with
  | true =>
    obtain rfl := (Cord.isEmpty_iff x).mp hempty
    rfl
  | false =>
    have hpos := length_pos hx.wf hempty
    obtain ⟨q,hq,hcur,hvalid,hready⟩ := setPos_spec hx hpos p i
    rw [fetch,hq]
    change (if !q.valid then _ else posFetch q) = _
    rw [hvalid]
    by_cases hi : i < x.denote.length
    · obtain ⟨a,ha,hget⟩ := (hready hi).fetch hx hpos
      rw [hcur,List.getElem?_eq_getElem hi] at hget
      rw [decide_eq_true hi,dif_pos hi,Option.some.inj hget]
      exact ha
    · rw [decide_eq_false hi,dif_neg hi]
      rfl

theorem execStep_denotes (h : ∀ x ∈ pool, Kept x) (hstep : Admissible pool step) :
    ∃ r, execStep (fuel + 1) pool step = .ok r ∧ r.denote = stepMeaning (pool.map Cord.denote) step := by
  cases step with
  | op op =>
    have hexec : ∃ r, exec (fuel + 1) pool op = .ok r ∧ _ :=
      exec_spec le_rfl (by decide) (fun x hx => ⟨(h x hx).wf,(h x hx).height⟩) hstep.1 hstep.2
    obtain ⟨r,hr,-,hdenote⟩ := hexec
    exact ⟨r,hr,hdenote⟩
  | substr i start n =>
    have hsubstr : ∃ r, substr (balance (fuel + 1)) (pick pool i) start n = .ok r ∧ _ :=
      substr_exact (kept_pick h i) hstep
    obtain ⟨r,hr,hpart⟩ := hsubstr
    exact ⟨r,hr,by rw [stepMeaning,denote_pick]; exact hpart.denote⟩

/-- Every admissible operation of a run gives the cord of its string: `CORD_fetch` reads each of the
characters and no other, and the text of the whole, if there is memory for it, comes back with its
terminator. -/
theorem execStep_observed (fuel : Nat) (start pool : Pool) (step : Step) (hstart : ∀ x ∈ start, Kept x)
    (h : Built (fuel + 1) start pool) (hstep : Admissible pool step) :
    ∃ x, execStep (fuel + 1) pool step = .ok x ∧
      let s := stepMeaning (pool.map Cord.denote) step
      (∀ p i, fetch p x i = if h : i < s.length then .ok s[i] else .error (.abort "bad index?")) ∧
      ∀ malloc, Serves malloc → s.length < wordMax → malloc (s.length + 1) ≠ none →
        ∃ rest, toCharStar malloc x = .ok (s ++ 0 :: rest) := by
  have hkept := h.kept hstart
  obtain ⟨x,hx,hxkept⟩ := @execStep_kept _ fuel _ hkept hstep
  obtain ⟨r,hr,hdenote⟩ := @execStep_denotes _ fuel _ hkept hstep
  obtain rfl := Except.ok.inj (hx.symm.trans hr)
  refine ⟨x,hx,?_⟩
  rw [← hdenote]
  refine ⟨fun p i => fetch_spec p hxkept,fun malloc hmalloc hlen hsome => ?_⟩
  obtain ⟨buf,hbuf⟩ := Option.ne_none_iff_exists'.mp hsome
  exact ⟨_,toCharStar_spec hmalloc hxkept.wf hlen hbuf⟩

theorem execStep_observed_substr : ∃ x, execStep 1 [.string [97, 98, 99]] (.substr 0 1 5) = .ok x ∧
    ∃ rest, toCharStar granules x = .ok ([98, 99] ++ 0 :: rest) := by
  obtain ⟨x,hx,-,htext⟩ := execStep_observed 0 [.string [97,98,99]] _ (.substr 0 1 5)
    (fun x hx => mem_singleton.mp hx ▸ ⟨by decide,by decide,by decide⟩) .start (by decide)
  exact ⟨x,hx,htext granules granules_serves (by decide) (by decide)⟩

end GcUtil.Cords.Observers
