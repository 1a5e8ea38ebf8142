import GcUtil.Block.NearestBlocks

/-! `GC_apply_to_all_blocks` with a callback that may free the block it is given: the walk goes
up through the bottom indices and down inside each of them, while headers and forwarding counts
around its position disappear. -/
namespace GcUtil.Block.BlockWalk
open Option
open Basic Headers Allocator HeaderTable BlockMap JointInvariant LinkedLists Unmapping UsedBlocks Merging Runs
open IndexLookup BottomIndexes NearestBlocks Library.DoublyLinked

section Walk

/-- A callback like `GC_reclaim_block`: it writes to the header it is given, but not to the place,
the size and the flags of the block, and then it may free the block. -/
structure Callback where
  update : Heap → Nat → Hdr → Hdr
  frees : Heap → Nat → Bool
  update_blk : ∀ s h b, blk (update s h b) = blk b
  update_mapped : ∀ s h b, (update s h b).isMapped = b.isMapped

def Callback.call (cb : Callback) (s : Heap) (h : Nat) : Option Heap := do
  let s' ← s.updAt h (cb.update s h)
  if cb.frees s h then freehblk s' h else some s'

structure Progress where
  visits : List (Nat × Heap)
  heap : Heap

variable (cb : Callback) (B : Indexes)

/-- The inner loop of `GC_apply_to_all_blocks` in the bottom index `key`, where `j` is one more
than the source's index. -/
def walkBottom (key : Nat) : Nat → Nat → Progress → Option Progress
  | 0, _, w => some w
  | fuel + 1, j, w =>
    if j = 0 then some w
    else
      match w.heap.index (key * bottomSz + (j - 1)) with
      | .nil => walkBottom key fuel (j - 1) w
      | .forward n => walkBottom key fuel (j - n) w
      | .hdr p =>
        let hhdr := w.heap.hdrs p
        if hhdr.isFree then walkBottom key fuel (j - 1) w
        else do
          let s ← cb.call w.heap hhdr.hbBlock
          walkBottom key fuel (j - 1) ⟨w.visits ++ [(hhdr.hbBlock, w.heap)], s⟩

def walkFrom : Nat → Option Nat → Progress → Option Progress
  | 0, _, w => some w
  | _ + 1, none, w => some w
  | fuel + 1, some bi, w => do
    let w ← walkBottom cb (B.key bi) bottomSz bottomSz w
    walkFrom fuel (B.asc bi) w

def applyToAllBlocks (s : Heap) : Option Progress := walkFrom cb B (B.scratch + 1) B.all ⟨[], s⟩

end Walk

section Callbacks

variable {cb : Callback} {s s' : Heap} {n : Nat} {cells : Finset Nat}

theorem updAt_ok {f : Hdr → Hdr} (h : Ok cells s) (hused : (usedAt s n).isSome) (hblk : ∀ b, blk (f b) = blk b)
    (hmapped : ∀ b, (f b).isMapped = b.isMapped) :
    ∃ s', s.updAt n f = some s' ∧ Ok cells s' ∧ Spares {n} s s' ∧ (usedAt s' n).isSome := by
  obtain ⟨L,h⟩ := h
  obtain ⟨b,hb⟩ := isSome_iff_exists.mp hused
  obtain ⟨hhdr,hat,hbody⟩ := bind_eq_some_iff.mp hb
  obtain ⟨p,hp,rfl⟩ := hdrAt_eq_some.mp hat
  have hfree : (s.hdrs p).isFree = false := by
    by_contra hne
    rw [used_of_free (by simpa using hne)] at hbody
    cases hbody
  have hsame : (f (s.hdrs p)).isFree = (s.hdrs p).isFree := congrArg Blk.free (hblk (s.hdrs p))
  refine ⟨s.updHdr p f,?_,⟨L,?_⟩,Spares.updHdr h.blocks.hdrs hp f,?_⟩
  · rw [Heap.updAt,hp]
  · have hat := blkAt_of_index hp
    have hsameBlk : blkAt (s.updHdr p f) = blkAt s := by
      rw [blkAt_updHdr h.blocks.hdrs hp,hblk,← hat,Function.update_eq_self]
    have hnot := h.blocks.not_mem_list hat (by simp) hfree
    have hold := h.accounts.isMapped hp hfree
    apply h.keep
    · refine ⟨h.blocks.hdrs.updHdr p f,?_,h.blocks.lists.updHdr_off h.blocks.hdrs hp hnot f,?_⟩
      · rw [hsameBlk]
        exact h.blocks.layout
      · rw [hsameBlk]
        exact h.blocks.placed
    · rfl
    · rfl
    · exact h.accounts.steady
        (Keeps.updHdr_mapped h.blocks.hdrs hp hold ((hmapped _).trans hold))
  · rw [usedAt_updHdr h.blocks.hdrs hp,Function.update_self,used,hsame,hfree]
    rfl

theorem hdrAt_any_of_usedAt (h : (usedAt s n).isSome) : ((s.hdrAt n).any fun hhdr => !hhdr.isFree) = true := by
  obtain ⟨b,hb⟩ := isSome_iff_exists.mp h
  obtain ⟨hhdr,hat,hbody⟩ := bind_eq_some_iff.mp hb
  rw [hat]
  by_contra hne
  rw [used_of_free (by simpa using hne)] at hbody
  cases hbody

theorem Callback.call_ok (cb : Callback) (h : Ok cells s) (hused : (usedAt s n).isSome) :
    ∃ s', cb.call s n = some s' ∧ Ok cells s' ∧ Spares {n} s s' := by
  obtain ⟨t,ht,hok,hspares,hstill⟩ := updAt_ok h hused (cb.update_blk s n) (cb.update_mapped s n)
  unfold Callback.call
  rw [ht]
  simp only [bind_eq_bind,bind_some]
  split
  · obtain ⟨u,hu,hok',hspares',-⟩ := freehblk_ok hok (hdrAt_any_of_usedAt hstill)
    exact ⟨u,hu,hok',hspares'.after hspares⟩
  · exact ⟨t,rfl,hok,hspares⟩

end Callbacks

section Visits

variable {cb : Callback} {B : Indexes} {s₀ : Heap} {P P' : Nat → Prop} {cells : Finset Nat} {w : Progress}

/-- The walk has passed the hblks in `P`: it has visited exactly the blocks in use there, and the
others are as they were. -/
structure Passed (s₀ : Heap) (cells : Finset Nat) (P : Nat → Prop) (w : Progress) : Prop where
  ok : Ok cells w.heap
  rest : ∀ n, ¬ P n → usedAt w.heap n = usedAt s₀ n
  nodup : (w.visits.map Prod.fst).Nodup
  mem : ∀ n, n ∈ w.visits.map Prod.fst ↔ (usedAt s₀ n).isSome ∧ P n
  inUse : ∀ v ∈ w.visits, (usedAt v.2 v.1).isSome

theorem Passed.skip (h : Passed s₀ cells P w) (hsub : ∀ n, P n → P' n)
    (hnone : ∀ n, P' n → ¬ P n → usedAt s₀ n = none) : Passed s₀ cells P' w where
  ok := h.ok
  rest n hn := h.rest n fun hp => hn (hsub n hp)
  nodup := h.nodup
  mem n := by
    rw [h.mem]
    constructor
    · exact fun ⟨hused,hp⟩ => ⟨hused,hsub n hp⟩
    · rintro ⟨hused,hp'⟩
      refine ⟨hused,?_⟩
      by_contra hp
      rw [hnone n hp' hp] at hused
      cases hused
  inUse := h.inUse

theorem Passed.visit {x : Nat} {s : Heap} (h : Passed s₀ cells P w) (hx : ¬ P x) (hused : (usedAt w.heap x).isSome)
    (hok : Ok cells s) (hspares : Spares {x} w.heap s) (hP' : ∀ n, P' n ↔ P n ∨ n = x) :
    Passed s₀ cells P' ⟨w.visits ++ [(x, w.heap)], s⟩ where
  ok := hok
  rest n hn := by
    rw [hP'] at hn
    push Not at hn
    exact (hspares.same n (by simpa using hn.2)).trans (h.rest n hn.1)
  nodup := by
    rw [List.map_append,List.map_singleton,List.nodup_append_comm]
    refine List.nodup_cons.mpr ⟨fun hmem => ?_,h.nodup⟩
    exact hx ((h.mem x).mp hmem).2
  mem n := by
    rw [List.map_append,List.mem_append,h.mem,hP']
    simp only [List.map_cons,List.map_nil,List.mem_singleton]
    constructor
    · rintro (⟨hn,hp⟩ | rfl)
      · exact ⟨hn,.inl hp⟩
      · exact ⟨h.rest n hx ▸ hused,.inr rfl⟩
    · rintro ⟨hn,hp | rfl⟩
      · exact .inl ⟨hn,hp⟩
      · exact .inr rfl
  inUse v hv := by
    rcases List.mem_append.mp hv with hv | hv
    · exact h.inUse v hv
    · rw [List.mem_singleton.mp hv]
      exact hused

theorem usedAt_eq_none {s : Heap} {n : Nat} (h : ∀ p, s.index n ≠ .hdr p) : usedAt s n = none :=
  usedAt_of_none (hdrAt_eq_none.mpr h)

def upTo (key j n : Nat) : Prop := n < key * bottomSz ∨ key * bottomSz + j ≤ n ∧ n < (key + 1) * bottomSz

theorem walkBottom_passed {key fuel j : Nat} (h : Passed s₀ cells (upTo key j) w) (hfuel : j ≤ fuel)
    (hj : j ≤ bottomSz) :
    ∃ w', walkBottom cb key fuel j w = some w' ∧ Passed s₀ cells (upTo key 0) w' := by
  induction fuel generalizing j w with
  | zero =>
    obtain rfl : j = 0 := by omega
    exact ⟨w,rfl,h⟩
  | succ fuel ih =>
    rw [walkBottom]
    by_cases hzero : j = 0
    · subst hzero
      exact ⟨w,if_pos rfl,h⟩
    · rw [if_neg hzero]
      obtain ⟨L,hok⟩ := h.ok
      have hspaced := spaced_of_heapOk hok
      have hkey : (key + 1) * bottomSz = key * bottomSz + bottomSz := Nat.succ_mul _ _
      have hlast : ∀ n, upTo key (j - 1) n ↔ upTo key j n ∨ n = key * bottomSz + (j - 1) := by
        intro n
        unfold upTo
        omega
      have hout : ¬ upTo key j (key * bottomSz + (j - 1)) := by
        unfold upTo
        omega
      -- Entries without a block in use now had none at the start.
      have hpass : ∀ i, i ≤ j → (∀ n, key * bottomSz + i ≤ n → n < key * bottomSz + j → usedAt w.heap n = none) →
          Passed s₀ cells (upTo key i) w := by
        intro i hi hnone
        refine h.skip (fun n hn => ?_) fun n hn hn' => ?_
        · unfold upTo at hn ⊢
          omega
        · rw [← h.rest n hn']
          unfold upTo at hn hn'
          exact hnone n (by omega) (by omega)
      split
      · next hnil =>
        refine ih (hpass _ (by omega) fun n hn hlt => ?_) (by omega) (by omega)
        obtain rfl : n = key * bottomSz + (j - 1) := by omega
        exact usedAt_eq_none fun p hp => by rw [hnil] at hp; cases hp
      · next k hk =>
        obtain ⟨hpos,-,hhop⟩ := hspaced.hop _ k hk
        refine ih (hpass _ (by omega) fun n hn hlt => ?_) (by omega) (by omega)
        exact usedAt_eq_none (hhop n (by omega) (by omega))
      · next p hp =>
        dsimp only
        split
        · next hfree =>
          refine ih (hpass _ (by omega) fun n hn hlt => ?_) (by omega) (by omega)
          obtain rfl : n = key * bottomSz + (j - 1) := by omega
          exact usedAt_of_free hp hfree
        · next hused =>
          have hin : (usedAt w.heap (key * bottomSz + (j - 1))).isSome := by
            rw [usedAt_of_index hp,used,if_neg hused]
            rfl
          rw [hspaced.own _ p hp]
          obtain ⟨s,hs,hok',hspares⟩ := cb.call_ok h.ok hin
          rw [hs]
          exact ih (h.visit hout hin hok' hspares hlast) (by omega) (by omega)

theorem walkFrom_passed {prev : Option Nat} {l : List Nat} {fuel lo : Nat} (hseg : Segment B.asc B.desc prev l none)
    (hfuel : l.length < fuel) (hsorted : (l.map B.key).Pairwise (· < ·)) (hlo : ∀ k ∈ l.map B.key, lo ≤ k)
    (hin : ∀ n, (usedAt s₀ n).isSome → lo * bottomSz ≤ n → n / bottomSz ∈ l.map B.key)
    (h : Passed s₀ cells (· < lo * bottomSz) w) :
    ∃ w', walkFrom cb B fuel l.head? w = some w' ∧ Passed s₀ cells (fun _ => True) w' := by
  induction fuel generalizing prev l lo w with
  | zero => omega
  | succ fuel ih =>
    cases l with
    | nil =>
      refine ⟨w,rfl,h.skip (fun _ _ => trivial) fun n _ hn => ?_⟩
      by_contra hused
      exact List.not_mem_nil (hin n (isSome_iff_ne_none.mpr hused) (by omega))
    | cons bi l =>
      obtain ⟨-,hasc,hrest⟩ := hseg
      rw [or_none] at hasc
      rw [List.map_cons,List.pairwise_cons] at hsorted
      have hkey : lo ≤ B.key bi := hlo _ (by simp)
      have hmul : lo * bottomSz ≤ B.key bi * bottomSz := Nat.mul_le_mul_right _ hkey
      have hsucc : (B.key bi + 1) * bottomSz = B.key bi * bottomSz + bottomSz := Nat.succ_mul _ _
      have hbefore : Passed s₀ cells (upTo (B.key bi) bottomSz) w := by
        refine h.skip (fun n hn => .inl (hn.trans_le hmul)) fun n hn hn' => ?_
        by_contra hused
        have hmem := hin n (isSome_iff_ne_none.mpr hused) (by omega)
        have hle : B.key bi ≤ n / bottomSz := by
          rcases List.mem_cons.mp (List.map_cons ▸ hmem) with heq | hmem
          · exact heq.ge
          · exact (hsorted.1 _ hmem).le
        have := (Nat.le_div_iff_mul_le (by decide)).mp hle
        unfold upTo at hn
        omega
      obtain ⟨w₁,hw₁,hpassed⟩ := @walkBottom_passed cb _ _ _ _ _ _ hbefore (le_refl _) (le_refl _)
      have hnext : Passed s₀ cells (· < (B.key bi + 1) * bottomSz) w₁ := by
        refine hpassed.skip (fun n hn => ?_) fun n hn hn' => ?_
        · unfold upTo at hn
          omega
        · unfold upTo at hn'
          omega
      rw [List.head?_cons,walkFrom,hw₁,hasc]
      simp only [bind_eq_bind,bind_some]
      refine ih hrest (by simpa using hfuel) hsorted.2 (fun k hk => hsorted.1 k hk) (fun n hn hle => ?_) hnext
      have hle' : (B.key bi + 1) * bottomSz ≤ n := hle
      have hmem := hin n hn (by omega)
      rcases List.mem_cons.mp (List.map_cons ▸ hmem) with heq | hmem
      · have := (Nat.le_div_iff_mul_le (by decide)).mpr hle'
        omega
      · exact hmem

/-- The whole walk, whichever of the visited blocks the callback frees. -/
theorem applyToAllBlocks_passed (cb : Callback) {s : Heap} (hok : Ok cells s) {calls : List Nat}
    (hcalls : keysOf calls = s.bottomKeys) :
    ∃ w, applyToAllBlocks cb (indexesOf calls) s = some w ∧ Passed s cells (fun _ => True) w := by
  obtain ⟨ids,hrep⟩ := indexesOf_represents calls
  have hkeyed : Keyed s := hok.choose_spec.accounts.keyed
  rw [hcalls] at hrep
  have hstart : Passed s cells (· < 0 * bottomSz) ⟨[],s⟩ := by
    refine ⟨hok,fun _ _ => rfl,List.nodup_nil,fun n => ?_,fun v hv => by cases hv⟩
    simp
  have hin : ∀ n, (usedAt s n).isSome → 0 * bottomSz ≤ n → n / bottomSz ∈ ids.map (indexesOf calls).key := by
    intro n hn _
    rw [hrep.keys_eq]
    apply hkeyed.mem
    intro hnil
    rw [usedAt_eq_none fun p hp => by rw [hnil] at hp; cases hp] at hn
    cases hn
  rw [applyToAllBlocks,hrep.linked.head_eq]
  exact walkFrom_passed hrep.linked.segment (Nat.lt_succ_of_le hrep.length_le)
    (hrep.keys_eq.symm ▸ hkeyed.sorted) (fun _ _ => Nat.zero_le _) hin hstart

/-- In every state reached, a walk over all blocks visits each block in use once, while that block
is in use, and no other, whichever of the visited blocks the callback frees. -/
theorem applyToAllBlocks_visits (hdrs : Nat → Hdr) (fuel : Nat) (ops : List HeapOp)
    (hallowed : RunAllowed fuel ops (Heap.init hdrs)) (s : Heap)
    (hs : heapRun fuel ops (Heap.init hdrs) = some s) (cb : Callback) (calls : List Nat)
    (hcalls : keysOf calls = s.bottomKeys) :
    ∃ w, applyToAllBlocks cb (indexesOf calls) s = some w ∧ (w.visits.map Prod.fst).Nodup ∧
      (∀ n, n ∈ w.visits.map Prod.fst ↔ (usedAt s n).isSome) ∧ ∀ v ∈ w.visits, (usedAt v.2 v.1).isSome := by
  obtain ⟨cells,hok⟩ := heapRun_ok ⟨_,heapOk_init hdrs⟩ hallowed hs
  obtain ⟨w,hw,hpassed⟩ := applyToAllBlocks_passed cb hok hcalls
  refine ⟨w,hw,hpassed.nodup,fun n => ?_,hpassed.inUse⟩
  simpa using hpassed.mem n

def neighboursRun : List HeapOp := [
  .block (.addToHeap 1020 16),
  .block (.allochblk quietEnv ⟨5000, normal, false, 0⟩ false [] quietEnv),
  .block (.allochblk quietEnv ⟨20000, normal, false, 0⟩ false [] quietEnv)]

def neighboursState : Heap :=
  (heapRun 400 neighboursRun blankHeap).getD blankHeap

def freeAll : Callback := ⟨fun _ _ b => b, fun _ _ => true, fun _ _ _ => rfl, fun _ _ _ => rfl⟩

/-- Both are freed, and coalesced, during the walk. -/
theorem applyToAllBlocks_visits_neighboursRun : RunAllowed 400 neighboursRun blankHeap ∧
    keysOf [1024, 1020] = neighboursState.bottomKeys ∧
    ∃ w, applyToAllBlocks freeAll (indexesOf [1024, 1020]) neighboursState = some w ∧
      (w.visits.map Prod.fst).Nodup ∧
      (∀ n, n ∈ w.visits.map Prod.fst ↔ (usedAt neighboursState n).isSome) ∧
      ∀ v ∈ w.visits, (usedAt v.2 v.1).isSome := by
  have hallowed : RunAllowed 400 neighboursRun blankHeap := by decide +kernel
  have hrun : heapRun 400 neighboursRun blankHeap = some neighboursState := by
    have hsome : (heapRun 400 neighboursRun blankHeap).isSome = true := by decide +kernel
    obtain ⟨s,hs⟩ := isSome_iff_exists.mp hsome
    rw [neighboursState,hs]
    rfl
  have hkeys : keysOf [1024,1020] = neighboursState.bottomKeys := by decide +kernel
  exact ⟨hallowed,hkeys,applyToAllBlocks_visits (fun _ => blankHdr) 400 neighboursRun hallowed neighboursState hrun
    freeAll [1024,1020] hkeys⟩

example : (applyToAllBlocks freeAll (indexesOf [1024, 1020]) neighboursState).map (fun w => w.visits.map Prod.fst) =
    some [1022, 1020] := by
  decide +kernel

end Visits

section Calls

variable {cb : Callback} {B : Indexes} {w w' : Progress}

theorem walkBottom_calls {key fuel j : Nat} (h : walkBottom cb key fuel j w = some w') :
    ∃ l, w'.visits.map Prod.fst = w.visits.map Prod.fst ++ l ∧ l.foldlM cb.call w.heap = some w'.heap := by
  induction fuel generalizing j w with
  | zero =>
    cases h
    exact ⟨[],(List.append_nil _).symm,rfl⟩
  | succ fuel ih =>
    rw [walkBottom] at h
    split at h
    · cases h
      exact ⟨[],(List.append_nil _).symm,rfl⟩
    · split at h
      · exact ih h
      · exact ih h
      · next p _ =>
        dsimp only at h
        split at h
        · exact ih h
        · obtain ⟨s,hs,h⟩ := bind_eq_some_iff.mp h
          obtain ⟨l,hl,hfold⟩ := ih h
          refine ⟨(w.heap.hdrs p).hbBlock :: l,?_,?_⟩
          · rw [hl,List.map_append,List.append_assoc]
            rfl
          · rw [List.foldlM_cons,hs]
            exact hfold

theorem walkFrom_calls {fuel : Nat} {bi : Option Nat} (h : walkFrom cb B fuel bi w = some w') :
    ∃ l, w'.visits.map Prod.fst = w.visits.map Prod.fst ++ l ∧ l.foldlM cb.call w.heap = some w'.heap := by
  induction fuel generalizing bi w with
  | zero =>
    cases h
    exact ⟨[],(List.append_nil _).symm,rfl⟩
  | succ fuel ih =>
    cases bi with
    | none =>
      cases h
      exact ⟨[],(List.append_nil _).symm,rfl⟩
    | some bi =>
      obtain ⟨v,hv,h⟩ := bind_eq_some_iff.mp h
      obtain ⟨l,hl,hfold⟩ := walkBottom_calls hv
      obtain ⟨l',hl',hfold'⟩ := ih h
      refine ⟨l ++ l',?_,?_⟩
      · rw [hl',hl,List.append_assoc]
      · rw [List.foldlM_append,hfold]
        exact hfold'

theorem applyToAllBlocks_calls {s : Heap} (h : applyToAllBlocks cb B s = some w) :
    (w.visits.map Prod.fst).foldlM cb.call s = some w.heap := by
  obtain ⟨l,hl,hfold⟩ := walkFrom_calls h
  rw [hl]
  exact hfold

end Calls

end GcUtil.Block.BlockWalk
