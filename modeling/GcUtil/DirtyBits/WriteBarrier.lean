import GcUtil.DirtyBits.Pages

/-! Runs of the allocator, the client and `GC_read_dirty`: every hblk of a block in use
that may contain pointers is write-protected or has its dirty bit set, and it has the
bit set if it has been written to since the last `GC_read_dirty`. -/
namespace GcUtil.DirtyBits.WriteBarrier
open Option Bool
open Basic Block.Headers Block.FreeLists Block.Allocator Block.HeaderTable Block.LinkedLists Block.BlockMap
open Block.JointInvariant Block.UsedBlocks Block.Merging Block.Searching Block.Runs Pages Library.Outcome

section Operations

variable (cfg : Config) (fuel : Nat)

inductive Op where
  | addToHeap (h n : Nat)
  | allochblk (env : AllocEnv) (req : Request) (collects : Bool) (collection : List Op) (after : AllocEnv)
  | freehblk (h : Nat)
  | mergeUnmapped
  | unmapOld (threshold : Nat)
  | nextGc
  | reclaimGeneric (h : Nat)
  | write (h : Nat)
  | readDirty (outputUnneeded : Bool)

/-- The end of `GC_allochblk_nth`: the block `h` in the heap `s` is handed out. -/
def handOut (req : Request) (v : Vdb) (h : Nat) (s : Heap) : Vdb :=
  removeProtection cfg h (divHblksz req.sizeNeeded) (isPtrfree s h) (v.onHeap cfg s)

def finish (req : Request) (v : Vdb) : Option Nat × Heap → Vdb
  | (none, s) => v.onHeap cfg s
  | (some h, s) => handOut cfg req v h s

mutual

def exec : Op → Vdb → Option Vdb
  | .addToHeap h n, v => (addToHeap v.heap h n).map (v.onHeap cfg)
  | .allochblk env req collects collection after, v =>
      if req.overflows then some v
      else
        match allochblkBeforeCollect env fuel req v.heap with
        | none => none
        | some (some h, s) => some (handOut cfg req v h s)
        | some (none, s) =>
            if collects then
              (execAll collection (v.onHeap cfg s)).bind fun v =>
                (allochblkFromFreeLists after fuel req req.startList v.heap).map (finish cfg req v)
            else some (v.onHeap cfg s)
  | .freehblk h, v => (freehblk v.heap h).map (v.onHeap cfg)
  | .mergeUnmapped, v => (mergeUnmapped fuel v.heap).map fun r => v.onHeap cfg r.2
  | .unmapOld threshold, v => (unmapOld fuel threshold v.heap).map (v.onHeap cfg)
  | .nextGc, v => some (v.onHeap cfg { v.heap with gcNo := v.heap.gcNo + 1 })
  | .reclaimGeneric h, v => some (removeProtection cfg h 1 (isPtrfree v.heap h) v)
  | .write h, v => write cfg h v
  | .readDirty outputUnneeded, v => readDirty cfg fuel outputUnneeded v

def execAll : List Op → Vdb → Option Vdb
  | [], v => some v
  | op :: ops, v => (exec op v).bind (execAll ops)

end

/-- `GC_obj_kinds` describes pointer-free objects as such. -/
def PtrfreeKind (env : AllocEnv) : Prop :=
  (env.kinds ptrfree).okDescriptor = 0 ∧ (env.kinds ptrfree).okRelocateDescr = false

instance (env : AllocEnv) : Decidable (PtrfreeKind env) :=
  inferInstanceAs (Decidable (_ ∧ _))

def inUse (s : Heap) (h : Nat) : Bool :=
  (List.range (h + 1)).any fun n =>
    (s.hdrAt n).any fun hhdr => !hhdr.isFree && decide (h < n + objSzToBlocks hhdr.hbSz)

mutual

/-- What the callers of an operation see to: as for the block allocator, and the client
writes to blocks in use only. -/
def Allowed : Op → Vdb → Prop
  | .addToHeap h n, v => NewMemory v.heap h n
  | .allochblk env req _ collection after, v => Legal req ∧ PtrfreeKind env ∧ PtrfreeKind after ∧
      match allochblkBeforeCollect env fuel req v.heap with
      | some (none, s) => AllAllowed collection (v.onHeap cfg s)
      | _ => True
  | .freehblk h, v => (v.heap.hdrAt h).any fun hhdr => !hhdr.isFree
  | .reclaimGeneric h, v => (v.heap.hdrAt h).any fun hhdr => !hhdr.isFree
  | .write h, v => inUse v.heap h
  | _, _ => True

def AllAllowed : List Op → Vdb → Prop
  | [], _ => True
  | op :: ops, v => Allowed op v ∧
      match exec cfg fuel op v with
      | some w => AllAllowed ops w
      | none => True

end

mutual

def decAllowed : (op : Op) → (v : Vdb) → Decidable (Allowed cfg fuel op v)
  | .addToHeap h n, v => inferInstanceAs (Decidable (NewMemory v.heap h n))
  | .allochblk env req _ collection after, v =>
      @instDecidableAnd (Legal req) _ _ (@instDecidableAnd (PtrfreeKind env) _ _
        (@instDecidableAnd (PtrfreeKind after) _ _
          (match allochblkBeforeCollect env fuel req v.heap with
          | some (none, s) => decAllAllowed collection (v.onHeap cfg s)
          | none | some (some _, _) => instDecidableTrue)))
  | .freehblk h, v | .reclaimGeneric h, v =>
      inferInstanceAs (Decidable ((v.heap.hdrAt h).any (fun hhdr => !hhdr.isFree) = true))
  | .write h, v => inferInstanceAs (Decidable (inUse v.heap h = true))
  | .mergeUnmapped, _ | .unmapOld _, _ | .nextGc, _ | .readDirty _, _ => instDecidableTrue

def decAllAllowed : (ops : List Op) → (v : Vdb) → Decidable (AllAllowed cfg fuel ops v)
  | [], _ => instDecidableTrue
  | op :: ops, v =>
      @instDecidableAnd _ _ (decAllowed op v)
        (match exec cfg fuel op v with
        | some w => decAllAllowed ops w
        | none => instDecidableTrue)

end

instance (ops : List Op) (v : Vdb) : Decidable (AllAllowed cfg fuel ops v) := decAllAllowed cfg fuel ops v

mutual

def added : Op → Nat
  | .addToHeap _ n => n
  | .allochblk _ _ _ collection _ => addedAll collection
  | _ => 0

def addedAll : List Op → Nat
  | [] => 0
  | op :: ops => added op + addedAll ops

end

end Operations

section Invariant

variable {cfg : Config} {v w : Vdb} {s s' : Heap} {cells : Finset Nat} {off : Set Nat} {x : Nat}

structure BarrierBut (cfg : Config) (off : Set Nat) (v : Vdb) (cells : Finset Nat) : Prop where
  ok : Ok cells v.heap
  guarded : ∀ x, InPointerBlock v.heap x → x ∉ off →
    v.dirtyPages (cfg.phtHash x) = true ∨ v.writeProtected (cfg.page x) = true
  recorded : ∀ x, InPointerBlock v.heap x → x ∉ off → v.written x = true →
    v.dirtyPages (cfg.phtHash x) = true

abbrev Barrier (cfg : Config) (v : Vdb) (cells : Finset Nat) : Prop := BarrierBut cfg ∅ v cells

theorem barrier_init (cfg : Config) (hdrs : Nat → Hdr) : Barrier cfg (Vdb.init hdrs) ∅ where
  ok := ⟨_,heapOk_init hdrs⟩
  guarded x hx := by
    obtain ⟨n,hhdr,hn,_⟩ := hx
    cases hn
  recorded x hx := by
    obtain ⟨n,hhdr,hn,_⟩ := hx
    cases hn

def OldPointers (new : Set Nat) (s s' : Heap) : Prop :=
  ∀ n b, usedAt s' n = some b → b.hbDescr ≠ 0 → n ∉ new → usedAt s n = some b

theorem OldPointers.of_spares (h : Spares off s s') : OldPointers off s s' := by
  intro n b hb _ hn
  rw [← h.same n hn,hb]

theorem OldPointers.of_drops {env : AllocEnv} (hkind : PtrfreeKind env) (h : Drops env s s') :
    OldPointers ∅ s s' := by
  intro n b hb hdescr _
  rcases h n with hsame | ⟨_,gcNo,hdropped⟩
  · rw [← hsame,hb]
  · rw [hb] at hdropped
    cases hdropped
    refine absurd ?_ hdescr
    unfold freshHdr setupHdr
    simp [hkind.1,hkind.2]

theorem OldPointers.trans {t : Heap} (h : OldPointers ∅ s t) (h' : OldPointers off t s') :
    OldPointers off s s' := by
  intro n b hb hdescr hn
  exact h n b (h' n b hb hdescr hn) hdescr (by simp)

theorem OldPointers.inPointerBlock (h : OldPointers ∅ s s') (hx : InPointerBlock s' x) :
    InPointerBlock s x := by
  obtain ⟨n,b,hb,hdescr,hin⟩ := inPointerBlock_iff.mp hx
  exact inPointerBlock_iff.mpr ⟨n,b,h n b hb hdescr (by simp),hdescr,hin⟩

/-- The allocator has made no new blocks that may contain pointers outside `off`. -/
theorem BarrierBut.onHeap {cells' : Finset Nat} (h : Barrier cfg v cells) (hok : Ok cells' s')
    (hremaps : Remaps v.heap s')
    (hold : ∀ x, InPointerBlock s' x → x ∉ off → InPointerBlock v.heap x) :
    BarrierBut cfg off (v.onHeap cfg s') cells' where
  ok := hok
  guarded x hx hoff := by
    have hx' := hold x hx hoff
    rw [onHeap_of_inUse hremaps hx'.inUse]
    exact h.guarded x hx' (by simp)
  recorded x hx hoff := h.recorded x (hold x hx hoff) (by simp)

theorem BarrierBut.idle {cells' : Finset Nat} (h : Barrier cfg v cells) (hok : Ok cells' s')
    (hidle : Idle v.heap s') : Barrier cfg (v.onHeap cfg s') cells' :=
  h.onHeap hok hidle.remaps fun _ hx _ => (OldPointers.of_spares hidle.spares).inPointerBlock hx

theorem removeProtection_dirty {h nblocks : Nat} {ptrfree : Bool}
    (hremoves : (cfg.dontProtectPtrfree && ptrfree) = false) (hlo : cfg.hblkPageAligned h ≤ x)
    (hhi : x < cfg.pageAlignUp (h + nblocks)) (hx : ptrfree = true → ¬ (h ≤ x ∧ x < h + nblocks)) :
    (removeProtection cfg h nblocks ptrfree v).dirtyPages (cfg.phtHash x) = true := by
  rw [Pages.removeProtection,if_neg (by rw [hremoves]; decide)]
  apply dirtyLoop_of_mem
  · rw [List.mem_range'_1]
    omega
  · rw [or_eq_true,not_eq_true',not_eq_true',decide_eq_false_iff_not]
    cases hp : ptrfree with
    | false => exact .inl rfl
    | true => exact .inr (hx hp)

/-- `GC_remove_protection` restores the barrier for the block it is called for. -/
theorem BarrierBut.removeProtection (h nblocks : Nat) (ptrfree : Bool)
    (hv : BarrierBut cfg off v cells) (hoff : ∀ x ∈ off, h ≤ x ∧ x < h + nblocks)
    (hptrfree : ptrfree = true → ∀ x, h ≤ x → x < h + nblocks → ¬ InPointerBlock v.heap x) :
    Barrier cfg (removeProtection cfg h nblocks ptrfree v) cells := by
  by_cases hearly : (cfg.dontProtectPtrfree && ptrfree) = true
  · have hnew : ∀ x, InPointerBlock v.heap x → x ∉ off := fun x hx hmem =>
      hptrfree (Bool.and_eq_true _ _ ▸ hearly).2 x (hoff x hmem).1 (hoff x hmem).2 hx
    rw [Pages.removeProtection,if_pos hearly]
    exact ⟨hv.ok,fun x hx _ => hv.guarded x hx (hnew x hx),fun x hx _ => hv.recorded x hx (hnew x hx)⟩
  have hdirty : ∀ x, InPointerBlock v.heap x →
      cfg.hblkPageAligned h ≤ x → x < cfg.pageAlignUp (h + nblocks) →
      (Pages.removeProtection cfg h nblocks ptrfree v).dirtyPages (cfg.phtHash x) = true :=
    fun x hx hlo hhi => removeProtection_dirty (Bool.eq_false_iff.mpr hearly) hlo hhi fun hp hin =>
      hptrfree hp x hin.1 hin.2 hx
  have hout : ∀ x, ¬ (cfg.hblkPageAligned h ≤ x ∧ x < cfg.pageAlignUp (h + nblocks)) → x ∉ off := by
    intro x hx hmem
    have := hoff x hmem
    have := hblkPageAligned_le cfg h
    have := le_pageAlignUp cfg (h + nblocks)
    omega
  rw [Pages.removeProtection,if_neg hearly] at *
  refine ⟨hv.ok,fun x hx _ => ?_,fun x hx _ hwritten => ?_⟩
  · by_cases hin : cfg.hblkPageAligned h ≤ x ∧ x < cfg.pageAlignUp (h + nblocks)
    · exact .inl (hdirty x hx hin.1 hin.2)
    · rcases hv.guarded x hx (hout x hin) with hbit | hprot
      · exact .inl (dirtyLoop_mono hbit)
      · right
        rw [← hprot]
        exact mpProtect_of_not_mem hin
  · by_cases hin : cfg.hblkPageAligned h ≤ x ∧ x < cfg.pageAlignUp (h + nblocks)
    · exact hdirty x hx hin.1 hin.2
    · exact dirtyLoop_mono (hv.recorded x hx (hout x hin) hwritten)

theorem isPtrfree_spec (h : Ok cells s) {n : Nat} {b : Hdr} (hb : usedAt s n = some b)
    (hptrfree : isPtrfree s n = true) (hin : n ≤ x ∧ x < n + objSzToBlocks b.hbSz) :
    ¬ InPointerBlock s x := by
  obtain ⟨L,h⟩ := h
  intro hx
  obtain ⟨m,c,hc,hdescr,hm⟩ := inPointerBlock_iff.mp hx
  obtain rfl := usedAt_unique h.blocks hb hc hin hm
  obtain ⟨hhdr,hhdr',hused⟩ := bind_eq_some_iff.mp hc
  rw [isPtrfree,hhdr',any_some,beq_iff_eq] at hptrfree
  unfold used at hused
  split at hused
  · cases hused
  · cases hused
    exact hdescr hptrfree

theorem inUse_iff : inUse s x = true ↔ InUse s x := by
  unfold inUse
  rw [List.any_eq_true]
  constructor
  · rintro ⟨n,hn,hany⟩
    obtain ⟨hhdr,hhdr',hin⟩ := (any_eq_true _ _).mp hany
    rw [and_eq_true,not_eq_true',decide_eq_true_eq] at hin
    rw [List.mem_range] at hn
    refine ⟨n,unlinked hhdr,?_,by omega,hin.2⟩
    rw [usedAt,hhdr',bind_some,used,if_neg (by rw [hin.1]; decide)]
  · rintro ⟨n,b,hb,hle,hlt⟩
    obtain ⟨hhdr,hhdr',hused⟩ := bind_eq_some_iff.mp hb
    refine ⟨n,List.mem_range.mpr (by omega),?_⟩
    unfold used at hused
    split at hused
    · cases hused
    · rename_i hfree
      cases hused
      rw [hhdr',any_some,and_eq_true,decide_eq_true_eq]
      exact ⟨by simpa using hfree,hlt⟩

theorem BarrierBut.handOut {env : AllocEnv} {req : Request} {t : Heap} {h : Nat}
    (hv : Barrier cfg v cells) (hkind : PtrfreeKind env) (hok : Ok cells s) (hremaps : Remaps v.heap s)
    (hdrops : Drops env v.heap t) (halloc : Allocated env req t h s) :
    Barrier cfg (handOut cfg req v h s) cells := by
  obtain ⟨gcNo,hset⟩ := halloc.setUp
  have hblocks : divHblksz req.sizeNeeded = objSzToBlocks req.lbAdjusted := by
    rw [divHblksz,Request.sizeNeeded,Nat.mul_div_cancel _ (by decide)]
  have hold : OldPointers {h} v.heap s :=
    (OldPointers.of_drops hkind hdrops).trans (OldPointers.of_spares halloc.spares)
  unfold WriteBarrier.handOut
  rw [hblocks]
  have hnew : BarrierBut cfg {x | h ≤ x ∧ x < h + objSzToBlocks req.lbAdjusted} (v.onHeap cfg s) cells := by
    refine hv.onHeap hok hremaps fun x hx hout => ?_
    obtain ⟨n,b,hb,hdescr,hin⟩ := inPointerBlock_iff.mp hx
    refine inPointerBlock_iff.mpr ⟨n,b,hold n b hb hdescr fun hn => ?_,hdescr,hin⟩
    obtain rfl := Set.mem_singleton_iff.mp hn
    rw [hset] at hb
    cases hb
    exact hout hin
  apply hnew.removeProtection
  · exact fun x hx => hx
  · intro hptrfree x hlo hhi
    exact isPtrfree_spec hok hset hptrfree ⟨hlo,hhi⟩

theorem BarrierBut.finish {env : AllocEnv} {req : Request} {r : Option Nat × Heap}
    (hv : Barrier cfg v cells) (hkind : PtrfreeKind env) (hok : Ok cells r.2)
    (hout : Outcome env req v.heap r) : Barrier cfg (finish cfg req v r) cells := by
  obtain ⟨found,s⟩ := r
  obtain ⟨t,hsheds,hremaps,hfound⟩ := hout
  have hall := hsheds.remaps.trans (fun _ => hsheds.drops.inUse) hremaps
  cases found with
  | none =>
    obtain rfl : s = t := hfound
    exact hv.onHeap hok hall fun x hx _ => (OldPointers.of_drops hkind hsheds.drops).inPointerBlock hx
  | some h => exact hv.handOut hkind hok hall hsheds.drops hfound

theorem writeFaultHandler_eq {h : Nat} (hindex : v.heap.index h ≠ .nil) :
    writeFaultHandler cfg h v = some (removeProtection cfg h 1 false v) := by
  have hstop : cfg.pageAlignUp (h + 1) = cfg.hblkPageAligned h + cfg.pageHblks := by
    have hpos := cfg.pageHblks_pos
    unfold Config.pageAlignUp Config.hblkPageAligned hblkPageAligned
    rw [Nat.add_assoc,Nat.add_sub_cancel' hpos,Nat.add_div_right _ hpos,Nat.succ_mul]
  unfold writeFaultHandler removeProtection
  rw [hstop,Bool.and_false]
  dsimp only
  rw [Nat.add_sub_cancel_left]
  split
  · rename_i hnil
    exact absurd hnil hindex
  · rfl

theorem BarrierBut.write {h : Nat} (hv : Barrier cfg v cells) (hused : InUse v.heap h) :
    ∃ w, write cfg h v = some w ∧ Barrier cfg w cells := by
  unfold Pages.write faults
  split
  · have hindex : v.heap.index h ≠ .nil := by
      obtain ⟨L,hok⟩ := hv.ok
      exact InUse.index_ne_nil hok.blocks hused
    have hbit : (Pages.removeProtection cfg h 1 false v).dirtyPages (cfg.phtHash h) = true := by
      apply removeProtection_dirty (Bool.and_false _) (hblkPageAligned_le cfg h)
      · exact lt_of_lt_of_le (Nat.lt_succ_self h) (le_pageAlignUp cfg (h + 1))
      · simp
    have hfault := hv.removeProtection h 1 false (by simp) (by simp)
    rw [writeFaultHandler_eq hindex]
    refine ⟨_,rfl,hfault.ok,hfault.guarded,fun x hx _ hwritten => ?_⟩
    dsimp only at hwritten
    rw [Function.update_apply] at hwritten
    split at hwritten
    · rename_i heq
      rw [heq]
      exact hbit
    · exact hfault.recorded x hx (by simp) hwritten
  · rename_i hprot
    refine ⟨_,rfl,hv.ok,hv.guarded,fun x hx _ hwritten => ?_⟩
    dsimp only at hwritten hx ⊢
    rw [Function.update_apply] at hwritten
    split at hwritten
    · rename_i heq
      subst heq
      exact (hv.guarded x hx (by simp)).resolve_right hprot
    · exact hv.recorded x hx (by simp) hwritten

theorem BarrierBut.readDirty (fuel : Nat) (outputUnneeded : Bool) (hv : Barrier cfg v cells) :
    Returns (cells.card < fuel) (readDirty cfg fuel outputUnneeded v) fun w => Barrier cfg w cells := by
  obtain ⟨L,hok⟩ := hv.ok
  refine (protectHeap_spec hok).map fun prot hprot => ⟨⟨L,hok⟩,fun x hx _ => ?_,fun x _ _ hwritten => ?_⟩
  · exact .inr (hprot x hx)
  · cases hwritten

end Invariant

section Runs

variable {cfg : Config} {fuel : Nat} {v w : Vdb} {cells : Finset Nat}

abbrev Grown (cfg : Config) : Finset Nat → Nat → Vdb → Prop :=
  Block.Runs.Grown fun cells v => Barrier cfg v cells

theorem grown_of_barrier {m : Nat} (h : Barrier cfg v cells) : Grown cfg cells m v := ⟨cells,h,by omega⟩

theorem returns_kept {α : Type} {r : Option α} {f : α → Heap} {m : Nat} (hv : Barrier cfg v cells)
    (h : Returns (Enough cells fuel) r fun x => Kept cells v.heap (f x)) :
    Returns (Suffices (cells.card + m) fuel) (r.map fun x => v.onHeap cfg (f x)) (Grown cfg cells m) :=
  (h.mono (fun hs => hs.enough (by omega)) fun _ => id).map fun _ hx => grown_of_barrier (hv.idle hx.1 hx.2.idle)

mutual

theorem exec_barrier (fuel : Nat) (op : Op) (v : Vdb) (cells : Finset Nat) (h : Barrier cfg v cells)
    (hallowed : Allowed cfg fuel op v) :
    Returns (Suffices (cells.card + added op) fuel) (exec cfg fuel op v) (Grown cfg cells (added op)) := by
  cases op with
  | addToHeap a n =>
    rw [Allowed] at hallowed
    obtain ⟨s',cells',hs',hok,hcard,hidle,_⟩ := addToHeap_spec h.ok hallowed.1 hallowed.2
    have hkept := keptHblks_le a n
    rw [exec,hs']
    exact ⟨cells',h.idle hok hidle,by rw [hcard,added]; omega⟩
  | allochblk env req collects collection after =>
    rw [Allowed] at hallowed
    obtain ⟨hlegal,hkind,hafter,hcollection⟩ := hallowed
    rw [exec]
    split
    · exact grown_of_barrier h
    rename_i hno
    have hfits := sizeNeeded_lt (by simpa using hno)
    have hbefore := allochblkBeforeCollect_spec env fuel hlegal.sound hfits h.ok
    split
    · rename_i hnone
      rw [hnone] at hbefore
      exact fun hs => hbefore (hs.enough (by omega))
    · rename_i a s hfound
      rw [hfound] at hbefore
      exact grown_of_barrier (h.finish (r := (some a, s)) hkind hbefore.1 hbefore.2)
    · rename_i s heq
      rw [heq] at hbefore hcollection
      have hs : Barrier cfg (v.onHeap cfg s) cells := h.finish (r := (none, s)) hkind hbefore.1 hbefore.2
      split
      · have hrun := execAll_barrier fuel collection (v.onHeap cfg s) cells hs hcollection
        refine hrun.bind fun u hu => ?_
        obtain ⟨cells',hbar,hcard⟩ := hu
        exact ((allochblkFromFreeLists_spec after fuel hlegal.sound hfits _ hbar.ok).mono
          (fun hsuf => hsuf.enough hcard) fun _ => id).map
          fun r hr => ⟨cells',hbar.finish hafter hr.1 hr.2,hcard⟩
      · exact grown_of_barrier hs
  | freehblk a =>
    rw [Allowed] at hallowed
    obtain ⟨s',hs',hok,hspares,hunused,hremaps,_⟩ := freehblk_ok h.ok hallowed
    rw [exec,hs']
    refine grown_of_barrier (h.onHeap hok hremaps fun x hx _ => ?_)
    obtain ⟨n,b,hb,hdescr,hin⟩ := inPointerBlock_iff.mp hx
    refine inPointerBlock_iff.mpr ⟨n,b,OldPointers.of_spares hspares n b hb hdescr ?_,hdescr,hin⟩
    rintro rfl
    rw [hunused] at hb
    cases hb
  | mergeUnmapped =>
    rw [exec]
    exact returns_kept h ((mergeUnmapped_spec h.ok).mono id fun _ hr => hr.1)
  | unmapOld threshold =>
    rw [exec]
    exact returns_kept (f := id) h (unmapOld_spec threshold h.ok)
  | nextGc =>
    rw [exec]
    have hnext := nextGc_ok h.ok
    exact grown_of_barrier (h.idle hnext.1 hnext.2.idle)
  | reclaimGeneric a =>
    rw [Allowed,any_eq_true] at hallowed
    obtain ⟨hhdr,ha,hused⟩ := hallowed
    rw [not_eq_true'] at hused
    have hb : usedAt v.heap a = some (unlinked hhdr) := by
      rw [usedAt,ha,bind_some,used,if_neg (by rw [hused]; decide)]
    rw [exec]
    refine grown_of_barrier (h.removeProtection a 1 _ (by simp) fun hptrfree x hlo hhi => ?_)
    apply isPtrfree_spec h.ok hb hptrfree
    obtain ⟨L,hok⟩ := h.ok
    have hblk : blkAt v.heap a = some (blk hhdr) := by rw [blkAt,ha,map_some]
    have hpos : 0 < objSzToBlocks hhdr.hbSz := (hok.blocks.layout.blocks hblk).blocks_pos
    change a ≤ x ∧ x < a + objSzToBlocks hhdr.hbSz
    omega
  | write a =>
    rw [Allowed,inUse_iff] at hallowed
    obtain ⟨w,hw,hbar⟩ := h.write hallowed
    rw [exec,hw]
    exact grown_of_barrier hbar
  | readDirty outputUnneeded =>
    rw [exec]
    refine (h.readDirty fuel outputUnneeded).mono (fun hs => ?_) fun _ => grown_of_barrier
    have henough : Enough cells fuel := hs.enough (by omega)
    exact henough.card_lt

theorem execAll_barrier (fuel : Nat) (ops : List Op) (v : Vdb) (cells : Finset Nat)
    (h : Barrier cfg v cells) (hallowed : AllAllowed cfg fuel ops v) :
    Returns (Suffices (cells.card + addedAll ops) fuel) (execAll cfg fuel ops v)
      (Grown cfg cells (addedAll ops)) := by
  cases ops with
  | nil =>
    rw [execAll]
    exact grown_of_barrier h
  | cons op ops =>
    rw [AllAllowed] at hallowed
    rw [execAll,addedAll]
    refine returns_grown_bind (exec_barrier fuel op v cells h hallowed.1) fun w cells' hw hbar => ?_
    have hrest := hallowed.2
    rw [hw] at hrest
    exact execAll_barrier fuel ops w cells' hbar hrest

end

/-- In every run, an hblk of a block in use that may contain pointers is found dirty by the
next `GC_read_dirty` if it has been written to since the last one, and a write to it faults
unless its dirty bit is set. -/
theorem execAll_writeBarrier (cfg : Config) (hdrs : Nat → Hdr) (fuel : Nat) (ops : List Op)
    (hallowed : AllAllowed cfg fuel ops (Vdb.init hdrs)) :
    (∀ v, execAll cfg fuel ops (Vdb.init hdrs) = some v → ∀ x, InPointerBlock v.heap x →
      (v.written x = true → ∀ w, readDirty cfg fuel false v = some w → pageWasDirty cfg w x = true) ∧
      (v.dirtyPages (cfg.phtHash x) = false → faults cfg v x = true)) ∧
    ((addedAll ops + 1) ^ 2 ≤ fuel →
      ∃ v w, execAll cfg fuel ops (Vdb.init hdrs) = some v ∧ readDirty cfg fuel false v = some w) := by
  have hrun := execAll_barrier fuel ops (Vdb.init hdrs) ∅ (barrier_init cfg hdrs) hallowed
  rw [Finset.card_empty,Nat.zero_add] at hrun
  constructor
  · intro v hv x hx
    obtain ⟨cells,hbar,_⟩ := hrun.of_eq hv
    refine ⟨fun hwritten w hw => ?_,fun hclean => ?_⟩
    · obtain ⟨prot,_,rfl⟩ := map_eq_some_iff.mp hw
      unfold pageWasDirty
      split
      · rfl
      · exact hbar.recorded x hx (by simp) hwritten
    · exact (hbar.guarded x hx (by simp)).resolve_left (by rw [hclean]; decide)
  · intro hfuel
    rw [Nat.pow_two] at hfuel
    obtain ⟨v,hv,cells,hbar,hcard⟩ := hrun.some_of hfuel
    rw [Finset.card_empty,Nat.zero_add] at hcard
    have hread := hbar.readDirty fuel false
    obtain ⟨w,hw,_⟩ := hread.some_of (Suffices.enough hfuel hcard).card_lt
    exact ⟨v,w,hv,hw⟩

def pairConfig : Config := ⟨2, by decide, 1024, true⟩

def singleConfig : Config := ⟨1, by decide, 1024, true⟩

/-- `GC_obj_kinds` as it is initialized: normal objects have a length descriptor. -/
def kindsEnv : AllocEnv :=
  { quietEnv with kinds := fun kind => ⟨0, kind == normal, false, false⟩ }

def writeRun : List Op := [
  .addToHeap 16 8,
  .allochblk kindsEnv ⟨8192, normal, false, 0⟩ false [] kindsEnv,
  .readDirty true,
  .write 17]

theorem execAll_writeBarrier_writeRun : AllAllowed pairConfig 200 writeRun (Vdb.init fun _ => blankHdr) ∧
    ∃ v w, execAll pairConfig 200 writeRun (Vdb.init fun _ => blankHdr) = some v ∧
      InPointerBlock v.heap 17 ∧ v.written 17 = true ∧ readDirty pairConfig 200 false v = some w ∧
      pageWasDirty pairConfig w 17 = true := by
  have hallowed : AllAllowed pairConfig 200 writeRun (Vdb.init fun _ => blankHdr) := by decide +kernel
  have hsound := execAll_writeBarrier pairConfig (fun _ => blankHdr) 200 writeRun hallowed
  obtain ⟨v,w,hv,hw⟩ := hsound.2 (by decide)
  have hstate : (execAll pairConfig 200 writeRun (Vdb.init fun _ => blankHdr)).any (fun v =>
      v.written 17 && (v.heap.hdrAt 16).any fun hhdr =>
        !hhdr.isFree && hhdr.hbDescr != 0 && decide (17 < 16 + objSzToBlocks hhdr.hbSz)) = true := by
    decide +kernel
  rw [hv,any_some,and_eq_true,any_eq_true] at hstate
  obtain ⟨hwritten,hhdr,hblk,hin⟩ := hstate
  rw [and_eq_true,and_eq_true,not_eq_true',bne_iff_ne,decide_eq_true_eq] at hin
  have hx : InPointerBlock v.heap 17 := ⟨16,hhdr,hblk,hin.1.1,hin.1.2,by decide,hin.2⟩
  exact ⟨hallowed,v,w,hv,hx,hwritten,hw,(hsound.1 v hv 17 hx).1 hwritten w hw⟩

/-- A pointer-free block: its dirty bit is not set and a write to it does not fault. A block
with pointers: it has been written to, and `GC_read_dirty` is told that its output is unneeded. -/
theorem pointerFree_unneeded_clean :
    (AllAllowed singleConfig 200
        [.addToHeap 16 8, .allochblk kindsEnv ⟨4096, ptrfree, false, 0⟩ false [] kindsEnv, .write 16]
        (Vdb.init fun _ => blankHdr) ∧
      (execAll singleConfig 200
        [.addToHeap 16 8, .allochblk kindsEnv ⟨4096, ptrfree, false, 0⟩ false [] kindsEnv]
        (Vdb.init fun _ => blankHdr)).any
        (fun v => !v.dirtyPages (singleConfig.phtHash 16) && !faults singleConfig v 16) = true) ∧
    (AllAllowed singleConfig 200
        [.addToHeap 16 8, .allochblk kindsEnv ⟨4096, normal, false, 0⟩ false [] kindsEnv, .write 16]
        (Vdb.init fun _ => blankHdr) ∧
      (execAll singleConfig 200
        [.addToHeap 16 8, .allochblk kindsEnv ⟨4096, normal, false, 0⟩ false [] kindsEnv, .write 16,
          .readDirty true]
        (Vdb.init fun _ => blankHdr)).any (fun v => !pageWasDirty singleConfig v 16) = true) := by
  decide +kernel

end Runs

end GcUtil.DirtyBits.WriteBarrier
