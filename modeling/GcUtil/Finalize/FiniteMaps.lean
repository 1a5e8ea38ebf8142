import GcUtil.Finalize.Registration

/-! The tables of `finalize.c` over whole runs. The link tables are finite maps in every
run. The finalizer table is one as long as no finalizer is registered for an object whose
finalize-when-unreachable entry is queued: such an entry is put back without a look at the
table. -/
namespace GcUtil.Finalize.FiniteMaps
open Basic Tables Collection Registration Library.ChainedTable Function List

variable {M : Type} {K : Marker M} {f f' f'' : Fnlz} {s s' : State} {q : Nat}

section Preparing

/-- What every step keeps: tables that have memory keep it, and no key is claimed anew. -/
structure Safe (f f' : Fnlz) : Prop where
  ok : TablesOk f'
  claimed : (claimed f'.fo f'.finalizeNow).Subperm (claimed f.fo f.finalizeNow)
  dlHead : f.dl.head ≠ none → f'.dl.head ≠ none
  llHead : f.ll.head ≠ none → f'.ll.head ≠ none
  foHead : f.fo.head ≠ none → f'.fo.head ≠ none

/-- What allocations and the growth of tables keep: a marked object is not enqueued either. -/
structure Kept (K : Marker M) (ms : List M) (f f' : Fnlz) : Prop extends Safe f f' where
  waits : ∀ q, (∀ m ∈ ms, K.isMarked m q = true) → hidePointer q ∈ waiting f'.finalizeNow →
    hidePointer q ∈ waiting f.finalizeNow

theorem Safe.refl (h : TablesOk f) : Safe f f := ⟨h,List.Subperm.refl _,id,id,id⟩

theorem Safe.trans (h : Safe f f') (h' : Safe f' f'') : Safe f f'' where
  ok := h'.ok
  claimed := h'.claimed.trans h.claimed
  dlHead hne := h'.dlHead (h.dlHead hne)
  llHead hne := h'.llHead (h.llHead hne)
  foHead hne := h'.foHead (h.foHead hne)

theorem Safe.settings (h : TablesOk f) (refs : List Nat) (java need : Bool) :
    Safe f { f with toggleRefs := refs, javaFinalization := java, needUnreachableFinalization := need } :=
  ⟨⟨h.dl,h.ll,h.fo,h.queued⟩,List.Subperm.refl _,id,id,id⟩

theorem Safe.once (h : Safe f f') (honce : Once f) : Once f' := nodup_of_subperm h.claimed honce

theorem Kept.refl (h : TablesOk f) : Kept K [] f f := { Safe.refl h with waits := fun _ _ => id }

theorem Kept.trans {ms ms' : List M} (h : Kept K ms f f') (h' : Kept K ms' f' f'') :
    Kept K (ms ++ ms') f f'' :=
  { h.toSafe.trans h'.toSafe with
    waits := fun q hm hq => h.waits q (fun m hmem => hm m (mem_append_left _ hmem))
      (h'.waits q (fun m hmem => hm m (mem_append_right _ hmem)) hq) }

theorem Kept.mono {ms ms' : List M} (h : Kept K ms f f') (hsub : ms ⊆ ms') : Kept K ms' f f' :=
  { h with waits := fun q hm => h.waits q fun m hmem => hm m (hsub hmem) }

theorem finalize_kept (h : TablesOk f) (m : M) : Kept K [m] f (finalize K f m).2 := by
  have hfin := finalize_finalized (K := K) h m
  exact
    { ok := hfin.ok
      claimed := hfin.claimed
      waits := fun q hm => finalize_waiting (hm m (mem_singleton_self m))
      dlHead := fun hne => by rwa [Ne,hfin.dl.1]
      llHead := fun hne => by rwa [Ne,hfin.ll.1]
      foHead := fun hne => by rwa [Ne,hfin.fo.1] }

theorem collect_kept (h : TablesOk f) (ms : List M) : Kept K ms f (collect K f ms) := by
  induction ms generalizing f with
  | nil => exact Kept.refl h
  | cons m ms ih =>
    have hfirst := finalize_kept (K := K) h m
    exact hfirst.trans (ih hfirst.ok)

theorem collect_finalized (h : TablesOk f) (ms : List M) : Finalized f (collect K f ms) := by
  induction ms generalizing f with
  | nil => exact Finalized.refl h
  | cons m ms ih =>
    have hfirst := finalize_finalized (K := K) h m
    exact hfirst.trans (ih hfirst.ok)

structure Lawful {ε : Type} [HashChainEntry ε] (K : Marker M) (ref : TableRef ε) : Prop where
  get_set : ∀ t f, ref.get (ref.set t f) = t
  chained : ∀ f, TablesOk f → (ref.get f).Chained
  rehash : ∀ f, TablesOk f → Kept K [] f (ref.set (ref.get f).rehash f)
  shape : ∀ f f', Finalized f f' → (ref.get f').SameShape (ref.get f)

variable {ε : Type} [HashChainEntry ε] {ref : TableRef ε} {isLong : Bool} {g : Growth M} {a : Allocation M}

theorem tablesOk_links (isLong : Bool) (h : TablesOk f) : ((linkTable isLong).get f).WellFormed := by
  cases isLong
  · exact h.dl
  · exact h.ll

theorem tablesOk_setLinks (isLong : Bool) (h : TablesOk f) {t : HashTbl DisappearingLink} (ht : t.WellFormed) :
    TablesOk ((linkTable isLong).set t f) := by
  cases isLong
  · exact { h with dl := ht }
  · exact { h with ll := ht }

theorem setLinks_safe (h : TablesOk f) {t : HashTbl DisappearingLink} (ht : t.WellFormed)
    (hhead : t.head ≠ none) : Safe f ((linkTable isLong).set t f) := by
  have hok := tablesOk_setLinks isLong h ht
  cases isLong
  · exact { Safe.refl h with ok := hok, dlHead := fun _ => hhead }
  · exact { Safe.refl h with ok := hok, llHead := fun _ => hhead }

theorem setFo_safe (h : TablesOk f) {t : HashTbl FinalizableObject} (ht : t.Chained) (hhead : t.head ≠ none)
    (hclaimed : (claimed t f.finalizeNow).Subperm (claimed f.fo f.finalizeNow)) :
    Safe f { f with fo := t } :=
  { Safe.refl h with
    ok := { h with fo := ht, queued := fun _ => hhead }
    claimed := hclaimed
    foHead := fun _ => hhead }

theorem linkTable_lawful (K : Marker M) (isLong : Bool) : Lawful K (linkTable isLong) where
  get_set t f := by cases isLong <;> rfl
  chained f h := (tablesOk_links isLong h).toChained
  rehash f h :=
    { setLinks_safe h (tablesOk_links isLong h).rehash_map.1 nofun with
      waits := fun q _ hq => by
        cases isLong
        · exact hq
        · exact hq }
  shape f f' h := by
    cases isLong
    · exact h.dl
    · exact h.ll

theorem foTable_lawful (K : Marker M) : Lawful K foTable where
  get_set t f := rfl
  chained f h := h.fo
  rehash f h := by
    obtain ⟨hchained,hperm⟩ := h.fo.rehash
    exact
      { setFo_safe h hchained nofun ((hperm.map _).append_right _).subperm with
        waits := fun _ _ => id }
  shape f f' h := h.fo

theorem enlarge_kept (hl : Lawful K ref) (h : TablesOk f) (he : enlarge K ref a f = some f') :
    Kept K a.collections f f' ∧ (ref.get f').head ≠ none := by
  have hcollect := collect_kept (K := K) h a.collections
  unfold enlarge at he
  dsimp only at he
  split at he
  · cases he
    refine ⟨?_,?_⟩
    · exact (hcollect.trans (hl.rehash _ hcollect.ok)).mono (by simp)
    · rw [hl.get_set]
      nofun
  · split at he
    · cases he
    · next hhead =>
      cases he
      exact ⟨hcollect,fun hnone => hhead (by simp [hnone])⟩

def growthCollections (g : Growth M) : List M := g.policy.toList ++ g.alloc.collections

theorem growTable_kept (hl : Lawful K ref) (h : TablesOk f) (he : growTable K ref g f = some f') :
    Kept K (growthCollections g) f f' ∧ (ref.get f').head ≠ none := by
  unfold growTable at he
  unfold growthCollections
  split at he
  · next hpolicy =>
    obtain ⟨hkept,hhead⟩ := enlarge_kept hl h he
    exact ⟨hkept.mono (by simp),hhead⟩
  · next m hpolicy =>
    rw [hpolicy]
    split at he
    · obtain ⟨hkept,hhead⟩ := enlarge_kept hl h he
      exact ⟨hkept.mono (by simp),hhead⟩
    · next hlog =>
      have hfirst := finalize_kept (K := K) h m
      dsimp only at he
      split at he
      · cases he
        refine ⟨hfirst.mono (by simp),?_⟩
        rw [Ne,(hl.shape _ _ (finalize_finalized h m)).1]
        intro hnone
        rw [(hl.chained f h).fresh hnone] at hlog
        exact hlog (by decide)
      · obtain ⟨hkept,hhead⟩ := enlarge_kept hl hfirst.ok he
        exact ⟨hfirst.trans hkept,hhead⟩

theorem ensureTable_kept (hl : Lawful K ref) (h : TablesOk f) (he : ensureTable K ref g f = some f') :
    Kept K (growthCollections g) f f' ∧ (ref.get f').head ≠ none := by
  unfold ensureTable at he
  split at he
  · exact growTable_kept hl h he
  · next hroom =>
    cases he
    rw [not_or] at hroom
    exact ⟨(Kept.refl h).mono (by simp),fun hnone => hroom.1 (by simp [hnone])⟩

end Preparing

section Maps

def links (t : HashTbl DisappearingLink) (link : Nat) : Option Nat :=
  (t.find link).map fun e => revealPointer e.hiddenObj

def finalizers (t : HashTbl FinalizableObject) (obj : Nat) : Option (Nat × Nat × MarkProc) :=
  (t.find obj).map fun e => (e.fn, e.clientData, e.markProc)

def registerSpec (map : Nat → Option Nat) (link obj : Nat) : Code × (Nat → Option Nat) :=
  (if (map link).isSome then .duplicate else .success, Function.update map link (some obj))

def unregisterSpec (map : Nat → Option Nat) (link : Nat) : Bool × (Nat → Option Nat) :=
  ((map link).isSome, Function.update map link none)

def moveSpec (map : Nat → Option Nat) (link newLink : Nat) : Code × (Nat → Option Nat) :=
  if map link = none then (.notFound, map)
  else if link = newLink then (.success, map)
  else if (map newLink).isSome then (.duplicate, map)
  else (.success, Function.update (Function.update map link none) newLink (map link))

variable {link obj : Nat} {t t' : HashTbl DisappearingLink}

theorem links_update {e : Option DisappearingLink} (h : t'.find = update t.find link e) :
    links t' = update (links t) link (e.map fun e => revealPointer e.hiddenObj) := by
  funext k
  rw [links,h,update_apply,update_apply]
  split <;> rfl

theorem links_eq_none : links t link = none ↔ t.find link = none := by
  simp [links]

/-- What the registration of a link comes to, from the tables `f` that the growth of the table
leaves to the tables `f'`. -/
def LinkRegistered (K : Marker M) (isLong : Bool) (link obj : Nat) (a : Allocation M) (f : Fnlz) (r : Ret)
    (f' : Fnlz) : Prop :=
  let map := fun f => links ((linkTable isLong).get f)
  if (map f link).isSome then r = .code .duplicate ∧ map f' = Function.update (map f) link (some obj)
  else if a.ok then
    r = .code .success ∧ map f' = Function.update (map (collect K f a.collections)) link (some obj)
  else r = .pending ∧ map f' = map (collect K f a.collections)

theorem finalizers_update {t t' : HashTbl FinalizableObject} {e : Option FinalizableObject}
    (h : t'.find = update t.find obj e) :
    finalizers t' = update (finalizers t) obj (e.map fun e => (e.fn, e.clientData, e.markProc)) := by
  funext k
  rw [finalizers,h,update_apply,update_apply]
  split <;> rfl

/-- What the registration of a finalizer comes to, from the tables `f` that the growth of the
table leaves to the tables `f'`. -/
def FinalizerRegistered (K : Marker M) (obj fn cd : Nat) (mp : MarkProc) (hbSz : Option Nat)
    (a : Allocation M) (f : Fnlz) (r : Ret) (f' : Fnlz) : Prop :=
  match finalizers f.fo obj with
  | some old =>
      r = .previous old.1 old.2.1 ∧
        finalizers f'.fo = Function.update (finalizers f.fo) obj (if fn = 0 then none else some (fn, cd, mp))
  | none =>
      if fn = 0 ∨ hbSz = none then r = .previous 0 0 ∧ f' = f
      else if a.ok then
        r = .previous 0 0 ∧ finalizers f'.fo =
          Function.update (finalizers (collect K f a.collections).fo) obj (some (fn, cd, mp))
      else r = .pending ∧ f' = collect K f a.collections

end Maps

section Steps

variable {isLong : Bool} {link newLink obj fn cd objectSz : Nat} {mp : MarkProc} {hbSz : Option Nat}
  {g : Growth M} {a : Allocation M} {r : Ret} {memory : Bool}

theorem linkTable_head (isLong : Bool) (h : Safe f f') (hhead : ((linkTable isLong).get f).head ≠ none) :
    ((linkTable isLong).get f').head ≠ none := by
  cases isLong
  · exact h.dlHead hhead
  · exact h.llHead hhead

theorem linkTable_get_set (isLong : Bool) (t : HashTbl DisappearingLink) (f : Fnlz) :
    (linkTable isLong).get ((linkTable isLong).set t f) = t := by
  cases isLong <;> rfl

theorem finalized_find (isLong : Bool) (h : TablesOk f) (hfin : Finalized f f') {k : Nat}
    {e : DisappearingLink} (hfind : ((linkTable isLong).get f').find k = some e) :
    ((linkTable isLong).get f).find k = some e := by
  apply (tablesOk_links isLong h).find_of_sublist (tablesOk_links isLong hfin.ok) _ hfind
  cases isLong
  · exact hfin.dlSublist
  · exact hfin.llSublist

theorem putLink_spec (link obj : Nat) (h : TablesOk f) (hhead : ((linkTable isLong).get f).head ≠ none)
    (hfind : ((linkTable isLong).get f).find link = none) :
    let t := ((linkTable isLong).get f).insertAt (hash2 link ((linkTable isLong).get f).logSize)
      ⟨hidePointer link,hidePointer obj⟩
    Safe f ((linkTable isLong).set t f) ∧
      links t = update (links ((linkTable isLong).get f)) link (some obj) := by
  obtain ⟨hwf,hmap⟩ := (tablesOk_links isLong h).insertAt_map
    (e := ⟨hidePointer link,hidePointer obj⟩) hhead rfl hfind
  refine ⟨setLinks_safe h hwf ?_,?_⟩
  · simpa [HashTbl.insertAt,HashTbl.setChain] using hhead
  · rw [links_update hmap]
    simp

theorem rewriteLink_spec {t : HashTbl DisappearingLink} (h : TablesOk f)
    (hr : ((linkTable isLong).get f).rewriteKey link (fun e => { e with hiddenObj := hidePointer obj }) = some t) :
    Safe f ((linkTable isLong).set t f) ∧ (links ((linkTable isLong).get f) link).isSome ∧
      links t = update (links ((linkTable isLong).get f)) link (some obj) := by
  have hwf := tablesOk_links isLong h
  cases hfind : ((linkTable isLong).get f).find link with
  | none =>
    rw [(hwf.rewriteKey_eq_none _).mpr (hwf.find_eq_none.mp hfind)] at hr
    cases hr
  | some e =>
    obtain ⟨t',ht',hwf',hshape,_,hmap⟩ := hwf.rewriteKey_map
      (g := fun e => { e with hiddenObj := hidePointer obj }) (fun _ => rfl) hfind
    rw [hr] at ht'
    cases ht'
    refine ⟨setLinks_safe h hwf' ?_,by simp [links,hfind],?_⟩
    · rw [Ne,hshape.1]
      exact HashTbl.head_of_mem_chain (List.mem_of_find?_eq_some hfind)
    · rw [links_update hmap]
      simp

theorem rewriteLink_none (h : TablesOk f)
    (hr : ((linkTable isLong).get f).rewriteKey link (fun e => { e with hiddenObj := hidePointer obj }) = none) :
    ((linkTable isLong).get f).find link = none := by
  have hwf := tablesOk_links isLong h
  exact hwf.find_eq_none.mpr ((hwf.rewriteKey_eq_none _).mp hr)

def Ready (f : Fnlz) : Pending → Prop
  | .link isLong _ _ => ((linkTable isLong).get f).head ≠ none
  | .finalizer .. => f.fo.head ≠ none

structure Inv (s : State) : Prop where
  tables : TablesOk s.fnlz
  ready : ∀ p ∈ s.pending, Ready s.fnlz p

theorem Ready.mono {p : Pending} (h : Safe f f') (hp : Ready f p) : Ready f' p := by
  cases p with
  | link isLong link obj => exact linkTable_head isLong h hp
  | finalizer => exact h.foHead hp

theorem Inv.of_safe (h : Inv s) (hsafe : Safe s.fnlz f') (hsub : s'.pending ⊆ s.pending) (hf : s'.fnlz = f') :
    Inv s' := by
  subst hf
  exact ⟨hsafe.ok,fun p hp => Ready.mono hsafe (h.ready p (hsub hp))⟩

theorem registerLink_spec (h : Inv s)
    (he : registerDisappearingLinkInner K isLong link obj g a s = some (r, s')) :
    Safe s.fnlz s'.fnlz ∧ Inv s' ∧ (s.findLeak = false →
      ∃ f, ensureTable K (linkTable isLong) g s.fnlz = some f ∧
        LinkRegistered K isLong link obj a f r s'.fnlz) := by
  unfold registerDisappearingLinkInner at he
  dsimp only at he
  split at he
  · next hleak =>
    cases he
    exact ⟨Safe.refl h.tables,h,fun hno => by simp [hno] at hleak⟩
  · split at he
    · cases he
    · next f1 hf1 =>
      obtain ⟨hkept,hhead⟩ := ensureTable_kept (linkTable_lawful K isLong) h.tables hf1
      split at he
      · next t ht =>
        cases he
        obtain ⟨hput,hsome,hmap⟩ := rewriteLink_spec hkept.ok ht
        have hsafe := hkept.toSafe.trans hput
        refine ⟨hsafe,h.of_safe hsafe (List.Subset.refl _) rfl,fun _ => ⟨f1,hf1,?_⟩⟩
        simp only [LinkRegistered,if_pos hsome,linkTable_get_set]
        exact ⟨trivial,hmap⟩
      · next hnone =>
        have hold := rewriteLink_none hkept.ok hnone
        have hmiss : ¬ (links ((linkTable isLong).get f1) link).isSome := by
          simp [links_eq_none.mpr hold]
        have hfin := collect_finalized (K := K) hkept.ok a.collections
        have hcollect := collect_kept (K := K) hkept.ok a.collections
        have hsafe := hkept.toSafe.trans hcollect.toSafe
        have hhead' := linkTable_head isLong hcollect.toSafe hhead
        split at he
        · next hok =>
          cases he
          have hfind : ((linkTable isLong).get (collect K f1 a.collections)).find link = none := by
            by_contra hne
            obtain ⟨e,hfound⟩ := Option.ne_none_iff_exists'.mp hne
            rw [finalized_find isLong hkept.ok hfin hfound] at hold
            cases hold
          obtain ⟨hput,hmap⟩ := putLink_spec link obj hcollect.ok hhead' hfind
          rw [((linkTable_lawful K isLong).shape _ _ hfin).2] at hput hmap
          have hsafe := hsafe.trans hput
          refine ⟨hsafe,h.of_safe hsafe (List.Subset.refl _) rfl,fun _ => ⟨f1,hf1,?_⟩⟩
          simp only [LinkRegistered,if_neg hmiss,if_pos hok,linkTable_get_set]
          exact ⟨trivial,hmap⟩
        · next hok =>
          cases he
          refine ⟨hsafe,⟨hsafe.ok,fun p hp => ?_⟩,fun _ => ⟨f1,hf1,?_⟩⟩
          · rcases mem_append.mp hp with hp | hp
            · exact Ready.mono hsafe (h.ready p hp)
            · rw [mem_singleton.mp hp]
              exact hhead'
          · simp only [LinkRegistered,if_neg hmiss,if_neg hok,and_self]

theorem resumeLink_spec (link obj : Nat) (memory : Bool) (h : TablesOk f)
    (hhead : ((linkTable isLong).get f).head ≠ none) :
    let r := resumeLink isLong link obj memory f
    let spec := registerSpec (links ((linkTable isLong).get f)) link obj
    Safe f r.2 ∧ (memory = true → r.1 = .code spec.1 ∧ links ((linkTable isLong).get r.2) = spec.2) := by
  unfold resumeLink registerSpec
  dsimp only
  split
  · split
    · next t ht =>
      obtain ⟨hsafe,hsome,hmap⟩ := rewriteLink_spec h ht
      rw [if_pos hsome,linkTable_get_set]
      exact ⟨hsafe,fun _ => ⟨rfl,hmap⟩⟩
    · next hnone =>
      have hfind := rewriteLink_none h hnone
      obtain ⟨hsafe,hmap⟩ := putLink_spec link obj h hhead hfind
      rw [if_neg (by simp [links_eq_none.mpr hfind]),linkTable_get_set]
      exact ⟨hsafe,fun _ => ⟨rfl,hmap⟩⟩
  · exact ⟨Safe.refl h,fun hmemory => by contradiction⟩

theorem unregisterLink_spec (h : TablesOk f) :
    let r := unregisterDisappearingLink isLong link f
    Safe f r.2 ∧ (link % alignment = 0 →
      (r.1, links ((linkTable isLong).get r.2)) = unregisterSpec (links ((linkTable isLong).get f)) link) := by
  have hwf := tablesOk_links isLong h
  unfold unregisterDisappearingLink unregisterDisappearingLinkInner unregisterSpec
  dsimp only
  split
  · next hodd => exact ⟨Safe.refl h,fun halign => absurd halign hodd⟩
  · split
    · next hnone =>
      have hfind := links_eq_none.mpr (hwf.unlinkKey_find.mp hnone)
      rw [hfind,update_eq_self_iff.mpr hfind.symm]
      exact ⟨Safe.refl h,fun _ => rfl⟩
    · next e t hu =>
      obtain ⟨hfind,hwf',hmap⟩ := hwf.unlinkKey_map hu
      refine ⟨setLinks_safe h hwf' (hwf.toChained.unlinkKey hu).2.2.1,fun _ => ?_⟩
      rw [linkTable_get_set,links_update hmap]
      simp [links,hfind]

theorem moveLinkInner_spec (link newLink : Nat) (h : TablesOk f) :
    let r := moveDisappearingLinkInner isLong link newLink f
    Safe f r.2 ∧
      (r.1, links ((linkTable isLong).get r.2)) = moveSpec (links ((linkTable isLong).get f)) link newLink := by
  have hwf := tablesOk_links isLong h
  unfold moveDisappearingLinkInner moveSpec
  dsimp only
  split
  · next hnone =>
    rw [if_pos (links_eq_none.mpr (hwf.unlinkKey_find.mp hnone))]
    exact ⟨Safe.refl h,rfl⟩
  · next e t hu =>
    obtain ⟨hfind,_,_⟩ := hwf.unlinkKey_map hu
    have hsome : links ((linkTable isLong).get f) link ≠ none := by simp [links,hfind]
    rw [if_neg hsome]
    split
    · exact ⟨Safe.refl h,rfl⟩
    · next hne =>
      have hiff : (links ((linkTable isLong).get f) newLink).isSome =
          (((linkTable isLong).get f).find newLink).isSome := by simp [links]
      rw [hiff]
      split
      · exact ⟨Safe.refl h,rfl⟩
      · next hnew =>
        obtain ⟨_,hshape,hhead,_⟩ := hwf.toChained.unlinkKey hu
        obtain ⟨hwf',hmap⟩ := hwf.move_map hu hne (Option.not_isSome_iff_eq_none.mp hnew)
          (x := { e with hiddenLink := hidePointer newLink }) rfl
        rw [linkTable_get_set,← hshape.2]
        refine ⟨setLinks_safe h hwf' (by simpa [HashTbl.setChain] using hhead),?_⟩
        simp only [Prod.mk.injEq,true_and]
        funext k
        rw [links,hmap]
        by_cases hk : k = newLink
        · simp [hk,links,hfind]
        · by_cases hl : k = link
          · simp [hl,hne]
          · simp [hk,hl,links]

theorem moveLink_safe {c : Code} (h : TablesOk f) (hm : moveDisappearingLink isLong link newLink f = some (c, f')) :
    Safe f f' := by
  unfold moveDisappearingLink at hm
  split at hm
  · cases hm
  · split at hm
    · cases hm
      exact Safe.refl h
    · have hf' : (moveDisappearingLinkInner isLong link newLink f).2 = f' :=
        congrArg Prod.snd (Option.some.inj hm)
      rw [← hf']
      exact (moveLinkInner_spec link newLink h).1

theorem replaceFinalizer_safe {t : HashTbl FinalizableObject} (h : TablesOk f)
    (hr : replaceFinalizer obj fn cd mp f.fo = some t) : Safe f { f with fo := t } := by
  unfold replaceFinalizer at hr
  split at hr
  · obtain ⟨⟨e,t'⟩,hu,rfl⟩ := Option.map_eq_some_iff.mp hr
    obtain ⟨_,_,hhead,hentries,hperm,hchained⟩ := h.fo.unlinkKey hu
    rw [← hentries] at hchained
    have hsub : (t'.all.map HashChainEntry.hiddenKey).Subperm (f.fo.all.map HashChainEntry.hiddenKey) := by
      apply List.Subperm.trans _ (hperm.map HashChainEntry.hiddenKey).symm.subperm
      exact (sublist_cons_self _ _).subperm
    exact setFo_safe h hchained hhead (List.Subperm.append hsub (List.Subperm.refl _))
  · have hkeep : ∀ e : FinalizableObject, HashChainEntry.hiddenKey
        { e with fn := fn, clientData := cd, markProc := mp } = HashChainEntry.hiddenKey e := fun _ => rfl
    obtain ⟨hchained,hshape,e,rest,hkey,hold,hnew⟩ := h.fo.rewriteKey hkeep hr
    have hperm : (t.all.map HashChainEntry.hiddenKey).Perm (f.fo.all.map HashChainEntry.hiddenKey) :=
      (hnew.map HashChainEntry.hiddenKey).trans (hold.map HashChainEntry.hiddenKey).symm
    apply setFo_safe h hchained _ (hperm.append_right _).subperm
    rw [Ne,hshape.1]
    intro hnone
    rw [HashTbl.all_of_head hnone] at hold
    exact cons_ne_nil _ _ (nil_perm.mp hold)

theorem replaceFinalizer_none (h : TablesOk f) (hr : replaceFinalizer obj fn cd mp f.fo = none) :
    ∀ e ∈ f.fo.all, HashChainEntry.hiddenKey e ≠ hidePointer obj := by
  unfold replaceFinalizer at hr
  split at hr
  · exact h.fo.unlinkKey_eq_none.mp (Option.map_eq_none_iff.mp hr)
  · exact (h.fo.rewriteKey_eq_none _).mp hr

theorem insertFinalizer_spec (obj fn cd : Nat) (mp : MarkProc) (objectSz : Nat) (h : TablesOk f) (hhead : f.fo.head ≠ none) :
    let f' := { f with fo := f.fo.insertAt (hash2 obj f.fo.logSize) (newFinalizer obj fn cd mp objectSz) }
    TablesOk f' ∧ f'.fo.head ≠ none ∧
      (claimed f'.fo f'.finalizeNow).Perm (hidePointer obj :: claimed f.fo f.finalizeNow) := by
  intro f'
  obtain ⟨hchained,hperm⟩ := h.fo.insertAt (e := newFinalizer obj fn cd mp objectSz) hhead rfl
  have hhead' : f'.fo.head ≠ none := by simpa [f',HashTbl.insertAt,HashTbl.setChain] using hhead
  refine ⟨{ h with fo := hchained, queued := fun _ => hhead' },hhead',?_⟩
  exact (hperm.map HashChainEntry.hiddenKey).append_right _

theorem replaceFinalizer_map {fn cd : Nat} {mp : MarkProc} {t t' : HashTbl FinalizableObject} (h : t.WellFormed)
    (hr : replaceFinalizer obj fn cd mp t = some t') :
    ∃ e, t.find obj = some e ∧
      finalizers t' = update (finalizers t) obj (if fn = 0 then none else some (fn, cd, mp)) := by
  unfold replaceFinalizer at hr
  split at hr
  · next hfn =>
    obtain ⟨⟨e,t1⟩,hu,rfl⟩ := Option.map_eq_some_iff.mp hr
    obtain ⟨hfind,_,hmap⟩ := h.unlinkKey_map hu
    refine ⟨e,hfind,?_⟩
    rw [finalizers_update hmap,if_pos hfn]
    rfl
  · next hfn =>
    cases hfind : t.find obj with
    | none =>
      rw [(h.rewriteKey_eq_none _).mpr (h.find_eq_none.mp hfind)] at hr
      cases hr
    | some e =>
      obtain ⟨t1,ht1,_,_,_,hmap⟩ := h.rewriteKey_map
        (g := fun e => { e with fn := fn, clientData := cd, markProc := mp }) (fun _ => rfl) hfind
      rw [hr] at ht1
      cases ht1
      refine ⟨e,rfl,?_⟩
      rw [finalizers_update hmap,if_neg hfn]
      rfl

def registerCollections (g : Growth M) (a : Allocation M) : List M := growthCollections g ++ a.collections

/-- The condition on a call. A registration is not made for an object whose
finalize-when-unreachable entry is queued; and the collections it runs find its object,
which the caller holds, marked. -/
def CallAllowed (K : Marker M) (s : State) : Call M → Prop
  | .registerFinalizer obj fn _ _ _ g a => fn ≠ 0 →
      hidePointer obj ∉ waiting s.fnlz.finalizeNow ∧ ∀ m ∈ registerCollections g a, K.isMarked m obj = true
  | .resume i memory => memory = true →
      match s.pending[i]? with
      | some (.finalizer obj _ _ _ _) => hidePointer obj ∉ waiting s.fnlz.finalizeNow
      | _ => True
  | _ => True

instance (K : Marker M) (s : State) (c : Call M) : Decidable (CallAllowed K s c) := by
  unfold CallAllowed
  split
  · infer_instance
  · split <;> infer_instance
  · infer_instance

theorem registerFinalizer_spec (h : Inv s)
    (he : registerFinalizerInner K obj fn cd mp hbSz g a s = some (r, s')) :
    Inv s' ∧ (Once s.fnlz → CallAllowed K s (.registerFinalizer obj fn cd mp hbSz g a) →
      Once s'.fnlz ∧ (s.findLeak = false →
        ∃ f, ensureTable K foTable g
          { s.fnlz with
            needUnreachableFinalization := s.fnlz.needUnreachableFinalization || mp == .unreachable } = some f ∧
          FinalizerRegistered K obj fn cd mp hbSz a f r s'.fnlz)) := by
  unfold registerFinalizerInner at he
  dsimp only at he
  split at he
  · next hleak =>
    cases he
    exact ⟨h,fun honce _ => ⟨honce,fun hno => by simp [hno] at hleak⟩⟩
  · split at he
    · cases he
    · next f1 hf1 =>
      have hset := Safe.settings h.tables s.fnlz.toggleRefs s.fnlz.javaFinalization
        (s.fnlz.needUnreachableFinalization || mp == .unreachable)
      obtain ⟨hkept,hhead⟩ := ensureTable_kept (foTable_lawful K) hset.ok hf1
      have hsafe := hset.trans hkept.toSafe
      have hwf : Once s.fnlz → f1.fo.WellFormed := fun honce => (hsafe.once honce).wellFormed hkept.ok
      have missing (hnone : replaceFinalizer obj fn cd mp f1.fo = none) (honce : Once s.fnlz) :
          finalizers f1.fo obj = none := by
        rw [finalizers,(hwf honce).find_eq_none.mpr (replaceFinalizer_none hkept.ok hnone),Option.map_none]
      split at he
      · next t ht =>
        cases he
        have hrep := hsafe.trans (replaceFinalizer_safe hkept.ok ht)
        refine ⟨h.of_safe hrep (List.Subset.refl _) rfl,fun honce _ => ⟨hrep.once honce,fun _ => ⟨f1,hf1,?_⟩⟩⟩
        obtain ⟨e,hfind,hmap⟩ := replaceFinalizer_map (hwf honce) ht
        simp only [FinalizerRegistered,finalizers,previous,hfind,Option.map_some,true_and]
        exact hmap
      · next hnone =>
        cases he
        refine ⟨h.of_safe hsafe (List.Subset.refl _) rfl,fun honce _ => ⟨hsafe.once honce,fun _ => ⟨f1,hf1,?_⟩⟩⟩
        simp [FinalizerRegistered,missing hnone honce]
      · next sz hnone =>
        split at he
        · next hfn =>
          cases he
          refine ⟨h.of_safe hsafe (List.Subset.refl _) rfl,fun honce _ => ⟨hsafe.once honce,fun _ => ⟨f1,hf1,?_⟩⟩⟩
          simp [FinalizerRegistered,missing hnone honce,hfn]
        · next hfn =>
          have hcollect := collect_kept (K := K) hkept.ok a.collections
          have hlog : (collect K f1 a.collections).fo.logSize = f1.fo.logSize :=
            (collect_finalized hkept.ok a.collections).fo.2
          have hhead' := hcollect.foHead hhead
          have hsafe' := hsafe.trans hcollect.toSafe
          split at he
          · next hok =>
            cases he
            obtain ⟨hokNew,hheadNew,hclaimed⟩ := insertFinalizer_spec obj fn cd mp sz hcollect.ok hhead'
            rw [hlog] at hokNew hheadNew hclaimed
            refine ⟨⟨hokNew,fun p hp => ?_⟩,fun honce hallowed => ?_⟩
            · have hready := Ready.mono hsafe' (h.ready p hp)
              cases p with
              | link isLong link obj => cases isLong <;> exact hready
              | finalizer => exact hheadNew
            · obtain ⟨hfree,hmarked⟩ := hallowed hfn
              have hnew : hidePointer obj ∉ claimed (collect K f1 a.collections).fo
                  (collect K f1 a.collections).finalizeNow := by
                intro hmem
                rcases mem_append.mp (hcollect.claimed.subset hmem) with hmem | hmem
                · obtain ⟨e,hmem,hkey⟩ := mem_map.mp hmem
                  exact replaceFinalizer_none hkept.ok hnone e hmem hkey
                · exact hfree (hkept.waits obj (fun m hm => hmarked m (mem_append_left _ hm)) hmem)
              have honce' := hsafe'.once honce
              refine ⟨hclaimed.nodup_iff.mpr (nodup_cons.mpr ⟨hnew,honce'⟩),fun _ => ⟨f1,hf1,?_⟩⟩
              have hwf' := honce'.wellFormed hcollect.ok
              have hfind : (collect K f1 a.collections).fo.find obj = none := by
                rw [hwf'.find_eq_none]
                intro e hmem hkey
                exact hnew (mem_append_left _ (hkey ▸ mem_map_of_mem hmem))
              have hmap := (hwf'.insertAt_map (e := newFinalizer obj fn cd mp sz) hhead' rfl hfind).2
              rw [hlog] at hmap
              simp only [FinalizerRegistered,missing hnone honce,hfn,reduceCtorEq,or_self,if_false,
                if_pos hok,finalizers_update hmap,true_and]
              rfl
          · next hok =>
            cases he
            refine ⟨⟨hcollect.ok,fun p hp => ?_⟩,fun honce _ => ⟨hsafe'.once honce,fun _ => ⟨f1,hf1,?_⟩⟩⟩
            · rcases mem_append.mp hp with hp | hp
              · exact Ready.mono hsafe' (h.ready p hp)
              · rw [mem_singleton.mp hp]
                exact hhead'
            · simp [FinalizerRegistered,missing hnone honce,hfn,hok]

theorem resumeFinalizer_spec (obj fn cd : Nat) (mp : MarkProc) (objectSz : Nat) (memory : Bool)
    (h : TablesOk f) (hhead : f.fo.head ≠ none) :
    TablesOk (resumeFinalizer obj fn cd mp objectSz memory f).2 ∧
      (∀ p, Ready f p → Ready (resumeFinalizer obj fn cd mp objectSz memory f).2 p) ∧
      (Once f → (memory = true → hidePointer obj ∉ waiting f.finalizeNow) →
        Once (resumeFinalizer obj fn cd mp objectSz memory f).2) := by
  unfold resumeFinalizer
  split
  · next hmemory =>
    split
    · next t ht =>
      have hsafe := replaceFinalizer_safe h ht
      exact ⟨hsafe.ok,fun p => Ready.mono hsafe,fun honce _ => hsafe.once honce⟩
    · next hnone =>
      obtain ⟨hok,hheadNew,hclaimed⟩ := insertFinalizer_spec obj fn cd mp objectSz h hhead
      refine ⟨hok,fun p hp => ?_,fun honce hallowed => ?_⟩
      · cases p with
        | link isLong link obj => cases isLong <;> exact hp
        | finalizer => exact hheadNew
      · apply hclaimed.nodup_iff.mpr
        rw [nodup_cons]
        refine ⟨fun hmem => ?_,honce⟩
        rcases mem_append.mp hmem with hmem | hmem
        · obtain ⟨e,hmem,hkey⟩ := mem_map.mp hmem
          exact replaceFinalizer_none h hnone e hmem hkey
        · exact hallowed hmemory hmem
  · exact ⟨h,fun _ => id,fun honce _ => honce⟩

theorem foldl_unhide (l queue : List FinalizableObject) :
    (l.foldl (fun queue e => unhide e :: queue) queue).Perm (l.map unhide ++ queue) := by
  induction l generalizing queue with
  | nil => exact List.Perm.refl _
  | cons e es ih => exact (ih _).trans perm_middle

theorem enqueueAll_safe (h : TablesOk f) (m : M) : Safe f (enqueueAllFinalizers K f m).2 := by
  have hhead : f.fo.clear.head = none ↔ f.fo.head = none := by simp [HashTbl.clear]
  refine ⟨{ h with fo := h.fo.clear, queued := ?_ },?_,id,id,?_⟩
  · intro hne hnone
    have hnone := hhead.mp hnone
    rw [enqueueAllFinalizers,HashTbl.all_of_head hnone] at hne
    exact h.queued hne hnone
  · rw [claimed,enqueueAllFinalizers,HashTbl.all_clear]
    apply List.Subperm.trans (waiting_perm (foldl_unhide f.fo.all f.finalizeNow)).subperm
    rw [waiting_append]
    exact ((waiting_unhide_sublist _).append_right _).subperm
  · intro hne hnone
    exact hne (hhead.mp hnone)

theorem invokeFinalizer_safe (h : TablesOk f) : Safe f { f with finalizeNow := f.finalizeNow.tail } :=
  { Safe.refl h with
    ok := { h with queued := fun hne => h.queued fun hnil => hne (by rw [hnil]; rfl) }
    claimed := ((waiting_sublist (tail_sublist _)).append_left _).subperm }

end Steps

section Runs

def RunAllowed (K : Marker M) : List (Call M) → State → Prop
  | [], _ => True
  | c :: cs, s =>
      CallAllowed K s c ∧
        match exec K s c with
        | none => True
        | some (_, s') => RunAllowed K cs s'

instance (K : Marker M) : ∀ (cs : List (Call M)) (s : State), Decidable (RunAllowed K cs s)
  | [], _ => isTrue trivial
  | c :: cs, s =>
      have : Decidable (match exec K s c with | none => True | some (_, s') => RunAllowed K cs s') :=
        match exec K s c with
        | none => isTrue trivial
        | some (_, s') => instDecidableRunAllowed K cs s'
      inferInstanceAs (Decidable (_ ∧ _))

theorem exec_spec {c : Call M} {r : Ret} (h : Inv s) (he : exec K s c = some (r, s')) :
    Inv s' ∧ (Once s.fnlz → CallAllowed K s c → Once s'.fnlz) := by
  have of_safe : ∀ f', Safe s.fnlz f' → s' = { s with fnlz := f' } →
      Inv s' ∧ (Once s.fnlz → CallAllowed K s c → Once s'.fnlz) := by
    rintro f' hsafe rfl
    exact ⟨h.of_safe hsafe (List.Subset.refl _) rfl,fun honce _ => hsafe.once honce⟩
  cases c with
  | registerLink isLong link obj g a =>
    rw [exec,generalRegisterDisappearingLink] at he
    split at he
    · cases he
    · obtain ⟨hsafe,hinv,_⟩ := registerLink_spec h he
      exact ⟨hinv,fun honce _ => hsafe.once honce⟩
  | registerFinalizer obj fn cd mp hbSz g a =>
    obtain ⟨hinv,hregister⟩ := registerFinalizer_spec h he
    exact ⟨hinv,fun honce hallowed => (hregister honce hallowed).1⟩
  | resume i memory =>
    rw [exec] at he
    split at he
    · cases he
      exact ⟨h,fun honce _ => honce⟩
    · next p hp =>
      cases he
      have hready := h.ready p (mem_of_getElem? hp)
      have hsub : s.pending.eraseIdx i ⊆ s.pending := (eraseIdx_sublist _ _).subset
      cases p with
      | link isLong link obj =>
        have hsafe := (resumeLink_spec link obj memory h.tables hready).1
        exact ⟨h.of_safe hsafe hsub rfl,fun honce _ => hsafe.once honce⟩
      | finalizer obj fn cd mp objectSz =>
        obtain ⟨hok,hmono,honce'⟩ := resumeFinalizer_spec obj fn cd mp objectSz memory h.tables hready
        refine ⟨⟨hok,fun p hp => hmono p (h.ready p (hsub hp))⟩,fun honce hallowed => ?_⟩
        apply honce' honce
        intro hmemory
        have := hallowed hmemory
        rwa [hp] at this
  | unregisterLink isLong link =>
    rw [exec] at he
    cases he
    exact of_safe _ (unregisterLink_spec h.tables).1 rfl
  | moveLink isLong link newLink =>
    rw [exec] at he
    obtain ⟨⟨code,f'⟩,hm,heq⟩ := Option.map_eq_some_iff.mp he
    cases heq
    exact of_safe f' (moveLink_safe h.tables hm) rfl
  | collect m =>
    cases he
    exact of_safe _ (finalize_kept h.tables m).toSafe rfl
  | enqueueAll m =>
    cases he
    exact of_safe _ (enqueueAll_safe h.tables m) rfl
  | invokeFinalizer =>
    cases he
    exact of_safe _ (invokeFinalizer_safe h.tables) rfl
  | setJavaFinalization value =>
    cases he
    exact of_safe _ (Safe.settings h.tables _ _ _) rfl
  | togglerefAdd obj isStrong =>
    cases he
    exact of_safe _ (Safe.settings h.tables _ _ _) rfl

theorem inv_init (java findLeak : Bool) : Inv (init java findLeak) where
  tables := ⟨HashTbl.wellFormed_empty,HashTbl.wellFormed_empty,HashTbl.wellFormed_empty.toChained,fun h => absurd rfl h⟩
  ready p hp := by simp [init] at hp

theorem once_init (java findLeak : Bool) : Once (init java findLeak).fnlz := by
  rw [Once,claimed,HashTbl.all_of_head rfl]
  exact nodup_nil

theorem execAll_spec {calls : List (Call M)} (h : Inv s) (hrun : execAll K calls s = some s') :
    Inv s' ∧ (Once s.fnlz → RunAllowed K calls s → Once s'.fnlz) := by
  induction calls generalizing s with
  | nil =>
    cases hrun
    exact ⟨h,fun honce _ => honce⟩
  | cons c cs ih =>
    obtain ⟨⟨r,s1⟩,hstep,hrest⟩ := Option.bind_eq_some_iff.mp hrun
    obtain ⟨hinv,honce⟩ := exec_spec h hstep
    obtain ⟨hinv',honce'⟩ := ih hinv hrest
    refine ⟨hinv',fun ho hallowed => honce' (honce ho hallowed.1) ?_⟩
    have hrest := hallowed.2
    rwa [hstep] at hrest

end Runs

section FiniteMaps

structure LinkMap (K : Marker M) (isLong : Bool) (s : State) : Prop where
  wellFormed : ((linkTable isLong).get s.fnlz).WellFormed
  rehash : ((linkTable isLong).get s.fnlz).rehash.WellFormed ∧
    ((linkTable isLong).get s.fnlz).rehash.all.Perm ((linkTable isLong).get s.fnlz).all
  register : ∀ link obj g a f r s', s.findLeak = false → ensureTable K (linkTable isLong) g s.fnlz = some f →
    registerDisappearingLinkInner K isLong link obj g a s = some (r, s') →
    LinkRegistered K isLong link obj a f r s'.fnlz
  resume : ∀ link obj, ((linkTable isLong).get s.fnlz).head ≠ none →
    let r := resumeLink isLong link obj true s.fnlz
    let spec := registerSpec (links ((linkTable isLong).get s.fnlz)) link obj
    r.1 = .code spec.1 ∧ links ((linkTable isLong).get r.2) = spec.2
  unregister : ∀ link, link % alignment = 0 →
    let r := unregisterDisappearingLink isLong link s.fnlz
    (r.1, links ((linkTable isLong).get r.2)) = unregisterSpec (links ((linkTable isLong).get s.fnlz)) link
  move : ∀ link newLink,
    let r := moveDisappearingLinkInner isLong link newLink s.fnlz
    (r.1, links ((linkTable isLong).get r.2)) = moveSpec (links ((linkTable isLong).get s.fnlz)) link newLink
  removal : ∀ m k, links ((linkTable isLong).get (finalize K s.fnlz m).2) k ≠ none →
    links ((linkTable isLong).get (finalize K s.fnlz m).2) k = links ((linkTable isLong).get s.fnlz) k

theorem linkMap_of_inv (K : Marker M) (isLong : Bool) (h : Inv s) : LinkMap K isLong s where
  wellFormed := tablesOk_links isLong h.tables
  rehash := ⟨(tablesOk_links isLong h.tables).rehash_map.1,(tablesOk_links isLong h.tables).toChained.rehash.2⟩
  register link obj g a f r s' hleak hf he := by
    obtain ⟨f1,hf1,hregistered⟩ := (registerLink_spec h he).2.2 hleak
    rwa [Option.some.inj (hf.symm.trans hf1)]
  resume link obj hhead := (resumeLink_spec link obj true h.tables hhead).2 rfl
  unregister link halign := (unregisterLink_spec h.tables).2 halign
  move link newLink := (moveLinkInner_spec link newLink h.tables).2
  removal m k hne := by
    obtain ⟨e,he⟩ := Option.ne_none_iff_exists'.mp fun hnone => hne (links_eq_none.mpr hnone)
    rw [links,links,he,finalized_find isLong h.tables (finalize_finalized h.tables m) he]

structure FinalizerMap (K : Marker M) (s : State) : Prop where
  wellFormed : s.fnlz.fo.WellFormed
  rehash : s.fnlz.fo.rehash.WellFormed ∧ s.fnlz.fo.rehash.all.Perm s.fnlz.fo.all
  register : ∀ obj fn cd mp hbSz g a f r s', s.findLeak = false →
    CallAllowed K s (.registerFinalizer obj fn cd mp hbSz g a) →
    ensureTable K foTable g
      { s.fnlz with
        needUnreachableFinalization := s.fnlz.needUnreachableFinalization || mp == .unreachable } = some f →
    registerFinalizerInner K obj fn cd mp hbSz g a s = some (r, s') →
    FinalizerRegistered K obj fn cd mp hbSz a f r s'.fnlz
  removal : ∀ m, (registrations (finalize K s.fnlz m).2).Perm (registrations s.fnlz)

/-- In every run the links form finite maps and the finalizers are chained and counted
right. The finalizers form a finite map too if every call meets the condition; and where it
is not met, that is where an object has an entry in the table and a finalize-when-unreachable
one on the queue, the next collection that finds the object marked leaves two entries. -/
theorem execAll_finiteMaps (K : Marker M) {calls : List (Call M)} {java findLeak : Bool}
    (hrun : execAll K calls (init java findLeak) = some s) :
    LinkMap K false s ∧ LinkMap K true s ∧ s.fnlz.fo.Chained ∧
      (RunAllowed K calls (init java findLeak) → FinalizerMap K s) ∧
      ∀ obj m, hidePointer obj ∈ waiting s.fnlz.finalizeNow →
        (∃ e ∈ s.fnlz.fo.all, e.hiddenBase = hidePointer obj) → s.fnlz.javaFinalization = true →
        s.fnlz.needUnreachableFinalization = true → K.isMarked m obj = true →
        ¬ (finalize K s.fnlz m).2.fo.WellFormed := by
  obtain ⟨hinv,honce⟩ := execAll_spec (inv_init java findLeak) hrun
  have hok := hinv.tables
  refine ⟨linkMap_of_inv K false hinv,linkMap_of_inv K true hinv,hok.fo,fun hallowed => ?_,?_⟩
  · have honce := honce (once_init java findLeak) hallowed
    have hwf := honce.wellFormed hok
    exact
      { wellFormed := hwf
        rehash := ⟨hwf.rehash_map.1,hok.fo.rehash.2⟩
        register := fun _ _ _ _ _ _ _ _ _ _ hleak hcall hf he => by
          obtain ⟨f1,hf1,hregistered⟩ := ((registerFinalizer_spec hinv he).2 honce hcall).2 hleak
          rwa [Option.some.inj (hf.symm.trans hf1)]
        removal := fun m => (finalize_finalized hok m).registrations }
  · rintro obj m hwaiting ⟨e,he,hkey⟩ hjava hneed hm
    exact finalize_twice hok hjava hneed hm hwaiting he hkey

end FiniteMaps

section ConcreteRuns

def plainMarker : Marker (Nat → Bool) where
  isMarked m p := m p
  setMarkBit p m := Function.update m p true
  markFo _ _ m := m
  completeOngoingCollection m := m
  base _ p := some p
  clearLink _ m := m
  isMarked_setMarkBit p m q := by
    rw [Function.update_apply]
    by_cases h : q = p <;> simp [h]
  isMarked_markFo _ _ _ _ h := h
  isMarked_complete _ _ h := h
  isMarked_clearLink _ _ _ := rfl

def allocated : Allocation (Nat → Bool) := ⟨[], true⟩

/-- Links are registered, moved and unregistered, one registration waits for memory, and a
collection queues an object and drops a link to it. -/
def mixedRun : List (Call (Nat → Bool)) :=
  [.registerLink false 64 4096 ⟨none, allocated⟩ allocated,
    .registerLink false 72 4112 ⟨none, allocated⟩ allocated,
    .registerLink false 80 4096 ⟨none, allocated⟩ ⟨[], false⟩,
    .registerLink false 64 4112 ⟨none, allocated⟩ allocated,
    .moveLink false 64 88,
    .moveLink false 88 72,
    .resume 0 true,
    .registerFinalizer 4096 1 0 .unreachable (some 16) ⟨none, allocated⟩ allocated,
    .registerFinalizer 4112 1 0 .normal (some 16) ⟨none, allocated⟩ allocated,
    .collect fun p => p != 4096,
    .unregisterLink false 72,
    .invokeFinalizer,
    .registerFinalizer 4096 2 0 .normal (some 16) ⟨none, allocated⟩ allocated]

theorem execAll_finiteMaps_mixedRun :
    ∃ s, execAll plainMarker mixedRun (init true false) = some s ∧
      LinkMap plainMarker false s ∧ FinalizerMap plainMarker s := by
  have hsome : (execAll plainMarker mixedRun (init true false)).isSome = true := by decide +kernel
  obtain ⟨s,hs⟩ := Option.isSome_iff_exists.mp hsome
  have hmaps := execAll_finiteMaps plainMarker hs
  exact ⟨s,hs,hmaps.1,hmaps.2.2.2.1 (by decide +kernel)⟩

/-- A finalizer is registered for an object while its finalize-when-unreachable entry is
queued, and the next collection finds the object marked. -/
def waitingRun : List (Call (Nat → Bool)) :=
  [.registerFinalizer 4096 1 0 .unreachable (some 16) ⟨none, allocated⟩ allocated,
    .collect fun _ => false,
    .registerFinalizer 4096 2 0 .normal (some 16) ⟨none, allocated⟩ allocated,
    .collect fun _ => true]

theorem waitingRun_twice :
    ∃ s, execAll plainMarker waitingRun (init true false) = some s ∧ s.fnlz.fo.entries = 2 ∧
      (s.fnlz.fo.all.map FinalizableObject.hiddenBase) = [hidePointer 4096, hidePointer 4096] ∧
      ¬ s.fnlz.fo.WellFormed := by
  have hrun : (execAll plainMarker waitingRun (init true false)).any (fun s =>
      s.fnlz.fo.entries == 2 &&
        s.fnlz.fo.all.map FinalizableObject.hiddenBase == [hidePointer 4096,hidePointer 4096]) = true := by
    decide +kernel
  obtain ⟨s,hs,htwice⟩ := Option.any_eq_true _ _ |>.mp hrun
  simp only [Bool.and_eq_true,beq_iff_eq] at htwice
  refine ⟨s,hs,htwice.1,htwice.2,fun hwf => ?_⟩
  have hunique : (s.fnlz.fo.all.map FinalizableObject.hiddenBase).Nodup := hwf.unique
  rw [htwice.2] at hunique
  simp at hunique

end ConcreteRuns

end GcUtil.Finalize.FiniteMaps
