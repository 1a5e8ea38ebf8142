import GcUtil.Block.Unmapping

/-! What the allocator does to the blocks in use: it takes new ones from free blocks,
`GC_freehblk` releases one, and the headers of all others stay as they are. -/
namespace GcUtil.Block.UsedBlocks
open Function Option Finset
open Basic Headers FreeLists Allocator HeaderTable LinkedLists BlockMap JointInvariant Reserving Splitting
open Unmapping

variable {s s' t : Heap} {n m p q i k : Nat} {off : Set Nat}

section Used

def used (b : Hdr) : Option Hdr := if b.isFree then none else some (unlinked b)

def usedAt (s : Heap) (n : Nat) : Option Hdr := (s.hdrAt n).bind used

theorem usedAt_of_index (h : s.index n = .hdr p) : usedAt s n = used (s.hdrs p) := by
  rw [usedAt,hdrAt_of_index h]
  rfl

theorem usedAt_of_none (h : s.hdrAt n = none) : usedAt s n = none := by
  rw [usedAt,h]
  rfl

theorem used_of_free {b : Hdr} (h : b.isFree = true) : used b = none := if_pos h

theorem usedAt_of_free (h : s.index n = .hdr p) (hfree : (s.hdrs p).isFree = true) :
    usedAt s n = none := by
  rw [usedAt_of_index h,used_of_free hfree]

theorem isFree_of_usedAt (h : s.index n = .hdr p) (hfree : usedAt s n = none) :
    (s.hdrs p).isFree = true := by
  rw [usedAt_of_index h,used] at hfree
  by_contra hused
  rw [if_neg hused] at hfree
  cases hfree

theorem usedAt_eq_seen (s : Heap) (n : Nat) : usedAt s n = (seenAt s n).bind used := by
  rw [usedAt,seenAt,bodyAt]
  cases s.hdrAt n with
  | none => rfl
  | some b =>
    change used b = (seen b).bind used
    unfold seen
    split
    · rename_i hidle
      exact used_of_free (Bool.and_eq_true_iff.mp hidle).1
    · rfl

theorem usedAt_of_seenAt (h : seenAt s n = none) : usedAt s n = none := by
  rw [usedAt_eq_seen,h]
  rfl

theorem usedAt_of_flagsAt {size : Option Nat} (h : flagsAt s n = some (true, size)) : usedAt s n = none := by
  obtain ⟨b,hb,hflags⟩ := map_eq_some_iff.mp h
  rw [usedAt,hb]
  exact used_of_free (congrArg Prod.fst hflags)

theorem usedAt_updHdr (hok : HdrsOk s) (hn : s.index n = .hdr p) (f : Hdr → Hdr) :
    usedAt (s.updHdr p f) = update (usedAt s) n (used (f (s.hdrs p))) := by
  funext m
  rw [usedAt,hdrAt_updHdr hok hn,update_apply,update_apply]
  split <;> rfl

theorem usedAt_of_bodyAt (h : bodyAt s' n = bodyAt s n) : usedAt s' n = usedAt s n := by
  have hbind : ∀ t : Heap, usedAt t n = (bodyAt t n).bind used := by
    intro t
    rw [usedAt,bodyAt]
    cases t.hdrAt n <;> rfl
  rw [hbind,hbind,h]

end Used

structure Spares (off : Set Nat) (s s' : Heap) : Prop where
  hdrs : HdrsOk s → HdrsOk s'
  same : ∀ n, n ∉ off → usedAt s' n = usedAt s n

namespace Spares

theorem refl (s : Heap) : Spares off s s := ⟨id,fun _ _ => rfl⟩

theorem after {u : Heap} (h' : Spares off t u) (h : Spares off s t) : Spares off s u where
  hdrs hok := h'.hdrs (h.hdrs hok)
  same n hn := (h'.same n hn).trans (h.same n hn)

theorem mono {o : Set Nat} (h : Spares off s s') (hoff : off ⊆ o) : Spares o s s' :=
  { h with same := fun n hn => h.same n fun hmem => hn (hoff hmem) }

theorem silent (h : Spares ∅ s s') : Spares off s s' := h.mono (Set.empty_subset off)

/-- An exempt hblk needs no exemption if there is the same block in use, or none. -/
theorem settle (h : Spares (insert n off) s s') (hn : usedAt s' n = usedAt s n) : Spares off s s' := by
  refine { h with same := fun m hm => ?_ }
  by_cases hmn : m = n
  · exact hmn ▸ hn
  · exact h.same m (by simp [hmn,hm])

theorem settle_self (h : Spares {n} s s') (hn : usedAt s' n = usedAt s n) : Spares off s s' :=
  (settle (by simpa using h) hn).silent

theorem updHdr (hok : HdrsOk s) (hn : s.index n = .hdr p) (f : Hdr → Hdr) :
    Spares {n} s (s.updHdr p f) where
  hdrs h := h.updHdr p f
  same m hm := by rw [usedAt_updHdr hok hn,update_of_ne (by simpa using hm)]

theorem updHdr_free (hok : HdrsOk s) (hn : s.index n = .hdr p) {f : Hdr → Hdr}
    (h : (s.hdrs p).isFree = true) (hf : (f (s.hdrs p)).isFree = true) :
    Spares off s (s.updHdr p f) := by
  apply (updHdr hok hn f).settle_self
  rw [usedAt_updHdr hok hn,update_self,used_of_free hf,usedAt_of_free hn h]

end Spares

variable {o : Finset Nat} {calls : List MapCall}

theorem spares_of_keeps (h : Keeps o calls s s') (ho : ∀ n ∈ o, n ∉ off → usedAt s' n = usedAt s n) :
    Spares off s s' := by
  refine ⟨h.hdrs,fun n hn => ?_⟩
  by_cases hmem : n ∈ o
  · exact ho n hmem hn
  · rw [usedAt_eq_seen,h.same n hmem,usedAt_eq_seen]

theorem spares_of_silent (h : Keeps ∅ calls s s') : Spares off s s' := spares_of_keeps h (by simp)

theorem mergeWithNext_spares (hok : HdrsOk s) (hp : s.index n = .hdr p) (hq : s.index m = .hdr q)
    (hne : n ≠ m) (hpfree : (s.hdrs p).isFree = true) (hqfree : (s.hdrs q).isFree = true)
    (h : mergeWithNext s n p i m q = some s') : Spares ∅ s s' := by
  obtain ⟨hkeeps,hgone,hself⟩ := mergeWithNext_keeps hok hp hq hne h
  refine spares_of_keeps hkeeps fun x hx _ => ?_
  rcases mem_insert.mp hx with rfl | hx
  · rw [usedAt_of_flagsAt hself,usedAt_of_free hp hpfree]
  · rw [mem_singleton.mp hx,usedAt_of_free hq hqfree]
    exact usedAt_of_none (map_eq_none_iff.mp hgone)

section Taking

variable (env : AllocEnv)

def freshHdr (gcNo n lb kind : Nat) (ignoreOffPage : Bool) : Hdr :=
  setupHdr env gcNo n lb kind ignoreOffPage blankHdr

def SetUp (s : Heap) (n lb kind : Nat) (ignoreOffPage : Bool) : Prop :=
  ∃ gcNo, usedAt s n = some (freshHdr env gcNo n lb kind ignoreOffPage)

theorem unmappedAt_of_setUp {lb kind : Nat} {ignoreOffPage : Bool} (h : SetUp env s n lb kind ignoreOffPage) :
    unmappedAt s n = none := by
  obtain ⟨gcNo,h⟩ := h
  obtain ⟨b,hb,hused⟩ := bind_eq_some_iff.mp h
  unfold used at hused
  split at hused
  · cases hused
  · have hsame := congrArg Hdr.isMapped (Option.some.inj hused)
    change b.isMapped = true at hsame
    rw [unmappedAt,flagsAt,hb]
    exact if_pos hsame

theorem setupHeader_keeps (hok : HdrsOk s) (hp : s.index n = .hdr p) (lb kind : Nat)
    (ignoreOffPage : Bool) :
    Keeps {n} [] s (setupHeader env s p n lb kind ignoreOffPage) ∧
      SetUp env (setupHeader env s p n lb kind ignoreOffPage) n lb kind ignoreOffPage := by
  unfold setupHeader
  refine ⟨Keeps.updHdr hok hp _,s.gcNoShort,?_⟩
  rw [usedAt_updHdr hok hp,update_self]
  rfl

/-- The block `n` is one that `drop_hblk_in_chunks` has made. -/
def Dropped (s : Heap) (n : Nat) : Prop := SetUp env s n hblkSize ptrfree false

def Drops (s s' : Heap) : Prop :=
  ∀ x, usedAt s' x = usedAt s x ∨ usedAt s x = none ∧ Dropped env s' x

variable {env}

theorem Drops.refl (s : Heap) : Drops env s s := fun _ => .inl rfl

theorem Spares.drops (h : Spares ∅ s s') : Drops env s s' := fun x => .inl (h.same x (by simp))

theorem Drops.dropped (h : Drops env s s') {x : Nat} (hx : Dropped env s x) : Dropped env s' x := by
  obtain ⟨gcNo,hx⟩ := hx
  rcases h x with hsame | ⟨hnone,_⟩
  · exact ⟨gcNo,hsame.trans hx⟩
  · rw [hx] at hnone
    cases hnone

theorem Drops.trans {u : Heap} (h : Drops env s t) (h' : Drops env t u) : Drops env s u := by
  intro x
  rcases h x with hst | ⟨hnone,gcNo,hdropped⟩
  · rcases h' x with htu | ⟨hnone,hnew⟩
    · exact .inl (htu.trans hst)
    · exact .inr ⟨hst ▸ hnone,hnew⟩
  · rcases h' x with htu | ⟨hnone',_⟩
    · exact .inr ⟨hnone,gcNo,htu.trans hdropped⟩
    · rw [hdropped] at hnone'
      cases hnone'

variable (env)

theorem chunkLoop_chunks (j : Nat) (hok : HdrsOk s) (hp : s.index n = .hdr p)
    (hin : ∀ x, n < x → x ≤ n + j → s.hdrAt x = none) :
    Keeps (Finset.Icc n (n + j)) [] s (chunkLoop env j n p s) ∧
      (∀ x, x < n ∨ n + j < x → bodyAt (chunkLoop env j n p s) x = bodyAt s x) ∧
      ∀ x, n ≤ x → x ≤ n + j → Dropped env (chunkLoop env j n p s) x := by
  have hframe : ∀ {s : Heap} {n p x : Nat}, HdrsOk s → s.index n = .hdr p → x ≠ n →
      bodyAt (setupHeader env s p n hblkSize ptrfree false) x = bodyAt s x := by
    intro s n p x hok hp hx
    rw [setupHeader,bodyAt_updHdr hok hp,update_of_ne hx]
  induction j generalizing s n p with
  | zero =>
    obtain ⟨hset,hdropped⟩ := setupHeader_keeps env hok hp hblkSize ptrfree false
    refine ⟨hset.mono (by simp),fun x hx => hframe hok hp (by omega),fun x hx hxn => ?_⟩
    obtain rfl : x = n := by omega
    exact hdropped
  | succ j ih =>
    obtain ⟨hset,gcNo,hdropped⟩ := setupHeader_keeps env hok hp hblkSize ptrfree false
    rw [chunkLoop]
    set t := setupHeader env s p n hblkSize ptrfree false with ht
    have hokt := hset.hdrs hok
    have hnonet : ∀ x, n < x → x ≤ n + (j + 1) → t.hdrAt x = none := by
      intro x hx hxj
      have hno := hdrAt_eq_none.mp (hin x hx hxj)
      rw [hdrAt_eq_none]
      exact hno
    have hinst := Keeps.installHeader hokt (n + 1)
    have hq : (installHeader t (n + 1)).2.index (n + 1) = .hdr (newHdr t) := by
      rw [installHeader_index,update_self]
    simp only [installHeader_fst]
    obtain ⟨hkeeps,hrun,hnew⟩ := ih (s := (installHeader t (n + 1)).2) (n := n + 1) (hinst.hdrs hokt) hq
      (fun x hx hxj => by
        rw [hdrAt_installHeader hokt,update_of_ne (by omega)]
        exact hnonet x (by omega) (by omega))
    have hrest : ∀ x, x < n + 1 ∨ n + (j + 1) < x →
        bodyAt (chunkLoop env j (n + 1) (newHdr t) (installHeader t (n + 1)).2) x = bodyAt t x := by
      intro x hx
      rw [hrun x (by omega),bodyAt_installHeader hokt,update_of_ne (by omega)]
    have hwide : Finset.Icc (n + 1) (n + 1 + j) ⊆ Finset.Icc n (n + (j + 1)) :=
      Finset.Icc_subset_Icc (by omega) (by omega)
    refine ⟨?_,fun x hx => ?_,fun x hx hxj => ?_⟩
    · exact (hkeeps.mono hwide).after ((hinst.mono (by simp)).after (hset.mono (by simp)))
    · rw [hrest x (by omega),ht,hframe hok hp (by omega)]
    · rcases Nat.eq_or_lt_of_le hx with rfl | hlt
      · refine ⟨gcNo,?_⟩
        rw [usedAt_of_bodyAt (hrest n (by omega)),hdropped]
      · exact hnew x hlt (by omega)

section

variable (hok : HdrsOk s) (hp : s.index n = .hdr p)
include hok hp

theorem splitBlock_keeps (hq : s.index m = .hdr q)
    (hne : n ≠ m) (hseen : seen (s.hdrs p) = none) (h : splitBlock s n p m q i = some s') :
    Keeps {m} [] s s' ∧ s'.index = s.index ∧ seen (s'.hdrs q) = none := by
  have hpq : q ≠ p := by
    rintro rfl
    exact hne (hok.inj hp hq)
  unfold splitBlock at h
  obtain ⟨t1,ht1,h⟩ := bind_eq_some_iff.mp h
  obtain ⟨t2,ht2,h⟩ := bind_eq_some_iff.mp h
  obtain ⟨t3,ht3,h⟩ := bind_eq_some_iff.mp h
  cases h
  let g : Hdr → Hdr := fun b => { b with
    hbPrev := (s.hdrs p).hbPrev
    hbNext := (s.hdrs p).hbNext
    hbBlock := m
    hbSz := (s.hdrs p).hbSz - (m - n) * hblkSize
    hbFlags := noFlags }
  have hcore2 : core t2 = core (s.updHdr q g) := (linkPrev_core ht2).trans (linkNext_core ht1)
  let t4 : Heap := { t2 with
    freeBytes := update t2.freeBytes i (t2.freeBytes i - (m - n) * hblkSize) }
  have hcore4 : core t4 = core (s.updHdr q g) := hcore2
  have h4 : Keeps {m} [] s t4 := (Keeps.of_core hcore4).after (Keeps.updHdr hok hq g)
  have hok4 := h4.hdrs hok
  have hindex4 : t4.index = (s.updHdr q g).index := index_of_core hcore4
  rw [updHdr_index] at hindex4
  have hp4 : t4.index n = .hdr p := by rw [hindex4,hp]
  have hs4 : seen (t4.hdrs p) = none := by
    rw [seen_of_core hcore4,updHdr_hdrs_of_ne _ _ hpq.symm,hseen]
  let f : Hdr → Hdr := fun b => { b with hbLastReclaimed := t4.gcNoShort, hbSz := (m - n) * hblkSize }
  have hsf : seen (f (t4.hdrs p)) = none := seen_of_flags (b := t4.hdrs p) rfl hs4
  have h5 : Keeps {m} [] t4 (t4.updHdr p f) := Keeps.updHdr_seen hok4 hp4 (hsf.trans hs4.symm)
  have hset : Keeps {m} [] (t4.updHdr p f) ((t4.updHdr p f).updHdr p setFree) := by
    apply Keeps.updHdr_seen (h5.hdrs hok4) hp4
    rw [updHdr_hdrs_self,hsf]
    exact seen_eq_none.mpr ⟨rfl,(seen_eq_none.mp hsf).2⟩
  have hcore3 : core t3 = core ((t4.updHdr p f).updHdr p setFree) := addToFl_core ht3
  have hindex3 : t3.index = s.index := (index_of_core hcore3).trans hindex4
  have h3 : Keeps {m} [] s t3 := (Keeps.of_core hcore3).after (hset.after (h5.after h4))
  have hqi : t3.index m = .hdr q := by rw [hindex3,hq]
  have hq3 : (t3.hdrs q).isMapped = true := by
    have hbody := hdr_of_core hcore3 q
    rw [updHdr_hdrs_of_ne _ _ hpq,updHdr_hdrs_of_ne _ _ hpq,hdr_of_core hcore4 q,updHdr_hdrs_self] at hbody
    have hmapped := congrArg Hdr.isMapped hbody
    exact hmapped
  refine ⟨(Keeps.updHdr (h3.hdrs hok) hqi setFree).after h3,hindex3,?_⟩
  rw [updHdr_hdrs_self]
  exact seen_eq_none.mpr ⟨rfl,hq3⟩

section

variable (hfree : (s.hdrs p).isFree = true)
include hfree

/-- The whole block is dropped in chunks, and nothing else happens. -/
theorem dropHblkInChunks_chunks (hmapped : (s.hdrs p).isMapped = true)
    (hin : ∀ x, n < x → x < n + divHblksz (s.hdrs p).hbSz → s.hdrAt x = none)
    (hpos : hblkSize ≤ (s.hdrs p).hbSz) (h : dropHblkInChunks env s i n p = some s') :
    Steady ∅ [] s s' ∧
      (∀ x, x < n ∨ n + divHblksz (s.hdrs p).hbSz ≤ x → bodyAt s' x = bodyAt s x) ∧
      ∀ x, n ≤ x → x < n + divHblksz (s.hdrs p).hbSz → usedAt s x = none ∧ Dropped env s' x := by
  have hlen : 0 < divHblksz (s.hdrs p).hbSz := Nat.div_pos hpos (by decide)
  unfold dropHblkInChunks dropInChunks at h
  obtain ⟨t,ht,h⟩ := bind_eq_some_iff.mp h
  cases h
  let s1 : Heap := { s with
    largeFreeBytes := s.largeFreeBytes - (s.hdrs p).hbSz
    bytesDropped := s.bytesDropped + (s.hdrs p).hbSz }
  have hcount : Keeps ∅ [] s s1 := Keeps.congr rfl rfl rfl rfl rfl rfl
  have hcore : core t = core s1 := removeFromFlAt_core ht
  have hrem : Keeps ∅ [] s t := (Keeps.of_core hcore).after hcount
  have hindex : t.index = s1.index := index_of_core hcore
  have hbody : bodyAt t = bodyAt s1 := bodyAt_of_core hcore
  obtain ⟨hkeeps,hrun,hnew⟩ := chunkLoop_chunks env (divHblksz (s.hdrs p).hbSz - 1) (hrem.hdrs hok)
    (by rw [hindex,hp]) (fun x hx hxj => by
      have hno := hdrAt_eq_none.mp (hin x hx (by omega))
      rw [hdrAt_eq_none,hindex]
      exact hno)
  refine ⟨(hkeeps.after hrem.silent).steady_of fun x hx _ => ?_,fun x hx => ?_,fun x hx hxn =>
    ⟨?_,hnew x hx (by omega)⟩⟩
  · obtain ⟨hlo,hhi⟩ := mem_Icc.mp hx
    refine .inr ⟨?_,unmappedAt_of_setUp env (hnew x hlo hhi)⟩
    rcases Nat.eq_or_lt_of_le hlo with rfl | hlt
    · rw [unmappedAt_of_index hp,hmapped]
      rfl
    · exact unmappedAt_of_none (hin x hlt (by omega))
  · rw [hrun x (by omega),hbody]
    rfl
  · rcases Nat.eq_or_lt_of_le hx with rfl | hlt
    · exact usedAt_of_free hp hfree
    · exact usedAt_of_none (hin x hlt (by omega))

theorem remapBlock_keeps :
    Keeps {n} (remapCalls s n p) s
      (remapBlock s n p) ∧ (remapBlock s n p).index = s.index ∧ seen ((remapBlock s n p).hdrs p) = none := by
  unfold remapCalls remapBlock
  split
  · rename_i hmapped
    exact ⟨Keeps.refl s,rfl,seen_eq_none.mpr ⟨hfree,hmapped⟩⟩
  · have hcall : Keeps {n} [.remap (n * hblkSize) (s.hdrs p).hbSz] s _ := Keeps.call s _
    unfold setUnmapped
    refine ⟨(Keeps.updHdr (hcall.hdrs hok) hp _).after hcall,rfl,?_⟩
    rw [updHdr_hdrs_self]
    exact seen_eq_none.mpr ⟨hfree,rfl⟩

/-- A header is installed inside the block, which is remapped if need be and split there. -/
theorem splitBlock_installed (hne : m ≠ n)
    (h : splitBlock (remapBlock (installHeader s m).2 n p) n p m (newHdr s) i = some t) :
    Keeps {n, m} (remapCalls s n p) s t ∧
      seenAt t n = none ∧ seen (t.hdrs (newHdr s)) = none ∧ t.index m = .hdr (newHdr s) := by
  have hinst := Keeps.installHeader hok m
  have hok1 := hinst.hdrs hok
  have hhdr1 : (installHeader s m).2.hdrs p = s.hdrs p :=
    installHeader_hdrs s m p fun heq => newHdr_fresh hok n (heq ▸ hp)
  have hq1 : (installHeader s m).2.index m = .hdr (newHdr s) := by
    rw [installHeader_index,update_self]
  have hp1 : (installHeader s m).2.index n = .hdr p := by
    rw [installHeader_index,update_of_ne (Ne.symm hne),hp]
  obtain ⟨hremap,hindex2,hseen⟩ := remapBlock_keeps hok1 hp1 (by rw [hhdr1,hfree])
  rw [remapCalls,hhdr1] at hremap
  have hp2 : (remapBlock (installHeader s m).2 n p).index n = .hdr p := by rw [hindex2,hp1]
  obtain ⟨hsplit,hindex',hq⟩ := splitBlock_keeps (hremap.hdrs hok1) hp2 (by rw [hindex2,hq1])
    (Ne.symm hne) hseen h
  have hlast := (hsplit.mono (o := {n, m}) (by simp)).after (hremap.mono (by simp))
  have hall := (hinst.mono (o := {n, m}) (by simp)).trans hlast
  rw [List.nil_append] at hall
  refine ⟨hall,?_,hq,by rw [hindex',hindex2,hq1]⟩
  rw [hsplit.same n (by simpa using Ne.symm hne),seenAt_of_index hp2,hseen]

theorem splitAt_keeps (hm : m ≠ n → s.hdrAt m = none) {r : Nat × Heap} (h : splitAt s n p m i = some r) :
    Keeps {n} (remapCalls s n p) s
      (remapBlock r.2 m r.1) ∧ seenAt (remapBlock r.2 m r.1) n = none := by
  unfold splitAt at h
  split at h
  · rename_i heq
    cases h
    subst heq
    obtain ⟨hremap,hindex,hseen⟩ := remapBlock_keeps hok hp hfree
    exact ⟨hremap,(seenAt_of_index (by rw [hindex,hp])).trans hseen⟩
  · rename_i hne
    change Option.map (fun s' => ((installHeader s m).1, s'))
      (splitBlock (remapBlock (installHeader s m).2 n p) n p m (installHeader s m).1 i) = some r at h
    rw [installHeader_fst] at h
    obtain ⟨t,ht,rfl⟩ := map_eq_some_iff.mp h
    obtain ⟨hall,hnone,hseen,hqt⟩ := splitBlock_installed hok hp hfree hne ht
    have hstay : remapBlock t m (newHdr s) = t := by
      unfold remapBlock
      rw [if_pos (seen_eq_none.mp hseen).2]
    simp only [hstay]
    rw [pair_comm] at hall
    refine ⟨hall.settle ?_,hnone⟩
    rw [seenAt_of_index hqt,hseen,seenAt_of_none (hm hne)]

end

end

theorem getFirstPart_keeps (hok : HdrsOk s) (size : Nat)
    (hrest : s.hdrAt (n + divHblksz size) = none ∨ (s.hdrs p).hbSz = size)
    (h : getFirstPart s n p size i = some s') : Keeps ∅ [] s s' := by
  unfold getFirstPart at h
  obtain ⟨t,ht,h⟩ := bind_eq_some_iff.mp h
  have hrem : Keeps ∅ [] s t := Keeps.of_core (removeFromFlAt_core ht)
  split at h
  · cases h
    exact hrem
  · rename_i hne
    have hnone := hrest.resolve_right hne
    have hokt := hrem.hdrs hok
    have hinst := Keeps.installHeader hokt (n + divHblksz size)
    have hq : (installHeader t (n + divHblksz size)).2.index (n + divHblksz size) = .hdr (newHdr t) := by
      rw [installHeader_index,update_self]
    have hok1 := hinst.hdrs hokt
    let f : Hdr → Hdr := fun b =>
      { b with hbBlock := n + divHblksz size, hbSz := (s.hdrs p).hbSz - size, hbFlags := noFlags }
    change addToFl ((installHeader t (n + divHblksz size)).2.updHdr (installHeader t _).1 f)
      (n + divHblksz size) (installHeader t _).1 = some s' at h
    rw [installHeader_fst] at h
    have hupd := Keeps.updHdr hok1 hq f
    obtain ⟨hadd,hseen⟩ := addToFl_keeps (hupd.hdrs hok1) hq h
    apply (hadd.after (hupd.after (hinst.after hrem.silent))).settle_self
    rw [hseen,updHdr_hdrs_self,seenAt_of_none hnone]
    exact seen_eq_none.mpr ⟨rfl,rfl⟩

theorem installCounts_keeps {sz : Nat} (hsz : 0 < sz) (hmax : n * hblkSize + sz ≤ wordMax)
    (hin : ∀ x, n < x → x < n + objSzToBlocks sz → s.hdrAt x = none) :
    Keeps ∅ [] s (installCounts s n sz) := by
  obtain ⟨keys,heq⟩ := installCounts_eq s n sz
  refine Keeps.reindex ?_ ?_ ?_ ?_ (fun x => ?_) fun hk => hk.installCounts hsz hmax
  · rw [heq]
  · rw [heq]
  · rw [heq]
  · rw [heq]
  · rw [heq]
    dsimp only
    split
    · exact .inr ⟨hin x (by omega) (by omega),by simp⟩
    · exact .inl rfl

variable {req : Request} {L : Nat → List Nat} {cells : Finset Nat} {b : Blk}

theorem getFirstPart_keeps_of_blocks (h : Blocks s L cells {n}) (hp : s.index n = .hdr p)
    (hb : blkAt s n = some b) (hfree : b.free = true) (hk : 0 < k) (hle : k ≤ b.blocks)
    (hs : getFirstPart s n p (k * hblkSize) i = some s') : Keeps ∅ [] s s' := by
  have hdiv : divHblksz (k * hblkSize) = k := Nat.mul_div_cancel _ (by decide)
  refine getFirstPart_keeps h.hdrs (k * hblkSize) ?_ hs
  rcases Nat.lt_or_eq_of_le hle with hlt | heq
  · rw [hdiv]
    exact .inl (blkAt_eq_none.mp (h.layout.interior_none hb hk hlt))
  · right
    rw [hbSz_of_blkAt hp hb,heq,blocks_mul_of_dvd ((h.layout.blocks hb).whole hfree)]

structure Taken (env : AllocEnv) (req : Request) (s : Heap) (n p k : Nat) (s' : Heap) : Prop where
  steady : Steady {n} (remapCalls s n p) s s'
  mapped : unmappedAt s' n = none
  unused : usedAt s (n + k) = none
  spares : Spares {n + k} s s'
  setUp : SetUp env s' (n + k) req.lbAdjusted req.kind req.ignoreOffPage

theorem takeBlock_taken (h : Blocks s L cells ∅) (hhigh : ∀ n ∈ cells, (n + 1) * hblkSize ≤ wordMax)
    (hp : s.index n = .hdr p) (hb : blkAt s n = some b) (hfree : b.free = true)
    (hneed : 0 < req.lbAdjusted) (hle : k + objSzToBlocks req.lbAdjusted ≤ b.blocks) {r : Nat × Heap}
    (hr : takeBlock env req (flOf b.sz) n (n + k) s = some r) : Taken env req s n p k r.2 := by
  have hpfree := (isFree_of_blkAt hp hb).trans hfree
  have hpos := objSzToBlocks_pos hneed
  have hinside : n + k ≠ n → s.hdrAt (n + k) = none := fun hne =>
    blkAt_eq_none.mp (h.layout.interior_none hb (by omega) (by omega))
  obtain ⟨q,s1,L1,c,hs1,hB1,hq1,hc1,hcfree,hmem1,hlen1,_,_⟩ :=
    splitAt_spec h hp hb hfree (by omega : k < b.blocks)
  obtain ⟨hfirst,hnone⟩ := splitAt_keeps h.hdrs hp hpfree hinside hs1
  obtain ⟨hB2,hi2,hb2,_,_⟩ := remapBlock_spec hB1 hq1
  have hq2 : (remapBlock s1 (n + k) q).index (n + k) = .hdr q := by rw [hi2,hq1]
  have hc2 : blkAt (remapBlock s1 (n + k) q) (n + k) = some c := by rw [hb2,hc1]
  have hroom : objSzToBlocks req.lbAdjusted ≤ c.blocks := by omega
  obtain ⟨t,L',ht,hres,_,_⟩ := getFirstPart_spec hB2 hq2 hc2 hcfree hmem1 hpos hroom
  have hpart := getFirstPart_keeps_of_blocks hB2 hq2 hc2 hcfree hpos hroom ht
  have hend : n + (k + objSzToBlocks req.lbAdjusted - 1) ∈ cells :=
    (h.layout.tiles.covers _).mpr ⟨n,b.blocks,Layout.len_eq hb,by omega,by omega⟩
  have hcounts : Keeps ∅ [] t (installCounts t (n + k) (objSzToBlocks req.lbAdjusted * hblkSize)) := by
    apply installCounts_keeps
    · exact Nat.mul_pos hpos (by decide)
    · have := hhigh _ hend
      rw [← Nat.add_mul]
      refine le_trans (Nat.mul_le_mul_right _ ?_) this
      omega
    · intro x hx hxk
      rw [objSzToBlocks_mul] at hxk
      have hnil := hres.layout.fill_nil (update_self ..) rfl (i := x - (n + k)) (by omega)
        (by change _ < objSzToBlocks (objSzToBlocks req.lbAdjusted * hblkSize); rw [objSzToBlocks_mul]; omega)
      rw [Nat.add_sub_cancel' (by omega)] at hnil
      rw [hdrAt_eq_none,hnil]
      simp
  have hu := installCounts_eq t (n + k) (objSzToBlocks req.lbAdjusted * hblkSize)
  set u := installCounts t (n + k) (objSzToBlocks req.lbAdjusted * hblkSize) with hudef
  have hqu : u.index (n + k) = .hdr q := by
    obtain ⟨keys,heq⟩ := hu
    rw [heq]
    dsimp only
    rw [if_neg (by omega),hres.header]
  have hquiet := hcounts.after hpart
  obtain ⟨hset,hsetUp⟩ := setupHeader_keeps env (hquiet.hdrs hB2.hdrs) hqu req.lbAdjusted req.kind
    req.ignoreOffPage
  unfold takeBlock at hr
  simp only [hp,hs1,bind_eq_bind,bind_some,Request.sizeNeeded,ht] at hr
  cases hr
  let w := setupHeader env u q (n + k) req.lbAdjusted req.kind req.ignoreOffPage
  have hcount : Keeps ∅ [] w { w with
      largeFreeBytes := w.largeFreeBytes - objSzToBlocks req.lbAdjusted * hblkSize } :=
    Keeps.congr rfl rfl rfl rfl rfl rfl
  have hlast := hcount.silent.after (hset.after hquiet.silent)
  have hall := (hlast.mono (o := {n, n + k}) (by simp)).after (hfirst.mono (by simp))
  have hunmapped := unmappedAt_of_setUp env hsetUp
  refine ⟨hall.steady_of fun x hx hno => ?_,?_,?_,spares_of_keeps hall fun x hx hno => ?_,hsetUp⟩
  · have hx : x = n + k := by simpa [show x ≠ n by simpa using hno] using hx
    rw [hx] at hno ⊢
    exact .inr ⟨unmappedAt_of_none (hinside (by simpa using hno)),hunmapped⟩
  · by_cases hk : n + k = n
    · exact (congrArg (unmappedAt _) hk).symm.trans hunmapped
    · exact unmappedAt_of_seenAt ((hlast.same n (by simpa using Ne.symm hk)).trans hnone)
  · by_cases hk : n + k = n
    · rw [hk]
      exact usedAt_of_free hp hpfree
    · exact usedAt_of_none (hinside hk)
  · have hk : x ≠ n + k := by simpa using hno
    obtain rfl : x = n := by simpa [hk] using hx
    rw [usedAt_of_free hp hpfree]
    exact usedAt_of_seenAt ((hlast.same x (by simpa using hk)).trans hnone)

end Taking

section Matching

variable {L : Nat → List Nat} {cells : Finset Nat} {b c : Blk}

theorem setUnmapped_spares (hok : HdrsOk s) (hp : s.index n = .hdr p) (hfree : (s.hdrs p).isFree = true)
    (calls : List MapCall) (unmapped : Bool) : Spares ∅ s (setUnmapped (s.call calls) p unmapped) := by
  have hcall : Spares ∅ s (s.call calls) := spares_of_silent (Keeps.call s calls)
  exact (Spares.updHdr_free (hcall.hdrs hok) hp hfree hfree).after hcall

theorem spares_of_matched (h : Matched s t n p m q) (hp : s.index n = .hdr p) (hb : blkAt s n = some b)
    (hfree : b.free = true) : Spares ∅ s t := by
  obtain ⟨mapped,calls,_,hkeeps,_⟩ := h.keeps
  refine spares_of_keeps hkeeps fun x hx _ => ?_
  have hpt : t.index n = .hdr p := by rw [h.index,hp]
  rw [mem_singleton.mp hx,usedAt_of_free hp ((isFree_of_blkAt hp hb).trans hfree)]
  exact usedAt_of_free hpt ((isFree_of_blkAt hpt (by rw [h.blks,hb])).trans hfree)

theorem mergeMatched_spares (hok : HdrsOk s) (hp : s.index n = .hdr p) (hb : blkAt s n = some b)
    (hbfree : b.free = true) (hq : s.index m = .hdr q) (hc : blkAt s m = some c)
    (hcfree : c.free = true) (hne : n ≠ m) (hmatch : Matched s t n p m q)
    (hmerge : mergeWithNext t n p i m q = some s') : Spares ∅ s s' := by
  have hpt : t.index n = .hdr p := by rw [hmatch.index,hp]
  have hqt : t.index m = .hdr q := by rw [hmatch.index,hq]
  have hpfree : (t.hdrs p).isFree = true := by
    rw [isFree_of_blkAt hpt (by rw [hmatch.blks,hb]),hbfree]
  have hqfree : (t.hdrs q).isFree = true := by
    rw [isFree_of_blkAt hqt (by rw [hmatch.blks,hc]),hcfree]
  have hspares := spares_of_matched hmatch hp hb hbfree
  exact (mergeWithNext_spares (hspares.hdrs hok) hpt hqt hne hpfree hqfree hmerge).after hspares

end Matching

section Remapping

variable {u : Heap} {x : Nat} {L : Nat → List Nat} {cells : Finset Nat} {b c : Blk} {calls : List MapCall}

def InUse (s : Heap) (x : Nat) : Prop :=
  ∃ n b, usedAt s n = some b ∧ n ≤ x ∧ x < n + objSzToBlocks b.hbSz

def Vacant (s : Heap) : MapCall → Prop
  | .unmap start bytes => ∀ x, start ≤ x * hblkSize → x * hblkSize < start + bytes → ¬ InUse s x
  | .remap start bytes => ∀ x, start ≤ x * hblkSize → x * hblkSize < start + bytes → ¬ InUse s x
  | .unmapGap start1 bytes1 start2 bytes2 => start1 + bytes1 = start2 ∧
      ∀ x, start1 ≤ x * hblkSize → x * hblkSize < start2 + bytes2 → ¬ InUse s x

def Remaps (s s' : Heap) : Prop :=
  ∃ calls, s'.mapCalls = s.mapCalls ++ calls ∧ ∀ c ∈ calls, Vacant s c

theorem Drops.inUse {env : AllocEnv} (h : Drops env s t) (hx : InUse s x) : InUse t x := by
  obtain ⟨n,b,hb,hin⟩ := hx
  rcases h n with hsame | ⟨hnone,_⟩
  · exact ⟨n,b,hsame.trans hb,hin⟩
  · rw [hb] at hnone
    cases hnone

theorem Spares.inUse (h : Spares ∅ s t) (hx : InUse s x) : InUse t x := by
  obtain ⟨n,b,hb,hin⟩ := hx
  exact ⟨n,b,(h.same n (by simp)).trans hb,hin⟩

theorem Vacant.mono (h : ∀ x, InUse s x → InUse t x) {call : MapCall} (ht : Vacant t call) :
    Vacant s call := by
  cases call with
  | unmap | remap => exact fun x hlo hhi hx => ht x hlo hhi (h x hx)
  | unmapGap => exact ⟨ht.1,fun x hlo hhi hx => ht.2 x hlo hhi (h x hx)⟩

theorem Remaps.refl (s : Heap) : Remaps s s := ⟨[],by simp,by simp⟩

theorem Remaps.trans (h : Remaps s t) (hused : ∀ x, InUse s x → InUse t x) (h' : Remaps t u) :
    Remaps s u := by
  obtain ⟨calls,hcalls,hvacant⟩ := h
  obtain ⟨calls',hcalls',hvacant'⟩ := h'
  refine ⟨calls ++ calls',by rw [hcalls',hcalls,List.append_assoc],fun c hc => ?_⟩
  rcases List.mem_append.mp hc with hold | hnew
  · exact hvacant c hold
  · exact (hvacant' c hnew).mono hused

theorem Remaps.of_steady {o : Finset Nat} (h : Steady o calls s s') (hvacant : ∀ c ∈ calls, Vacant s c) :
    Remaps s s' := ⟨calls,h.calls,hvacant⟩

theorem Remaps.of_silent {o : Finset Nat} (h : Steady o [] s s') : Remaps s s' :=
  Remaps.of_steady h (by simp)

theorem usedAt_eq_some {h : Hdr} (hn : usedAt s n = some h) :
    ∃ b, blkAt s n = some b ∧ b.free = false ∧ b.blocks = objSzToBlocks h.hbSz := by
  obtain ⟨hhdr,hhdr',hused⟩ := bind_eq_some_iff.mp hn
  unfold used at hused
  split at hused
  · cases hused
  · rename_i hfree
    cases hused
    exact ⟨blk hhdr,by rw [blkAt,hhdr']; rfl,Bool.eq_false_iff.mpr hfree,rfl⟩

theorem not_inUse_of_free (h : Blocks s L cells off) (hb : blkAt s n = some b)
    (hfree : b.free = true) (hx : n ≤ x ∧ x < n + b.blocks) : ¬ InUse s x := by
  rintro ⟨m,hhdr,hused,hin⟩
  obtain ⟨c,hc,hcfree,hblocks⟩ := usedAt_eq_some hused
  rw [← hblocks] at hin
  obtain rfl := h.layout.tiles.unique (Layout.len_eq hb) (Layout.len_eq hc) hx hin
  rw [hb] at hc
  cases hc
  rw [hfree] at hcfree
  cases hcfree

theorem not_inUse_of_bytes (h : Blocks s L cells off) (hp : s.index n = .hdr p)
    (hb : blkAt s n = some b) (hfree : b.free = true) (hlo : n * hblkSize ≤ x * hblkSize)
    (hhi : x * hblkSize < n * hblkSize + (s.hdrs p).hbSz) : ¬ InUse s x := by
  have hwhole := blocks_mul_of_dvd ((h.layout.blocks hb).whole hfree)
  rw [hbSz_of_blkAt hp hb,← hwhole] at hhi
  apply not_inUse_of_free h hb hfree
  unfold hblkSize at hlo hhi
  omega

theorem MergeCalls.vacant {mapped : Bool} (h : Blocks s L cells off)
    (hp : s.index n = .hdr p) (hb : blkAt s n = some b) (hbfree : b.free = true)
    (hq : s.index (n + b.blocks) = .hdr q) (hc : blkAt s (n + b.blocks) = some c)
    (hcfree : c.free = true) (hcalls : MergeCalls s n p (n + b.blocks) q mapped calls) :
    ∀ c ∈ calls, Vacant s c := by
  have hfirst : ∀ x, n * hblkSize ≤ x * hblkSize → x * hblkSize < n * hblkSize + (s.hdrs p).hbSz →
      ¬ InUse s x := fun x => not_inUse_of_bytes h hp hb hbfree
  have hnext : ∀ x, (n + b.blocks) * hblkSize ≤ x * hblkSize →
      x * hblkSize < (n + b.blocks) * hblkSize + (s.hdrs q).hbSz → ¬ InUse s x :=
    fun x => not_inUse_of_bytes h hq hc hcfree
  have hadj : n * hblkSize + (s.hdrs p).hbSz = (n + b.blocks) * hblkSize := by
    rw [hbSz_of_blkAt hp hb,← blocks_mul_of_dvd ((h.layout.blocks hb).whole hbfree),Nat.add_mul]
  have hgap : Vacant s (.unmapGap (n * hblkSize) (s.hdrs p).hbSz ((n + b.blocks) * hblkSize)
      (s.hdrs q).hbSz) := by
    refine ⟨hadj,fun x hlo hhi => ?_⟩
    rcases Nat.lt_or_ge (x * hblkSize) ((n + b.blocks) * hblkSize) with hlt | hge
    · rw [← hadj] at hlt
      exact hfirst x hlo hlt
    · exact hnext x hge hhi
  cases hcalls with
  | bothMapped => simp
  | remapNext => exact List.forall_mem_singleton.mpr hnext
  | unmapFirst => exact List.forall_mem_cons.mpr ⟨hfirst,List.forall_mem_singleton.mpr hgap⟩
  | remapFirst => exact List.forall_mem_singleton.mpr hfirst
  | unmapNext => exact List.forall_mem_cons.mpr ⟨hnext,List.forall_mem_singleton.mpr hgap⟩
  | bothUnmapped => exact List.forall_mem_singleton.mpr hgap

end Remapping

section Descent

variable {u : Heap} {b c : Blk} {L : Nat → List Nat} {cells : Finset Nat}

def FreeTiled (s : Heap) (n e : Nat) : Prop :=
  ∀ y, n ≤ y → y < e → ∃ m c, blkAt s m = some c ∧ c.free = true ∧ n ≤ m ∧ m + c.blocks ≤ e ∧
    m ≤ y ∧ y < m + c.blocks

def Descends (s t : Heap) : Prop :=
  ∀ n b, blkAt t n = some b → b.free = true → FreeTiled s n (n + b.blocks)

theorem freeTiled_of_blk (hb : blkAt s n = some b) (hfree : b.free = true) :
    FreeTiled s n (n + b.blocks) :=
  fun _ hlo hhi => ⟨n,b,hb,hfree,le_refl n,le_refl _,hlo,hhi⟩

theorem FreeTiled.append {x e : Nat} (h : FreeTiled s n x) (h' : FreeTiled s x e) (hle : n ≤ x)
    (hxe : x ≤ e) : FreeTiled s n e := by
  intro y hlo hhi
  rcases Nat.lt_or_ge y x with hlt | hge
  · obtain ⟨m,c,hc,hfree,hnm,hend,hin⟩ := h y hlo hlt
    exact ⟨m,c,hc,hfree,hnm,by omega,hin⟩
  · obtain ⟨m,c,hc,hfree,hnm,hend,hin⟩ := h' y hge hhi
    exact ⟨m,c,hc,hfree,by omega,hend,hin⟩

theorem Descends.of_blks (h : ∀ n b, blkAt t n = some b → b.free = true → blkAt s n = some b) :
    Descends s t := fun n b hb hfree => freeTiled_of_blk (h n b hb hfree) hfree

theorem Descends.refl (s : Heap) : Descends s s := Descends.of_blks fun _ _ hb _ => hb

theorem FreeTiled.descend (h : Descends s t) {e : Nat} (ht : FreeTiled t n e) : FreeTiled s n e := by
  intro y hlo hhi
  obtain ⟨m,c,hc,hfree,hnm,hend,hmy,hyc⟩ := ht y hlo hhi
  obtain ⟨m',c',hc',hfree',hle,hend',hin⟩ := h m c hc hfree y hmy hyc
  exact ⟨m',c',hc',hfree',by omega,by omega,hin⟩

theorem Descends.trans (h : Descends s t) (h' : Descends t u) : Descends s u :=
  fun n b hb hfree => (h' n b hb hfree).descend h

theorem Descends.of_merge (hb : blkAt s n = some b) (hbfree : b.free = true)
    (hc : blkAt s (n + b.blocks) = some c) (hcfree : c.free = true) {v : Blk}
    (hv : v.blocks = b.blocks + c.blocks)
    (hblks : blkAt t = update (update (blkAt s) n (some v)) (n + b.blocks) none) :
    Descends s t := by
  intro m d hd hdfree
  rw [hblks,update_apply] at hd
  split at hd
  · cases hd
  rw [update_apply] at hd
  split at hd
  · rename_i hm
    cases hd
    rw [hm,hv,← Nat.add_assoc]
    exact (freeTiled_of_blk hb hbfree).append (freeTiled_of_blk hc hcfree) (by omega) (by omega)
  · exact freeTiled_of_blk hd hdfree

theorem FreeTiled.len_le (hB : Blocks s L cells off) {e : Nat} (h : FreeTiled s n e) :
    e - n ≤ cells.card := by
  have hsub : Finset.Ico n e ⊆ cells := by
    intro y hy
    rw [mem_Ico] at hy
    obtain ⟨m,c,hc,_,_,_,hin⟩ := h y hy.1 hy.2
    exact (hB.layout.tiles.covers y).mpr ⟨m,c.blocks,Layout.len_eq hc,hin⟩
  have hcard := card_le_card hsub
  rwa [Nat.card_Ico] at hcard

/-- A range of whole free blocks has no hblks of blocks in use. -/
theorem FreeTiled.not_inUse (hB : Blocks s L cells off) {x e : Nat} (h : FreeTiled s n e)
    (hlo : n ≤ x) (hhi : x < e) : ¬ InUse s x := by
  obtain ⟨m,c,hc,hfree,_,_,hin⟩ := h x hlo hhi
  exact not_inUse_of_free hB hc hfree hin

end Descent

end GcUtil.Block.UsedBlocks
