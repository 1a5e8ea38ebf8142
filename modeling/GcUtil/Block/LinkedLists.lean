import Mathlib
import GcUtil.Block.HeaderTable
import GcUtil.Library.DoublyLinked

/-! The free lists as lists of hblks. `Lists s L` says that the links, the list heads
and the byte counts of `s` represent `L`; which blocks belong on which list is not part
of it, since a split leaves a block on the wrong list for a while. -/
namespace GcUtil.Block.LinkedLists
open Basic Headers FreeLists HeaderTable Library.DoublyLinked Function List

variable {s s' : Heap} {n p i : Nat} {L : Nat → List Nat}

section Core

def unlinked (b : Hdr) : Hdr := { b with hbNext := none, hbPrev := none }

def core (s : Heap) : Heap := { s with
  hdrs := fun p => unlinked (s.hdrs p)
  hblkfreelist := fun _ => none
  freeBytes := fun _ => 0
  hdrCache := zeroHdrCache }

theorem core_updHdr (s : Heap) (p : Nat) {f g : Hdr → Hdr}
    (h : ∀ b, unlinked (f b) = g (unlinked b)) :
    core (s.updHdr p f) = (core s).updHdr p g := by
  unfold core Heap.updHdr
  congr
  funext q
  by_cases hq : q = p
  · subst hq
    simp [h]
  · simp [update_of_ne hq]

theorem core_updHdr_links (s : Heap) (p : Nat) {f : Hdr → Hdr}
    (h : ∀ b, unlinked (f b) = unlinked b) : core (s.updHdr p f) = core s := by
  rw [core_updHdr (g := id) s p h]
  simp [Heap.updHdr]

theorem hdrAt_core (s : Heap) (n : Nat) : (core s).hdrAt n = (s.hdrAt n).map unlinked := by
  unfold Heap.hdrAt core
  cases s.index n <;> rfl

section

variable (h : core s' = core s)
include h

theorem index_of_core : s'.index = s.index := by
  have := congrArg Heap.index h
  exact this

theorem hdr_of_core (p : Nat) :
    unlinked (s'.hdrs p) = unlinked (s.hdrs p) := by
  have := congrFun (congrArg Heap.hdrs h) p
  exact this

theorem hbSz_of_core (p : Nat) : (s'.hdrs p).hbSz = (s.hdrs p).hbSz := by
  have := congrArg Hdr.hbSz (hdr_of_core h p)
  exact this

theorem hdrsOk_of_core (hok : HdrsOk s) : HdrsOk s' := by
  have hfree := congrArg Heap.hdrFreeList h
  have hscratch := congrArg Heap.hdrScratch h
  exact hok.congr (fun _ _ hn => by rwa [index_of_core h] at hn) hfree hscratch

end

theorem updAt_core {f : Hdr → Hdr} (h : s.updAt n f = some s') (hf : ∀ b, unlinked (f b) = unlinked b) :
    core s' = core s := by
  unfold Heap.updAt at h
  split at h
  · cases h
    exact core_updHdr_links s _ hf
  · cases h

theorem linkNext_core {prev target : Option Nat} (h : linkNext s i prev target = some s') :
    core s' = core s := by
  unfold linkNext at h
  split at h
  · cases h
    rfl
  · exact updAt_core h fun _ => rfl

theorem linkPrev_core {next target : Option Nat} (h : linkPrev s next target = some s') :
    core s' = core s := by
  unfold linkPrev at h
  split at h
  · cases h
    rfl
  · exact updAt_core h fun _ => rfl

theorem removeFromFlAt_core (h : removeFromFlAt s p i = some s') : core s' = core s := by
  unfold removeFromFlAt at h
  obtain ⟨t,ht,h⟩ := Option.bind_eq_some_iff.mp h
  have hnext := linkNext_core ht
  exact (linkPrev_core h).trans hnext

theorem addToFl_core (h : addToFl s n p = some s') : core s' = core (s.updHdr p setFree) := by
  unfold addToFl at h
  obtain ⟨t,ht,h⟩ := Option.bind_eq_some_iff.mp h
  cases h
  have hlinks : core t = core s := (linkPrev_core ht).trans (core_updHdr_links _ p fun _ => rfl)
  rw [core_updHdr (g := setFree) t p fun _ => rfl,core_updHdr (g := setFree) s p fun _ => rfl,hlinks]

end Core

section Views

def nextAt (s : Heap) (n : Nat) : Option Nat := (s.hdrAt n).bind Hdr.hbNext

def prevAt (s : Heap) (n : Nat) : Option Nat := (s.hdrAt n).bind Hdr.hbPrev

def szAt (s : Heap) (n : Nat) : Nat := (s.hdrAt n).elim 0 Hdr.hbSz

def total (s : Heap) : Nat := ∑ i ∈ Finset.range (nHblkFls + 1), s.freeBytes i

theorem szAt_of_index (h : s.index n = .hdr p) : szAt s n = (s.hdrs p).hbSz := by
  simp [szAt,hdrAt_of_index h]

theorem nextAt_of_index (h : s.index n = .hdr p) : nextAt s n = (s.hdrs p).hbNext := by
  simp [nextAt,hdrAt_of_index h]

theorem prevAt_of_index (h : s.index n = .hdr p) : prevAt s n = (s.hdrs p).hbPrev := by
  simp [prevAt,hdrAt_of_index h]

theorem szAt_of_core (h : core s' = core s) : szAt s' = szAt s := by
  funext n
  unfold szAt Heap.hdrAt
  rw [index_of_core h]
  cases s.index n with
  | nil => rfl
  | forward k => rfl
  | hdr p => exact hbSz_of_core h p

theorem isSome_of_core (h : core s' = core s) (n : Nat) :
    (s'.hdrAt n).isSome = (s.hdrAt n).isSome := by
  have := congrArg Option.isSome (congrArg (fun t => Heap.hdrAt t n) h)
  simpa [hdrAt_core] using this

theorem nextAt_updHdr (hok : HdrsOk s) (hn : s.index n = .hdr p) (f : Hdr → Hdr) :
    nextAt (s.updHdr p f) = update (nextAt s) n (f (s.hdrs p)).hbNext := by
  funext m
  unfold nextAt
  rw [hdrAt_updHdr hok hn,update_apply,update_apply]
  split <;> rfl

theorem prevAt_updHdr (hok : HdrsOk s) (hn : s.index n = .hdr p) (f : Hdr → Hdr) :
    prevAt (s.updHdr p f) = update (prevAt s) n (f (s.hdrs p)).hbPrev := by
  funext m
  unfold prevAt
  rw [hdrAt_updHdr hok hn,update_apply,update_apply]
  split <;> rfl

end Views

structure Lists (s : Heap) (L : Nat → List Nat) : Prop where
  linked : ∀ i, Linked (nextAt s) (prevAt s) (s.hblkfreelist i) (L i)
  disjoint : ∀ {n i j}, n ∈ L i → n ∈ L j → i = j
  isBlock : ∀ {n i}, n ∈ L i → (s.hdrAt n).isSome
  range : ∀ {n i}, n ∈ L i → i ≤ nHblkFls
  bytes : ∀ i, s.freeBytes i = ((L i).map (szAt s)).sum

theorem lists_init (hdrs : Nat → Hdr) : Lists (Heap.init hdrs) fun _ => [] where
  linked _ := linked_nil _ _
  disjoint h := by simp at h
  isBlock h := by simp at h
  range h := by simp at h
  bytes _ := rfl

section Frames

section

variable (h : Lists s L) (hheads : s'.hblkfreelist = s.hblkfreelist) (hbytes : s'.freeBytes = s.freeBytes)
include h hheads hbytes

theorem Lists.frame (hsame : ∀ i, ∀ n ∈ L i, nextAt s' n = nextAt s n ∧ prevAt s' n = prevAt s n ∧
      szAt s' n = szAt s n ∧ (s'.hdrAt n).isSome = (s.hdrAt n).isSome) : Lists s' L where
  linked i := by
    rw [hheads]
    exact (h.linked i).congr fun x hx => ⟨(hsame i x hx).1,(hsame i x hx).2.1⟩
  disjoint := h.disjoint
  isBlock hn := by
    rw [(hsame _ _ hn).2.2.2]
    exact h.isBlock hn
  range := h.range
  bytes i := by
    rw [hbytes,h.bytes]
    exact congrArg List.sum (map_congr_left fun x hx => ((hsame i x hx).2.2.1).symm)

theorem Lists.frame_hdrAt (hsame : ∀ i, ∀ n ∈ L i, s'.hdrAt n = s.hdrAt n) : Lists s' L :=
  h.frame hheads hbytes fun i n hn => by simp [nextAt,prevAt,szAt,hsame i n hn]

theorem Lists.frame_update {b : Option Hdr}
    (hhdr : s'.hdrAt = update s.hdrAt n b) (hnot : ∀ i, n ∉ L i) : Lists s' L := by
  apply h.frame_hdrAt hheads hbytes
  intro i m hm
  rw [hhdr,update_of_ne]
  rintro rfl
  exact hnot i hm

end

theorem Lists.updHdr_off (h : Lists s L) (hok : HdrsOk s) (hn : s.index n = .hdr p)
    (hnot : ∀ i, n ∉ L i) (f : Hdr → Hdr) : Lists (s.updHdr p f) L :=
  h.frame_update rfl rfl (hdrAt_updHdr hok hn f) hnot

theorem Lists.updHdr_keep (h : Lists s L) (hok : HdrsOk s) (hn : s.index n = .hdr p) {f : Hdr → Hdr}
    (hnext : (f (s.hdrs p)).hbNext = (s.hdrs p).hbNext)
    (hprev : (f (s.hdrs p)).hbPrev = (s.hdrs p).hbPrev)
    (hsz : (f (s.hdrs p)).hbSz = (s.hdrs p).hbSz) : Lists (s.updHdr p f) L := by
  refine h.frame rfl rfl fun i m _ => ?_
  unfold nextAt prevAt szAt
  rw [hdrAt_updHdr hok hn,update_apply]
  split
  · rename_i hm
    simp [hm,hdrAt_of_index hn,hnext,hprev,hsz]
  · simp

theorem Lists.installHeader (h : Lists s L) (hok : HdrsOk s) (hnone : s.hdrAt n = none) :
    Lists (installHeader s n).2 L := by
  have hnot : ∀ i, n ∉ L i := by
    intro i hmem
    have := h.isBlock hmem
    simp [hnone] at this
  have hhdr := hdrAt_installHeader hok n
  obtain ⟨keys,heq⟩ := installHeader_eq s n
  apply h.frame_update _ _ hhdr hnot <;> rw [heq]

theorem Lists.removeHeader (h : Lists s L) (hn : s.index n = .hdr p) (hnot : ∀ i, n ∉ L i)
    (hrm : Headers.removeHeader s n = some s') : Lists s' L := by
  have hhdr := hdrAt_removeHeader hn hrm
  rw [removeHeader_eq hn] at hrm
  cases hrm
  exact h.frame_update rfl rfl hhdr hnot

end Frames

section Links

theorem linkNext_spec (hok : HdrsOk s) (i : Nat) (prev target : Option Nat)
    (hprev : ∀ y, prev = some y → (s.hdrAt y).isSome) :
    ∃ s', linkNext s i prev target = some s' ∧ core s' = core s ∧
      nextAt s' = (fun y => if prev = some y then target else nextAt s y) ∧ prevAt s' = prevAt s ∧
      s'.hblkfreelist =
        (if prev = none then update s.hblkfreelist i target else s.hblkfreelist) ∧
      s'.freeBytes = s.freeBytes := by
  cases prev with
  | none =>
    refine ⟨_,rfl,rfl,?_,rfl,?_,rfl⟩
    · simp only [reduceCtorEq,if_false]
      rfl
    · simp
  | some y =>
    obtain ⟨b,hb⟩ := Option.isSome_iff_exists.mp (hprev y rfl)
    obtain ⟨q,hq,hbq⟩ := hdrAt_eq_some.mp hb
    refine ⟨s.updHdr q fun b => { b with hbNext := target },by simp [linkNext,Heap.updAt,hq],?_,?_,?_,
      ?_,rfl⟩
    · exact core_updHdr_links s q fun _ => rfl
    · rw [nextAt_updHdr hok hq]
      funext m
      simp [update_apply,eq_comm]
    · rw [prevAt_updHdr hok hq]
      exact update_eq_self_iff.mpr (prevAt_of_index hq).symm
    · simp [Heap.updHdr]

theorem linkPrev_spec (hok : HdrsOk s) (next target : Option Nat)
    (hnext : ∀ y, next = some y → (s.hdrAt y).isSome) :
    ∃ s', linkPrev s next target = some s' ∧ core s' = core s ∧ nextAt s' = nextAt s ∧
      prevAt s' = (fun y => if next = some y then target else prevAt s y) ∧
      s'.hblkfreelist = s.hblkfreelist ∧ s'.freeBytes = s.freeBytes := by
  cases next with
  | none =>
    refine ⟨_,rfl,rfl,rfl,?_,rfl,rfl⟩
    simp only [reduceCtorEq,if_false]
  | some y =>
    obtain ⟨b,hb⟩ := Option.isSome_iff_exists.mp (hnext y rfl)
    obtain ⟨q,hq,hbq⟩ := hdrAt_eq_some.mp hb
    refine ⟨s.updHdr q fun b => { b with hbPrev := target },by simp [linkPrev,Heap.updAt,hq],?_,?_,?_,
      rfl,rfl⟩
    · exact core_updHdr_links s q fun _ => rfl
    · rw [nextAt_updHdr hok hq]
      exact update_eq_self_iff.mpr (nextAt_of_index hq).symm
    · rw [prevAt_updHdr hok hq]
      funext m
      simp [update_apply,eq_comm]

end Links

section Totals

theorem total_update {v : Nat} (hi : i ≤ nHblkFls)
    (hbytes : s'.freeBytes = update s.freeBytes i v) :
    total s' + s.freeBytes i = total s + v := by
  have hmem : i ∈ Finset.range (nHblkFls + 1) := by
    rw [Finset.mem_range]
    omega
  unfold total
  rw [hbytes,Finset.sum_update_of_mem hmem,← Finset.add_sum_erase _ _ hmem,Finset.sdiff_singleton_eq_erase]
  omega

end Totals

structure Removed (s s' : Heap) (L : Nat → List Nat) (n i : Nat) : Prop where
  core : core s' = core s
  lists : Lists s' (Function.update L i ((L i).erase n))
  total : total s' + szAt s n = total s

structure Added (s s' : Heap) (L : Nat → List Nat) (n p : Nat) : Prop where
  core : core s' = core (s.updHdr p setFree)
  lists : Lists s' (Function.update L (flOf (s.hdrs p).hbSz) (n :: L (flOf (s.hdrs p).hbSz)))
  total : total s' = total s + (s.hdrs p).hbSz

section Updates

theorem Lists.neighbours (h : Lists s L) (hn : n ∈ L i) :
    (∀ y, nextAt s n = some y → y ∈ L i ∧ y ≠ n) ∧ (∀ y, prevAt s n = some y → y ∈ L i ∧ y ≠ n) := by
  have hself := (h.linked i).not_self hn
  constructor
  · intro y hy
    refine ⟨(h.linked i).next_mem hn hy,?_⟩
    rintro rfl
    exact hself.1 hy
  · intro y hy
    refine ⟨(h.linked i).prev_mem hn hy,?_⟩
    rintro rfl
    exact hself.2 hy

theorem Lists.linked_other (h : Lists s L) (hn : n ∈ L i) {j : Nat} (hj : j ≠ i)
    {prevTo nextTo : Option Nat}
    (hnext : ∀ m, m ≠ n → nextAt s' m = if prevAt s n = some m then prevTo else nextAt s m)
    (hprev : ∀ m, m ≠ n → prevAt s' m = if nextAt s n = some m then nextTo else prevAt s m)
    (hhead : s'.hblkfreelist j = s.hblkfreelist j) :
    Linked (nextAt s') (prevAt s') (s'.hblkfreelist j) (L j) := by
  rw [hhead]
  apply (h.linked j).congr
  intro m hm
  have hout : ∀ y, y ∈ L i → y ≠ m := by
    rintro y hy rfl
    exact hj (h.disjoint hm hy)
  have hmn : m ≠ n := (hout n hn).symm
  rw [hnext m hmn,hprev m hmn,if_neg,if_neg]
  · exact ⟨rfl,rfl⟩
  · intro heq
    exact hout m ((h.neighbours hn).1 m heq).1 rfl
  · intro heq
    exact hout m ((h.neighbours hn).2 m heq).1 rfl

/-- One of the lists becomes `l`, whose members were on it or on none. -/
theorem Lists.relist (h : Lists s L) {l : List Nat} (hi : i ≤ nHblkFls)
    (hlinked : Linked (nextAt s') (prevAt s') (s'.hblkfreelist i) l)
    (hother : ∀ j, j ≠ i → Linked (nextAt s') (prevAt s') (s'.hblkfreelist j) (L j))
    (hmem : ∀ x ∈ l, x ∈ L i ∨ (∀ j, x ∉ L j) ∧ (s'.hdrAt x).isSome)
    (hblock : ∀ x, (s.hdrAt x).isSome → (s'.hdrAt x).isSome) (hsz : szAt s' = szAt s)
    (hbytes : s'.freeBytes = update s.freeBytes i (l.map (szAt s)).sum) :
    Lists s' (update L i l) := by
  have hsub : ∀ {x j}, x ∈ update L i l j → x ∈ L j ∨ j = i ∧ (∀ k, x ∉ L k) ∧ (s'.hdrAt x).isSome := by
    intro x j hx
    rw [update_apply] at hx
    split at hx
    · case isTrue hj => exact (hmem x hx).imp (fun hx => hj ▸ hx) fun hx => ⟨hj,hx⟩
    · exact .inl hx
  refine ⟨fun j => ?_,fun {x j k} hj hk => ?_,fun {x j} hx => ?_,fun {x j} hx => ?_,fun j => ?_⟩
  · by_cases hj : j = i
    · rw [hj,update_self]
      exact hlinked
    · rw [update_of_ne hj]
      exact hother j hj
  · rcases hsub hj with hj | ⟨hj,hj',-⟩ <;> rcases hsub hk with hk | ⟨hk,hk',-⟩
    · exact h.disjoint hj hk
    · exact absurd hj (hk' j)
    · exact absurd hk (hj' k)
    · rw [hj,hk]
  · exact (hsub hx).elim (fun hx => hblock x (h.isBlock hx)) fun hx => hx.2.2
  · exact (hsub hx).elim (fun hx => h.range hx) fun hx => hx.1.trans_le hi
  · rw [hbytes,hsz,update_apply,update_apply]
    split
    · rfl
    · exact h.bytes j

theorem removeFromFlAt_spec (hok : HdrsOk s) (h : Lists s L) (hp : s.index n = .hdr p)
    (hn : n ∈ L i) : ∃ s', removeFromFlAt s p i = some s' ∧ Removed s s' L n i := by
  have hnb := h.neighbours hn
  have hprev := prevAt_of_index hp
  have hnext := nextAt_of_index hp
  obtain ⟨s1,hs1,hc1,hn1,hp1,hh1,hb1⟩ := linkNext_spec hok i
    (s.hdrs p).hbPrev (s.hdrs p).hbNext fun y hy => h.isBlock (hnb.2 y (hprev.trans hy)).1
  let s2 : Heap :=
    { s1 with freeBytes := update s1.freeBytes i (s1.freeBytes i - (s.hdrs p).hbSz) }
  have hc2 : core s2 = core s := hc1
  obtain ⟨s3,hs3,hc3,hn3,hp3,hh3,hb3⟩ := linkPrev_spec (hdrsOk_of_core hc2 hok)
    (s.hdrs p).hbNext (s.hdrs p).hbPrev fun y hy => by
      rw [isSome_of_core hc2]
      exact h.isBlock (hnb.1 y (hnext.trans hy)).1
  have hcore : core s3 = core s := hc3.trans hc2
  have hnextAt : nextAt s3 = fun y => if prevAt s n = some y then nextAt s n else nextAt s y := by
    rw [hn3,hprev,hnext]
    exact hn1
  have hprevAt : prevAt s3 = fun y => if nextAt s n = some y then prevAt s n else prevAt s y := by
    rw [hp3,hprev,hnext]
    change (fun y => if _ = some y then _ else prevAt s1 y) = _
    rw [hp1]
  have hsum := sum_map_erase (szAt s) hn
  have hold := h.bytes i
  have hbytes : s3.freeBytes = update s.freeBytes i (((L i).erase n).map (szAt s)).sum := by
    rw [hb3]
    change update s1.freeBytes i (s1.freeBytes i - _) = _
    rw [hb1,← szAt_of_index hp]
    congr 1
    omega
  have hhead (j : Nat) : s3.hblkfreelist j = if prevAt s n = none then
      update s.hblkfreelist i (nextAt s n) j else s.hblkfreelist j := by
    rw [hh3,hprev,hnext]
    change s1.hblkfreelist j = _
    rw [hh1]
    split <;> rfl
  refine ⟨s3,?_,hcore,h.relist (h.range hn) ?_ (fun j hj => ?_) (fun x hx => .inl (mem_of_mem_erase hx))
    (fun x hx => (isSome_of_core hcore x).trans hx) (szAt_of_core hcore) hbytes,?_⟩
  · unfold removeFromFlAt
    simp only [hs1]
    exact hs3
  · obtain ⟨a,b,hab⟩ := append_of_mem hn
    have hlinked := h.linked i
    rw [hab] at hlinked ⊢
    have hnot : n ∉ a := fun ha =>
      (nodup_cons.mp (nodup_middle.mp hlinked.nodup)).1 (mem_append_left b ha)
    rw [erase_append_right _ hnot,erase_cons_head]
    apply hlinked.unlink
    · rw [hhead,update_self]
    · intro y _
      rw [hnextAt]
      exact ⟨fun hy => if_pos hy,fun hy => if_neg hy⟩
    · intro y _
      rw [hprevAt]
      exact ⟨fun hy => if_pos hy,fun hy => if_neg hy⟩
  · apply h.linked_other hn hj
    · intro m _
      rw [hnextAt]
    · intro m _
      rw [hprevAt]
    · rw [hhead,update_of_ne hj,ite_self]
  · have htotal := total_update (s := s) (h.range hn) hbytes
    omega

theorem addToFl_spec (hok : HdrsOk s) (h : Lists s L) (hp : s.index n = .hdr p)
    (hnot : ∀ i, n ∉ L i) : ∃ s', addToFl s n p = some s' ∧ Added s s' L n p := by
  obtain ⟨j,hj⟩ : ∃ j, flOf (s.hdrs p).hbSz = j := ⟨_,rfl⟩
  let s1 : Heap := { s with
    hblkfreelist := update s.hblkfreelist j (some n)
    freeBytes := update s.freeBytes j (s.freeBytes j + (s.hdrs p).hbSz) }
  let s2 := s1.updHdr p fun b => { b with hbNext := s.hblkfreelist j, hbPrev := none }
  have hok1 : HdrsOk s1 := hok.congr (fun _ _ hn => hn) rfl rfl
  have hok2 : HdrsOk s2 := hok1.updHdr p _
  have hp1 : s1.index n = .hdr p := hp
  have hp2 : s2.index n = .hdr p := hp
  have hc2 : core s2 = core s := by
    change core (s1.updHdr p _) = core s1
    exact core_updHdr_links s1 p fun _ => rfl
  have hhead_mem : ∀ y, s.hblkfreelist j = some y → y ∈ L j := fun y hy => (h.linked j).head_mem hy
  obtain ⟨s3,hs3,hc3,hn3,hp3,hh3,hb3⟩ := linkPrev_spec hok2
    (s.hblkfreelist j) (some n) fun y hy => by
      rw [isSome_of_core hc2]
      exact h.isBlock (hhead_mem y hy)
  have hok3 := hdrsOk_of_core hc3 hok2
  have hp4 : s3.index n = .hdr p := by
    rw [index_of_core hc3]
    exact hp2
  let s4 := s3.updHdr p setFree
  have hnextAt : nextAt s4 = update (nextAt s) n (s.hblkfreelist j) := by
    have hself : (setFree (s3.hdrs p)).hbNext = s.hblkfreelist j := by
      change (s3.hdrs p).hbNext = _
      rw [← nextAt_of_index hp4,hn3,nextAt_updHdr hok1 hp1,update_self]
    rw [nextAt_updHdr hok3 hp4,hself,hn3,nextAt_updHdr hok1 hp1,update_idem]
    rfl
  have hprevAt : ∀ y, prevAt s4 y = if y = n then none else
      if s.hblkfreelist j = some y then some n else prevAt s y := by
    intro y
    have hself : (setFree (s3.hdrs p)).hbPrev = none := by
      change (s3.hdrs p).hbPrev = _
      rw [← prevAt_of_index hp4,hp3,prevAt_updHdr hok1 hp1]
      simp only [update_self]
      exact if_neg fun hy => hnot j (hhead_mem n hy)
    rw [prevAt_updHdr hok3 hp4,hself,update_apply]
    split
    · rfl
    · rename_i hy
      simp only [hp3,s2,prevAt_updHdr hok1 hp1,update_of_ne hy]
      rfl
  have hcore : core s4 = core (s.updHdr p setFree) := by
    rw [core_updHdr (g := setFree) s3 p fun _ => rfl,core_updHdr (g := setFree) s p fun _ => rfl,hc3,hc2]
  have hbytes : s4.freeBytes = update s.freeBytes j (s.freeBytes j + (s.hdrs p).hbSz) := hb3
  have hszAt : szAt s4 = szAt s := by
    rw [szAt_of_core hcore]
    funext m
    unfold szAt
    rw [hdrAt_updHdr hok hp,update_apply]
    split
    · rename_i hm
      rw [hm,hdrAt_of_index hp]
      rfl
    · rfl
  have hne : ∀ {k y}, y ∈ L k → y ≠ n := by
    rintro k y hy rfl
    exact hnot k hy
  have hlists : Lists s4 (update L j (n :: L j)) := by
    refine h.relist (hj ▸ hblkFlFromBlocks_le _) ?_ (fun k hk => ?_) (fun x hx => ?_) (fun x hx => ?_) hszAt ?_
    · rw [show s4.hblkfreelist j = some n from (congrFun hh3 j).trans (update_self j _ _)]
      apply (h.linked j).push (hnot j)
      · rw [hnextAt,update_self]
      · rw [hprevAt,if_pos rfl]
      · intro y hy
        rw [hnextAt,update_of_ne (hne hy)]
      · intro y hy
        rw [hprevAt,if_neg (hne hy)]
        exact ⟨fun hy => if_pos hy,fun hy => if_neg hy⟩
    · rw [show s4.hblkfreelist k = s.hblkfreelist k from (congrFun hh3 k).trans (update_of_ne hk _ _)]
      apply (h.linked k).congr
      intro y hy
      rw [hnextAt,hprevAt,update_of_ne (hne hy),if_neg (hne hy),if_neg]
      · exact ⟨rfl,rfl⟩
      · exact fun heq => hk (h.disjoint hy (hhead_mem y heq))
    · rcases mem_cons.mp hx with rfl | hx
      · exact .inr ⟨hnot,by simp [hdrAt_of_index (show s4.index x = .hdr p from hp4)]⟩
      · exact .inl hx
    · rw [isSome_of_core hcore,hdrAt_updHdr hok hp,update_apply]
      split
      · rfl
      · exact hx
    · rw [hbytes,h.bytes j,map_cons,sum_cons,szAt_of_index hp,Nat.add_comm]
  refine ⟨s4,?_,hcore,hj ▸ hlists,?_⟩
  · have hs3' : linkPrev (Heap.updHdr s1 p fun b => { b with hbNext := s.hblkfreelist j, hbPrev := none })
      (s.hblkfreelist j) (some n) = some s3 := hs3
    unfold addToFl
    simp only [hj]
    change ((linkPrev (Heap.updHdr s1 p fun b => { b with hbNext := s.hblkfreelist j, hbPrev := none })
      (s.hblkfreelist j) (some n)).bind fun t => some (t.updHdr p setFree)) = _
    rw [hs3']
    rfl
  · have := total_update (s := s) (hj ▸ hblkFlFromBlocks_le _) hbytes
    omega

/-- The block `m` takes the place of `n` on list `i`, which loses `d` bytes. -/
theorem replace_spec (hok : HdrsOk s) (h : Lists s L) (hn : n ∈ L i) {m d : Nat} (hm : ∀ j, m ∉ L j)
    (hblock : (s.hdrAt m).isSome) (hmn : nextAt s m = nextAt s n) (hmp : prevAt s m = prevAt s n)
    (hsz : szAt s m + d = szAt s n) :
    ∃ s1 s2 l, linkNext s i (prevAt s n) (some m) = some s1 ∧
      linkPrev s1 (nextAt s n) (some m) = some s2 ∧ m ∈ l ∧ n ∉ l ∧
      (∀ x, x ≠ m → x ≠ n → (x ∈ l ↔ x ∈ L i)) ∧ core s2 = core s ∧ total s2 = total s ∧
      d ≤ s2.freeBytes i ∧
      Lists { s2 with freeBytes := update s2.freeBytes i (s2.freeBytes i - d) }
        (update L i l) := by
  have hnb := h.neighbours hn
  obtain ⟨s1,hs1,hc1,hn1,hp1,hh1,hb1⟩ := linkNext_spec hok i (prevAt s n) (some m)
    fun y hy => h.isBlock (hnb.2 y hy).1
  obtain ⟨s2,hs2,hc2,hn2,hp2,hh2,hb2⟩ := linkPrev_spec (hdrsOk_of_core hc1 hok) (nextAt s n) (some m)
    fun y hy => by
      rw [isSome_of_core hc1]
      exact h.isBlock (hnb.1 y hy).1
  have hcore : core s2 = core s := hc2.trans hc1
  have hbytes : s2.freeBytes = s.freeBytes := hb2.trans hb1
  rw [hn1] at hn2
  rw [hp1] at hp2
  obtain ⟨a,b,hab⟩ := append_of_mem hn
  have hlinked := h.linked i
  rw [hab] at hlinked
  have hmi := hm i
  rw [hab] at hmi
  have hmid := nodup_cons.mp (nodup_middle.mp hlinked.nodup)
  have hsum : ((a ++ m :: b).map (szAt s)).sum + d = ((L i).map (szAt s)).sum := by
    rw [hab]
    simp only [map_append,map_cons,sum_append,sum_cons]
    omega
  have hkeep : ∀ x, x ≠ m → x ≠ n → (x ∈ a ++ m :: b ↔ x ∈ L i) := by
    intro x hxm hxn
    rw [hab]
    simp [hxm,hxn]
  have hnm : n ≠ m := by
    rintro rfl
    exact hm i hn
  have hnl : n ∉ a ++ m :: b := by
    intro hmem
    apply hmid.1
    simpa [hnm] using hmem
  have hle : d ≤ s2.freeBytes i := by
    rw [hbytes,h.bytes i]
    omega
  have hhead (j : Nat) : s2.hblkfreelist j = if prevAt s n = none then
      update s.hblkfreelist i (some m) j else s.hblkfreelist j := by
    rw [hh2,hh1]
    split <;> rfl
  have hblocks (x : Nat) : (s2.hdrAt x).isSome = (s.hdrAt x).isSome := isSome_of_core hcore x
  refine ⟨s1,s2,a ++ m :: b,hs1,hs2,by simp,hnl,hkeep,hcore,by rw [total,hbytes,total],hle,
    h.relist (h.range hn) ?_ (fun j hj => ?_) (fun x hx => ?_) (fun x hx => (hblocks x).trans hx)
      (szAt_of_core hcore) ?_⟩
  · apply hlinked.replace hmi
    · rw [hhead,update_self]
    · change nextAt s2 m = _
      rw [hn2,← hmn]
      exact if_neg fun hy => hm i (hnb.2 m hy).1
    · change prevAt s2 m = _
      rw [hp2,← hmp]
      exact if_neg fun hy => hm i (hnb.1 m hy).1
    · intro y _
      change (_ → nextAt s2 y = _) ∧ (_ → nextAt s2 y = _)
      rw [hn2]
      exact ⟨fun hy => if_pos hy,fun hy => if_neg hy⟩
    · intro y _
      change (_ → prevAt s2 y = _) ∧ (_ → prevAt s2 y = _)
      rw [hp2]
      exact ⟨fun hy => if_pos hy,fun hy => if_neg hy⟩
  · apply h.linked_other hn hj
    · intro y _
      change nextAt s2 y = _
      rw [hn2]
    · intro y _
      change prevAt s2 y = _
      rw [hp2]
    · change s2.hblkfreelist j = _
      rw [hhead,update_of_ne hj,ite_self]
  · by_cases hxm : x = m
    · exact .inr ⟨hxm ▸ hm,(hblocks x).trans (hxm ▸ hblock)⟩
    · exact .inl ((hkeep x hxm (fun hxn => hnl (hxn ▸ hx))).mp hx)
  · dsimp only
    rw [hbytes,h.bytes i]
    congr 1
    omega

end Updates

end GcUtil.Block.LinkedLists
