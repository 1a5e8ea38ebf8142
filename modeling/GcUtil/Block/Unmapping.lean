import Mathlib
import GcUtil.Isolate.Mapping
import GcUtil.Block.Splitting

/-! What the block allocator does to `GC_unmapped_bytes`. `Steady` says that a function
leaves the mapping of all blocks alone but for some hblks and the calls it makes;
`Accounts` says that the counter is what the flags of the blocks make it. -/
namespace GcUtil.Block.Unmapping
open Function List Option Finset
open Basic Headers FreeLists Allocator HeaderTable LinkedLists BlockMap JointInvariant Reserving Splitting
open Isolate.Mapping

variable {s s' t u : Heap} {n m p q i k : Nat} {calls calls' : List MapCall}

section Counter

variable (pageSize : Nat)

def blockUnmapInner (startAddr endAddr : Nat) : Nat := if startAddr = 0 then 0 else endAddr - startAddr

def interior (start bytes : Nat) : Nat :=
  blockUnmapInner (unmapStart pageSize start bytes) (unmapEnd pageSize start bytes)

def gapBytes (start1 bytes1 start2 bytes2 : Nat) : Nat :=
  blockUnmapInner (gapRange pageSize start1 bytes1 start2 bytes2).1
    (gapRange pageSize start1 bytes1 start2 bytes2).2

/-- The counter after a call; a subtraction that would wrap is an error. -/
def countCall (bytes : Nat) : MapCall → Option Nat
  | .unmap start len => some (bytes + interior pageSize start len)
  | .remap start len =>
      if interior pageSize start len ≤ bytes then some (bytes - interior pageSize start len) else none
  | .unmapGap start1 bytes1 start2 bytes2 => some (bytes + gapBytes pageSize start1 bytes1 start2 bytes2)

def unmappedBytes (calls : List MapCall) : Option Nat := calls.foldlM (countCall pageSize) 0

variable {pageSize}

theorem interior_le (hpage : 0 < pageSize) (start bytes : Nat) : interior pageSize start bytes ≤ bytes := by
  obtain ⟨i,hi,hile,_⟩ := alignUp_spec hpage start
  obtain ⟨k,hk,hkle,_⟩ := alignDown_spec hpage (start + bytes)
  unfold interior blockUnmapInner unmapStart unmapEnd
  rw [hi,hk]
  split_ifs <;> omega

theorem interior_add (hpage : 0 < pageSize) {start1 bytes1 start2 : Nat} (hstart : 0 < start1)
    (hadj : start1 + bytes1 = start2) (bytes2 : Nat) :
    interior pageSize start1 (bytes1 + bytes2) = interior pageSize start1 bytes1 +
      interior pageSize start2 bytes2 + gapBytes pageSize start1 bytes1 start2 bytes2 := by
  have hend : start1 + (bytes1 + bytes2) = start2 + bytes2 := by omega
  obtain ⟨i,hi,hile,hilt⟩ := alignUp_spec hpage start1
  obtain ⟨j,hj,hjle,hjlt⟩ := alignDown_spec hpage start2
  obtain ⟨k,hk,hkle,hklt⟩ := alignDown_spec hpage (start2 + bytes2)
  have hup := alignUp_eq hpage start2
  unfold gapBytes gapRange interior blockUnmapInner unmapStart unmapEnd
  rw [hj] at hup
  rw [hadj,hend,hi,hj,hk,hup]
  have hlow := multiples_near pageSize j i
  have hhigh := multiples_near pageSize j k
  generalize i * pageSize = u at *
  generalize j * pageSize = d at *
  generalize k * pageSize = e at *
  dsimp only
  by_cases hcut : d = start2
  · simp only [hcut,if_true]
    split_ifs <;> omega
  · simp only [hcut,if_false]
    split_ifs <;> omega

end Counter

section Flags

def bodyAt (s : Heap) (n : Nat) : Option Hdr := (s.hdrAt n).map unlinked

theorem bodyAt_of_index (hp : s.index n = .hdr p) : bodyAt s n = some (unlinked (s.hdrs p)) := by
  rw [bodyAt,hdrAt_of_index hp,map_some]

theorem bodyAt_of_core (h : core s' = core s) : bodyAt s' = bodyAt s := by
  funext m
  have hcore := congrArg (fun t => Heap.hdrAt t m) h
  simp only [hdrAt_core] at hcore
  exact hcore

theorem bodyAt_updHdr (hok : HdrsOk s) (hp : s.index n = .hdr p) (f : Hdr → Hdr) :
    bodyAt (s.updHdr p f) = update (bodyAt s) n (some (unlinked (f (s.hdrs p)))) := by
  funext m
  rw [bodyAt,hdrAt_updHdr hok hp,update_apply,update_apply]
  split <;> rfl

theorem bodyAt_removeHeader (hp : s.index n = .hdr p) (h : removeHeader s n = some s') :
    bodyAt s' = update (bodyAt s) n none := by
  funext m
  rw [bodyAt,hdrAt_removeHeader hp h,update_apply,update_apply]
  split <;> rfl

theorem bodyAt_installHeader (hok : HdrsOk s) (n : Nat) :
    bodyAt (installHeader s n).2 = update (bodyAt s) n
      (some (unlinked { s.hdrs (newHdr s) with hbLastReclaimed := s.gcNoShort })) := by
  funext m
  rw [bodyAt,hdrAt_installHeader hok,update_apply,update_apply]
  split <;> rfl

theorem blkAt_of_bodyAt (h : bodyAt s' n = bodyAt s n) : blkAt s' n = blkAt s n := by
  have hmap : ∀ t : Heap, blkAt t n = (bodyAt t n).map blk := by
    intro t
    rw [blkAt,bodyAt]
    cases t.hdrAt n <;> rfl
  rw [hmap,hmap,h]

/-- Whether a block is free, and its size if it is flagged `WAS_UNMAPPED`. -/
def flags (b : Hdr) : Bool × Option Nat := (b.isFree, if b.isMapped then none else some b.hbSz)

def flagsAt (s : Heap) (n : Nat) : Option (Bool × Option Nat) := (s.hdrAt n).map flags

def unmappedAt (s : Heap) (n : Nat) : Option Nat := (flagsAt s n).bind Prod.snd

theorem flagsAt_eq (s : Heap) (n : Nat) : flagsAt s n = (bodyAt s n).map flags := by
  rw [flagsAt,bodyAt]
  cases s.hdrAt n <;> rfl

theorem flagsAt_of_index (h : s.index n = .hdr p) : flagsAt s n = some (flags (s.hdrs p)) := by
  simp [flagsAt,hdrAt_of_index h]

theorem flagsAt_of_none (h : s.hdrAt n = none) : flagsAt s n = none := by
  simp [flagsAt,h]

theorem unmappedAt_of_index (h : s.index n = .hdr p) :
    unmappedAt s n = if (s.hdrs p).isMapped then none else some (s.hdrs p).hbSz := by
  rw [unmappedAt,flagsAt_of_index h]
  rfl

theorem unmappedAt_of_none (h : s.hdrAt n = none) : unmappedAt s n = none := by
  rw [unmappedAt,flagsAt_of_none h]
  rfl

theorem flagsAt_updHdr (hok : HdrsOk s) (hn : s.index n = .hdr p) (f : Hdr → Hdr) :
    flagsAt (s.updHdr p f) n = some (flags (f (s.hdrs p))) := by
  rw [flagsAt_eq,bodyAt_updHdr hok hn,update_self]
  rfl

/-- The header of a block without its links, unless the block is free and mapped. -/
def seen (b : Hdr) : Option Hdr := if b.isFree && b.isMapped then none else some (unlinked b)

def seenAt (s : Heap) (n : Nat) : Option Hdr := (bodyAt s n).bind seen

theorem seen_eq_none {b : Hdr} : seen b = none ↔ b.isFree = true ∧ b.isMapped = true := by
  simp [seen]

theorem seen_of_flags {b c : Hdr} (hflags : c.hbFlags = b.hbFlags) (h : seen b = none) : seen c = none := by
  rw [seen_eq_none,Hdr.isFree,Hdr.isMapped,hflags]
  exact seen_eq_none.mp h

theorem isFree_of_seen {b : Hdr} (h : ∀ c, seen b = some c → c.isFree = true) : b.isFree = true := by
  by_contra hused
  exact hused (h (unlinked b) (by simp [seen,hused]))

theorem seenAt_of_index (h : s.index n = .hdr p) : seenAt s n = seen (s.hdrs p) := by
  rw [seenAt,bodyAt_of_index h]
  rfl

theorem seenAt_of_none (h : s.hdrAt n = none) : seenAt s n = none := by
  rw [seenAt,bodyAt,h]
  rfl

theorem seen_of_core (h : core s' = core s) (p : Nat) : seen (s'.hdrs p) = seen (s.hdrs p) := by
  have hsame := congrArg seen (hdr_of_core h p)
  exact hsame

theorem seenAt_updHdr (hok : HdrsOk s) (hn : s.index n = .hdr p) (f : Hdr → Hdr) :
    seenAt (s.updHdr p f) n = seen (f (s.hdrs p)) := by
  rw [seenAt,bodyAt_updHdr hok hn,update_self]
  rfl

theorem flagsAt_of_seenAt {b : Hdr} (h : seenAt s n = some b) : flagsAt s n = some (flags b) := by
  obtain ⟨c,hc,hb⟩ := bind_eq_some_iff.mp h
  rw [flagsAt_eq,hc]
  unfold seen at hb
  split at hb
  · cases hb
  · cases hb
    rfl

theorem unmappedAt_of_seenAt (h : seenAt s n = none) : unmappedAt s n = none := by
  rw [unmappedAt,flagsAt_eq]
  cases hb : bodyAt s n with
  | none => rfl
  | some b =>
    rw [seenAt,hb] at h
    change (if b.isMapped then none else some b.hbSz) = none
    rw [if_pos (seen_eq_none.mp h).2]

end Flags

section Steady

/-- The mapping of the block at `n` is the same, or there is no flag before and after. -/
def SameAt (s s' : Heap) (n : Nat) : Prop :=
  flagsAt s' n = flagsAt s n ∨ unmappedAt s n = none ∧ unmappedAt s' n = none

structure Steady (off : Finset Nat) (calls : List MapCall) (s s' : Heap) : Prop where
  hdrs : HdrsOk s → HdrsOk s'
  keyed : Keyed s → Keyed s'
  calls : s'.mapCalls = s.mapCalls ++ calls
  same : ∀ n, n ∉ off → SameAt s s' n

/-- The blocks outside `off` that are in use or unmapped are the same. -/
structure Keeps (off : Finset Nat) (calls : List MapCall) (s s' : Heap) : Prop where
  hdrs : HdrsOk s → HdrsOk s'
  keyed : Keyed s → Keyed s'
  calls : s'.mapCalls = s.mapCalls ++ calls
  same : ∀ n, n ∉ off → seenAt s' n = seenAt s n

variable {off o : Finset Nat}

theorem SameAt.unmappedAt_eq (h : SameAt s s' n) : unmappedAt s' n = unmappedAt s n := by
  rcases h with h | h
  · rw [unmappedAt,h,unmappedAt]
  · rw [h.1,h.2]

theorem sameAt_of_seenAt (h : seenAt s' n = seenAt s n) : SameAt s s' n := by
  cases hs : seenAt s n with
  | none => exact .inr ⟨unmappedAt_of_seenAt hs,unmappedAt_of_seenAt (h.trans hs)⟩
  | some b => exact .inl ((flagsAt_of_seenAt (h.trans hs)).trans (flagsAt_of_seenAt hs).symm)

theorem Steady.unmappedAt_eq (h : Steady ∅ calls s s') : unmappedAt s' = unmappedAt s :=
  funext fun n => (h.same n (notMem_empty n)).unmappedAt_eq

namespace Keeps

theorem refl (s : Heap) : Keeps off [] s s := ⟨id,id,by simp,fun _ _ => rfl⟩

theorem trans (h : Keeps off calls s t) (h' : Keeps off calls' t u) : Keeps off (calls ++ calls') s u where
  hdrs hok := h'.hdrs (h.hdrs hok)
  keyed hk := h'.keyed (h.keyed hk)
  calls := by rw [h'.calls,h.calls,append_assoc]
  same n hn := (h'.same n hn).trans (h.same n hn)

theorem after (h' : Keeps off [] t u) (h : Keeps off calls s t) : Keeps off calls s u := by
  have := h.trans h'
  rwa [append_nil] at this

theorem mono (h : Keeps off calls s s') (hoff : off ⊆ o) : Keeps o calls s s' :=
  { h with same := fun n hn => h.same n fun hmem => hn (hoff hmem) }

theorem silent (h : Keeps ∅ calls s s') : Keeps off calls s s' := h.mono (empty_subset off)

/-- An exempt hblk needs no exemption if it has come to no harm. -/
theorem settle (h : Keeps (insert n off) calls s s') (hn : seenAt s' n = seenAt s n) : Keeps off calls s s' := by
  refine { h with same := fun m hm => ?_ }
  by_cases hmn : m = n
  · exact hmn ▸ hn
  · exact h.same m (by simp [hmn,hm])

theorem settle_self (h : Keeps {n} calls s s') (hn : seenAt s' n = seenAt s n) : Keeps off calls s s' := by
  have hempty : Keeps (insert n ∅) calls s s' := by simpa using h
  exact (hempty.settle hn).silent

theorem steady_of (h : Keeps off calls s s') (hoff : ∀ n ∈ off, n ∉ o → SameAt s s' n) : Steady o calls s s' := by
  refine { h with same := fun n hn => ?_ }
  by_cases hmem : n ∈ off
  · exact hoff n hmem hn
  · exact sameAt_of_seenAt (h.same n hmem)

theorem steady (h : Keeps off calls s s') : Steady off calls s s' := h.steady_of fun _ hn hno => absurd hn hno

theorem of_bodies (hhdrs : HdrsOk s → HdrsOk s') (hkeyed : Keyed s → Keyed s')
    (hcalls : s'.mapCalls = s.mapCalls ++ calls) (h : ∀ n, n ∉ off → bodyAt s' n = bodyAt s n) :
    Keeps off calls s s' :=
  ⟨hhdrs,hkeyed,hcalls,fun n hn => by rw [seenAt,h n hn,seenAt]⟩

theorem of_core (h : core s' = core s) : Keeps off [] s s' := by
  have hkeys := congrArg Heap.bottomKeys h
  have hcalls := congrArg Heap.mapCalls h
  refine of_bodies (hdrsOk_of_core h) (fun hk => ?_) ?_ fun n _ => congrFun (bodyAt_of_core h) n
  · exact hk.shrink hkeys fun n hn => by rwa [index_of_core h] at hn
  · rw [append_nil]
    exact hcalls

section

variable (hok : HdrsOk s) (hn : s.index n = .hdr p)
include hok hn

theorem updHdr (f : Hdr → Hdr) :
    Keeps {n} [] s (s.updHdr p f) := by
  refine of_bodies (fun h => h.updHdr p f) (fun hk => hk.shrink rfl fun _ => id) (by simp [Heap.updHdr]) ?_
  intro m hm
  rw [bodyAt_updHdr hok hn,update_of_ne (by simpa using hm)]

theorem updHdr_seen {f : Hdr → Hdr}
    (h : seen (f (s.hdrs p)) = seen (s.hdrs p)) : Keeps off [] s (s.updHdr p f) := by
  apply (updHdr hok hn f).settle_self
  rw [seenAt_updHdr hok hn,h,seenAt_of_index hn]

theorem updHdr_mapped {f : Hdr → Hdr}
    (hold : (s.hdrs p).isMapped = true) (hnew : (f (s.hdrs p)).isMapped = true) :
    Steady o [] s (s.updHdr p f) := by
  refine (updHdr hok hn f).steady_of fun m hm _ => ?_
  rw [Finset.mem_singleton.mp hm]
  right
  rw [unmappedAt_of_index hn,unmappedAt_of_index (s := s.updHdr p f) hn,updHdr_hdrs_self,hold,hnew]
  exact ⟨rfl,rfl⟩

end

theorem call (s : Heap) (calls : List MapCall) : Keeps off calls s (s.call calls) :=
  of_bodies (fun h => h.congr (fun _ _ hx => hx) rfl rfl) (fun hk => hk.shrink rfl fun _ => id) rfl fun _ _ => rfl

theorem installHeader (hok : HdrsOk s) (n : Nat) : Keeps {n} [] s (installHeader s n).2 := by
  refine of_bodies (fun h => h.installHeader n) (fun hk => hk.installHeader n) ?_ fun m hm => ?_
  · obtain ⟨keys,heq⟩ := installHeader_eq s n
    rw [heq,append_nil]
  · rw [bodyAt_installHeader hok,update_of_ne (by simpa using hm)]

theorem removeHeader (hn : s.index n = .hdr p) (h : removeHeader s n = some s') : Keeps {n} [] s s' := by
  have heq := h
  rw [removeHeader_eq hn] at heq
  cases heq
  refine of_bodies (fun hok => hok.removeHeader hn h) (fun hk => Keyed.shrink hk ?_ fun m hm => ?_) (by simp) ?_
  · rfl
  · dsimp only at hm
    rw [update_apply] at hm
    split at hm
    · exact absurd rfl hm
    · exact hm
  · intro m hm
    rw [bodyAt_removeHeader hn h,update_of_ne (by simpa using hm)]

section

variable (hhdrs : s'.hdrs = s.hdrs) (hpool : s'.hdrFreeList = s.hdrFreeList)
  (hscratch : s'.hdrScratch = s.hdrScratch) (hcalls : s'.mapCalls = s.mapCalls)
include hhdrs hpool hscratch hcalls

/-- Changes of the index behind `n`, where there are no headers. -/
theorem reindex (hindex : ∀ m, s'.index m = s.index m ∨ s.hdrAt m = none ∧ ∀ p, s'.index m ≠ .hdr p)
    (hkeyed : Keyed s → Keyed s') : Keeps off [] s s' := by
  refine of_bodies (fun hok => hok.congr (fun m p hm => ?_) hpool hscratch) hkeyed ?_ fun m _ => ?_
  · rcases hindex m with hsame | ⟨_,hno⟩
    · rwa [hsame] at hm
    · exact absurd hm (hno p)
  · rw [hcalls,append_nil]
  · rw [bodyAt,hdrAt_reindex hhdrs hindex,bodyAt]

theorem congr (hindex : s'.index = s.index) (hkeys : s'.bottomKeys = s.bottomKeys) : Keeps off [] s s' :=
  reindex hhdrs hpool hscratch hcalls (fun m => .inl (congrFun hindex m)) fun hk =>
    hk.shrink hkeys fun _ hm => hindex ▸ hm

end

end Keeps

end Steady

section Accounts

variable {cells off : Finset Nat}

def heldAt (pageSize : Nat) (s : Heap) (n : Nat) : Nat :=
  (unmappedAt s n).elim 0 (interior pageSize (n * hblkSize))

structure Accounts (s : Heap) (cells : Finset Nat) : Prop where
  keyed : Keyed s
  high : ∀ n ∈ cells, (n + 1) * hblkSize ≤ wordMax
  used : ∀ n size, flagsAt s n = some (false, size) → size = none
  counted : ∀ pageSize, 0 < pageSize →
    unmappedBytes pageSize s.mapCalls = some (∑ n ∈ cells, heldAt pageSize s n)

theorem accounts_init (hdrs : Nat → Hdr) : Accounts (Heap.init hdrs) ∅ where
  keyed := keyed_init hdrs
  high := by simp
  used n size h := by
    rw [flagsAt_of_none rfl] at h
    cases h
  counted _ _ := rfl

theorem unmappedBytes_append (pageSize : Nat) (calls calls' : List MapCall) :
    unmappedBytes pageSize (calls ++ calls') =
      (unmappedBytes pageSize calls).bind fun bytes => calls'.foldlM (countCall pageSize) bytes := by
  rw [unmappedBytes,foldlM_append]
  rfl

section

variable (h : Accounts s cells)
include h

/-- A step accounts for itself if its calls make up for what changes in `off`. -/
theorem Accounts.step (hoff : off ⊆ cells) (hs : Steady off calls s s')
    (hused : ∀ n ∈ off, ∀ size, flagsAt s' n = some (false, size) → size = none)
    (hcalls : ∀ pageSize, 0 < pageSize → ∀ rest,
      calls.foldlM (countCall pageSize) (rest + ∑ n ∈ off, heldAt pageSize s n) =
        some (rest + ∑ n ∈ off, heldAt pageSize s' n)) : Accounts s' cells where
  keyed := hs.keyed h.keyed
  high := h.high
  used n size hn := by
    by_cases hmem : n ∈ off
    · exact hused n hmem size hn
    · rcases hs.same n hmem with hsame | ⟨_,hnone⟩
      · exact h.used n size (hsame ▸ hn)
      · rw [unmappedAt,hn] at hnone
        exact hnone
  counted pageSize hpage := by
    have hrest : ∑ n ∈ cells \ off, heldAt pageSize s' n = ∑ n ∈ cells \ off, heldAt pageSize s n := by
      apply sum_congr rfl
      intro n hn
      rw [heldAt,(hs.same n (mem_sdiff.mp hn).2).unmappedAt_eq,heldAt]
    rw [hs.calls,unmappedBytes_append,h.counted pageSize hpage,bind_some,
      ← sum_sdiff hoff,hcalls pageSize hpage,← sum_sdiff hoff,hrest]

theorem Accounts.steady (hs : Steady ∅ [] s s') : Accounts s' cells := by
  apply h.step (empty_subset cells) hs
  · simp
  · simp

theorem Accounts.grow {cells' : Finset Nat} (hsub : cells ⊆ cells')
    (hnew : ∀ n ∈ cells', n ∉ cells → s.hdrAt n = none)
    (hhigh : ∀ n ∈ cells', (n + 1) * hblkSize ≤ wordMax) : Accounts s cells' where
  keyed := h.keyed
  high := hhigh
  used := h.used
  counted pageSize hpage := by
    rw [h.counted pageSize hpage,← sum_subset hsub]
    intro n hn hout
    rw [heldAt,unmappedAt_of_none (hnew n hn hout)]
    rfl

theorem Accounts.isMapped (hp : s.index n = .hdr p) (hused : (s.hdrs p).isFree = false) :
    (s.hdrs p).isMapped = true := by
  have hflags := flagsAt_of_index hp
  rw [flags,hused] at hflags
  by_contra hcon
  have := h.used n _ hflags
  simp [hcon] at this

end

end Accounts

section Merging

theorem addToFl_keeps (hok : HdrsOk s) (hp : s.index n = .hdr p) (h : addToFl s n p = some s') :
    Keeps {n} [] s s' ∧ seenAt s' n = seen (setFree (s.hdrs p)) := by
  have hcore := addToFl_core h
  refine ⟨(Keeps.of_core hcore).after (Keeps.updHdr hok hp setFree),?_⟩
  rw [seenAt,bodyAt_of_core hcore,bodyAt_updHdr hok hp,update_self]
  rfl

def enlarge (sz : Nat) (b : Hdr) : Hdr := { b with hbSz := b.hbSz + sz }

/-- The state `u` in which `mergeWithNext` has both blocks off their lists, and the state `v`
in which the first has the size of both and the second no header. -/
structure Absorbed (s : Heap) (n p m q : Nat) (u v : Heap) : Prop where
  core : core u = core s
  hdrs : HdrsOk u
  atFirst : u.index n = .hdr p
  atNext : u.index m = .hdr q
  removed : removeHeader (u.updHdr p (enlarge (s.hdrs q).hbSz)) m = some v
  index : v.index = update u.index m .nil
  hdrsEq : v.hdrs = (u.updHdr p (enlarge (s.hdrs q).hbSz)).hdrs
  inPlace : v.index n = .hdr p

theorem mergeWithNext_absorbed (hok : HdrsOk s) (hp : s.index n = .hdr p) (hq : s.index m = .hdr q)
    (hne : n ≠ m) (h : mergeWithNext s n p i m q = some s') :
    ∃ u v, Absorbed s n p m q u v ∧ addToFl v n p = some s' := by
  unfold mergeWithNext at h
  obtain ⟨t,ht,h⟩ := bind_eq_some_iff.mp h
  obtain ⟨u,hu,h⟩ := bind_eq_some_iff.mp h
  obtain ⟨v,hv,h⟩ := bind_eq_some_iff.mp h
  have hcore : core u = core s := (removeFromFlAt_core hu).trans (removeFromFlAt_core ht)
  have hpu : u.index n = .hdr p := by rw [index_of_core hcore,hp]
  have hqu : u.index m = .hdr q := by rw [index_of_core hcore,hq]
  have hvm := hv
  rw [removeHeader_eq (s := u.updHdr p _) hqu] at hvm
  cases hvm
  exact ⟨u,_,⟨hcore,hdrsOk_of_core hcore hok,hpu,hqu,hv,rfl,rfl,(update_of_ne hne _ _).trans hpu⟩,h⟩

theorem mergeWithNext_keeps (hok : HdrsOk s) (hp : s.index n = .hdr p) (hq : s.index m = .hdr q)
    (hne : n ≠ m) (h : mergeWithNext s n p i m q = some s') :
    Keeps {n, m} [] s s' ∧ flagsAt s' m = none ∧ flagsAt s' n =
      some (true, if (s.hdrs p).isMapped then none else some ((s.hdrs p).hbSz + (s.hdrs q).hbSz)) := by
  obtain ⟨u,v,ha,h⟩ := mergeWithNext_absorbed hok hp hq hne h
  have hupd := (Keeps.updHdr ha.hdrs ha.atFirst (enlarge (s.hdrs q).hbSz)).mono (o := {n, m}) (by simp)
  have hrem := (Keeps.removeHeader (s := u.updHdr p _) ha.atNext ha.removed).mono (o := {n, m}) (by simp)
  have hokv := hrem.hdrs (hupd.hdrs ha.hdrs)
  have hcoreAdd := addToFl_core h
  have hset := (Keeps.updHdr hokv ha.inPlace setFree).mono (o := {n, m}) (by simp)
  refine ⟨?_,?_,?_⟩
  · exact (Keeps.of_core hcoreAdd).after (hset.after (hrem.after (hupd.after (Keeps.of_core ha.core))))
  · rw [flagsAt_eq,bodyAt_of_core hcoreAdd,← flagsAt_eq]
    apply flagsAt_of_none
    rw [hdrAt_eq_none,updHdr_index,ha.index,update_self]
    simp
  · rw [flagsAt_eq,bodyAt_of_core hcoreAdd,← flagsAt_eq,flagsAt_updHdr hokv ha.inPlace,ha.hdrsEq,updHdr_hdrs_self]
    change some (true, if (u.hdrs p).isMapped then none else some ((u.hdrs p).hbSz + _)) = _
    have hmapped := congrArg Hdr.isMapped (hdr_of_core ha.core p)
    rw [hbSz_of_core ha.core,show (u.hdrs p).isMapped = (s.hdrs p).isMapped from hmapped]

end Merging

section Freeing

section

variable (hok : HdrsOk s) (hp : s.index n = .hdr p)
include hok hp

theorem absorb_keeps (hq : s.index m = .hdr q) (hne : n ≠ m)
    (hseen : seen (s.hdrs p) = none) (hseenq : seen (s.hdrs q) = none) {f : Hdr → Hdr}
    (hf : (f (s.hdrs p)).hbFlags = (s.hdrs p).hbFlags) (h : removeHeader (s.updHdr p f) m = some s') :
    Keeps ∅ [] s s' ∧ s'.index n = .hdr p ∧ seen (s'.hdrs p) = none := by
  have hnew := seen_of_flags hf hseen
  have hupd : Keeps {m} [] s (s.updHdr p f) := Keeps.updHdr_seen hok hp (hnew.trans hseen.symm)
  have hrem := Keeps.removeHeader (s := s.updHdr p f) hq h
  have hgone : seenAt s' m = none := by
    apply seenAt_of_none
    rw [hdrAt_removeHeader (s := s.updHdr p f) hq h,update_self]
  refine ⟨(hrem.after hupd).settle_self ?_,?_⟩
  · rw [hgone,seenAt_of_index hq,hseenq]
  · rw [removeHeader_eq (s := s.updHdr p f) hq] at h
    cases h
    refine ⟨?_,?_⟩
    · dsimp only
      rw [update_of_ne hne,updHdr_index,hp]
    · change seen ((s.updHdr p f).hdrs p) = none
      rw [updHdr_hdrs_self,hnew]

theorem coalesceNext_keeps (hseen : seen (s.hdrs p) = none)
    (hsz : hblkSize ≤ (s.hdrs p).hbSz) (h : coalesceNext s n p = some s') :
    Keeps ∅ [] s s' ∧ s'.index n = .hdr p ∧ seen (s'.hdrs p) = none := by
  have hpos : 0 < divHblksz (s.hdrs p).hbSz := Nat.div_pos hsz (by decide)
  unfold coalesceNext at h
  dsimp only at h
  split at h
  · cases h
    exact ⟨Keeps.refl s,hp,hseen⟩
  · cases h
  · rename_i q hq
    split at h
    · rename_i hcond
      simp only [Bool.and_eq_true] at hcond
      obtain ⟨t,ht,h⟩ := bind_eq_some_iff.mp h
      have hcore := removeFromFlAt_core ht
      obtain ⟨habsorb,hkeep⟩ := absorb_keeps (hdrsOk_of_core hcore hok) (by rw [index_of_core hcore,hp])
        (by rw [index_of_core hcore,hq]) (by omega) (by rw [seen_of_core hcore,hseen])
        (by rw [seen_of_core hcore,seen_eq_none.mpr hcond.1]) rfl h
      exact ⟨habsorb.after (Keeps.of_core hcore),hkeep⟩
    · cases h
      exact ⟨Keeps.refl s,hp,hseen⟩

theorem coalescePrev_keeps (hseen : seen (s.hdrs p) = none)
    {prev : Option Nat} (hprev : ∀ m, prev = some m → m ≠ n ∧ ∀ c, seenAt s m = some c → c.isFree = true)
    {r : Nat × Nat × Heap} (h : coalescePrev s prev n p = some r) :
    Keeps ∅ [] s r.2.2 ∧ r.2.2.index r.1 = .hdr r.2.1 ∧ seen (r.2.2.hdrs r.2.1) = none := by
  unfold coalescePrev at h
  split at h
  · cases h
    exact ⟨Keeps.refl s,hp,hseen⟩
  · rename_i m
    obtain ⟨hmn,hfree⟩ := hprev m rfl
    split at h
    · rename_i q hq
      dsimp only at h
      split at h
      · rename_i hcond
        simp only [Bool.and_eq_true] at hcond
        obtain ⟨t,ht,h⟩ := bind_eq_some_iff.mp h
        obtain ⟨u,hu,h⟩ := bind_eq_some_iff.mp h
        cases h
        have hcore := removeFromFlAt_core ht
        have hqt : seen (t.hdrs q) = none := by
          rw [seenAt_of_index hq] at hfree
          rw [seen_of_core hcore,seen_eq_none.mpr ⟨isFree_of_seen hfree,hcond.1⟩]
        obtain ⟨habsorb,hkeep⟩ := absorb_keeps (hdrsOk_of_core hcore hok) (by rw [index_of_core hcore,hq])
          (by rw [index_of_core hcore,hp]) hmn hqt (by rw [seen_of_core hcore,hseen]) rfl hu
        exact ⟨habsorb.after (Keeps.of_core hcore),hkeep⟩
      · cases h
        exact ⟨Keeps.refl s,hp,hseen⟩
    · cases h

end

theorem findStartingHblk_le {fuel h : Nat} {r : Nat × Nat} (hr : findStartingHblk s fuel h = some r) :
    r.1 ≤ h := by
  induction fuel generalizing h with
  | zero => cases hr
  | succ fuel ih =>
    rw [findStartingHblk] at hr
    split at hr
    · cases hr
    · have := ih hr
      omega
    · cases hr
      exact le_refl h

theorem freeBlockEndingAt_ne (hn : 0 < n) {b : Hdr} (hb : s.hdrAt n = some b) (hsz : 0 < b.hbSz)
    (h : freeBlockEndingAt s n = some m) : m ≠ n := by
  unfold freeBlockEndingAt at h
  obtain ⟨k,hk,h⟩ := bind_eq_some_iff.mp h
  obtain ⟨hhdr,hhk,h⟩ := bind_eq_some_iff.mp h
  split at h
  case isFalse => cases h
  cases h
  unfold getBlockEndingAt at hk
  split at hk
  · obtain ⟨k',_,hk⟩ := bind_eq_some_iff.mp hk
    obtain ⟨hhdr',hhk',hk⟩ := bind_eq_some_iff.mp hk
    split at hk
    case isFalse => cases hk
    rename_i heq
    cases hk
    rintro rfl
    rw [hb] at hhk'
    cases hhk'
    omega
  · obtain ⟨r,hr,rfl⟩ := map_eq_some_iff.mp hk
    have := findStartingHblk_le hr
    omega

theorem freeBlockEndingAt_seen (h : freeBlockEndingAt s n = some m) {c : Hdr} (hc : seenAt s m = some c) :
    c.isFree = true := by
  unfold freeBlockEndingAt at h
  obtain ⟨k,_,h⟩ := bind_eq_some_iff.mp h
  obtain ⟨b,hb,h⟩ := bind_eq_some_iff.mp h
  split at h
  · rename_i hfree
    cases h
    have hflags := flagsAt_of_seenAt hc
    rw [flagsAt,hb] at hflags
    have hsame := congrArg Prod.fst (Option.some.inj hflags)
    exact hsame.symm.trans hfree
  · cases h

theorem linkFreed_keeps (hok : HdrsOk s) (hp : s.index n = .hdr p) (hn : 0 < n)
    (hseen : seen (s.hdrs p) = none) (hsz : hblkSize ≤ (s.hdrs p).hbSz) {size : Nat}
    (h : linkFreed s n p size = some s') : Keeps ∅ [] s s' := by
  unfold linkFreed at h
  obtain ⟨t,ht,h⟩ := bind_eq_some_iff.mp h
  obtain ⟨⟨m,q,u⟩,hu,h⟩ := bind_eq_some_iff.mp h
  obtain ⟨hnext,hpt,hft⟩ := coalesceNext_keeps hok hp hseen hsz ht
  have hprev : ∀ m, freeBlockEndingAt s n = some m → m ≠ n ∧ ∀ c, seenAt t m = some c → c.isFree = true := by
    intro m hm
    refine ⟨freeBlockEndingAt_ne hn (hdrAt_of_index hp) (lt_of_lt_of_le (by decide) hsz) hm,fun c hc => ?_⟩
    rw [hnext.same m (by simp)] at hc
    exact freeBlockEndingAt_seen hm hc
  obtain ⟨hback,hqu,hfu⟩ := coalescePrev_keeps (hnext.hdrs hok) hpt hft hprev hu
  have hcount : Keeps ∅ [] u { u with largeFreeBytes := u.largeFreeBytes + size } :=
    Keeps.congr rfl rfl rfl rfl rfl rfl
  obtain ⟨hadd,hnone⟩ := addToFl_keeps (hcount.hdrs (hback.hdrs (hnext.hdrs hok))) hqu h
  have hlast : Keeps ∅ [] { u with largeFreeBytes := u.largeFreeBytes + size } s' := by
    refine hadd.settle_self ?_
    have hold : seenAt { u with largeFreeBytes := u.largeFreeBytes + size } m = none :=
      (seenAt_of_index hqu).trans hfu
    rw [hnone,hold]
    exact seen_eq_none.mpr ⟨rfl,(seen_eq_none.mp hfu).2⟩
  exact hlast.after (hcount.after (hback.after hnext))

theorem removeCounts_keeps (size : Nat) (hin : ∀ x, n < x → x < n + objSzToBlocks size → s.hdrAt x = none) :
    Keeps ∅ [] s (removeCounts s n size) := by
  have hdrop : Keeps ∅ [] s s.invalidateHdrCache := Keeps.congr rfl rfl rfl rfl rfl rfl
  unfold removeCounts
  dsimp only
  split
  · exact hdrop
  · split
    · exact hdrop
    · rw [nilLoop_eq]
      refine Keeps.reindex rfl rfl rfl rfl (fun x => ?_) fun hk => Keyed.shrink hk rfl fun x hx => ?_
      · dsimp only
        split
        · rename_i hx
          exact .inr ⟨hin x hx.1 (by omega),by simp⟩
        · exact .inl rfl
      · dsimp only at hx
        split at hx
        · exact absurd rfl hx
        · exact hx

theorem removeCounts_start (s : Heap) (n size : Nat) :
    (removeCounts s n size).hdrs = s.hdrs ∧ (removeCounts s n size).index n = s.index n := by
  unfold removeCounts
  dsimp only
  split
  · exact ⟨rfl,rfl⟩
  · split
    · exact ⟨rfl,rfl⟩
    · rw [nilLoop_eq]
      refine ⟨rfl,?_⟩
      dsimp only
      rw [if_neg (by omega)]
      rfl

/-- `GC_freehblk` for a mapped block without headers inside. -/
theorem freehblk_keeps (hok : HdrsOk s) (hp : s.index n = .hdr p) (hn : 0 < n)
    (hmapped : (s.hdrs p).isMapped = true) (hpos : 0 < (s.hdrs p).hbSz)
    (hin : ∀ x, n < x → x < n + objSzToBlocks (s.hdrs p).hbSz → s.hdrAt x = none)
    (h : freehblk s n = some s') : Keeps {n} [] s s' ∧ seenAt s' n = none := by
  have hblocks : objSzToBlocks (hblkSize * objSzToBlocks (s.hdrs p).hbSz) = objSzToBlocks (s.hdrs p).hbSz := by
    rw [Nat.mul_comm]
    exact objSzToBlocks_mul _
  have hsize : hblkSize ≤ hblkSize * objSzToBlocks (s.hdrs p).hbSz :=
    Nat.le_mul_of_pos_right _ (objSzToBlocks_pos hpos)
  unfold freehblk at h
  simp only [show s.invalidateHdrCache.index n = .hdr p from hp] at h
  change (if _ then _ else if _ then _ else linkFreed _ n p (hblkSize * objSzToBlocks (s.hdrs p).hbSz)) =
    some s' at h
  split at h
  · cases h
  · split at h
    · cases h
    · have hdrop : Keeps ∅ [] s s.invalidateHdrCache := Keeps.congr rfl rfl rfl rfl rfl rfl
      have hcounts := removeCounts_keeps (s := s.invalidateHdrCache) (n := n)
        (hblkSize * objSzToBlocks (s.hdrs p).hbSz) (by rwa [hblocks])
      obtain ⟨hhdrs,hstart⟩ := removeCounts_start s.invalidateHdrCache n
        (hblkSize * objSzToBlocks (s.hdrs p).hbSz)
      set t := removeCounts s.invalidateHdrCache n (hblkSize * objSzToBlocks (s.hdrs p).hbSz)
      have hokt := hcounts.hdrs (hdrop.hdrs hok)
      have hpt : t.index n = .hdr p := hstart.trans hp
      let f : Hdr → Hdr := fun b =>
        { b with hbSz := hblkSize * objSzToBlocks (s.hdrs p).hbSz, hbLastReclaimed := t.gcNoShort }
      let v := (t.updHdr p f).updHdr p setFree
      have hsz := Keeps.updHdr hokt hpt f
      have hset := Keeps.updHdr (hsz.hdrs hokt) hpt setFree
      have hv : v.hdrs p = setFree (f (t.hdrs p)) := by rw [updHdr_hdrs_self,updHdr_hdrs_self]
      have hseen : seen (v.hdrs p) = none := by
        rw [hv,hhdrs]
        exact seen_eq_none.mpr ⟨rfl,hmapped⟩
      have hlink := linkFreed_keeps (s := v) (hset.hdrs (hsz.hdrs hokt)) hpt hn hseen
        (by rw [hv]; exact hsize) h
      refine ⟨hlink.silent.after (hset.after (hsz.after (hcounts.after hdrop).silent)),?_⟩
      rw [hlink.same n (by simp),seenAt_of_index (s := v) hpt,hseen]

end Freeing

section Matching

/-- The calls that make two neighbours consistent before they are merged, and whether
they end up mapped. -/
inductive MergeCalls (s : Heap) (n p m q : Nat) : Bool → List MapCall → Prop
  | bothMapped : (s.hdrs p).isMapped = true → (s.hdrs q).isMapped = true → MergeCalls s n p m q true []
  | remapNext : (s.hdrs p).isMapped = true → (s.hdrs q).isMapped = false →
      MergeCalls s n p m q true [.remap (m * hblkSize) (s.hdrs q).hbSz]
  | unmapFirst : (s.hdrs p).isMapped = true → (s.hdrs q).isMapped = false →
      MergeCalls s n p m q false [.unmap (n * hblkSize) (s.hdrs p).hbSz,
        .unmapGap (n * hblkSize) (s.hdrs p).hbSz (m * hblkSize) (s.hdrs q).hbSz]
  | remapFirst : (s.hdrs p).isMapped = false → (s.hdrs q).isMapped = true →
      MergeCalls s n p m q true [.remap (n * hblkSize) (s.hdrs p).hbSz]
  | unmapNext : (s.hdrs p).isMapped = false → (s.hdrs q).isMapped = true →
      MergeCalls s n p m q false [.unmap (m * hblkSize) (s.hdrs q).hbSz,
        .unmapGap (n * hblkSize) (s.hdrs p).hbSz (m * hblkSize) (s.hdrs q).hbSz]
  | bothUnmapped : (s.hdrs p).isMapped = false → (s.hdrs q).isMapped = false →
      MergeCalls s n p m q false [.unmapGap (n * hblkSize) (s.hdrs p).hbSz (m * hblkSize) (s.hdrs q).hbSz]

structure Matched (s s' : Heap) (n p m q : Nat) : Prop where
  keeps : ∃ mapped calls, MergeCalls s n p m q mapped calls ∧ Keeps {n} calls s s' ∧
    (s'.hdrs p).isMapped = mapped
  sizes : (s'.hdrs p).hbSz = (s.hdrs p).hbSz ∧ (s'.hdrs q).hbSz = (s.hdrs q).hbSz
  index : s'.index = s.index
  blocks : ∀ {L cells off}, Blocks s L cells off → Blocks s' L cells off
  blks : blkAt s' = blkAt s
  sums : total s' = total s ∧ counters s' = counters s

theorem matched_of_keep {mapped : Bool} (h : MergeCalls s n p m q mapped calls)
    (hp : (s.hdrs p).isMapped = mapped) : Matched s (s.call calls) n p m q where
  keeps := ⟨mapped,calls,h,Keeps.call s calls,hp⟩
  sizes := ⟨rfl,rfl⟩
  index := rfl
  blocks hB := hB.call calls
  blks := rfl
  sums := ⟨rfl,rfl⟩

section

variable (hok : HdrsOk s) (hp : s.index n = .hdr p)
include hok hp

theorem matched_of_flag {mapped : Bool}
    (h : MergeCalls s n p m q mapped calls) {f : Hdr → Hdr}
    (hf : ∀ b, (f b).isMapped = mapped ∧ (f b).hbSz = b.hbSz)
    (hkeep : ∀ b, (f b).hbNext = b.hbNext ∧ (f b).hbPrev = b.hbPrev ∧ blk (f b) = blk b) :
    Matched s ((s.call calls).updHdr p f) n p m q where
  keeps := by
    have hs : Keeps {n} calls s (s.call calls) := Keeps.call s calls
    refine ⟨mapped,calls,h,(Keeps.updHdr (hs.hdrs hok) hp f).after hs,?_⟩
    rw [updHdr_hdrs_self]
    exact (hf _).1
  sizes := by
    rw [updHdr_hdrs_self,(hf _).2]
    refine ⟨rfl,?_⟩
    by_cases hqp : q = p
    · rw [hqp,updHdr_hdrs_self,(hf _).2]
      rfl
    · rw [updHdr_hdrs_of_ne _ _ hqp]
      rfl
  index := rfl
  blocks hB := ((hB.call calls).updHdr_keep hp (hkeep _).1 (hkeep _).2.1 (hkeep _).2.2).1
  blks := by
    have hcall : Keeps ∅ calls s (s.call calls) := Keeps.call s calls
    rw [blkAt_updHdr (hcall.hdrs hok) hp,(hkeep _).2.2]
    change update (blkAt s) n (some (blk (s.hdrs p))) = blkAt s
    rw [← blkAt_of_index hp,update_eq_self]
  sums := ⟨rfl,rfl⟩

theorem matchSmaller_matched (m q : Nat) :
    Matched s (matchSmaller s n p m q) n p m q := by
  unfold matchSmaller
  cases hpm : (s.hdrs p).isMapped <;> cases hqm : (s.hdrs q).isMapped <;>
    simp only [hpm,hqm,Bool.not_true,Bool.not_false,Bool.and_true,Bool.and_false,Bool.false_eq_true,
      if_true,if_false]
  · exact matched_of_keep (.bothUnmapped hpm hqm) hpm
  · split
    · exact matched_of_keep (.unmapNext hpm hqm) hpm
    · unfold setUnmapped
      rw [updHdr_updHdr]
      exact matched_of_flag hok hp (.remapFirst hpm hqm) (fun _ => ⟨rfl,rfl⟩) fun _ => ⟨rfl,rfl,rfl⟩
  · split
    · exact matched_of_keep (.remapNext hpm hqm) hpm
    · exact matched_of_flag hok hp (.unmapFirst hpm hqm) (fun _ => ⟨rfl,rfl⟩) fun _ => ⟨rfl,rfl,rfl⟩
  · have hstay := matched_of_keep (n := n) (m := m) (.bothMapped hpm hqm) hpm
    simpa [Heap.call] using hstay

theorem matchUnmapped_matched (m q : Nat) :
    Matched s (matchUnmapped s n p m q) n p m q := by
  unfold matchUnmapped
  cases hpm : (s.hdrs p).isMapped <;> cases hqm : (s.hdrs q).isMapped <;>
    simp only [hpm,hqm,Bool.not_true,Bool.not_false,Bool.and_true,Bool.and_false,Bool.false_eq_true,
      if_true,if_false]
  · exact matched_of_keep (.bothUnmapped hpm hqm) hpm
  · exact matched_of_keep (.unmapNext hpm hqm) hpm
  · exact matched_of_flag hok hp (.unmapFirst hpm hqm) (fun _ => ⟨rfl,rfl⟩) fun _ => ⟨rfl,rfl,rfl⟩
  · have hstay := matched_of_keep (n := n) (m := m) (.bothMapped hpm hqm) hpm
    simpa [Heap.call] using hstay

end

end Matching

section Balance

variable {cells : Finset Nat} {pageSize : Nat}

abbrev remapCalls (s : Heap) (n p : Nat) : List MapCall :=
  if (s.hdrs p).isMapped then [] else [.remap (n * hblkSize) (s.hdrs p).hbSz]

theorem heldAt_of_index (pageSize : Nat) (hp : s.index n = .hdr p) : heldAt pageSize s n =
    if (s.hdrs p).isMapped then 0 else interior pageSize (n * hblkSize) (s.hdrs p).hbSz := by
  rw [heldAt,unmappedAt_of_index hp]
  split <;> rfl

theorem heldAt_of_none (pageSize : Nat) (h : unmappedAt s n = none) : heldAt pageSize s n = 0 := by
  rw [heldAt,h]
  rfl

theorem used_of_none (h : unmappedAt s n = none) {size : Option Nat} (hn : flagsAt s n = some (false, size)) :
    size = none := by
  rw [unmappedAt,hn] at h
  exact h

theorem Accounts.remap (h : Accounts s cells) (hn : n ∈ cells) (hp : s.index n = .hdr p)
    (hs : Steady {n} (remapCalls s n p) s s') (hnone : unmappedAt s' n = none) : Accounts s' cells := by
  apply h.step (by simpa using hn) hs
  · intro m hm size hsize
    rw [Finset.mem_singleton.mp hm] at hsize
    exact used_of_none hnone hsize
  · intro pageSize _ rest
    rw [Finset.sum_singleton,Finset.sum_singleton,heldAt_of_none pageSize hnone,heldAt_of_index pageSize hp]
    cases hmapped : (s.hdrs p).isMapped
    · simp [remapCalls,hmapped,countCall]
    · simp [remapCalls,hmapped]

theorem Accounts.unmap (h : Accounts s cells) (hok : HdrsOk s) (hn : n ∈ cells) (hp : s.index n = .hdr p)
    (hfree : (s.hdrs p).isFree = true) (hmapped : (s.hdrs p).isMapped = true) :
    Accounts (setUnmapped (s.call [.unmap (n * hblkSize) (s.hdrs p).hbSz]) p true) cells := by
  have hcall : Keeps {n} [.unmap (n * hblkSize) (s.hdrs p).hbSz] s _ := Keeps.call s _
  have hokc := hcall.hdrs hok
  have hself : flagsAt (setUnmapped (s.call [.unmap (n * hblkSize) (s.hdrs p).hbSz]) p true) n =
      some (true, some (s.hdrs p).hbSz) := by
    unfold setUnmapped
    rw [flagsAt_updHdr hokc hp]
    change some ((s.hdrs p).isFree, some (s.hdrs p).hbSz) = _
    rw [hfree]
  apply h.step (by simpa using hn) ((Keeps.updHdr hokc hp _).after hcall).steady
  · intro m hm size hsize
    rw [Finset.mem_singleton.mp hm] at hsize
    have := hself.symm.trans hsize
    simp at this
  · intro pageSize _ rest
    have hheld : heldAt pageSize (setUnmapped (s.call [.unmap (n * hblkSize) (s.hdrs p).hbSz]) p true) n =
        interior pageSize (n * hblkSize) (s.hdrs p).hbSz := by
      rw [heldAt,unmappedAt,hself]
      rfl
    rw [Finset.sum_singleton,Finset.sum_singleton,heldAt_of_index pageSize hp,hmapped]
    simp only [foldlM_cons,foldlM_nil,countCall,if_true,Nat.add_zero]
    exact congrArg (fun x => some (rest + x)) hheld.symm

theorem Accounts.merge (h : Accounts s cells) (hok : HdrsOk s) (hn : n ∈ cells) (hm : m ∈ cells)
    (hp : s.index n = .hdr p) (hq : s.index m = .hdr q) (hpos : 0 < n) (hlt : n < m)
    (hadj : n * hblkSize + (s.hdrs p).hbSz = m * hblkSize) (hmatch : Matched s t n p m q)
    (hmerge : mergeWithNext t n p i m q = some s') : Accounts s' cells := by
  obtain ⟨mapped,calls,hcalls,hs,hmapped⟩ := hmatch.keeps
  obtain ⟨hmerged,hgone,hself⟩ := mergeWithNext_keeps (hs.hdrs hok) (by rw [hmatch.index,hp])
    (by rw [hmatch.index,hq]) hlt.ne hmerge
  rw [hmapped,hmatch.sizes.1,hmatch.sizes.2] at hself
  apply h.step _ (hmerged.after (hs.mono (by simp))).steady
  · intro x hx size hsize
    rcases mem_insert.mp hx with rfl | hx
    · rw [hself] at hsize
      cases hsize
    · rw [Finset.mem_singleton.mp hx,hgone] at hsize
      cases hsize
  · intro pageSize hpage rest
    have hstart : 0 < n * hblkSize := Nat.mul_pos hpos (by decide)
    have hsum := interior_add hpage hstart hadj (s.hdrs q).hbSz
    have hgoneHeld : heldAt pageSize s' m = 0 := heldAt_of_none pageSize (by rw [unmappedAt,hgone]; rfl)
    have hselfHeld : heldAt pageSize s' n = if mapped then 0
        else interior pageSize (n * hblkSize) ((s.hdrs p).hbSz + (s.hdrs q).hbSz) := by
      rw [heldAt,unmappedAt,hself]
      cases mapped <;> rfl
    rw [sum_pair hlt.ne,sum_pair hlt.ne,hgoneHeld,hselfHeld,
      heldAt_of_index pageSize hp,heldAt_of_index pageSize hq]
    cases hcalls with
    | bothMapped h1 h2 => simp [h1,h2]
    | remapNext h1 h2 => simp [h1,h2,countCall]
    | unmapFirst h1 h2 => simp [h1,h2,countCall]; omega
    | remapFirst h1 h2 => simp [h1,h2,countCall]
    | unmapNext h1 h2 => simp [h1,h2,countCall]; omega
    | bothUnmapped h1 h2 => simp [h1,h2,countCall]; omega
  · intro x hx
    rcases mem_insert.mp hx with rfl | hx
    · exact hn
    · exact Finset.mem_singleton.mp hx ▸ hm

end Balance

end GcUtil.Block.Unmapping
