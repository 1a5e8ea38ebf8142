import GcUtil.Basic
import GcUtil.Library.ChainedTable

/-! The hash tables of `finalize.c`: disappearing links, long links and finalizers. The
entries are chained under the hash of the key they hide; what an operation does is said by
what it does to the list of all entries. -/
namespace GcUtil.Finalize.Tables
open Basic Library.ChainedTable Function List

def hidePointer (p : Nat) : Nat := p ^^^ wordMax

def revealPointer (p : Nat) : Nat := hidePointer p

@[simp] theorem revealPointer_hidePointer (p : Nat) : revealPointer (hidePointer p) = p :=
  Nat.xor_xor_cancel_right p wordMax

@[simp] theorem hidePointer_revealPointer (p : Nat) : hidePointer (revealPointer p) = p :=
  Nat.xor_xor_cancel_right p wordMax

theorem hidePointer_injective : Function.Injective hidePointer :=
  Function.LeftInverse.injective revealPointer_hidePointer

/-- `GC_clear_togglerefs` on one reference; the complement of a pointer, which is odd, is a weak one. -/
def clearToggleref (marked : Nat → Bool) (ref : Nat) : Nat :=
  if ref % 2 = 1 ∧ marked (revealPointer ref) = false then 0 else ref

def hash3 (addr size logSize : Nat) : Nat :=
  ((addr >>> 3) ^^^ (addr >>> (3 + logSize))) &&& (size - 1)

def hash2 (addr logSize : Nat) : Nat := hash3 addr (2 ^ logSize) logSize

theorem hash2_lt (addr logSize : Nat) : hash2 addr logSize < 2 ^ logSize := by
  unfold hash2 hash3
  rw [Nat.and_two_pow_sub_one_eq_mod]
  exact Nat.mod_lt _ (Nat.two_pow_pos logSize)

/-- `struct hash_chain_entry`, the common part of the entries. -/
class HashChainEntry (ε : Type) where
  hiddenKey : ε → Nat

open HashChainEntry

variable {ε σ : Type}

structure HashTbl (ε : Type) where
  head : Option (Nat → List ε)
  logSize : Nat
  entries : Nat

namespace HashTbl

def empty : HashTbl ε := ⟨none, 0, 0⟩

variable (t : HashTbl ε)

def chain (i : Nat) : List ε := t.head.elim [] fun h => h i

def setChain (i : Nat) (l : List ε) : HashTbl ε :=
  { t with head := t.head.map fun h => Function.update h i l }

def all : List ε := contents (2 ^ t.logSize) t.chain

/-- The traversal that `GC_finalize` makes of a table, with the entries it rejects unlinked
and counted off. -/
def sweep (step : σ → ε → Bool × σ) (t : HashTbl ε) (a : σ) : HashTbl ε × σ :=
  match t.head with
  | none => (t, a)
  | some h =>
      let counting := fun (acc : Nat × σ) e =>
        ((step acc.2 e).1, if (step acc.2 e).1 then acc.1 else acc.1 - 1, (step acc.2 e).2)
      let swept := sweepAll counting (List.range (2 ^ t.logSize)) h (t.entries, a)
      ({ t with head := some swept.1, entries := swept.2.1 }, swept.2.2)

def insertAt (index : Nat) (e : ε) : HashTbl ε :=
  { t.setChain index (e :: t.chain index) with entries := t.entries + 1 }

def clear : HashTbl ε :=
  { t with head := t.head.map fun _ _ => [], entries := 0 }

variable [HashChainEntry ε]

def find (key : Nat) : Option ε :=
  (t.chain (hash2 key t.logSize)).find? fun e => hiddenKey e == hidePointer key

def unlinkKey (key : Nat) : Option (ε × HashTbl ε) :=
  (unlink hiddenKey (hidePointer key) (t.chain (hash2 key t.logSize))).map fun r =>
    (r.1, t.setChain (hash2 key t.logSize) r.2)

def rewriteKey (key : Nat) (f : ε → ε) : Option (HashTbl ε) :=
  (rewriteFirst hiddenKey (hidePointer key) f (t.chain (hash2 key t.logSize))).map
    (t.setChain (hash2 key t.logSize))

/-- The loop of `GC_grow_table` that moves the entries to a table of twice the size. -/
def rehash : HashTbl ε where
  head := some (pushAll hiddenKey
    (fun hidden => hash3 (revealPointer hidden) (2 ^ (t.logSize + 1)) (t.logSize + 1)) (fun _ => []) t.all)
  logSize := t.logSize + 1
  entries := t.entries

def SameShape (t t' : HashTbl ε) : Prop := (t.head = none ↔ t'.head = none) ∧ t.logSize = t'.logSize

omit [HashChainEntry ε] in
theorem SameShape.refl : t.SameShape t := ⟨Iff.rfl,rfl⟩

omit [HashChainEntry ε] in
theorem SameShape.trans {t t' t'' : HashTbl ε} (h : t.SameShape t') (h' : t'.SameShape t'') :
    t.SameShape t'' :=
  ⟨h.1.trans h'.1,h.2.trans h'.2⟩

/-- Every entry is in the chain its hash gives, and the counter counts the entries. -/
structure Chained : Prop where
  fresh : t.head = none → t.logSize = 0
  placed : ∀ i, ∀ e ∈ t.chain i, hash2 (revealPointer (hiddenKey e)) t.logSize = i
  counted : t.entries = t.all.length

structure WellFormed : Prop extends Chained t where
  unique : (t.all.map hiddenKey).Nodup

variable {t t' : HashTbl ε} {e : ε} {key i n : Nat} {l : List ε}

omit [HashChainEntry ε] in
theorem all_of_head (h : t.head = none) : t.all = [] := by
  have hchain : t.chain = fun _ => [] := by
    funext i
    simp [chain,h]
  rw [all,hchain,contents_nil]

omit [HashChainEntry ε] in
theorem mem_all_of_chain (h : e ∈ t.chain (hash2 key t.logSize)) : e ∈ t.all :=
  mem_contents.mpr ⟨_,hash2_lt _ _,h⟩

omit [HashChainEntry ε] in
theorem chain_setChain (hhead : t.head ≠ none) (i : Nat) (l : List ε) :
    (t.setChain i l).chain = update t.chain i l := by
  obtain ⟨h,hh⟩ := Option.ne_none_iff_exists'.mp hhead
  have hchain : t.chain = h := by
    funext j
    simp [chain,hh]
  funext j
  simp [chain,setChain,hh,hchain]

omit [HashChainEntry ε] in
theorem all_setChain (hhead : t.head ≠ none) (hi : i < 2 ^ t.logSize) :
    ∃ rest, t.all.Perm (t.chain i ++ rest) ∧ ∀ l, (t.setChain i l).all.Perm (l ++ rest) := by
  obtain ⟨rest,hold,hnew⟩ := contents_update (h := t.chain) hi
  refine ⟨rest,hold,fun l => ?_⟩
  rw [all,chain_setChain hhead]
  exact hnew l

omit [HashChainEntry ε] in
theorem head_of_mem_chain (h : e ∈ t.chain i) : t.head ≠ none := by
  intro hnone
  simp [chain,hnone] at h

theorem WellFormed.of_perm (h : t.Chained) {keys : List Nat} (hperm : (t.all.map hiddenKey).Perm keys)
    (hkeys : keys.Nodup) : t.WellFormed :=
  { h with unique := hperm.nodup_iff.mpr hkeys }

theorem wellFormed_empty : (empty : HashTbl ε).WellFormed where
  fresh _ := rfl
  placed i e he := by simp [chain,empty] at he
  counted := by
    rw [all_of_head rfl]
    rfl
  unique := by
    rw [all_of_head rfl]
    exact nodup_nil

namespace Chained

section

variable (h : t.Chained)
include h

theorem mem_chain (he : e ∈ t.all) :
    e ∈ t.chain (hash2 (revealPointer (hiddenKey e)) t.logSize) := by
  obtain ⟨i,_,hi⟩ := mem_contents.mp he
  rwa [h.placed i e hi]

theorem key_chain :
    (∀ e ∈ t.chain (hash2 key t.logSize), hiddenKey e ≠ hidePointer key) ↔
      ∀ e ∈ t.all, hiddenKey e ≠ hidePointer key := by
  constructor
  · intro hchain e he hkey
    apply hchain e _ hkey
    have hmem := h.mem_chain he
    rwa [hkey,revealPointer_hidePointer] at hmem
  · intro hall e he
    exact hall e (mem_all_of_chain he)

theorem find_eq_none : t.find key = none ↔ ∀ e ∈ t.all, hiddenKey e ≠ hidePointer key := by
  rw [← h.key_chain]
  simp [find]

theorem replace (hhead : t.head ≠ none) (hi : i < 2 ^ t.logSize)
    (hplaced : ∀ e ∈ l, hash2 (revealPointer (hiddenKey e)) t.logSize = i)
    (hn : n + (t.chain i).length = t.entries + l.length) :
    { t.setChain i l with entries := n }.Chained where
  fresh hnone := by simp [setChain,hhead] at hnone
  placed j e he := by
    change e ∈ (t.setChain i l).chain j at he
    rw [chain_setChain hhead,update_apply] at he
    split at he
    · next hji =>
      rw [hji]
      exact hplaced e he
    · exact h.placed j e he
  counted := by
    obtain ⟨rest,hold,hnew⟩ := all_setChain hhead hi
    have hcounted := h.counted
    rw [hold.length_eq,length_append] at hcounted
    change n = (t.setChain i l).all.length
    rw [(hnew l).length_eq,length_append]
    omega

theorem insertAt (hhead : t.head ≠ none) (hkey : hiddenKey e = hidePointer key) :
    (t.insertAt (hash2 key t.logSize) e).Chained ∧
      (t.insertAt (hash2 key t.logSize) e).all.Perm (e :: t.all) := by
  constructor
  · apply h.replace hhead (hash2_lt _ _)
    · intro x hx
      rcases mem_cons.mp hx with rfl | hx
      · rw [hkey,revealPointer_hidePointer]
      · exact h.placed _ x hx
    · rw [length_cons]
      omega
  · obtain ⟨rest,hold,hnew⟩ := all_setChain hhead (hash2_lt key t.logSize)
    exact (hnew _).trans (hold.symm.cons e)

theorem unlinkKey_eq_none :
    t.unlinkKey key = none ↔ ∀ e ∈ t.all, hiddenKey e ≠ hidePointer key := by
  rw [HashTbl.unlinkKey,Option.map_eq_none_iff,unlink_eq_none,h.key_chain]

theorem unlinkKey (hu : t.unlinkKey key = some (e, t')) :
    hiddenKey e = hidePointer key ∧ t'.SameShape t ∧ t'.head ≠ none ∧ t'.entries = t.entries ∧
      t.all.Perm (e :: t'.all) ∧ { t' with entries := t.entries - 1 }.Chained := by
  obtain ⟨⟨y,l⟩,hl,heq⟩ := Option.map_eq_some_iff.mp hu
  obtain ⟨rfl,rfl⟩ := Prod.mk.inj heq
  obtain ⟨hkey,hperm⟩ := unlink_perm hl
  have hmem : y ∈ t.chain (hash2 key t.logSize) := hperm.mem_iff.mpr (by simp)
  have hhead := head_of_mem_chain hmem
  have hlen := hperm.length_eq
  obtain ⟨rest,hold,hnew⟩ := all_setChain hhead (hash2_lt key t.logSize)
  have hcounted := h.counted
  rw [hold.length_eq,length_append] at hcounted
  rw [length_cons] at hlen
  refine ⟨hkey,⟨by simp [setChain],rfl⟩,by simpa [setChain] using hhead,rfl,?_,?_⟩
  · exact (hold.trans (hperm.append_right rest)).trans ((hnew l).symm.cons y)
  · apply h.replace hhead (hash2_lt key t.logSize)
    · intro x hx
      exact h.placed _ x (hperm.mem_iff.mpr (mem_cons_of_mem y hx))
    · dsimp only
      omega

theorem rewriteKey_eq_none (f : ε → ε) :
    t.rewriteKey key f = none ↔ ∀ e ∈ t.all, hiddenKey e ≠ hidePointer key := by
  rw [HashTbl.rewriteKey,Option.map_eq_none_iff,rewriteFirst_eq_none,h.key_chain]

theorem rewriteKey {f : ε → ε} (hf : ∀ e, hiddenKey (f e) = hiddenKey e)
    (hr : t.rewriteKey key f = some t') :
    t'.Chained ∧ t'.SameShape t ∧ ∃ e rest, hiddenKey e = hidePointer key ∧ t.all.Perm (e :: rest) ∧
      t'.all.Perm (f e :: rest) := by
  obtain ⟨l,hl,rfl⟩ := Option.map_eq_some_iff.mp hr
  obtain ⟨e,others,hkey,hold,hnew⟩ := rewriteFirst_perm hl
  have hmem : e ∈ t.chain (hash2 key t.logSize) := hold.mem_iff.mpr (by simp)
  have hhead := head_of_mem_chain hmem
  obtain ⟨rest,hall,hset⟩ := all_setChain hhead (hash2_lt key t.logSize)
  refine ⟨?_,⟨by simp [setChain],rfl⟩,e,others ++ rest,hkey,?_,?_⟩
  · apply h.replace hhead (hash2_lt key t.logSize)
    · intro x hx
      rcases mem_cons.mp (hnew.mem_iff.mp hx) with rfl | hx
      · rw [hf,hkey,revealPointer_hidePointer]
      · exact h.placed _ x (hold.mem_iff.mpr (mem_cons_of_mem e hx))
    · rw [hold.length_eq,hnew.length_eq,length_cons,length_cons]
  · exact hall.trans (hold.append_right rest)
  · exact (hset l).trans (hnew.append_right rest)

theorem rehash : t.rehash.Chained ∧ t.rehash.all.Perm t.all := by
  have hplaced : Placed hiddenKey (fun hidden => hash2 (revealPointer hidden) (t.logSize + 1))
      (fun _ => ([] : List ε)) := fun i e he => by simp at he
  have hperm : t.rehash.all.Perm t.all := by
    have hpush : t.rehash.all.Perm (t.all ++ contents (2 ^ (t.logSize + 1)) fun _ => []) :=
      contents_pushAll (fun hidden => hash2_lt (revealPointer hidden) _) t.all
    rwa [contents_nil,append_nil] at hpush
  refine ⟨⟨nofun,hplaced.pushAll t.all,?_⟩,hperm⟩
  rw [hperm.length_eq]
  exact h.counted

end

end Chained

omit [HashChainEntry ε] in
theorem all_clear (t : HashTbl ε) : t.clear.all = [] := by
  have hchain : t.clear.chain = fun _ => [] := by
    funext i
    cases h : t.head <;> simp [chain,clear,h]
  rw [all,hchain,contents_nil]

theorem Chained.clear (h : t.Chained) : t.clear.Chained where
  fresh hnone := h.fresh (by simpa [HashTbl.clear] using hnone)
  placed i e he := by
    cases hh : t.head <;> simp [chain,HashTbl.clear,hh] at he
  counted := by
    rw [all_clear]
    rfl

namespace WellFormed

variable {k : Nat} (h : t.WellFormed)
include h

theorem eq_of_key {e' : ε} (he : e ∈ t.all) (he' : e' ∈ t.all)
    (hkey : hiddenKey e = hiddenKey e') : e = e' :=
  inj_on_of_nodup_map h.unique he he' hkey

theorem find_eq_some : t.find key = some e ↔ e ∈ t.all ∧ hiddenKey e = hidePointer key := by
  constructor
  · intro hfind
    have hkey := List.find?_some hfind
    exact ⟨mem_all_of_chain (List.mem_of_find?_eq_some hfind),by simpa using hkey⟩
  · rintro ⟨he,hkey⟩
    cases hfind : t.find key with
    | none => exact absurd hkey (h.find_eq_none.mp hfind e he)
    | some e' =>
      have hkey' := List.find?_some hfind
      have he' : e' ∈ t.all := mem_all_of_chain (List.mem_of_find?_eq_some hfind)
      rw [h.eq_of_key he' he (by simpa [hkey] using hkey')]

theorem find_congr (h' : t'.WellFormed)
    (hmem : ∀ e, hiddenKey e = hidePointer key → (e ∈ t.all ↔ e ∈ t'.all)) : t.find key = t'.find key := by
  apply Option.ext
  intro e
  rw [h.find_eq_some,h'.find_eq_some]
  constructor
  · rintro ⟨he,hkey⟩
    exact ⟨(hmem e hkey).mp he,hkey⟩
  · rintro ⟨he,hkey⟩
    exact ⟨(hmem e hkey).mpr he,hkey⟩

theorem rewriteKey_map {g : ε → ε} (hg : ∀ e, hiddenKey (g e) = hiddenKey e)
    (hfind : t.find k = some e) :
    ∃ t', t.rewriteKey k g = some t' ∧ t'.WellFormed ∧ t'.SameShape t ∧ t'.entries = t.entries ∧
      t'.find = update t.find k (some (g e)) := by
  obtain ⟨he,hkey⟩ := h.find_eq_some.mp hfind
  cases hr : t.rewriteKey k g with
  | none => exact absurd hkey ((h.rewriteKey_eq_none g).mp hr e he)
  | some t' =>
    obtain ⟨hchained,hshape,x,rest,hx,hold,hnew⟩ := h.toChained.rewriteKey hg hr
    have hxe : x = e := h.eq_of_key (hold.mem_iff.mpr (by simp)) he (hx.trans hkey.symm)
    subst hxe
    have hwf : t'.WellFormed := by
      apply WellFormed.of_perm hchained (hnew.map _)
      rw [map_cons,hg]
      exact (hold.map hiddenKey).nodup_iff.mp h.unique
    refine ⟨t',rfl,hwf,hshape,?_,?_⟩
    · rw [hwf.counted,h.counted,hold.length_eq,hnew.length_eq]
      rfl
    · funext k'
      rw [update_apply]
      split
      · next hk =>
        rw [hwf.find_eq_some,hnew.mem_iff,hg,hk]
        exact ⟨by simp,hkey⟩
      · next hk =>
        apply hwf.find_congr h
        intro y hy
        rw [hnew.mem_iff,hold.mem_iff,mem_cons,mem_cons]
        have hne : y ≠ g x ∧ y ≠ x := by
          constructor
          · rintro rfl
            exact hk (hidePointer_injective (hy.symm.trans ((hg x).trans hkey)))
          · rintro rfl
            exact hk (hidePointer_injective (hy.symm.trans hkey))
        simp [hne]

theorem insertAt_map (hhead : t.head ≠ none) (hkey : hiddenKey e = hidePointer k) (hfind : t.find k = none) :
    (t.insertAt (hash2 k t.logSize) e).WellFormed ∧
      (t.insertAt (hash2 k t.logSize) e).find = update t.find k (some e) := by
  have hfresh := h.find_eq_none.mp hfind
  obtain ⟨hchained,hperm⟩ := h.toChained.insertAt hhead hkey
  have hwf : (t.insertAt (hash2 k t.logSize) e).WellFormed := by
    apply WellFormed.of_perm hchained (hperm.map _)
    rw [map_cons,nodup_cons,hkey]
    refine ⟨?_,h.unique⟩
    rw [mem_map]
    rintro ⟨x,hx,hxkey⟩
    exact hfresh x hx hxkey
  refine ⟨hwf,?_⟩
  funext k'
  rw [update_apply]
  split
  · next hk =>
    rw [hwf.find_eq_some,hperm.mem_iff,hk]
    exact ⟨by simp,hkey⟩
  · next hk =>
    apply hwf.find_congr h
    intro y hy
    rw [hperm.mem_iff,mem_cons]
    have hne : y ≠ e := by
      rintro rfl
      exact hk (hidePointer_injective (hy.symm.trans hkey))
    simp [hne]

theorem unlinkKey_map (hu : t.unlinkKey k = some (e, t')) :
    t.find k = some e ∧ { t' with entries := t'.entries - 1 }.WellFormed ∧
      { t' with entries := t'.entries - 1 }.find = update t.find k none := by
  obtain ⟨hkey,hshape,hhead,hentries,hperm,hchained⟩ := h.toChained.unlinkKey hu
  rw [hentries]
  have hnodup := (hperm.map hiddenKey).nodup_iff.mp h.unique
  rw [map_cons,nodup_cons] at hnodup
  have hwf : { t' with entries := t.entries - 1 }.WellFormed := { hchained with unique := hnodup.2 }
  refine ⟨h.find_eq_some.mpr ⟨hperm.mem_iff.mpr (by simp),hkey⟩,hwf,?_⟩
  funext k'
  rw [update_apply]
  split
  · next hk =>
    rw [hwf.find_eq_none,hk]
    intro x hx hxkey
    apply hnodup.1
    rw [hkey,← hxkey]
    exact mem_map_of_mem hx
  · next hk =>
    apply hwf.find_congr h
    intro y hy
    rw [hperm.mem_iff,mem_cons]
    have hne : y ≠ e := by
      rintro rfl
      exact hk (hidePointer_injective (hy.symm.trans hkey))
    simp only [hne,false_or]
    exact Iff.rfl

theorem move_map {k' : Nat} {x : ε} (hu : t.unlinkKey k = some (e, t')) (hne : k ≠ k')
    (hfind : t.find k' = none) (hkey : hiddenKey x = hidePointer k') :
    (t'.setChain (hash2 k' t'.logSize) (x :: t'.chain (hash2 k' t'.logSize))).WellFormed ∧
      (t'.setChain (hash2 k' t'.logSize) (x :: t'.chain (hash2 k' t'.logSize))).find =
        update (update t.find k none) k' (some x) := by
  obtain ⟨_,_,hhead,hentries,hperm,_⟩ := h.toChained.unlinkKey hu
  obtain ⟨_,hwf,hmap⟩ := h.unlinkKey_map hu
  have hpos : t'.entries - 1 + 1 = t'.entries := by
    rw [hentries,h.counted,hperm.length_eq,length_cons,Nat.add_sub_cancel]
  have hgone : { t' with entries := t'.entries - 1 }.find k' = none := by
    rw [hmap,update_of_ne (Ne.symm hne),hfind]
  have hinsert := hwf.insertAt_map hhead hkey hgone
  rw [hmap] at hinsert
  have heq : { t' with entries := t'.entries - 1 }.insertAt (hash2 k' t'.logSize) x =
      t'.setChain (hash2 k' t'.logSize) (x :: t'.chain (hash2 k' t'.logSize)) := by
    rw [insertAt,setChain,setChain,hpos]
    rfl
  rw [← heq]
  exact hinsert

theorem unlinkKey_find : t.unlinkKey k = none ↔ t.find k = none := by
  rw [h.unlinkKey_eq_none,h.find_eq_none]

theorem find_of_sublist (h' : t'.WellFormed) (hsub : t'.all.Sublist t.all) (hfind : t'.find k = some e) :
    t.find k = some e := by
  obtain ⟨he,hkey⟩ := h'.find_eq_some.mp hfind
  exact h.find_eq_some.mpr ⟨hsub.subset he,hkey⟩

theorem rehash_map : t.rehash.WellFormed ∧ t.rehash.find = t.find := by
  obtain ⟨hchained,hperm⟩ := h.toChained.rehash
  have hwf := WellFormed.of_perm hchained (hperm.map _) h.unique
  refine ⟨hwf,?_⟩
  funext k
  exact hwf.find_congr h fun e _ => hperm.mem_iff

end WellFormed

section Sweeping

variable {step : σ → ε → Bool × σ}

omit [HashChainEntry ε] in
theorem sweepChain_counting (l : List ε) (n : Nat) (a : σ) :
    sweepChain (fun (acc : Nat × σ) e =>
      ((step acc.2 e).1, if (step acc.2 e).1 then acc.1 else acc.1 - 1, (step acc.2 e).2)) l (n, a) =
      ((sweepChain step l a).1, n - (l.length - (sweepChain step l a).1.length), (sweepChain step l a).2) := by
  induction l generalizing n a with
  | nil => simp [sweepChain]
  | cons e es ih =>
    have hle := (sweepChain_sublist step es (step a e).2).length_le
    simp only [sweepChain,ih]
    by_cases h : (step a e).1 = true
    · simp [h]
    · simp only [h,Bool.false_eq_true,if_false,length_cons,Prod.mk.injEq,and_true,true_and]
      omega

omit [HashChainEntry ε] in
theorem sweep_eq (step : σ → ε → Bool × σ) (t : HashTbl ε) (a : σ) :
    (t.sweep step a).1.all = (sweepChain step t.all a).1 ∧
      (t.sweep step a).2 = (sweepChain step t.all a).2 ∧
      (t.sweep step a).1.logSize = t.logSize ∧
      ((t.sweep step a).1.head = none ↔ t.head = none) ∧
      (t.sweep step a).1.entries = t.entries - (t.all.length - (sweepChain step t.all a).1.length) := by
  unfold sweep
  split
  · next hnone => simp [all_of_head hnone,sweepChain]
  · next h hsome =>
    have hall : t.all = contents (2 ^ t.logSize) h := by
      rw [all]
      congr
      funext i
      simp [chain,hsome]
    have hswept := contents_sweepAll (fun (acc : Nat × σ) e =>
      ((step acc.2 e).1, if (step acc.2 e).1 then acc.1 else acc.1 - 1, (step acc.2 e).2))
      (2 ^ t.logSize) h (t.entries, a)
    rw [sweepChain_counting,← hall] at hswept
    have hacc := congrArg Prod.snd hswept
    dsimp only at hacc
    refine ⟨congrArg Prod.fst hswept,?_,rfl,by simp [hsome],?_⟩
    · exact congrArg Prod.snd hacc
    · exact congrArg Prod.fst hacc

theorem Chained.sweep (h : t.Chained) (step : σ → ε → Bool × σ) (a : σ) :
    (t.sweep step a).1.Chained := by
  obtain ⟨hall,_,hlog,hhead,hentries⟩ := sweep_eq step t a
  constructor
  · rw [hhead,hlog]
    exact h.fresh
  · intro i e he
    rw [hlog]
    unfold HashTbl.sweep at he
    split at he
    · exact h.placed i e he
    · next f hf =>
      apply h.placed i e
      rw [chain,hf]
      exact (sweepAll_sublist i).subset he
  · have hle := (sweepChain_sublist step t.all a).length_le
    rw [hentries,hall,h.counted]
    omega

theorem Chained.chain_eq_filter (h : t.Chained) (i : Nat) :
    t.chain i = t.all.filter fun e => hash2 (revealPointer (hiddenKey e)) t.logSize == i := by
  have hplaced : Placed hiddenKey (fun hidden => hash2 (revealPointer hidden) t.logSize) t.chain := h.placed
  rw [all,hplaced.filter_contents]
  split
  · rfl
  · next hi =>
    rw [eq_nil_iff_forall_not_mem]
    intro e he
    have hlt := hash2_lt (revealPointer (hiddenKey e)) t.logSize
    rw [h.placed i e he] at hlt
    exact hi hlt

/-- A sweep whose decisions depend on the entries alone filters every chain. -/
theorem Chained.chain_sweep (h : t.Chained) {step : σ → ε → Bool × σ} {a : σ} {keep : ε → Bool}
    (hswept : (sweepChain step t.all a).1 = t.all.filter keep) (i : Nat) :
    (t.sweep step a).1.chain i = (t.chain i).filter keep := by
  obtain ⟨hall,_,hlog,_,_⟩ := sweep_eq step t a
  rw [(h.sweep step a).chain_eq_filter,h.chain_eq_filter,hall,hlog,hswept,filter_filter,
    filter_filter]
  simp only [Bool.and_comm]

theorem WellFormed.sweep (h : t.WellFormed) (step : σ → ε → Bool × σ) (a : σ) :
    (t.sweep step a).1.WellFormed :=
  { h.toChained.sweep step a with
    unique := by
      rw [(sweep_eq step t a).1]
      exact h.unique.sublist ((sweepChain_sublist step t.all a).map hiddenKey) }

end Sweeping

end HashTbl

end GcUtil.Finalize.Tables
