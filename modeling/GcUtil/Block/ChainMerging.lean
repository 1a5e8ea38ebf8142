import GcUtil.Block.Merging

/-! `GC_merge_free_blocks_for_alloc`: one loop measures a chain of free blocks and another
one merges it. What the first one finds is what the second one merges. -/
namespace GcUtil.Block.ChainMerging
open Function Finset
open Basic Headers FreeLists Allocator HeaderTable LinkedLists BlockMap JointInvariant Unmapping UsedBlocks
open Merging Library.Outcome

variable {s s' t : Heap} {n m p q i k e x required fuel : Nat} {L : Nat → List Nat} {cells : Finset Nat}
variable {a l : List Nat} {b c : Blk}

section Bodies

theorem setFree_of_free {hhdr : Hdr} (h : hhdr.isFree = true) : setFree hhdr = hhdr := by
  have hfree : hhdr.hbFlags.freeBlk = true := h
  unfold setFree
  rw [← hfree]

def resize (hhdr : Hdr) (sz : Nat) (unmapped : Bool) : Hdr :=
  { hhdr with hbSz := sz, hbFlags := { hhdr.hbFlags with wasUnmapped := unmapped } }

section

variable (hok : HdrsOk s) (hp : s.index n = .hdr p)
include hok hp

theorem mergeWithNext_body (hq : s.index m = .hdr q)
    (hne : n ≠ m) (hfree : (s.hdrs p).isFree = true) (h : mergeWithNext s n p i m q = some s') :
    bodyAt s' = update (update (bodyAt s) n (some (resize (unlinked (s.hdrs p))
      ((s.hdrs p).hbSz + (s.hdrs q).hbSz) (s.hdrs p).hbFlags.wasUnmapped))) m none := by
  obtain ⟨u,v,ha,h⟩ := mergeWithNext_absorbed hok hp hq hne h
  have hokv : HdrsOk v := (ha.hdrs.updHdr p _).removeHeader (s := u.updHdr p _) ha.atNext ha.removed
  have hbody : unlinked (setFree (v.hdrs p)) = resize (unlinked (s.hdrs p))
      ((s.hdrs p).hbSz + (s.hdrs q).hbSz) (s.hdrs p).hbFlags.wasUnmapped := by
    have hfreeBlk : (enlarge (s.hdrs q).hbSz (unlinked (s.hdrs p))).isFree = true := hfree
    rw [ha.hdrsEq,updHdr_hdrs_self]
    change setFree (enlarge (s.hdrs q).hbSz (unlinked (u.hdrs p))) = _
    rw [show unlinked (u.hdrs p) = unlinked (s.hdrs p) from hdr_of_core ha.core p,setFree_of_free hfreeBlk]
    rfl
  rw [bodyAt_of_core (addToFl_core h),bodyAt_updHdr hokv ha.inPlace,hbody,
    bodyAt_removeHeader (s := u.updHdr p _) ha.atNext ha.removed,bodyAt_updHdr ha.hdrs ha.atFirst,
    bodyAt_of_core ha.core,update_comm hne,update_idem,update_comm hne.symm]

theorem matchUnmapped_body (m q : Nat) :
    bodyAt (matchUnmapped s n p m q) = update (bodyAt s) n (some (resize (unlinked (s.hdrs p))
      (s.hdrs p).hbSz ((s.hdrs p).hbFlags.wasUnmapped || (s.hdrs q).hbFlags.wasUnmapped))) := by
  have hstay : ∀ calls unmapped, (s.hdrs p).hbFlags.wasUnmapped = unmapped → bodyAt (s.call calls) =
      update (bodyAt s) n (some (resize (unlinked (s.hdrs p)) (s.hdrs p).hbSz unmapped)) := by
    rintro calls unmapped rfl
    change bodyAt s = update (bodyAt s) n (some (unlinked (s.hdrs p)))
    rw [← bodyAt_of_index hp,update_eq_self]
  unfold matchUnmapped Hdr.isMapped
  cases hpm : (s.hdrs p).hbFlags.wasUnmapped <;> cases hqm : (s.hdrs q).hbFlags.wasUnmapped <;>
    simp only [hpm,hqm,Bool.not_true,Bool.not_false,Bool.and_true,Bool.and_false,
      Bool.false_eq_true,if_true,if_false,Bool.or_true,Bool.or_false]
  · exact hstay [] false hpm
  · exact bodyAt_updHdr (s := s.call _) (hok.congr (fun _ _ hx => hx) rfl rfl) hp _
  · exact hstay _ true hpm
  · exact hstay _ true hpm

theorem mergeNeighbours_body (hq : s.index m = .hdr q)
    (hne : n ≠ m) (hfree : (s.hdrs p).isFree = true)
    (h : mergeWithNext (matchUnmapped s n p m q) n p i m q = some s') :
    bodyAt s' = update (update (bodyAt s) n (some (resize (unlinked (s.hdrs p))
      ((s.hdrs p).hbSz + (s.hdrs q).hbSz)
      ((s.hdrs p).hbFlags.wasUnmapped || (s.hdrs q).hbFlags.wasUnmapped)))) m none := by
  have hmatch := matchUnmapped_matched hok hp m q
  have hbody := matchUnmapped_body hok hp m q
  obtain ⟨_,_,_,hkeeps,_⟩ := hmatch.keeps
  have hpt : (matchUnmapped s n p m q).index n = .hdr p := by rw [hmatch.index,hp]
  have hqt : (matchUnmapped s n p m q).index m = .hdr q := by rw [hmatch.index,hq]
  have hself : unlinked ((matchUnmapped s n p m q).hdrs p) = resize (unlinked (s.hdrs p)) (s.hdrs p).hbSz
      ((s.hdrs p).hbFlags.wasUnmapped || (s.hdrs q).hbFlags.wasUnmapped) := by
    have hn := congrFun hbody n
    rw [bodyAt_of_index hpt,update_self] at hn
    exact Option.some.inj hn
  have hflag : ((matchUnmapped s n p m q).hdrs p).hbFlags =
      { (s.hdrs p).hbFlags with
        wasUnmapped := (s.hdrs p).hbFlags.wasUnmapped || (s.hdrs q).hbFlags.wasUnmapped } := by
    have hflags := congrArg Hdr.hbFlags hself
    exact hflags
  have hfreet : ((matchUnmapped s n p m q).hdrs p).isFree = true := by
    rw [Hdr.isFree,hflag]
    exact hfree
  rw [mergeWithNext_body (hkeeps.hdrs hok) hpt hqt hne hfreet h,hself,hbody,hmatch.sizes.1,
    hmatch.sizes.2,hflag,update_idem]
  rfl

end

end Bodies

section Joining

/-- The blocks from `n` up to `e` have become one, unmapped if any of them was. -/
structure Joined (s : Heap) (n e : Nat) (s' : Heap) : Prop where
  merged : ∃ hhdr unmapped, bodyAt s n = some hhdr ∧
    bodyAt s' n = some (resize hhdr ((e - n) * hblkSize) unmapped) ∧
    (unmapped = true ↔ ∃ m hhdr, n ≤ m ∧ m < e ∧ bodyAt s m = some hhdr ∧ hhdr.isMapped = false)
  gone : ∀ y, n < y → y < e → bodyAt s' y = none
  others : ∀ y, y < n ∨ e ≤ y → bodyAt s' y = bodyAt s y

theorem Joined.trans (hx : n < x) (hxe : x ≤ e) (h : Joined s n x t) (h' : Joined t n e s') :
    Joined s n e s' := by
  obtain ⟨hhdr,unmapped,hold,hnew,hflag⟩ := h.merged
  obtain ⟨hhdr',unmapped',hold',hnew',hflag'⟩ := h'.merged
  rw [hnew] at hold'
  cases hold'
  refine ⟨⟨hhdr,unmapped',hold,hnew',hflag'.trans ⟨?_,?_⟩⟩,fun y hny hye => h'.gone y hny hye,
    fun y hy => ?_⟩
  · rintro ⟨m,g,hnm,hme,hm,hmapped⟩
    rcases Nat.lt_or_ge m x with hlt | hge
    · rcases Nat.eq_or_lt_of_le hnm with rfl | hgt
      · rw [hnew] at hm
        cases hm
        have hun : unmapped = true := by simpa [resize,Hdr.isMapped] using hmapped
        obtain ⟨m,g,hnm,hmx,hm⟩ := hflag.mp hun
        exact ⟨m,g,hnm,by omega,hm⟩
      · rw [h.gone m hgt hlt] at hm
        cases hm
    · rw [h.others m (.inr hge)] at hm
      exact ⟨m,g,hnm,hme,hm,hmapped⟩
  · rintro ⟨m,g,hnm,hme,hm,hmapped⟩
    rcases Nat.lt_or_ge m x with hlt | hge
    · have hun := hflag.mpr ⟨m,g,hnm,hlt,hm,hmapped⟩
      exact ⟨n,_,le_refl n,by omega,hnew,by rw [hun]; rfl⟩
    · exact ⟨m,g,hnm,hme,by rw [h.others m (.inr hge),hm],hmapped⟩
  · rw [h'.others y hy,h.others y (by omega)]

theorem joined_of_merge (h : HeapOk s L cells) (hp : s.index n = .hdr p) (hb : blkAt s n = some b)
    (hbfree : b.free = true) (hq : s.index (n + b.blocks) = .hdr q)
    (hc : blkAt s (n + b.blocks) = some c) (hcfree : c.free = true)
    (hs : mergeWithNext (matchUnmapped s n p (n + b.blocks) q) n p i (n + b.blocks) q = some s') :
    Joined s n (n + b.blocks + c.blocks) s' := by
  have hbok := h.blocks.layout.blocks hb
  have hcok := h.blocks.layout.blocks hc
  have hbpos := hbok.blocks_pos
  have hcpos := hcok.blocks_pos
  have hbody := mergeNeighbours_body h.blocks.hdrs hp hq (by omega)
    ((isFree_of_blkAt hp hb).trans hbfree) hs
  have hsize : (s.hdrs p).hbSz + (s.hdrs q).hbSz = (n + b.blocks + c.blocks - n) * hblkSize := by
    rw [hbSz_of_blkAt hp hb,hbSz_of_blkAt hq hc,← blocks_mul_of_dvd (hbok.whole hbfree),
      ← blocks_mul_of_dvd (hcok.whole hcfree),← Nat.add_mul,Nat.add_assoc,Nat.add_sub_cancel_left]
  have hnone : ∀ y, n < y → y < n + b.blocks + c.blocks → y ≠ n + b.blocks → bodyAt s y = none := by
    intro y hny hye hne
    have hblk : blkAt s y = none := by
      rcases Nat.lt_or_ge y (n + b.blocks) with hlt | hge
      · have := h.blocks.layout.interior_none hb (i := y - n) (by omega) (by omega)
        rwa [Nat.add_sub_cancel' (by omega)] at this
      · have := h.blocks.layout.interior_none hc (i := y - (n + b.blocks)) (by omega) (by omega)
        rwa [Nat.add_sub_cancel' (by omega)] at this
    rw [bodyAt,blkAt_eq_none.mp hblk,Option.map_none]
  refine ⟨⟨unlinked (s.hdrs p),(s.hdrs p).hbFlags.wasUnmapped || (s.hdrs q).hbFlags.wasUnmapped,
    bodyAt_of_index hp,?_,?_⟩,fun y hny hye => ?_,fun y hy => ?_⟩
  · rw [hbody,update_of_ne (by omega),update_self,hsize]
  · rw [Bool.or_eq_true]
    constructor
    · rintro (hun | hun)
      · refine ⟨n,_,le_refl n,by omega,bodyAt_of_index hp,?_⟩
        change (!(s.hdrs p).hbFlags.wasUnmapped) = false
        rw [hun,Bool.not_true]
      · refine ⟨n + b.blocks,_,by omega,by omega,bodyAt_of_index hq,?_⟩
        change (!(s.hdrs q).hbFlags.wasUnmapped) = false
        rw [hun,Bool.not_true]
    · rintro ⟨m,g,hnm,hme,hm,hmapped⟩
      by_cases hmn : m = n
      · subst hmn
        rw [bodyAt_of_index hp] at hm
        cases hm
        exact .inl (by simpa [Hdr.isMapped,unlinked] using hmapped)
      · by_cases hmb : m = n + b.blocks
        · subst hmb
          rw [bodyAt_of_index hq] at hm
          cases hm
          exact .inr (by simpa [Hdr.isMapped,unlinked] using hmapped)
        · rw [hnone m (by omega) hme hmb] at hm
          cases hm
  · rw [hbody,update_apply]
    split
    · rfl
    · rename_i hne
      rw [update_of_ne (by omega),hnone y hny hye hne]
  · rw [hbody,update_of_ne (by omega),update_of_ne (by omega)]

end Joining

section Chains

inductive Chain (s : Heap) (n : Nat) (b : Blk) : Nat → Prop
  | head : Chain s n b (n + b.blocks)
  | next {e : Nat} {c : Blk} : Chain s n b e → blkAt s e = some c → c.free = true →
      b.sz + c.sz < sizetSignb → Chain s n b (e + c.blocks)

theorem Chain.le (h : Chain s n b e) : n + b.blocks ≤ e := by
  induction h with
  | head => exact le_refl _
  | next _ _ _ _ ih => omega

theorem Chain.isEnd (hb : blkAt s n = some b) (h : Chain s n b e) :
    ∃ m c, blkAt s m = some c ∧ m + c.blocks = e := by
  cases h with
  | head => exact ⟨n,b,hb,rfl⟩
  | next _ hc _ _ => exact ⟨_,_,hc,rfl⟩

theorem Chain.freeTiled (hb : blkAt s n = some b) (hfree : b.free = true) (h : Chain s n b e) :
    FreeTiled s n e := by
  induction h with
  | head => exact freeTiled_of_blk hb hfree
  | next h hc hcfree _ ih =>
    have := h.le
    exact ih.append (freeTiled_of_blk hc hcfree) (by omega) (by omega)

theorem Chain.rest (h : Chain s n b e) : FreeTiled s (n + b.blocks) e := by
  induction h with
  | head => exact fun y hlo hhi => by omega
  | next h hc hcfree _ ih => exact ih.append (freeTiled_of_blk hc hcfree) h.le (by omega)

theorem Chain.cut (hB : Blocks s L cells ∅) (h : Chain s n b e) (hm : blkAt s m = some c)
    (hle : n + b.blocks ≤ m) (hend : m + c.blocks ≤ e) : Chain s n b (m + c.blocks) := by
  have hpos := (hB.layout.blocks hm).blocks_pos
  induction h with
  | head => omega
  | @next y d hy hd hdfree hsum ih =>
    rcases Nat.lt_or_ge y (m + c.blocks) with hlt | hge
    · have heq := hB.layout.tiles.unique (x := m + c.blocks - 1) (Layout.len_eq hm) (Layout.len_eq hd)
        (by omega) (by omega)
      subst heq
      rw [hm] at hd
      cases hd
      exact hy.next hm hdfree hsum
    · exact ih hge

/-- A chain either ends by `e` or goes on with the block there. -/
theorem Chain.through (hB : Blocks s L cells ∅) (hb : blkAt s n = some b) (h : Chain s n b e)
    (h' : Chain s n b x) : x ≤ e ∨
      ∃ c, blkAt s e = some c ∧ c.free = true ∧ b.sz + c.sz < sizetSignb ∧ e + c.blocks ≤ x := by
  induction h' with
  | head => exact .inl h.le
  | @next y c hy hc hcfree hsum ih =>
    rcases ih with hle | ⟨d,hd,hdfree,hdsum,hdle⟩
    · rcases Nat.eq_or_lt_of_le hle with rfl | hlt
      · exact .inr ⟨c,hc,hcfree,hsum,le_refl _⟩
      · -- A block that ends at `e` cannot end inside the block at `y`.
        left
        by_contra hgt
        obtain ⟨m,d,hd,hmd⟩ := h.isEnd hb
        have hpos := (hB.layout.blocks hd).blocks_pos
        have hmy := hB.layout.tiles.unique (x := e - 1) (Layout.len_eq hd) (Layout.len_eq hc)
          (by omega) (by omega)
        subst hmy
        rw [hc] at hd
        cases hd
        omega
    · exact .inr ⟨d,hd,hdfree,hdsum,by omega⟩

/-- The measuring loop, from the end of a chain that is too short. -/
theorem chainReaches_spec (h : HeapOk s L cells) (hp : s.index n = .hdr p) (hb : blkAt s n = some b)
    (required fuel : Nat) {next total : Nat} (hchain : Chain s n b next)
    (htotal : total = (next - n) * hblkSize) (hshort : total < required) :
    Returns ((cells.filter (next ≤ ·)).card < fuel) (chainReaches s (s.hdrs p) required fuel next total)
      fun r => if r then ∃ e, Chain s n b e ∧ required ≤ (e - n) * hblkSize ∧
          ∀ x, Chain s n b x → required ≤ (x - n) * hblkSize → e ≤ x
        else ∀ x, Chain s n b x → (x - n) * hblkSize < required := by
  induction fuel generalizing next total with
  | zero => simp [chainReaches]
  | succ fuel ih =>
    -- Chains that end before the next block starts are too short.
    have hupTo : ∀ x, x ≤ next → (x - n) * hblkSize < required := by
      intro x hx
      have := Nat.mul_le_mul_right hblkSize (Nat.sub_le_sub_right hx n)
      omega
    have hstop : (∀ c, blkAt s next = some c → c.free = true → ¬ b.sz + c.sz < sizetSignb) →
        ∀ x, Chain s n b x → (x - n) * hblkSize < required := by
      intro hno x hx
      rcases hchain.through h.blocks hb hx with hle | ⟨c,hc,hcfree,hsum,_⟩
      · exact hupTo x hle
      · exact absurd hsum (hno c hc hcfree)
    have hle := hchain.le
    obtain ⟨m,d,hd,hmd⟩ := hchain.isEnd hb
    have hbehind := h.blocks.layout.behind hd
    rw [hmd] at hbehind
    rw [chainReaches]
    rcases hbehind with hnil | ⟨c,hc⟩
    · rw [hnil,returns_some]
      simp only [Bool.false_eq_true,if_false]
      refine hstop fun c hc => ?_
      obtain ⟨q,hq,_⟩ := blkAt_eq_some.mp hc
      rw [hnil] at hq
      cases hq
    · obtain ⟨q,hq,_⟩ := blkAt_eq_some.mp hc
      rw [hq]
      dsimp only
      have hcok := h.blocks.layout.blocks hc
      have hpos := hcok.blocks_pos
      split
      · rename_i hcused
        rw [returns_some]
        simp only [Bool.false_eq_true,if_false]
        refine hstop fun c' hc' hc'free => ?_
        rw [hc] at hc'
        cases hc'
        rw [isFree_of_blkAt hq hc,hc'free] at hcused
        cases hcused
      · rename_i hcfree
        have hcf : c.free = true := by
          rw [← isFree_of_blkAt hq hc]
          simpa using hcfree
        have hsz := blocks_mul_of_dvd (hcok.whole hcf)
        have hgrow : total + c.sz = (next + c.blocks - n) * hblkSize := by
          rw [htotal,← hsz,← Nat.add_mul]
          congr 1
          omega
        unfold blocksMergeOverflow
        rw [hbSz_of_blkAt hq hc,hbSz_of_blkAt hp hb]
        split
        · rename_i hover
          rw [returns_some,if_neg (by simpa using hshort)]
          refine hstop fun c' hc' _ => ?_
          rw [hc] at hc'
          cases hc'
          rw [decide_eq_true_eq] at hover
          omega
        · rename_i hroom
          rw [decide_eq_true_eq,Nat.not_le] at hroom
          have hnext := hchain.next hc hcf hroom
          split
          · rename_i hreq
            rw [returns_some,if_pos rfl]
            refine ⟨next + c.blocks,hnext,hgrow ▸ hreq,fun x hx hxreq => ?_⟩
            rcases hchain.through h.blocks hb hx with hxle | ⟨c',hc',_,_,hxle⟩
            · have := hupTo x hxle
              omega
            · rw [hc] at hc'
              cases hc'
              exact hxle
          · rename_i hreq
            rw [divHblksz_eq_blocks (hcok.whole hcf)]
            refine (ih hnext hgrow (by omega)).mono (fun hlt => ?_) fun _ => id
            have hss : cells.filter (next + c.blocks ≤ ·) ⊂ cells.filter (next ≤ ·) := by
              rw [ssubset_iff_of_subset]
              · refine ⟨next,?_,?_⟩
                · exact mem_filter.mpr ⟨h.blocks.layout.start_mem hc,le_refl _⟩
                · rw [mem_filter]
                  omega
              · intro y hy
                rw [mem_filter] at hy ⊢
                exact ⟨hy.1,by omega⟩
            have := card_lt_card hss
            omega

/-- What is left of a chain when its first block has been merged with the one before it. -/
theorem FreeTiled.behind (hB : Blocks s L cells ∅) (hc : blkAt s m = some c) (h : FreeTiled s m e)
    (hlater : ∀ y, m + c.blocks ≤ y → blkAt t y = blkAt s y) : FreeTiled t (m + c.blocks) e := by
  intro y hy hye
  obtain ⟨x,d,hd,hdfree,hmx,hde,hin⟩ := h y (by omega) hye
  have hx : m + c.blocks ≤ x := by
    by_contra hnot
    have heq := hB.layout.tiles.unique (x := x) (Layout.len_eq hd) (Layout.len_eq hc) (by omega) (by omega)
    subst heq
    rw [hc] at hd
    cases hd
    omega
  exact ⟨x,d,by rw [hlater x hx,hd],hdfree,hx,hde,hin⟩

/-- A chain that is long enough for the request goes on behind a block that is not. -/
theorem FreeTiled.next (hchain : FreeTiled s (n + b.blocks) e) (h : HeapOk s L cells) (hb : blkAt s n = some b)
    (hfree : b.free = true) (hshort : b.sz < required) (hreach : required ≤ (e - n) * hblkSize) :
    ∃ c q, s.index (n + b.blocks) = .hdr q ∧ blkAt s (n + b.blocks) = some c ∧ c.free = true ∧
      n + b.blocks + c.blocks ≤ e := by
  have hsz := blocks_mul_of_dvd ((h.blocks.layout.blocks hb).whole hfree)
  have hlt : n + b.blocks < e := by
    unfold hblkSize at *
    omega
  obtain ⟨m,c,hc,hcfree,hle,hce,hmle,_⟩ := hchain (n + b.blocks) (le_refl _) hlt
  obtain rfl : m = n + b.blocks := by omega
  obtain ⟨q,hq,_⟩ := blkAt_eq_some.mp hc
  exact ⟨c,q,hq,hc,hcfree,hce⟩

end Chains

section Requests

open HasHeap

def requiredSize (sizeNeeded alignM1 n : Nat) : Nat := sizeNeeded + alignPadSz n alignM1

/-- The block `n` is too small for the request, and with the free blocks up to `e` behind it
it is not. -/
structure Reaches (s : Heap) (sizeNeeded alignM1 n e : Nat) : Prop where
  head : ∃ b, blkAt s n = some b ∧ b.free = true ∧ b.sz < requiredSize sizeNeeded alignM1 n ∧ Chain s n b e
  enough : requiredSize sizeNeeded alignM1 n ≤ (e - n) * hblkSize

variable {σ : Type} [HasHeap σ] {fix : σ → Nat → Nat → Nat → Nat → σ} {R : σ → σ → Prop}
  {J : Nat → Nat → σ → σ → Prop} {y : σ} {P : Nat → Prop} {sizeNeeded alignM1 : Nat}

theorem mergeChain_spec (M : Merger fix cells R J) (h : HeapOk (heap y) L cells)
    (hp : (heap y).index n = .hdr p) (hb : blkAt (heap y) n = some b)
    (hfree : b.free = true) (hchain : FreeTiled (heap y) (n + b.blocks) e) (hshort : b.sz < required)
    (hreach : required ≤ (e - n) * hblkSize)
    (hfirst : ∀ m c, blkAt (heap y) m = some c → n + b.blocks ≤ m → m + c.blocks < e →
      (m + c.blocks - n) * hblkSize < required) :
    Returns (e - (n + b.blocks) ≤ fuel) (mergeChain fix n p required fuel y) fun z => R y z ∧ J n e y z := by
  induction fuel generalizing y L b with
  | zero =>
    have hsz := blocks_mul_of_dvd ((h.blocks.layout.blocks hb).whole hfree)
    rw [mergeChain,returns_none]
    unfold hblkSize at *
    omega
  | succ fuel ih =>
    have hok := h.blocks.layout.blocks hb
    have hpos := hok.blocks_pos
    have hsz := blocks_mul_of_dvd (hok.whole hfree)
    obtain ⟨c,q,hq,hc,hcfree,hce⟩ := FreeTiled.next hchain h hb hfree hshort hreach
    have hcpos := (h.blocks.layout.blocks hc).blocks_pos
    have hcsz := blocks_mul_of_dvd ((h.blocks.layout.blocks hc).whole hcfree)
    obtain ⟨s2,L2,hs2,hok2,hp2,hb2,_,hR,hJ⟩ := M.merge h hp hb hfree hq hc hcfree
    have hself : blkAt s2 n = some { b with sz := b.sz + c.sz } := by
      rw [hb2,update_of_ne (by omega),update_self]
    have hlen := blocks_join (hok.whole hfree) ((h.blocks.layout.blocks hc).whole hcfree)
    have hbytes : b.sz + c.sz = (n + b.blocks + c.blocks - n) * hblkSize := by
      rw [← hsz,← hcsz,← Nat.add_mul,Nat.add_assoc,Nat.add_sub_cancel_left]
    have hlater : ∀ {m}, n + b.blocks + c.blocks ≤ m → blkAt s2 m = blkAt (heap y) m := by
      intro m hm
      rw [hb2,update_of_ne (by omega),update_of_ne (by omega)]
    simp only [mergeChain,hbSz_of_blkAt hp hb,divHblksz_eq_blocks (hok.whole hfree),hq,hs2,hbSz_of_blkAt hp2 hself]
    split
    · rename_i hmore
      have hrest := ih (y := put (fix y n p (n + b.blocks) q) s2) (b := { b with sz := b.sz + c.sz }) (L := L2)
      rw [heap_put] at hrest
      refine (hrest hok2 hp2 hself hfree ?_ hmore ?_).mono (fun hle => ?_) fun z hz =>
        ⟨M.trans hR hz.1,M.join (by omega) hce hJ hz.2⟩
      · rw [hlen,← Nat.add_assoc]
        exact FreeTiled.behind h.blocks hc hchain fun m hm => hlater hm
      · rw [hlen,← Nat.add_assoc]
        intro m d hd hmd hde
        rw [hlater hmd] at hd
        exact hfirst m d hd (by omega) hde
      · rw [hlen]
        omega
    · rename_i henough
      have hend : n + b.blocks + c.blocks = e := by
        by_contra hne
        have := hfirst (n + b.blocks) c hc (le_refl _) (by omega)
        omega
      rw [returns_some,← hend]
      exact ⟨hR,hJ⟩

/-- What a search for a chain comes to: a chain from a block that `P` holds of has been
merged up to where it reaches, or there is none and nothing has changed. -/
def Merges (R : σ → σ → Prop) (J : Nat → Nat → σ → σ → Prop) (sizeNeeded alignM1 : Nat) (P : Nat → Prop) (y : σ)
    (r : Bool × σ) : Prop :=
  if r.1 then ∃ n e, P n ∧ Reaches (heap y) sizeNeeded alignM1 n e ∧
      (∀ x, Reaches (heap y) sizeNeeded alignM1 n x → e ≤ x) ∧ J n e y r.2 ∧ R y r.2
  else r.2 = y ∧ ∀ n e, P n → ¬ Reaches (heap y) sizeNeeded alignM1 n e

theorem Merges.mono {Q : Nat → Prop} {r : Bool × σ} (h : Merges R J sizeNeeded alignM1 P y r)
    (hPQ : ∀ n, P n → Q n) (hQP : ∀ n e, Q n → Reaches (heap y) sizeNeeded alignM1 n e → P n) :
    Merges R J sizeNeeded alignM1 Q y r := by
  obtain ⟨merged,t⟩ := r
  cases merged with
  | true =>
    obtain ⟨n,e,hn,hrest⟩ := h
    exact ⟨n,e,hPQ n hn,hrest⟩
  | false => exact ⟨h.1,fun n e hn hreach => h.2 n e (hQP n e hn hreach) hreach⟩

theorem mergeForAllocLoop_spec (M : Merger fix cells R J) (h : HeapOk (heap y) L cells) (hl : L i = a ++ l) :
    Returns (cells.card < fuel ∧ l.length ≤ k) (mergeForAllocLoop fix sizeNeeded alignM1 fuel k l.head? y)
      (Merges R J sizeNeeded alignM1 (· ∈ l) y) := by
  induction k generalizing a l with
  | zero =>
    cases l with
    | nil => exact ⟨rfl,by simp⟩
    | cons n l => simp [mergeForAllocLoop]
  | succ k ih =>
    cases l with
    | nil => exact ⟨rfl,by simp⟩
    | cons n l =>
      obtain ⟨p,b,hp,hb,hfree,_,hnext,_⟩ := h.blocks.current hl
      have hok := h.blocks.layout.blocks hb
      have hsz := blocks_mul_of_dvd (hok.whole hfree)
      -- Going on when no chain from `n` reaches far enough.
      have hskip : (∀ e, ¬ Reaches (heap y) sizeNeeded alignM1 n e) →
          Returns (cells.card < fuel ∧ (n :: l).length ≤ k + 1)
          (mergeForAllocLoop fix sizeNeeded alignM1 fuel k l.head? y)
          (Merges R J sizeNeeded alignM1 (· ∈ n :: l) y) := by
        intro hno
        refine (ih (a := a ++ [n]) (by simp [hl])).mono ?_ fun r hr =>
          hr.mono (fun _ => List.mem_cons_of_mem n) fun m e hm hreach => ?_
        · simp only [List.length_cons]
          omega
        · rcases List.mem_cons.mp hm with rfl | hm
          · exact absurd hreach (hno e)
          · exact hm
      simp only [List.head?_cons,mergeForAllocLoop,hp,hnext,hbSz_of_blkAt hp hb,
        divHblksz_eq_blocks (hok.whole hfree)]
      split
      · rename_i hlarge
        refine hskip fun e hreach => ?_
        obtain ⟨b',hb',_,hsmall,_⟩ := hreach.head
        rw [hb] at hb'
        cases hb'
        unfold requiredSize at hsmall
        omega
      · rename_i hshort
        have hmeasure := chainReaches_spec h hp hb (requiredSize sizeNeeded alignM1 n) fuel Chain.head
          (show b.sz = _ by rw [Nat.add_sub_cancel_left,hsz]) (Nat.lt_of_not_le hshort)
        unfold requiredSize at hmeasure
        have hbound : cells.card < fuel → (cells.filter (n + b.blocks ≤ ·)).card < fuel := fun hlt =>
          lt_of_le_of_lt (card_filter_le _ _) hlt
        split
        · rename_i hnone
          rw [hnone] at hmeasure
          exact fun henough => hmeasure (hbound henough.1)
        · rename_i hfalse
          rw [hfalse] at hmeasure
          refine hskip fun e hreach => ?_
          obtain ⟨b',hb',_,_,hchain⟩ := hreach.head
          rw [hb] at hb'
          cases hb'
          have := hmeasure e hchain
          have := hreach.enough
          unfold requiredSize at this
          omega
        · rename_i htrue
          rw [htrue] at hmeasure
          obtain ⟨e,hchain,hreach,hmin⟩ := hmeasure
          have hfirst : ∀ m c, blkAt (heap y) m = some c → n + b.blocks ≤ m → m + c.blocks < e →
              (m + c.blocks - n) * hblkSize < sizeNeeded + alignPadSz n alignM1 := by
            intro m c hm hle hlt
            by_contra hge
            have := hmin _ (hchain.cut h.blocks hm hle hlt.le) (Nat.le_of_not_lt hge)
            omega
          refine ((mergeChain_spec M h hp hb hfree hchain.rest (Nat.lt_of_not_le hshort) hreach
            hfirst).mono (fun henough => ?_) fun _ => id).map fun t ht => ?_
          · have := (hchain.freeTiled hb hfree).len_le h.blocks
            omega
          · refine ⟨n,e,List.mem_cons_self,⟨⟨b,hb,hfree,Nat.lt_of_not_le hshort,hchain⟩,hreach⟩,
              fun x hx => ?_,ht.2,ht.1⟩
            obtain ⟨b',hb',_,_,hchain'⟩ := hx.head
            rw [hb] at hb'
            cases hb'
            exact hmin x hchain' hx.enough

theorem mergeFreeBlocksWith_merges (M : Merger fix cells R J) (fuel sizeNeeded alignM1 : Nat)
    (h : HeapOk (heap y) L cells) : Returns (Enough cells fuel) (mergeFreeBlocksWith fix fuel sizeNeeded alignM1 y)
      (Merges R J sizeNeeded alignM1 (fun _ => True) y) := by
  have hall : Returns (Enough cells fuel) (mergeFreeBlocksWith fix fuel sizeNeeded alignM1 y)
      (Merges R J sizeNeeded alignM1 (fun n => ∃ j, j < nHblkFls + 1 ∧ n ∈ L j) y) := by
    refine returns_forLists_upTo (P := fun i => Merges R J sizeNeeded alignM1 (fun n => ∃ j, j < i ∧ n ∈ L j) y) ?_
      ⟨rfl,fun n e hn => by omega⟩
    rintro i ⟨merged,t⟩ hr
    cases merged with
    | true =>
      obtain ⟨n,e,⟨j,hj,hn⟩,hrest⟩ := hr
      exact ⟨n,e,⟨j,by omega,hn⟩,hrest⟩
    | false =>
      obtain ⟨ht,hno⟩ := hr
      dsimp only at ht ⊢
      subst ht
      rw [if_neg (by decide),h.head]
      refine (mergeForAllocLoop_spec M h (a := []) rfl).mono (fun henough => ?_)
        fun r hr => hr.mono (fun n hn => ⟨i,by omega,hn⟩) fun n e hn hreach => ?_
      · have := h.length_le i
        have := henough.card_lt
        omega
      · obtain ⟨j,hj,hn⟩ := hn
        rcases Nat.lt_or_eq_of_le (Nat.le_of_lt_succ hj) with hlt | rfl
        · exact absurd hreach (hno n e ⟨j,hlt,hn⟩)
        · exact hn
  refine hall.mono id fun r hr => hr.mono (fun _ _ => trivial) fun n e _ hreach => ?_
  obtain ⟨b,hb,hfree,_⟩ := hreach.head
  exact ⟨flOf b.sz,Nat.lt_succ_of_le (hblkFlFromBlocks_le _),
    (h.blocks.placed hb (by simp) _).mpr ⟨hfree,rfl⟩⟩

theorem mergeFreeBlocksWith_spec (M : Merger fix cells R J) (fuel sizeNeeded alignM1 : Nat)
    (h : Ok cells (heap y)) : Returns (Enough cells fuel) (mergeFreeBlocksWith fix fuel sizeNeeded alignM1 y)
      fun r => R y r.2 := by
  obtain ⟨L,h⟩ := h
  refine (mergeFreeBlocksWith_merges M fuel sizeNeeded alignM1 h).mono id ?_
  rintro ⟨merged,t⟩ hr
  cases merged with
  | true =>
    obtain ⟨n,e,_,_,_,_,hR⟩ := hr
    exact hR
  | false =>
    obtain ⟨rfl,_⟩ := hr
    exact M.refl ⟨L,h⟩

theorem matchUnmapped_merger : Merger matchUnmapped cells (Kept cells) fun n e s t => Joined s n e t where
  refl := kept_refl
  trans h h' := h'.after h.2
  ok h := h.1
  join := Joined.trans
  merge h hp hb hfree hq hc hcfree := by
    obtain ⟨s',L',hs',hok,hsame,hp',hb',hcard⟩ := mergeWithNext_ok h hp hb hfree hq hc hcfree
      (matchUnmapped_matched h.blocks.hdrs hp _ _)
    exact ⟨s',L',hs',hok,hp',hb',hcard,⟨⟨L',hok⟩,hsame⟩,joined_of_merge h hp hb hfree hq hc hcfree hs'⟩

end Requests

end GcUtil.Block.ChainMerging
