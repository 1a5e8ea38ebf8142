import GcUtil.Block.BottomIndexes
import GcUtil.Block.IndexLookup

/-! `GC_next_block` and `GC_prev_block` through the links of the bottom indices: in every state
reached, whatever the order in which the bottom indices were allocated, they find the nearest
block start. -/
namespace GcUtil.Block.NearestBlocks
open Basic Headers HeaderTable BlockMap JointInvariant Unmapping Merging Runs IndexLookup BottomIndexes List
open Library.DoublyLinked

section Search

variable (s : Heap) (B : Indexes)

def nextFrom (allowFree : Bool) : Nat → Nat → Option Nat → Option Nat
  | 0, _, _ => none
  | _ + 1, _, none => none
  | fuel + 1, j, some bi =>
    (nextInBottom s allowFree (B.key bi) bottomSz j).or (nextFrom allowFree fuel 0 (B.asc bi))

/-- `GC_next_block`; without a bottom index for `h` it starts at the first one behind. -/
def nextBlock (h : Nat) (allowFree : Bool) : Option Nat :=
  match getBi B (h / bottomSz) with
  | some bi => nextFrom s B allowFree (B.scratch + 1) (h % bottomSz) (some bi)
  | none => nextFrom s B allowFree (B.scratch + 1) 0 (seek B.node (h / bottomSz) (B.scratch + 1) none B.all).2

/-- The outer loop of `GC_prev_block`, where `j` is one more than the source's index. -/
def prevFrom : Nat → Nat → Option Nat → Option Nat
  | 0, _, _ => none
  | _ + 1, _, none => none
  | fuel + 1, j, some bi => (prevInBottom s (B.key bi) bottomSz j).or (prevFrom fuel bottomSz (B.desc bi))

/-- The loop of `GC_prev_block` over the bottom indices behind `hi`. -/
def skipDown (hi : Nat) : Nat → Option Nat → Option Nat
  | 0, bi => bi
  | _ + 1, none => none
  | fuel + 1, some bi => if hi < B.key bi then skipDown hi fuel (B.desc bi) else some bi

def prevBlock (h : Nat) : Option Nat :=
  match getBi B (h / bottomSz) with
  | some bi => prevFrom s B (B.scratch + 1) (h % bottomSz + 1) (some bi)
  | none => prevFrom s B (B.scratch + 1) bottomSz (skipDown B (h / bottomSz) (B.scratch + 1) B.allEnd)

end Search

section Links

variable {s : Heap} {B : Indexes} {ids keys : List Nat}

theorem nextFrom_spec {allowFree : Bool} {prev : Option Nat} {l : List Nat} {fuel j : Nat}
    (hseg : Segment B.asc B.desc prev l none) (hfuel : l.length < fuel) :
    nextFrom s B allowFree fuel j l.head? = nextBlockLoop s allowFree j (l.map B.key) := by
  induction fuel generalizing prev l j with
  | zero => omega
  | succ fuel ih =>
    cases l with
    | nil => rfl
    | cons bi l =>
      obtain ⟨-,hasc,hrest⟩ := hseg
      rw [Option.or_none] at hasc
      rw [List.head?_cons,nextFrom,map_cons,nextBlockLoop,hasc,ih hrest (by simpa using hfuel)]
      cases nextInBottom s allowFree (B.key bi) bottomSz j <;> rfl

theorem prevFrom_spec {prev : Option Nat} {l : List Nat} {fuel j : Nat} (hseg : Segment B.desc B.asc prev l none)
    (hfuel : l.length < fuel) : prevFrom s B fuel j l.head? = prevBlockLoop s j (l.map B.key) := by
  induction fuel generalizing prev l j with
  | zero => omega
  | succ fuel ih =>
    cases l with
    | nil => rfl
    | cons bi l =>
      obtain ⟨-,hdesc,hrest⟩ := hseg
      rw [Option.or_none] at hdesc
      rw [List.head?_cons,prevFrom,map_cons,prevBlockLoop,hdesc,ih hrest (by simpa using hfuel)]
      cases prevInBottom s (B.key bi) bottomSz j <;> rfl

theorem skipDown_spec {hi : Nat} {prev : Option Nat} {l : List Nat} {fuel : Nat}
    (hseg : Segment B.desc B.asc prev l none) (hfuel : l.length < fuel) :
    skipDown B hi fuel l.head? = (l.dropWhile fun p => hi < B.key p).head? := by
  induction fuel generalizing prev l with
  | zero => omega
  | succ fuel ih =>
    cases l with
    | nil => rfl
    | cons bi l =>
      obtain ⟨-,hdesc,hrest⟩ := hseg
      rw [Option.or_none] at hdesc
      rw [List.head?_cons,skipDown,hdesc,ih hrest (by simpa using hfuel),dropWhile_cons]
      by_cases hlt : hi < B.key bi <;> simp [hlt]

theorem filter_eq_dropWhile {α : Type} {R : α → α → Prop} {p : α → Bool} {l : List α} (hsorted : l.Pairwise R)
    (hup : ∀ a b, R a b → p a = true → p b = true) : l.filter p = l.dropWhile fun a => !p a := by
  induction l with
  | nil => rfl
  | cons a l ih =>
    obtain ⟨ha,hl⟩ := pairwise_cons.mp hsorted
    rw [filter_cons,dropWhile_cons]
    by_cases hp : p a = true
    · have hall : l.filter p = l := filter_eq_self.mpr fun b hb => hup a b (ha b hb) hp
      simp [hp,hall]
    · simp [hp,ih hl]

theorem filter_ge_eq (hsorted : keys.Pairwise (· < ·)) (hi : Nat) :
    keys.filter (hi ≤ ·) = keys.dropWhile (· < hi) := by
  have hcut := filter_eq_dropWhile (p := fun k => decide (hi ≤ k)) hsorted fun a b hab ha => by
    rw [decide_eq_true_eq] at ha ⊢
    omega
  simpa [← decide_not,Nat.not_le] using hcut

theorem reverse_filter_le_eq (hsorted : keys.Pairwise (· < ·)) (hi : Nat) :
    (keys.filter (· ≤ hi)).reverse = keys.reverse.dropWhile (hi < ·) := by
  have hcut := filter_eq_dropWhile (p := fun k => decide (k ≤ hi)) (pairwise_reverse.mpr hsorted)
    fun a b hab ha => by
      rw [decide_eq_true_eq] at ha ⊢
      omega
  rw [← filter_reverse]
  simpa [← decide_not,Nat.not_le] using hcut

section

variable (h : Represents B ids s.bottomKeys) (hsorted : s.bottomKeys.Pairwise (· < ·)) (n : Nat)
include h hsorted n

theorem nextBlock_eq (allowFree : Bool) : nextBlock s B n allowFree = Headers.nextBlock s n allowFree := by
  have hlen := h.length_le
  unfold nextBlock Headers.nextBlock
  dsimp only
  cases hbi : getBi B (n / bottomSz) with
  | some bi =>
    obtain ⟨hmem,hkey⟩ := h.of_getBi hbi
    have hin : n / bottomSz ∈ s.bottomKeys := by
      rw [← h.keys_eq,← hkey]
      exact mem_map_of_mem hmem
    obtain ⟨a,b,rfl⟩ := append_of_mem hmem
    have hkeys := h.keys_eq
    rw [map_append,map_cons,hkey] at hkeys
    have hfilter : s.bottomKeys.filter (n / bottomSz ≤ ·) = n / bottomSz :: b.map B.key := by
      rw [filter_ge_eq hsorted,← hkeys,dropWhile_append_of_pos,dropWhile_cons_of_neg (by simp)]
      intro k hk
      rw [← hkeys,pairwise_append] at hsorted
      simpa using hsorted.2.2 k hk _ mem_cons_self
    have hseg := (segment_append.mp h.linked.segment).2
    have hfrom : nextFrom s B allowFree (B.scratch + 1) (n % bottomSz) (some bi) =
        nextBlockLoop s allowFree (n % bottomSz) ((bi :: b).map B.key) :=
      nextFrom_spec hseg (by simp at hlen ⊢; omega)
    rw [if_pos hin,hfilter]
    simpa [hkey] using hfrom
  | none =>
    have hout := h.getBi_eq_none.mp hbi
    have hfilter : s.bottomKeys.filter (n / bottomSz ≤ ·) = (behind B (n / bottomSz) ids).map B.key := by
      rw [filter_ge_eq hsorted,← h.keys_eq,dropWhile_map]
      rfl
    have hseg : Segment B.asc B.desc _ (behind B (n / bottomSz) ids) none :=
      (segment_append.mp ((before_append_behind B (n / bottomSz) ids).symm ▸ h.linked.segment)).2
    have hshort : (behind B (n / bottomSz) ids).length ≤ ids.length := length_dropWhile_le _ _
    rw [if_neg hout,hfilter,h.seek_eq]
    exact nextFrom_spec hseg (by omega)

theorem prevBlock_eq :
    prevBlock s B n = Headers.prevBlock s n := by
  have hlen := h.length_le
  have hback : Segment B.desc B.asc none ids.reverse none := segment_reverse h.linked.segment
  unfold prevBlock Headers.prevBlock
  dsimp only
  rw [reverse_filter_le_eq hsorted,← h.keys_eq,← map_reverse,dropWhile_map]
  cases hbi : getBi B (n / bottomSz) with
  | some bi =>
    obtain ⟨hmem,hkey⟩ := h.of_getBi hbi
    have hin : n / bottomSz ∈ ids.map B.key := hkey ▸ mem_map_of_mem hmem
    obtain ⟨a,b,rfl⟩ := append_of_mem hmem
    have hsplit : (a ++ bi :: b).reverse = b.reverse ++ bi :: a.reverse := by simp
    have hdrop : (a ++ bi :: b).reverse.dropWhile ((fun k => decide (n / bottomSz < k)) ∘ B.key) = bi :: a.reverse := by
      rw [hsplit,dropWhile_append_of_pos,dropWhile_cons_of_neg (by simp [hkey])]
      intro k hk
      rw [← h.keys_eq,map_append,pairwise_append,map_cons,pairwise_cons] at hsorted
      have hlt := hsorted.2.1.1 (B.key k) (mem_map_of_mem (mem_reverse.mp hk))
      simpa [hkey] using hlt
    rw [hsplit] at hback
    rw [if_pos hin,hdrop]
    exact prevFrom_spec (segment_append.mp hback).2 (by simp at hlen ⊢; omega)
  | none =>
    have hout : n / bottomSz ∉ ids.map B.key := by
      rw [h.keys_eq]
      exact h.getBi_eq_none.mp hbi
    have hskip := @skipDown_spec B (n / bottomSz) none ids.reverse (B.scratch + 1) hback (by simp; omega)
    rw [List.head?_reverse,← h.last] at hskip
    have hshort := length_dropWhile_le (fun p => decide (n / bottomSz < B.key p)) ids.reverse
    rw [← @takeWhile_append_dropWhile _ (fun p => decide (n / bottomSz < B.key p)) ids.reverse] at hback
    rw [if_neg hout,hskip]
    exact prevFrom_spec (segment_append.mp hback).2 (by rw [length_reverse] at hshort; omega)

end

end Links

section Nearest

variable {s : Heap} {L : Nat → List Nat} {cells : Finset Nat} {allowFree : Bool} {key j n : Nat}

def Start (s : Heap) (allowFree : Bool) (n : Nat) : Prop :=
  ∃ p, s.index n = .hdr p ∧ (allowFree = true ∨ (s.hdrs p).isFree = false)

/-- Neither a forwarding count nor the size of a free block leads past the start of a block. -/
structure Spaced (s : Heap) : Prop where
  own : ∀ n p, s.index n = .hdr p → (s.hdrs p).hbBlock = n
  hop : ∀ n k, s.index n = .forward k → 0 < k ∧ k ≤ n ∧ ∀ m, n < m + k → m ≤ n → ∀ p, s.index m ≠ .hdr p
  skip : ∀ n p, s.index n = .hdr p → (s.hdrs p).isFree = true →
    0 < divHblksz (s.hdrs p).hbSz ∧ ∀ m, n < m → m < n + divHblksz (s.hdrs p).hbSz → ∀ q, s.index m ≠ .hdr q

structure Ahead (s : Heap) (allowFree : Bool) (lo : Nat) : Prop where
  own : ∀ n p, lo ≤ n → s.index n = .hdr p → (s.hdrs p).hbBlock = n
  skip : allowFree = false → ∀ n p, s.index n = .hdr p → (s.hdrs p).isFree = true →
    0 < divHblksz (s.hdrs p).hbSz ∧ ∀ m, n < m → m < n + divHblksz (s.hdrs p).hbSz → ∀ q, s.index m ≠ .hdr q

structure Back (s : Heap) (hi : Nat) : Prop where
  own : ∀ n p, n < hi → s.index n = .hdr p → (s.hdrs p).hbBlock = n
  hop : ∀ n k, n < hi → s.index n = .forward k →
    0 < k ∧ k ≤ n ∧ ∀ m, n < m + k → m ≤ n → ∀ p, s.index m ≠ .hdr p

theorem Spaced.ahead (h : Spaced s) (allowFree : Bool) (lo : Nat) : Ahead s allowFree lo :=
  ⟨fun n p _ => h.own n p,fun _ => h.skip⟩

theorem Spaced.back (h : Spaced s) (hi : Nat) : Back s hi :=
  ⟨fun n p _ => h.own n p,fun n k _ => h.hop n k⟩

theorem spaced_of_heapOk (h : HeapOk s L cells) : Spaced s where
  own n p hp := (h.blocks.layout.blocks (blkAt_of_index hp)).self
  hop := by
    intro x k hx
    have hin : x ∈ cells := by
      by_contra hout
      rw [h.blocks.layout.outside x hout] at hx
      cases hx
    obtain ⟨m,len,hlen,hle,hlt⟩ := (h.blocks.layout.tiles.covers x).mp hin
    obtain ⟨b,hb,rfl⟩ := Option.map_eq_some_iff.mp hlen
    obtain ⟨p,hp,rfl⟩ := blkAt_eq_some.mp hb
    have hok := h.blocks.layout.blocks hb
    have hne : m ≠ x := by
      rintro rfl
      rw [hp] at hx
      cases hx
    have hfill := hok.fill (x - m) (by omega) (by omega)
    rw [Nat.add_sub_cancel' hle,hx] at hfill
    have hused : (blk (s.hdrs p)).free = false := by
      cases hfree : (blk (s.hdrs p)).free with
      | false => rfl
      | true =>
        rw [Blk.fill,hfree] at hfill
        cases hfill
    rw [Blk.fill,hused] at hfill
    have hk : k = min (x - m) maxJump := by simpa using hfill
    have hjump : 0 < maxJump := by decide
    refine ⟨by omega,by omega,fun y hy hyx q hq => ?_⟩
    have hfill' := hok.fill (y - m) (by omega) (by omega)
    rw [show m + (y - m) = y by omega,hq,Blk.fill,hused] at hfill'
    cases hfill'
  skip := by
    intro n p hp hfree
    have hb := blkAt_of_index hp
    have hok := h.blocks.layout.blocks hb
    have hsz : divHblksz (s.hdrs p).hbSz = (blk (s.hdrs p)).blocks := divHblksz_eq_blocks (hok.whole hfree)
    rw [hsz]
    refine ⟨hok.blocks_pos,fun m hm hlt q hq => ?_⟩
    have hnil := h.blocks.layout.fill_nil hb hfree (i := m - n) (by omega) (by omega)
    rw [show n + (m - n) = m by omega,hq] at hnil
    cases hnil

def FoundUp (s : Heap) (allowFree : Bool) (lo hi : Nat) : Option Nat → Prop
  | some b => IsLeast {c | Start s allowFree c ∧ lo ≤ c} b
  | none => ∀ c, Start s allowFree c → lo ≤ c → hi ≤ c

def FoundDown (s : Heap) (lo hi : Nat) : Option Nat → Prop
  | some b => IsGreatest {c | Start s true c ∧ c < hi} b
  | none => ∀ c, Start s true c → c < hi → c < lo

theorem FoundUp.past {lo lo' hi : Nat} {r : Option Nat} (h : FoundUp s allowFree lo' hi r) (hle : lo ≤ lo')
    (hnone : ∀ c, Start s allowFree c → lo ≤ c → lo' ≤ c) : FoundUp s allowFree lo hi r := by
  cases r with
  | none => exact fun c hc hlo => h c hc (hnone c hc hlo)
  | some b => exact ⟨⟨h.1.1,hle.trans h.1.2⟩,fun c hc => h.2 ⟨hc.1,hnone c hc.1 hc.2⟩⟩

theorem FoundDown.past {lo hi hi' : Nat} {r : Option Nat} (h : FoundDown s lo hi' r) (hle : hi' ≤ hi)
    (hnone : ∀ c, Start s true c → c < hi → c < hi') : FoundDown s lo hi r := by
  cases r with
  | none => exact fun c hc hhi => h c hc (hnone c hc hhi)
  | some b => exact ⟨⟨h.1.1,h.1.2.trans_le hle⟩,fun c hc => h.2 ⟨hc.1,hnone c hc.1 hc.2⟩⟩

theorem nextInBottom_spec {lo fuel : Nat} (h : Ahead s allowFree lo) (hlo : lo ≤ key * bottomSz + j)
    (hfuel : bottomSz ≤ fuel + j) :
    FoundUp s allowFree (key * bottomSz + j) ((key + 1) * bottomSz) (nextInBottom s allowFree key fuel j) := by
  have hend : bottomSz ≤ j → FoundUp s allowFree (key * bottomSz + j) ((key + 1) * bottomSz) none := by
    intro hj c _ hc
    rw [Nat.succ_mul]
    omega
  induction fuel generalizing j with
  | zero => exact hend (by omega)
  | succ fuel ih =>
    have hnext : ∀ i, j < i → (∀ c, key * bottomSz + j ≤ c → c < key * bottomSz + i → ¬ Start s allowFree c) →
        FoundUp s allowFree (key * bottomSz + j) ((key + 1) * bottomSz) (nextInBottom s allowFree key fuel i) := by
      intro i hi hnone
      refine (ih (by omega) (by omega) fun hi' c _ hc => ?_).past (by omega) fun c hc hlo => ?_
      · rw [Nat.succ_mul]
        omega
      · by_contra hlt
        exact hnone c hlo (by omega) hc
    rw [nextInBottom]
    by_cases hlt : j < bottomSz
    · rw [if_pos hlt]
      split
      · next p hp =>
        split
        · next hok =>
          rw [h.own _ p hlo hp]
          exact ⟨⟨⟨p,hp,by simpa using hok⟩,le_refl _⟩,fun c hc => hc.2⟩
        · next hno =>
          have hfree : allowFree = false ∧ (s.hdrs p).isFree = true := by simpa using hno
          obtain ⟨hpos,hskip⟩ := h.skip hfree.1 _ p hp hfree.2
          apply hnext _ (by omega)
          rintro c hle hc ⟨q,hq,hused⟩
          rcases Nat.eq_or_lt_of_le hle with rfl | hgt
          · rw [hp] at hq
            cases hq
            simp [hfree] at hused
          · exact hskip c hgt (by omega) q hq
      · next hentry =>
        apply hnext _ (by omega)
        rintro c hle hc ⟨q,hq,-⟩
        have hsame : c = key * bottomSz + j := by omega
        exact hentry q (hsame ▸ hq)
    · rw [if_neg hlt]
      exact hend (by omega)

theorem prevInBottom_spec {hi fuel : Nat} (h : Back s hi) (hhi : key * bottomSz + j ≤ hi) (hfuel : j ≤ fuel) :
    FoundDown s (key * bottomSz) (key * bottomSz + j) (prevInBottom s key fuel j) := by
  induction fuel generalizing j with
  | zero =>
    intro c _ hc
    omega
  | succ fuel ih =>
    rw [prevInBottom]
    by_cases hj : j = 0
    · rw [if_pos hj]
      intro c _ hc
      omega
    · rw [if_neg hj]
      split
      · next hnil =>
        refine (ih (by omega) (by omega)).past (by omega) fun c hc hlt => ?_
        obtain ⟨q,hq,-⟩ := hc
        have hne : c ≠ key * bottomSz + (j - 1) := by
          rintro rfl
          rw [hnil] at hq
          cases hq
        omega
      · next k hk =>
        obtain ⟨hpos,hle,hhop⟩ := h.hop _ k (by omega) hk
        have hnone : ∀ c, Start s true c → c < key * bottomSz + j → c + k < key * bottomSz + j := by
          rintro c ⟨q,hq,-⟩ hlt
          by_contra hge
          exact hhop c (by omega) (by omega) q hq
        by_cases hbelow : k ≤ j
        · refine (ih (by omega) (by omega)).past (by omega) fun c hc hlt => ?_
          have := hnone c hc hlt
          omega
        · have hzero : j - k = 0 := by omega
          rw [hzero]
          refine (ih (by omega) (Nat.zero_le _)).past (by omega) fun c hc hlt => ?_
          have := hnone c hc hlt
          omega
      · next p hp =>
        rw [h.own _ p (by omega) hp]
        refine ⟨⟨⟨p,hp,.inl rfl⟩,by omega⟩,fun c hc => ?_⟩
        have := hc.2
        omega

def LeastOf (S : Set Nat) : Option Nat → Prop
  | some b => IsLeast S b
  | none => S = ∅

def GreatestOf (S : Set Nat) : Option Nat → Prop
  | some b => IsGreatest S b
  | none => S = ∅

theorem LeastOf.eq_some {S : Set Nat} {r : Option Nat} {b : Nat} (h : LeastOf S r) (hb : IsLeast S b) : r = some b := by
  cases r with
  | none => exact absurd hb.1 (h ▸ Set.notMem_empty b)
  | some c => exact congrArg some (IsLeast.unique h hb)

theorem GreatestOf.eq_some {S : Set Nat} {r : Option Nat} {b : Nat} (h : GreatestOf S r) (hb : IsGreatest S b) :
    r = some b := by
  cases r with
  | none => exact absurd hb.1 (h ▸ Set.notMem_empty b)
  | some c => exact congrArg some (IsGreatest.unique h hb)

theorem nextBlockLoop_spec {lo : Nat} (h : Ahead s allowFree lo) {keys : List Nat} (hsorted : keys.Pairwise (· < ·))
    (hin : ∀ c, Start s allowFree c → lo ≤ c → c / bottomSz ∈ keys) (hj : j ≤ bottomSz)
    (hfirst : ∀ k ∈ keys.head?, lo ≤ k * bottomSz + j ∧ ∀ c, Start s allowFree c → lo ≤ c → k * bottomSz + j ≤ c) :
    LeastOf {c | Start s allowFree c ∧ lo ≤ c} (nextBlockLoop s allowFree j keys) := by
  induction keys generalizing j with
  | nil =>
    rw [nextBlockLoop,LeastOf,Set.eq_empty_iff_forall_notMem]
    exact fun c hc => not_mem_nil (hin c hc.1 hc.2)
  | cons key keys ih =>
    obtain ⟨hrest,hsorted⟩ := pairwise_cons.mp hsorted
    obtain ⟨hlo,hstart⟩ := hfirst key rfl
    have hpass := nextInBottom_spec (j := j) h hlo (Nat.le_add_right bottomSz j)
    rw [nextBlockLoop]
    cases hfound : nextInBottom s allowFree key bottomSz j with
    | some b =>
      rw [hfound] at hpass
      exact hpass.past hlo hstart
    | none =>
      rw [hfound] at hpass
      have hbehind : ∀ c, Start s allowFree c → lo ≤ c → (key + 1) * bottomSz ≤ c :=
        fun c hc hle => hpass c hc (hstart c hc hle)
      refine ih hsorted (fun c hc hle => ?_) (Nat.zero_le _) fun k hk => ⟨?_,fun c hc hle => ?_⟩
      · rcases mem_cons.mp (hin c hc hle) with heq | hmem
        · have hbound := hbehind c hc hle
          have hdiv : key + 1 ≤ c / bottomSz := (Nat.le_div_iff_mul_le (by decide)).mpr hbound
          omega
        · exact hmem
      · have hlt := hrest k (List.mem_of_mem_head? hk)
        have hmul : (key + 1) * bottomSz ≤ k * bottomSz := Nat.mul_le_mul_right _ hlt
        rw [Nat.succ_mul] at hmul
        omega
      · rw [Nat.add_zero]
        apply (Nat.le_div_iff_mul_le (by decide)).mp
        have hbound := hbehind c hc hle
        have hdiv : key + 1 ≤ c / bottomSz := (Nat.le_div_iff_mul_le (by decide)).mpr hbound
        rcases mem_cons.mp (hin c hc hle) with heq | hmem
        · omega
        · obtain ⟨l,rfl⟩ := List.head?_eq_some_iff.mp hk
          rcases mem_cons.mp hmem with heq | hmem
          · exact heq.ge
          · exact ((pairwise_cons.mp hsorted).1 _ hmem).le

theorem prevBlockLoop_spec {hi : Nat} (h : Back s hi) {keys : List Nat} (hsorted : keys.Pairwise (· > ·))
    (hin : ∀ c, Start s true c → c < hi → c / bottomSz ∈ keys) (hj : j ≤ bottomSz)
    (hfirst : ∀ k ∈ keys.head?, k * bottomSz + j ≤ hi ∧ ∀ c, Start s true c → c < hi → c < k * bottomSz + j) :
    GreatestOf {c | Start s true c ∧ c < hi} (prevBlockLoop s j keys) := by
  induction keys generalizing j with
  | nil =>
    rw [prevBlockLoop,GreatestOf,Set.eq_empty_iff_forall_notMem]
    exact fun c hc => not_mem_nil (hin c hc.1 hc.2)
  | cons key keys ih =>
    obtain ⟨hrest,hsorted⟩ := pairwise_cons.mp hsorted
    obtain ⟨hhi,hstart⟩ := hfirst key rfl
    have hpass := prevInBottom_spec h hhi hj
    rw [prevBlockLoop]
    cases hfound : prevInBottom s key bottomSz j with
    | some b =>
      rw [hfound] at hpass
      exact hpass.past hhi hstart
    | none =>
      rw [hfound] at hpass
      have hbelow : ∀ c, Start s true c → c < hi → c / bottomSz < key := fun c hc hlt =>
        (Nat.div_lt_iff_lt_mul (by decide)).mpr (hpass c hc (hstart c hc hlt))
      have hmem : ∀ c, Start s true c → c < hi → c / bottomSz ∈ keys := fun c hc hlt =>
        (mem_cons.mp (hin c hc hlt)).resolve_left (hbelow c hc hlt).ne
      refine ih hsorted hmem (le_refl _) fun k hk => ⟨?_,fun c hc hlt => ?_⟩
      · have hlt := hrest k (List.mem_of_mem_head? hk)
        have hmul : (k + 1) * bottomSz ≤ key * bottomSz := Nat.mul_le_mul_right _ hlt
        rw [Nat.succ_mul] at hmul
        omega
      · rw [← Nat.succ_mul]
        apply (Nat.div_lt_iff_lt_mul (by decide)).mp
        obtain ⟨l,rfl⟩ := List.head?_eq_some_iff.mp hk
        rcases mem_cons.mp (hmem c hc hlt) with heq | hin'
        · omega
        · have := (pairwise_cons.mp hsorted).1 _ hin'
          omega

theorem head_le_of_mem {keys : List Nat} {k k' : Nat} (hsorted : keys.Pairwise (· < ·)) (hk : k ∈ keys.head?)
    (hk' : k' ∈ keys) : k ≤ k' := by
  obtain ⟨l,rfl⟩ := List.head?_eq_some_iff.mp hk
  rcases mem_cons.mp hk' with rfl | hmem
  · exact le_refl _
  · exact ((pairwise_cons.mp hsorted).1 _ hmem).le

theorem Start.key_mem (hkeyed : Keyed s) (h : Start s allowFree n) : n / bottomSz ∈ s.bottomKeys := by
  obtain ⟨p,hp,-⟩ := h
  exact hkeyed.mem n (by rw [hp]; simp)

theorem nextBlock_least (h : Ahead s allowFree n) (hkeyed : Keyed s) :
    LeastOf {c | Start s allowFree c ∧ n ≤ c} (Headers.nextBlock s n allowFree) := by
  have hsorted : (s.bottomKeys.filter (n / bottomSz ≤ ·)).Pairwise (· < ·) := hkeyed.sorted.filter _
  have hmem : ∀ k, k ∈ s.bottomKeys.filter (n / bottomSz ≤ ·) ↔ k ∈ s.bottomKeys ∧ n / bottomSz ≤ k := by simp
  have hn := Nat.div_add_mod' n bottomSz
  have hmod := Nat.mod_lt n (by decide : 0 < bottomSz)
  have hin : ∀ c, Start s allowFree c → n ≤ c → c / bottomSz ∈ s.bottomKeys.filter (n / bottomSz ≤ ·) :=
    fun c hc hle => (hmem _).mpr ⟨hc.key_mem hkeyed,Nat.div_le_div_right hle⟩
  unfold Headers.nextBlock
  dsimp only
  refine nextBlockLoop_spec h hsorted hin (by split <;> omega) fun k hk => ?_
  have hkey := (hmem k).mp (List.mem_of_mem_head? hk)
  have hleast : ∀ c, Start s allowFree c → n ≤ c → k * bottomSz ≤ c := fun c hc hle =>
    (Nat.le_div_iff_mul_le (by decide)).mp (head_le_of_mem hsorted hk (hin c hc hle))
  split
  · next hhi =>
    have hsame : k = n / bottomSz :=
      le_antisymm (head_le_of_mem hsorted hk ((hmem _).mpr ⟨hhi,le_refl _⟩)) hkey.2
    rw [hsame,hn]
    exact ⟨le_refl _,fun c _ hle => hle⟩
  · next hhi =>
    have hlt : n / bottomSz + 1 ≤ k := Nat.lt_of_le_of_ne hkey.2 fun heq => hhi (heq ▸ hkey.1)
    have hmul := Nat.mul_le_mul_right bottomSz hlt
    rw [Nat.succ_mul] at hmul
    exact ⟨by omega,fun c hc hle => (Nat.add_zero _).symm ▸ hleast c hc hle⟩

theorem prevBlock_greatest (h : Back s (n + 1)) (hkeyed : Keyed s) :
    GreatestOf {c | Start s true c ∧ c ≤ n} (Headers.prevBlock s n) := by
  have hsorted : (s.bottomKeys.filter (· ≤ n / bottomSz)).reverse.Pairwise (· > ·) :=
    pairwise_reverse.mpr (hkeyed.sorted.filter _)
  have hmem : ∀ k, k ∈ (s.bottomKeys.filter (· ≤ n / bottomSz)).reverse ↔ k ∈ s.bottomKeys ∧ k ≤ n / bottomSz := by
    simp
  have hn := Nat.div_add_mod' n bottomSz
  have hmod := Nat.mod_lt n (by decide : 0 < bottomSz)
  have hin : ∀ c, Start s true c → c < n + 1 → c / bottomSz ∈ (s.bottomKeys.filter (· ≤ n / bottomSz)).reverse :=
    fun c hc hlt => (hmem _).mpr ⟨hc.key_mem hkeyed,Nat.div_le_div_right (Nat.le_of_lt_succ hlt)⟩
  have hfirst : ∀ k ∈ (s.bottomKeys.filter (· ≤ n / bottomSz)).reverse.head?,
      ∀ k' ∈ (s.bottomKeys.filter (· ≤ n / bottomSz)).reverse, k' ≤ k := by
    intro k hk k' hk'
    obtain ⟨l,hl⟩ := List.head?_eq_some_iff.mp hk
    rw [hl] at hk' hsorted
    rcases mem_cons.mp hk' with rfl | hmem'
    · exact le_refl _
    · exact ((pairwise_cons.mp hsorted).1 _ hmem').le
  have hset : {c | Start s true c ∧ c ≤ n} = {c | Start s true c ∧ c < n + 1} := by
    ext c
    simp only [Set.mem_ofPred_eq,Nat.lt_succ_iff]
  unfold Headers.prevBlock
  dsimp only
  rw [hset]
  refine prevBlockLoop_spec h hsorted hin (by split <;> omega) fun k hk => ?_
  have hkey := (hmem k).mp (List.mem_of_mem_head? hk)
  split
  · next hhi =>
    have hsame : k = n / bottomSz := le_antisymm hkey.2 (hfirst k hk _ ((hmem _).mpr ⟨hhi,le_refl _⟩))
    rw [hsame,← Nat.add_assoc,hn]
    exact ⟨le_refl _,fun c _ hlt => hlt⟩
  · next hhi =>
    have hlt : k + 1 ≤ n / bottomSz := Nat.lt_of_le_of_ne hkey.2 fun heq => hhi (heq ▸ hkey.1)
    have hmul := Nat.mul_le_mul_right bottomSz hlt
    rw [Nat.succ_mul] at hmul
    refine ⟨by omega,fun c hc hle => ?_⟩
    rw [← Nat.succ_mul]
    exact (Nat.div_lt_iff_lt_mul (by decide)).mp (Nat.lt_succ_of_le (hfirst k hk _ (hin c hc hle)))

/-- How the bottom indices are linked and what the two searches find through them. -/
structure NearestSearch (s : Heap) (B : Indexes) (ids : List Nat) : Prop where
  linked : Linked B.asc B.desc B.all ids
  last : B.allEnd = ids.getLast?
  keys_eq : ids.map B.key = s.bottomKeys
  ascending : (ids.map B.key).Pairwise (· < ·)
  inverse : ∀ p ∈ ids, ∀ q ∈ ids, B.asc p = some q ↔ B.desc q = some p
  next : ∀ n allowFree, LeastOf {c | Start s allowFree c ∧ n ≤ c} (nextBlock s B n allowFree)
  prev : ∀ n, GreatestOf {c | Start s true c ∧ c ≤ n} (prevBlock s B n)

/-- In every state reached, whatever calls of `get_index` have made its bottom indices, these are
linked in both directions in strictly ascending order, and the two searches find the nearest
block. -/
theorem heapRun_nearest (hdrs : Nat → Hdr) (fuel : Nat) (ops : List HeapOp)
    (hallowed : RunAllowed fuel ops (Heap.init hdrs)) (s : Heap)
    (hs : heapRun fuel ops (Heap.init hdrs) = some s) :
    (∃ calls, keysOf calls = s.bottomKeys) ∧
      ∀ calls, keysOf calls = s.bottomKeys → ∃ ids, NearestSearch s (indexesOf calls) ids := by
  obtain ⟨cells,L,hok⟩ := heapRun_ok ⟨_,heapOk_init hdrs⟩ hallowed hs
  have hspaced := spaced_of_heapOk hok
  have hkeyed := hok.accounts.keyed
  refine ⟨⟨_,keysOf_map_mul hkeyed.sorted⟩,fun calls hcalls => ?_⟩
  obtain ⟨ids,hrep⟩ := indexesOf_represents calls
  rw [hcalls] at hrep
  refine ⟨ids,hrep.linked,hrep.last,hrep.keys_eq,hrep.keys_eq.symm ▸ hkeyed.sorted,
    fun p hp q hq => hrep.linked.next_iff_prev hp hq,fun n allowFree => ?_,fun n => ?_⟩
  · rw [nextBlock_eq hrep hkeyed.sorted]
    exact nextBlock_least (hspaced.ahead allowFree n) hkeyed
  · rw [prevBlock_eq hrep hkeyed.sorted]
    exact prevBlock_greatest (hspaced.back (n + 1)) hkeyed

/-- A block across two bottom indices, of which the second was allocated first. -/
theorem heapRun_nearest_resizingRun : RunAllowed 400 resizingRun blankHeap ∧
    keysOf [1024, 1020] = resizedState.bottomKeys ∧
    prevBlock resizedState (indexesOf [1024, 1020]) 1024 = some 1020 ∧
    ∃ ids, NearestSearch resizedState (indexesOf [1024, 1020]) ids := by
  have hallowed : RunAllowed 400 resizingRun blankHeap := by decide +kernel
  have hkeys : keysOf [1024,1020] = resizedState.bottomKeys := by decide +kernel
  refine ⟨hallowed,hkeys,by decide +kernel,?_⟩
  exact (heapRun_nearest (fun _ => blankHdr) 400 resizingRun hallowed resizedState resizingRun_eq).2 [1024,1020] hkeys

end Nearest

end GcUtil.Block.NearestBlocks
