import Mathlib.Algebra.BigOperators.Ring.Finset
import Mathlib.Algebra.Ring.Nat
import Mathlib.Data.Nat.Bitwise
import Mathlib.Order.Interval.Finset.Nat
import Mathlib.Tactic.Ring

/-!
# Aligned power-of-two blocks

A block is a run of `2 ^ order` consecutive indices. `cover blocks p` counts the blocks of a
list that contain the index `p`, so "these blocks are disjoint and tile `P`" reads
`cover blocks p = 1` on `P` and `0` elsewhere, and splitting or merging a block is an equation
between counts. Two aligned blocks are nested or disjoint; `Block.idx_eq_of_mem` and
`Block.mem_of_mem` are the two halves of that fact in the form a buddy allocator needs.
-/

namespace Blocks

/-- A run of `2 ^ order` indices from `idx`. -/
structure Block where
  idx : Nat
  order : Nat
  deriving DecidableEq, Repr

namespace Block

/-- The number of indices in the block. -/
def size (b : Block) : Nat := 2 ^ b.order

/-- The first index after the block. -/
def stop (b : Block) : Nat := b.idx + 2 ^ b.order

instance : Membership Nat Block := ⟨fun b p => b.idx ≤ p ∧ p < b.stop⟩

theorem mem_def {b : Block} {p : Nat} : p ∈ b ↔ b.idx ≤ p ∧ p < b.stop := Iff.rfl

instance (b : Block) (p : Nat) : Decidable (p ∈ b) :=
  inferInstanceAs (Decidable (b.idx ≤ p ∧ p < b.stop))

/-- The block starts at a multiple of its own size. -/
def Aligned (b : Block) : Prop := 2 ^ b.order ∣ b.idx

instance (b : Block) : Decidable b.Aligned := inferInstanceAs (Decidable (_ ∣ _))

variable {b c : Block} {i k p q : Nat}

theorem size_pos (b : Block) : 0 < b.size := Nat.two_pow_pos _

/-- Every block contains its first index. -/
theorem idx_mem (b : Block) : b.idx ∈ b :=
  ⟨le_refl _, Nat.lt_add_of_pos_right (Nat.two_pow_pos _)⟩

/-- A block of order 0 is a single page. -/
theorem mem_single {i p : Nat} : p ∈ (⟨i, 0⟩ : Block) ↔ p = i := by
  simp only [mem_def, stop]
  omega

/-- An aligned block that contains a multiple of a size no smaller than its own starts
there. -/
theorem idx_eq_of_mem (hb : b.Aligned) (hmem : q ∈ b) (hq : 2 ^ k ∣ q) (hle : b.order ≤ k) :
    b.idx = q := by
  obtain ⟨hlo, hhi⟩ := hmem
  have hdvd : 2 ^ b.order ∣ q - b.idx :=
    Nat.dvd_sub ((pow_dvd_pow 2 hle).trans hq) hb
  have hlt : q - b.idx < 2 ^ b.order := by
    simp only [stop] at hhi
    omega
  have := Nat.eq_zero_of_dvd_of_lt hdvd hlt
  omega

/-- An aligned block that contains an index of a smaller aligned block contains the whole
smaller block. -/
theorem mem_of_mem (hb : b.Aligned) (hc : c.Aligned) (hle : c.order ≤ b.order)
    (hq : q ∈ c) (hqb : q ∈ b) (hp : p ∈ c) : p ∈ b := by
  obtain ⟨m, hm⟩ := hc
  obtain ⟨n, hn⟩ : 2 ^ c.order ∣ b.idx := (pow_dvd_pow 2 hle).trans hb
  obtain ⟨d, hd⟩ : 2 ^ c.order ∣ 2 ^ b.order := pow_dvd_pow 2 hle
  have hpos : 0 < 2 ^ c.order := Nat.two_pow_pos _
  simp only [mem_def, stop] at hq hqb hp ⊢
  rw [hm] at hq hp
  rw [hn, hd] at hqb ⊢
  -- All bounds are multiples of the smaller size, so the comparison is one of quotients.
  have hlow : n ≤ m := by
    have : 2 ^ c.order * n < 2 ^ c.order * (m + 1) := by rw [mul_add, mul_one]; omega
    have := Nat.lt_of_mul_lt_mul_left this
    omega
  have hhigh : m + 1 ≤ n + d := by
    have : 2 ^ c.order * m < 2 ^ c.order * (n + d) := by rw [mul_add]; omega
    have := Nat.lt_of_mul_lt_mul_left this
    omega
  have h1 := Nat.mul_le_mul_left (2 ^ c.order) hlow
  have h2 := Nat.mul_le_mul_left (2 ^ c.order) hhigh
  rw [mul_add, mul_one, mul_add] at h2
  omega

/-- An aligned block that meets a smaller aligned block contains it. -/
theorem bounds_of_mem (hb : b.Aligned) (hc : c.Aligned) (hle : c.order ≤ b.order) (hq : q ∈ c)
    (hqb : q ∈ b) : b.idx ≤ c.idx ∧ c.stop ≤ b.stop := by
  have hsize : 0 < 2 ^ c.order := Nat.two_pow_pos _
  have hlast : c.stop - 1 ∈ c := by
    simp only [mem_def, stop]
    omega
  have hlow := mem_of_mem hb hc hle hq hqb (idx_mem c)
  have hhigh := mem_of_mem hb hc hle hq hqb hlast
  simp only [mem_def, stop] at hlow hhigh ⊢
  omega

/-- Two aligned blocks of one order that meet are the same. -/
theorem eq_of_mem (hb : b.Aligned) (hc : c.Aligned) (horder : b.order = c.order) (hq : q ∈ b)
    (hqc : q ∈ c) : b = c := by
  have hle := bounds_of_mem hb hc horder.ge hqc hq
  have hge := bounds_of_mem hc hb horder.le hq hqc
  have hidx : b.idx = c.idx := by omega
  cases b
  cases c
  simp_all

/-- Splitting a block of order `k + 1` into two blocks of order `k`. -/
theorem mem_succ : p ∈ (⟨i, k + 1⟩ : Block) ↔ p ∈ (⟨i, k⟩ : Block) ∨ p ∈ (⟨i + 2 ^ k, k⟩ : Block) := by
  simp only [mem_def, stop, pow_succ]
  omega

/-- The two halves of a block have no common index. -/
theorem not_mem_both : ¬ (p ∈ (⟨i, k⟩ : Block) ∧ p ∈ (⟨i + 2 ^ k, k⟩ : Block)) := by
  simp only [mem_def, stop]
  omega

theorem Aligned.lower (h : (⟨i, k + 1⟩ : Block).Aligned) : (⟨i, k⟩ : Block).Aligned :=
  (pow_dvd_pow 2 (Nat.le_succ k)).trans h

theorem Aligned.upper (h : (⟨i, k + 1⟩ : Block).Aligned) : (⟨i + 2 ^ k, k⟩ : Block).Aligned :=
  (Nat.dvd_add_right h.lower).mpr (dvd_refl _)

end Block

/-! ## Buddies -/

section Buddy

variable {i k : Nat}

/-- The start of the block that shares a parent with the block of order `k` at `i`. -/
def buddy (i k : Nat) : Nat := i ^^^ 2 ^ k

theorem buddy_ne (i k : Nat) : buddy i k ≠ i := by
  intro h
  have hzero : i ^^^ 2 ^ k = i ^^^ 0 := by rw [Nat.xor_zero]; exact h
  exact absurd (Nat.xor_right_injective hzero) (Nat.two_pow_pos k).ne'

@[simp] theorem buddy_buddy (i k : Nat) : buddy (buddy i k) k = i := by
  rw [buddy, buddy, Nat.xor_assoc, Nat.xor_self, Nat.xor_zero]

theorem buddy_mul (m : Nat) : buddy (2 ^ k * m) k = 2 ^ k * (m ^^^ 1) := by
  have h := Nat.shiftLeft_xor_distrib (a := m) (b := 1) (i := k)
  simp only [Nat.shiftLeft_eq, one_mul] at h
  rw [buddy, mul_comm, ← h, mul_comm]

/-- The buddy of the lower half of a block is the upper half. -/
theorem buddy_lower (h : 2 ^ (k + 1) ∣ i) : buddy i k = i + 2 ^ k := by
  obtain ⟨m, rfl⟩ := h
  have heven : 2 ^ (k + 1) * m = 2 ^ k * (2 * m) := by ring
  rw [heven, buddy_mul, Nat.xor_one_of_even (even_two_mul m)]
  ring

theorem buddy_upper (h : 2 ^ (k + 1) ∣ i) : buddy (i + 2 ^ k) k = i := by
  rw [← buddy_lower h, buddy_buddy]

/-- The buddy of an aligned block is the upper or the lower neighbour of its own size, and the
one of the two that starts first is aligned to the doubled size. -/
theorem buddy_cases (h : 2 ^ k ∣ i) :
    (buddy i k = i + 2 ^ k ∧ 2 ^ (k + 1) ∣ i) ∨
      (buddy i k + 2 ^ k = i ∧ 2 ^ (k + 1) ∣ buddy i k) := by
  obtain ⟨m, rfl⟩ := h
  rw [buddy_mul]
  rcases Nat.even_or_odd m with heven | hodd
  · left
    rw [Nat.xor_one_of_even heven]
    obtain ⟨n, rfl⟩ := heven
    exact ⟨by ring, n, by ring⟩
  · right
    rw [Nat.xor_one_of_odd hodd]
    obtain ⟨n, rfl⟩ := hodd
    exact ⟨by simp only [Nat.add_sub_cancel]; ring, n, by simp only [Nat.add_sub_cancel]; ring⟩

end Buddy

/-! ## Counting the blocks over an index -/

variable {blocks other : List Block} {b c : Block} {p : Nat}

/-- The number of blocks of the list that contain `p`. -/
def cover (blocks : List Block) (p : Nat) : Nat := blocks.countP fun b => decide (p ∈ b)

@[simp] theorem cover_nil : cover [] p = 0 := rfl

@[simp] theorem cover_cons : cover (b :: blocks) p = cover blocks p + if p ∈ b then 1 else 0 := by
  simp [cover, List.countP_cons]

@[simp] theorem cover_append : cover (blocks ++ other) p = cover blocks p + cover other p := by
  simp [cover]

theorem cover_perm (h : blocks.Perm other) : cover blocks p = cover other p :=
  h.countP_eq _

theorem cover_pos_iff : 0 < cover blocks p ↔ ∃ b ∈ blocks, p ∈ b := by
  simp [cover, List.countP_pos_iff]

theorem cover_eq_zero_iff : cover blocks p = 0 ↔ ∀ b ∈ blocks, p ∉ b := by
  simp [cover, List.countP_eq_zero]

/-- Where at most one block lies over an index, two blocks over it are the same. -/
theorem eq_of_cover_le_one (h : cover blocks p ≤ 1) (hb : b ∈ blocks) (hc : c ∈ blocks)
    (hpb : p ∈ b) (hpc : p ∈ c) : b = c := by
  obtain ⟨front, back, rfl⟩ := List.append_of_mem hb
  simp only [cover_append, cover_cons, if_pos hpb] at h
  have hfront : cover front p = 0 := by omega
  have hback : cover back p = 0 := by omega
  rw [cover_eq_zero_iff] at hfront hback
  rcases List.mem_append.mp hc with hc | hc
  · exact absurd hpc (hfront c hc)
  · rcases List.mem_cons.mp hc with rfl | hc
    · rfl
    · exact absurd hpc (hback c hc)

/-- A block counts once over each of its indices exactly as its two halves together do. -/
theorem cover_halves (i k : Nat) :
    cover [⟨i, k⟩, ⟨i + 2 ^ k, k⟩] p = cover [⟨i, k + 1⟩] p := by
  have hsplit := Block.mem_succ (p := p) (i := i) (k := k)
  have hdisjoint := Block.not_mem_both (p := p) (i := i) (k := k)
  simp only [cover_cons, cover_nil]
  split_ifs <;> tauto

/-- The sizes of the blocks of a list, added up. -/
def total (blocks : List Block) : Nat := (blocks.map Block.size).sum

@[simp] theorem total_nil : total [] = 0 := rfl

@[simp] theorem total_cons : total (b :: blocks) = b.size + total blocks := by simp [total]

@[simp] theorem total_append : total (blocks ++ other) = total blocks + total other := by
  simp [total]

/-- Summing the cover over a range that contains every block gives the total size. -/
theorem sum_cover {n : Nat} (h : ∀ b ∈ blocks, b.stop ≤ n) :
    ∑ p ∈ Finset.range n, cover blocks p = total blocks := by
  induction blocks with
  | nil => simp
  | cons b blocks ih =>
    have hb : b.stop ≤ n := h b (by simp)
    have hfilter : (Finset.range n).filter (fun p => p ∈ b) = Finset.Ico b.idx b.stop := by
      ext p
      simp only [Finset.mem_filter, Finset.mem_range, Finset.mem_Ico, Block.mem_def]
      omega
    simp only [cover_cons, Finset.sum_add_distrib, total_cons]
    rw [ih fun c hc => h c (by simp [hc]), Finset.sum_boole, hfilter, Nat.card_Ico]
    simp only [Block.stop, Block.size, Nat.add_sub_cancel_left, Nat.cast_id]
    omega

/-! ## Tilings -/

/-- The blocks are aligned, of order at most `top`, and tile the indices below `n`. -/
structure Tiling (top n : Nat) (blocks : List Block) : Prop where
  cover_eq : ∀ p, cover blocks p = if p < n then 1 else 0
  aligned : ∀ b ∈ blocks, b.Aligned
  order_le : ∀ b ∈ blocks, b.order ≤ top

namespace Tiling

variable {top n i k q : Nat} {rest : List Block}

section

variable (h : Tiling top n blocks)
include h

theorem perm (hperm : blocks.Perm other) : Tiling top n other where
  cover_eq p := by rw [← cover_perm hperm, h.cover_eq p]
  aligned b hb := h.aligned b (hperm.mem_iff.mpr hb)
  order_le b hb := h.order_le b (hperm.mem_iff.mpr hb)

theorem cover_le_one (p : Nat) : cover blocks p ≤ 1 := by
  rw [h.cover_eq p]
  split <;> omega

/-- Every index below `n` lies in a tile. -/
theorem exists_mem (hp : p < n) : ∃ b ∈ blocks, p ∈ b := by
  rw [← cover_pos_iff, h.cover_eq p, if_pos hp]
  exact Nat.one_pos

/-- The tiles lie below `n`. -/
theorem lt_of_mem (hb : b ∈ blocks) (hp : p ∈ b) : p < n := by
  by_contra hge
  have hzero := h.cover_eq p
  rw [if_neg hge, cover_eq_zero_iff] at hzero
  exact hzero b hb hp

theorem stop_le (hb : b ∈ blocks) : b.stop ≤ n := by
  have hpos := b.size_pos
  have hlast : b.stop - 1 ∈ b := by
    simp only [Block.mem_def, Block.stop, Block.size] at *
    omega
  have := h.lt_of_mem hb hlast
  omega

/-- Two tiles over one index are the same tile. -/
theorem eq_of_mem (hb : b ∈ blocks) (hc : c ∈ blocks) (hpb : p ∈ b) (hpc : p ∈ c) : b = c :=
  eq_of_cover_le_one (h.cover_le_one p) hb hc hpb hpc

end

/-- An index of the first tile lies in no other tile. -/
theorem not_mem_of_mem_head (h : Tiling top n (b :: rest)) (hp : p ∈ b) (hc : c ∈ rest) :
    p ∉ c := by
  have hle := h.cover_le_one p
  rw [cover_cons, if_pos hp] at hle
  have hzero : cover rest p = 0 := by omega
  exact cover_eq_zero_iff.mp hzero c hc

/-- A tile may be replaced by its two halves. -/
theorem split (h : Tiling top n (⟨i, k + 1⟩ :: rest)) :
    Tiling top n (⟨i, k⟩ :: ⟨i + 2 ^ k, k⟩ :: rest) where
  cover_eq p := by
    have htiles := h.cover_eq p
    have hhalves := cover_halves (p := p) i k
    simp only [cover_cons, cover_nil] at htiles hhalves ⊢
    omega
  aligned b hb := by
    have hparent := h.aligned ⟨i, k + 1⟩ (by simp)
    simp only [List.mem_cons] at hb
    rcases hb with rfl | rfl | hb
    · exact hparent.lower
    · exact hparent.upper
    · exact h.aligned b (by simp [hb])
  order_le b hb := by
    have hparent : k + 1 ≤ top := h.order_le ⟨i, k + 1⟩ (by simp)
    simp only [List.mem_cons] at hb
    rcases hb with rfl | rfl | hb
    · exact Nat.le_of_succ_le hparent
    · exact Nat.le_of_succ_le hparent
    · exact h.order_le b (by simp [hb])

/-- The two halves of an aligned block may be replaced by the block. -/
theorem merge (h : Tiling top n (⟨i, k⟩ :: ⟨i + 2 ^ k, k⟩ :: rest)) (halign : 2 ^ (k + 1) ∣ i)
    (hk : k < top) : Tiling top n (⟨i, k + 1⟩ :: rest) where
  cover_eq p := by
    have htiles := h.cover_eq p
    have hhalves := cover_halves (p := p) i k
    simp only [cover_cons, cover_nil] at htiles hhalves ⊢
    omega
  aligned b hb := by
    simp only [List.mem_cons] at hb
    rcases hb with rfl | hb
    · exact halign
    · exact h.aligned b (by simp [hb])
  order_le b hb := by
    simp only [List.mem_cons] at hb
    rcases hb with rfl | hb
    · exact hk
    · exact h.order_le b (by simp [hb])

/-- Two buddies of the tiling may be replaced by the block they make up. -/
theorem mergeBuddy (h : Tiling top n (⟨i, k⟩ :: ⟨buddy i k, k⟩ :: rest)) (hk : k < top) :
    Tiling top n (⟨min i (buddy i k), k + 1⟩ :: rest) := by
  have halign : 2 ^ k ∣ i := h.aligned ⟨i, k⟩ (by simp)
  rcases buddy_cases halign with ⟨hbuddy, hup⟩ | ⟨hbuddy, hup⟩
  · rw [hbuddy] at h ⊢
    rw [Nat.min_eq_left (Nat.le_add_right _ _)]
    exact h.merge hup hk
  · have hswap := h.perm (List.Perm.swap _ _ _)
    rw [Nat.min_eq_right (by omega)]
    refine Tiling.merge ?_ hup hk
    rw [hbuddy]
    exact hswap

/-- The index where the buddy of a tile starts is itself the start of a tile, of no larger
order. A larger tile over it would also contain the tile it is the buddy of. -/
theorem exists_buddy_tile (h : Tiling top n blocks) (hb : b ∈ blocks)
    (hq : buddy b.idx b.order < n) :
    ∃ c ∈ blocks, c.idx = buddy b.idx b.order ∧ c.order ≤ b.order := by
  obtain ⟨c, hc, hmem⟩ := h.exists_mem hq
  have hbuddy : 2 ^ b.order ∣ buddy b.idx b.order := by
    rcases buddy_cases (h.aligned b hb) with ⟨heq, hdvd⟩ | ⟨-, hdvd⟩
    · rw [heq]
      exact (Nat.dvd_add_right (h.aligned b hb)).mpr (dvd_refl _)
    · exact (pow_dvd_pow 2 (Nat.le_succ _)).trans hdvd
  rcases Nat.lt_or_ge b.order c.order with hlt | hge
  · exfalso
    -- Both buddies lie in their parent, and a tile larger than one of them contains the parent.
    obtain ⟨parent, hparent, hin, hqin⟩ : ∃ parent : Block, parent.Aligned ∧
        parent.order = b.order + 1 ∧ b.idx ∈ parent ∧ buddy b.idx b.order ∈ parent := by
      rcases buddy_cases (h.aligned b hb) with ⟨heq, hdvd⟩ | ⟨heq, hdvd⟩
      · refine ⟨⟨b.idx, b.order + 1⟩, hdvd, rfl, Block.idx_mem _, ?_⟩
        have := Nat.two_pow_pos b.order
        simp only [Block.mem_def, Block.stop, pow_succ]
        omega
      · refine ⟨⟨buddy b.idx b.order, b.order + 1⟩, hdvd, rfl, ?_, Block.idx_mem _⟩
        have := Nat.two_pow_pos b.order
        simp only [Block.mem_def, Block.stop, pow_succ]
        omega
    have hidx : b.idx ∈ c :=
      Block.mem_of_mem (h.aligned c hc) hparent (by omega) hqin.2 hmem hqin.1
    obtain rfl := h.eq_of_mem hb hc (Block.idx_mem b) hidx
    exact lt_irrefl _ hlt
  · exact ⟨c, hc, Block.idx_eq_of_mem (h.aligned c hc) hmem hbuddy hge, hge⟩

end Tiling

/-! ## Merged blocks -/

/-- No block of an order below `top` has its buddy on the list. -/
def Separated (top : Nat) (blocks : List Block) : Prop :=
  ∀ b ∈ blocks, b.order < top → (⟨buddy b.idx b.order, b.order⟩ : Block) ∉ blocks

section Separated

variable {top n : Nat}

theorem Separated.of_subset (h : Separated top blocks) (hsub : ∀ b ∈ other, b ∈ blocks) :
    Separated top other := fun b hb hlt hbuddy => h b (hsub b hb) hlt (hsub _ hbuddy)

/-- A block may be added whose buddy is not there. -/
theorem Separated.cons (h : Separated top blocks)
    (hb : b.order < top → (⟨buddy b.idx b.order, b.order⟩ : Block) ∉ blocks) :
    Separated top (b :: blocks) := by
  intro c hc hlt hmem
  rcases List.mem_cons.mp hc with rfl | hc'
  · rcases List.mem_cons.mp hmem with heq | hmem
    · exact buddy_ne c.idx c.order (congrArg Block.idx heq)
    · exact hb hlt hmem
  · rcases List.mem_cons.mp hmem with heq | hmem
    · -- The new block is the buddy of `c`, so `c` is the buddy of the new block.
      subst heq
      rw [buddy_buddy] at hb
      exact hb hlt hc'
    · exact h c hc' hlt hmem

/-- In a merged list of aligned blocks, an aligned run of indices that are all covered lies in
one block. The induction is on the size of the run: if its halves lay in two blocks, these would
be the halves themselves, and they are buddies. -/
theorem Separated.exists_block {i k : Nat} (h : Separated top blocks)
    (halign : ∀ b ∈ blocks, b.Aligned) (hrun : 2 ^ k ∣ i) (hk : k ≤ top)
    (hall : ∀ p ∈ (⟨i, k⟩ : Block), 0 < cover blocks p) :
    ∃ b ∈ blocks, k ≤ b.order ∧ i ∈ b := by
  induction k generalizing i with
  | zero =>
    obtain ⟨b, hb, hi⟩ := cover_pos_iff.mp (hall i (Block.idx_mem _))
    exact ⟨b, hb, Nat.zero_le _, hi⟩
  | succ k ih =>
    have hlow : 2 ^ k ∣ i := Block.Aligned.lower hrun
    have hup : 2 ^ k ∣ i + 2 ^ k := Block.Aligned.upper hrun
    obtain ⟨b, hb, hbk, hib⟩ := ih hlow (by omega) fun p hp =>
      hall p (Block.mem_succ.mpr (.inl hp))
    obtain ⟨c, hc, hck, hic⟩ := ih hup (by omega) fun p hp =>
      hall p (Block.mem_succ.mpr (.inr hp))
    have hupper : i + 2 ^ k ∈ (⟨i, k + 1⟩ : Block) :=
      Block.mem_succ.mpr (.inr (Block.idx_mem _))
    rcases Nat.eq_or_lt_of_le hbk with heq | hlt
    · have hbi : b.idx = i := Block.idx_eq_of_mem (halign b hb) hib hlow heq.ge
      rcases Nat.eq_or_lt_of_le hck with heq' | hlt'
      · have hci : c.idx = i + 2 ^ k := Block.idx_eq_of_mem (halign c hc) hic hup heq'.ge
        have hbuddy : c = ⟨buddy b.idx b.order, b.order⟩ := by
          rw [hbi, ← heq, buddy_lower hrun, ← hci, heq']
        exact absurd (hbuddy ▸ hc) (h b hb (by omega))
      · have hic' : i ∈ c := Block.mem_of_mem (c := ⟨i, k + 1⟩) (halign c hc) hrun hlt' hupper hic
          (Block.idx_mem _)
        exact ⟨c, hc, hlt', hic'⟩
    · exact ⟨b, hb, hlt, hib⟩

/-- There is one merged tiling of an interval. -/
theorem Separated.mem_iff (h : Tiling top n blocks) (h' : Tiling top n other)
    (hsep : Separated top blocks) (hsep' : Separated top other) : b ∈ blocks ↔ b ∈ other := by
  -- A tile lies in a tile of the other tiling, which lies in a tile of the first again.
  have hsub : ∀ {first second : List Block}, Tiling top n first → Tiling top n second →
      Separated top second → ∀ b ∈ first, ∃ c ∈ second, b.order ≤ c.order ∧ b.idx ∈ c := by
    intro first second hfirst hsecond hmerged b hb
    refine hmerged.exists_block hsecond.aligned (hfirst.aligned b hb)
      (hfirst.order_le b hb) fun p hp => ?_
    rw [hsecond.cover_eq, if_pos (hfirst.lt_of_mem hb hp)]
    exact Nat.one_pos
  have hall : ∀ {first second : List Block}, Tiling top n first → Tiling top n second →
      Separated top first → Separated top second → ∀ b ∈ first, b ∈ second := by
    intro first second hfirst hsecond hmerged hmerged' b hb
    obtain ⟨c, hc, hle, hbc⟩ := hsub hfirst hsecond hmerged' b hb
    obtain ⟨d, hd, hle', hcd⟩ := hsub hsecond hfirst hmerged c hc
    have hbd : b.idx ∈ d :=
      Block.mem_of_mem (hfirst.aligned d hd) (hsecond.aligned c hc) hle' (Block.idx_mem c) hcd hbc
    obtain rfl := hfirst.eq_of_mem hb hd (Block.idx_mem b) hbd
    have horder : b.order = c.order := Nat.le_antisymm hle hle'
    exact Block.eq_of_mem (hfirst.aligned b hb) (hsecond.aligned c hc) horder (Block.idx_mem b) hbc ▸ hc
  exact ⟨hall h h' hsep hsep' b, hall h' h hsep' hsep b⟩

end Separated

end Blocks
