import Ignium.Mmu.PageTable

/-!
# The tree of tables

Where the tables of all roots lie. `Tables m place` says that `place` names the tables: a table
is at the place given by its root and the indices that lead to it, the last one first. An entry
of a root or of a level-1 table is unused, a kernel leaf, or points to the table at the place
below, and every table below a root is pointed to from its place. So no table has two places and
no place has two tables (`Tables.place_inj`), and writing one table changes the translation of one
root only.
-/

namespace Ignium.Mmu

open Mem
open Usage (InPage)

/-! ## Entries -/

/-- The flags of an entry are read back. -/
theorem pte_and {mask : Nat} (hmask : mask < 2 ^ ptePpnShift) (paddr flags : Nat) :
    pte paddr flags &&& mask = flags &&& mask := by
  rw [pte, Nat.and_or_distrib_right]
  have hlow : (ppn paddr <<< ptePpnShift) &&& mask = 0 := by
    apply Nat.eq_of_testBit_eq
    intro i
    rw [Nat.testBit_and, Nat.testBit_shiftLeft, Nat.zero_testBit]
    by_cases hi : ptePpnShift ≤ i
    · rw [Nat.testBit_lt_two_pow (hmask.trans_le (Nat.pow_le_pow_right (by decide) hi)),
        Bool.and_false]
    · simp [hi]
  rw [hlow, Nat.zero_or]

theorem valid_pte {paddr flags : Nat} : Valid (pte paddr flags) ↔ Valid flags := by
  rw [Valid, Valid, pte_and (by decide)]

theorem leaf_pte {paddr flags : Nat} : Leaf (pte paddr flags) ↔ Leaf flags := by
  rw [Leaf, Leaf, pte_and (by decide)]

theorem user_pte {paddr flags : Nat} : User (pte paddr flags) ↔ User flags := by
  rw [User, User, pte_and (by decide)]

/-- The page of an entry is read back. -/
theorem ptePaddr_pte {paddr flags : Nat} (hpage : paddr % 4096 = 0) (hpaddr : paddr < 2 ^ 56)
    (hflags : flags < 2 ^ ptePpnShift) : ptePaddr (pte paddr flags) = paddr := by
  have hmask : ptePpnMask = 2 ^ 44 - 1 := by decide
  have hppn : ppn paddr = paddr / 4096 := by
    rw [ppn, hmask, Nat.and_two_pow_sub_one_eq_mod, Nat.shiftRight_eq_div_pow,
      Nat.mod_eq_of_lt (by omega)]
  rw [ptePaddr, pte, Nat.shiftRight_or_distrib, Nat.shiftLeft_shiftRight,
    Nat.shiftRight_eq_div_pow flags, Nat.div_eq_of_lt hflags, Nat.or_zero, hppn, hmask,
    Nat.and_two_pow_sub_one_eq_mod, Nat.mod_eq_of_lt (by omega), Nat.shiftLeft_eq]
  omega

theorem not_valid_zero : ¬ Valid 0 := by decide

theorem not_user_zero : ¬ User 0 := by decide

theorem user_or_pteU (flags : Nat) : User (flags ||| pteU) := by
  unfold User
  rw [Nat.and_or_distrib_right]
  intro hzero
  exact absurd (Nat.or_eq_zero_iff.mp hzero).2 (by decide)

/-- More flags leave an entry in use. -/
theorem Valid.or {flags : Nat} (h : Valid flags) (more : Nat) : Valid (flags ||| more) := by
  unfold Valid at *
  rw [Nat.and_or_distrib_right]
  intro hzero
  exact h (Nat.or_eq_zero_iff.mp hzero).1

theorem l2Index_lt (vaddr : Nat) : l2Index vaddr < 512 :=
  Nat.lt_succ_of_le Nat.and_le_right

theorem l1Index_lt (vaddr : Nat) : l1Index vaddr < 512 :=
  Nat.lt_succ_of_le Nat.and_le_right

theorem l0Index_lt (vaddr : Nat) : l0Index vaddr < 512 :=
  Nat.lt_succ_of_le Nat.and_le_right

/-- An entry is a word of its table. -/
theorem inPage_entry {table idx : Nat} (hidx : idx < 512) : InPage table (table + 8 * idx) := by
  have hsize : pageSize = 4096 := rfl
  exact ⟨by omega, by omega⟩

/-! ## Places -/

/-- The place of a table: its root, and the indices that lead to it from there, the last one
first. -/
structure Place where
  root : Nat
  path : List Nat
  deriving DecidableEq

/-- The tables in memory are where `place` says. -/
structure Tables (m : Usage) (place : Nat → Option Place) : Prop where
  held : ∀ {table spot}, place table = some spot → m.HasPage table
  top : ∀ {table root}, place table = some ⟨root, []⟩ → root = table
  depth : ∀ {table spot}, place table = some spot → spot.path.length ≤ 2
  down : ∀ {table spot i}, place table = some spot → spot.path.length < 2 → i < 512 →
    Valid (pteRead m table i) →
      (Leaf (pteRead m table i) ∧ spot.path ≠ [] ∧ ¬ User (pteRead m table i)) ∨
      (¬ Leaf (pteRead m table i) ∧
        place (ptePaddr (pteRead m table i)) = some ⟨spot.root, i :: spot.path⟩)
  up : ∀ {table root i path}, place table = some ⟨root, i :: path⟩ →
    i < 512 ∧ ∃ parent, place parent = some ⟨root, path⟩ ∧ Valid (pteRead m parent i) ∧
      ¬ Leaf (pteRead m parent i) ∧ ptePaddr (pteRead m parent i) = table

namespace Tables

variable {m m' : Usage} {place : Nat → Option Place} {spot : Place} {table other root i : Nat}

/-- No place has two tables. -/
theorem place_inj (h : Tables m place) (htable : place table = some spot)
    (hother : place other = some spot) : table = other := by
  obtain ⟨root, path⟩ := spot
  induction path generalizing table other with
  | nil => rw [← h.top htable, ← h.top hother]
  | cons i path ih =>
    obtain ⟨-, parent, hparent, -, -, rfl⟩ := h.up htable
    obtain ⟨-, parent', hparent', -, -, rfl⟩ := h.up hother
    rw [ih hparent hparent']

/-- The root of a place is a table. -/
theorem root_place (h : Tables m place) (htable : place table = some spot) :
    place spot.root = some ⟨spot.root, []⟩ := by
  obtain ⟨root, path⟩ := spot
  induction path generalizing table with
  | nil =>
    have hroot := h.top htable
    subst hroot
    exact htable
  | cons i path ih =>
    obtain ⟨-, parent, hparent, -⟩ := h.up htable
    exact ih hparent

/-- Two memories agree on the tables. -/
def Agree (place : Nat → Option Place) (m m' : Usage) : Prop :=
  ∀ table i, (place table).isSome → i < 512 → pteRead m' table i = pteRead m table i

theorem Agree.read (h : Agree place m m') (htable : place table = some spot) (hi : i < 512) :
    pteRead m' table i = pteRead m table i :=
  h table i (by rw [htable]; rfl) hi

/-- The tables are where they were when their words are unchanged. -/
theorem congr (h : Tables m place) (hagree : Agree place m m')
    (hheld : ∀ table, (place table).isSome → m'.HasPage table) : Tables m' place where
  held htable := hheld _ (by rw [htable]; rfl)
  top := h.top
  depth := h.depth
  down htable hlen hi := by
    rw [hagree.read htable hi]
    exact h.down htable hlen hi
  up htable := by
    obtain ⟨hi, parent, hparent, hentry⟩ := h.up htable
    refine ⟨hi, parent, hparent, ?_⟩
    rw [hagree.read hparent hi]
    exact hentry

/-- The walk from a root meets tables only. -/
theorem mid_place (h : Tables m place) (hroot : place root = some ⟨root, []⟩) (hi : i < 512)
    (hvalid : Valid (pteRead m root i)) :
    ¬ Leaf (pteRead m root i) ∧ place (ptePaddr (pteRead m root i)) = some ⟨root, [i]⟩ := by
  rcases h.down hroot (by simp) hi hvalid with ⟨-, hne, -⟩ | hdown
  · exact absurd rfl hne
  · exact hdown

/-- Translation reads tables only. -/
theorem leafPte_congr (h : Tables m place) (hagree : Agree place m m')
    (hroot : place root = some ⟨root, []⟩) (vaddr : Nat) :
    leafPte m' root vaddr = leafPte m root vaddr := by
  unfold leafPte
  dsimp only
  rw [hagree.read hroot (l2Index_lt vaddr)]
  by_cases hvalid : Valid (pteRead m root (l2Index vaddr))
  · obtain ⟨hleaf, hmid⟩ := h.mid_place hroot (l2Index_lt vaddr) hvalid
    rw [if_neg (not_not.mpr hvalid), if_neg (not_not.mpr hvalid), if_neg hleaf, if_neg hleaf,
      hagree.read hmid (l1Index_lt vaddr)]
    by_cases hvalid' : Valid (pteRead m (ptePaddr (pteRead m root (l2Index vaddr))) (l1Index vaddr))
    · rcases h.down hmid (by simp) (l1Index_lt vaddr) hvalid' with ⟨hleaf', -⟩ | ⟨hleaf', hlow⟩
      · simp only [if_pos hleaf']
      · rw [hagree.read hlow (l0Index_lt vaddr)]
    · simp only [if_pos hvalid']
  · simp only [if_pos hvalid]

end Tables

end Ignium.Mmu
