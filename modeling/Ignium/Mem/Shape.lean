import Ignium.Lib.Intrusive
import Ignium.Mem.Buddy
import Mathlib.Data.List.Perm.Basic

/-!
# What the free lists look like

`Shape a free rest` says that the free lists of `a` are threaded through memory as `free`, one
list for each order, and that their blocks tile the managed pages together with the blocks of
`rest`, which are off the lists: allocated, carved out, or in the hands of a running operation.
Each primitive of the allocator moves one block between the two sides (`Shape.push`,
`Shape.pop`, `Shape.unlink`), and splitting or merging a block of `rest` changes no memory
(`Shape.split`, `Shape.merge`).
-/

namespace Ignium.Mem

open Blocks Intrusive Function
open BuddyAllocator

/-! ## Blocks on the free lists -/

/-- The blocks on the lists of all orders. -/
def freeBlocks (free : Nat → List Nat) : List Block :=
  (List.range (maxOrder + 1)).flatMap fun order => (free order).map fun idx => ⟨idx, order⟩

theorem mem_freeBlocks {free : Nat → List Nat} {b : Block} :
    b ∈ freeBlocks free ↔ b.order ≤ maxOrder ∧ b.idx ∈ free b.order := by
  simp only [freeBlocks, List.mem_flatMap, List.mem_range, List.mem_map]
  constructor
  · rintro ⟨order, horder, idx, hidx, rfl⟩
    exact ⟨Nat.lt_succ_iff.mp horder, hidx⟩
  · rintro ⟨horder, hidx⟩
    exact ⟨b.order, Nat.lt_succ_iff.mpr horder, b.idx, hidx, rfl⟩

/-- Taking one entry off one list takes one block away. -/
theorem freeBlocks_perm {free : Nat → List Nat} {order idx : Nat} {rest : List Nat}
    (horder : order ≤ maxOrder) (h : (free order).Perm (idx :: rest)) :
    (freeBlocks free).Perm (⟨idx, order⟩ :: freeBlocks (update free order rest)) := by
  have hmem : order ∈ List.range (maxOrder + 1) := List.mem_range.mpr (Nat.lt_succ_iff.mpr horder)
  have hrange := List.perm_cons_erase hmem
  have hsame : ∀ j ∈ (List.range (maxOrder + 1)).erase order,
      ((update free order rest j).map fun idx => (⟨idx, j⟩ : Block)) =
        (free j).map fun idx => ⟨idx, j⟩ := by
    intro j hj
    have hne : j ≠ order := (List.nodup_range.mem_erase_iff.mp hj).1
    rw [update_of_ne hne]
  have hupdate := hrange.flatMap_right
    fun j => (update free order rest j).map fun idx => (⟨idx, j⟩ : Block)
  have hfree := hrange.flatMap_right fun j => (free j).map fun idx => (⟨idx, j⟩ : Block)
  rw [List.flatMap_cons] at hupdate hfree
  rw [update_self, List.flatMap_congr hsame] at hupdate
  exact hfree.trans (((h.map _).append_right _).trans (hupdate.symm.cons _))

/-- The converse of `freeBlocks_perm` for a block put in front of its list. -/
theorem freeBlocks_cons_perm {free : Nat → List Nat} {order idx : Nat} (horder : order ≤ maxOrder) :
    (freeBlocks (update free order (idx :: free order))).Perm
      (⟨idx, order⟩ :: freeBlocks free) := by
  have hlist : (update free order (idx :: free order) order).Perm (idx :: free order) := by
    rw [update_self]
  simpa using freeBlocks_perm horder hlist

/-- The lists stay merged when a block is pushed whose buddy is not on them. -/
theorem separated_push {free : Nat → List Nat} {order idx : Nat} (horder : order ≤ maxOrder)
    (h : Separated maxOrder (freeBlocks free))
    (hbuddy : order < maxOrder → buddy idx order ∉ free order) :
    Separated maxOrder (freeBlocks (update free order (idx :: free order))) := by
  have hcons : Separated maxOrder (⟨idx, order⟩ :: freeBlocks free) :=
    h.cons fun hlt hmem => hbuddy hlt (mem_freeBlocks.mp hmem).2
  exact hcons.of_subset fun b hb => (freeBlocks_cons_perm horder).mem_iff.mp hb

theorem freeBlocks_empty : freeBlocks (fun _ => []) = [] := by
  simp [freeBlocks]

/-! ## The links in memory -/

namespace BuddyAllocator

variable {a : BuddyAllocator} {idx order value i j : Nat} {used : Bool}

theorem blockAddr_injective (h : a.blockAddr i = a.blockAddr j) : i = j := by
  simp only [blockAddr, pageSize] at h
  omega

@[simp] theorem blockAddr_setNext : (a.setNext idx value).blockAddr = a.blockAddr := rfl

@[simp] theorem ram_setNext :
    (a.setNext idx value).ram = update a.ram (a.blockAddr idx) value := rfl

@[simp] theorem next_setNext : (a.setNext idx value).next = update a.next idx value := by
  funext i
  rw [next, blockAddr_setNext, ram_setNext]
  by_cases h : i = idx
  · rw [h, update_self, update_self]
  · have hne : a.blockAddr i ≠ a.blockAddr idx := fun heq => h (blockAddr_injective heq)
    rw [update_of_ne hne, update_of_ne h, next]

@[simp] theorem next_setHead : (a.setHead order value).next = a.next := rfl

@[simp] theorem freeLists_setHead :
    (a.setHead order value).freeLists = update a.freeLists order value := rfl

@[simp] theorem next_setMeta : (a.setMeta idx order used).next = a.next := rfl

@[simp] theorem pageMeta_setMeta :
    (a.setMeta idx order used).pageMeta = update a.pageMeta idx ⟨order, used⟩ := rfl

@[simp] theorem next_push :
    (a.push idx order).next = update a.next idx (a.freeLists order) := by
  simp [push]

@[simp] theorem freeLists_push :
    (a.push idx order).freeLists = update a.freeLists order idx := rfl

@[simp] theorem pageMeta_push :
    (a.push idx order).pageMeta = update a.pageMeta idx ⟨order, false⟩ := rfl

@[simp] theorem ram_push :
    (a.push idx order).ram = update a.ram (a.blockAddr idx) (a.freeLists order) := rfl

/-- The operations never move the region. -/
def SameRegion (a a' : BuddyAllocator) : Prop :=
  a'.base = a.base ∧ a'.realCount = a.realCount ∧ a'.pageCount = a.pageCount

theorem SameRegion.refl (a : BuddyAllocator) : SameRegion a a := ⟨rfl, rfl, rfl⟩

theorem SameRegion.trans {a b c : BuddyAllocator} (h : SameRegion a b) (h' : SameRegion b c) :
    SameRegion a c :=
  ⟨h'.1.trans h.1, h'.2.1.trans h.2.1, h'.2.2.trans h.2.2⟩

theorem sameRegion_push : SameRegion a (a.push idx order) := ⟨rfl, rfl, rfl⟩

theorem SameRegion.blockAddr_eq {a' : BuddyAllocator} (h : SameRegion a a') :
    a'.blockAddr idx = a.blockAddr idx := by
  simp only [blockAddr, h.1]

/-- `Frame a a' rest` says that going from `a` to `a'` left the region and the pages of `rest`
alone: only first words of other pages were written, and a page record that changed belongs to
another page and is now unused. -/
structure Frame (a a' : BuddyAllocator) (rest : List Block) : Prop where
  region : SameRegion a a'
  ram : ∀ addr, (∀ p < a.realCount, cover rest p = 0 → addr ≠ a.blockAddr p) →
    a'.ram addr = a.ram addr
  pageMeta : ∀ p, a'.pageMeta p = a.pageMeta p ∨
    cover rest p = 0 ∧ (a'.pageMeta p).used = false

variable {rest : List Block}

theorem Frame.refl (a : BuddyAllocator) (rest : List Block) : Frame a a rest :=
  ⟨SameRegion.refl a, fun _ _ => rfl, fun _ => .inl rfl⟩

theorem Frame.trans {b c : BuddyAllocator} (h : Frame a b rest) (h' : Frame b c rest) :
    Frame a c rest := by
  refine ⟨h.region.trans h'.region, fun addr haddr => ?_, fun p => ?_⟩
  · rw [h'.ram addr fun p hp hcover => ?_, h.ram addr haddr]
    rw [h.region.blockAddr_eq]
    exact haddr p (h.region.2.1 ▸ hp) hcover
  · rcases h'.pageMeta p with hsame | hchange
    · rw [hsame]
      exact h.pageMeta p
    · exact .inr hchange

/-- Leaving more pages alone is the stronger statement. -/
theorem Frame.mono {a' : BuddyAllocator} {rest' : List Block} (h : Frame a a' rest)
    (hle : ∀ p, cover rest p = 0 → cover rest' p = 0) : Frame a a' rest' := by
  refine ⟨h.region, fun addr haddr => h.ram addr fun p hp hcover => haddr p hp (hle p hcover),
    fun p => ?_⟩
  rcases h.pageMeta p with hsame | ⟨hzero, hused⟩
  · exact .inl hsame
  · exact .inr ⟨hle p hzero, hused⟩

/-- The records of the pages of `rest` are untouched. -/
theorem Frame.pageMeta_eq {a' : BuddyAllocator} (h : Frame a a' rest) (hp : 0 < cover rest idx) :
    a'.pageMeta idx = a.pageMeta idx := by
  rcases h.pageMeta idx with hsame | ⟨hzero, -⟩
  · exact hsame
  · omega

theorem frame_push (hidx : idx < a.realCount) (hcover : cover rest idx = 0) :
    Frame a (a.push idx order) rest := by
  refine ⟨sameRegion_push, fun addr haddr => ?_, fun p => ?_⟩
  · rw [ram_push, update_of_ne (haddr idx hidx hcover)]
  · rw [pageMeta_push]
    by_cases hp : p = idx
    · subst hp
      rw [update_self]
      exact .inr ⟨hcover, rfl⟩
    · exact .inl (update_of_ne hp _ _)

theorem frame_setHead : Frame a (a.setHead order value) rest :=
  ⟨⟨rfl, rfl, rfl⟩, fun _ _ => rfl, fun _ => .inl rfl⟩

theorem frame_setNext (hidx : idx < a.realCount) (hcover : cover rest idx = 0) :
    Frame a (a.setNext idx value) rest :=
  ⟨⟨rfl, rfl, rfl⟩, fun addr haddr => by
    rw [ram_setNext, update_of_ne (haddr idx hidx hcover)], fun _ => .inl rfl⟩

end BuddyAllocator

/-- A block is on the free list of its order. -/
def FreeAt (a : BuddyAllocator) (b : Block) : Prop :=
  b.order ≤ maxOrder ∧
    ∃ nodes, Chain freeNone a.next (a.freeLists b.order) nodes ∧ b.idx ∈ nodes

/-- A page lies in a block on the free lists. -/
def FreePage (a : BuddyAllocator) (p : Nat) : Prop := ∃ b, FreeAt a b ∧ p ∈ b

/-! ## The shape invariant -/

/-- The free lists are threaded as `free`, and their blocks together with the blocks of `rest`
tile the managed pages. -/
structure Shape (a : BuddyAllocator) (free : Nat → List Nat) (rest : List Block) : Prop where
  chain : ∀ order ≤ maxOrder, Chain freeNone a.next (a.freeLists order) (free order)
  tiling : Tiling maxOrder a.realCount (freeBlocks free ++ rest)
  heads : ∀ b ∈ freeBlocks free, a.pageMeta b.idx = ⟨b.order, false⟩
  padding : ∀ i, a.realCount ≤ i → i < a.pageCount → (a.pageMeta i).used = true
  whole : 2 ^ maxOrder ∣ a.pageCount
  real_le : a.realCount ≤ a.pageCount
  capacity : a.pageCount ≤ maxPages

namespace Shape

variable {a : BuddyAllocator} {free : Nat → List Nat} {rest rest' : List Block}
  {idx order i k p : Nat} {b c : Block}

theorem lt_freeNone (h : Shape a free rest) (hi : i < a.pageCount) : i ≠ freeNone := by
  have hcap := h.capacity
  have hbound : maxPages < freeNone := by decide
  omega

/-- The blocks off the lists may be written in another way. -/
theorem retile (h : Shape a free rest)
    (htiling : Tiling maxOrder a.realCount (freeBlocks free ++ rest')) : Shape a free rest' :=
  { h with tiling := htiling }

/-- The order in which the blocks off the lists are written does not matter. -/
theorem perm (h : Shape a free rest) (hperm : rest.Perm rest') : Shape a free rest' :=
  h.retile (h.tiling.perm (hperm.append_left _))

/-- A block off the lists may be seen as its two halves. -/
theorem split (h : Shape a free (⟨i, k + 1⟩ :: rest)) :
    Shape a free (⟨i, k⟩ :: ⟨i + 2 ^ k, k⟩ :: rest) := by
  have hfront := (h.tiling.perm List.perm_middle).split
  refine h.retile (hfront.perm ?_)
  exact (List.perm_middle.trans (List.perm_middle.cons _)).symm

theorem freeAt_iff (h : Shape a free rest) : FreeAt a b ↔ b ∈ freeBlocks free := by
  rw [mem_freeBlocks]
  constructor
  · rintro ⟨horder, nodes, hchain, hmem⟩
    exact ⟨horder, hchain.unique (h.chain _ horder) ▸ hmem⟩
  · rintro ⟨horder, hmem⟩
    exact ⟨horder, _, h.chain _ horder, hmem⟩

theorem freePage_iff (h : Shape a free rest) : FreePage a p ↔ 0 < cover (freeBlocks free) p := by
  rw [cover_pos_iff]
  exact exists_congr fun b => and_congr_left fun _ => h.freeAt_iff

/-- The pages of a block off the lists are on no list. -/
theorem not_mem_free (h : Shape a free (b :: rest)) (hp : p ∈ b) (hk : k ≤ maxOrder) :
    p ∉ free k := by
  intro hmem
  have hblock : (⟨p, k⟩ : Block) ∈ freeBlocks free := mem_freeBlocks.mpr ⟨hk, hmem⟩
  exact (h.tiling.perm List.perm_middle).not_mem_of_mem_head hp
    (List.mem_append_left _ hblock) (Block.idx_mem _)

/-- The head of a block off the lists is no head of another tile. -/
theorem idx_ne_of_mem (h : Shape a free (b :: rest)) (hc : c ∈ freeBlocks free ++ rest) :
    c.idx ≠ b.idx := by
  intro heq
  refine (h.tiling.perm List.perm_middle).not_mem_of_mem_head (Block.idx_mem b) hc ?_
  rw [← heq]
  exact Block.idx_mem c

/-- A page on the lists is not covered by a block off the lists. -/
theorem cover_eq_zero (h : Shape a free rest) (hk : k ≤ maxOrder) (hp : p ∈ free k) :
    cover rest p = 0 := by
  have hblock : (⟨p, k⟩ : Block) ∈ freeBlocks free := mem_freeBlocks.mpr ⟨hk, hp⟩
  have hpos : 0 < cover (freeBlocks free) p := cover_pos_iff.mpr ⟨_, hblock, Block.idx_mem _⟩
  have hle := h.tiling.cover_le_one p
  rw [cover_append] at hle
  omega

/-- A page of a block off the lists is covered by no other such block. -/
theorem cover_tail_eq_zero (h : Shape a free (b :: rest)) (hp : p ∈ b) : cover rest p = 0 := by
  have hle := h.tiling.cover_le_one p
  rw [cover_append, cover_cons, if_pos hp] at hle
  omega

theorem idx_lt (h : Shape a free (b :: rest)) : b.idx < a.realCount :=
  h.tiling.lt_of_mem (by simp) (Block.idx_mem b)

/-- `push` puts a block on its list. -/
theorem push (h : Shape a free (⟨i, k⟩ :: rest)) :
    Shape (a.push i k) (update free k (i :: free k)) rest where
  chain order horder := by
    have hk : k ≤ maxOrder := h.tiling.order_le ⟨i, k⟩ (by simp)
    have hfresh : ∀ j ≤ maxOrder, i ∉ free j := fun j hj => h.not_mem_free (Block.idx_mem _) hj
    rw [next_push, freeLists_push]
    by_cases hsame : order = k
    · subst hsame
      rw [update_self, update_self]
      exact (h.chain order horder).push (hfresh order horder)
        (h.lt_freeNone (Nat.lt_of_lt_of_le h.idx_lt h.real_le))
    · rw [update_of_ne hsame, update_of_ne hsame]
      exact (h.chain order horder).update_outside (hfresh order horder)
  tiling := by
    have hk : k ≤ maxOrder := h.tiling.order_le ⟨i, k⟩ (by simp)
    exact h.tiling.perm (List.perm_middle.trans ((freeBlocks_cons_perm hk).symm.append_right _))
  heads b hb := by
    have hk : k ≤ maxOrder := h.tiling.order_le ⟨i, k⟩ (by simp)
    rw [(freeBlocks_cons_perm hk).mem_iff, List.mem_cons] at hb
    rw [pageMeta_push]
    rcases hb with rfl | hb
    · exact update_self _ _ _
    · rw [update_of_ne (h.idx_ne_of_mem (List.mem_append_left _ hb))]
      exact h.heads b hb
  padding j hreal hpage := by
    have hne : j ≠ i := Nat.ne_of_gt (Nat.lt_of_lt_of_le h.idx_lt hreal)
    rw [pageMeta_push, update_of_ne hne]
    exact h.padding j hreal hpage
  whole := h.whole
  real_le := h.real_le
  capacity := h.capacity

section

variable (h : Shape a free rest)
include h

/-- `pop` on an empty list finds nothing. -/
theorem pop_nil (hk : k ≤ maxOrder) (hnil : free k = []) :
    a.pop k = some (none, a) := by
  have hchain := h.chain k hk
  rw [hnil, chain_nil] at hchain
  simp [pop, hchain]

/-- Taking an entry off a list, however the links are redone, moves its block to the other
side. -/
theorem takeOff {a' : BuddyAllocator} {tail : List Nat} (hk : k ≤ maxOrder)
    (hperm : (free k).Perm (i :: tail)) (hregion : SameRegion a a')
    (hmeta : a'.pageMeta = a.pageMeta)
    (hchain : ∀ order ≤ maxOrder,
      Chain freeNone a'.next (a'.freeLists order) (update free k tail order)) :
    Shape a' (update free k tail) (⟨i, k⟩ :: rest) := by
  obtain ⟨-, hreal, hpage⟩ := hregion
  have hblocks := freeBlocks_perm hk hperm
  exact {
    chain := hchain
    tiling := by
      rw [hreal]
      exact h.tiling.perm ((hblocks.append_right _).trans List.perm_middle.symm)
    heads := fun b hb => by
      rw [hmeta]
      exact h.heads b (hblocks.mem_iff.mpr (List.mem_cons_of_mem _ hb))
    padding := by
      rw [hreal, hpage, hmeta]
      exact h.padding
    whole := hpage ▸ h.whole
    real_le := by
      rw [hreal, hpage]
      exact h.real_le
    capacity := hpage ▸ h.capacity }

theorem free_lt_real (hk : k ≤ maxOrder) (hi : i ∈ free k) :
    i < a.realCount := by
  have hblock : (⟨i, k⟩ : Block) ∈ freeBlocks free := mem_freeBlocks.mpr ⟨hk, hi⟩
  exact h.tiling.lt_of_mem (List.mem_append_left _ hblock) (Block.idx_mem _)

theorem free_lt (hk : k ≤ maxOrder) (hi : i ∈ free k) :
    i < a.pageCount :=
  Nat.lt_of_lt_of_le (h.free_lt_real hk hi) h.real_le

/-- No page heads blocks on two lists. -/
theorem free_disjoint (hk : k ≤ maxOrder) (horder : order ≤ maxOrder)
    (hi : i ∈ free k) (hi' : i ∈ free order) : order = k := by
  have hblock : (⟨i, k⟩ : Block) ∈ freeBlocks free := mem_freeBlocks.mpr ⟨hk, hi⟩
  have hblock' : (⟨i, order⟩ : Block) ∈ freeBlocks free := mem_freeBlocks.mpr ⟨horder, hi'⟩
  have heq := h.tiling.eq_of_mem (List.mem_append_left _ hblock') (List.mem_append_left _ hblock)
    (Block.idx_mem _) (Block.idx_mem _)
  exact congrArg Block.order heq

/-- A list is no longer than the region. -/
theorem length_free_le (hk : k ≤ maxOrder) :
    (free k).length ≤ a.pageCount := by
  have hsub : free k ⊆ List.range a.pageCount := fun i hi =>
    List.mem_range.mpr (h.free_lt hk hi)
  have hle := (List.subperm_of_subset (h.chain k hk).nodup hsub).length_le
  rwa [List.length_range] at hle

/-- `pop` on a list with a block returns its first block and takes it off the list. -/
theorem pop_cons {tail : List Nat} (hk : k ≤ maxOrder) (hcons : free k = i :: tail) :
    a.pop k = some (some i, a.setHead k (a.next i)) ∧
      Shape (a.setHead k (a.next i)) (update free k tail) (⟨i, k⟩ :: rest) := by
  have hi : i < a.pageCount := h.free_lt hk (by simp [hcons])
  have hchain := h.chain k hk
  rw [hcons, chain_cons] at hchain
  obtain ⟨hhead, hne, htail⟩ := hchain
  refine ⟨by simp [pop, hhead, hne, hi], ?_⟩
  refine h.takeOff hk (by rw [hcons]) ⟨rfl, rfl, rfl⟩ rfl fun order horder => ?_
  rw [next_setHead, freeLists_setHead]
  by_cases hsame : order = k
  · subst hsame
    rw [update_self, update_self]
    exact htail
  · rw [update_of_ne hsame, update_of_ne hsame]
    exact h.chain order horder

end

/-- Two buddies off the lists may be seen as one block. -/
theorem merge (h : Shape a free (⟨i, k⟩ :: ⟨buddy i k, k⟩ :: rest)) (hk : k < maxOrder) :
    Shape a free (⟨min i (buddy i k), k + 1⟩ :: rest) := by
  have hfront := h.tiling.perm (List.perm_middle.trans (List.perm_middle.cons _))
  exact h.retile ((hfront.mergeBuddy hk).perm List.perm_middle.symm)

end Shape

/-! ## Taking a block out of the middle of a list -/

/-- The walk of `unlink` finds a linked node and redirects the node before it. -/
theorem unlinkFrom_eq {a : BuddyAllocator} {target cur steps : Nat} {front back : List Nat}
    (order prev : Nat) (h : Chain freeNone a.next cur (front ++ target :: back))
    (hlt : ∀ x ∈ front ++ target :: back, x < a.pageCount) (htarget : target ∉ front)
    (hsteps : front.length < steps) :
    unlinkFrom target order steps prev cur a =
      some (if (prev :: front).getLast (by simp) = freeNone then a.setHead order (a.next target)
        else a.setNext ((prev :: front).getLast (by simp)) (a.next target)) := by
  induction front generalizing prev cur steps with
  | nil =>
    obtain ⟨rfl, hne, -⟩ := h
    obtain ⟨steps, rfl⟩ := Nat.exists_eq_add_of_lt hsteps
    have hcur : cur < a.pageCount := hlt cur (by simp)
    by_cases hprev : prev = freeNone <;> simp [unlinkFrom, hne, hcur, hprev]
  | cons x front ih =>
    obtain ⟨rfl, hne, hrest⟩ := h
    obtain ⟨steps, rfl⟩ : ∃ m, steps = m + 1 := ⟨steps - 1, by omega⟩
    have hcur : cur < a.pageCount := hlt cur (by simp)
    have hother : cur ≠ target := by
      rintro rfl
      simp at htarget
    rw [unlinkFrom, if_neg hne, if_pos hcur, if_neg hother]
    rw [ih cur hrest (fun y hy => hlt y (by simp at hy ⊢; tauto)) (by simp at htarget; tauto)
      (by simpa using hsteps)]
    simp

namespace Shape

variable {a : BuddyAllocator} {free : Nat → List Nat} {rest : List Block} {x k : Nat}

/-- `unlink` takes a block off its list and touches no page record. -/
theorem unlink (h : Shape a free rest) (hk : k ≤ maxOrder) (hx : x ∈ free k) :
    ∃ a' tail, (free k).Perm (x :: tail) ∧ a.unlink x k = some a' ∧
      Shape a' (update free k tail) (⟨x, k⟩ :: rest) ∧
      a'.pageMeta = a.pageMeta ∧ Frame a a' rest := by
  obtain ⟨front, back, hfree⟩ := List.append_of_mem hx
  have hchain := h.chain k hk
  have hlen := h.length_free_le hk
  have hlt : ∀ y ∈ free k, y < a.pageCount := fun y hy => h.free_lt hk hy
  have hperm : (free k).Perm (x :: (front ++ back)) := hfree ▸ List.perm_middle
  have hnodup := hchain.nodup
  rw [hfree] at hchain hlen hlt hnodup
  rw [List.length_append] at hlen
  have htarget : x ∉ front := fun hmem =>
    (List.nodup_append.mp hnodup).2.2 x hmem x (by simp) rfl
  have hsteps : front.length < a.pageCount + 1 := by omega
  have hwalk := unlinkFrom_eq k freeNone hchain hlt htarget hsteps
  rcases List.eq_nil_or_concat front with rfl | ⟨before, prev, rfl⟩
  · -- The block is first in its list.
    rw [List.getLast_singleton, if_pos rfl] at hwalk
    refine ⟨_, _, hperm, hwalk, h.takeOff hk hperm ⟨rfl, rfl, rfl⟩ rfl fun order horder => ?_, rfl,
      frame_setHead⟩
    rw [next_setHead, freeLists_setHead]
    by_cases hsame : order = k
    · subst hsame
      rw [update_self, update_self]
      exact hchain.2.2
    · rw [update_of_ne hsame, update_of_ne hsame]
      exact h.chain order horder
  · have hprev : prev ∈ free k := by simp [hfree]
    have hne : prev ≠ freeNone := h.lt_freeNone (h.free_lt hk hprev)
    have hlast : (freeNone :: (before.concat prev)).getLast (by simp) = prev := by simp
    rw [hlast, if_neg hne] at hwalk
    refine ⟨_, _, hperm, hwalk, h.takeOff hk hperm ⟨rfl, rfl, rfl⟩ rfl fun order horder => ?_, rfl,
      frame_setNext (h.free_lt_real hk hprev) (h.cover_eq_zero hk hprev)⟩
    rw [next_setNext]
    by_cases hsame : order = k
    · subst hsame
      rw [update_self, List.concat_eq_append, List.append_assoc]
      rw [List.concat_eq_append, List.append_assoc] at hchain
      exact hchain.unlink
    · rw [update_of_ne hsame]
      refine (h.chain order horder).update_outside fun hmem => hsame ?_
      exact h.free_disjoint hk horder hprev hmem

end Shape

end Ignium.Mem
