import Ignium.Mem.Runs

/-!
# Coalescing is complete

`free` merges a block with its buddy as long as the record of the buddy page says that the buddy
is free and of the same order. The records of all free blocks are accurate, so the loop stops
only at a buddy that is not free: no two blocks on the lists are ever buddies of each other.
By `Separated.exists_block` an aligned run of free pages then lies in one free block, which is
what `alloc` looks for, and by `Separated.mem_iff` the blocks on the lists are determined by the
pages they cover, so that the lists after the last release are those of `init`
(`run_coalesced`).
-/

namespace Ignium.Mem

open Blocks Intrusive
open BuddyAllocator

/-- An aligned run of `2 ^ order` pages of the region that are all free. -/
def FreeRun (a : BuddyAllocator) (order i : Nat) : Prop :=
  2 ^ order ∣ i ∧ i + 2 ^ order ≤ a.realCount ∧ ∀ p, i ≤ p → p < i + 2 ^ order → FreePage a p

/-- What complete coalescing means: no two free blocks are buddies, an allocation fails exactly
when there is no free run of its size, and with nothing held the free blocks are the `initial`
ones. -/
structure Coalesced (initial : BuddyAllocator) (s : Usage) : Prop where
  unpaired : ∀ i, ∀ order < maxOrder, FreeAt s.allocator ⟨i, order⟩ →
    ¬ FreeAt s.allocator ⟨buddy i order, order⟩
  alloc : ∀ order ≤ maxOrder, ∃ found a, s.allocator.alloc order = some (found, a) ∧
    (found = none ↔ ¬ ∃ i, FreeRun s.allocator order i)
  again : s.live = [] → ∀ b, FreeAt s.allocator b ↔ FreeAt initial b

namespace Shape

variable {a : BuddyAllocator} {free : Nat → List Nat} {rest : List Block} {b : Block}
  {order i : Nat}

/-- In merged lists a free run lies in a block that is large enough for it. -/
theorem exists_block_of_freeRun (h : Shape a free rest)
    (hsep : Separated maxOrder (freeBlocks free)) (horder : order ≤ maxOrder)
    (hrun : FreeRun a order i) : ∃ b ∈ freeBlocks free, order ≤ b.order := by
  obtain ⟨halign, -, hfree⟩ := hrun
  obtain ⟨b, hb, hle, -⟩ := hsep.exists_block
    (fun b hb => h.tiling.aligned b (List.mem_append_left _ hb)) halign horder
    fun p hp => h.freePage_iff.mp (hfree p hp.1 hp.2)
  exact ⟨b, hb, hle⟩

/-- A free block is a free run of every smaller order. -/
theorem freeRun_of_mem (h : Shape a free rest) (hb : b ∈ freeBlocks free) (hle : order ≤ b.order) :
    FreeRun a order b.idx := by
  have hmem : b ∈ freeBlocks free ++ rest := List.mem_append_left _ hb
  have hpow : 2 ^ order ≤ 2 ^ b.order := Nat.pow_le_pow_right (by decide) hle
  have hstop : b.idx + 2 ^ b.order ≤ a.realCount := h.tiling.stop_le hmem
  refine ⟨(pow_dvd_pow 2 hle).trans (h.tiling.aligned b hmem), by omega, fun p hlow hhigh => ?_⟩
  exact h.freePage_iff.mpr (cover_pos_iff.mpr ⟨b, hb, hlow, Nat.lt_of_lt_of_le hhigh (by
    simp only [Block.stop]
    omega)⟩)

/-- Merged lists have a free run of some order exactly when they have a block of that order or a
larger one. -/
theorem freeRun_iff (h : Shape a free rest) (hsep : Separated maxOrder (freeBlocks free))
    (horder : order ≤ maxOrder) :
    (∃ i, FreeRun a order i) ↔ ∃ b ∈ freeBlocks free, order ≤ b.order := by
  constructor
  · rintro ⟨i, hrun⟩
    exact h.exists_block_of_freeRun hsep horder hrun
  · rintro ⟨b, hb, hle⟩
    exact ⟨b.idx, h.freeRun_of_mem hb hle⟩

end Shape

/-- The lists of an unreserved region are merged at the start: `init` pushes blocks of the
largest order and blocks whose buddies do not fit into the region. -/
theorem separated_start (ram : Nat → Nat) (base : Nat) {count : Nat} (hcount : count ≤ maxPages) :
    ∃ free, Held (Usage.start ram base count []) free [] ∧
      (Usage.start ram base count []).allocator.realCount = count ∧
      Separated maxOrder (freeBlocks free) := by
  obtain ⟨free, dead, next, hbuild, hnext, -, hreal, hnil⟩ := init_building ram base [] hcount
  obtain ⟨rfl, hunpaired⟩ := hnil rfl
  have hshape := hbuild.done (hreal.le.trans hnext)
  refine ⟨free, ⟨hshape, by simp [Usage.start], by simp⟩, hreal, fun b hb hlt hbuddy => ?_⟩
  have hstop : buddy b.idx b.order + 2 ^ b.order ≤ _ :=
    hshape.tiling.stop_le (List.mem_append_left _ hbuddy)
  have hout := hunpaired b hb hlt
  rw [hreal] at hstop
  omega

/-- Merged lists are completely coalesced. -/
theorem Held.coalesced {s : Usage} {initial : BuddyAllocator} {free start : Nat → List Nat}
    (h : Held s free []) (hsep : Separated maxOrder (freeBlocks free))
    (hstart : Shape initial start []) (hsep' : Separated maxOrder (freeBlocks start))
    (hreal : s.allocator.realCount = initial.realCount) : Coalesced initial s where
  unpaired i order horder hfree hbuddy :=
    hsep ⟨i, order⟩ (h.shape.freeAt_iff.mp hfree) horder (h.shape.freeAt_iff.mp hbuddy)
  alloc order horder := by
    obtain ⟨found, a, halloc, hnone⟩ := h.shape.alloc_none_iff horder
    refine ⟨found, a, halloc, hnone.trans ?_⟩
    rw [h.shape.freeRun_iff hsep horder]
    simp only [not_exists, not_and, Nat.not_le]
  again hlive b := by
    have hnow := h.shape.tiling
    have hthen := hstart.tiling
    rw [hlive, List.nil_append, List.append_nil, hreal] at hnow
    rw [List.append_nil] at hthen
    rw [h.shape.freeAt_iff, hstart.freeAt_iff]
    exact Separated.mem_iff hnow hthen hsep hsep'

end Ignium.Mem
