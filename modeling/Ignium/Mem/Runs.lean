import Ignium.Lib.Machine
import Ignium.Mem.Init

/-!
# Runs of the allocator

A run is a sequence of `alloc` and `free` calls from the state that `init` leaves, interleaved
with stores of the holders into their blocks. Next to the allocator the state keeps the list
`live` of the blocks that were returned by `alloc` and not released since. `Held` is the
invariant of every run that frees only live blocks: `run_balanced` says that such a run goes
through and that no page is lost or handed out twice.
-/

namespace Ignium.Mem

open Blocks Intrusive
open BuddyAllocator

/-- The allocator and the blocks its callers hold. -/
structure Usage where
  allocator : BuddyAllocator
  live : List Block

/-- What happens to the allocator: the two calls, and a holder writing a word. -/
inductive UsageOp where
  | alloc (order : Nat)
  | free (addr : Nat)
  | store (addr value : Nat)
  deriving DecidableEq, Repr

namespace Usage

/-- The state after `init`: nothing is held. -/
def start (ram : Nat → Nat) (base count : Nat) (reserved : List (Nat × Nat)) : Usage :=
  ⟨(uninit ram).init base count reserved, []⟩

/-- An address lies in a block that is held. -/
def Holds (s : Usage) (addr : Nat) : Prop :=
  s.allocator.base ≤ addr ∧ ∃ b ∈ s.live, s.allocator.blockIndex addr ∈ b

instance (s : Usage) (addr : Nat) : Decidable (s.Holds addr) := inferInstanceAs (Decidable (_ ∧ _))

/-- An address is the base address of a block that is held. -/
def IsLive (s : Usage) (addr : Nat) : Prop := ∃ b ∈ s.live, s.allocator.blockAddr b.idx = addr

instance (s : Usage) (addr : Nat) : Decidable (s.IsLive addr) :=
  inferInstanceAs (Decidable (∃ b ∈ s.live, _))

/-- One operation. A store outside the blocks that are held has no effect here. -/
def step (s : Usage) : UsageOp → Option Usage
  | .alloc order => do
      let (addr, a) ← s.allocator.alloc order
      match addr with
      | none => some { s with allocator := a }
      | some addr => some ⟨a, ⟨a.blockIndex addr, order⟩ :: s.live⟩
  | .free addr => do
      let (result, a) ← s.allocator.free addr
      match result with
      | .error _ => some { s with allocator := a }
      | .ok _ => some ⟨a, s.live.eraseP fun b => s.allocator.blockAddr b.idx = addr⟩
  | .store addr value =>
    if s.Holds addr then
      some { s with allocator := s.allocator.store addr value }
    else some s

end Usage

/-! ## The invariant -/

/-- The blocks on the lists, the blocks that are held and the carved blocks tile the region, and
the records of the last two are in place. -/
structure Held (s : Usage) (free : Nat → List Nat) (dead : List Block) : Prop where
  shape : Shape s.allocator free (s.live ++ dead)
  live_meta : ∀ b ∈ s.live, s.allocator.pageMeta b.idx = ⟨b.order, true⟩
  dead_meta : ∀ b ∈ dead, s.allocator.pageMeta b.idx = ⟨255, true⟩

namespace Held

variable {s : Usage} {free : Nat → List Nat} {dead : List Block} {b : Block} {order : Nat}

section

variable (h : Held s free dead)
include h

theorem used (hb : b ∈ s.live ++ dead) :
    (s.allocator.pageMeta b.idx).used = true := by
  rcases List.mem_append.mp hb with hlive | hdead
  · rw [h.live_meta b hlive]
  · rw [h.dead_meta b hdead]

/-- Records that a change leaves alone stay in place. -/
theorem records {a : BuddyAllocator} {rest : List Block}
    (hframe : Frame s.allocator a rest) (hrest : ∀ b ∈ s.live ++ dead, b ∈ rest) :
    (∀ b ∈ s.live, a.pageMeta b.idx = ⟨b.order, true⟩) ∧
      ∀ b ∈ dead, a.pageMeta b.idx = ⟨255, true⟩ := by
  have hkeep : ∀ b ∈ s.live ++ dead, a.pageMeta b.idx = s.allocator.pageMeta b.idx := fun b hb =>
    hframe.pageMeta_eq (cover_pos_iff.mpr ⟨b, hrest b hb, Block.idx_mem b⟩)
  refine ⟨fun b hb => ?_, fun b hb => ?_⟩
  · rw [hkeep b (List.mem_append_left _ hb), h.live_meta b hb]
  · rw [hkeep b (List.mem_append_right _ hb), h.dead_meta b hb]

/-- `alloc` returns nothing and changes nothing, or it returns an aligned block inside the
region, which is then held. -/
theorem alloc (order : Nat) :
    s.allocator.alloc order = some (none, s.allocator) ∨
    ∃ i a free', s.allocator.alloc order = some (some (s.allocator.blockAddr i), a) ∧
      SameRegion s.allocator a ∧ Held ⟨a, ⟨i, order⟩ :: s.live⟩ free' dead ∧
      (∀ p, p ≠ i → a.pageMeta p = s.allocator.pageMeta p ∨ (a.pageMeta p).used = false) ∧
      (Separated maxOrder (freeBlocks free) → Separated maxOrder (freeBlocks free')) := by
  rcases h.shape.alloc order with hnone | ⟨i, a, free', halloc, hshape, hframe, hmerged⟩
  · exact .inl hnone
  obtain ⟨hlive, hdead⟩ := h.records hframe fun b hb => List.mem_cons_of_mem _ hb
  have hother : ∀ p, p ≠ i → (a.setMeta i order true).pageMeta p = a.pageMeta p := fun p hp =>
    Function.update_of_ne hp _ _
  have hne : ∀ b ∈ s.live ++ dead, b.idx ≠ i := fun b hb =>
    hshape.idx_ne_of_mem (List.mem_append_right _ hb)
  refine .inr ⟨i, _, free', halloc, hframe.region, ⟨hshape, fun b hb => ?_, fun b hb => ?_⟩,
    fun p hp => ?_, hmerged⟩
  · rcases List.mem_cons.mp hb with rfl | hb
    · exact Function.update_self _ _ _
    · rw [hother b.idx (hne b (List.mem_append_left _ hb)), hlive b hb]
  · rw [hother b.idx (hne b (List.mem_append_right _ hb)), hdead b hb]
  · rw [hother p hp]
    exact (hframe.pageMeta p).imp_right And.right

/-- Blocks that are held have different base addresses. -/
theorem perm_eraseP (hb : b ∈ s.live) :
    s.live.Perm (b :: s.live.eraseP fun c =>
      s.allocator.blockAddr c.idx = s.allocator.blockAddr b.idx) := by
  obtain ⟨c, front, back, -, hc, hlive, herase⟩ :=
    List.exists_of_eraseP (p := fun c =>
      decide (s.allocator.blockAddr c.idx = s.allocator.blockAddr b.idx)) hb (by simp)
  have hidx : c.idx = b.idx := blockAddr_injective (by simpa using hc)
  have hcb : c = b := by
    have hcmem : c ∈ s.live := by simp [hlive]
    refine h.shape.tiling.eq_of_mem (p := c.idx) (by simp [hcmem]) (by simp [hb])
      (Block.idx_mem c) ?_
    rw [hidx]
    exact Block.idx_mem b
  rw [herase, hlive, hcb]
  exact List.perm_middle

/-- `free` of a block that is held gives its pages back. The index `i'` and the record left at
the old head are what later calls of `free` depend on. -/
theorem free_live {live : List Block} (hperm : s.live.Perm (b :: live))
    (hbase : pageSize ∣ s.allocator.base) :
    ∃ i' k' a₁ a free', mergeUp (maxOrder - b.order) b.idx b.order s.allocator =
        some (i', k', a₁) ∧
      s.allocator.free (s.allocator.blockAddr b.idx) = some (.ok (), a) ∧
      a.pageMeta = Function.update s.allocator.pageMeta i' ⟨k', false⟩ ∧
      SameRegion s.allocator a ∧ Held ⟨a, live⟩ free' dead ∧
      (Separated maxOrder (freeBlocks free) → Separated maxOrder (freeBlocks free')) := by
  have hb : b ∈ s.live := hperm.mem_iff.mpr List.mem_cons_self
  have hshape := h.shape.perm (hperm.append_right dead)
  have hused : ∀ c ∈ live ++ dead, (s.allocator.pageMeta c.idx).used = true := fun c hc =>
    h.used ((hperm.append_right dead).mem_iff.mpr (List.mem_cons_of_mem _ hc))
  obtain ⟨i', k', a₁, free', hmerge, hfree, hmeta, hshape', hframe, hmerged⟩ :=
    hshape.free_live hbase (h.live_meta b hb) hused
  have hkeep : ∀ c ∈ live ++ dead,
      (a₁.push i' k').pageMeta c.idx = s.allocator.pageMeta c.idx := fun c hc =>
    hframe.pageMeta_eq (cover_pos_iff.mpr ⟨c, hc, Block.idx_mem c⟩)
  refine ⟨i', k', a₁, _, free', hmerge, hfree, by rw [pageMeta_push, hmeta], hframe.region,
    ⟨hshape', fun c hc => ?_, fun c hc => ?_⟩, hmerged⟩
  · rw [hkeep c (List.mem_append_left _ hc)]
    exact h.live_meta c (hperm.mem_iff.mpr (List.mem_cons_of_mem _ hc))
  · rw [hkeep c (List.mem_append_right _ hc)]
    exact h.dead_meta c hc

/-- Releasing a block makes its pages free. -/
theorem freePage_release {a : BuddyAllocator} {live : List Block} {free' : Nat → List Nat} {p : Nat} (hperm : s.live.Perm (b :: live)) (hregion : SameRegion s.allocator a)
    (h' : Held ⟨a, live⟩ free' dead) : FreePage a p ↔ FreePage s.allocator p ∨ p ∈ b := by
  have hthen := (h.shape.perm (hperm.append_right dead)).tiling.cover_eq p
  have hnow := h'.shape.tiling.cover_eq p
  rw [hregion.2.1, ← hthen] at hnow
  rw [h.shape.freePage_iff, h'.shape.freePage_iff]
  simp only [List.cons_append, cover_append, cover_cons] at hnow
  by_cases hp : p ∈ b
  · rw [if_pos hp] at hnow
    simp only [hp, or_true, iff_true]
    omega
  · rw [if_neg hp] at hnow
    simp only [hp, or_false]
    omega

/-- The lists run through no word of the blocks that are held, so those words may hold
anything. -/
theorem withRam {ram : Nat → Nat} (hram : ∀ x, ¬ s.Holds x → ram x = s.allocator.ram x) :
    Held { s with allocator := { s.allocator with ram := ram } } free dead := by
  refine ⟨{ h.shape with chain := fun order horder => ?_ }, h.live_meta, h.dead_meta⟩
  refine (h.shape.chain order horder).congr fun x hx => hram _ ?_
  rintro ⟨-, b, hb, hmem⟩
  have hidx : s.allocator.blockIndex (s.allocator.blockAddr x) = x := Shape.blockIndex_blockAddr
  have hzero := h.shape.cover_eq_zero horder hx
  have hpos : 0 < cover (s.live ++ dead) x :=
    cover_pos_iff.mpr ⟨b, List.mem_append_left _ hb, hidx ▸ hmem⟩
  omega

/-- A store into a block that is held touches no list. -/
theorem store {addr value : Nat} (hholds : s.Holds addr) :
    Held { s with allocator := s.allocator.store addr value } free dead := by
  refine h.withRam fun x hx => Function.update_of_ne ?_ _ _
  rintro rfl
  exact hx hholds

end

/-- With a base address that is not page-aligned `free` accepts nothing. -/
theorem free_unaligned {i : Nat} (hbase : ¬ pageSize ∣ s.allocator.base) :
    s.allocator.free (s.allocator.blockAddr i) = some (.error (), s.allocator) := by
  have hmod : s.allocator.blockAddr i % pageSize ≠ 0 := by
    rw [blockAddr, Nat.add_mul_mod_self_right]
    exact fun h => hbase (Nat.dvd_of_mod_eq_zero h)
  rw [BuddyAllocator.free, if_pos (.inr (.inr hmod))]

end Held

/-! ## Runs that free only what is held -/

/-- The caller frees only blocks it holds. -/
def FreesLive (s : Usage) : UsageOp → Prop
  | .free addr => s.IsLive addr
  | _ => True

/-- Every operation of a caller that frees only what it holds completes and keeps the
invariant. -/
theorem Held.step {s : Usage} {free : Nat → List Nat} {dead : List Block} {op : UsageOp}
    (h : Held s free dead) (hop : FreesLive s op) :
    ∃ t, s.step op = some t ∧ SameRegion s.allocator t.allocator ∧ ∃ free', Held t free' dead ∧
      (Separated maxOrder (freeBlocks free) → Separated maxOrder (freeBlocks free')) := by
  cases op with
  | alloc order =>
    rcases h.alloc order with hnone | ⟨i, a, free', halloc, hregion, hheld, -, hmerged⟩
    · exact ⟨s, by simp [Usage.step, hnone], SameRegion.refl _, free, h, id⟩
    · have hidx : a.blockIndex (s.allocator.blockAddr i) = i := by
        rw [← hregion.blockAddr_eq]
        exact Shape.blockIndex_blockAddr
      exact ⟨_, by simp [Usage.step, halloc, hidx], hregion, free', hheld, hmerged⟩
  | free addr =>
    obtain ⟨b, hb, rfl⟩ := hop
    by_cases hbase : pageSize ∣ s.allocator.base
    · obtain ⟨i', k', a₁, a, free', -, hfree, -, hregion, hheld, hmerged⟩ :=
        h.free_live (h.perm_eraseP hb) hbase
      exact ⟨_, by simp [Usage.step, hfree], hregion, free', hheld, hmerged⟩
    · exact ⟨s, by simp [Usage.step, Held.free_unaligned hbase], SameRegion.refl _, free, h, id⟩
  | store addr value =>
    by_cases hholds : s.Holds addr
    · exact ⟨_, if_pos hholds, ⟨rfl, rfl, rfl⟩, free, h.store hholds, id⟩
    · exact ⟨s, if_neg hholds, SameRegion.refl _, free, h, id⟩

/-- The books balance: the free blocks and the blocks that are held are disjoint and make up the
blocks `initial`, the free lists are sound, and the calls go through. -/
structure Balanced (s : Usage) (initial : List Block) : Prop where
  lists : ∃ free, (∀ order ≤ maxOrder,
      Chain freeNone s.allocator.next (s.allocator.freeLists order) (free order) ∧
        (free order).Nodup) ∧
    (∀ b ∈ freeBlocks free, s.allocator.pageMeta b.idx = ⟨b.order, false⟩) ∧
    ∀ p, cover (freeBlocks free ++ s.live) p = if 0 < cover initial p then 1 else 0
  live : ∀ b ∈ s.live, b.Aligned ∧ b.stop ≤ s.allocator.realCount
  alloc : ∀ order, s.allocator.alloc order = some (none, s.allocator) ∨
    ∃ i a, s.allocator.alloc order = some (some (s.allocator.blockAddr i), a) ∧
      2 ^ order ∣ i ∧ i + 2 ^ order ≤ s.allocator.realCount
  free : ∀ b ∈ s.live, (s.allocator.free (s.allocator.blockAddr b.idx)).isSome
  count : s.allocator.freePageCount = some (total initial - total s.live) ∧
    total s.live ≤ total initial

/-- The invariant balances against what was free before anything was held. -/
theorem Held.balanced {s : Usage} {free initial : Nat → List Nat} {dead : List Block}
    (h : Held s free dead)
    (hinitial : Tiling maxOrder s.allocator.realCount (freeBlocks initial ++ dead)) :
    Balanced s (freeBlocks initial) := by
  have hcover : ∀ p, cover (freeBlocks free ++ s.live) p = cover (freeBlocks initial) p := by
    intro p
    have hnow := h.shape.tiling.cover_eq p
    rw [← hinitial.cover_eq p] at hnow
    simp only [cover_append] at hnow ⊢
    omega
  have hstop : ∀ b ∈ freeBlocks free ++ s.live, b.stop ≤ s.allocator.realCount := fun b hb =>
    h.shape.tiling.stop_le (by simp only [List.mem_append] at hb ⊢; tauto)
  have htotal : total (freeBlocks free) + total s.live = total (freeBlocks initial) := by
    rw [← total_append, ← sum_cover hstop,
      ← sum_cover fun b hb => hinitial.stop_le (List.mem_append_left _ hb)]
    exact Finset.sum_congr rfl fun p _ => hcover p
  refine ⟨⟨free, fun order horder => ⟨h.shape.chain order horder, (h.shape.chain order horder).nodup⟩,
    h.shape.heads, fun p => ?_⟩, fun b hb => ?_, fun order => ?_, fun b hb => ?_, ?_⟩
  · have hle := hinitial.cover_le_one p
    rw [cover_append] at hle
    rw [hcover p]
    split <;> omega
  · have hmem : b ∈ freeBlocks free ++ (s.live ++ dead) := by simp [hb]
    exact ⟨h.shape.tiling.aligned b hmem, h.shape.tiling.stop_le hmem⟩
  · rcases h.alloc order with hnone | ⟨i, a, free', halloc, hregion, hheld, -⟩
    · exact .inl hnone
    · refine .inr ⟨i, a, halloc, hheld.shape.tiling.aligned ⟨i, order⟩ (by simp), ?_⟩
      rw [← hregion.2.1]
      exact hheld.shape.tiling.stop_le (b := ⟨i, order⟩) (by simp)
  · have hop : FreesLive s (.free (s.allocator.blockAddr b.idx)) := ⟨b, hb, rfl⟩
    obtain ⟨t, hstep, -⟩ := h.step hop
    rw [Usage.step] at hstep
    cases hfree : s.allocator.free (s.allocator.blockAddr b.idx) with
    | none => simp [hfree] at hstep
    | some _ => rfl
  · rw [h.shape.freePageCount]
    exact ⟨by rw [← htotal, Nat.add_sub_cancel_right], by omega⟩

/-- The invariant at the start, with the carved blocks and the records that `init` leaves. -/
theorem held_start (ram : Nat → Nat) (base : Nat) {count : Nat} (reserved : List (Nat × Nat))
    (hcount : count ≤ maxPages) :
    ∃ free dead, Held (Usage.start ram base count reserved) free dead ∧
      (Usage.start ram base count reserved).allocator.base = base ∧
      (Usage.start ram base count reserved).allocator.realCount = count ∧
      (∀ p < count, Carved reserved count maxOrder p → 0 < cover dead p) ∧
      ∀ p < count, ((Usage.start ram base count reserved).allocator.pageMeta p).used = true →
        ((Usage.start ram base count reserved).allocator.pageMeta p).order = 255 := by
  obtain ⟨free, dead, next, hbuild, hnext, hbase, hreal, -⟩ :=
    init_building ram base reserved hcount
  have hshape := hbuild.done (hreal.le.trans hnext)
  refine ⟨free, dead, ⟨hshape, by simp [Usage.start], hbuild.dead_meta⟩, hbase, hreal,
    fun p hp hcarved => ?_, fun p hp => hbuild.unused p (hp.trans_eq hreal.symm)⟩
  obtain ⟨b, hb, hmem⟩ := hshape.tiling.exists_mem (hp.trans_eq hreal.symm)
  rcases List.mem_append.mp hb with hfree | hdead
  · exact absurd (hreal.symm ▸ hcarved) (hbuild.free_uncarved b hfree p hmem)
  · exact cover_pos_iff.mpr ⟨b, hdead, hmem⟩

end Ignium.Mem
