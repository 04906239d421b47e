import Ignium.Mem.Calls

/-!
# Counting free pages

`HasFree s n` says that `free_page_count` returns `n`. An allocation of one page succeeds exactly when
this number is not 0, and it takes one away (`Sound.allocPages_zero` and `Sound.allocPages_succ`);
writing to pages that are held does not change it.
-/

namespace Ignium.Mem

open Blocks Intrusive
open BuddyAllocator

namespace BuddyAllocator

variable {a a' : BuddyAllocator} {order orders o : Nat}

/-- The search for a block fails only when the lists it looks at are empty. -/
theorem findBlock_none (h : findBlock orders o a = some (none, a')) :
    ∀ i, o ≤ i → i < o + orders → a.freeLists i = freeNone := by
  induction orders generalizing o a with
  | zero =>
    intro i hlow hhigh
    omega
  | succ orders ih =>
    intro i hlow hhigh
    obtain ⟨⟨head, a₁⟩, hpop, hrest⟩ := Option.bind_eq_some_iff.mp h
    unfold pop at hpop
    dsimp only at hpop
    split at hpop
    · next hempty =>
      cases hpop
      rcases Nat.eq_or_lt_of_le hlow with rfl | hlt
      · exact hempty
      · exact ih hrest i hlt (by omega)
    · split at hpop
      · cases hpop
        cases hrest
      · cases hpop

/-- An allocation of one page fails only when no page is free. -/
theorem not_freePage_of_alloc (h : a.alloc 0 = some (none, a')) (p : Nat) : ¬ FreePage a p := by
  rintro ⟨b, ⟨horder, nodes, hchain, hmem⟩, -⟩
  have hfind : ∃ a₁, findBlock (maxOrder + 1) 0 a = some (none, a₁) := by
    rw [alloc, if_neg (Nat.not_lt_zero maxOrder)] at h
    obtain ⟨⟨found, a₁⟩, hfound, hrest⟩ := Option.bind_eq_some_iff.mp h
    cases found with
    | none => exact ⟨a₁, hfound⟩
    | some block => cases hrest
  obtain ⟨a₁, hfind⟩ := hfind
  have hempty : a.freeLists b.order = freeNone :=
    findBlock_none hfind b.order (Nat.zero_le _) (by omega)
  rw [hempty] at hchain
  cases nodes with
  | nil => cases hmem
  | cons node nodes =>
    obtain ⟨hnode, hne, -⟩ := chain_cons.mp hchain
    exact hne hnode.symm

end BuddyAllocator

/-- No page is on the free lists. -/
def NoFreePage (s : Usage) : Prop := ∀ p, ¬ FreePage s.allocator p

theorem noFreePage_of_allocPages {s s' : Usage} (h : s.allocPages 0 = some (none, s')) :
    NoFreePage s := by
  unfold Usage.allocPages at h
  rcases halloc : s.allocator.alloc 0 with _ | ⟨_ | addr, a⟩
  · rw [halloc] at h
    cases h
  · exact BuddyAllocator.not_freePage_of_alloc halloc
  · rw [halloc] at h
    cases h

theorem noFreePage_of_allocPagesZeroed {s s' : Usage}
    (h : s.allocPagesZeroed 0 = some (none, s')) : NoFreePage s := by
  unfold Usage.allocPagesZeroed at h
  rcases halloc : s.allocPages 0 with _ | ⟨_ | addr, s₁⟩
  · rw [halloc] at h
    cases h
  · exact noFreePage_of_allocPages halloc
  · rw [halloc] at h
    cases h

namespace Usage

variable {s t : Usage} {page x value n : Nat} {free : Nat → List Nat} {dead : List Block}

/-- The number of free pages. -/
def HasFree (s : Usage) (n : Nat) : Prop := s.allocator.freePageCount = some n

instance (s : Usage) (n : Nat) : Decidable (s.HasFree n) := inferInstanceAs (Decidable (_ = _))

theorem hasFree_iff (h : Held s free dead) : s.HasFree n ↔ total (freeBlocks free) = n := by
  rw [HasFree, h.shape.freePageCount, Option.some.injEq]

/-- Free pages, pages that are held and carved ones are all pages. -/
theorem total_eq (h : Held s free dead) :
    total (freeBlocks free) + total (s.live ++ dead) = s.allocator.realCount := by
  rw [← total_append, ← sum_cover fun b hb => h.shape.tiling.stop_le hb]
  calc ∑ p ∈ Finset.range s.allocator.realCount, cover (freeBlocks free ++ (s.live ++ dead)) p
      = ∑ p ∈ Finset.range s.allocator.realCount, 1 :=
        Finset.sum_congr rfl fun p hp => by
          rw [h.shape.tiling.cover_eq, if_pos (Finset.mem_range.mp hp)]
    _ = s.allocator.realCount := by simp

/-- Holding one more page leaves one free page less. -/
theorem total_alloc {a : BuddyAllocator} {i : Nat} {free' : Nat → List Nat} (h : Held s free dead)
    (hregion : SameRegion s.allocator a) (h' : Held ⟨a, ⟨i, 0⟩ :: s.live⟩ free' dead) :
    total (freeBlocks free') + 1 = total (freeBlocks free) := by
  have hold := total_eq h
  have hnew := total_eq h'
  change _ = a.realCount at hnew
  rw [List.cons_append, total_cons] at hnew
  have hsize : (⟨i, 0⟩ : Block).size = 1 := rfl
  have hcount : a.realCount = s.allocator.realCount := hregion.2.1
  omega

theorem Sound.exists_hasFree (h : s.Sound) : ∃ n, s.HasFree n := by
  obtain ⟨free, dead, hheld, -⟩ := h
  exact ⟨_, (hasFree_iff hheld).mpr rfl⟩

/-- Without a free page nothing is allocated. -/
theorem Sound.allocPages_zero (h : s.Sound) (hfree : s.HasFree 0) :
    s.allocPages 0 = some (none, s) := by
  obtain ⟨free, dead, hheld, -⟩ := h
  rcases hheld.alloc 0 with hnone | ⟨i, a, free', -, hregion, hheld', -⟩
  · rw [Usage.allocPages, hnone]
  · have hone := total_alloc hheld hregion hheld'
    rw [(hasFree_iff hheld).mp hfree] at hone
    omega

/-- With a free page one is taken, and there is one less. -/
theorem Sound.allocPages_succ (h : s.Sound) (hfree : s.HasFree (n + 1)) :
    ∃ page t, s.allocPages 0 = some (some page, t) ∧ Takes s t page ∧ t.HasFree n := by
  rcases h.allocPages with hnone | ⟨page, t, hsome, htakes⟩
  · obtain ⟨free, dead, hheld, -⟩ := h
    -- A failed allocation has found no free page.
    have hzero : total (freeBlocks free) = 0 := by
      rw [← sum_cover fun b hb => hheld.shape.tiling.stop_le (List.mem_append_left _ hb)]
      refine Finset.sum_eq_zero fun p _ => Nat.eq_zero_of_not_pos fun hpos => ?_
      refine noFreePage_of_allocPages hnone p ?_
      exact hheld.shape.freePage_iff.mpr hpos
    rw [(hasFree_iff hheld).mp hfree] at hzero
    cases hzero
  refine ⟨page, t, hsome, htakes, ?_⟩
  obtain ⟨free, dead, hheld, -⟩ := h
  rcases hheld.alloc 0 with hnone | ⟨i, a, free', halloc, hregion, hheld', -⟩
  · rw [Usage.allocPages, hnone] at hsome
    cases hsome
  · have hidx : a.blockIndex (s.allocator.blockAddr i) = i := by
      rw [← hregion.blockAddr_eq]
      exact Shape.blockIndex_blockAddr
    rw [Usage.allocPages, halloc] at hsome
    simp only [hidx, Option.some.injEq, Prod.mk.injEq] at hsome
    obtain ⟨-, rfl⟩ := hsome
    have hone := total_alloc hheld hregion hheld'
    rw [(hasFree_iff hheld).mp hfree] at hone
    exact (hasFree_iff hheld').mpr (by omega)

/-- Writing to a page that is held. -/
theorem Sound.hasFree_write (h : s.Sound) (hpage : s.Taken page) (hx : InPage page x) :
    (s.write x value).HasFree n ↔ s.HasFree n := by
  obtain ⟨free, dead, hheld, -⟩ := h
  have hstored : Held (s.write x value) free dead := hheld.store (hpage.holds hx)
  rw [hasFree_iff hheld, hasFree_iff hstored]

/-- Clearing a page that is held. -/
theorem Sound.hasFree_zeroPage (h : s.Sound) (hpage : s.HasPage page) :
    (s.zeroPage page).HasFree n ↔ s.HasFree n := by
  obtain ⟨free, dead, hheld, -⟩ := h
  have hzeroed : Held (s.zeroPage page) free dead :=
    hheld.withRam fun x hx => if_neg fun hin => hx (hpage.holds hin)
  rw [hasFree_iff hheld, hasFree_iff hzeroed]

end Usage

end Ignium.Mem
