import Ignium.Lib.Outcome
import Ignium.Mem.Runs

/-!
# The calls of the page allocator

The functions of `kernel/src/mem.rs` that the rest of the kernel calls, on the allocator together
with the list of the blocks that are held. `Usage.Sound` is what every caller may rely on, and
the results about single pages say what a call does to the pages that are held and to the words
in them: `Sound.allocPages`, `Sound.freePages`, `Sound.write` and `Sound.zeroPage`.
-/

namespace Ignium.Mem

open Blocks Intrusive
open BuddyAllocator

namespace Usage

/-- Allocate `2 ^ order` pages. -/
def allocPages (s : Usage) (order : Nat) : Option (Option Nat × Usage) :=
  match s.allocator.alloc order with
  | none => none
  | some (none, a) => some (none, { s with allocator := a })
  | some (some addr, a) => some (some addr, ⟨a, ⟨a.blockIndex addr, order⟩ :: s.live⟩)

/-- Release the block at an address. -/
def freePages (s : Usage) (addr : Nat) : Outcome Usage Unit Unit :=
  match s.allocator.free addr with
  | none => none
  | some (.error e, a) => some (.error e, { s with allocator := a })
  | some (.ok _, a) =>
    some (.ok (), ⟨a, s.live.eraseP fun b => s.allocator.blockAddr b.idx = addr⟩)

/-- A word of physical memory. -/
def read (s : Usage) (addr : Nat) : Nat := s.allocator.ram addr

/-- Write a word of physical memory. -/
def write (s : Usage) (addr value : Nat) : Usage :=
  { s with allocator := s.allocator.store addr value }

/-- Clear a page. -/
def zeroPage (s : Usage) (addr : Nat) : Usage :=
  { s with
    allocator :=
      { s.allocator with
        ram := fun x => if addr ≤ x ∧ x < addr + pageSize then 0 else s.allocator.ram x } }

/-- Allocate `2 ^ order` pages and clear them. -/
def allocPagesZeroed (s : Usage) (order : Nat) : Option (Option Nat × Usage) :=
  match s.allocPages order with
  | none => none
  | some (none, s) => some (none, s)
  | some (some block, s) =>
    some (some block,
      (List.range (2 ^ order)).foldl (fun s i => s.zeroPage (block + i * pageSize)) s)

/-- Whether an address lies in the region of the allocator. -/
def pageInRange (s : Usage) (paddr : Nat) : Bool := s.allocator.pageInRange paddr

/-! ## Single pages -/

/-- A single page is held: it was returned by `allocPages` and not released since. -/
def HasPage (s : Usage) (page : Nat) : Prop :=
  ∃ i, page = s.allocator.blockAddr i ∧ (⟨i, 0⟩ : Block) ∈ s.live

/-- A page belongs to a block that is held. -/
def Taken (s : Usage) (page : Nat) : Prop :=
  ∃ i, page = s.allocator.blockAddr i ∧ ∃ b ∈ s.live, i ∈ b

/-- The addresses of a page. -/
def InPage (page x : Nat) : Prop := page ≤ x ∧ x < page + pageSize

/-- The allocator is well formed for the blocks that are held, and its region is page-aligned. -/
def Sound (s : Usage) : Prop := ∃ free dead, Held s free dead ∧ pageSize ∣ s.allocator.base

end Usage

namespace Held

variable {s : Usage} {free : Nat → List Nat} {dead : List Block} {a : BuddyAllocator}
  {order x addr : Nat}

/-- The free lists run through no word of a block that is held. -/
theorem ne_blockAddr (dead : List Block) {p : Nat} {b : Block} (hb : b ∈ s.live) (hlow : s.allocator.base ≤ x)
    (hx : s.allocator.blockIndex x ∈ b) (hp : cover (s.live ++ dead) p = 0) :
    x ≠ s.allocator.blockAddr p := by
  rintro rfl
  have hidx : s.allocator.blockIndex (s.allocator.blockAddr p) = p := Shape.blockIndex_blockAddr
  have hpos : 0 < cover (s.live ++ dead) p :=
    cover_pos_iff.mpr ⟨b, List.mem_append_left _ hb, hidx ▸ hx⟩
  omega

/-- `alloc` writes no word of a block that is held. -/
theorem alloc_ram {found : Option Nat} (h : Held s free dead)
    (halloc : s.allocator.alloc order = some (found, a)) (hx : s.Holds x) :
    a.ram x = s.allocator.ram x := by
  obtain ⟨hlow, b, hb, hmem⟩ := hx
  rcases h.shape.alloc order with hnone | ⟨i, a', free', hsome, -, hframe, -⟩
  · rw [hnone] at halloc
    cases halloc
    rfl
  · rw [hsome] at halloc
    cases halloc
    refine hframe.ram x fun p _ hp => ne_blockAddr dead hb hlow hmem ?_
    rw [cover_cons] at hp
    omega

/-- `free` of a block that is held writes no word of another one. -/
theorem free_ram {live : List Block} {b c : Block} {result : Except Unit Unit}
    (h : Held s free dead) (hperm : s.live.Perm (b :: live)) (hbase : pageSize ∣ s.allocator.base)
    (hfree : s.allocator.free (s.allocator.blockAddr b.idx) = some (result, a)) (hc : c ∈ live)
    (hlow : s.allocator.base ≤ x) (hx : s.allocator.blockIndex x ∈ c) :
    a.ram x = s.allocator.ram x := by
  have hb : b ∈ s.live := hperm.mem_iff.mpr List.mem_cons_self
  have hshape := h.shape.perm (hperm.append_right dead)
  have hused : ∀ c ∈ live ++ dead, (s.allocator.pageMeta c.idx).used = true := fun c hc =>
    h.used ((hperm.append_right dead).mem_iff.mpr (List.mem_cons_of_mem _ hc))
  obtain ⟨i', k', a', free', -, hdone, -, -, hframe, -⟩ :=
    hshape.free_live hbase (h.live_meta b hb) hused
  rw [hdone] at hfree
  cases hfree
  refine hframe.ram x fun p _ hp => ?_
  rintro rfl
  have hidx : s.allocator.blockIndex (s.allocator.blockAddr p) = p := Shape.blockIndex_blockAddr
  have hpos : 0 < cover (live ++ dead) p :=
    cover_pos_iff.mpr ⟨c, List.mem_append_left _ hc, hidx ▸ hx⟩
  exact absurd hp (Nat.ne_of_gt hpos)

end Held

namespace Usage

variable {s t : Usage} {page other x value : Nat}

/-! ## What a page is -/

theorem InPage.blockIndex_eq {i : Nat} (h : InPage (s.allocator.blockAddr i) x) :
    s.allocator.base ≤ x ∧ s.allocator.blockIndex x = i := by
  obtain ⟨hlow, hhigh⟩ := h
  simp only [blockAddr, blockIndex, pageSize] at *
  omega

theorem HasPage.taken (h : s.HasPage page) : s.Taken page := by
  obtain ⟨i, rfl, hi⟩ := h
  exact ⟨i, rfl, _, hi, Block.idx_mem _⟩

/-- The words of a page that is held belong to the block that is held. -/
theorem Taken.holds (h : s.Taken page) (hx : InPage page x) : s.Holds x := by
  obtain ⟨i, rfl, b, hb, hi⟩ := h
  obtain ⟨hlow, hidx⟩ := hx.blockIndex_eq
  exact ⟨hlow, b, hb, hidx ▸ hi⟩

theorem HasPage.holds (h : s.HasPage page) (hx : InPage page x) : s.Holds x := h.taken.holds hx

/-- Two pages that are held share no word. -/
theorem Taken.eq_of_inPage (h : s.Taken page) (h' : s.Taken other) (hx : InPage page x)
    (hx' : InPage other x) : page = other := by
  obtain ⟨i, rfl, -⟩ := h
  obtain ⟨j, rfl, -⟩ := h'
  rw [← hx.blockIndex_eq.2, ← hx'.blockIndex_eq.2]

theorem HasPage.eq_of_inPage (h : s.HasPage page) (h' : s.HasPage other) (hx : InPage page x)
    (hx' : InPage other x) : page = other := h.taken.eq_of_inPage h'.taken hx hx'

theorem Taken.aligned (h : s.Taken page) (hs : s.Sound) : page % pageSize = 0 := by
  obtain ⟨i, rfl, -⟩ := h
  obtain ⟨-, -, -, hbase⟩ := hs
  exact Nat.mod_eq_zero_of_dvd (dvd_add hbase (dvd_mul_left _ _))

theorem HasPage.aligned (h : s.HasPage page) (hs : s.Sound) : page % pageSize = 0 :=
  h.taken.aligned hs

theorem Taken.pageInRange (h : s.Taken page) (hs : s.Sound) : s.pageInRange page = true := by
  obtain ⟨i, rfl, b, hb, hi⟩ := h
  obtain ⟨free, dead, hheld, -⟩ := hs
  have hlt : i < s.allocator.realCount :=
    hheld.shape.tiling.lt_of_mem (b := b) (by simp [hb]) hi
  have hmul : i * pageSize < s.allocator.realCount * pageSize :=
    Nat.mul_lt_mul_of_pos_right hlt (by decide)
  simp [Usage.pageInRange, BuddyAllocator.pageInRange, blockAddr, hmul]

theorem HasPage.pageInRange (h : s.HasPage page) (hs : s.Sound) : s.pageInRange page = true :=
  h.taken.pageInRange hs

/-- A page belongs to one block at most. -/
theorem Sound.block_unique {b c : Block} {i : Nat} (h : s.Sound) (hb : b ∈ s.live)
    (hc : c ∈ s.live) (hib : i ∈ b) (hic : i ∈ c) : b = c := by
  obtain ⟨free, dead, hheld, -⟩ := h
  exact hheld.shape.tiling.eq_of_mem (by simp [hb]) (by simp [hc]) hib hic

theorem pageInRange_congr (h : SameRegion s.allocator t.allocator) :
    t.pageInRange = s.pageInRange := by
  funext p
  simp only [Usage.pageInRange, BuddyAllocator.pageInRange, h.1, h.2.1]

/-! ## The calls on single pages -/

/-- A call took one more page and changed no word of the pages that were held. -/
structure Takes (s t : Usage) (page : Nat) : Prop where
  sound : t.Sound
  region : SameRegion s.allocator t.allocator
  unused : ¬ s.Taken page
  pages : ∀ q, t.HasPage q ↔ q = page ∨ s.HasPage q
  taken : ∀ q, t.Taken q ↔ q = page ∨ s.Taken q
  frame : ∀ q x, s.Taken q → InPage q x → t.read x = s.read x

theorem Takes.fresh (h : Takes s t page) : ¬ s.HasPage page := fun hpage => h.unused hpage.taken

theorem Takes.words (h : Takes s t page) (q x : Nat) (hq : s.HasPage q) (hx : InPage q x) :
    t.read x = s.read x := h.frame q x hq.taken hx

/-- A call gave one page back and changed no word of the other pages that are held. -/
structure Gives (s t : Usage) (page : Nat) : Prop where
  sound : t.Sound
  region : SameRegion s.allocator t.allocator
  pages : ∀ q, t.HasPage q ↔ q ≠ page ∧ s.HasPage q
  taken : ∀ q, t.Taken q ↔ q ≠ page ∧ s.Taken q
  free : ∀ p, FreePage t.allocator p ↔ FreePage s.allocator p ∨ s.allocator.blockAddr p = page
  frame : ∀ q x, q ≠ page → s.Taken q → InPage q x → t.read x = s.read x

theorem Gives.words (h : Gives s t page) (q x : Nat) (hne : q ≠ page) (hq : s.HasPage q)
    (hx : InPage q x) : t.read x = s.read x := h.frame q x hne hq.taken hx

/-- `allocPages` finds nothing and changes nothing, or it takes a new block and changes no word of
the blocks that were held. -/
theorem Sound.allocBlock (h : s.Sound) (order : Nat) :
    s.allocPages order = some (none, s) ∨
      ∃ i t, s.allocPages order = some (some (s.allocator.blockAddr i), t) ∧ t.Sound ∧
        SameRegion s.allocator t.allocator ∧ t.live = ⟨i, order⟩ :: s.live ∧
        (∀ c ∈ s.live, c.idx ≠ i) ∧ ∀ x, s.Holds x → t.read x = s.read x := by
  obtain ⟨free, dead, hheld, hbase⟩ := h
  rcases hheld.alloc order with hnone | ⟨i, a, free', halloc, hregion, hheld', -⟩
  · exact .inl (by simp [Usage.allocPages, hnone])
  · have hidx : a.blockIndex (s.allocator.blockAddr i) = i := by
      rw [← hregion.blockAddr_eq]
      exact Shape.blockIndex_blockAddr
    refine .inr ⟨i, ⟨a, ⟨i, order⟩ :: s.live⟩, by simp [Usage.allocPages, halloc, hidx],
      ⟨free', dead, hheld', hregion.1 ▸ hbase⟩, hregion, rfl, fun c hc => ?_,
      fun x hx => hheld.alloc_ram halloc hx⟩
    exact hheld'.shape.idx_ne_of_mem (List.mem_append_right _ (List.mem_append_left _ hc))

/-- `freePages` of a block that is held gives it back and changes no word of the other ones. -/
theorem Sound.freeBlock {b : Block} (h : s.Sound) (hb : b ∈ s.live) :
    ∃ t, s.freePages (s.allocator.blockAddr b.idx) = some (.ok (), t) ∧ t.Sound ∧
      SameRegion s.allocator t.allocator ∧ (∀ c, c ∈ t.live ↔ c.idx ≠ b.idx ∧ c ∈ s.live) ∧
      (∀ p, FreePage t.allocator p ↔ FreePage s.allocator p ∨ p ∈ b) ∧
      ∀ c ∈ t.live, ∀ x, s.allocator.base ≤ x → s.allocator.blockIndex x ∈ c →
        t.read x = s.read x := by
  obtain ⟨free, dead, hheld, hbase⟩ := h
  have hperm := hheld.perm_eraseP hb
  obtain ⟨i', k', a₁, a, free', -, hfree, -, hregion, hheld', -⟩ := hheld.free_live hperm hbase
  have hrest := hheld.shape.perm (hperm.append_right dead)
  refine ⟨_, by simp [Usage.freePages, hfree], ⟨free', dead, hheld', hregion.1 ▸ hbase⟩, hregion,
    fun c => ⟨fun hc => ⟨?_, ?_⟩, fun ⟨hne, hc⟩ => ?_⟩,
    fun p => hheld.freePage_release hperm hregion hheld',
    fun c hc x hlow hx => hheld.free_ram hperm hbase hfree hc hlow hx⟩
  · exact hrest.idx_ne_of_mem (List.mem_append_right _ (List.mem_append_left _ hc))
  · exact hperm.mem_iff.mpr (List.mem_cons_of_mem _ hc)
  · rcases List.mem_cons.mp (hperm.mem_iff.mp hc) with rfl | hc
    · exact absurd rfl hne
    · exact hc

/-- `allocPages` of a single page finds none and changes nothing, or takes one. -/
theorem Sound.allocPages (h : s.Sound) :
    s.allocPages 0 = some (none, s) ∨
      ∃ page t, s.allocPages 0 = some (some page, t) ∧ Takes s t page := by
  rcases h.allocBlock 0 with hnone | ⟨i, t, halloc, hsound, hregion, hlive, hnew, hwords⟩
  · exact .inl hnone
  · have hself : (⟨i, 0⟩ : Block) ∈ t.live := by simp [hlive]
    refine .inr ⟨_, t, halloc, hsound, hregion, ?_, fun q => ?_, fun q => ?_, fun q x hq hx =>
      hwords x (hq.holds hx)⟩
    · rintro ⟨j, hj, c, hc, hmem⟩
      obtain rfl := blockAddr_injective hj
      have hsame := hsound.block_unique hself (by simp [hlive, hc]) (Block.idx_mem _) hmem
      exact hnew c hc (hsame ▸ rfl)
    · simp only [HasPage, hregion.blockAddr_eq, hlive, List.mem_cons, Block.mk.injEq, and_true]
      constructor
      · rintro ⟨j, rfl, rfl | hmem⟩
        · exact .inl rfl
        · exact .inr ⟨j, rfl, hmem⟩
      · rintro (rfl | ⟨j, rfl, hmem⟩)
        · exact ⟨i, rfl, .inl rfl⟩
        · exact ⟨j, rfl, .inr hmem⟩
    · simp only [Taken, hregion.blockAddr_eq, hlive, List.mem_cons, exists_eq_or_imp]
      constructor
      · rintro ⟨j, rfl, hmem | hmem⟩
        · exact .inl (congrArg _ (Block.mem_single.mp hmem))
        · exact .inr ⟨j, rfl, hmem⟩
      · rintro (rfl | ⟨j, rfl, hmem⟩)
        · exact ⟨i, rfl, .inl (Block.idx_mem _)⟩
        · exact ⟨j, rfl, .inr hmem⟩

/-- `freePages` of a page that is held gives it back. -/
theorem Sound.freePages (h : s.Sound) (hpage : s.HasPage page) :
    ∃ t, s.freePages page = some (.ok (), t) ∧ Gives s t page := by
  obtain ⟨i, rfl, hi⟩ := hpage
  obtain ⟨t, hfree, hsound, hregion, hlive, hpages, hwords⟩ := h.freeBlock hi
  -- A block that stays has none of the pages of the block that is gone.
  have hstays : ∀ {j c}, j ≠ i → c ∈ s.live → j ∈ c → c ∈ t.live := by
    intro j c hne hc hj
    refine (hlive c).mpr ⟨fun heq => ?_, hc⟩
    have hsame := h.block_unique hc hi (heq ▸ Block.idx_mem c) (Block.idx_mem _)
    exact hne (Block.mem_single.mp (hsame ▸ hj))
  have hgone : ∀ {j c}, c ∈ t.live → j ∈ c → j ≠ i := by
    rintro j c hc hj rfl
    obtain ⟨hne, hc'⟩ := (hlive c).mp hc
    exact hne (congrArg Block.idx (h.block_unique hc' hi hj (Block.idx_mem _)))
  refine ⟨t, hfree, hsound, hregion, fun q => ?_, fun q => ?_, fun p => ?_,
    fun q x hne hq hx => ?_⟩
  · simp only [HasPage, hregion.blockAddr_eq, hlive]
    constructor
    · rintro ⟨j, rfl, hne, hj⟩
      exact ⟨fun heq => hne (blockAddr_injective heq), j, rfl, hj⟩
    · rintro ⟨hne, j, rfl, hj⟩
      exact ⟨j, rfl, fun heq => hne (congrArg _ heq), hj⟩
  · simp only [Taken, hregion.blockAddr_eq]
    constructor
    · rintro ⟨j, rfl, c, hc, hj⟩
      exact ⟨fun heq => hgone hc hj (blockAddr_injective heq), j, rfl, c, ((hlive c).mp hc).2, hj⟩
    · rintro ⟨hne, j, rfl, c, hc, hj⟩
      exact ⟨j, rfl, c, hstays (fun heq => hne (congrArg _ heq)) hc hj, hj⟩
  · have hpage : p ∈ (⟨i, 0⟩ : Block) ↔ s.allocator.blockAddr p = s.allocator.blockAddr i :=
      Block.mem_single.trans ⟨congrArg _, fun heq => blockAddr_injective heq⟩
    rw [hpages, hpage]
  · obtain ⟨j, rfl, c, hc, hj⟩ := hq
    obtain ⟨hlow, hidx⟩ := hx.blockIndex_eq
    exact hwords c (hstays (fun heq => hne (congrArg _ heq)) hc hj) x hlow (hidx ▸ hj)

theorem read_zeroPage_of_inPage (hx : InPage page x) : (s.zeroPage page).read x = 0 := if_pos hx

theorem read_zeroPage_of_not_inPage (hx : ¬ InPage page x) :
    (s.zeroPage page).read x = s.read x := if_neg hx

/-- The holder of a page may write its words. -/
theorem Sound.writeTaken (h : s.Sound) (hpage : s.Taken page) (hx : InPage page x) :
    (s.write x value).Sound := by
  obtain ⟨free, dead, hheld, hbase⟩ := h
  exact ⟨free, dead, hheld.store (hpage.holds hx), hbase⟩

theorem Sound.write (h : s.Sound) (hpage : s.HasPage page) (hx : InPage page x) :
    (s.write x value).Sound := h.writeTaken hpage.taken hx

/-- Going from `s` to `t` took no page and released none. -/
structure KeepsPages (s t : Usage) : Prop where
  region : SameRegion s.allocator t.allocator
  live : t.live = s.live
  free : ∀ p, FreePage t.allocator p ↔ FreePage s.allocator p

theorem KeepsPages.refl (s : Usage) : KeepsPages s s :=
  ⟨.refl _, rfl, fun _ => Iff.rfl⟩

theorem KeepsPages.trans {u : Usage} (h : KeepsPages s t) (h' : KeepsPages t u) : KeepsPages s u :=
  ⟨h.region.trans h'.region, h'.live.trans h.live, fun p => (h'.free p).trans (h.free p)⟩

/-- The lists run through no page that is held. -/
theorem Sound.keepsPages_write (h : s.Sound) (hpage : s.HasPage page) (hx : InPage page x)
    (value : Nat) : KeepsPages s (s.write x value) := by
  obtain ⟨free, dead, hheld, -⟩ := h
  have hshape : Shape (s.write x value).allocator free _ := (hheld.store (hpage.holds hx)).shape
  exact ⟨⟨rfl, rfl, rfl⟩, rfl, fun p => hshape.freePage_iff.trans hheld.shape.freePage_iff.symm⟩

theorem Sound.zeroPage (h : s.Sound) (hpage : s.HasPage page) : (s.zeroPage page).Sound := by
  obtain ⟨free, dead, hheld, hbase⟩ := h
  refine ⟨free, dead, hheld.withRam fun x hx => if_neg fun hin => hx (hpage.holds hin), hbase⟩

/-- A page that was just taken may be cleared. -/
theorem Takes.zeroed (h : Takes s t page) : Takes s (t.zeroPage page) page where
  sound := h.sound.zeroPage ((h.pages page).mpr (.inl rfl))
  region := h.region
  unused := h.unused
  pages := h.pages
  taken := h.taken
  frame q x hq hx := by
    rw [read_zeroPage_of_not_inPage, h.frame q x hq hx]
    intro hin
    have hpage : t.Taken page := (h.taken page).mpr (.inl rfl)
    have hq' : t.Taken q := (h.taken q).mpr (.inr hq)
    exact h.unused (hpage.eq_of_inPage hq' hin hx ▸ hq)

/-- Allocating a cleared page is allocating a page and clearing it. -/
theorem allocPagesZeroed_zero (s : Usage) :
    s.allocPagesZeroed 0 = (s.allocPages 0).map fun r => (r.1, r.1.elim r.2 r.2.zeroPage) := by
  rw [allocPagesZeroed]
  rcases s.allocPages 0 with _ | ⟨_ | page, t⟩
  · rfl
  · rfl
  · simp

/-- `allocPagesZeroed` of a single page finds none and changes nothing, or takes one and clears
it. -/
theorem Sound.allocPagesZeroed (h : s.Sound) :
    s.allocPagesZeroed 0 = some (none, s) ∨
      ∃ page t, s.allocPagesZeroed 0 = some (some page, t) ∧ Takes s t page ∧
        ∀ x, InPage page x → t.read x = 0 := by
  rw [allocPagesZeroed_zero]
  rcases h.allocPages with hnone | ⟨page, t, hsome, htakes⟩
  · exact .inl (by simp [hnone])
  · exact .inr ⟨page, t.zeroPage page, by simp [hsome], htakes.zeroed,
      fun x hx => read_zeroPage_of_inPage hx⟩

end Usage

end Ignium.Mem
