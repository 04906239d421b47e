import Ignium.Mmu.Refinement

/-!
# Teardown is exact

The machine of `Ignium.Mmu.Refinement` with everything else that happens to the memory of address
spaces: blocks of any size are allocated, written and released by the rest of the kernel, and
address spaces are destroyed. `destroyRoot` tells its own pages from others by the bits of the
entries alone. That is exact for an address space whose user leaves map different single pages
that are held and are no tables (`Exclusive`): `always_exact` says that in every reachable state
`destroyRoot` then returns, and that it releases the tables of the address space and the pages it
maps for user code, each once, and nothing else.

The leaves of large pages and of the kernel image are no user leaves, so they do not count, and a
device page lies outside the region of the allocator.
-/

namespace Ignium.Mmu

open Mem
open Usage (InPage)

/-- What happens to the memory: the calls on address spaces, blocks that the rest of the kernel
takes, writes and gives back, and the end of an address space. -/
inductive MemoryOp where
  | table (op : TableOp)
  | alloc (order : Nat)
  | free (addr : Nat)
  | store (addr value : Nat)
  | destroy (root : Nat)
  deriving DecidableEq

namespace Spaces

/-- One operation. -/
def evolve (b : Board) (s : Spaces) : MemoryOp → Option Spaces
  | .table op => (s.call b op).discard
  | .alloc order => (s.mem.allocPages order).map fun r => { s with mem := r.2 }
  | .free addr => (s.mem.freePages addr).discard.map fun m => { s with mem := m }
  | .store addr value => some { s with mem := s.mem.write addr value }
  | .destroy root => (destroyRoot s.mem root).map fun m => ⟨m, s.roots.filter (· ≠ root)⟩

/-- A page is a table of an address space. -/
def IsTable (s : Spaces) (page : Nat) : Prop := ∃ r ∈ s.roots, ∃ path, TableAt s.mem r path page

/-- An address is mapped for user code to a page of the allocator. -/
def Maps (s : Spaces) (root va page : Nat) : Prop :=
  User (s.entry root va) ∧ s.mem.pageInRange (ptePaddr (s.entry root va)) = true ∧
    ptePaddr (s.entry root va) = page

/-- The user leaves of an address space map single pages that are held, that are no tables, and
that no other user leaf of it maps. -/
structure Exclusive (s : Spaces) (root : Nat) : Prop where
  held : ∀ va page, s.Maps root va page → s.mem.HasPage page ∧ ¬ s.IsTable page
  once : ∀ va < 2 ^ 39, ∀ va' < 2 ^ 39, ∀ page, s.Maps root va page → s.Maps root va' page →
    va / pageSize = va' / pageSize

/-- The calls name address spaces that were made, the rest of the kernel uses the blocks it holds
and leaves tables alone, and an address space is destroyed only if it owns what it maps. -/
def Respects (s : Spaces) : MemoryOp → Prop
  | .table .create => True
  | .table (.mapUser root _ _ _) => root ∈ s.roots
  | .table (.mapDevice root _ _ _) => root ∈ s.roots
  | .table (.unmap root _) => root ∈ s.roots
  | .alloc _ => True
  | .free addr => s.mem.IsLive addr ∧ ¬ s.IsTable addr
  | .store addr _ => s.mem.Holds addr ∧ ∀ page, s.IsTable page → ¬ InPage page addr
  | .destroy root => root ∈ s.roots ∧ s.Exclusive root

/-! ## The property -/

/-- The pages of an address space: its tables and what it maps for user code. -/
def Owns (s : Spaces) (root page : Nat) : Prop :=
  (∃ path, TableAt s.mem root path page) ∨ ∃ va, s.Maps root va page

/-- A page is free. -/
def IsFree (m : Usage) (page : Nat) : Prop :=
  ∃ p, m.allocator.blockAddr p = page ∧ FreePage m.allocator p

/-- An address space was taken down: its own pages were released, each once, they are the only
ones that became free, and the other address spaces have their tables and leaves. -/
structure TornDown (s : Spaces) (root : Nat) (m : Usage) : Prop where
  once : ∃ pages : List Nat, pages.Nodup ∧ (∀ page, page ∈ pages ↔ s.Owns root page) ∧
    freeAll s.mem pages = some m
  taken : ∀ page, s.Owns root page → ¬ IsFree s.mem page
  free : ∀ page, IsFree m page ↔ IsFree s.mem page ∨ s.Owns root page
  others : ∀ r ∈ s.roots, r ≠ root →
    (∀ path page, TableAt s.mem r path page → TableAt m r path page) ∧
      ∀ va, leafPte m r va = s.entry r va

/-- Destroying an address space that owns what it maps returns and is exact. -/
def Exact (s : Spaces) : Prop :=
  ∀ root ∈ s.roots, s.Exclusive root →
    ∃ m, destroyRoot s.mem root = some m ∧ s.TornDown root m

/-! ## Tables and places -/

variable {s s' : Spaces} {b : Board} {V : View} {place : Nat → Option Place} {root page : Nat}

theorem tableAt_of_place {m : Usage} {path : List Nat} (h : Sees m place V)
    (hplace : place page = some ⟨root, path⟩) : TableAt m root path page := by
  induction path generalizing page with
  | nil =>
    obtain rfl := h.tables.top hplace
    exact .top
  | cons i path ih =>
    obtain ⟨hi, parent, hparent, hvalid, hleaf, rfl⟩ := h.tables.up hplace
    exact .down (ih hparent) (h.tables.depth hplace) hi hvalid hleaf

theorem tableAt_iff {path : List Nat} (h : Sees s.mem place V) (hroot : V.root root) :
    TableAt s.mem root path page ↔ place page = some ⟨root, path⟩ :=
  ⟨place_of_tableAt h hroot, tableAt_of_place h⟩

theorem isTable_iff (h : Sees s.mem place V) (hroots : ∀ r, V.root r ↔ r ∈ s.roots) :
    s.IsTable page ↔ (place page).isSome := by
  constructor
  · rintro ⟨r, hr, path, htable⟩
    rw [place_of_tableAt h ((hroots r).mpr hr) htable]
    rfl
  · intro hsome
    obtain ⟨⟨r, path⟩, hplace⟩ := Option.isSome_iff_exists.mp hsome
    have hr : V.root r := h.roots.mpr (h.tables.root_place hplace)
    exact ⟨r, (hroots r).mp hr, path, tableAt_of_place h hplace⟩

theorem maps_iff {va : Nat} (h : Sees s.mem place V) (hroot : V.root root) :
    s.Maps root va page ↔ V.MapsPage root (vpn va) page := by
  rw [Maps, View.MapsPage, entry, h.leaves hroot, h.range]

theorem owns_iff (h : Sees s.mem place V) (hroot : V.root root) :
    s.Owns root page ↔ page ∈ ownPages s.mem root := by
  rw [h.mem_ownPages hroot, Owns]
  exact or_congr (exists_congr fun path => tableAt_iff h hroot) (exists_congr fun va => maps_iff h hroot)

/-! ## Destroying an address space -/

section Destroy

variable (h : Sees s.mem place V) (hroots : ∀ r, V.root r ↔ r ∈ s.roots) (hroot : root ∈ s.roots)
  (hown : s.Exclusive root)

include h hroots hroot hown

/-- The pages that an address space maps are held for other uses than tables. -/
theorem data_of_mapsPage (va page : Nat) (hmaps : V.MapsPage root (vpn va) page) : V.data page := by
  obtain ⟨hhas, htable⟩ := hown.held va page ((maps_iff h ((hroots root).mpr hroot)).mpr hmaps)
  rw [isTable_iff h hroots, Option.not_isSome_iff_eq_none] at htable
  exact h.data.mpr ⟨hhas, htable⟩

/-- Different virtual pages map different pages. -/
theorem vpn_eq_of_mapsPage (va va' page : Nat) (hmaps : V.MapsPage root (vpn va) page)
    (hmaps' : V.MapsPage root (vpn va') page) : vpn va = vpn va' := by
  have hr := (hroots root).mpr hroot
  -- The tables see the lower 39 bits of an address.
  have hlow : ∀ va, vpn (va % 2 ^ 39) = vpn va := by
    intro va
    simp only [vpn, l2Index_eq, l1Index_eq, l0Index_eq, Prod.mk.injEq]
    omega
  rw [← hlow va] at hmaps ⊢
  rw [← hlow va'] at hmaps' ⊢
  have hlt : va % 2 ^ 39 < 2 ^ 39 := Nat.mod_lt _ (by decide)
  have hlt' : va' % 2 ^ 39 < 2 ^ 39 := Nat.mod_lt _ (by decide)
  exact (vpn_eq_iff hlt' hlt).mpr
    (hown.once _ hlt _ hlt' page ((maps_iff h hr).mpr hmaps) ((maps_iff h hr).mpr hmaps'))

/-- What an address space owns is held. -/
theorem hasPage_of_owns (howns : s.Owns root page) : s.mem.HasPage page := by
  rcases howns with ⟨path, htable⟩ | ⟨va, hmaps⟩
  · exact h.tables.held (place_of_tableAt h ((hroots root).mpr hroot) htable)
  · exact (hown.held va page hmaps).1

/-- A page that is held is not free. -/
theorem not_isFree (howns : s.Owns root page) : ¬ IsFree s.mem page := by
  obtain ⟨i, rfl, hi⟩ := hasPage_of_owns h hroots hroot hown howns
  obtain ⟨free, dead, hheld, -⟩ := h.sound
  rintro ⟨p, hp, hfree⟩
  obtain rfl := BuddyAllocator.blockAddr_injective hp
  have hpos := hheld.shape.freePage_iff.mp hfree
  have hlive : 0 < Blocks.cover s.mem.live p :=
    Blocks.cover_pos_iff.mpr ⟨_, hi, Blocks.Block.idx_mem _⟩
  have hle := hheld.shape.tiling.cover_le_one p
  simp only [Blocks.cover_append] at hle
  omega

theorem exact_of_sees : ∃ m, destroyRoot s.mem root = some m ∧ s.TornDown root m ∧
    Sees m (fun q => (place q).filter fun spot => spot.root ≠ root) (V.dropRoot root) := by
  have hr := (hroots root).mpr hroot
  have hdata := data_of_mapsPage h hroots hroot hown
  have hinj := vpn_eq_of_mapsPage h hroots hroot hown
  have hnodup := h.nodup_ownPages hr hdata hinj
  have hheld : ∀ p ∈ ownPages s.mem root, s.mem.HasPage p := fun p hp =>
    hasPage_of_owns h hroots hroot hown ((owns_iff h hr).mpr hp)
  obtain ⟨m, hfree, hfreed⟩ := freeAll_freed h.sound hnodup hheld
  obtain ⟨m', hdestroy, hsees⟩ := h.destroyRoot hr hdata hinj
  obtain rfl : m' = m := by
    rw [destroyRoot_eq h.sound hnodup hheld, hfree] at hdestroy
    exact (Option.some.inj hdestroy).symm
  refine ⟨m', hdestroy, ⟨⟨_, hnodup, fun p => (owns_iff h hr).symm, hfree⟩,
    fun p hp => not_isFree h hroots hroot hown hp, fun page => ?_, fun r hmem hne => ⟨?_, ?_⟩⟩, hsees⟩
  · rw [owns_iff h hr]
    constructor
    · rintro ⟨p, rfl, hp⟩
      rw [hfreed.region.blockAddr_eq]
      exact ((hfreed.free p).mp hp).imp_left fun hp => ⟨p, rfl, hp⟩
    · rintro (⟨p, rfl, hp⟩ | hmem)
      · exact ⟨p, hfreed.region.blockAddr_eq, (hfreed.free p).mpr (.inl hp)⟩
      · obtain ⟨i, rfl, -⟩ := hheld page hmem
        exact ⟨i, hfreed.region.blockAddr_eq, (hfreed.free i).mpr (.inr hmem)⟩
  · intro path page htable
    have hplace := place_of_tableAt h ((hroots r).mpr hmem) htable
    exact tableAt_of_place hsees (by rw [hplace]; simp [hne])
  · intro va
    have hroot' : (V.dropRoot root).root r := ⟨hne, (hroots r).mpr hmem⟩
    rw [hsees.leaves hroot', entry, h.leaves ((hroots r).mpr hmem)]
    rfl

end Destroy

/-! ## Every reachable state -/

/-- What leaves the tables alone leaves the address spaces alone. -/
theorem Sound.withMem {m : Usage} (h : s.Sound) (hsound : m.Sound)
    (hregion : BuddyAllocator.SameRegion s.mem.allocator m.allocator)
    (hheld : ∀ q, s.IsTable q → s.mem.HasPage q → m.HasPage q)
    (hwords : ∀ q x, s.IsTable q → s.mem.HasPage q → InPage q x → m.read x = s.mem.read x) :
    ({ s with mem := m } : Spaces).Sound := by
  obtain ⟨place, V, hsees, hroots⟩ := h
  have hhas : ∀ q, (place q).isSome → s.mem.HasPage q := by
    intro q hq
    obtain ⟨spot, hspot⟩ := Option.isSome_iff_exists.mp hq
    exact hsees.tables.held hspot
  let W : View := { V with data := fun p => m.HasPage p ∧ place p = none, word := fun _ => m.read }
  have hW : Sees m place W := hsees.change hsound hregion
    (fun q hq => hheld q ((isTable_iff hsees hroots).mpr hq) (hhas q hq))
    (fun q x hq hx => hwords q x ((isTable_iff hsees hroots).mpr hq) (hhas q hq) hx)
    Iff.rfl (fun _ _ => rfl) rfl rfl rfl
  exact ⟨place, W, hW, hroots⟩

/-- Mapping a page, whatever the flags. -/
theorem Sound.mapUserLeaf {va paddr flags : Nat} {r : Except Unit Unit} {m : Usage} (h : s.Sound)
    (hroot : root ∈ s.roots) (hmap : Mmu.mapUserLeaf s.mem root va paddr flags = some (r, m)) :
    ({ s with mem := m } : Spaces).Sound := by
  obtain ⟨place, V, hsees, hroots⟩ := h
  obtain ⟨m', place', ⟨hdone, h'⟩ | ⟨hdone, -, h'⟩⟩ :=
    hsees.mapUserLeaf_cases ((hroots root).mpr hroot)
  · rw [hdone] at hmap
    cases hmap
    exact ⟨place', V, h', hroots⟩
  · rw [hdone] at hmap
    cases hmap
    exact ⟨place', _, h', hroots⟩

/-- Taking a mapping away, whatever the address. -/
theorem Sound.unmap4k {va : Nat} {r : Except Unit Unit} {m : Usage} (h : s.Sound)
    (hroot : root ∈ s.roots) (hunmap : Mmu.unmap4k s.mem root va = some (r, m)) :
    ({ s with mem := m } : Spaces).Sound := by
  have hsame := h
  obtain ⟨place, V, hsees, hroots⟩ := h
  obtain ⟨hdone, -⟩ | ⟨m', hdone, -, h'⟩ := hsees.unmap4k ((hroots root).mpr hroot) va
  · rw [hdone] at hunmap
    cases hunmap
    exact hsame
  · rw [hdone] at hunmap
    cases hunmap
    exact ⟨place, _, h', hroots⟩

theorem Sound.tableOp {op : TableOp} (h : s.Sound) (hop : s.Respects (.table op))
    (hstep : (s.call b op).discard = some s') : s'.Sound := by
  obtain ⟨r, hcall⟩ := Outcome.discard_eq_some hstep
  cases op with
  | create =>
    have hadmits : s.Admits .create := trivial
    exact (h.call hadmits hcall).2
  | mapUser root va paddr flags =>
    obtain ⟨⟨result, m⟩, hmap, ⟨⟩⟩ := Option.map_eq_some_iff.mp hcall
    unfold mapUserPage at hmap
    split at hmap
    · cases hmap
      exact h
    split at hmap
    · cases hmap
      exact h
    split at hmap
    · cases hmap
      exact h
    exact h.mapUserLeaf hop hmap
  | mapDevice root va paddr flags =>
    obtain ⟨⟨result, m⟩, hmap, ⟨⟩⟩ := Option.map_eq_some_iff.mp hcall
    unfold mapDevicePage at hmap
    split at hmap
    · cases hmap
      exact h
    exact h.mapUserLeaf hop hmap
  | unmap root va =>
    obtain ⟨⟨result, m⟩, hunmap, ⟨⟩⟩ := Option.map_eq_some_iff.mp hcall
    exact h.unmap4k hop hunmap

theorem Sound.mem (h : s.Sound) : s.mem.Sound := by
  obtain ⟨place, V, hsees, -⟩ := h
  exact hsees.sound

/-- Every operation that respects the address spaces keeps them. -/
theorem Sound.evolve {op : MemoryOp} (h : s.Sound) (hop : s.Respects op)
    (hstep : s.evolve b op = some s') : s'.Sound := by
  cases op with
  | table op => exact h.tableOp hop hstep
  | alloc order =>
    obtain ⟨⟨found, m⟩, halloc, rfl⟩ := Option.map_eq_some_iff.mp hstep
    rcases h.mem.allocBlock order with hnone | ⟨i, t, hsome, hsound, hregion, hlive, -, hwords⟩
    · rw [hnone] at halloc
      cases halloc
      exact h
    · rw [hsome] at halloc
      cases halloc
      refine h.withMem hsound hregion (fun q _ hq => ?_) fun q x _ hq hx => hwords x (hq.holds hx)
      obtain ⟨j, rfl, hj⟩ := hq
      exact ⟨j, hregion.blockAddr_eq.symm, by simp [hlive, hj]⟩
  | free addr =>
    obtain ⟨⟨c, hc, rfl⟩, htable⟩ := hop
    obtain ⟨t, hfree, hsound, hregion, hlive, -, hwords⟩ := h.mem.freeBlock hc
    rw [Spaces.evolve, hfree] at hstep
    cases hstep
    have hkept : ∀ {j}, s.IsTable (s.mem.allocator.blockAddr j) → (⟨j, 0⟩ : Blocks.Block) ∈ s.mem.live →
        (⟨j, 0⟩ : Blocks.Block) ∈ t.live := by
      intro j hj hmem
      refine (hlive _).mpr ⟨?_, hmem⟩
      rintro rfl
      exact htable hj
    refine h.withMem hsound hregion (fun q hq hhas => ?_) fun q x hq hhas hx => ?_
    · obtain ⟨j, rfl, hj⟩ := hhas
      exact ⟨j, hregion.blockAddr_eq.symm, hkept hq hj⟩
    · obtain ⟨j, rfl, hj⟩ := hhas
      obtain ⟨hlow, hidx⟩ := hx.blockIndex_eq
      exact hwords _ (hkept hq hj) x hlow (hidx ▸ Blocks.Block.idx_mem _)
  | store addr value =>
    obtain ⟨hholds, htable⟩ := hop
    cases hstep
    obtain ⟨free, dead, hheld, hbase⟩ := h.mem
    refine h.withMem ⟨free, dead, hheld.store hholds, hbase⟩ (BuddyAllocator.SameRegion.refl _)
      (fun _ _ hhas => hhas) fun q x hq _ hx => Function.update_of_ne ?_ _ _
    rintro rfl
    exact htable q hq hx
  | destroy root =>
    obtain ⟨hroot, hown⟩ := hop
    obtain ⟨place, V, hsees, hroots⟩ := h
    obtain ⟨m, hdestroy, -, hsees'⟩ := exact_of_sees hsees hroots hroot hown
    rw [Spaces.evolve, hdestroy] at hstep
    cases hstep
    refine ⟨_, _, hsees', fun r => ?_⟩
    change r ≠ root ∧ V.root r ↔ _
    simp [hroots, and_comm]

/-- In every reachable state, destroying an address space that owns what it maps is exact. -/
theorem always_exact {base count : Nat} (h : Region base count) (b : Board) (ram : Nat → Nat)
    (reserved : List (Nat × Nat)) (ops : List MemoryOp)
    (hops : Machine.Each (evolve b) (start (Usage.start ram base count reserved)) ops Respects) :
    Machine.Always (evolve b) (start (Usage.start ram base count reserved)) ops Exact := by
  have hstart : Sound (start (Usage.start ram base count reserved)) :=
    ⟨_, _, h.sees ram reserved, fun r => by simp [View.bare, start]⟩
  have halways : Machine.Always (evolve b) (start (Usage.start ram base count reserved)) ops Sound :=
    Machine.always_of_each hstart (fun _ _ _ hs hstep hop => hs.evolve hop hstep) hops
  intro first rest s hsplit hrun root hroot hown
  obtain ⟨place, V, hsees, hroots⟩ := halways first rest s hsplit hrun
  obtain ⟨m, hdestroy, htorn, -⟩ := exact_of_sees hsees hroots hroot hown
  exact ⟨m, hdestroy, htorn⟩

set_option maxRecDepth 100000 in
/-- An address space on the small board that maps a page of its own and the device, next to a
larger block. -/
theorem always_exact_small :
    Region 0x80300000 32 ∧
      (Machine.run (evolve Kernel.smallBoard) (start Kernel.smallMem)
        [.table .create, .alloc 0, .table (.mapUser 0x80300000 0x1000 0x80304000 pteLeafRw),
          .table (.mapDevice 0x80300000 0x2000 0x10000000 pteLeafRw), .alloc 2]).isSome = true ∧
      Machine.Always (evolve Kernel.smallBoard) (start Kernel.smallMem)
        [.table .create, .alloc 0, .table (.mapUser 0x80300000 0x1000 0x80304000 pteLeafRw),
          .table (.mapDevice 0x80300000 0x2000 0x10000000 pteLeafRw), .alloc 2] Exact := by
  have hregion : Region 0x80300000 32 := ⟨by decide, by decide, by decide⟩
  have hfirst : ∀ s ∈ Machine.run (evolve Kernel.smallBoard) (start Kernel.smallMem)
      [.table .create, .alloc 0], 0x80300000 ∈ s.roots := by decide +kernel
  have hsecond : ∀ s ∈ Machine.run (evolve Kernel.smallBoard) (start Kernel.smallMem)
      [.table .create, .alloc 0, .table (.mapUser 0x80300000 0x1000 0x80304000 pteLeafRw)],
      0x80300000 ∈ s.roots := by decide +kernel
  refine ⟨hregion, by decide +kernel, always_exact hregion Kernel.smallBoard _ _ _ ?_⟩
  refine Machine.Reached.each (?_ : Machine.Reached _ (start Kernel.smallMem) _ _)
  refine Machine.reached_cons trivial fun s hs => Machine.reached_cons trivial fun t ht =>
    Machine.reached_cons (hfirst t (by simp [hs, ht])) fun u hu =>
      Machine.reached_cons (hsecond u (by simp [hs, ht, hu])) fun _ _ =>
        Machine.reached_cons trivial fun _ _ => Machine.reached_nil

end Spaces

end Ignium.Mmu
