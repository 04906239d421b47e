import Ignium.Mmu.Spaces

/-!
# Releasing an address space

`destroyRoot` walks the tables of a root while it releases them. `ownPages` lists the pages in the
order in which the walk releases them, read from the memory before the walk: a table is listed
after everything below it, so the walk reads only tables it has not released yet, and it releases
exactly this list (`destroyRoot_eq`). When the user leaves of the root map different pages that
are held, the list has no page twice, the walk does not panic, and the address space is gone with
the pages it mapped (`Sees.destroyRoot`).
-/

namespace Ignium.Mmu

open Mem
open Usage (InPage Takes Gives)

/-! ## Releasing a list of pages -/

/-- Release pages in order. -/
def freeAll (m : Usage) (pages : List Nat) : Option Usage :=
  pages.foldlM (fun m page => (m.freePages page).expect) m

theorem freeAll_append (m : Usage) (first second : List Nat) :
    freeAll m (first ++ second) = (freeAll m first).bind fun m => freeAll m second := by
  unfold freeAll
  rw [List.foldlM_append]
  rfl

theorem freeAll_singleton (m : Usage) (page : Nat) :
    freeAll m [page] = (m.freePages page).expect := by
  unfold freeAll
  simp

/-- Pages were released, and no word of another page that is held changed. -/
structure Freed (m m' : Usage) (done : List Nat) : Prop where
  sound : m'.Sound
  region : BuddyAllocator.SameRegion m.allocator m'.allocator
  pages : ∀ q, m'.HasPage q ↔ q ∉ done ∧ m.HasPage q
  free : ∀ p, FreePage m'.allocator p ↔
    FreePage m.allocator p ∨ m.allocator.blockAddr p ∈ done
  words : ∀ q x, q ∉ done → m.HasPage q → InPage q x → m'.read x = m.read x

/-- Pages that are held and listed once can be released. -/
theorem freeAll_freed {m : Usage} {pages : List Nat} (h : m.Sound) (hnodup : pages.Nodup)
    (hheld : ∀ p ∈ pages, m.HasPage p) : ∃ m', freeAll m pages = some m' ∧ Freed m m' pages := by
  induction pages generalizing m with
  | nil =>
    exact ⟨m, rfl, h, BuddyAllocator.SameRegion.refl _, fun q => by simp, fun p => by simp,
      fun _ _ _ _ _ => rfl⟩
  | cons page pages ih =>
    obtain ⟨hpage, hnodup⟩ := List.nodup_cons.mp hnodup
    obtain ⟨m₁, hfree, hgives⟩ := h.freePages (hheld page (by simp))
    have hheld₁ : ∀ p ∈ pages, m₁.HasPage p := fun p hp =>
      (hgives.pages p).mpr ⟨fun heq => hpage (heq ▸ hp), hheld p (by simp [hp])⟩
    obtain ⟨m', hrest, hfreed⟩ := ih hgives.sound hnodup hheld₁
    refine ⟨m', ?_, hfreed.sound, hgives.region.trans hfreed.region, fun q => ?_, fun p => ?_,
      fun q x hq hhas hx => ?_⟩
    · change freeAll m ([page] ++ pages) = some m'
      rw [freeAll_append, freeAll_singleton, hfree]
      exact hrest
    · rw [hfreed.pages, hgives.pages, List.mem_cons]
      tauto
    · rw [hfreed.free, hgives.free, hgives.region.blockAddr_eq, List.mem_cons, or_assoc]
    · rw [List.mem_cons, not_or] at hq
      obtain ⟨hne, hq⟩ := hq
      rw [hfreed.words q x hq ((hgives.pages q).mpr ⟨hne, hhas⟩) hx, hgives.words q x hne hhas hx]

/-- The state of a walk that has released `done` and will release `pages`. -/
structure Pending (m₀ m : Usage) (done pages : List Nat) : Prop where
  freed : Freed m₀ m done
  nodup : (done ++ pages).Nodup
  held : ∀ p ∈ pages, m₀.HasPage p

namespace Pending

variable {m₀ m : Usage} {done first second rest : List Nat} {table i : Nat}

/-- The next pages can be released. -/
theorem step (h : Pending m₀ m done (first ++ rest)) :
    ∃ m', freeAll m first = some m' ∧ Pending m₀ m' (done ++ first) rest := by
  have hnodup := h.nodup
  rw [← List.append_assoc] at hnodup
  obtain ⟨hfirst, -, -⟩ := List.nodup_append.mp hnodup
  obtain ⟨-, hfirst', hdisjoint⟩ := List.nodup_append.mp hfirst
  have hheld : ∀ p ∈ first, m.HasPage p := fun p hp =>
    (h.freed.pages p).mpr ⟨fun hdone => hdisjoint p hdone p hp rfl, h.held p (by simp [hp])⟩
  obtain ⟨m', hfree, hfreed⟩ := freeAll_freed h.freed.sound hfirst' hheld
  refine ⟨m', hfree, ⟨hfreed.sound, h.freed.region.trans hfreed.region, fun q => ?_, fun p => ?_,
    fun q x hq hhas hx => ?_⟩, hnodup, fun p hp => h.held p (by simp [hp])⟩
  · rw [hfreed.pages, h.freed.pages, List.mem_append]
    tauto
  · rw [hfreed.free, h.freed.free, h.freed.region.blockAddr_eq, List.mem_append, or_assoc]
  · rw [List.mem_append, not_or] at hq
    rw [hfreed.words q x hq.2 ((h.freed.pages q).mpr ⟨hq.1, hhas⟩) hx,
      h.freed.words q x hq.1 hhas hx]

theorem assoc (h : Pending m₀ m done ((first ++ second) ++ rest)) :
    Pending m₀ m done (first ++ (second ++ rest)) := by
  rwa [← List.append_assoc]

/-- A table that is still to be released reads as at the start. -/
theorem read (h : Pending m₀ m done rest) (htable : table ∈ rest) (hi : i < 512) :
    pteRead m table i = pteRead m₀ table i := by
  obtain ⟨-, -, hdisjoint⟩ := List.nodup_append.mp h.nodup
  exact h.freed.words table _ (fun hdone => hdisjoint table hdone table htable rfl)
    (h.held table htable) (inPage_entry hi)

theorem pageInRange (h : Pending m₀ m done rest) : m.pageInRange = m₀.pageInRange :=
  Usage.pageInRange_congr h.freed.region

/-- A loop whose rounds release one piece each releases all pieces. -/
theorem loop {body : Usage → Nat → Option Usage} {piece : Nat → List Nat} {items : List Nat}
    (h : Pending m₀ m done (items.flatMap piece ++ rest))
    (hbody : ∀ i ∈ items, ∀ m done rest', Pending m₀ m done (piece i ++ rest') →
      (∀ p ∈ rest, p ∈ rest') → body m i = freeAll m (piece i)) :
    items.foldlM body m = freeAll m (items.flatMap piece) := by
  induction items generalizing m done with
  | nil => rfl
  | cons i items ih =>
    rw [List.flatMap_cons] at h ⊢
    have hfirst := h.assoc
    obtain ⟨m', hfree, hrest⟩ := hfirst.step
    rw [List.foldlM_cons, freeAll_append,
      hbody i (by simp) m done _ hfirst fun p hp => by simp [hp], hfree]
    exact ih hrest fun j hj => hbody j (by simp [hj])

end Pending

/-! ## What the walk releases -/

/-- The page behind an entry of a level-0 table. -/
def leafPages (m : Usage) (l0Pa l0 : Nat) : List Nat :=
  let e0 := pteRead m l0Pa l0
  if Valid e0 ∧ User e0 ∧ m.pageInRange (ptePaddr e0) then [ptePaddr e0] else []

/-- The pages behind an entry of a level-1 table, with the table it points to. -/
def lowPages (m : Usage) (l1Pa l1 : Nat) : List Nat :=
  let e1 := pteRead m l1Pa l1
  if Valid e1 ∧ ¬ Leaf e1 then
    (List.range 512).flatMap (leafPages m (ptePaddr e1)) ++ [ptePaddr e1]
  else []

/-- The pages behind an entry of a root, with the tables on the way. -/
def midPages (m : Usage) (root l2 : Nat) : List Nat :=
  let e2 := pteRead m root l2
  if Valid e2 ∧ ¬ Leaf e2 then
    (List.range 512).flatMap (lowPages m (ptePaddr e2)) ++ [ptePaddr e2]
  else []

/-- All pages of an address space. -/
def ownPages (m : Usage) (root : Nat) : List Nat :=
  (List.range 512).flatMap (midPages m root) ++ [root]

section Walk

variable {m₀ m : Usage} {done rest : List Nat} {table i : Nat}

theorem destroyLeaf_eq (h : Pending m₀ m done (leafPages m₀ table i ++ rest))
    (htable : table ∈ rest) (hi : i < 512) :
    destroyLeaf table m i = freeAll m (leafPages m₀ table i) := by
  have hread := h.read (List.mem_append_right _ htable) hi
  unfold destroyLeaf leafPages
  dsimp only
  rw [hread, h.pageInRange]
  by_cases hvalid : Valid (pteRead m₀ table i)
  swap
  · rw [if_pos hvalid, if_neg fun hall => hvalid hall.1]
    rfl
  rw [if_neg (not_not.mpr hvalid)]
  by_cases huser : User (pteRead m₀ table i)
  swap
  · rw [if_neg huser, if_neg fun hall => huser hall.2.1]
    rfl
  rw [if_pos huser]
  by_cases hrange : m₀.pageInRange (ptePaddr (pteRead m₀ table i))
  · rw [if_pos hrange, if_pos ⟨hvalid, huser, hrange⟩, freeAll_singleton]
  · rw [if_neg hrange, if_neg fun hall => hrange hall.2.2]
    rfl

theorem destroyLow_eq (h : Pending m₀ m done (lowPages m₀ table i ++ rest))
    (htable : table ∈ rest) (hi : i < 512) :
    destroyLow table m i = freeAll m (lowPages m₀ table i) := by
  have hread := h.read (List.mem_append_right _ htable) hi
  unfold destroyLow
  unfold lowPages at h ⊢
  dsimp only at h ⊢
  rw [hread]
  by_cases hvalid : Valid (pteRead m₀ table i)
  swap
  · rw [if_pos hvalid, if_neg fun hall => hvalid hall.1]
    rfl
  rw [if_neg (not_not.mpr hvalid)]
  by_cases hleaf : Leaf (pteRead m₀ table i)
  · rw [if_pos hleaf, if_neg fun hall => hall.2 hleaf]
    rfl
  rw [if_neg hleaf, if_pos ⟨hvalid, hleaf⟩, freeAll_append]
  rw [if_pos ⟨hvalid, hleaf⟩] at h
  rw [h.assoc.loop fun k hk m done rest' hpending hrest =>
    destroyLeaf_eq hpending (hrest _ (by simp)) (List.mem_range.mp hk)]
  simp only [freeAll_singleton]
  rfl

theorem destroyMid_eq (h : Pending m₀ m done (midPages m₀ table i ++ rest))
    (htable : table ∈ rest) (hi : i < 512) :
    destroyMid table m i = freeAll m (midPages m₀ table i) := by
  have hread := h.read (List.mem_append_right _ htable) hi
  unfold destroyMid
  unfold midPages at h ⊢
  dsimp only at h ⊢
  rw [hread]
  by_cases hvalid : Valid (pteRead m₀ table i)
  swap
  · rw [if_pos hvalid, if_neg fun hall => hvalid hall.1]
    rfl
  rw [if_neg (not_not.mpr hvalid)]
  by_cases hleaf : Leaf (pteRead m₀ table i)
  · rw [if_pos hleaf, if_neg fun hall => hall.2 hleaf]
    rfl
  rw [if_neg hleaf, if_pos ⟨hvalid, hleaf⟩, freeAll_append]
  rw [if_pos ⟨hvalid, hleaf⟩] at h
  rw [h.assoc.loop fun k hk m done rest' hpending hrest =>
    destroyLow_eq hpending (hrest _ (by simp)) (List.mem_range.mp hk)]
  simp only [freeAll_singleton]
  rfl

/-- `destroyRoot` releases the pages of the address space in order. -/
theorem destroyRoot_eq {root : Nat} (h : m.Sound) (hnodup : (ownPages m root).Nodup)
    (hheld : ∀ p ∈ ownPages m root, m.HasPage p) :
    destroyRoot m root = freeAll m (ownPages m root) := by
  have hpending : Pending m m [] (ownPages m root) :=
    ⟨⟨h, BuddyAllocator.SameRegion.refl _, fun q => by simp, fun p => by simp, fun _ _ _ _ _ => rfl⟩,
      by simpa, hheld⟩
  unfold destroyRoot ownPages at *
  rw [freeAll_append, hpending.loop fun i hi m' done rest' hpending' hrest =>
    destroyMid_eq hpending' (hrest _ (by simp)) (List.mem_range.mp hi)]
  simp only [freeAll_singleton]
  rfl

end Walk

/-! ## The address space is gone -/

namespace View

/-- A virtual page of a root is mapped for user code to a page of the allocator. -/
def MapsPage (V : View) (root : Nat) (n : Nat × Nat × Nat) (page : Nat) : Prop :=
  User (V.leaf root n) ∧ V.inRange (ptePaddr (V.leaf root n)) = true ∧
    ptePaddr (V.leaf root n) = page

/-- Remove a root, with the pages it maps for user code. -/
def dropRoot (V : View) (root : Nat) : View :=
  { V with
    root := fun r => r ≠ root ∧ V.root r
    data := fun p => V.data p ∧ ∀ vaddr, ¬ V.MapsPage root (vpn vaddr) p }

end View

theorem l2Index_eq (vaddr : Nat) : l2Index vaddr = vaddr / 2 ^ 30 % 512 := by
  rw [l2Index, Nat.shiftRight_eq_div_pow]
  exact Nat.and_two_pow_sub_one_eq_mod _ 9

theorem l1Index_eq (vaddr : Nat) : l1Index vaddr = vaddr / 2 ^ 21 % 512 := by
  rw [l1Index, Nat.shiftRight_eq_div_pow]
  exact Nat.and_two_pow_sub_one_eq_mod _ 9

theorem l0Index_eq (vaddr : Nat) : l0Index vaddr = vaddr / 2 ^ 12 % 512 := by
  rw [l0Index, Nat.shiftRight_eq_div_pow]
  exact Nat.and_two_pow_sub_one_eq_mod _ 9

/-- All indices are those of an address. -/
theorem exists_vpn {i j k : Nat} (hi : i < 512) (hj : j < 512) (hk : k < 512) :
    ∃ vaddr, l2Index vaddr = i ∧ l1Index vaddr = j ∧ l0Index vaddr = k := by
  refine ⟨i * 2 ^ 30 + j * 2 ^ 21 + k * 2 ^ 12, ?_⟩
  simp only [l2Index_eq, l1Index_eq, l0Index_eq]
  refine ⟨?_, ?_, ?_⟩ <;> omega

/-- The tables of the other roots stay when those of one root are dropped. -/
theorem Tables.dropRoot {m : Usage} {place : Nat → Option Place} (h : Tables m place) (root : Nat) :
    Tables m fun q => (place q).filter fun spot => spot.root ≠ root := by
  have hsome : ∀ {q spot}, ((place q).filter fun spot => spot.root ≠ root) = some spot ↔
      place q = some spot ∧ spot.root ≠ root := by
    intro q spot
    simp [Option.filter_eq_some_iff]
  refine ⟨?_, ?_, ?_, ?_, ?_⟩
  · intro q spot hq
    exact h.held (hsome.mp hq).1
  · intro q r hq
    exact h.top (hsome.mp hq).1
  · intro q spot hq
    exact h.depth (hsome.mp hq).1
  · intro q spot i hq hlen hi hvalid
    obtain ⟨hq, hne⟩ := hsome.mp hq
    exact (h.down hq hlen hi hvalid).imp_right fun hdown => ⟨hdown.1, hsome.mpr ⟨hdown.2, hne⟩⟩
  · intro q r i path hq
    obtain ⟨hq, hne⟩ := hsome.mp hq
    obtain ⟨hi, parent, hparent, hentry⟩ := h.up hq
    exact ⟨hi, parent, hsome.mpr ⟨hparent, hne⟩, hentry⟩

namespace Sees

variable {m : Usage} {place : Nat → Option Place} {V : View} {root mid low i j k page : Nat}

section

variable (h : Sees m place V)
include h

/-- The leaf of a virtual page in its level-0 table. -/
theorem leaf_low (hlow : place low = some ⟨root, [j, i]⟩) (hk : k < 512) :
    V.leaf root (i, j, k) = if Valid (pteRead m low k) then pteRead m low k else 0 := by
  obtain ⟨hj, parent, hparent, -⟩ := h.tables.up hlow
  obtain ⟨hi, -⟩ := h.tables.up hparent
  obtain ⟨vaddr, rfl, rfl, rfl⟩ := exists_vpn hi hj hk
  have hroot : V.root root := h.roots.mpr (h.tables.root_place hlow)
  change V.leaf root (vpn vaddr) = _
  rw [← h.leaves hroot, h.tables.leafPte_low hlow rfl rfl]

/-- A user leaf lies in a level-0 table. -/
theorem exists_low {vaddr : Nat} (hroot : V.root root) (huser : User (V.leaf root (vpn vaddr))) :
    ∃ low, place low = some ⟨root, [l1Index vaddr, l2Index vaddr]⟩ := by
  rw [← h.leaves hroot] at huser
  unfold leafPte at huser
  dsimp only at huser
  by_cases hvalid : Valid (pteRead m root (l2Index vaddr))
  swap
  · rw [if_pos hvalid] at huser
    exact absurd huser not_user_zero
  obtain ⟨hleaf, hmid⟩ := h.tables.mid_place (h.roots.mp hroot) (l2Index_lt vaddr) hvalid
  rw [if_neg (not_not.mpr hvalid), if_neg hleaf] at huser
  by_cases hvalid' : Valid (pteRead m (ptePaddr (pteRead m root (l2Index vaddr))) (l1Index vaddr))
  swap
  · rw [if_pos hvalid'] at huser
    exact absurd huser not_user_zero
  rcases h.tables.down hmid (by simp) (l1Index_lt vaddr) hvalid' with
    ⟨hleaf', -, hplain⟩ | ⟨-, hlow⟩
  · rw [if_neg (not_not.mpr hvalid'), if_pos hleaf'] at huser
    exact absurd huser hplain
  · exact ⟨_, hlow⟩

theorem mem_leafPages (hlow : place low = some ⟨root, [j, i]⟩) (hk : k < 512) :
    page ∈ leafPages m low k ↔ V.MapsPage root (i, j, k) page := by
  rw [View.MapsPage, h.leaf_low hlow hk, leafPages, ← h.range]
  by_cases hvalid : Valid (pteRead m low k)
  · rw [if_pos hvalid]
    split
    · next hall => simp [hall.2.1, hall.2.2, eq_comm]
    · next hnot =>
      simp only [List.not_mem_nil, false_iff]
      intro hall
      exact hnot ⟨hvalid, hall.1, hall.2.1⟩
  · simp [hvalid, not_user_zero]

/-- The pages released below an entry of a level-1 table. -/
theorem mem_lowPages (hmid : place mid = some ⟨root, [i]⟩) (hj : j < 512) :
    page ∈ lowPages m mid j ↔
      place page = some ⟨root, [j, i]⟩ ∨ ∃ k < 512, V.MapsPage root (i, j, k) page := by
  have hroot : V.root root := h.roots.mpr (h.tables.root_place hmid)
  have hi := (h.tables.up hmid).1
  rw [lowPages]
  by_cases hentry : Valid (pteRead m mid j) ∧ ¬ Leaf (pteRead m mid j)
  · rw [if_pos hentry]
    obtain ⟨-, hlow⟩ := (h.tables.down hmid (by simp) hj hentry.1).resolve_left
      fun hleaf => hentry.2 hleaf.1
    rw [List.mem_append, List.mem_flatMap, List.mem_singleton, or_comm]
    refine or_congr ⟨?_, fun hpage => h.tables.place_inj hpage hlow⟩ ?_
    · rintro rfl
      exact hlow
    · simp only [List.mem_range]
      exact exists_congr fun k => and_congr_right fun hk => h.mem_leafPages hlow hk
  · rw [if_neg hentry]
    have hnone : ∀ low, place low ≠ some ⟨root, [j, i]⟩ := by
      intro low hlow
      obtain ⟨-, parent, hparent, hvalid, hleaf, -⟩ := h.tables.up hlow
      rw [h.tables.place_inj hparent hmid] at hvalid hleaf
      exact hentry ⟨hvalid, hleaf⟩
    simp only [List.not_mem_nil, false_iff, not_or, not_exists, not_and]
    refine ⟨hnone page, fun k hk hmaps => ?_⟩
    obtain ⟨vaddr, rfl, rfl, rfl⟩ := exists_vpn hi hj hk
    obtain ⟨low, hlow⟩ := h.exists_low hroot hmaps.1
    exact hnone low hlow

/-- The pages released below an entry of the root. -/
theorem mem_midPages (hroot : V.root root) (hi : i < 512) :
    page ∈ midPages m root i ↔
      place page = some ⟨root, [i]⟩ ∨ ∃ j < 512, place page = some ⟨root, [j, i]⟩ ∨
        ∃ k < 512, V.MapsPage root (i, j, k) page := by
  have hr := h.roots.mp hroot
  rw [midPages]
  by_cases hvalid : Valid (pteRead m root i)
  · obtain ⟨hleaf, hmid⟩ := h.tables.mid_place hr hi hvalid
    rw [if_pos ⟨hvalid, hleaf⟩, List.mem_append, List.mem_flatMap, List.mem_singleton, or_comm]
    refine or_congr ⟨?_, fun hpage => h.tables.place_inj hpage hmid⟩ ?_
    · rintro rfl
      exact hmid
    · simp only [List.mem_range]
      exact exists_congr fun j => and_congr_right fun hj => h.mem_lowPages hmid hj
  · rw [if_neg fun hentry => hvalid hentry.1]
    have hnone : ∀ mid, place mid ≠ some ⟨root, [i]⟩ := by
      intro mid hmid
      obtain ⟨-, parent, hparent, hvalid', -⟩ := h.tables.up hmid
      rw [h.tables.place_inj hparent hr] at hvalid'
      exact hvalid hvalid'
    have hnone' : ∀ low j, place low ≠ some ⟨root, [j, i]⟩ := by
      intro low j hlow
      obtain ⟨-, parent, hparent, -⟩ := h.tables.up hlow
      exact hnone parent hparent
    simp only [List.not_mem_nil, false_iff, not_or, not_exists, not_and]
    refine ⟨hnone page, fun j hj => ⟨hnone' page j, fun k hk hmaps => ?_⟩⟩
    obtain ⟨vaddr, rfl, rfl, rfl⟩ := exists_vpn hi hj hk
    obtain ⟨low, hlow⟩ := h.exists_low hroot hmaps.1
    exact hnone' low _ hlow

/-- The pages of an address space are its tables and the pages it maps for user code. -/
theorem mem_ownPages (hroot : V.root root) :
    page ∈ ownPages m root ↔
      (∃ path, place page = some ⟨root, path⟩) ∨ ∃ vaddr, V.MapsPage root (vpn vaddr) page := by
  rw [ownPages, List.mem_append, List.mem_singleton, List.mem_flatMap]
  simp only [List.mem_range]
  constructor
  · rintro (⟨i, hi, hpage⟩ | rfl)
    · rcases (h.mem_midPages hroot hi).mp hpage with hmid | ⟨j, hj, hlow | ⟨k, hk, hmaps⟩⟩
      · exact .inl ⟨_, hmid⟩
      · exact .inl ⟨_, hlow⟩
      · obtain ⟨vaddr, rfl, rfl, rfl⟩ := exists_vpn hi hj hk
        exact .inr ⟨vaddr, hmaps⟩
    · exact .inl ⟨[], h.roots.mp hroot⟩
  · rintro (⟨path, hpage⟩ | ⟨vaddr, hmaps⟩)
    · rcases path with _ | ⟨i, _ | ⟨i', _ | ⟨i'', path⟩⟩⟩
      · exact .inr (h.tables.top hpage).symm
      · have hi := (h.tables.up hpage).1
        exact .inl ⟨i, hi, (h.mem_midPages hroot hi).mpr (.inl hpage)⟩
      · obtain ⟨hj, parent, hparent, -⟩ := h.tables.up hpage
        have hi := (h.tables.up hparent).1
        exact .inl ⟨i', hi, (h.mem_midPages hroot hi).mpr (.inr ⟨i, hj, .inl hpage⟩)⟩
      · have hdepth := h.tables.depth hpage
        simp at hdepth
    · exact .inl ⟨l2Index vaddr, l2Index_lt vaddr, (h.mem_midPages hroot (l2Index_lt vaddr)).mpr
        (.inr ⟨l1Index vaddr, l1Index_lt vaddr, .inr ⟨l0Index vaddr, l0Index_lt vaddr, hmaps⟩⟩)⟩

end

section Destroy

variable (h : Sees m place V) (hroot : V.root root)
  (hdata : ∀ vaddr p, V.MapsPage root (vpn vaddr) p → V.data p)
  (hinj : ∀ vaddr vaddr' p, V.MapsPage root (vpn vaddr) p → V.MapsPage root (vpn vaddr') p →
    vpn vaddr = vpn vaddr')

include h hdata in
/-- A page that is mapped for user code is no table. -/
theorem place_eq_none_of_mapsPage (hi : i < 512) (hj : j < 512) (hk : k < 512)
    (hmaps : V.MapsPage root (i, j, k) page) : place page = none := by
  obtain ⟨vaddr, rfl, rfl, rfl⟩ := exists_vpn hi hj hk
  exact (h.data.mp (hdata vaddr page hmaps)).2

include hinj in
/-- No page is mapped twice. -/
theorem vpn_eq_of_mapsPage {i' j' k' : Nat} (hi : i < 512) (hj : j < 512) (hk : k < 512)
    (hi' : i' < 512) (hj' : j' < 512) (hk' : k' < 512) (hmaps : V.MapsPage root (i, j, k) page)
    (hmaps' : V.MapsPage root (i', j', k') page) : i = i' ∧ j = j' ∧ k = k' := by
  obtain ⟨vaddr, rfl, rfl, rfl⟩ := exists_vpn hi hj hk
  obtain ⟨vaddr', rfl, rfl, rfl⟩ := exists_vpn hi' hj' hk'
  simpa [vpn] using hinj vaddr vaddr' page hmaps hmaps'

include h hdata hinj

theorem nodup_lowPages (hmid : place mid = some ⟨root, [i]⟩) (hj : j < 512) :
    (lowPages m mid j).Nodup := by
  have hi := (h.tables.up hmid).1
  rw [lowPages]
  split
  swap
  · exact List.nodup_nil
  next hentry =>
    obtain ⟨-, hlow⟩ := (h.tables.down hmid (by simp) hj hentry.1).resolve_left
      fun hleaf => hentry.2 hleaf.1
    rw [List.nodup_append]
    refine ⟨List.nodup_flatMap.mpr ⟨fun k _ => ?_, ?_⟩, List.nodup_singleton _, ?_⟩
    · rw [leafPages]
      split
      · exact List.nodup_singleton _
      · exact List.nodup_nil
    · refine List.nodup_range.pairwise_of_forall_ne fun k hk k' hk' hne p hp hp' => hne ?_
      rw [List.mem_range] at hk hk'
      exact (vpn_eq_of_mapsPage hinj hi hj hk hi hj hk' ((h.mem_leafPages hlow hk).mp hp)
        ((h.mem_leafPages hlow hk').mp hp')).2.2
    · intro p hp q hq heq
      obtain ⟨k, hk, hmem⟩ := List.mem_flatMap.mp hp
      have hnone := h.place_eq_none_of_mapsPage hdata hi hj (List.mem_range.mp hk)
        ((h.mem_leafPages hlow (List.mem_range.mp hk)).mp hmem)
      rw [heq, List.mem_singleton.mp hq, hlow] at hnone
      cases hnone

include hroot

theorem nodup_midPages (hi : i < 512) : (midPages m root i).Nodup := by
  rw [midPages]
  split
  swap
  · exact List.nodup_nil
  next hentry =>
    obtain ⟨-, hmid⟩ := h.tables.mid_place (h.roots.mp hroot) hi hentry.1
    rw [List.nodup_append]
    refine ⟨List.nodup_flatMap.mpr ⟨fun j hj => ?_, ?_⟩, List.nodup_singleton _, ?_⟩
    · exact h.nodup_lowPages hdata hinj hmid (List.mem_range.mp hj)
    · refine List.nodup_range.pairwise_of_forall_ne fun j hj j' hj' hne p hp hp' => hne ?_
      rw [List.mem_range] at hj hj'
      rcases (h.mem_lowPages hmid hj).mp hp with hlow | ⟨k, hk, hmaps⟩ <;>
        rcases (h.mem_lowPages hmid hj').mp hp' with hlow' | ⟨k', hk', hmaps'⟩
      · cases hlow.symm.trans hlow'
        rfl
      · cases hlow.symm.trans (h.place_eq_none_of_mapsPage hdata hi hj' hk' hmaps')
      · cases hlow'.symm.trans (h.place_eq_none_of_mapsPage hdata hi hj hk hmaps)
      · exact (vpn_eq_of_mapsPage hinj hi hj hk hi hj' hk' hmaps hmaps').2.1
    · intro p hp q hq heq
      rw [heq, List.mem_singleton.mp hq] at hp
      obtain ⟨j, hj, hmem⟩ := List.mem_flatMap.mp hp
      rw [List.mem_range] at hj
      rcases (h.mem_lowPages hmid hj).mp hmem with hlow | ⟨k, hk, hmaps⟩
      · cases hlow.symm.trans hmid
      · cases hmid.symm.trans (h.place_eq_none_of_mapsPage hdata hi hj hk hmaps)

theorem nodup_ownPages : (ownPages m root).Nodup := by
  rw [ownPages, List.nodup_append]
  refine ⟨List.nodup_flatMap.mpr ⟨fun i hi => ?_, ?_⟩, List.nodup_singleton _, ?_⟩
  · exact h.nodup_midPages hroot hdata hinj (List.mem_range.mp hi)
  · refine List.nodup_range.pairwise_of_forall_ne fun i hi i' hi' hne p hp hp' => hne ?_
    rw [List.mem_range] at hi hi'
    -- Tables carry the first index in their place and user pages in their virtual page.
    rcases (h.mem_midPages hroot hi).mp hp with hmid | ⟨j, hj, hlow | ⟨k, hk, hmaps⟩⟩ <;>
      rcases (h.mem_midPages hroot hi').mp hp' with hmid' | ⟨j', hj', hlow' | ⟨k', hk', hmaps'⟩⟩
    · cases hmid.symm.trans hmid'
      rfl
    · cases hmid.symm.trans hlow'
    · cases hmid.symm.trans (h.place_eq_none_of_mapsPage hdata hi' hj' hk' hmaps')
    · cases hlow.symm.trans hmid'
    · cases hlow.symm.trans hlow'
      rfl
    · cases hlow.symm.trans (h.place_eq_none_of_mapsPage hdata hi' hj' hk' hmaps')
    · cases hmid'.symm.trans (h.place_eq_none_of_mapsPage hdata hi hj hk hmaps)
    · cases hlow'.symm.trans (h.place_eq_none_of_mapsPage hdata hi hj hk hmaps)
    · exact (vpn_eq_of_mapsPage hinj hi hj hk hi' hj' hk' hmaps hmaps').1
  · intro p hp q hq heq
    rw [heq, List.mem_singleton.mp hq] at hp
    have hr := h.roots.mp hroot
    obtain ⟨i, hi, hmem⟩ := List.mem_flatMap.mp hp
    rw [List.mem_range] at hi
    rcases (h.mem_midPages hroot hi).mp hmem with hmid | ⟨j, hj, hlow | ⟨k, hk, hmaps⟩⟩
    · cases hmid.symm.trans hr
    · cases hlow.symm.trans hr
    · cases hr.symm.trans (h.place_eq_none_of_mapsPage hdata hi hj hk hmaps)

/-- `destroyRoot` removes the address space and gives back its tables and the pages it maps for
user code. -/
theorem destroyRoot :
    ∃ m', Mmu.destroyRoot m root = some m' ∧
      Sees m' (fun q => (place q).filter fun spot => spot.root ≠ root) (V.dropRoot root) := by
  have hheld : ∀ p ∈ ownPages m root, m.HasPage p := by
    intro p hp
    rcases (h.mem_ownPages hroot).mp hp with ⟨path, hpath⟩ | ⟨vaddr, hmaps⟩
    · exact h.tables.held hpath
    · exact (h.data.mp (hdata vaddr p hmaps)).1
  have hnodup := h.nodup_ownPages hroot hdata hinj
  obtain ⟨m', hfree, hfreed⟩ := freeAll_freed h.sound hnodup hheld
  have hsome : ∀ {q spot}, ((place q).filter fun spot => spot.root ≠ root) = some spot ↔
      place q = some spot ∧ spot.root ≠ root := by
    intro q spot
    simp [Option.filter_eq_some_iff]
  -- A table of another root is not released.
  have hkept : ∀ {q spot}, place q = some spot → spot.root ≠ root → q ∉ ownPages m root := by
    intro q spot hq hne hmem
    rcases (h.mem_ownPages hroot).mp hmem with ⟨path, hpath⟩ | ⟨vaddr, hmaps⟩
    · cases hq.symm.trans hpath
      exact hne rfl
    · cases hq.symm.trans (h.data.mp (hdata vaddr q hmaps)).2
  have hagree : Tables.Agree (fun q => (place q).filter fun spot => spot.root ≠ root) m m' := by
    intro q i hq hi
    obtain ⟨spot, hspot⟩ := Option.isSome_iff_exists.mp hq
    obtain ⟨hplace, hne⟩ := hsome.mp hspot
    exact hfreed.words q _ (hkept hplace hne) (h.tables.held hplace) (inPage_entry hi)
  have hdrop := h.tables.dropRoot root
  refine ⟨m', (destroyRoot_eq h.sound hnodup hheld).trans hfree, hfreed.sound, ?_,
    hdrop.congr hagree fun q hq => ?_, ?_, ?_, ?_, fun {p x} hp hx => ?_, ?_⟩
  · rw [hfreed.region.1, hfreed.region.2.1]
    exact h.small
  · obtain ⟨spot, hspot⟩ := Option.isSome_iff_exists.mp hq
    obtain ⟨hplace, hne⟩ := hsome.mp hspot
    exact (hfreed.pages q).mpr ⟨hkept hplace hne, h.tables.held hplace⟩
  · intro r
    change r ≠ root ∧ V.root r ↔ _
    rw [hsome, h.roots, and_comm]
  · intro r hr vaddr
    obtain ⟨hne, hr⟩ := hr
    change _ = V.leaf r (vpn vaddr)
    rw [hdrop.leafPte_congr hagree (hsome.mpr ⟨h.roots.mp hr, hne⟩), h.leaves hr]
  · intro p
    change V.data p ∧ (∀ vaddr, ¬ V.MapsPage root (vpn vaddr) p) ↔ _
    rw [hfreed.pages, h.mem_ownPages hroot, h.data]
    constructor
    · rintro ⟨⟨hhas, hnone⟩, hunmapped⟩
      rw [hnone]
      refine ⟨⟨?_, hhas⟩, rfl⟩
      rintro (⟨path, hpath⟩ | ⟨vaddr, hmaps⟩)
      · cases hpath
      · exact hunmapped vaddr hmaps
    · rintro ⟨⟨hout, hhas⟩, hfilter⟩
      refine ⟨⟨hhas, ?_⟩, fun vaddr hmaps => hout (.inr ⟨vaddr, hmaps⟩)⟩
      rcases hplace : place p with _ | spot
      · rfl
      · rw [hplace] at hfilter
        have hspot : spot.root = root := by simpa using hfilter
        exact absurd (.inl ⟨spot.path, by rw [hplace, ← hspot]⟩) hout
  · obtain ⟨hdata', hunmapped⟩ := hp
    obtain ⟨hhas, hnone⟩ := h.data.mp hdata'
    have hout : p ∉ ownPages m root := by
      intro hmem
      rcases (h.mem_ownPages hroot).mp hmem with ⟨path, hpath⟩ | ⟨vaddr, hmaps⟩
      · cases hnone.symm.trans hpath
      · exact hunmapped vaddr hmaps
    rw [hfreed.words p x hout hhas hx, h.words hdata' hx]
    rfl
  · exact (Usage.pageInRange_congr hfreed.region).trans h.range

end Destroy

end Sees

end Ignium.Mmu
