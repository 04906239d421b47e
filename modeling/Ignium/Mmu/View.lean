import Ignium.Mmu.Tables

/-!
# Address spaces as finite maps

What the page tables are for: a set of roots, each with a map from virtual pages to leaves, next
to the pages that are held for other uses. `Sees m place V` says that the memory `m`, with its
tables at `place`, implements the address spaces `V`. The functions on tables then do to `V` what
their names say: `Sees.mapUserLeaf` sets one leaf that was unset, `Sees.unmap4k` clears one, and
making a missing table changes nothing (`Sees.ensureTable`).
-/

namespace Ignium.Mmu

open Mem Function
open Usage (InPage Takes Gives)
open Tables (Agree)

/-- The virtual page of an address, as the indices in the tables of the three levels. -/
def vpn (vaddr : Nat) : Nat × Nat × Nat := (l2Index vaddr, l1Index vaddr, l0Index vaddr)

/-- Address spaces: the roots, the leaf of every virtual page under every root, 0 when there is
none, the pages held for other uses than tables, the words of each of them, and the region of the
allocator. -/
structure View where
  root : Nat → Prop
  leaf : Nat → Nat × Nat × Nat → Nat
  data : Nat → Prop
  word : Nat → Nat → Nat
  inRange : Nat → Bool

namespace View

/-- Set one leaf. -/
def setLeaf (V : View) (root : Nat) (n : Nat × Nat × Nat) (entry : Nat) : View :=
  { V with leaf := fun r n' => if r = root ∧ n' = n then entry else V.leaf r n' }

/-- Hold one more page, with its words. -/
def addData (V : View) (page : Nat) (words : Nat → Nat) : View :=
  { V with data := fun p => p = page ∨ V.data p, word := update V.word page words }

/-- Hold one page less. -/
def dropData (V : View) (page : Nat) : View := { V with data := fun p => p ≠ page ∧ V.data p }

/-- Write a word of a page. -/
def setWord (V : View) (page x value : Nat) : View :=
  { V with word := update V.word page (update (V.word page) x value) }

/-- Going from `V` to `V'` left no user leaf at some places and changed nothing else. -/
structure Loses (V V' : View) (places : Nat → Nat × Nat × Nat → Prop) : Prop where
  roots : V'.root = V.root
  leaves : ∀ r n, ¬ places r n → V'.leaf r n = V.leaf r n
  gone : ∀ r n, places r n → ¬ User (V'.leaf r n)
  data : V'.data = V.data
  word : V'.word = V.word
  range : V'.inRange = V.inRange

theorem Loses.refl {places : Nat → Nat × Nat × Nat → Prop} (V : View)
    (hnone : ∀ r n, ¬ places r n) : V.Loses V places :=
  ⟨rfl, fun _ _ _ => rfl, fun r n h => absurd h (hnone r n), rfl, rfl, rfl⟩

theorem Loses.trans {V V' V'' : View} {first second : Nat → Nat × Nat × Nat → Prop}
    (h : V.Loses V' first) (h' : V'.Loses V'' second) :
    V.Loses V'' fun r n => first r n ∨ second r n := by
  refine ⟨h'.roots.trans h.roots, fun r n hne => ?_, fun r n hplace => ?_, h'.data.trans h.data,
    h'.word.trans h.word, h'.range.trans h.range⟩
  · rw [not_or] at hne
    rw [h'.leaves r n hne.2, h.leaves r n hne.1]
  · by_cases hsecond : second r n
    · exact h'.gone r n hsecond
    · rw [h'.leaves r n hsecond]
      exact h.gone r n (hplace.resolve_right hsecond)

theorem Loses.congr {V V' : View} {places places' : Nat → Nat × Nat × Nat → Prop}
    (h : V.Loses V' places) (hiff : ∀ r n, places' r n ↔ places r n) : V.Loses V' places' :=
  ⟨h.roots, fun r n hne => h.leaves r n ((hiff r n).not.mp hne),
    fun r n hplace => h.gone r n ((hiff r n).mp hplace), h.data, h.word, h.range⟩

@[simp] theorem leaf_setLeaf_self {V : View} {root entry : Nat} {n : Nat × Nat × Nat} :
    (V.setLeaf root n entry).leaf root n = entry := if_pos ⟨rfl, rfl⟩

theorem leaf_setLeaf_of_ne {V : View} {root root' entry : Nat} {n n' : Nat × Nat × Nat}
    (hne : root' ≠ root) : (V.setLeaf root n entry).leaf root' n' = V.leaf root' n' :=
  if_neg fun heq => hne heq.1

/-- A leaf that is set and cleared again. -/
theorem leaf_undo {V : View} {root entry : Nat} {n : Nat × Nat × Nat} (hzero : V.leaf root n = 0) :
    ((V.setLeaf root n entry).setLeaf root n 0).leaf = V.leaf := by
  funext r n'
  dsimp only [setLeaf]
  split
  · next heq => rw [heq.1, heq.2, hzero]
  · rfl

theorem setLeaf_self {V : View} {root : Nat} {n : Nat × Nat × Nat} :
    V.setLeaf root n (V.leaf root n) = V := by
  obtain ⟨roots, leaf, data, word, inRange⟩ := V
  simp only [setLeaf, View.mk.injEq, true_and, and_true]
  funext r n'
  split
  · next h => rw [h.1, h.2]
  · rfl

end View

/-- The memory implements the address spaces. -/
structure Sees (m : Usage) (place : Nat → Option Place) (V : View) : Prop where
  sound : m.Sound
  small : m.allocator.base + m.allocator.realCount * pageSize ≤ 2 ^ 56
  tables : Tables m place
  roots : ∀ {r}, V.root r ↔ place r = some ⟨r, []⟩
  leaves : ∀ {r}, V.root r → ∀ vaddr, leafPte m r vaddr = V.leaf r (vpn vaddr)
  data : ∀ {p}, V.data p ↔ m.HasPage p ∧ place p = none
  words : ∀ {p x}, V.data p → InPage p x → m.read x = V.word p x
  range : m.pageInRange = V.inRange

/-! ## Reading and writing entries -/

section Entries

variable {m : Usage} {table other i j value : Nat}

@[simp] theorem pteRead_pteWrite_self : pteRead (pteWrite m table i value) table i = value :=
  update_self _ _ _

theorem pteRead_pteWrite_of_taken (htable : m.Taken table) (hother : m.Taken other)
    (hi : i < 512) (hj : j < 512) (hne : ¬ (other = table ∧ j = i)) :
    pteRead (pteWrite m table i value) other j = pteRead m other j := by
  refine update_of_ne (fun heq => hne ?_) _ _
  have hpage : other = table :=
    hother.eq_of_inPage htable (inPage_entry hj) (heq ▸ inPage_entry hi)
  subst hpage
  exact ⟨rfl, by omega⟩

theorem pteRead_pteWrite_of_ne (htable : m.HasPage table) (hother : m.HasPage other)
    (hi : i < 512) (hj : j < 512) (hne : ¬ (other = table ∧ j = i)) :
    pteRead (pteWrite m table i value) other j = pteRead m other j :=
  pteRead_pteWrite_of_taken htable.taken hother.taken hi hj hne

end Entries

namespace Sees

variable {m m' : Usage} {place : Nat → Option Place} {V V' : View} {spot : Place}
  {table page root i j k value : Nat}

/-- A page that is held has an address an entry can hold. -/
theorem lt (h : Sees m place V) (hpage : m.HasPage page) : page < 2 ^ 56 := by
  have hrange := hpage.pageInRange h.sound
  have hsmall := h.small
  simp only [Usage.pageInRange, BuddyAllocator.pageInRange, Bool.and_eq_true,
    decide_eq_true_eq] at hrange
  omega

theorem ptePaddr_pte (h : Sees m place V) (hpage : m.HasPage page) {flags : Nat}
    (hflags : flags < 2 ^ ptePpnShift) : ptePaddr (pte page flags) = page :=
  Mmu.ptePaddr_pte (hpage.aligned h.sound) (h.lt hpage) hflags

/-- A word of a table is no word of another page. -/
theorem read_pteWrite {p x : Nat} (h : Sees m place V) (htable : place table = some spot)
    (hi : i < 512) (hp : V.data p) (hx : InPage p x) :
    (pteWrite m table i value).read x = m.read x := by
  obtain ⟨hhas, hnone⟩ := h.data.mp hp
  refine update_of_ne ?_ _ _
  rintro rfl
  rw [hhas.eq_of_inPage (h.tables.held htable) hx (inPage_entry hi), htable] at hnone
  cases hnone

/-- What leaves the words of the tables alone leaves the address spaces alone. -/
theorem change (h : Sees m place V) (hsound : m'.Sound)
    (hregion : BuddyAllocator.SameRegion m.allocator m'.allocator)
    (hheld : ∀ q, (place q).isSome → m'.HasPage q)
    (hwords : ∀ q x, (place q).isSome → InPage q x → m'.read x = m.read x)
    (hdata : ∀ {p}, V'.data p ↔ m'.HasPage p ∧ place p = none)
    (hword : ∀ {p x}, V'.data p → InPage p x → m'.read x = V'.word p x) (hroot : V'.root = V.root)
    (hleaf : V'.leaf = V.leaf) (hrange : V'.inRange = V.inRange) : Sees m' place V' := by
  have hagree : Agree place m m' := fun q i hq hi => hwords q _ hq (inPage_entry hi)
  refine ⟨hsound, ?_, h.tables.congr hagree hheld, ?_, ?_, hdata, hword, ?_⟩
  · rw [hregion.1, hregion.2.1]
    exact h.small
  · rw [hroot]
    exact h.roots
  · rw [hroot, hleaf]
    intro r hr vaddr
    rw [h.tables.leafPte_congr hagree (h.roots.mp hr), h.leaves hr]
  · rw [hrange, ← h.range]
    exact Usage.pageInRange_congr hregion

/-- Taking a page. -/
theorem take (h : Sees m place V) (htakes : Takes m m' page) :
    Sees m' place (V.addData page m'.read) ∧ ¬ V.data page ∧ place page = none := by
  have hplace : place page = none := by
    rcases hp : place page with _ | spot
    · rfl
    · exact absurd (h.tables.held hp) htakes.fresh
  have hheld : ∀ q, (place q).isSome → m.HasPage q := fun q hq => by
    obtain ⟨spot, hspot⟩ := Option.isSome_iff_exists.mp hq
    exact h.tables.held hspot
  refine ⟨h.change htakes.sound htakes.region
    (fun q hq => (htakes.pages q).mpr (.inr (hheld q hq)))
    (fun q x hq hx => htakes.words q x (hheld q hq) hx) (fun {p} => ?_) (fun {p x} hp hx => ?_)
    rfl rfl rfl, fun hdata => htakes.fresh (h.data.mp hdata).1, hplace⟩
  · show p = page ∨ V.data p ↔ _
    rw [htakes.pages, h.data]
    constructor
    · rintro (rfl | ⟨hp, hnone⟩)
      · exact ⟨.inl rfl, hplace⟩
      · exact ⟨.inr hp, hnone⟩
    · rintro ⟨rfl | hp, hnone⟩
      · exact .inl rfl
      · exact .inr ⟨hp, hnone⟩
  · change _ = update V.word page m'.read p x
    by_cases hnew : p = page
    · rw [hnew, update_self]
    · have hold : V.data p := hp.resolve_left hnew
      rw [update_of_ne hnew, htakes.words p x (h.data.mp hold).1 hx, h.words hold hx]

/-- Only the words in the page matter. -/
theorem addData_congr {words words' : Nat → Nat} (h : Sees m place (V.addData page words))
    (hwords : ∀ x, InPage page x → words x = words' x) : Sees m place (V.addData page words') := by
  refine h.change h.sound (BuddyAllocator.SameRegion.refl _) (fun q hq => ?_) (fun _ _ _ _ => rfl)
    h.data (fun {p x} hp hx => ?_) rfl rfl rfl
  · obtain ⟨spot, hspot⟩ := Option.isSome_iff_exists.mp hq
    exact h.tables.held hspot
  · rw [h.words hp hx]
    by_cases hpage : p = page
    · subst hpage
      change update V.word p words p x = update V.word p words' p x
      rw [update_self, update_self, hwords x hx]
    · change update V.word page words p x = update V.word page words' p x
      rw [update_of_ne hpage, update_of_ne hpage]

/-- Giving back a page that is no table. -/
theorem give (h : Sees m place V) (hpage : V.data page) :
    ∃ m', m.freePages page = some (.ok (), m') ∧ Sees m' place (V.dropData page) := by
  obtain ⟨hhas, hnone⟩ := h.data.mp hpage
  obtain ⟨m', hfree, hgives⟩ := h.sound.freePages hhas
  have hheld : ∀ q, (place q).isSome → q ≠ page ∧ m.HasPage q := fun q hq => by
    obtain ⟨spot, hspot⟩ := Option.isSome_iff_exists.mp hq
    refine ⟨?_, h.tables.held hspot⟩
    rintro rfl
    rw [hnone] at hspot
    cases hspot
  refine ⟨m', hfree, h.change hgives.sound hgives.region
    (fun q hq => (hgives.pages q).mpr (hheld q hq))
    (fun q x hq hx => hgives.words q x (hheld q hq).1 (hheld q hq).2 hx) (fun {p} => ?_)
    (fun {p x} hp hx => ?_) rfl rfl rfl⟩
  · show p ≠ page ∧ V.data p ↔ _
    rw [hgives.pages, h.data, and_assoc]
  · obtain ⟨hne, hp⟩ := hp
    rw [hgives.words p x hne (h.data.mp hp).1 hx, h.words hp hx]
    rfl

/-- Writing a word of a page that is no table. -/
theorem write {x : Nat} (h : Sees m place V) (hpage : V.data page) (hx : InPage page x) :
    Sees (m.write x value) place (V.setWord page x value) := by
  obtain ⟨hhas, hnone⟩ := h.data.mp hpage
  refine h.change (h.sound.write hhas hx) (BuddyAllocator.SameRegion.refl _) ?_ ?_ h.data
    (fun {p y} hp hy => ?_) rfl rfl rfl
  · intro q hq
    obtain ⟨spot, hspot⟩ := Option.isSome_iff_exists.mp hq
    exact h.tables.held hspot
  · intro q y hq hy
    obtain ⟨spot, hspot⟩ := Option.isSome_iff_exists.mp hq
    refine update_of_ne ?_ _ _
    rintro rfl
    rw [(h.tables.held hspot).eq_of_inPage hhas hy hx, hnone] at hspot
    cases hspot
  · change update m.read x value y =
      update V.word page (update (V.word page) x value) p y
    by_cases hsame : p = page
    · subst hsame
      rw [update_self, update_apply, update_apply, h.words hp hy]
    · rw [update_of_ne hsame, update_of_ne, h.words hp hy]
      rintro rfl
      exact hsame ((h.data.mp hp).1.eq_of_inPage hhas hy hx)

/-! ## Making a table -/

section Link

variable (h : Sees m place V) (hparent : place table = some spot) (hlen : spot.path.length < 2)
  (hi : i < 512) (hunused : ¬ Valid (pteRead m table i)) (htakes : Takes m m' page)
  (hzero : ∀ x, InPage page x → m'.read x = 0)

include h hparent hi hunused htakes hzero

/-- The entries after a new table was linked: those of the new table are unused, the entry that
was unused points to it, and the others are as before. -/
theorem link_read {q : Nat} (hj : j < 512)
    (hq' : (update place page (some ⟨spot.root, i :: spot.path⟩) q).isSome) :
    (q = page ∧ pteRead (pteWrite m' table i (pte page pteV)) q j = 0) ∨
    (q = table ∧ j = i ∧
      pteRead (pteWrite m' table i (pte page pteV)) q j = pte page pteV) ∨
    (q ≠ page ∧ ¬ (q = table ∧ j = i) ∧
      pteRead (pteWrite m' table i (pte page pteV)) q j = pteRead m q j) := by
  have hpage : m'.HasPage page := (htakes.pages page).mpr (.inl rfl)
  have htable : m'.HasPage table := (htakes.pages table).mpr (.inr (h.tables.held hparent))
  have hne : table ≠ page := by
    rintro rfl
    exact htakes.fresh (h.tables.held hparent)
  by_cases hnew : q = page
  · subst hnew
    refine .inl ⟨rfl, ?_⟩
    rw [pteRead_pteWrite_of_ne htable hpage hi hj fun heq => hne heq.1.symm]
    exact hzero _ (inPage_entry hj)
  · rw [update_of_ne hnew] at hq'
    obtain ⟨spot', hspot'⟩ := Option.isSome_iff_exists.mp hq'
    have hhas := h.tables.held hspot'
    by_cases hsame : q = table ∧ j = i
    · obtain ⟨rfl, rfl⟩ := hsame
      exact .inr (.inl ⟨rfl, rfl, pteRead_pteWrite_self⟩)
    · refine .inr (.inr ⟨hnew, hsame, ?_⟩)
      rw [pteRead_pteWrite_of_ne htable ((htakes.pages q).mpr (.inr hhas)) hi hj hsame]
      exact htakes.words q _ hhas (inPage_entry hj)

include hlen

/-- The tables after a new one was linked. -/
theorem link_tables :
    Tables (pteWrite m' table i (pte page pteV))
      (update place page (some ⟨spot.root, i :: spot.path⟩)) := by
  have hpage : m'.HasPage page := (htakes.pages page).mpr (.inl rfl)
  obtain ⟨hsees, -, hnone⟩ := h.take htakes
  have hpaddr : ptePaddr (pte page pteV) = page := hsees.ptePaddr_pte hpage (by decide)
  have hold : ∀ {q spot'}, place q = some spot' →
      update place page (some ⟨spot.root, i :: spot.path⟩) q = some spot' := by
    intro q spot' hq
    rw [update_of_ne, hq]
    rintro rfl
    rw [hnone] at hq
    cases hq
  have hread := fun {q j} => h.link_read (q := q) (j := j) hparent hi hunused htakes hzero
  refine ⟨?_, ?_, ?_, ?_, ?_⟩
  · intro q spot' hq
    by_cases hnew : q = page
    · exact hnew ▸ hpage
    · rw [update_of_ne hnew] at hq
      exact (htakes.pages q).mpr (.inr (h.tables.held hq))
  · intro q r hq
    by_cases hnew : q = page
    · subst hnew
      rw [update_self] at hq
      cases hq
    · rw [update_of_ne hnew] at hq
      exact h.tables.top hq
  · intro q spot' hq
    by_cases hnew : q = page
    · subst hnew
      rw [update_self] at hq
      cases hq
      exact hlen
    · rw [update_of_ne hnew] at hq
      exact h.tables.depth hq
  · intro q spot' j hq hlen' hj hvalid
    rcases hread hj (by rw [hq]; rfl) with ⟨-, hentry⟩ | ⟨rfl, rfl, hentry⟩ | ⟨hnew, -, hentry⟩
    · rw [hentry] at hvalid
      exact absurd hvalid not_valid_zero
    · obtain rfl : spot = spot' := Option.some.inj ((hold hparent).symm.trans hq)
      rw [hentry, hpaddr, leaf_pte]
      exact .inr ⟨by decide, update_self _ _ _⟩
    · rw [hentry] at hvalid ⊢
      rw [update_of_ne hnew] at hq
      exact (h.tables.down hq hlen' hj hvalid).imp_right fun hdown => ⟨hdown.1, hold hdown.2⟩
  · intro q r j path hq
    by_cases hnew : q = page
    · subst hnew
      rw [update_self] at hq
      cases hq
      refine ⟨hi, table, hold hparent, ?_⟩
      rw [pteRead_pteWrite_self, valid_pte, leaf_pte]
      exact ⟨by decide, by decide, hpaddr⟩
    · rw [update_of_ne hnew] at hq
      obtain ⟨hj, parent, hplace, hentry⟩ := h.tables.up hq
      refine ⟨hj, parent, hold hplace, ?_⟩
      rcases hread hj (by rw [hold hplace]; rfl) with ⟨rfl, -⟩ | ⟨rfl, rfl, -⟩ | ⟨-, -, hsame⟩
      · rw [hnone] at hplace
        cases hplace
      · exact absurd hentry.1 hunused
      · rw [hsame]
        exact hentry

/-- A new table maps nothing. -/
theorem link_leafPte {r : Nat} (hr : place r = some ⟨r, []⟩) (vaddr : Nat) :
    leafPte (pteWrite m' table i (pte page pteV)) r vaddr = leafPte m r vaddr := by
  have hpage : m'.HasPage page := (htakes.pages page).mpr (.inl rfl)
  obtain ⟨hsees, -, hnone⟩ := h.take htakes
  have hpaddr : ptePaddr (pte page pteV) = page := hsees.ptePaddr_pte hpage (by decide)
  have hnew : (update place page (some ⟨spot.root, i :: spot.path⟩) page).isSome := by
    rw [update_self]
    rfl
  have hold : ∀ {q spot'}, place q = some spot' → q ≠ page ∧
      (update place page (some ⟨spot.root, i :: spot.path⟩) q).isSome := by
    intro q spot' hq
    have hne : q ≠ page := by
      rintro rfl
      rw [hnone] at hq
      cases hq
    rw [update_of_ne hne, hq]
    exact ⟨hne, rfl⟩
  have hread := fun {q j} => h.link_read (q := q) (j := j) hparent hi hunused htakes hzero
  have hblank : ∀ {j}, j < 512 → pteRead (pteWrite m' table i (pte page pteV)) page j = 0 := by
    intro j hj
    rcases hread hj hnew with ⟨-, hentry⟩ | ⟨heq, -⟩ | ⟨hne, -⟩
    · exact hentry
    · exact absurd heq.symm (hold hparent).1
    · exact absurd rfl hne
  unfold leafPte
  dsimp only
  -- The walk goes through the new table below the root, below a level-1 table, or not at all.
  rcases hread (l2Index_lt vaddr) (hold hr).2 with
    ⟨heq, -⟩ | ⟨rfl, hidx, hentry⟩ | ⟨-, -, hentry⟩
  · exact absurd heq (hold hr).1
  · rw [hentry, hidx, if_pos hunused, hpaddr, hblank (l1Index_lt vaddr)]
    simp [valid_pte, leaf_pte, not_valid_zero, show Valid pteV by decide, show ¬ Leaf pteV by decide]
  rw [hentry]
  by_cases hvalid : Valid (pteRead m r (l2Index vaddr))
  swap
  · simp only [if_pos hvalid]
  obtain ⟨hleaf, hmid⟩ := h.tables.mid_place hr (l2Index_lt vaddr) hvalid
  simp only [if_neg (not_not.mpr hvalid), if_neg hleaf]
  rcases hread (l1Index_lt vaddr) (hold hmid).2 with
    ⟨heq, -⟩ | ⟨heq, hidx, hentry⟩ | ⟨-, -, hentry⟩
  · exact absurd heq (hold hmid).1
  · rw [hentry, hpaddr, hblank (l0Index_lt vaddr), heq, hidx, if_pos hunused]
    simp [valid_pte, leaf_pte, not_valid_zero, show Valid pteV by decide, show ¬ Leaf pteV by decide]
  rw [hentry]
  by_cases hvalid' : Valid (pteRead m (ptePaddr (pteRead m r (l2Index vaddr))) (l1Index vaddr))
  swap
  · simp only [if_pos hvalid']
  rcases h.tables.down hmid (by simp) (l1Index_lt vaddr) hvalid' with ⟨hleaf', -⟩ | ⟨hleaf', hlow⟩
  · simp only [if_pos hleaf']
  rcases hread (l0Index_lt vaddr) (hold hlow).2 with
    ⟨heq, -⟩ | ⟨heq, -⟩ | ⟨-, -, hentry⟩
  · exact absurd heq (hold hlow).1
  · rw [heq, hparent] at hlow
    cases hlow
    simp at hlen
  · rw [hentry]

/-- Linking a new table changes no address space. -/
theorem link :
    Sees (pteWrite m' table i (pte page pteV))
      (update place page (some ⟨spot.root, i :: spot.path⟩)) V := by
  have htable : m'.HasPage table := (htakes.pages table).mpr (.inr (h.tables.held hparent))
  obtain ⟨hsees, -, hnone⟩ := h.take htakes
  refine ⟨hsees.sound.write htable (inPage_entry hi), hsees.small,
    h.link_tables hparent hlen hi hunused htakes hzero, ?_, ?_, ?_, fun {p x} hp hx => ?_,
    hsees.range⟩
  · intro r
    rw [h.roots]
    by_cases hr : r = page
    · subst hr
      rw [update_self, hnone]
      simp
    · rw [update_of_ne hr]
  · intro r hr vaddr
    rw [h.link_leafPte hparent hlen hi hunused htakes hzero (h.roots.mp hr), h.leaves hr]
  · intro p
    rw [h.data]
    change _ ↔ m'.HasPage p ∧ _
    rw [htakes.pages]
    by_cases hp : p = page
    · subst hp
      rw [update_self]
      simp [htakes.fresh]
    · rw [update_of_ne hp]
      simp [hp]
  · rw [hsees.read_pteWrite hparent hi (.inr hp) hx, htakes.words p x (h.data.mp hp).1 hx,
      h.words hp hx]

end Link

/-- `ensureTable` changes no address space, and a table it returns is at the place below. -/
theorem ensureTable (h : Sees m place V) (hparent : place table = some spot)
    (hlen : spot.path.length < 2) (hi : i < 512) :
    ∃ result m' place', Mmu.ensureTable m table i = some (result, m') ∧ Sees m' place' V ∧
      (∀ {q spot'}, place q = some spot' → place' q = some spot') ∧
      ∀ child, result = .ok child → place' child = some ⟨spot.root, i :: spot.path⟩ := by
  unfold Mmu.ensureTable
  dsimp only
  by_cases hvalid : Valid (pteRead m table i)
  · rw [if_pos hvalid]
    rcases h.tables.down hparent hlen hi hvalid with ⟨hleaf, -⟩ | ⟨hleaf, hchild⟩
    · rw [if_pos hleaf]
      exact ⟨_, m, place, rfl, h, id, fun child hok => by cases hok⟩
    · rw [if_neg hleaf]
      refine ⟨_, m, place, rfl, h, id, fun child hok => ?_⟩
      cases hok
      exact hchild
  · rw [if_neg hvalid]
    rcases h.sound.allocPages with hnone | ⟨page, m', hsome, htakes⟩
    · rw [hnone]
      exact ⟨_, m, place, rfl, h, id, fun child hok => by cases hok⟩
    · rw [hsome]
      obtain ⟨-, -, hfresh⟩ := h.take htakes
      have hpage : m'.HasPage page := (htakes.pages page).mpr (.inl rfl)
      have hcleared := htakes.zeroed
      refine ⟨_, _, _, rfl, h.link hparent hlen hi hvalid hcleared fun x hx =>
        Usage.read_zeroPage_of_inPage hx, ?_, fun child hok => ?_⟩
      · intro q spot' hq
        rw [update_of_ne, hq]
        rintro rfl
        rw [hfresh] at hq
        cases hq
      · cases hok
        exact update_self _ _ _

end Sees

/-- The two functions that make tables do the same. -/
theorem ensureTableUser_eq (m : Usage) (table i : Nat) :
    ensureTableUser m table i = ensureTable m table i := by
  unfold ensureTableUser ensureTable
  rw [Usage.allocPagesZeroed_zero]
  rcases m.allocPages 0 with _ | ⟨_ | page, m'⟩ <;> rfl

/-! ## Setting and clearing leaves -/

/-- The leaf under a level-0 table. -/
theorem Tables.leafPte_low {m : Usage} {place : Nat → Option Place} {table root i j vaddr : Nat}
    (h : Tables m place) (hlow : place table = some ⟨root, [j, i]⟩) (hi : l2Index vaddr = i)
    (hj : l1Index vaddr = j) :
    leafPte m root vaddr =
      if Valid (pteRead m table (l0Index vaddr)) then pteRead m table (l0Index vaddr) else 0 := by
  obtain ⟨-, mid, hmid, hvalid₁, hleaf₁, htable⟩ := h.up hlow
  obtain ⟨-, top, htop, hvalid₂, hleaf₂, hmid'⟩ := h.up hmid
  obtain rfl : root = top := h.top htop
  unfold leafPte
  dsimp only
  rw [hi, hj, if_neg (not_not.mpr hvalid₂), if_neg hleaf₂, hmid', if_neg (not_not.mpr hvalid₁),
    if_neg hleaf₁, htable, ite_not]

namespace Sees

variable {m : Usage} {place : Nat → Option Place} {V : View} {table root i j k entry vaddr : Nat}

section

variable (h : Sees m place V)
include h

/-- Writing an entry of a level-0 table sets one leaf. -/
theorem writeLow (entry : Nat) (hlow : place table = some ⟨root, [j, i]⟩) (hk : k < 512) :
    Sees (pteWrite m table k entry) place
      (V.setLeaf root (i, j, k) (if Valid entry then entry else 0)) := by
  have htable : m.HasPage table := h.tables.held hlow
  have hread : ∀ {q spot n}, place q = some spot → n < 512 → ¬ (q = table ∧ n = k) →
      pteRead (pteWrite m table k entry) q n = pteRead m q n := fun hq hn hne =>
    pteRead_pteWrite_of_ne htable (h.tables.held hq) hk hn hne
  have hupper : ∀ {q spot n}, place q = some spot → spot.path.length < 2 → n < 512 →
      pteRead (pteWrite m table k entry) q n = pteRead m q n := by
    intro q spot n hq hlen hn
    refine hread hq hn ?_
    rintro ⟨rfl, -⟩
    obtain rfl := Option.some.inj (hq.symm.trans hlow)
    simp at hlen
  have htables : Tables (pteWrite m table k entry) place :=
    { held := h.tables.held
      top := h.tables.top
      depth := h.tables.depth
      down := fun hq hlen hn => by
        rw [hupper hq hlen hn]
        exact h.tables.down hq hlen hn
      up := fun hq => by
        obtain ⟨hn, parent, hparent, hentry⟩ := h.tables.up hq
        have hlen := h.tables.depth hq
        refine ⟨hn, parent, hparent, ?_⟩
        rw [hupper hparent hlen hn]
        exact hentry }
  refine ⟨h.sound.write htable (inPage_entry hk), h.small, htables, h.roots, ?_, h.data,
    fun hp hx => (h.read_pteWrite hlow hk hp hx).trans (h.words hp hx), h.range⟩
  intro r hr vaddr
  change V.root r at hr
  have hr' := h.roots.mp hr
  change _ = if r = root ∧ vpn vaddr = (i, j, k) then _ else V.leaf r (vpn vaddr)
  by_cases hsame : r = root ∧ vpn vaddr = (i, j, k)
  · rw [if_pos hsame]
    obtain ⟨rfl, hvpn⟩ := hsame
    simp only [vpn, Prod.mk.injEq] at hvpn
    obtain ⟨hi, hj, hk'⟩ := hvpn
    rw [htables.leafPte_low hlow hi hj, hk', pteRead_pteWrite_self]
  · rw [if_neg hsame, ← h.leaves hr]
    unfold leafPte
    dsimp only
    rw [hupper hr' (by simp) (l2Index_lt vaddr)]
    by_cases hvalid : Valid (pteRead m r (l2Index vaddr))
    swap
    · simp only [if_pos hvalid]
    obtain ⟨-, hmid⟩ := h.tables.mid_place hr' (l2Index_lt vaddr) hvalid
    rw [hupper hmid (by simp) (l1Index_lt vaddr)]
    by_cases hvalid' : Valid (pteRead m (ptePaddr (pteRead m r (l2Index vaddr))) (l1Index vaddr))
    swap
    · simp only [if_pos hvalid']
    rcases h.tables.down hmid (by simp) (l1Index_lt vaddr) hvalid' with ⟨hleaf, -⟩ | ⟨-, hlow'⟩
    · simp only [if_pos hleaf]
    rw [hread hlow' (l0Index_lt vaddr)]
    rintro ⟨heq, hk'⟩
    rw [heq, hlow] at hlow'
    cases hlow'
    exact hsame ⟨rfl, by rw [vpn, hk']⟩

/-- The walk to the level-0 table of an address, making tables on the way. -/
theorem walk (hroot : V.root root) (vaddr : Nat) (f : Nat → Usage → Outcome Usage Unit Unit) :
    (∃ m' place', Sees m' place' V ∧
      ((Mmu.ensureTable m root (l2Index vaddr)).andThen fun l1 m =>
        (Mmu.ensureTable m l1 (l1Index vaddr)).andThen f) = some (.error (), m')) ∨
    ∃ l0 m' place', Sees m' place' V ∧
      place' l0 = some ⟨root, [l1Index vaddr, l2Index vaddr]⟩ ∧
      ((Mmu.ensureTable m root (l2Index vaddr)).andThen fun l1 m =>
        (Mmu.ensureTable m l1 (l1Index vaddr)).andThen f) = f l0 m' := by
  obtain ⟨result, m₁, place₁, hfirst, h₁, -, hmid⟩ :=
    h.ensureTable (h.roots.mp hroot) (by simp) (l2Index_lt vaddr)
  rw [hfirst]
  rcases result with ⟨⟩ | l1
  · exact .inl ⟨m₁, place₁, h₁, rfl⟩
  obtain ⟨result, m₂, place₂, hsecond, h₂, -, hlow⟩ :=
    h₁.ensureTable (hmid l1 rfl) (by simp) (l1Index_lt vaddr)
  rw [Outcome.andThen_ok, hsecond]
  rcases result with ⟨⟩ | l0
  · exact .inl ⟨m₂, place₂, h₂, rfl⟩
  · exact .inr ⟨l0, m₂, place₂, h₂, hlow l0 rfl, rfl⟩

/-- `mapUserLeaf` fails and changes no address space, or sets a leaf that was not set. An entry
that is not valid is no leaf. -/
theorem mapUserLeaf_cases {paddr flags : Nat} (hroot : V.root root) :
    ∃ m' place', (Mmu.mapUserLeaf m root vaddr paddr flags = some (.error (), m') ∧
        Sees m' place' V) ∨
      (Mmu.mapUserLeaf m root vaddr paddr flags = some (.ok (), m') ∧
        V.leaf root (vpn vaddr) = 0 ∧
        Sees m' place' (V.setLeaf root (vpn vaddr)
          (if Valid (pte paddr (flags ||| pteU)) then pte paddr (flags ||| pteU) else 0))) := by
  unfold Mmu.mapUserLeaf
  simp only [ensureTableUser_eq]
  rcases h.walk hroot vaddr fun l0 m =>
      if Valid (pteRead m l0 (l0Index vaddr)) then some (.error (), m)
      else some (.ok (), pteWrite m l0 (l0Index vaddr) (pte paddr (flags ||| pteU))) with
    ⟨m', place', h', herror⟩ | ⟨l0, m', place', h', hlow, hdone⟩
  · exact ⟨m', place', .inl ⟨herror, h'⟩⟩
  · rw [hdone]
    by_cases hvalid : Valid (pteRead m' l0 (l0Index vaddr))
    · exact ⟨m', place', .inl ⟨if_pos hvalid, h'⟩⟩
    · have hleaf : V.leaf root (vpn vaddr) = 0 := by
        rw [← h'.leaves hroot, h'.tables.leafPte_low hlow rfl rfl, if_neg hvalid]
      exact ⟨_, place', .inr ⟨if_neg hvalid, hleaf, h'.writeLow _ hlow (l0Index_lt vaddr)⟩⟩

/-- The same for an entry that is valid. -/
theorem mapUserLeaf {paddr flags : Nat} (hroot : V.root root) (hflags : Valid flags) :
    ∃ m' place', (Mmu.mapUserLeaf m root vaddr paddr flags = some (.error (), m') ∧
        Sees m' place' V) ∨
      (Mmu.mapUserLeaf m root vaddr paddr flags = some (.ok (), m') ∧
        V.leaf root (vpn vaddr) = 0 ∧
        Sees m' place' (V.setLeaf root (vpn vaddr) (pte paddr (flags ||| pteU)))) := by
  have hvalid : Valid (pte paddr (flags ||| pteU)) := valid_pte.mpr (hflags.or _)
  obtain ⟨m', place', herror | ⟨hok, hzero, hset⟩⟩ := h.mapUserLeaf_cases hroot
  · exact ⟨m', place', .inl herror⟩
  · rw [if_pos hvalid] at hset
    exact ⟨m', place', .inr ⟨hok, hzero, hset⟩⟩

/-- `unmap4k` clears a leaf, or it meets a large page of the kernel and changes nothing. -/
theorem unmap4k (hroot : V.root root) (vaddr : Nat) :
    (Mmu.unmap4k m root vaddr = some (.error (), m) ∧ ¬ User (V.leaf root (vpn vaddr))) ∨
      ∃ m', Mmu.unmap4k m root vaddr = some (.ok (), m') ∧ m.KeepsPages m' ∧
        Sees m' place (V.setLeaf root (vpn vaddr) 0) := by
  have hr := h.roots.mp hroot
  unfold Mmu.unmap4k
  by_cases hzero : leafPte m root vaddr = 0
  · rw [if_pos hzero]
    rw [h.leaves hroot] at hzero
    refine .inr ⟨m, rfl, .refl m, ?_⟩
    rw [← hzero, View.setLeaf_self]
    exact h
  · rw [if_neg hzero, ← h.leaves hroot]
    -- A leaf is there, so the walk finds its tables and makes none.
    have hvalid : Valid (pteRead m root (l2Index vaddr)) := by
      by_contra hvalid
      exact hzero (by unfold leafPte; exact if_pos hvalid)
    obtain ⟨hleaf, hmid⟩ := h.tables.mid_place hr (l2Index_lt vaddr) hvalid
    have hvalid' : Valid (pteRead m (ptePaddr (pteRead m root (l2Index vaddr))) (l1Index vaddr)) := by
      by_contra hvalid'
      exact hzero (by unfold leafPte; simp [hvalid, hleaf, hvalid'])
    have hfirst : Mmu.ensureTable m root (l2Index vaddr) =
        some (.ok (ptePaddr (pteRead m root (l2Index vaddr))), m) := by
      simp [Mmu.ensureTable, hvalid, hleaf]
    rw [hfirst, Outcome.andThen_ok]
    rcases h.tables.down hmid (by simp) (l1Index_lt vaddr) hvalid' with
      ⟨hleaf', -, huser⟩ | ⟨hleaf', hlow⟩
    · refine .inl ⟨by simp [Mmu.ensureTable, hvalid', hleaf', Outcome.andThen], ?_⟩
      have hsuper : leafPte m root vaddr =
          pteRead m (ptePaddr (pteRead m root (l2Index vaddr))) (l1Index vaddr) := by
        simp [leafPte, hvalid, hleaf, hvalid', hleaf']
      rw [hsuper]
      exact huser
    · refine .inr ⟨_, by simp [Mmu.ensureTable, hvalid', hleaf']; rfl, ?_, ?_⟩
      · exact h.sound.keepsPages_write (h.tables.held hlow) (inPage_entry (l0Index_lt vaddr)) 0
      have hset := h.writeLow 0 hlow (l0Index_lt vaddr)
      rwa [if_neg not_valid_zero] at hset

/-- Whatever `unmap4k` returns, no user leaf is left. -/
theorem unmap4k_discard (hroot : V.root root) {m' : Usage}
    (hunmap : (Mmu.unmap4k m root vaddr).discard = some m') :
    ∃ V', Sees m' place V' ∧ (V.Loses V' fun r n => r = root ∧ n = vpn vaddr) ∧
      (User (V.leaf root (vpn vaddr)) → V' = V.setLeaf root (vpn vaddr) 0) ∧ m.KeepsPages m' := by
  rcases h.unmap4k hroot vaddr with ⟨herror, huser⟩ | ⟨m₁, hdone, hkeeps, h₁⟩
  · rw [herror] at hunmap
    cases hunmap
    refine ⟨V, h, ⟨rfl, fun _ _ _ => rfl, ?_, rfl, rfl, rfl⟩, fun huser' => absurd huser' huser,
      .refl m⟩
    rintro r n ⟨rfl, rfl⟩
    exact huser
  · rw [hdone] at hunmap
    cases hunmap
    refine ⟨_, h₁, ⟨rfl, fun r n hne => if_neg hne, ?_, rfl, rfl, rfl⟩, fun _ => rfl, hkeeps⟩
    rintro r n ⟨rfl, rfl⟩
    change ¬ User (if r = r ∧ vpn vaddr = vpn vaddr then 0 else _)
    rw [if_pos ⟨rfl, rfl⟩]
    exact not_user_zero

end

end Sees

/-! ## The start -/

/-- Where the region of the allocator may lie: at a page boundary, within the physical addresses,
and with no more pages than the allocator takes. -/
structure Region (base count : Nat) : Prop where
  few : count ≤ maxPages
  aligned : pageSize ∣ base
  small : base + count * pageSize ≤ 2 ^ 56

/-- No address spaces. -/
def View.bare (m : Usage) : View :=
  ⟨fun _ => False, fun _ _ => 0, m.HasPage, fun _ => m.read, m.pageInRange⟩

/-- Before the first root is made there is no table. -/
theorem Region.sees {base count : Nat} (h : Region base count) (ram : Nat → Nat)
    (reserved : List (Nat × Nat)) :
    Sees (Usage.start ram base count reserved) (fun _ => none)
      (View.bare (Usage.start ram base count reserved)) := by
  obtain ⟨free, dead, hheld, hbase, hreal, -⟩ := held_start ram base reserved h.few
  refine ⟨⟨free, dead, hheld, ?_⟩, ?_, ⟨?_, ?_, ?_, ?_, ?_⟩, ?_, fun hr => hr.elim, ?_,
    fun _ _ => rfl, rfl⟩
  · rw [hbase]
    exact h.aligned
  · rw [hbase, hreal]
    exact h.small
  all_goals simp [View.bare]

/-- The region is the one that the allocator was started with. -/
theorem Region.pageInRange {base count : Nat} (h : Region base count) (ram : Nat → Nat)
    (reserved : List (Nat × Nat)) (paddr : Nat) :
    (Usage.start ram base count reserved).pageInRange paddr =
      (decide (base ≤ paddr) && decide (paddr < base + count * pageSize)) := by
  obtain ⟨free, dead, -, hbase, hreal, -⟩ := held_start ram base reserved h.few
  rw [Usage.pageInRange, BuddyAllocator.pageInRange, hbase, hreal]

end Ignium.Mmu
