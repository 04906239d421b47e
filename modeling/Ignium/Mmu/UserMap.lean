import Ignium.Mmu.Trees

/-!
# Pages of user mappings

The calls that give a tree pages to map: a page is taken from the allocator, written, mapped for user
code, and given back. Taking, writing and giving back a page that is no table leaves the tree as it is
(`Shaped.frame`), and `Grown` says which pages are held in addition. Mapping needs the tables on the way to the address (`Shaped.mapUserPage`): when
there is no page for one of them the mappings stay as they were, though a table may have been added.
-/

namespace Ignium.Mmu

open Mem
open Usage (InPage Takes Gives HasFree)
open Spaces (TableAt)

variable {m m' : Usage} {root va page x value total : Nat}

theorem IsTable.of_iff (h : ∀ {path q}, TableAt m' root path q ↔ TableAt m root path q) {q : Nat} :
    IsTable m' root q ↔ IsTable m root q := exists_congr fun _ => h

/-- The walk reads the three indices of an address. -/
theorem leafAt_of_vpn {y : Nat} (h : vpn x = vpn y) : leafAt m root x = leafAt m root y := by
  simp only [vpn, Prod.mk.injEq] at h
  simp only [leafAt, h.1, h.2.1, h.2.2]

namespace Shaped

variable {paths : Finset (List Nat)} {leaf : Nat → Option (Nat × Nat)}
  (h : Shaped m root total paths leaf)

include h

/-- A change outside the tables. -/
theorem frame {n total' : Nat} (hsound : m'.Sound)
    (hregion : BuddyAllocator.SameRegion m.allocator m'.allocator)
    (hheld : ∀ q, IsTable m root q → m'.Taken q)
    (hread : ∀ q x, IsTable m root q → InPage q x → m'.read x = m.read x)
    (hfree : m'.HasFree n) (htotal : n + paths.card = total') :
    Shaped m' root total' paths leaf ∧
      ∀ {path q}, TableAt m' root path q ↔ TableAt m root path q := by
  have hentries : ∀ {r path table i}, r = root → TableAt m r path table → i < 512 →
      pteRead m' table i = pteRead m table i := by
    rintro r path table i rfl htable hi
    exact hread table _ ⟨path, htable⟩ (inPage_entry hi)
  have hiff : ∀ {path q}, TableAt m' root path q ↔ TableAt m root path q :=
    Leveled.frame_tableAt hentries rfl
  refine ⟨⟨⟨h.tree.toLeveled.frame hentries hsound hregion ?_, fun htable htable' => ?_⟩,
    fun path => ?_, fun va => ?_, n, hfree, htotal⟩, hiff⟩
  · rintro q ⟨r, rfl, path, htable⟩
    exact hheld q ⟨path, htable⟩
  · exact h.tree.unique (hiff.mp htable) (hiff.mp htable')
  · rw [h.places]
    exact exists_congr fun _ => hiff.symm
  · rw [← h.leaves]
    exact leafAt_congr fun _ _ _ hvisits => .inl (hentries rfl hvisits.1 hvisits.lt)

/-- Taking a page, which is cleared. -/
theorem take :
    if paths.card < total then
      ∃ page t, m.allocPagesZeroed 0 = some (some page, t) ∧ Takes m t page ∧
        (∀ x, InPage page x → t.read x = 0) ∧ Shaped t root (total - 1) paths leaf ∧
        ∀ {path q}, TableAt t root path q ↔ TableAt m root path q
    else m.allocPagesZeroed 0 = some (none, m) := by
  obtain ⟨n, hfree, hn⟩ := h.room
  rw [Usage.allocPagesZeroed_zero]
  cases n with
  | zero =>
    rw [if_neg (by omega), h.tree.sound.allocPages_zero hfree]
    rfl
  | succ n =>
    rw [if_pos (by omega)]
    obtain ⟨page, t, halloc, htakes, hfree'⟩ := h.tree.sound.allocPages_succ hfree
    have hpage : t.HasPage page := (htakes.pages page).mpr (.inl rfl)
    refine ⟨page, t.zeroPage page, ?_, htakes.zeroed,
      fun x hx => Usage.read_zeroPage_of_inPage hx, ?_⟩
    · rw [halloc]
      rfl
    · refine h.frame htakes.zeroed.sound htakes.region (fun q hq => ?_) (fun q x hq hx => ?_)
        ((htakes.sound.hasFree_zeroPage hpage).mpr hfree') (by omega)
      · obtain ⟨path, htable⟩ := hq
        exact (htakes.zeroed.taken q).mpr (.inr (h.tree.held rfl htable))
      · obtain ⟨path, htable⟩ := hq
        exact htakes.zeroed.frame q x (h.tree.held rfl htable) hx

/-- Writing a word of a page that is no table. -/
theorem write (hpage : m.HasPage page) (hdata : ¬ IsTable m root page) (hx : InPage page x)
    (value : Nat) : Shaped (m.write x value) root total paths leaf ∧
      ∀ {path q}, TableAt (m.write x value) root path q ↔ TableAt m root path q := by
  obtain ⟨n, hfree, hn⟩ := h.room
  refine h.frame (h.tree.sound.write hpage hx) (.refl _) (fun q ⟨path, htable⟩ => h.tree.held rfl htable)
    (fun q y hq hy => ?_) ((h.tree.sound.hasFree_write hpage.taken hx).mpr hfree) hn
  refine Function.update_of_ne ?_ _ _
  rintro rfl
  obtain ⟨path, htable⟩ := hq
  have hsame := (h.tree.held rfl htable).eq_of_inPage hpage.taken hy hx
  exact hdata ⟨path, hsame ▸ htable⟩

/-- Giving back a page that is no table. -/
theorem give (hpage : m.HasPage page) (hdata : ¬ IsTable m root page) :
    ∃ t total', m.freePages page = some (.ok (), t) ∧ Gives m t page ∧
      Shaped t root total' paths leaf ∧
      ∀ {path q}, TableAt t root path q ↔ TableAt m root path q := by
  obtain ⟨t, hok, hgives⟩ := h.tree.sound.freePages hpage
  obtain ⟨n, hfree⟩ := hgives.sound.exists_hasFree
  have hne : ∀ q, IsTable m root q → q ≠ page := by
    rintro q hq rfl
    exact hdata hq
  refine ⟨t, n + paths.card, hok, hgives, ?_⟩
  refine h.frame hgives.sound hgives.region (fun q hq => ?_) (fun q x hq hx => ?_) hfree rfl
  · obtain ⟨path, htable⟩ := hq
    exact (hgives.taken q).mpr ⟨hne q ⟨path, htable⟩, h.tree.held rfl htable⟩
  · obtain ⟨path, htable⟩ := hq
    exact hgives.frame q x (hne q ⟨path, htable⟩) (h.tree.held rfl htable) hx

/-- Mapping a page where nothing is mapped. -/
theorem mapUserPage {flags : Nat} (hva : va < userVaLimit) (hpage : m.Taken page)
    (hflags : Valid flags) (hnone : leaf va = none) :
    if (paths ∪ tablesAt va).card ≤ total then
      ∃ t, Mmu.mapUserPage m root va page flags = some (.ok (), t) ∧
        Shaped t root total (paths ∪ tablesAt va)
          (fun x => if vpn x = vpn va then some (4096, pte page (flags ||| pteU)) else leaf x) ∧
        DataKept m t root
    else ∃ t paths', Mmu.mapUserPage m root va page flags = some (.error (), t) ∧
      Shaped t root total paths' leaf ∧ DataKept m t root := by
  have haligned : page % 4096 = 0 := hpage.aligned h.tree.sound
  have hrange : m.pageInRange page = true := hpage.pageInRange h.tree.sound
  have hmap : Mmu.mapUserPage m root va page flags = mapUserLeaf m root va page flags := by
    rw [Mmu.mapUserPage, if_neg (by omega), if_neg (by omega), if_neg (by simp [hrange])]
  rw [hmap, mapUserLeaf_eq]
  have htable := h.lowTable fun size entry hleaf => by
    rw [hnone] at hleaf
    cases hleaf
  split at htable
  next hcard =>
    obtain ⟨low, t, hok, h', hlow, hkept⟩ := htable
    have hunused : ¬ Valid (pteRead t low (l0Index va)) := by
      intro hvalid
      have hleaf := h'.leaves va
      rw [Ends.leafAt_eq ⟨hlow, rfl⟩, if_pos hvalid, hnone] at hleaf
      cases hleaf
    obtain ⟨h'', hkept'⟩ := h'.writeLow (pte page (flags ||| pteU)) hlow
    have hvalid : Valid (pte page (flags ||| pteU)) := valid_pte.mpr (hflags.or _)
    simp only [if_pos hvalid] at h''
    rw [if_pos hcard, hok, Outcome.andThen_ok, if_neg hunused]
    exact ⟨_, rfl, h'', hkept.trans hkept'⟩
  next hcard =>
    obtain ⟨t, paths', herror, h', hkept⟩ := htable
    rw [if_neg hcard, herror]
    exact ⟨t, paths', rfl, h', hkept⟩

end Shaped

/-! ## Pages in addition -/

/-- Going from `m` to `m'` changed tables of the root, made new ones, and took the pages `owned`. -/
structure Grown (m m' : Usage) (root : Nat) (owned : List Nat) : Prop where
  nodup : owned.Nodup
  fresh : ∀ q ∈ owned, ¬ m.Taken q
  held : ∀ q ∈ owned, m'.HasPage q
  pages : ∀ q, (m'.Taken q ∧ ¬ IsTable m' root q) ↔ (m.Taken q ∧ ¬ IsTable m root q) ∨ q ∈ owned
  words : ∀ q x, m.Taken q → ¬ IsTable m root q → InPage q x → m'.read x = m.read x
  tables : ∀ {path q}, TableAt m root path q → TableAt m' root path q

namespace Grown

variable {m'' : Usage} {owned : List Nat}

theorem refl (m : Usage) (root : Nat) : Grown m m root [] where
  nodup := List.nodup_nil
  fresh _ hq := by cases hq
  held _ hq := by cases hq
  pages q := by simp
  words _ _ _ _ _ := rfl
  tables := id

variable (h : Grown m m' root owned)

include h

/-- Pages in addition are no tables. -/
theorem data {q : Nat} (hq : q ∈ owned) : m'.Taken q ∧ ¬ IsTable m' root q :=
  (h.pages q).mpr (.inr hq)

theorem dataKept (hkept : DataKept m' m'' root) : Grown m m'' root owned where
  nodup := h.nodup
  fresh := h.fresh
  held q hq := hkept.held (h.held q hq)
  pages q := (hkept.pages q).trans (h.pages q)
  words q x hq hdata hx := by
    obtain ⟨hq', hdata'⟩ := (h.pages q).mpr (.inl ⟨hq, hdata⟩)
    rw [hkept.words q x hq' hdata' hx, h.words q x hq hdata hx]
  tables htable := hkept.tables (h.tables htable)

/-- One more page is taken. -/
theorem take (htakes : Takes m' m'' page) (htree : Tree m' root)
    (htables : ∀ {path q}, TableAt m'' root path q ↔ TableAt m' root path q) :
    Grown m m'' root (owned ++ [page]) := by
  have hnew : page ∉ owned := fun hmem => htakes.unused (h.held page hmem).taken
  refine ⟨?_, fun q hq => ?_, fun q hq => ?_, fun q => ?_, fun q x hq hdata hx => ?_,
    fun htable => htables.mpr (h.tables htable)⟩
  · exact List.nodup_append.mpr ⟨h.nodup, List.nodup_singleton _, fun q hq q' hq' => by
      rw [List.mem_singleton.mp hq']
      rintro rfl
      exact hnew hq⟩
  · rcases List.mem_append.mp hq with hq | hq
    · exact h.fresh q hq
    · obtain rfl := List.mem_singleton.mp hq
      intro htaken
      by_cases htable : IsTable m root q
      · obtain ⟨path, htable⟩ := htable
        exact htakes.unused (htree.held rfl (h.tables htable))
      · exact htakes.unused ((h.pages q).mpr (.inl ⟨htaken, htable⟩)).1
  · rcases List.mem_append.mp hq with hq | hq
    · exact (htakes.pages q).mpr (.inr (h.held q hq))
    · exact (htakes.pages q).mpr (.inl (List.mem_singleton.mp hq))
  · rw [htakes.taken, IsTable.of_iff htables, List.mem_append, List.mem_singleton, ← or_assoc,
      ← h.pages]
    constructor
    · rintro ⟨rfl | hq, hdata⟩
      · exact .inr rfl
      · exact .inl ⟨hq, hdata⟩
    · rintro (⟨hq, hdata⟩ | rfl)
      · exact ⟨.inr hq, hdata⟩
      · exact ⟨.inl rfl, htree.not_isTable_of_takes htakes⟩
  · obtain ⟨hq', -⟩ := (h.pages q).mpr (.inl ⟨hq, hdata⟩)
    rw [htakes.frame q x hq' hx, h.words q x hq hdata hx]

/-- A word of an additional page is written. -/
theorem write (hpage : page ∈ owned) (hx : InPage page x)
    (htables : ∀ {path q}, TableAt (m'.write x value) root path q ↔ TableAt m' root path q) :
    Grown m (m'.write x value) root owned where
  nodup := h.nodup
  fresh := h.fresh
  held := h.held
  pages q := by
    rw [IsTable.of_iff htables]
    exact h.pages q
  words q y hq hdata hy := by
    obtain ⟨hq', -⟩ := (h.pages q).mpr (.inl ⟨hq, hdata⟩)
    rw [← h.words q y hq hdata hy]
    refine Function.update_of_ne ?_ _ _
    rintro rfl
    have hsame := hq'.eq_of_inPage (h.held page hpage).taken hy hx
    exact h.fresh page hpage (hsame ▸ hq)
  tables htable := htables.mpr (h.tables htable)

/-- An additional page is given back. -/
theorem give (hgives : Gives m' m'' page) (hpage : page ∈ owned)
    (htables : ∀ {path q}, TableAt m'' root path q ↔ TableAt m' root path q) :
    Grown m m'' root (owned.erase page) := by
  have hmem : ∀ q, q ∈ owned.erase page ↔ q ≠ page ∧ q ∈ owned := fun q => h.nodup.mem_erase_iff
  refine ⟨h.nodup.erase _, fun q hq => h.fresh q ((hmem q).mp hq).2, fun q hq => ?_, fun q => ?_,
    fun q x hq hdata hx => ?_, fun htable => htables.mpr (h.tables htable)⟩
  · exact (hgives.pages q).mpr ⟨((hmem q).mp hq).1, h.held q ((hmem q).mp hq).2⟩
  · have hpages := h.pages q
    have hfresh : m.Taken q → q ≠ page := by
      rintro htaken rfl
      exact h.fresh q hpage htaken
    rw [hgives.taken, IsTable.of_iff htables, hmem, and_assoc, hpages]
    tauto
  · obtain ⟨hq', -⟩ := (h.pages q).mpr (.inl ⟨hq, hdata⟩)
    rw [hgives.frame q x ?_ hq' hx, h.words q x hq hdata hx]
    rintro rfl
    exact h.fresh q hpage hq

end Grown

/-- A page that is mapped by itself is mapped by an entry of a level-0 table. -/
theorem tableAt_of_leafAt {entry : Nat} (h : leafAt m root va = some (4096, entry)) :
    ∃ low, TableAt m root [l1Index va, l2Index va] low := by
  unfold leafAt at h
  dsimp only at h
  split at h
  · cases h
  next hvalid₂ =>
  split at h
  · cases h
  next hleaf₂ =>
  split at h
  · cases h
  next hvalid₁ =>
  split at h
  · cases h
  next hleaf₁ =>
  have hmid : TableAt m root [l2Index va] _ :=
    .down .top (by simp) (l2Index_lt va) (not_not.mp hvalid₂) hleaf₂
  exact ⟨_, .down hmid (by simp) (l1Index_lt va) (not_not.mp hvalid₁) hleaf₁⟩

end Ignium.Mmu
