import Ignium.Mmu.Trees

/-!
# Splitting entries of 2 MB

`split_superpage` replaces an entry of a level-1 table that maps 2 MB by a table of 512 entries.
`Tree.split` says what this does to the tables, `Tree.translate_split` that no translation changes,
and `split_unmap_map` that a page can be unmapped and mapped again without a trace.
-/

namespace Ignium.Mmu

open Mem
open Usage (InPage Takes)
open Spaces (TableAt)

/-- An entry of 2 MB says the same as one of the entries of 4 KB into which it is split. -/
theorem leafTarget_part {entry : Nat} (va : Nat) (haligned : ptePaddr entry % superPage = 0) :
    leafTarget 4096 (pte (ptePaddr entry + l0Index va * 4096) (pteFlags entry)) va =
      leafTarget superPage entry va := by
  have hsuper : superPage = 2 ^ 21 := by decide
  have hindex := l0Index_eq va
  have hbound : ptePaddr entry < 2 ^ 56 := by
    rw [ptePaddr, Nat.shiftLeft_eq]
    have hlt : (entry >>> ptePpnShift) &&& ptePpnMask < 2 ^ 44 :=
      Nat.lt_of_le_of_lt Nat.and_le_right (by decide)
    omega
  rw [hsuper] at haligned
  have hpage : ptePaddr (pte (ptePaddr entry + l0Index va * 4096) (pteFlags entry)) =
      ptePaddr entry + l0Index va * 4096 :=
    ptePaddr_pte_flags _ (by omega) (by omega)
  rw [leafTarget, leafTarget, hpage, pteFlags_pte, hsuper, if_pos haligned, if_pos (by omega), hindex]
  congr 2
  omega

variable {m m' : Usage} {root va page : Nat} {path : List Nat}

/-- Writing a word of the new page. -/
theorem Takes.write {s t : Usage} {x : Nat} (h : Takes s t page) (hx : InPage page x) (value : Nat) :
    Takes s (t.write x value) page where
  sound := h.sound.write ((h.pages page).mpr (.inl rfl)) hx
  region := h.region
  unused := h.unused
  pages := h.pages
  taken := h.taken
  frame q y hq hy := by
    rw [← h.frame q y hq hy]
    refine Function.update_of_ne ?_ _ _
    rintro rfl
    have hpage : t.Taken page := (h.taken page).mpr (.inl rfl)
    have hq' : t.Taken q := (h.taken q).mpr (.inr hq)
    exact h.unused (hq'.eq_of_inPage hpage hy hx ▸ hq)

/-- Filling a new table. -/
theorem Takes.fillTable (h : Takes m m' page) (paddr flags : Nat) :
    Takes m (fillTable m' page paddr flags) page ∧
      ∀ i < 512, pteRead (fillTable m' page paddr flags) page i = pte (paddr + i * 4096) flags := by
  suffices hfill : ∀ n ≤ 512,
      let filled := (List.range n).foldl
        (fun m i => pteWrite m page i (pte (paddr + i * 4096) flags)) m'
      Takes m filled page ∧ ∀ i < n, pteRead filled page i = pte (paddr + i * 4096) flags from
    hfill 512 (Nat.le_refl _)
  intro n
  induction n with
  | zero => exact fun _ => ⟨h, fun i hi => absurd hi (Nat.not_lt_zero _)⟩
  | succ n ih =>
    intro hn
    obtain ⟨htakes, hread⟩ := ih (by omega)
    simp only [List.range_succ, List.foldl_append, List.foldl_cons, List.foldl_nil]
    refine ⟨Takes.write htakes (inPage_entry (by omega)) _, fun i hi => ?_⟩
    by_cases hlast : i = n
    · subst hlast
      exact pteRead_pteWrite_self
    · have hpage := (htakes.taken page).mpr (.inl rfl)
      rw [pteRead_pteWrite_of_taken hpage hpage (by omega) (by omega) fun heq => hlast heq.2]
      exact hread i (by omega)

namespace Tree

variable (h : Tree m root)

include h

/-! ## Splitting -/

section Split

variable {mid sub : Nat} (hmid : TableAt m root [l2Index va] mid)
  (hvalid : Valid (pteRead m mid (l1Index va))) (hleaf : Leaf (pteRead m mid (l1Index va)))
  (htakes : Takes m m' sub)

include hmid hleaf htakes

/-- The tables after an entry of 2 MB was replaced by a table. -/
theorem split_tableAt {q : Nat} :
    TableAt (pteWrite m' mid (l1Index va) (pte sub pteV)) root path q ↔
      TableAt m root path q ∨ (path = [l1Index va, l2Index va] ∧ q = sub) := by
  obtain ⟨hself, hvalid', hleaf', hpaddr⟩ := h.link_self htakes mid (l1Index va)
  have hread := fun {q j} (hq : m.Taken q) (hj : j < 512) =>
    h.link_read rfl hmid (l1Index_lt va) htakes hq hj
  have hold : ∀ {path q}, TableAt m root path q →
      TableAt (pteWrite m' mid (l1Index va) (pte sub pteV)) root path q := by
    intro path q htable
    induction htable with
    | top => exact .top
    | @down path table j hparent hlen hj hvalid₁ hleaf₁ ih =>
      have heq := hread (h.held rfl hparent) hj fun ⟨hq, hindex⟩ => hleaf₁ (hq ▸ hindex ▸ hleaf)
      rw [← heq] at hvalid₁ hleaf₁ ⊢
      exact .down ih hlen hj hvalid₁ hleaf₁
  constructor
  · intro htable
    induction htable with
    | top => exact .inl .top
    | @down path table j _ hlen hj hvalid₁ hleaf₁ ih =>
      rcases ih with hparent | ⟨rfl, -⟩
      · by_cases hsame : table = mid ∧ j = l1Index va
        · obtain ⟨rfl, rfl⟩ := hsame
          rw [hself, hpaddr, h.unique hparent hmid]
          exact .inr ⟨rfl, rfl⟩
        · rw [hread (h.held rfl hparent) hj hsame] at hvalid₁ hleaf₁ ⊢
          exact .inl (.down hparent hlen hj hvalid₁ hleaf₁)
      · simp at hlen
  · rintro (htable | ⟨rfl, rfl⟩)
    · exact hold htable
    · rw [← hself] at hvalid' hleaf'
      have hdown := TableAt.down (hold hmid) (by simp) (l1Index_lt va) hvalid' hleaf'
      rwa [hself, hpaddr] at hdown

theorem split : Tree (pteWrite m' mid (l1Index va) (pte sub pteV)) root := by
  have hcases := fun {path : List Nat} {q : Nat} =>
    (h.split_tableAt hmid hleaf htakes : TableAt _ root path q ↔ _)
  have hnew : ∀ {path}, ¬ TableAt m root path sub := fun htable => htakes.unused (h.held rfl htable)
  have hunique : ∀ {path path' table}, TableAt (pteWrite m' mid (l1Index va) (pte sub pteV)) root path
      table → TableAt (pteWrite m' mid (l1Index va) (pte sub pteV)) root path' table → path = path' := by
    intro path path' table htable htable'
    rcases hcases.mp htable with hold | ⟨rfl, rfl⟩
    · rcases hcases.mp htable' with hold' | ⟨-, rfl⟩
      · exact h.unique hold hold'
      · exact absurd hold hnew
    · rcases hcases.mp htable' with hold' | ⟨rfl, -⟩
      · exact absurd hold' hnew
      · rfl
  refine ⟨⟨?_, (h.take htakes).small, ?_, ?_⟩, hunique⟩
  · exact htakes.sound.writeTaken ((htakes.taken _).mpr (.inr (h.held rfl hmid)))
      (inPage_entry (l1Index_lt va))
  · rintro r path table rfl htable
    rcases hcases.mp htable with hold | ⟨-, rfl⟩
    · exact (htakes.taken _).mpr (.inr (h.held rfl hold))
    · exact (htakes.taken _).mpr (.inl rfl)
  · rintro r r' path path' table rfl rfl htable htable'
    rw [hunique htable htable']

include hvalid

/-- No translation changes when the new table maps the pages that the entry mapped. -/
theorem translate_split (haligned : ptePaddr (pteRead m mid (l1Index va)) % superPage = 0)
    (hfilled : ∀ i < 512, pteRead m' sub i =
      pte (ptePaddr (pteRead m mid (l1Index va)) + i * 4096) (pteFlags (pteRead m mid (l1Index va))))
    (x : Nat) :
    translate (pteWrite m' mid (l1Index va) (pte sub pteV)) root x = translate m root x := by
  by_cases hsame : l2Index x = l2Index va ∧ l1Index x = l1Index va
  · obtain ⟨hl2, hl1⟩ := hsame
    have hends : Ends (pteWrite m' mid (l1Index va) (pte sub pteV)) root x sub (l0Index x) :=
      ⟨(h.split_tableAt hmid hleaf htakes).mpr (.inr ⟨by rw [hl2, hl1], rfl⟩), rfl⟩
    have hne : sub ≠ mid := by
      rintro rfl
      exact htakes.unused (h.held rfl hmid)
    have hread : pteRead (pteWrite m' mid (l1Index va) (pte sub pteV)) sub (l0Index x) =
        pteRead m' sub (l0Index x) :=
      pteRead_pteWrite_of_taken ((htakes.taken _).mpr (.inr (h.held rfl hmid)))
        ((htakes.taken _).mpr (.inl rfl)) (l1Index_lt va) (l0Index_lt x) fun heq => hne heq.1
    rw [translate, translate, hends.leafAt_eq, hread, hfilled _ (l0Index_lt x)]
    rw [← hl1] at hvalid hleaf haligned ⊢
    rw [← hl2] at hmid
    rw [leafAt_mid hmid hvalid hleaf, if_pos (valid_pte.mpr (valid_pteFlags.mpr hvalid)),
      Option.bind_some, Option.bind_some]
    exact leafTarget_part _ haligned
  · refine translate_congr (leafAt_congr fun path table i hvisits => .inl ?_)
    refine h.link_read rfl hmid (l1Index_lt va) htakes (h.held rfl hvisits.1) hvisits.lt ?_
    rintro ⟨rfl, rfl⟩
    have hpath := h.unique hvisits.1 hmid
    obtain ⟨-, ⟨hnil, -⟩ | ⟨hone, hindex⟩ | ⟨htwo, -⟩⟩ := hvisits
    · rw [hnil] at hpath
      cases hpath
    · rw [hpath] at hone
      exact hsame ⟨by simpa using hone.symm, hindex.symm⟩
    · rw [htwo] at hpath
      simp at hpath

end Split

/-! ## The functions of the kernel -/

/-- An entry of 2 MB is split when there is a page for the table. -/
theorem splitSuperpage {mid sub : Nat} {taken : Usage} (hmid : TableAt m root [l2Index va] mid)
    (hvalid : Valid (pteRead m mid (l1Index va))) (hleaf : Leaf (pteRead m mid (l1Index va)))
    (haligned : ptePaddr (pteRead m mid (l1Index va)) % superPage = 0)
    (halloc : m.allocPages 0 = some (some sub, taken)) :
    ∃ t, Mmu.splitSuperpage m root va = some (.ok (), t) ∧ Tree t root ∧
      TableAt t root [l1Index va, l2Index va] sub ∧ ∀ x, translate t root x = translate m root x := by
  rcases h.sound.allocPages with hnone | ⟨sub', taken', hsome, htakes⟩
  · rw [halloc] at hnone
    cases hnone
  rw [halloc] at hsome
  cases hsome
  obtain ⟨htakes, hfilled⟩ := Takes.fillTable htakes.zeroed (ptePaddr (pteRead m mid (l1Index va)))
    (pteFlags (pteRead m mid (l1Index va)))
  refine ⟨_, ?_, h.split hmid hleaf htakes, (h.split_tableAt hmid hleaf htakes).mpr (.inr ⟨rfl, rfl⟩),
    h.translate_split hmid hvalid hleaf htakes haligned hfilled⟩
  simp only [Mmu.splitSuperpage, ensureTable_of_tableAt .top hmid, Outcome.andThen_ok,
    if_neg (not_not.mpr hvalid), if_neg (not_not.mpr hleaf), halloc]

omit h in
/-- Where there is a table, there is nothing to split. -/
theorem splitSuperpage_of_low {low : Nat} (hlow : TableAt m root [l1Index va, l2Index va] low) :
    Mmu.splitSuperpage m root va = some (.ok (), m) := by
  obtain ⟨mid, hmid⟩ := tableAt_parent hlow
  rw [Mmu.splitSuperpage, ensureTable_of_tableAt .top hmid, Outcome.andThen_ok]
  cases hlow with
  | down hmid' _ _ hvalid hleaf =>
    obtain rfl := tableAt_unique hmid hmid'
    simp only [if_neg (not_not.mpr hvalid), if_pos hleaf]

/-- The entry of a page is cleared. -/
theorem unmap4k {low : Nat} (hlow : TableAt m root [l1Index va, l2Index va] low) :
    ∃ t, Mmu.unmap4k m root va = some (.ok (), t) ∧ Tree t root ∧
      TableAt t root [l1Index va, l2Index va] low ∧
      ∀ x, translate t root x = if vpn x = vpn va then none else translate m root x := by
  have hends : Ends m root va low (l0Index va) := ⟨hlow, rfl⟩
  by_cases hzero : leafPte m root va = 0
  · refine ⟨m, if_pos hzero, h, hlow, fun x => ?_⟩
    split
    next hvpn =>
      have hends' := (h.low_ends_iff hlow x).mpr hvpn
      rw [translate, hends'.leafAt_eq, if_neg, Option.bind_none]
      intro hvalid
      rw [hends.leafPte_eq, if_pos hvalid] at hzero
      exact not_valid_zero (hzero ▸ hvalid)
    next => rfl
  · obtain ⟨mid, hmid⟩ := tableAt_parent hlow
    refine ⟨pteWrite m low (l0Index va) 0, ?_, h.writeLow 0 hlow, ?_, fun x => ?_⟩
    · rw [Mmu.unmap4k, if_neg hzero, ensureTable_of_tableAt .top hmid, Outcome.andThen_ok,
        ensureTable_of_tableAt hmid hlow, Outcome.andThen_ok]
    · exact (h.writeLow_iff 0 hlow).mpr hlow
    · rw [translate, h.leafAt_writeLow 0 hlow, if_neg not_valid_zero]
      split
      · rfl
      · rfl

/-- The entry of a page is set. -/
theorem map4k {low : Nat} (hlow : TableAt m root [l1Index va, l2Index va] low) (paddr : Nat)
    {flags : Nat} (hflags : Valid flags) :
    ∃ t, Mmu.map4k m root va paddr flags = some (.ok (), t) ∧
      ∀ x, translate t root x =
        if vpn x = vpn va then leafTarget 4096 (pte paddr flags) x else translate m root x := by
  obtain ⟨mid, hmid⟩ := tableAt_parent hlow
  refine ⟨pteWrite m low (l0Index va) (pte paddr flags), ?_, fun x => ?_⟩
  · rw [Mmu.map4k, ensureTable_of_tableAt .top hmid, Outcome.andThen_ok,
      ensureTable_of_tableAt hmid hlow, Outcome.andThen_ok]
  · rw [translate, h.leafAt_writeLow _ hlow, if_pos (valid_pte.mpr hflags)]
    split
    · rfl
    · rfl

end Tree

theorem index_of_superPage {x : Nat} (h : x / superPage = va / superPage) :
    l2Index x = l2Index va ∧ l1Index x = l1Index va := by
  have hsuper : superPage = 2 ^ 21 := by decide
  rw [hsuper] at h
  rw [l2Index_eq, l2Index_eq, l1Index_eq, l1Index_eq]
  omega

/-- Splitting an entry of 2 MB is invisible: no translation changes, and splitting again, at any
address of the 2 MB, does nothing. Taking the mapping of a page away takes away the translation of
this page only, and mapping it again as it was restores every translation. -/
theorem split_unmap_map {mid sub : Nat} {taken : Usage} (htree : Tree m root)
    (hmid : TableAt m root [l2Index va] mid) (hvalid : Valid (pteRead m mid (l1Index va)))
    (hleaf : Leaf (pteRead m mid (l1Index va)))
    (haligned : ptePaddr (pteRead m mid (l1Index va)) % superPage = 0)
    (halloc : m.allocPages 0 = some (some sub, taken)) :
    ∃ t, splitSuperpage m root va = some (.ok (), t) ∧
      (∀ x, translate t root x = translate m root x) ∧
      (∀ x, x / superPage = va / superPage → splitSuperpage t root x = some (.ok (), t)) ∧
      ∃ u, unmapKernel4k m root va = some (.ok (), u) ∧
        (∀ x, translate u root x = if vpn x = vpn va then none else translate m root x) ∧
        ∃ paddr flags, translate m root va = some (paddr, flags) ∧
          ∃ w, mapKernel4k u root va (paddr / 4096 * 4096) flags = some (.ok (), w) ∧
            ∀ x, translate w root x = translate m root x := by
  obtain ⟨t, hsplit, htree', hlow, hsame⟩ := htree.splitSuperpage hmid hvalid hleaf haligned halloc
  refine ⟨t, hsplit, hsame, fun x hx => ?_, ?_⟩
  · obtain ⟨hl2, hl1⟩ := index_of_superPage hx
    rw [← hl2, ← hl1] at hlow
    exact Tree.splitSuperpage_of_low hlow
  obtain ⟨u, hunmap, htree'', hlow', hgone⟩ := htree'.unmap4k hlow
  refine ⟨u, ?_, fun x => by rw [hgone, hsame], ?_⟩
  · rw [unmapKernel4k, hsplit, Outcome.andThen_ok, hunmap]
  have hva : translate m root va = leafTarget superPage (pteRead m mid (l1Index va)) va := by
    rw [translate, leafAt_mid hmid hvalid hleaf, Option.bind_some]
  refine ⟨_, _, hva.trans (if_pos haligned), ?_⟩
  obtain ⟨w, hmap, hback⟩ := htree''.map4k hlow'
    ((ptePaddr (pteRead m mid (l1Index va)) + va % superPage) / 4096 * 4096)
    (valid_pteFlags.mpr hvalid)
  refine ⟨w, ?_, fun x => ?_⟩
  · rw [mapKernel4k, Tree.splitSuperpage_of_low hlow', Outcome.andThen_ok, hmap]
  · rw [hback, hgone, hsame]
    split
    next hvpn =>
      simp only [vpn, Prod.mk.injEq] at hvpn
      obtain ⟨hl2, hl1, hl0⟩ := hvpn
      have hpage : (ptePaddr (pteRead m mid (l1Index va)) + va % superPage) / 4096 * 4096 =
          ptePaddr (pteRead m mid (l1Index va)) + l0Index x * 4096 := by
        have hindex := l0Index_eq va
        have hsuper : superPage = 2 ^ 21 := by decide
        rw [hl0, hindex]
        rw [hsuper] at haligned ⊢
        omega
      rw [hpage, leafTarget_part _ haligned, ← hl1]
      rw [← hl1] at hvalid hleaf
      rw [← hl2] at hmid
      rw [translate, leafAt_mid hmid hvalid hleaf, Option.bind_some]
    next => rfl

/-- The tables of an address space are a tree. -/
theorem Spaces.Sound.tree {s : Spaces} (h : s.Sound) (hroot : root ∈ s.roots) : Tree s.mem root := by
  have hunique : ∀ {path path' table}, TableAt s.mem root path table →
      TableAt s.mem root path' table → path = path' := fun htable htable' =>
    (h.apart root hroot root hroot _ _ _ htable htable').2
  obtain ⟨place, V, hsees, hroots⟩ := h
  refine ⟨⟨hsees.sound, hsees.small, ?_, ?_⟩, hunique⟩
  · rintro r path table rfl htable
    exact (hsees.tables.held (place_of_tableAt hsees ((hroots r).mpr hroot) htable)).taken
  · rintro r r' path path' table rfl rfl htable htable'
    rw [hunique htable htable']

set_option maxRecDepth 100000 in
/-- The first address space of the small board, whose memory is mapped 2 MB at a time. -/
theorem split_unmap_map_small :
    ∃ m root mid, TableAt m root [l2Index 0x80201000] mid ∧
      translate m root 0x80201008 = some (0x80201008, pteLeafRw) ∧
      ∃ t, splitSuperpage m root 0x80201000 = some (.ok (), t) ∧
        (∀ x, translate t root x = translate m root x) ∧
        (∀ x, x / superPage = 0x80201000 / superPage → splitSuperpage t root x = some (.ok (), t)) ∧
        ∃ u, unmapKernel4k m root 0x80201000 = some (.ok (), u) ∧
          (∀ x, translate u root x =
            if vpn x = vpn 0x80201000 then none else translate m root x) ∧
          ∃ paddr flags, translate m root 0x80201000 = some (paddr, flags) ∧
            ∃ w, mapKernel4k u root 0x80201000 (paddr / 4096 * 4096) flags = some (.ok (), w) ∧
              ∀ x, translate w root x = translate m root x := by
  -- The root and its level-1 table, whose entry maps the 2 MB of the address.
  obtain ⟨⟨r, s⟩, hcall, heval⟩ : ∃ r, (Spaces.start Kernel.smallMem).call Kernel.smallBoard .create =
      some r ∧ decide (0x80300000 ∈ r.2.roots ∧
        (Valid (pteRead r.2.mem 0x80300000 (l2Index 0x80201000)) ∧
          ¬ Leaf (pteRead r.2.mem 0x80300000 (l2Index 0x80201000)) ∧
          ptePaddr (pteRead r.2.mem 0x80300000 (l2Index 0x80201000)) = 0x80301000) ∧
        pteRead r.2.mem 0x80301000 (l1Index 0x80201000) = pte 0x80200000 pteLeafRw ∧
        (r.2.mem.allocPages 0).map (·.1.isSome) = some true ∧
        translate r.2.mem 0x80300000 0x80201008 = some (0x80201008, pteLeafRw)) = true :=
    Option.map_eq_some_iff.mp (by decide +kernel)
  obtain ⟨hroot, ⟨hvalid, hleaf, hpaddr⟩, hentry, hpage, htranslate⟩ := of_decide_eq_true heval
  dsimp only at hroot hvalid hleaf hpaddr hentry hpage htranslate
  obtain ⟨⟨page, taken⟩, halloc, hsome⟩ := Option.map_eq_some_iff.mp hpage
  obtain ⟨sub, rfl⟩ := Option.isSome_iff_exists.mp hsome
  have hregion : Region 0x80300000 32 := ⟨by decide, by decide, by decide⟩
  have hstart : Spaces.Sound (Spaces.start Kernel.smallMem) :=
    ⟨_, _, hregion.sees _ _, fun r => by simp [View.bare, Spaces.start]⟩
  have hadmits : (Spaces.start Kernel.smallMem).Admits .create := trivial
  have htree : Tree s.mem 0x80300000 := (hstart.call hadmits hcall).2.tree hroot
  have hmid := TableAt.down (.top : TableAt s.mem 0x80300000 [] _) (by simp) (l2Index_lt _) hvalid hleaf
  rw [hpaddr] at hmid
  refine ⟨s.mem, _, _, hmid, htranslate, ?_⟩
  exact split_unmap_map htree hmid (by rw [hentry]; decide +kernel) (by rw [hentry]; decide +kernel)
    (by rw [hentry]; decide +kernel) halloc

end Ignium.Mmu
