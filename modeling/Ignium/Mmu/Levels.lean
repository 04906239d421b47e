import Ignium.Mmu.Refinement

/-!
# Tables that address spaces may share

The functions of `kernel/src/mmu.rs` on memory in which address spaces may share tables. They rely
on less than the separation of `Ignium.Mmu.View`: every table is held, so that a new page is not
one of them, and no page is a table on two levels (`Leveled`). The second condition is there since
the bits of an entry do not say on which level it is read: an entry that links a new table is a leaf
for a walk that reads it on the last level.

`Extends R m m' slots pages` says what a call has done to the memory so far: it added empty tables,
it set the entries `slots`, which were unset, and it holds `pages`. `Extends.mapUserLeaf`,
`Extends.unmap4k`, `Extends.take` and `Extends.give` say what each call adds to that. A call that
has undone what it did is one with no slots and no pages left: `Extends.done`.
-/

namespace Ignium.Mmu

open Mem
open Usage (InPage Takes Gives)
open Spaces (TableAt)

variable {m m' m'' : Usage} {R : Nat → Prop} {root va table page i : Nat} {path : List Nat}

/-- A page is a table of one of the roots. -/
def IsTableOf (m : Usage) (R : Nat → Prop) (page : Nat) : Prop :=
  ∃ r, R r ∧ ∃ path, TableAt m r path page

/-- The tables of the roots are held, and each of them is a table on one level only. -/
structure Leveled (m : Usage) (R : Nat → Prop) : Prop where
  sound : m.Sound
  small : m.allocator.base + m.allocator.realCount * pageSize ≤ 2 ^ 56
  held : ∀ {r path table}, R r → TableAt m r path table → m.Taken table
  level : ∀ {r r' path path' table}, R r → R r' → TableAt m r path table →
    TableAt m r' path' table → path.length = path'.length

/-! ## Walks -/

theorem tableAt_unique {table' : Nat} (h : TableAt m root path table)
    (h' : TableAt m root path table') : table = table' := by
  induction h generalizing table' with
  | top =>
    cases h'
    rfl
  | down _ _ _ _ _ ih =>
    cases h' with
    | down hparent' => rw [ih hparent']

/-- The leaf of an address, with the number of bytes that it maps. -/
def leafAt (m : Usage) (root vaddr : Nat) : Option (Nat × Nat) :=
  let e2 := pteRead m root (l2Index vaddr)
  if ¬ Valid e2 then none
  else if Leaf e2 then some (1 <<< 30, e2)
  else
    let e1 := pteRead m (ptePaddr e2) (l1Index vaddr)
    if ¬ Valid e1 then none
    else if Leaf e1 then some (superPage, e1)
    else
      let e0 := pteRead m (ptePaddr e1) (l0Index vaddr)
      if ¬ Valid e0 then none else some (4096, e0)

theorem leafPte_eq_leafAt (m : Usage) (root va : Nat) :
    leafPte m root va = (leafAt m root va).elim 0 Prod.snd := by
  unfold leafPte leafAt
  dsimp only
  repeat' split
  all_goals rfl

/-- A walk for an address reads an entry of a table. -/
def Visits (m : Usage) (root va : Nat) (path : List Nat) (table i : Nat) : Prop :=
  TableAt m root path table ∧
    ((path = [] ∧ i = l2Index va) ∨ (path = [l2Index va] ∧ i = l1Index va) ∨
      (path = [l1Index va, l2Index va] ∧ i = l0Index va))

/-- A walk for an address ends at an entry of a level-0 table. -/
def Ends (m : Usage) (root va table i : Nat) : Prop :=
  TableAt m root [l1Index va, l2Index va] table ∧ i = l0Index va

theorem Visits.lt (h : Visits m root va path table i) : i < 512 := by
  obtain ⟨-, ⟨-, rfl⟩ | ⟨-, rfl⟩ | ⟨-, rfl⟩⟩ := h
  · exact l2Index_lt va
  · exact l1Index_lt va
  · exact l0Index_lt va

theorem Visits.ends (h : Visits m root va path table i) (hlen : path.length = 2) :
    Ends m root va table i := by
  obtain ⟨htable, ⟨rfl, -⟩ | ⟨rfl, -⟩ | ⟨rfl, hi⟩⟩ := h
  · cases hlen
  · cases hlen
  · exact ⟨htable, hi⟩

/-- The leaf at the end of a walk. -/
theorem Ends.leafAt_eq (h : Ends m root va table i) :
    leafAt m root va = if Valid (pteRead m table i) then some (4096, pteRead m table i) else none := by
  obtain ⟨hlow, rfl⟩ := h
  cases hlow with
  | down hmid _ _ hvalid₁ hleaf₁ =>
    cases hmid with
    | down htop _ _ hvalid₂ hleaf₂ =>
      cases htop
      unfold leafAt
      dsimp only
      rw [if_neg (not_not.mpr hvalid₂), if_neg hleaf₂, if_neg (not_not.mpr hvalid₁),
        if_neg hleaf₁, ite_not]

theorem Ends.leafPte_eq (h : Ends m root va table i) :
    leafPte m root va = if Valid (pteRead m table i) then pteRead m table i else 0 := by
  rw [leafPte_eq_leafAt, h.leafAt_eq]
  split
  · rfl
  · rfl

/-- An entry leads nowhere: it is unused, or it points to a table whose entries are unused. -/
def Vacant (m : Usage) (path : List Nat) (entry : Nat) : Prop :=
  ¬ Valid entry ∨
    (path.length < 2 ∧ ¬ Leaf entry ∧ ∀ j < 512, ¬ Valid (pteRead m (ptePaddr entry) j))

/-- A leaf is the same when the entries on the way to it are, or when they led nowhere before and
lead nowhere now. -/
theorem leafAt_congr (hread : ∀ path table i, Visits m root va path table i →
      pteRead m' table i = pteRead m table i ∨
        (¬ Valid (pteRead m table i) ∧ Vacant m' path (pteRead m' table i))) :
    leafAt m' root va = leafAt m root va := by
  unfold leafAt
  dsimp only
  rcases hread [] root _ ⟨.top, .inl ⟨rfl, rfl⟩⟩ with heq | ⟨hunused, hvacant⟩
  swap
  · rw [if_pos hunused]
    rcases hvacant with hunused' | ⟨-, hleaf, hempty⟩
    · rw [if_pos hunused']
    · rw [if_neg hleaf, if_pos (hempty _ (l1Index_lt va)), ite_self]
  rw [heq]
  by_cases hvalid : Valid (pteRead m root (l2Index va))
  swap
  · rw [if_pos hvalid, if_pos hvalid]
  by_cases hleaf : Leaf (pteRead m root (l2Index va))
  · rw [if_pos hleaf, if_pos hleaf]
  have hmid : TableAt m root [l2Index va] _ := .down .top (by simp) (l2Index_lt va) hvalid hleaf
  rw [if_neg (not_not.mpr hvalid), if_neg hleaf, if_neg (not_not.mpr hvalid), if_neg hleaf]
  rcases hread _ _ _ ⟨hmid, .inr (.inl ⟨rfl, rfl⟩)⟩ with heq | ⟨hunused, hvacant⟩
  swap
  · rw [if_pos hunused]
    rcases hvacant with hunused' | ⟨-, hleaf', hempty⟩
    · rw [if_pos hunused']
    · rw [if_neg hleaf', if_pos (hempty _ (l0Index_lt va)), ite_self]
  rw [heq]
  by_cases hvalid' : Valid (pteRead m (ptePaddr (pteRead m root (l2Index va))) (l1Index va))
  swap
  · rw [if_pos hvalid', if_pos hvalid']
  by_cases hleaf' : Leaf (pteRead m (ptePaddr (pteRead m root (l2Index va))) (l1Index va))
  · rw [if_pos hleaf', if_pos hleaf']
  have hlow := TableAt.down hmid (by simp) (l1Index_lt va) hvalid' hleaf'
  rw [if_neg (not_not.mpr hvalid'), if_neg hleaf', if_neg (not_not.mpr hvalid'), if_neg hleaf']
  rcases hread _ _ _ ⟨hlow, .inr (.inr ⟨rfl, rfl⟩)⟩ with heq | ⟨hunused, hunused' | ⟨hlen, -⟩⟩
  · rw [heq]
  · rw [if_pos hunused, if_pos hunused']
  · simp at hlen

theorem leafPte_congr (hleaf : leafAt m' root va = leafAt m root va) :
    leafPte m' root va = leafPte m root va := by
  rw [leafPte_eq_leafAt, leafPte_eq_leafAt, hleaf]

/-- A leaf that is set is an entry of a table. -/
theorem leafPte_entry (m : Usage) (root va : Nat) :
    leafPte m root va = 0 ∨ ∃ path table i, TableAt m root path table ∧ i < 512 ∧
      leafPte m root va = pteRead m table i := by
  by_cases hvalid : Valid (pteRead m root (l2Index va))
  swap
  · exact .inl (by simp [leafPte, hvalid])
  by_cases hleaf : Leaf (pteRead m root (l2Index va))
  · exact .inr ⟨_, _, _, .top, l2Index_lt va, by simp [leafPte, hvalid, hleaf]⟩
  have hmid := TableAt.down (.top : TableAt m root [] root) (by simp) (l2Index_lt va) hvalid hleaf
  by_cases hvalid' : Valid (pteRead m (ptePaddr (pteRead m root (l2Index va))) (l1Index va))
  swap
  · exact .inl (by simp [leafPte, hvalid, hleaf, hvalid'])
  by_cases hleaf' : Leaf (pteRead m (ptePaddr (pteRead m root (l2Index va))) (l1Index va))
  · exact .inr ⟨_, _, _, hmid, l1Index_lt va, by simp [leafPte, hvalid, hleaf, hvalid', hleaf']⟩
  have hlow := TableAt.down hmid (by simp) (l1Index_lt va) hvalid' hleaf'
  have hend : Ends m root va _ (l0Index va) := ⟨hlow, rfl⟩
  rw [hend.leafPte_eq]
  split
  · exact .inr ⟨_, _, _, hlow, l0Index_lt va, rfl⟩
  · exact .inl rfl

/-- A table that is there is found. -/
theorem ensureTable_of_tableAt {parent child : Nat} (hparent : TableAt m root path parent)
    (hchild : TableAt m root (i :: path) child) : ensureTable m parent i = some (.ok child, m) := by
  cases hchild with
  | down hparent' _ _ hvalid hleaf =>
    obtain rfl := tableAt_unique hparent hparent'
    simp only [ensureTable, if_pos hvalid, if_neg hleaf]

/-- The table above another one. -/
theorem tableAt_parent (h : TableAt m root (i :: path) table) :
    ∃ parent, TableAt m root path parent := by
  cases h with
  | down hparent => exact ⟨_, hparent⟩

/-- A list of pages with their levels leads to no other tables. -/
def Closed (m : Usage) (tables : List (Nat × Nat)) : Prop :=
  ∀ t ∈ tables, t.2 < 2 → ∀ i < 512, Valid (pteRead m t.1 i) → ¬ Leaf (pteRead m t.1 i) →
    (ptePaddr (pteRead m t.1 i), t.2 + 1) ∈ tables

instance (m : Usage) (tables : List (Nat × Nat)) : Decidable (Closed m tables) :=
  inferInstanceAs (Decidable (∀ t ∈ tables, _))

/-- The tables of a root that is in such a list. -/
theorem Closed.mem {tables : List (Nat × Nat)} (h : Closed m tables) (hroot : (root, 0) ∈ tables)
    (htable : TableAt m root path table) : (table, path.length) ∈ tables := by
  induction htable with
  | top => exact hroot
  | down _ hlen hi hvalid hleaf ih => exact h _ ih hlen _ hi hvalid hleaf

/-- The tables are the same when the entries of all of them are. -/
theorem tableAt_mono (hread : ∀ {path table i}, TableAt m root path table → path.length < 2 →
      i < 512 → Valid (pteRead m table i) → pteRead m' table i = pteRead m table i)
    (h : TableAt m root path table) : TableAt m' root path table := by
  induction h with
  | top => exact .top
  | down hparent hlen hi hvalid hleaf ih =>
    have heq := hread hparent hlen hi hvalid
    rw [← heq] at hvalid hleaf ⊢
    exact .down ih hlen hi hvalid hleaf

namespace Leveled

variable (h : Leveled m R)

include h

theorem ptePaddr_pte {flags : Nat} (hpage : m.Taken page) (hflags : flags < 2 ^ ptePpnShift) :
    ptePaddr (pte page flags) = page := by
  refine Mmu.ptePaddr_pte (hpage.aligned h.sound) ?_ hflags
  have hrange := hpage.pageInRange h.sound
  have hsmall := h.small
  simp only [Usage.pageInRange, BuddyAllocator.pageInRange, Bool.and_eq_true,
    decide_eq_true_eq] at hrange
  omega

/-- A page that was not held is no table. -/
theorem not_isTableOf (hpage : ¬ m.Taken page) : ¬ IsTableOf m R page := by
  rintro ⟨r, hr, path, htable⟩
  exact hpage (h.held hr htable)

/-! ## Changes outside the tables -/

section Frame

variable (hread : ∀ {r path table i}, R r → TableAt m r path table → i < 512 →
  pteRead m' table i = pteRead m table i)

include hread

omit h in
theorem frame_tableAt (hroot : R root) :
    TableAt m' root path table ↔ TableAt m root path table := by
  refine ⟨fun htable => ?_, fun htable => ?_⟩
  · induction htable with
    | top => exact .top
    | down _ hlen hi hvalid hleaf ih =>
      have heq := hread hroot ih hi
      rw [heq] at hvalid hleaf ⊢
      exact .down ih hlen hi hvalid hleaf
  · exact tableAt_mono (fun htable' _ hi _ => hread hroot htable' hi) htable

omit h in
theorem frame_isTableOf : IsTableOf m' R page ↔ IsTableOf m R page :=
  exists_congr fun _ => and_congr_right fun hr => exists_congr fun _ => frame_tableAt hread hr

omit h in
theorem frame_leafPte (hroot : R root) (va : Nat) : leafPte m' root va = leafPte m root va :=
  leafPte_congr (leafAt_congr fun _ _ _ hvisits => .inl (hread hroot hvisits.1 hvisits.lt))

theorem frame (hsound : m'.Sound) (hregion : BuddyAllocator.SameRegion m.allocator m'.allocator)
    (hheld : ∀ table, IsTableOf m R table → m'.Taken table) : Leveled m' R where
  sound := hsound
  small := by
    rw [hregion.1, hregion.2.1]
    exact h.small
  held hr htable := hheld _ ⟨_, hr, _, (frame_tableAt hread hr).mp htable⟩
  level hr hr' htable htable' :=
    h.level hr hr' ((frame_tableAt hread hr).mp htable) ((frame_tableAt hread hr').mp htable')

end Frame

/-- Taking a page leaves the tables alone. -/
theorem read_of_takes (htakes : Takes m m' page) {r : Nat} (hr : R r)
    (htable : TableAt m r path table) (hi : i < 512) : pteRead m' table i = pteRead m table i :=
  htakes.frame _ _ (h.held hr htable) (inPage_entry hi)

theorem take (htakes : Takes m m' page) : Leveled m' R :=
  h.frame (h.read_of_takes htakes) htakes.sound htakes.region
    fun _ ⟨_, hr, _, htable⟩ => (htakes.taken _).mpr (.inr (h.held hr htable))

/-! ## Linking a new table -/

/-- The entry that links a new table. -/
theorem link_self (htakes : Takes m m' page) (parent i : Nat) :
    pteRead (pteWrite m' parent i (pte page pteV)) parent i = pte page pteV ∧
      Valid (pte page pteV) ∧ ¬ Leaf (pte page pteV) ∧ ptePaddr (pte page pteV) = page :=
  ⟨pteRead_pteWrite_self, valid_pte.mpr (by decide), leaf_pte.not.mpr (by decide),
    (h.take htakes).ptePaddr_pte ((htakes.taken page).mpr (.inl rfl)) (by decide)⟩

section Link

variable {parent : Nat} (hroot : R root) (hparent : TableAt m root path parent) (hi : i < 512)
  (htakes : Takes m m' page)

include hroot hparent hi htakes

/-- The entries of the pages that were held, but for the one that was written. -/
theorem link_read {q j : Nat} (hq : m.Taken q) (hj : j < 512) (hne : ¬ (q = parent ∧ j = i)) :
    pteRead (pteWrite m' parent i (pte page pteV)) q j = pteRead m q j := by
  have hheld := h.held hroot hparent
  rw [pteRead_pteWrite_of_taken ((htakes.taken _).mpr (.inr hheld)) ((htakes.taken _).mpr (.inr hq))
    hi hj hne]
  exact htakes.frame q _ hq (inPage_entry hj)

/-- The entries of the new table. -/
theorem link_new (hzero : ∀ x, InPage page x → m'.read x = 0) {j : Nat} (hj : j < 512) :
    ¬ Valid (pteRead (pteWrite m' parent i (pte page pteV)) page j) := by
  have hheld := h.held hroot hparent
  have hne : page ≠ parent := by
    rintro rfl
    exact htakes.unused hheld
  rw [pteRead_pteWrite_of_taken ((htakes.taken _).mpr (.inr hheld)) ((htakes.taken _).mpr (.inl rfl))
    hi hj fun heq => hne heq.1]
  rw [pteRead, hzero _ (inPage_entry hj)]
  exact not_valid_zero

variable (hlen : path.length < 2) (hunused : ¬ Valid (pteRead m parent i))

include hunused in
theorem link_mono {r q : Nat} {path' : List Nat} (hr : R r) (htable : TableAt m r path' q) :
    TableAt (pteWrite m' parent i (pte page pteV)) r path' q :=
  tableAt_mono (fun htable' _ hj hvalid => h.link_read hroot hparent hi htakes (h.held hr htable') hj
    fun ⟨hsame, hidx⟩ => hunused (hsame ▸ hidx ▸ hvalid)) htable

variable (hzero : ∀ x, InPage page x → m'.read x = 0)

include hlen hunused hzero

/-- The tables after a new one was linked. -/
theorem link_tableAt {r q : Nat} {path' : List Nat} (hr : R r) :
    TableAt (pteWrite m' parent i (pte page pteV)) r path' q ↔
      TableAt m r path' q ∨ ∃ path₀, path' = i :: path₀ ∧ TableAt m r path₀ parent ∧ q = page := by
  obtain ⟨hself, hvalid, hleaf, hpaddr⟩ := h.link_self htakes parent i
  constructor
  · intro htable
    induction htable with
    | top => exact .inl .top
    | @down path' table j _ hlen' hj hvalid' hleaf' ih =>
      rcases ih with hold | ⟨-, -, -, rfl⟩
      · by_cases hsame : table = parent ∧ j = i
        · obtain ⟨rfl, rfl⟩ := hsame
          rw [hself, hpaddr]
          exact .inr ⟨path', rfl, hold, rfl⟩
        · rw [h.link_read hroot hparent hi htakes (h.held hr hold) hj hsame] at hvalid' hleaf' ⊢
          exact .inl (.down hold hlen' hj hvalid' hleaf')
      · exact absurd hvalid' (h.link_new hroot hparent hi htakes hzero hj)
  · rintro (hold | ⟨path₀, rfl, hold, rfl⟩)
    · exact h.link_mono hroot hparent hi htakes hunused hr hold
    · have hlen₀ : path₀.length < 2 := h.level hroot hr hparent hold ▸ hlen
      rw [← hself] at hvalid hleaf
      have hdown := TableAt.down (h.link_mono hroot hparent hi htakes hunused hr hold) hlen₀ hi
        hvalid hleaf
      rwa [hself, hpaddr] at hdown

theorem link_isTableOf {q : Nat} :
    IsTableOf (pteWrite m' parent i (pte page pteV)) R q ↔ q = page ∨ IsTableOf m R q := by
  constructor
  · rintro ⟨r, hr, path', htable⟩
    rcases (h.link_tableAt hroot hparent hi htakes hlen hunused hzero hr).mp htable with
      hold | ⟨-, -, -, rfl⟩
    · exact .inr ⟨r, hr, path', hold⟩
    · exact .inl rfl
  · rintro (rfl | ⟨r, hr, path', hold⟩)
    · exact ⟨root, hroot, _, (h.link_tableAt hroot hparent hi htakes hlen hunused hzero hroot).mpr
        (.inr ⟨path, rfl, hparent, rfl⟩)⟩
    · exact ⟨r, hr, path', h.link_mono hroot hparent hi htakes hunused hr hold⟩

/-- Linking a new table changes no leaf. -/
theorem link_leafAt {r : Nat} (hr : R r) (va : Nat) :
    leafAt (pteWrite m' parent i (pte page pteV)) r va = leafAt m r va := by
  obtain ⟨hself, -, hleaf, hpaddr⟩ := h.link_self htakes parent i
  refine leafAt_congr fun path' table j hvisits => ?_
  by_cases hsame : table = parent ∧ j = i
  · obtain ⟨rfl, rfl⟩ := hsame
    have hlen' : path'.length < 2 := h.level hroot hr hparent hvisits.1 ▸ hlen
    refine .inr ⟨hunused, .inr ⟨hlen', ?_, fun n hn => ?_⟩⟩
    · rwa [hself]
    · rw [hself, hpaddr]
      exact h.link_new hroot hparent hi htakes hzero hn
  · exact .inl (h.link_read hroot hparent hi htakes (h.held hr hvisits.1) hvisits.lt hsame)

theorem link : Leveled (pteWrite m' parent i (pte page pteV)) R := by
  have hparent' : m'.Taken parent := (htakes.taken _).mpr (.inr (h.held hroot hparent))
  have hcases := fun {r q : Nat} {path' : List Nat} (hr : R r) =>
    (h.link_tableAt hroot hparent hi htakes hlen hunused hzero hr : TableAt _ r path' q ↔ _)
  refine ⟨htakes.sound.writeTaken hparent' (inPage_entry hi), (h.take htakes).small,
    fun {r path' q} hr htable => ?_, fun {r r' p p' q} hr hr' htable htable' => ?_⟩
  · rcases (hcases hr).mp htable with hold | ⟨-, -, -, rfl⟩
    · exact (htakes.taken _).mpr (.inr (h.held hr hold))
    · exact (htakes.taken _).mpr (.inl rfl)
  · rcases (hcases hr).mp htable with hold | ⟨p₀, rfl, hold, rfl⟩
    · rcases (hcases hr').mp htable' with hold' | ⟨-, -, -, rfl⟩
      · exact h.level hr hr' hold hold'
      · exact absurd (h.held hr hold) htakes.unused
    · rcases (hcases hr').mp htable' with hold' | ⟨p₀', rfl, hold', -⟩
      · exact absurd (h.held hr' hold') htakes.unused
      · simpa using h.level hr hr' hold hold'

end Link

/-! ## Writing an entry of a level-0 table -/

section Low

variable {low : Nat} (value : Nat) (hroot : R root) (hlow : TableAt m root path low)
  (hlen : path.length = 2) (hi : i < 512)

include hroot hlow hi

theorem low_read {q j : Nat} (hq : m.Taken q) (hj : j < 512) (hne : ¬ (q = low ∧ j = i)) :
    pteRead (pteWrite m low i value) q j = pteRead m q j :=
  pteRead_pteWrite_of_taken (h.held hroot hlow) hq hi hj hne

include hlen

/-- The entries above level 0 are as before. -/
theorem low_upper {r q j : Nat} {path' : List Nat} (hr : R r) (hq : TableAt m r path' q)
    (hlen' : path'.length < 2) (hj : j < 512) :
    pteRead (pteWrite m low i value) q j = pteRead m q j := by
  refine h.low_read value hroot hlow hi (h.held hr hq) hj ?_
  rintro ⟨rfl, -⟩
  have heq := h.level hroot hr hlow hq
  omega

theorem low_tableAt {r q : Nat} {path' : List Nat} (hr : R r) :
    TableAt (pteWrite m low i value) r path' q ↔ TableAt m r path' q := by
  refine ⟨fun htable => ?_, fun htable => ?_⟩
  · induction htable with
    | top => exact .top
    | down _ hlen' hj hvalid hleaf ih =>
      have heq := h.low_upper value hroot hlow hlen hi hr ih hlen' hj
      rw [heq] at hvalid hleaf ⊢
      exact .down ih hlen' hj hvalid hleaf
  · exact tableAt_mono (fun htable' hlen' hj _ => h.low_upper value hroot hlow hlen hi hr htable' hlen' hj)
      htable

theorem low_isTableOf {q : Nat} : IsTableOf (pteWrite m low i value) R q ↔ IsTableOf m R q :=
  exists_congr fun _ => and_congr_right fun hr => exists_congr fun _ =>
    h.low_tableAt value hroot hlow hlen hi hr

theorem low_ends {r va q j : Nat} (hr : R r) :
    Ends (pteWrite m low i value) r va q j ↔ Ends m r va q j :=
  and_congr_left fun _ => h.low_tableAt value hroot hlow hlen hi hr

/-- The walks that end at the entry have a new leaf. -/
theorem low_leafAt_self {r va : Nat} (hr : R r) (hends : Ends m r va low i) :
    leafAt (pteWrite m low i value) r va = if Valid value then some (4096, value) else none := by
  rw [((h.low_ends value hroot hlow hlen hi hr).mpr hends).leafAt_eq, pteRead_pteWrite_self]

/-- The other ones have the leaf they had. -/
theorem low_leafAt_other {r va : Nat} (hr : R r) (hends : ¬ Ends m r va low i) :
    leafAt (pteWrite m low i value) r va = leafAt m r va := by
  refine leafAt_congr fun path' table j hvisits => .inl ?_
  refine h.low_read value hroot hlow hi (h.held hr hvisits.1) hvisits.lt ?_
  rintro ⟨rfl, rfl⟩
  exact hends (hvisits.ends (h.level hr hroot hvisits.1 hlow ▸ hlen))

theorem writeLow : Leveled (pteWrite m low i value) R where
  sound := h.sound.writeTaken (h.held hroot hlow) (inPage_entry hi)
  small := h.small
  held hr htable := h.held hr ((h.low_tableAt value hroot hlow hlen hi hr).mp htable)
  level hr hr' htable htable' := h.level hr hr' ((h.low_tableAt value hroot hlow hlen hi hr).mp htable)
    ((h.low_tableAt value hroot hlow hlen hi hr').mp htable')

end Low

end Leveled

/-! ## What a call has done so far -/

/-- A call went from `m` to `m'`. It added empty tables, it set the entries `slots` of level-0
tables, which were unset, and it holds `pages`, which it took. -/
structure Extends (R : Nat → Prop) (m m' : Usage) (slots : Nat → Nat → Prop) (pages : Nat → Prop) :
    Prop where
  leveled : Leveled m' R
  leaves : ∀ {r va}, R r → (∀ table i, slots table i → ¬ Ends m' r va table i) →
    leafPte m' r va = leafPte m r va
  unset : ∀ {r va table i}, R r → slots table i → Ends m' r va table i → leafPte m r va = 0
  low : ∀ {table i}, slots table i → IsTableOf m' R table
  keeps : ∀ {page}, m.Taken page → m'.Taken page
  taken : ∀ page, (m'.Taken page ∧ ¬ IsTableOf m' R page) ↔
    ((m.Taken page ∧ ¬ IsTableOf m R page) ∨ pages page)
  new : ∀ {page}, pages page → ¬ m.Taken page ∧ m'.HasPage page

namespace Extends

variable {slots : Nat → Nat → Prop} {pages : Nat → Prop}

/-- A call that has not begun. -/
theorem refl (h : Leveled m R) : Extends R m m (fun _ _ => False) fun _ => False where
  leveled := h
  leaves _ _ := rfl
  unset _ hslot := hslot.elim
  low hslot := hslot.elim
  keeps hpage := hpage
  taken _ := (or_iff_left not_false).symm
  new hpage := hpage.elim

/-- A call that has undone what it did: no leaf changed, and it holds no page but new tables. -/
theorem done (h : Extends R m m' slots pages) (hslots : ∀ table i, ¬ slots table i)
    (hpages : ∀ page, ¬ pages page) :
    (∀ r, R r → ∀ va, leafPte m' r va = leafPte m r va) ∧
      ∀ page, (m'.Taken page ∧ ¬ IsTableOf m' R page) ↔ (m.Taken page ∧ ¬ IsTableOf m R page) :=
  ⟨fun _ hr _ => h.leaves hr fun table i hslot => absurd hslot (hslots table i),
    fun page => (h.taken page).trans (or_iff_left (hpages page))⟩

variable (h : Extends R m m' slots pages)

include h

/-- Taking a page. -/
theorem take (htakes : Takes m' m'' page) :
    Extends R m m'' slots fun p => p = page ∨ pages p := by
  have hread : ∀ {r path table i}, R r → TableAt m' r path table → i < 512 →
      pteRead m'' table i = pteRead m' table i := fun hr htable hi =>
    h.leveled.read_of_takes htakes hr htable hi
  have hends : ∀ {r va table i}, R r → (Ends m'' r va table i ↔ Ends m' r va table i) := fun hr =>
    and_congr_left fun _ => Leveled.frame_tableAt hread hr
  refine ⟨h.leveled.take htakes, fun hr hnone => ?_, fun hr hslot hend => ?_, fun hslot => ?_,
    fun hpage => (htakes.taken _).mpr (.inr (h.keeps hpage)), fun p => ?_, ?_⟩
  · rw [Leveled.frame_leafPte hread hr]
    exact h.leaves hr fun table i hslot => (hends hr).not.mp (hnone table i hslot)
  · exact h.unset hr hslot ((hends hr).mp hend)
  · exact (Leveled.frame_isTableOf hread).mpr (h.low hslot)
  · rw [htakes.taken, Leveled.frame_isTableOf hread]
    constructor
    · rintro ⟨rfl | hp, htable⟩
      · exact .inr (.inl rfl)
      · rcases (h.taken p).mp ⟨hp, htable⟩ with hold | hp
        · exact .inl hold
        · exact .inr (.inr hp)
    · rintro (hold | rfl | hp)
      · exact ((h.taken p).mpr (.inl hold)).imp_left .inr
      · exact ⟨.inl rfl, h.leveled.not_isTableOf htakes.unused⟩
      · exact ((h.taken p).mpr (.inr hp)).imp_left .inr
  · rintro p (rfl | hp)
    · exact ⟨fun hold => htakes.unused (h.keeps hold), (htakes.pages _).mpr (.inl rfl)⟩
    · exact ⟨(h.new hp).1, (htakes.pages p).mpr (.inr (h.new hp).2)⟩

/-- Giving a page back. -/
theorem give {r : Except Unit Unit} (hpage : pages page)
    (hfree : m'.freePages page = some (r, m'')) :
    Extends R m m'' slots fun p => p ≠ page ∧ pages p := by
  obtain ⟨hnew, hhas⟩ := h.new hpage
  obtain ⟨t, hfree', hgives⟩ := h.leveled.sound.freePages hhas
  rw [hfree] at hfree'
  cases hfree'
  have hpage' := ((h.taken page).mpr (.inr hpage)).2
  have hne : ∀ {table}, IsTableOf m' R table → table ≠ page := by
    rintro table htable rfl
    exact hpage' htable
  have hread : ∀ {r path table i}, R r → TableAt m' r path table → i < 512 →
      pteRead m'' table i = pteRead m' table i := fun hr htable hi =>
    hgives.frame _ _ (hne ⟨_, hr, _, htable⟩) (h.leveled.held hr htable) (inPage_entry hi)
  have hends : ∀ {r va table i}, R r → (Ends m'' r va table i ↔ Ends m' r va table i) := fun hr =>
    and_congr_left fun _ => Leveled.frame_tableAt hread hr
  refine ⟨h.leveled.frame hread hgives.sound hgives.region ?_, fun hr hnone => ?_,
    fun hr hslot hend => ?_, fun hslot => ?_, fun {p} hp => ?_, fun p => ?_, ?_⟩
  · rintro table ⟨r, hr, path, htable⟩
    exact (hgives.taken _).mpr ⟨hne ⟨r, hr, path, htable⟩, h.leveled.held hr htable⟩
  · rw [Leveled.frame_leafPte hread hr]
    exact h.leaves hr fun table i hslot => (hends hr).not.mp (hnone table i hslot)
  · exact h.unset hr hslot ((hends hr).mp hend)
  · exact (Leveled.frame_isTableOf hread).mpr (h.low hslot)
  · refine (hgives.taken p).mpr ⟨?_, h.keeps hp⟩
    rintro rfl
    exact hnew hp
  · rw [hgives.taken, Leveled.frame_isTableOf hread, and_assoc, h.taken]
    constructor
    · rintro ⟨hp, hold | hpages⟩
      · exact .inl hold
      · exact .inr ⟨hp, hpages⟩
    · rintro (hold | ⟨hp, hpages⟩)
      · refine ⟨?_, .inl hold⟩
        rintro rfl
        exact hnew hold.1
      · exact ⟨hp, .inr hpages⟩
  · rintro p ⟨hp, hpages⟩
    exact ⟨(h.new hpages).1, (hgives.pages p).mpr ⟨hp, (h.new hpages).2⟩⟩

/-- Making a missing table. -/
theorem link {parent : Nat} (hroot : R root) (hparent : TableAt m' root path parent)
    (hi : i < 512) (htakes : Takes m' m'' page) (hlen : path.length < 2)
    (hunused : ¬ Valid (pteRead m' parent i)) (hzero : ∀ x, InPage page x → m''.read x = 0) :
    Extends R m (pteWrite m'' parent i (pte page pteV)) slots pages := by
  have hlinked := h.leveled.link hroot hparent hi htakes hlen hunused hzero
  have hisTable := fun {q} => h.leveled.link_isTableOf (q := q) hroot hparent hi htakes hlen hunused
    hzero
  -- The tables of the slots are old, and the old tables are where they were.
  have hends : ∀ {r va table j}, R r → slots table j →
      (Ends (pteWrite m'' parent i (pte page pteV)) r va table j ↔ Ends m' r va table j) := by
    intro r va table j hr hslot
    refine and_congr_left fun _ => (h.leveled.link_tableAt hroot hparent hi htakes hlen hunused hzero
      hr).trans (or_iff_left ?_)
    rintro ⟨-, -, -, rfl⟩
    exact h.leveled.not_isTableOf htakes.unused (h.low hslot)
  refine ⟨hlinked, fun hr hnone => ?_, fun hr hslot hend => ?_, fun hslot => ?_, fun hp => ?_,
    fun p => ?_, fun hp => ?_⟩
  · rw [leafPte_congr (h.leveled.link_leafAt hroot hparent hi htakes hlen hunused hzero hr _)]
    exact h.leaves hr fun table j hslot => (hends hr hslot).not.mp (hnone table j hslot)
  · exact h.unset hr hslot ((hends hr hslot).mp hend)
  · exact hisTable.mpr (.inr (h.low hslot))
  · exact (htakes.taken _).mpr (.inr (h.keeps hp))
  · rw [hisTable, ← h.taken]
    change m''.Taken p ∧ _ ↔ _
    rw [htakes.taken, not_or]
    constructor
    · rintro ⟨rfl | hp, hne, htable⟩
      · exact absurd rfl hne
      · exact ⟨hp, htable⟩
    · rintro ⟨hp, htable⟩
      refine ⟨.inr hp, ?_, htable⟩
      rintro rfl
      exact htakes.unused hp
  · exact ⟨(h.new hp).1, (htakes.pages _).mpr (.inr (h.new hp).2)⟩

section Write

variable {low : Nat} (hroot : R root) (hlow : TableAt m' root path low) (hlen : path.length = 2)
  (hi : i < 512)

include hroot hlow hlen hi

/-- Setting an entry that was unset. -/
theorem set (hunused : ¬ Valid (pteRead m' low i)) (value : Nat) :
    Extends R m (pteWrite m' low i value) (fun t j => (t = low ∧ j = i) ∨ slots t j) pages := by
  have hends := fun {r va q j : Nat} (hr : R r) =>
    (h.leveled.low_ends value hroot hlow hlen hi hr : Ends _ r va q j ↔ _)
  refine ⟨h.leveled.writeLow _ hroot hlow hlen hi, fun hr hnone => ?_, ?_, ?_, h.keeps, fun p => ?_,
    h.new⟩
  · rw [leafPte_congr (h.leveled.low_leafAt_other _ hroot hlow hlen hi hr
      ((hends hr).not.mp (hnone low i (.inl ⟨rfl, rfl⟩))))]
    exact h.leaves hr fun table j hslot => (hends hr).not.mp (hnone table j (.inr hslot))
  · rintro r va t j hr (⟨rfl, rfl⟩ | hslot) hend
    · rw [hends hr] at hend
      by_cases hother : ∃ t' j', slots t' j' ∧ Ends m' r va t' j'
      · obtain ⟨t', j', hslot, hend'⟩ := hother
        exact h.unset hr hslot hend'
      · rw [← h.leaves hr fun t' j' hslot hend' => hother ⟨t', j', hslot, hend'⟩, hend.leafPte_eq,
          if_neg hunused]
    · exact h.unset hr hslot ((hends hr).mp hend)
  · rintro t j (⟨rfl, rfl⟩ | hslot)
    · exact (h.leveled.low_isTableOf _ hroot hlow hlen hi).mpr ⟨root, hroot, path, hlow⟩
    · exact (h.leveled.low_isTableOf _ hroot hlow hlen hi).mpr (h.low hslot)
  · rw [h.leveled.low_isTableOf _ hroot hlow hlen hi]
    exact h.taken p

/-- Clearing an entry that was set. -/
theorem clear (hslot : slots low i) :
    Extends R m (pteWrite m' low i 0) (fun t j => ¬ (t = low ∧ j = i) ∧ slots t j) pages := by
  have hends := fun {r va q j : Nat} (hr : R r) =>
    (h.leveled.low_ends 0 hroot hlow hlen hi hr : Ends _ r va q j ↔ _)
  refine ⟨h.leveled.writeLow _ hroot hlow hlen hi, fun {r va} hr hnone => ?_, fun hr hslot' hend => ?_,
    fun hslot' => (h.leveled.low_isTableOf _ hroot hlow hlen hi).mpr (h.low hslot'.2), h.keeps,
    fun p => ?_, h.new⟩
  · by_cases hend : Ends m' r va low i
    · rw [leafPte_eq_leafAt, h.leveled.low_leafAt_self _ hroot hlow hlen hi hr hend,
        if_neg not_valid_zero, h.unset hr hslot hend, Option.elim_none]
    · rw [leafPte_congr (h.leveled.low_leafAt_other _ hroot hlow hlen hi hr hend)]
      refine h.leaves hr fun t j hslot' hend' => hnone t j ⟨?_, hslot'⟩ ((hends hr).mpr hend')
      rintro ⟨rfl, rfl⟩
      exact hend hend'
  · exact h.unset hr hslot'.2 ((hends hr).mp hend)
  · rw [h.leveled.low_isTableOf _ hroot hlow hlen hi]
    exact h.taken p

end Write

/-- An entry that is unset again. -/
theorem forget {low : Nat} (hslot : slots low i) (hunused : ¬ Valid (pteRead m' low i)) :
    Extends R m m' (fun t j => ¬ (t = low ∧ j = i) ∧ slots t j) pages := by
  refine ⟨h.leveled, fun {r va} hr hnone => ?_, fun hr hslot' => h.unset hr hslot'.2,
    fun hslot' => h.low hslot'.2, h.keeps, h.taken, h.new⟩
  by_cases hend : Ends m' r va low i
  · rw [hend.leafPte_eq, if_neg hunused, h.unset hr hslot hend]
  · refine h.leaves hr fun t j hslot' hend' => hnone t j ⟨?_, hslot'⟩ hend'
    rintro ⟨rfl, rfl⟩
    exact hend hend'

/-! ## The functions on tables -/

/-- Finding or making a table. -/
theorem ensureTable {parent : Nat} {result : Except Unit Nat} (hroot : R root)
    (hparent : TableAt m' root path parent) (hlen : path.length < 2) (hi : i < 512)
    (hensure : Mmu.ensureTable m' parent i = some (result, m'')) :
    Extends R m m'' slots pages ∧
      (∀ {r path t}, R r → TableAt m' r path t → TableAt m'' r path t) ∧
      ∀ child, result = .ok child → TableAt m'' root (i :: path) child := by
  unfold Mmu.ensureTable at hensure
  dsimp only at hensure
  by_cases hvalid : Valid (pteRead m' parent i)
  · rw [if_pos hvalid] at hensure
    by_cases hleaf : Leaf (pteRead m' parent i)
    · rw [if_pos hleaf] at hensure
      cases hensure
      exact ⟨h, fun _ htable => htable, fun child hok => by cases hok⟩
    · rw [if_neg hleaf] at hensure
      cases hensure
      refine ⟨h, fun _ htable => htable, fun child hok => ?_⟩
      cases hok
      exact .down hparent hlen hi hvalid hleaf
  rw [if_neg hvalid] at hensure
  rcases h.leveled.sound.allocPages with hnone | ⟨page, t, hsome, htakes⟩
  · rw [hnone] at hensure
    cases hensure
    exact ⟨h, fun _ htable => htable, fun child hok => by cases hok⟩
  · rw [hsome] at hensure
    cases hensure
    have hzero : ∀ x, InPage page x → (t.zeroPage page).read x = 0 := fun _ hx =>
      Usage.read_zeroPage_of_inPage hx
    refine ⟨h.link hroot hparent hi htakes.zeroed hlen hvalid hzero,
      fun hr => h.leveled.link_mono hroot hparent hi htakes.zeroed hvalid hr, fun child hok => ?_⟩
    cases hok
    exact (h.leveled.link_tableAt hroot hparent hi htakes.zeroed hlen hvalid hzero hroot).mpr
      (.inr ⟨path, rfl, hparent, rfl⟩)

/-- `mapUserLeaf` fails and adds empty tables only, or sets an entry that was unset. -/
theorem mapUserLeaf {paddr flags : Nat} {result : Except Unit Unit} (hroot : R root)
    (hmap : Mmu.mapUserLeaf m' root va paddr flags = some (result, m'')) :
    (∀ {r path t}, R r → TableAt m' r path t → TableAt m'' r path t) ∧
      ((result = .error () ∧ Extends R m m'' slots pages) ∨
        (result = .ok () ∧ ∃ low, Ends m'' root va low (l0Index va) ∧
          Extends R m m'' (fun t j => (t = low ∧ j = l0Index va) ∨ slots t j) pages)) := by
  unfold Mmu.mapUserLeaf at hmap
  simp only [ensureTableUser_eq] at hmap
  rcases Outcome.andThen_eq_some hmap with ⟨e, hfirst, rfl⟩ | ⟨l1, m₁, hfirst, hrest⟩
  · obtain ⟨h₁, hmono, -⟩ := h.ensureTable hroot .top (by simp) (l2Index_lt va) hfirst
    exact ⟨hmono, .inl ⟨rfl, h₁⟩⟩
  obtain ⟨h₁, hmono₁, hmid⟩ := h.ensureTable hroot .top (by simp) (l2Index_lt va) hfirst
  have hmid := hmid l1 rfl
  rcases Outcome.andThen_eq_some hrest with ⟨e, hsecond, rfl⟩ | ⟨l0, m₂, hsecond, hlast⟩
  · obtain ⟨h₂, hmono₂, -⟩ := h₁.ensureTable hroot hmid (by simp) (l1Index_lt va) hsecond
    exact ⟨fun hr htable => hmono₂ hr (hmono₁ hr htable), .inl ⟨rfl, h₂⟩⟩
  obtain ⟨h₂, hmono₂, hlow⟩ := h₁.ensureTable hroot hmid (by simp) (l1Index_lt va) hsecond
  have hlow := hlow l0 rfl
  have hmono : ∀ {r path t}, R r → TableAt m' r path t → TableAt m₂ r path t :=
    fun hr htable => hmono₂ hr (hmono₁ hr htable)
  by_cases hvalid : Valid (pteRead m₂ l0 (l0Index va))
  · rw [if_pos hvalid] at hlast
    cases hlast
    exact ⟨hmono, .inl ⟨rfl, h₂⟩⟩
  · rw [if_neg hvalid] at hlast
    cases hlast
    have hsame := fun {r path t} (hr : R r) =>
      (h₂.leveled.low_tableAt (pte paddr (flags ||| pteU)) hroot hlow rfl (l0Index_lt va) hr :
        TableAt _ r path t ↔ _)
    exact ⟨fun hr htable => (hsame hr).mpr (hmono hr htable), .inr ⟨rfl, l0,
      ⟨(hsame hroot).mpr hlow, rfl⟩, h₂.set hroot hlow rfl (l0Index_lt va) hvalid _⟩⟩

/-- The same with the checks of `mapUserPage`. -/
theorem mapUserPage {paddr flags : Nat} {result : Except Unit Unit} (hroot : R root)
    (hmap : Mmu.mapUserPage m' root va paddr flags = some (result, m'')) :
    (∀ {r path t}, R r → TableAt m' r path t → TableAt m'' r path t) ∧
      ((result = .error () ∧ Extends R m m'' slots pages) ∨
        (result = .ok () ∧ ∃ low, Ends m'' root va low (l0Index va) ∧
          Extends R m m'' (fun t j => (t = low ∧ j = l0Index va) ∨ slots t j) pages)) := by
  have hsame : some (.error (), m') = some (result, m'') →
      (∀ {r path t}, R r → TableAt m' r path t → TableAt m'' r path t) ∧
        result = .error () ∧ Extends R m m'' slots pages := by
    intro heq
    cases heq
    exact ⟨fun _ htable => htable, rfl, h⟩
  unfold Mmu.mapUserPage at hmap
  split at hmap
  · exact (hsame hmap).imp_right .inl
  split at hmap
  · exact (hsame hmap).imp_right .inl
  split at hmap
  · exact (hsame hmap).imp_right .inl
  · exact h.mapUserLeaf hroot hmap

/-- `unmap4k` clears an entry that was set. -/
theorem unmap4k {low : Nat} {result : Except Unit Unit} (hroot : R root)
    (hend : Ends m' root va low i) (hslot : slots low i)
    (hunmap : Mmu.unmap4k m' root va = some (result, m'')) :
    (∀ {r path t}, R r → TableAt m' r path t → TableAt m'' r path t) ∧
      Extends R m m'' (fun t j => ¬ (t = low ∧ j = i) ∧ slots t j) pages := by
  unfold Mmu.unmap4k at hunmap
  split at hunmap
  · next hzero =>
    cases hunmap
    refine ⟨fun _ htable => htable, h.forget hslot fun hvalid => ?_⟩
    rw [hend.leafPte_eq, if_pos hvalid] at hzero
    exact not_valid_zero (hzero ▸ hvalid)
  obtain ⟨hlow, rfl⟩ := hend
  -- The tables are there, so none is made.
  obtain ⟨mid, hmid⟩ := tableAt_parent hlow
  rw [ensureTable_of_tableAt .top hmid, Outcome.andThen_ok, ensureTable_of_tableAt hmid hlow,
    Outcome.andThen_ok] at hunmap
  cases hunmap
  exact ⟨fun hr => (h.leveled.low_tableAt 0 hroot hlow rfl (l0Index_lt va) hr).mpr,
    h.clear hroot hlow rfl (l0Index_lt va) hslot⟩

end Extends

end Ignium.Mmu
