import Ignium.Mmu.View

/-!
# Making an address space

A new root maps the kernel only: `Sees.createUserRoot` says that `createUserRoot` adds a root with
the leaves of `Board.kernelMap`, none of them for user code, and leaves every other address space
alone. The loops of `mapKernelRegion` are sequences of three functions, and each of them keeps
`Built`: it changes the new root only, and there it does to the map of leaves what its counterpart
on maps does. A large page may replace a level-0 table, whose page is then held by
nobody; on a board whose image ends below the large pages that follow it this never happens.
-/

namespace Ignium.Mmu

open Mem Function
open Usage (InPage Takes Gives)

namespace View

/-- Add a root that maps nothing. -/
def addRoot (V : View) (page : Nat) : View :=
  { V with
    root := fun r => r = page ∨ V.root r
    leaf := fun r n => if r = page then 0 else V.leaf r n }

/-- Going from `V` to `V'` changed the leaves of one root only, which has no user leaf. -/
structure Grows (V V' : View) (root : Nat) : Prop where
  roots : V'.root = V.root
  leaves : ∀ r, r ≠ root → V'.leaf r = V.leaf r
  plain : ∀ n, ¬ User (V'.leaf root n)
  data : ∀ p, V.data p → V'.data p
  word : ∀ p, V.data p → V'.word p = V.word p
  range : V'.inRange = V.inRange

theorem Grows.trans {V V' V'' : View} {root : Nat} (h : V.Grows V' root) (h' : V'.Grows V'' root) :
    V.Grows V'' root :=
  ⟨h'.roots.trans h.roots, fun r hr => (h'.leaves r hr).trans (h.leaves r hr), h'.plain,
    fun p hp => h'.data p (h.data p hp),
    fun p hp => (h'.word p (h.data p hp)).trans (h.word p hp), h'.range.trans h.range⟩

/-- Setting a leaf of the kernel. -/
theorem grows_setLeaf {V : View} {root entry : Nat} (n : Nat × Nat × Nat)
    (hplain : ∀ n, ¬ User (V.leaf root n)) (hentry : ¬ User entry) :
    V.Grows (V.setLeaf root n entry) root := by
  refine ⟨rfl, fun r hr => ?_, fun n' => ?_, fun _ hp => hp, fun _ _ => rfl, rfl⟩
  · funext n'
    exact if_neg fun heq => hr heq.1
  · change ¬ User (if root = root ∧ n' = n then entry else V.leaf root n')
    split
    · exact hentry
    · exact hplain n'

end View

namespace Sees

variable {m m' : Usage} {place : Nat → Option Place} {V : View} {table page root i j entry : Nat}

/-- A cleared page becomes the root of an address space that maps nothing. -/
theorem addRoot (h : Sees m place V) (htakes : Takes m m' page)
    (hzero : ∀ x, InPage page x → m'.read x = 0) :
    Sees m' (update place page (some ⟨page, []⟩)) (V.addRoot page) := by
  have hpage : m'.HasPage page := (htakes.pages page).mpr (.inl rfl)
  obtain ⟨hsees, -, hnone⟩ := h.take htakes
  have hold : ∀ {q spot}, place q = some spot →
      update place page (some ⟨page, []⟩) q = some spot := by
    intro q spot hq
    rw [update_of_ne, hq]
    rintro rfl
    rw [hnone] at hq
    cases hq
  have hblank : ∀ {n}, n < 512 → pteRead m' page n = 0 := fun hn => hzero _ (inPage_entry hn)
  have htables : Tables m' (update place page (some ⟨page, []⟩)) := by
    refine ⟨?_, ?_, ?_, ?_, ?_⟩
    · intro q spot hq
      by_cases hnew : q = page
      · exact hnew ▸ hpage
      · rw [update_of_ne hnew] at hq
        exact hsees.tables.held hq
    · intro q r hq
      by_cases hnew : q = page
      · subst hnew
        rw [update_self] at hq
        cases hq
        rfl
      · rw [update_of_ne hnew] at hq
        exact hsees.tables.top hq
    · intro q spot hq
      by_cases hnew : q = page
      · subst hnew
        rw [update_self] at hq
        cases hq
        simp
      · rw [update_of_ne hnew] at hq
        exact hsees.tables.depth hq
    · intro q spot n hq hlen hn hvalid
      by_cases hnew : q = page
      · subst hnew
        rw [hblank hn] at hvalid
        exact absurd hvalid not_valid_zero
      · rw [update_of_ne hnew] at hq
        exact (hsees.tables.down hq hlen hn hvalid).imp_right fun hdown => ⟨hdown.1, hold hdown.2⟩
    · intro q r n path hq
      by_cases hnew : q = page
      · subst hnew
        rw [update_self] at hq
        cases hq
      · rw [update_of_ne hnew] at hq
        obtain ⟨hn, parent, hparent, hentry⟩ := hsees.tables.up hq
        exact ⟨hn, parent, hold hparent, hentry⟩
  refine ⟨hsees.sound, hsees.small, htables, ?_, ?_, ?_, fun {p x} hp hx => ?_, hsees.range⟩
  · intro r
    change r = page ∨ V.root r ↔ _
    by_cases hr : r = page
    · subst hr
      simp
    · rw [update_of_ne hr, h.roots]
      simp [hr]
  · intro r hr vaddr
    change _ = if r = page then 0 else V.leaf r (vpn vaddr)
    by_cases hnew : r = page
    · subst hnew
      rw [if_pos rfl]
      unfold leafPte
      dsimp only
      rw [hblank (l2Index_lt vaddr), if_pos not_valid_zero]
    · rw [if_neg hnew]
      exact hsees.leaves (hr.resolve_left hnew) vaddr
  · intro p
    change V.data p ↔ _
    rw [htakes.pages, h.data]
    by_cases hp : p = page
    · subst hp
      simp [htakes.fresh]
    · rw [update_of_ne hp]
      simp [hp]
  · change V.data p at hp
    rw [htakes.words p x (h.data.mp hp).1 hx, h.words hp hx]
    rfl

/-- A large page of the kernel takes the place of whatever its entry held. -/
theorem writeMid (h : Sees m place V) (entry : Nat) (hmid : place table = some ⟨root, [i]⟩)
    (hj : j < 512)
    (hplain : ∀ n, ¬ User (V.leaf root n)) (hvalid : Valid entry) (hleaf : Leaf entry)
    (huser : ¬ User entry) :
    ∃ place' V', Sees (pteWrite m table j entry) place' V' ∧ V.Grows V' root ∧
      V'.leaf root = fun n => if n.1 = i ∧ n.2.1 = j then entry else V.leaf root n := by
  have htable : m.HasPage table := h.tables.held hmid
  have hread : ∀ {q spot n}, place q = some spot → n < 512 → ¬ (q = table ∧ n = j) →
      pteRead (pteWrite m table j entry) q n = pteRead m q n := fun hq hn hne =>
    pteRead_pteWrite_of_ne htable (h.tables.held hq) hj hn hne
  let gone : Place := ⟨root, [j, i]⟩
  let place' : Nat → Option Place := fun q => if place q = some gone then none else place q
  have hsome : ∀ {q spot}, place' q = some spot ↔ place q = some spot ∧ spot ≠ gone := by
    intro q spot
    change (if place q = some gone then none else place q) = some spot ↔ _
    split
    · next heq => simp [heq, eq_comm]
    · next hne =>
      refine ⟨fun hq => ⟨hq, ?_⟩, And.left⟩
      rintro rfl
      exact hne hq
  have hbelow : ∀ {q spot n}, place q = some spot → (⟨spot.root, n :: spot.path⟩ : Place) = gone →
      q = table ∧ n = j := by
    intro q spot n hq heq
    obtain ⟨r, path⟩ := spot
    change (⟨r, n :: path⟩ : Place) = ⟨root, [j, i]⟩ at heq
    cases heq
    exact ⟨h.tables.place_inj hq hmid, rfl⟩
  have htables : Tables (pteWrite m table j entry) place' := by
    refine ⟨?_, ?_, ?_, ?_, ?_⟩
    · intro q spot hq
      exact h.tables.held (hsome.mp hq).1
    · intro q r hq
      exact h.tables.top (hsome.mp hq).1
    · intro q spot hq
      exact h.tables.depth (hsome.mp hq).1
    · intro q spot n hq hlen hn hvalid'
      have hq' := (hsome.mp hq).1
      by_cases hhere : q = table ∧ n = j
      · obtain ⟨rfl, rfl⟩ := hhere
        obtain rfl := Option.some.inj (hq'.symm.trans hmid)
        rw [pteRead_pteWrite_self]
        exact .inl ⟨hleaf, by simp, huser⟩
      · rw [hread hq' hn hhere] at hvalid' ⊢
        refine (h.tables.down hq' hlen hn hvalid').imp_right fun hdown => ⟨hdown.1, ?_⟩
        exact hsome.mpr ⟨hdown.2, fun heq => hhere (hbelow hq' heq)⟩
    · intro q r n path hq
      obtain ⟨hq', hne⟩ := hsome.mp hq
      obtain ⟨hn, parent, hparent, hentry⟩ := h.tables.up hq'
      have hlen := h.tables.depth hq'
      refine ⟨hn, parent, hsome.mpr ⟨hparent, ?_⟩, ?_⟩
      · intro heq
        change (⟨r, path⟩ : Place) = ⟨root, [j, i]⟩ at heq
        cases heq
        simp at hlen
      · rw [hread hparent hn]
        · exact hentry
        · rintro ⟨rfl, rfl⟩
          cases hparent.symm.trans hmid
          exact hne rfl
  let leaf' : Nat → Nat × Nat × Nat → Nat := fun r n =>
    if r = root ∧ n.1 = i ∧ n.2.1 = j then entry else V.leaf r n
  -- The words of a table that is no table any more are what they are.
  let word' : Nat → Nat → Nat := fun p =>
    if place p = some gone then (pteWrite m table j entry).read else V.word p
  refine ⟨place', { V with leaf := leaf', data := fun p => V.data p ∨ place p = some gone, word := word' },
    ⟨h.sound.write htable (inPage_entry hj), h.small, htables, ?_, ?_, ?_, fun {p x} hp hx => ?_,
      h.range⟩,
    ⟨rfl, fun r hr => ?_, fun n => ?_, fun p hp => .inl hp, fun p hp => ?_, rfl⟩, ?_⟩
  · intro r
    change V.root r ↔ _
    rw [h.roots, hsome]
    exact ⟨fun hr => ⟨hr, by simp [gone]⟩, And.left⟩
  · intro r hr vaddr
    change V.root r at hr
    have hr' := h.roots.mp hr
    change _ = if r = root ∧ l2Index vaddr = i ∧ l1Index vaddr = j then entry else
      V.leaf r (vpn vaddr)
    obtain ⟨-, top, htop, hvalid₂, hleaf₂, hpaddr⟩ := h.tables.up hmid
    obtain rfl : root = top := h.tables.top htop
    have hroot_read : ∀ {q}, place q = some ⟨q, []⟩ → ∀ {n}, n < 512 →
        pteRead (pteWrite m table j entry) q n = pteRead m q n := by
      intro q hq n hn
      refine hread hq hn ?_
      rintro ⟨rfl, -⟩
      cases hq.symm.trans hmid
    by_cases hsame : r = root ∧ l2Index vaddr = i ∧ l1Index vaddr = j
    · rw [if_pos hsame]
      obtain ⟨rfl, hi, hj'⟩ := hsame
      unfold leafPte
      dsimp only
      rw [hroot_read hr' (l2Index_lt vaddr), hi, hj', if_neg (not_not.mpr hvalid₂), if_neg hleaf₂,
        hpaddr, pteRead_pteWrite_self, if_neg (not_not.mpr hvalid), if_pos hleaf]
    · rw [if_neg hsame, ← h.leaves hr]
      unfold leafPte
      dsimp only
      rw [hroot_read hr' (l2Index_lt vaddr)]
      by_cases hvalid' : Valid (pteRead m r (l2Index vaddr))
      swap
      · simp only [if_pos hvalid']
      obtain ⟨-, hmid'⟩ := h.tables.mid_place hr' (l2Index_lt vaddr) hvalid'
      have hmid_read : pteRead (pteWrite m table j entry)
          (ptePaddr (pteRead m r (l2Index vaddr))) (l1Index vaddr) =
          pteRead m (ptePaddr (pteRead m r (l2Index vaddr))) (l1Index vaddr) := by
        refine hread hmid' (l1Index_lt vaddr) ?_
        rintro ⟨heq, hj'⟩
        rw [heq, hmid] at hmid'
        cases hmid'
        exact hsame ⟨rfl, rfl, hj'⟩
      rw [hmid_read]
      by_cases hvalid'' : Valid (pteRead m (ptePaddr (pteRead m r (l2Index vaddr))) (l1Index vaddr))
      swap
      · simp only [if_pos hvalid'']
      rcases h.tables.down hmid' (by simp) (l1Index_lt vaddr) hvalid'' with ⟨hleaf', -⟩ | ⟨-, hlow⟩
      · simp only [if_pos hleaf']
      rw [hread hlow (l0Index_lt vaddr)]
      rintro ⟨heq, -⟩
      rw [heq, hmid] at hlow
      cases hlow
  · intro p
    change V.data p ∨ place p = some gone ↔ m.HasPage p ∧ (if _ then none else _) = none
    rw [h.data]
    by_cases hp : place p = some gone
    · simp [hp, h.tables.held hp]
    · simp [hp]
  · change _ = (if place p = some gone then (pteWrite m table j entry).read else V.word p) x
    split
    · rfl
    · next hgone =>
      have hold : V.data p := hp.resolve_right hgone
      rw [h.read_pteWrite hmid hj hold hx, h.words hold hx]
  · funext n
    exact if_neg fun heq => hr heq.1
  · change ¬ User (if root = root ∧ n.1 = i ∧ n.2.1 = j then entry else V.leaf root n)
    split
    · exact huser
    · exact hplain n
  · refine if_neg fun hgone => ?_
    rw [(h.data.mp hp).2] at hgone
    cases hgone
  · funext n
    simp [leaf']

end Sees

/-! ## The mappings of the kernel -/

/-- The leaves of an address space. -/
abbrev PageMap := Nat × Nat × Nat → Nat

namespace PageMap

/-- Set the leaf of one page. -/
def set4k (f : PageMap) (va entry : Nat) : PageMap := update f (vpn va) entry

/-- Set the leaves of the 512 pages of a large page. -/
def setSuper (f : PageMap) (va entry : Nat) : PageMap := fun n =>
  if n.1 = l2Index va ∧ n.2.1 = l1Index va then entry else f n

/-- Map `[start, stop)` to itself, page by page. -/
def region4k (f : PageMap) (start stop flags : Nat) : PageMap :=
  (addresses start stop 4096).foldl (fun f va => f.set4k va (pte va flags)) f

/-- Map the addresses from `start` on below `stop` to themselves, 2 MB at a time. -/
def regionSuper (f : PageMap) (start stop flags : Nat) : PageMap :=
  (addresses start stop superPage).foldl (fun f va => f.setSuper va (pte va flags)) f

/-- Take the mappings of pages away. -/
def clear (f : PageMap) (pages : List Nat) : PageMap :=
  pages.foldl (fun f page => f.set4k page 0) f

theorem clear_apply (f : PageMap) (pages : List Nat) (n : Nat × Nat × Nat) :
    f.clear pages n = if n ∈ pages.map vpn then 0 else f n := by
  induction pages generalizing f with
  | nil => rfl
  | cons page rest ih =>
    change (f.set4k page 0).clear rest n = _
    rw [ih, List.map_cons]
    by_cases hrest : n ∈ rest.map vpn
    · simp [hrest]
    · by_cases hn : n = vpn page
      · simp [hn, set4k]
      · simp [hrest, hn, set4k]

end PageMap

namespace Board

/-- The guards below the stacks of all harts. -/
def guards (base top : Nat) : List Nat :=
  (addresses base top trapStride).flatMap fun slot => addresses slot (slot + trapGuard) 4096

/-- The guard pages of the board. -/
def guardPages (b : Board) : List Nat :=
  b.stackGuard :: (guards b.trapStackBase b.trapStackTop ++ guards b.idleStackBase b.idleStackTop)

/-- What `mapKernelRegion` maps before it takes the guard pages away. -/
def image (b : Board) : PageMap :=
  let kernelSuperEnd := (b.kernelEnd + superPage - 1) / superPage * superPage
  let f := PageMap.regionSuper (fun _ => 0) b.ramStart b.kernelStart pteLeafR
  let f := f.region4k b.kernelStart b.textStart pteLeafRw
  let f := f.region4k b.textStart b.rodataStart pteLeafRx
  let f := f.region4k b.rodataStart b.dataStart pteLeafR
  let f := f.region4k b.dataStart b.kernelEnd pteLeafRw
  let f := if b.kernelEnd < kernelSuperEnd then f.region4k b.kernelEnd kernelSuperEnd pteLeafRw else f
  f.regionSuper kernelSuperEnd b.ramEnd pteLeafRw

/-- What `mapKernelRegion` maps. -/
def kernelMap (b : Board) : PageMap :=
  (b.image.clear b.guardPages).set4k b.uartBase (pte b.uartBase pteLeafRw)

/-- The guard pages are not mapped, unless the UART is put there. -/
theorem kernelMap_guard {b : Board} {va : Nat} (hguard : va ∈ b.guardPages)
    (huart : vpn va ≠ vpn b.uartBase) : b.kernelMap (vpn va) = 0 := by
  rw [kernelMap, PageMap.set4k, update_of_ne huart, PageMap.clear_apply,
    if_pos (List.mem_map_of_mem hguard)]

end Board

/-- The memory implements `V` but for the leaves of one root, which are no user leaves. -/
def Built (V : View) (root : Nat) (f : PageMap) (m : Usage) : Prop :=
  ∃ place V', Sees m place V' ∧ V.Grows V' root ∧ V'.leaf root = f

namespace Built

variable {m m' : Usage} {V : View} {f : PageMap} {root vaddr paddr flags start stop base top : Nat}

theorem set4k {place : Nat → Option Place} {V' : View} {entry : Nat} (hgrows : V.Grows V' root)
    (hleaf : V'.leaf root = f) (hentry : ¬ User entry)
    (hsees : Sees m' place (V'.setLeaf root (vpn vaddr) entry)) :
    Built V root (f.set4k vaddr entry) m' := by
  refine ⟨place, _, hsees, hgrows.trans (View.grows_setLeaf _ hgrows.plain hentry), ?_⟩
  funext n
  rw [← hleaf, PageMap.set4k, update_apply]
  simp [View.setLeaf]

section

variable (h : Built V root f m)
include h

theorem map4k (hroot : V.root root) (hvalid : Valid flags)
    (huser : ¬ User flags) (hmap : (Mmu.map4k m root vaddr paddr flags).expect = some m') :
    Built V root (f.set4k vaddr (pte paddr flags)) m' := by
  obtain ⟨place, V', hsees, hgrows, hleaf⟩ := h
  obtain ⟨-, hmap⟩ := Outcome.expect_eq_some hmap
  unfold Mmu.map4k at hmap
  rcases hsees.walk (hgrows.roots ▸ hroot) vaddr fun l0 m =>
      some (.ok (), pteWrite m l0 (l0Index vaddr) (pte paddr flags)) with
    ⟨m₁, place₁, -, herror⟩ | ⟨l0, m₁, place₁, h₁, hlow, hdone⟩
  · rw [herror] at hmap
    cases hmap
  · rw [hdone] at hmap
    cases hmap
    have hset := h₁.writeLow (pte paddr flags) hlow (l0Index_lt vaddr)
    rw [if_pos (valid_pte.mpr hvalid)] at hset
    exact set4k hgrows hleaf (fun hpte => huser (user_pte.mp hpte)) hset

theorem mapSuper (hroot : V.root root) (hvalid : Valid flags)
    (hleaf : Leaf flags) (huser : ¬ User flags)
    (hmap : (Mmu.mapSuper m root vaddr paddr flags).expect = some m') :
    Built V root (f.setSuper vaddr (pte paddr flags)) m' := by
  obtain ⟨place, V', hsees, hgrows, rfl⟩ := h
  obtain ⟨-, hmap⟩ := Outcome.expect_eq_some hmap
  unfold Mmu.mapSuper at hmap
  have hroot' : V'.root root := hgrows.roots ▸ hroot
  obtain ⟨result, m₁, place₁, htable, h₁, -, hmid⟩ :=
    hsees.ensureTable (hsees.roots.mp hroot') (by simp) (l2Index_lt vaddr)
  rw [htable] at hmap
  rcases result with ⟨⟩ | l1
  · cases hmap
  · cases hmap
    obtain ⟨place₂, V₂, h₂, hgrows₂, hleaf₂⟩ := h₁.writeMid (pte paddr flags) (hmid l1 rfl)
      (l1Index_lt vaddr) hgrows.plain (valid_pte.mpr hvalid) (leaf_pte.mpr hleaf)
      fun hpte => huser (user_pte.mp hpte)
    exact ⟨place₂, V₂, h₂, hgrows.trans hgrows₂, hleaf₂⟩

theorem unmap4k (hroot : V.root root) (hunmap : (Mmu.unmap4k m root vaddr).expect = some m') :
    Built V root (f.set4k vaddr 0) m' := by
  obtain ⟨place, V', hsees, hgrows, hleaf⟩ := h
  obtain ⟨-, hunmap⟩ := Outcome.expect_eq_some hunmap
  rcases hsees.unmap4k (hgrows.roots ▸ hroot) vaddr with ⟨herror, -⟩ | ⟨m₁, hok, -, h₁⟩
  · rw [herror] at hunmap
    cases hunmap
  · rw [hok] at hunmap
    cases hunmap
    exact set4k hgrows hleaf not_user_zero h₁

theorem mapRegion4k (hroot : V.root root) (hvalid : Valid flags)
    (huser : ¬ User flags) (hmap : Mmu.mapRegion4k m root start stop flags = some m') :
    Built V root (f.region4k start stop flags) m' := by
  unfold Mmu.mapRegion4k at hmap
  split at hmap
  · cases hmap
  · exact List.foldlM_simulation hmap h fun _ _ _ _ _ hs hstep => hs.map4k hroot hvalid huser hstep

theorem mapRegionSuper (hroot : V.root root) (hvalid : Valid flags)
    (hleaf : Leaf flags) (huser : ¬ User flags)
    (hmap : Mmu.mapRegionSuper m root start stop flags = some m') :
    Built V root (f.regionSuper start stop flags) m' :=
  List.foldlM_simulation hmap h fun _ _ _ _ _ hs hstep => hs.mapSuper hroot hvalid hleaf huser hstep

theorem unmapGuardPages (hroot : V.root root)
    (hunmap : Mmu.unmapGuardPages m root base top = some m') :
    Built V root (f.clear (Board.guards base top)) m' := by
  rw [PageMap.clear, Board.guards, List.foldl_flatMap]
  exact List.foldlM_simulation hunmap h fun _ _ _ _ _ hs hstep =>
    List.foldlM_simulation hstep hs fun _ _ _ _ _ hs' hstep' => hs'.unmap4k hroot hstep'

end

theorem mapKernelRegion {b : Board} (h : Built V root (fun _ => 0) m) (hroot : V.root root)
    (hmap : Mmu.mapKernelRegion b m root = some m') : Built V root b.kernelMap m' := by
  unfold Mmu.mapKernelRegion at hmap
  dsimp only at hmap
  split at hmap
  · cases hmap
  simp only [bind, Option.bind_eq_some_iff] at hmap
  obtain ⟨m₁, h₁, m₂, h₂, m₃, h₃, m₄, h₄, m₅, h₅, m₆, h₆, m₇, h₇, m₈, h₈, m₉, h₉, m₁₀, h₁₀, h₁₁⟩ :=
    hmap
  have b₁ := h.mapRegionSuper hroot (by decide) (by decide) (by decide) h₁
  have b₂ := b₁.mapRegion4k hroot (by decide) (by decide) h₂
  have b₃ := b₂.mapRegion4k hroot (by decide) (by decide) h₃
  have b₄ := b₃.mapRegion4k hroot (by decide) (by decide) h₄
  have b₅ := b₄.mapRegion4k hroot (by decide) (by decide) h₅
  have b₇ : Built V root b.image m₇ := by
    refine mapRegionSuper ?_ hroot (by decide) (by decide) (by decide) h₇
    split at h₆
    · next hrest =>
      rw [if_pos hrest]
      exact b₅.mapRegion4k hroot (by decide) (by decide) h₆
    · next hrest =>
      rw [if_neg hrest]
      cases h₆
      exact b₅
  have b₈ := b₇.unmap4k hroot h₈
  have b₉ := b₈.unmapGuardPages hroot h₉
  have b₁₀ := b₉.unmapGuardPages hroot h₁₀
  have b₁₁ := b₁₀.map4k hroot (by decide) (by decide) h₁₁
  rw [PageMap.clear, PageMap.clear, ← List.foldl_append] at b₁₁
  exact b₁₁

end Built

/-- `createUserRoot` fails and changes nothing, or it adds a root without user leaves. -/
theorem Sees.createUserRoot {b : Board} {m m' : Usage} {place : Nat → Option Place} {V : View}
    {result : Except Unit Nat} (h : Sees m place V)
    (hcreate : Mmu.createUserRoot b m = some (result, m')) :
    (result = .error () ∧ m' = m) ∨
      ∃ root place' V', result = .ok root ∧ ¬ V.root root ∧ ¬ V.data root ∧
        Sees m' place' V' ∧ (V.addRoot root).Grows V' root ∧ V'.leaf root = b.kernelMap := by
  unfold Mmu.createUserRoot at hcreate
  rcases h.sound.allocPages with hnone | ⟨root, m₁, hsome, htakes⟩
  · rw [hnone] at hcreate
    cases hcreate
    exact .inl ⟨rfl, rfl⟩
  · rw [hsome] at hcreate
    dsimp only at hcreate
    obtain ⟨m₂, hmap, ⟨⟩⟩ := Option.map_eq_some_iff.mp hcreate
    obtain ⟨-, hdata, hplace⟩ := h.take htakes
    have hadd := h.addRoot htakes.zeroed fun x hx => Usage.read_zeroPage_of_inPage hx
    have hzero : (V.addRoot root).leaf root = fun _ => 0 := by
      funext n
      exact if_pos rfl
    have hstart : Built (V.addRoot root) root (fun _ => 0) (m₁.zeroPage root) := by
      refine ⟨_, _, hadd, ⟨rfl, fun _ _ => rfl, fun n => ?_, fun _ hp => hp, fun _ _ => rfl, rfl⟩,
        hzero⟩
      rw [hzero]
      exact not_user_zero
    obtain ⟨place', V', hsees, hgrows, hleaf⟩ := hstart.mapKernelRegion (.inl rfl) hmap
    refine .inr ⟨root, place', V', rfl, fun hroot => ?_, hdata, hsees, hgrows, hleaf⟩
    rw [h.roots, hplace] at hroot
    cases hroot

end Ignium.Mmu
