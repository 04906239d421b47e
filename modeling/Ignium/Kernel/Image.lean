import Ignium.Kernel.Loading
import Ignium.Mmu.KernelMap
import Ignium.Mmu.UserMap

/-!
# The pages of a load

The loader of `kernel/src/elf.rs` on a single tree. The loops over segments and over the pages of the
stack are one loop over pages with their flags and their bytes (`PageItem`). `Loaded` ties the memory
to what has been mapped since the start: which pages are held in addition, where each is mapped, what
it holds, and that all other mappings are as before.

`Loaded.mapItem` says exactly when a page can be mapped, and `Loaded.mapItems` when all of them can:
they are unmapped at the start, and there is a page for each of them and for every missing table.
`Loaded.rollback` undoes all of it.
-/

namespace Ignium.Kernel

open Mem Mmu
open Usage (InPage Takes Gives HasFree)

/-! ## Pages to map -/

/-- What all addresses hold when a page is filled. -/
def place (content : Nat → Nat) (p : PageItem) (x : Nat) : Nat :=
  if x / pageSize * pageSize = p.va then p.byte x else content x

theorem foldl_place_of_notMem {items : List PageItem} {x : Nat} (content : Nat → Nat)
    (h : x / pageSize * pageSize ∉ items.map PageItem.va) : items.foldl place content x = content x := by
  induction items generalizing content with
  | nil => rfl
  | cons p items ih =>
    rw [List.map_cons, List.mem_cons, not_or] at h
    rw [List.foldl_cons, ih _ h.2, place, if_neg h.1]

theorem foldl_place_of_mem {items : List PageItem} {p : PageItem} {x : Nat} (content : Nat → Nat)
    (hnodup : (items.map PageItem.va).Nodup) (hp : p ∈ items) (hx : x / pageSize * pageSize = p.va) :
    items.foldl place content x = p.byte x := by
  induction items generalizing content with
  | nil => cases hp
  | cons q items ih =>
    obtain ⟨hfirst, hnodup⟩ := List.nodup_cons.mp hnodup
    rw [List.foldl_cons]
    rcases List.mem_cons.mp hp with rfl | hp
    · rw [foldl_place_of_notMem _ (hx ▸ hfirst), place, if_pos hx]
    · exact ih _ hnodup hp

/-- A loop over items that are made of others. -/
theorem mapEach_pmap {α β : Type} {P : α → Prop} {f : ∀ x, P x → β}
    {step : Loading → α → Outcome Loading ElfError Unit}
    {step' : Loading → β → Outcome Loading ElfError Unit}
    (h : ∀ s x hx, step' s (f x hx) = step s x) {xs : List α} (hxs : ∀ x ∈ xs, P x) (s : Loading) :
    mapEach step' (xs.pmap f hxs) s = mapEach step xs s := by
  induction xs generalizing s with
  | nil => rfl
  | cons x xs ih =>
    rw [List.pmap_cons, mapEach, mapEach, h]
    congr 1
    funext _ s'
    exact ih _ s'

theorem mapEach_append {α : Type} (step : Loading → α → Outcome Loading ElfError Unit)
    (xs ys : List α) (s : Loading) :
    mapEach step (xs ++ ys) s = (mapEach step xs s).andThen fun _ s => mapEach step ys s := by
  induction xs generalizing s with
  | nil => rfl
  | cons x xs ih =>
    rw [List.cons_append, mapEach, mapEach]
    rcases step s x with _ | ⟨_ | _, s'⟩
    · rfl
    · rfl
    · exact ih s'

/-- The places of the tables on the way to addresses. -/
def tablesFor : List Nat → Finset (List Nat)
  | [] => ∅
  | va :: vas => tablesAt va ∪ tablesFor vas

/-- Addresses that are different and unmapped. -/
def AllUnmapped (m : Usage) (root : Nat) (vas : List Nat) : Prop :=
  vas.Nodup ∧ ∀ va ∈ vas, leafAt m root va = none

instance (m : Usage) (root : Nat) (vas : List Nat) : Decidable (AllUnmapped m root vas) :=
  inferInstanceAs (Decidable (_ ∧ _))

theorem allUnmapped_nil {m : Usage} {root : Nat} : AllUnmapped m root [] := ⟨List.nodup_nil, nofun⟩

theorem allUnmapped_cons {m : Usage} {root va : Nat} {vas : List Nat} :
    AllUnmapped m root (va :: vas) ↔ leafAt m root va = none ∧ va ∉ vas ∧ AllUnmapped m root vas := by
  rw [AllUnmapped, AllUnmapped, List.nodup_cons, List.forall_mem_cons]
  tauto

/-- One more page is mapped. -/
theorem allUnmapped_congr {m m' : Usage} {root va : Nat} {vas : List Nat}
    (h : ∀ x ∈ vas, leafAt m' root x = none ↔ leafAt m root x = none ∧ x ≠ va) :
    AllUnmapped m' root vas ↔ AllUnmapped m root vas ∧ va ∉ vas := by
  unfold AllUnmapped
  constructor
  · rintro ⟨hnodup, hnone⟩
    refine ⟨⟨hnodup, fun x hx => ((h x hx).mp (hnone x hx)).1⟩, fun hva => ?_⟩
    exact ((h va hva).mp (hnone va hva)).2 rfl
  · rintro ⟨⟨hnodup, hnone⟩, hva⟩
    refine ⟨hnodup, fun x hx => (h x hx).mpr ⟨hnone x hx, ?_⟩⟩
    rintro rfl
    exact hva hx

/-! ## What has been mapped -/

/-- An address is mapped and holds a value. -/
def Holds (m : Usage) (root x value : Nat) : Prop :=
  ∃ y flags, translate m root x = some (y, flags) ∧ m.read y = value

/-- A page that is mapped. -/
structure Entry where
  va : Nat
  pa : Nat
  flags : Nat

/-- Entries with the addresses and flags of pages have their addresses. -/
theorem map_va_eq {entries : List Entry} {items : List PageItem}
    (h : entries.map (fun e => (e.va, e.flags)) = items.map fun p => (p.va, p.flags)) :
    entries.map Entry.va = items.map PageItem.va := by
  have hfst := congrArg (List.map Prod.fst) h
  rw [List.map_map, List.map_map] at hfst
  exact hfst

/-- The state of a load that started at `m₀` with a list of pages: the pages of `entries` are mapped, pages of `extra` are
only held, and the pages of the addresses that are mapped hold `content`. -/
structure Loaded (m₀ : Usage) (before : List (Nat × Nat)) (root total : Nat)
    (paths : Finset (List Nat)) (entries : List Entry) (extra : List Nat) (content : Nat → Nat)
    (s : Loading) : Prop where
  shaped : Shaped s.1 root total paths (leafAt s.1 root)
  grown : Grown m₀ s.1 root (entries.map Entry.pa ++ extra)
  done : s.2 = before ++ entries.map fun e => (e.va, e.pa)
  aligned : ∀ e ∈ entries, e.va % pageSize = 0 ∧ e.va < userVaLimit
  mapped : ∀ e ∈ entries, leafAt s.1 root e.va = some (4096, pte e.pa (e.flags ||| pteU))
  others : ∀ x, (∀ e ∈ entries, vpn x ≠ vpn e.va) → leafAt s.1 root x = leafAt m₀ root x
  unmapped : ∀ e ∈ entries, leafAt m₀ root e.va = none
  nodup : (entries.map Entry.va).Nodup
  words : ∀ e ∈ entries, ∀ off < pageSize, s.1.read (e.pa + off) = content (e.va + off)

/-- Two pages of user code have one page number when they are the same. -/
theorem vpn_eq_iff_of_aligned {va va' : Nat} (h : va % pageSize = 0 ∧ va < userVaLimit)
    (h' : va' % pageSize = 0 ∧ va' < userVaLimit) : vpn va = vpn va' ↔ va = va' := by
  have hlimit : userVaLimit = 2 ^ 38 := by decide
  have hpage : pageSize = 4096 := rfl
  rw [hlimit, hpage] at h h'
  rw [vpn_eq_page (by omega) (by omega) h'.1]
  omega

namespace Loaded

variable {m₀ t : Usage} {root total page va : Nat} {paths : Finset (List Nat)} {entries : List Entry}
  {extra : List Nat} {content : Nat → Nat} {s : Loading} {before done : List (Nat × Nat)}

theorem start {m : Usage} (h : Shaped m root total paths (leafAt m root)) (content : Nat → Nat) :
    Loaded m before root total paths [] [] content (m, before) where
  shaped := h
  grown := .refl m root
  done := (List.append_nil _).symm
  aligned _ he := by cases he
  mapped _ he := by cases he
  others _ _ := rfl
  unmapped _ he := by cases he
  nodup := List.nodup_nil
  words _ he := by cases he

/-- A change that leaves the tree and the pages of the entries alone. -/
theorem congr {m m' : Usage} {total' : Nat} {paths' : Finset (List Nat)} {extra' : List Nat}
    (h : Loaded m₀ before root total paths entries extra content (m, done))
    (hshaped : Shaped m' root total' paths' (leafAt m root))
    (hgrown : Grown m₀ m' root (entries.map Entry.pa ++ extra'))
    (hread : ∀ e ∈ entries, ∀ off < pageSize, m'.read (e.pa + off) = m.read (e.pa + off)) :
    Loaded m₀ before root total' paths' entries extra' content (m', done) where
  shaped := ⟨hshaped.tree, hshaped.places, fun _ => rfl, hshaped.room⟩
  grown := hgrown
  done := h.done
  aligned := h.aligned
  mapped e he := (hshaped.leaves e.va).trans (h.mapped e he)
  others x hx := (hshaped.leaves x).trans (h.others x hx)
  unmapped := h.unmapped
  nodup := h.nodup
  words e he off hoff := (hread e he off hoff).trans (h.words e he off hoff)

theorem inPage_off (pa : Nat) {off : Nat} (hoff : off < pageSize) : InPage pa (pa + off) :=
  ⟨Nat.le_add_right _ _, Nat.add_lt_add_left hoff _⟩

theorem mem_owned {e : Entry} (he : e ∈ entries) : e.pa ∈ entries.map Entry.pa ++ extra :=
  List.mem_append_left _ (List.mem_map_of_mem he)

/-- A page is taken, or there is none. -/
theorem take (h : Loaded m₀ before root total paths entries [] content s) :
    if paths.card < total then
      ∃ page t, s.1.allocPagesZeroed 0 = some (some page, t) ∧
        (∀ x, InPage page x → t.read x = 0) ∧
        (∀ x, leafAt t root x = leafAt s.1 root x) ∧
        Loaded m₀ before root (total - 1) paths entries [page] content (t, s.2)
    else s.1.allocPagesZeroed 0 = some (none, s.1) := by
  have htake := h.shaped.take
  split at htake
  next hlt =>
    obtain ⟨page, t, halloc, htakes, hzero, hshaped, htables⟩ := htake
    rw [if_pos hlt]
    have hgrown := h.grown.take htakes h.shaped.tree htables
    rw [List.append_nil] at hgrown
    refine ⟨page, t, halloc, hzero, hshaped.leaves, h.congr hshaped hgrown fun e he off hoff => ?_⟩
    exact htakes.frame e.pa _ (h.grown.held _ (mem_owned he)).taken (inPage_off e.pa hoff)
  next hlt =>
    rw [if_neg hlt]
    exact htake

/-- Two pages that are held in addition are different. -/
theorem pa_ne_extra (h : Loaded m₀ before root total paths entries extra content s) {e : Entry}
    (he : e ∈ entries) (hpage : page ∈ extra) : e.pa ≠ page :=
  (List.nodup_append.mp h.grown.nodup).2.2 _ (List.mem_map_of_mem he) _ hpage

/-- A word of a page that is only held is written. -/
theorem write {x : Nat} (h : Loaded m₀ before root total paths entries extra content (t, done))
    (hpage : page ∈ extra) (hx : InPage page x) (value : Nat) :
    Loaded m₀ before root total paths entries extra content (t.write x value, done) ∧
      ∀ y, leafAt (t.write x value) root y = leafAt t root y := by
  have howned : page ∈ entries.map Entry.pa ++ extra := List.mem_append_right _ hpage
  have hheld := h.grown.held page howned
  obtain ⟨hshaped, htables⟩ := h.shaped.write hheld (h.grown.data howned).2 hx value
  refine ⟨h.congr hshaped (h.grown.write howned hx htables) fun e he off hoff => ?_, hshaped.leaves⟩
  refine Function.update_of_ne ?_ _ _
  rintro rfl
  have htaken := (h.grown.held e.pa (mem_owned he)).taken
  exact h.pa_ne_extra he hpage (htaken.eq_of_inPage hheld.taken (inPage_off e.pa hoff) hx)

theorem read_copyBytes (m : Usage) (addr : Nat) (bytes : List UInt8) :
    (Kernel.copyBytes m addr bytes).read = copied m.read addr bytes := by
  induction bytes generalizing m addr with
  | nil => rfl
  | cons byte rest ih => exact ih _ _

/-- Bytes are copied to a page that is only held. -/
theorem copyBytes {addr : Nat} {bytes : List UInt8}
    (h : Loaded m₀ before root total paths entries extra content (t, done)) (hpage : page ∈ extra)
    (hlow : page ≤ addr) (hhigh : addr + bytes.length ≤ page + pageSize) :
    Loaded m₀ before root total paths entries extra content (Kernel.copyBytes t addr bytes, done) ∧
      ∀ y, leafAt (Kernel.copyBytes t addr bytes) root y = leafAt t root y := by
  induction bytes generalizing t addr with
  | nil => exact ⟨h, fun _ => rfl⟩
  | cons byte rest ih =>
    rw [List.length_cons] at hhigh
    obtain ⟨hwrite, hleaf⟩ := h.write hpage ⟨hlow, by omega⟩ byte.toNat
    have hnext : page ≤ addr + 1 := by omega
    obtain ⟨hrest, hleaf'⟩ := ih hwrite hnext (by omega)
    exact ⟨hrest, fun y => (hleaf' y).trans (hleaf y)⟩

/-- The page that is only held is given back. -/
theorem give (h : Loaded m₀ before root total paths entries [page] content (t, done)) :
    ∃ u total', t.freePages page = some (.ok (), u) ∧
      Loaded m₀ before root total' paths entries [] content (u, done) := by
  have howned : page ∈ entries.map Entry.pa ++ [page] := List.mem_append_right _ (.head _)
  obtain ⟨u, total', hfree, hgives, hshaped, htables⟩ :=
    h.shaped.give (h.grown.held page howned) (h.grown.data howned).2
  have hgrown := h.grown.give hgives howned htables
  have hnew : page ∉ entries.map Entry.pa := fun hmem => by
    obtain ⟨e, he, heq⟩ := List.mem_map.mp hmem
    exact h.pa_ne_extra he (.head _) heq
  rw [List.erase_append_right _ hnew, List.erase_cons_head] at hgrown
  refine ⟨u, total', hfree, h.congr hshaped hgrown fun e he off hoff => ?_⟩
  exact hgives.frame e.pa _ (h.pa_ne_extra he (.head _)) (h.grown.held _ (mem_owned he)).taken
    (inPage_off e.pa hoff)

/-- The page that is only held is mapped, if there is a page for every missing table. -/
theorem map {flags : Nat} (h : Loaded m₀ before root total paths entries [page] content (t, done))
    (hva : va % pageSize = 0 ∧ va < userVaLimit) (hflags : Valid flags)
    (hnone : leafAt t root va = none) :
    if (paths ∪ tablesAt va).card ≤ total then
      ∃ u, Mmu.mapUserPage t root va page flags = some (.ok (), u) ∧
        (∀ x, leafAt u root x =
          if vpn x = vpn va then some (4096, pte page (flags ||| pteU)) else leafAt t root x) ∧
        Loaded m₀ before root total (paths ∪ tablesAt va) (entries ++ [⟨va, page, flags⟩]) []
          (fun x => if x / pageSize * pageSize = va then t.read (page + (x - va)) else content x)
          (u, done ++ [(va, page)])
    else ∃ u paths', Mmu.mapUserPage t root va page flags = some (.error (), u) ∧
      Loaded m₀ before root total paths' entries [page] content (u, done) := by
  have howned : page ∈ entries.map Entry.pa ++ [page] := List.mem_append_right _ (.head _)
  have hwords : ∀ {u : Usage}, DataKept t u root → ∀ q ∈ entries.map Entry.pa ++ [page],
      ∀ off < pageSize, u.read (q + off) = t.read (q + off) := by
    intro u hkept q hq off hoff
    exact hkept.words q _ (h.grown.data hq).1 (h.grown.data hq).2 (inPage_off q hoff)
  have hmap := h.shaped.mapUserPage hva.2 (h.grown.held page howned).taken hflags hnone
  split at hmap
  next hcard =>
    obtain ⟨u, hok, hshaped, hkept⟩ := hmap
    have hnew : ∀ e ∈ entries, e.va ≠ va := by
      rintro e he rfl
      rw [h.mapped e he] at hnone
      cases hnone
    have hvpn : ∀ e ∈ entries, vpn e.va ≠ vpn va := fun e he heq =>
      hnew e he ((vpn_eq_iff_of_aligned (h.aligned e he) hva).mp heq)
    have hleaf := hshaped.leaves
    rw [if_pos hcard]
    refine ⟨u, hok, hleaf, ⟨hshaped.tree, hshaped.places, fun _ => rfl, hshaped.room⟩, ?_, ?_,
      fun e he => ?_, fun e he => ?_, fun x hx => ?_, fun e he => ?_, ?_, fun e he off hoff => ?_⟩
    · have hgrown := h.grown.dataKept hkept
      simpa using hgrown
    · have hdone := h.done
      simp only at hdone
      simp [hdone]
    · rcases List.mem_append.mp he with he | he
      · exact h.aligned e he
      · obtain rfl := List.mem_singleton.mp he
        exact hva
    · rcases List.mem_append.mp he with he | he
      · exact (hleaf e.va).trans ((if_neg (hvpn e he)).trans (h.mapped e he))
      · obtain rfl := List.mem_singleton.mp he
        exact (hleaf va).trans (if_pos rfl)
    · have hne : vpn x ≠ vpn va := hx ⟨va, page, flags⟩ (List.mem_append_right _ (.head _))
      refine (hleaf x).trans ((if_neg hne).trans (h.others x fun e he => ?_))
      exact hx e (List.mem_append_left _ he)
    · rcases List.mem_append.mp he with he | he
      · exact h.unmapped e he
      · obtain rfl := List.mem_singleton.mp he
        exact (h.others va fun e he heq => hvpn e he heq.symm).symm.trans hnone
    · rw [List.map_append, List.nodup_append]
      refine ⟨h.nodup, List.nodup_singleton _, ?_⟩
      rintro v hv v' hv' rfl
      obtain ⟨e, he, rfl⟩ := List.mem_map.mp hv
      exact hnew e he (List.mem_singleton.mp hv')
    · have hpage : pageSize = 4096 := rfl
      rcases List.mem_append.mp he with he | he
      · have haligned := (h.aligned e he).1
        have hne := hnew e he
        rw [hwords hkept e.pa (mem_owned he) off hoff, if_neg, ← h.words e he off hoff]
        rw [hpage] at hoff haligned hva ⊢
        omega
      · obtain rfl := List.mem_singleton.mp he
        change u.read (page + off) = if (va + off) / pageSize * pageSize = va then
          t.read (page + (va + off - va)) else _
        rw [hwords hkept page howned off hoff, if_pos, Nat.add_sub_cancel_left]
        rw [hpage] at hoff hva ⊢
        omega
  next hcard =>
    obtain ⟨u, paths', herror, hshaped, hkept⟩ := hmap
    rw [if_neg hcard]
    exact ⟨u, paths', herror, h.congr hshaped (h.grown.dataKept hkept) fun e he =>
      hwords hkept e.pa (mem_owned he)⟩

/-- Whether a page is mapped is seen at its leaf. -/
theorem isMapped_iff {m : Usage} {va : Nat} : isMapped m root va = true ↔ leafAt m root va ≠ none := by
  rw [isMapped, decide_eq_true_eq, leafPte_eq_leafAt]
  rcases hleaf : leafAt m root va with _ | ⟨size, entry⟩
  · exact iff_of_false not_valid_zero (not_not.mpr rfl)
  · exact iff_of_true (valid_of_leafAt hleaf) (Option.some_ne_none _)

/-- A page is mapped exactly when nothing is mapped at its address, and there is a page for it and for
every missing table. Otherwise the mappings stay as they are, and a page that could not be mapped is
given back, unless it is not to be released. -/
theorem mapItem (h : Loaded m₀ before root total paths entries [] content s) (release : Bool) (p : PageItem) :
    if leafAt s.1 root p.va = none ∧ (paths ∪ tablesAt p.va).card < total then
      ∃ pa s', Kernel.mapItem root release s p = some (.ok (), s') ∧
        (∀ x, leafAt s'.1 root x = none ↔ vpn x ≠ vpn p.va ∧ leafAt s.1 root x = none) ∧
        Loaded m₀ before root (total - 1) (paths ∪ tablesAt p.va) (entries ++ [⟨p.va, pa, p.flags⟩]) []
          (place content p) s'
    else ∃ e s' total' paths' extra, Kernel.mapItem root release s p = some (.error e, s') ∧
      Loaded m₀ before root total' paths' entries extra content s' ∧
      (extra ≠ [] ↔ release = false ∧ leafAt s.1 root p.va = none ∧ paths.card < total) := by
  have hva : p.va % pageSize = 0 ∧ p.va < userVaLimit := ⟨p.aligned, p.bound⟩
  unfold Kernel.mapItem
  by_cases hnone : leafAt s.1 root p.va = none
  swap
  · rw [if_neg fun hand => hnone hand.1, if_pos (isMapped_iff.mpr hnone)]
    exact ⟨_, _, total, paths, [], rfl, h, iff_of_false (fun hne => hne rfl) fun hand => hnone hand.2.1⟩
  rw [if_neg (show ¬ isMapped s.1 root p.va = true from isMapped_iff.not.mpr (not_not.mpr hnone))]
  have htake := h.take
  have hmono : paths.card ≤ (paths ∪ tablesAt p.va).card := Finset.card_le_card Finset.subset_union_left
  split at htake
  swap
  next hfull =>
    rw [if_neg (by omega), htake]
    exact ⟨_, _, total, paths, [], rfl, h, iff_of_false (fun hne => hne rfl) fun hand => hfull hand.2.2⟩
  next hroom =>
  obtain ⟨page, t, halloc, hzero, hleaf, htaken⟩ := htake
  obtain ⟨hfilled, hleaf'⟩ := htaken.copyBytes (.head _) (Nat.le_add_right page p.off)
    (show page + p.off + p.bytes.length ≤ page + pageSize by have hfits := p.fits; omega)
  have hmap := hfilled.map hva p.valid (((hleaf' p.va).trans (hleaf p.va)).trans hnone)
  rw [halloc]
  dsimp only
  split at hmap
  next hcard =>
    obtain ⟨u, hok, hleaf'', hloaded⟩ := hmap
    rw [if_pos ⟨hnone, by omega⟩, hok]
    refine ⟨page, (u, s.2 ++ [(p.va, page)]), rfl, fun x => ?_, ?_⟩
    · change leafAt u root x = none ↔ _
      rw [hleaf'', hleaf', hleaf]
      split
      next hvpn => exact iff_of_false nofun fun hand => hand.1 hvpn
      next hvpn => exact (and_iff_right hvpn).symm
    · convert hloaded using 1
      funext x
      unfold place
      split
      next hx =>
        rw [read_copyBytes, copied_apply, PageItem.byte]
        have hpage : pageSize = 4096 := rfl
        rw [hpage] at hx
        have hin : (p.va + p.off ≤ x ∧ x < p.va + p.off + p.bytes.length) ↔
            (page + p.off ≤ page + (x - p.va) ∧
              page + (x - p.va) < page + p.off + p.bytes.length) := by omega
        simp only [hin]
        split
        next hcopied =>
          have hindex : page + (x - p.va) - (page + p.off) = x - (p.va + p.off) := by omega
          rw [hindex]
        next => exact (hzero _ ⟨Nat.le_add_right _ _, by rw [hpage]; omega⟩).symm
      next => rfl
  next hcard =>
    obtain ⟨u, paths', herror, hloaded⟩ := hmap
    rw [if_neg (by omega), herror]
    dsimp only
    cases release with
    | false =>
      refine ⟨_, _, _, paths', [page], rfl, hloaded, iff_of_true (by simp) ⟨rfl, hnone, hroom⟩⟩
    | true =>
      obtain ⟨w, total', hfree, hgiven⟩ := hloaded.give
      rw [if_pos rfl, hfree]
      exact ⟨_, _, total', paths', [], rfl, hgiven, iff_of_false (fun hne => hne rfl) (by simp)⟩

/-- All pages are mapped exactly when their addresses are different and unmapped, and there is a page
for each of them and for every missing table. Otherwise what has been mapped is on the list, and no
other page is held: a page that cannot be mapped is released, or there is no missing table. -/
theorem mapItems {items : List PageItem} (h : Loaded m₀ before root total paths entries [] content s)
    {release : Bool} (hsafe : release = true ∨ ∀ p ∈ items, tablesAt p.va ⊆ paths) :
    if AllUnmapped s.1 root (items.map PageItem.va) ∧
        (paths ∪ tablesFor (items.map PageItem.va)).card + items.length ≤ total then
      ∃ new s', mapEach (Kernel.mapItem root release) items s = some (.ok (), s') ∧
        new.map (fun e => (e.va, e.flags)) = items.map (fun p => (p.va, p.flags)) ∧
        Loaded m₀ before root (total - items.length) (paths ∪ tablesFor (items.map PageItem.va))
          (entries ++ new) [] (items.foldl place content) s'
    else ∃ e s' total' paths' entries' content',
      mapEach (Kernel.mapItem root release) items s = some (.error e, s') ∧
      Loaded m₀ before root total' paths' entries' [] content' s' := by
  induction items generalizing s total paths entries content with
  | nil =>
    have hcard := h.shaped.card_le
    rw [if_pos ⟨allUnmapped_nil, by simpa [tablesFor] using hcard⟩]
    exact ⟨[], s, rfl, rfl, by simpa [tablesFor] using h⟩
  | cons p items ih =>
    have hpaths : paths ∪ tablesFor ((p :: items).map PageItem.va) =
        (paths ∪ tablesAt p.va) ∪ tablesFor (items.map PageItem.va) := by
      rw [List.map_cons, tablesFor, Finset.union_assoc]
    have hmono : (paths ∪ tablesAt p.va).card ≤
        ((paths ∪ tablesAt p.va) ∪ tablesFor (items.map PageItem.va)).card :=
      Finset.card_le_card Finset.subset_union_left
    rw [hpaths, List.map_cons]
    have hstep := h.mapItem release p
    rw [mapEach]
    split at hstep
    next hcan =>
      obtain ⟨pa, s', hok, hleaf, hnext⟩ := hstep
      have hrest := ih hnext (hsafe.imp_right fun hall q hq =>
        (hall q (.tail _ hq)).trans Finset.subset_union_left)
      have hvacant : AllUnmapped s'.1 root (items.map PageItem.va) ↔
          AllUnmapped s.1 root (items.map PageItem.va) ∧ p.va ∉ items.map PageItem.va := by
        refine allUnmapped_congr fun q hq => ?_
        obtain ⟨q, -, rfl⟩ := List.mem_map.mp hq
        rw [hleaf, Ne, vpn_eq_iff_of_aligned ⟨q.aligned, q.bound⟩ ⟨p.aligned, p.bound⟩, and_comm]
      rw [hok, Outcome.andThen_ok]
      split at hrest
      next hall =>
        obtain ⟨new, s'', hmaps, hnew, hloaded⟩ := hrest
        obtain ⟨hvac, hnot⟩ := hvacant.mp hall.1
        rw [if_pos ⟨allUnmapped_cons.mpr ⟨hcan.1, hnot, hvac⟩, by rw [List.length_cons]; omega⟩]
        refine ⟨⟨p.va, pa, p.flags⟩ :: new, s'', hmaps, by rw [List.map_cons, hnew]; rfl, ?_⟩
        rw [List.append_assoc] at hloaded
        have htotal : total - (p :: items).length = total - 1 - items.length := by
          rw [List.length_cons]
          omega
        rw [htotal]
        exact hloaded
      next hall =>
        rw [if_neg]
        · exact hrest
        rintro ⟨hcons, hcard⟩
        obtain ⟨-, hnot, hvac⟩ := allUnmapped_cons.mp hcons
        rw [List.length_cons] at hcard
        exact hall ⟨hvacant.mpr ⟨hvac, hnot⟩, by omega⟩
    next hcannot =>
      obtain ⟨e, s', total', paths', extra, herror, hloaded, hextra⟩ := hstep
      rw [if_neg]
      · obtain rfl : extra = [] := by
          by_contra hne
          obtain ⟨hrelease, hnone, hroom⟩ := hextra.mp hne
          rcases hsafe with hsafe | hsafe
          · rw [hsafe] at hrelease
            cases hrelease
          · rw [Finset.union_eq_left.mpr (hsafe p (.head _))] at hcannot
            exact hcannot ⟨hnone, hroom⟩
        rw [herror]
        exact ⟨e, s', total', paths', entries, content, rfl, hloaded⟩
      rintro ⟨hcons, hcard⟩
      rw [List.length_cons] at hcard
      exact hcannot ⟨(allUnmapped_cons.mp hcons).1, by omega⟩

/-- A word of a page that is mapped is written. -/
theorem store {e : Entry} {off : Nat}
    (h : Loaded m₀ before root total paths entries extra content (t, done)) (he : e ∈ entries)
    (hoff : off < pageSize) (value : Nat) :
    Loaded m₀ before root total paths entries extra (Function.update content (e.va + off) value)
      (t.write (e.pa + off) value, done) := by
  have howned : e.pa ∈ entries.map Entry.pa ++ extra := mem_owned he
  have hheld := h.grown.held _ howned
  have hx := inPage_off e.pa hoff
  obtain ⟨hshaped, htables⟩ := h.shaped.write hheld (h.grown.data howned).2 hx value
  refine ⟨⟨hshaped.tree, hshaped.places, fun _ => rfl, hshaped.room⟩,
    h.grown.write howned hx htables, h.done, h.aligned,
    fun e' he' => (hshaped.leaves e'.va).trans (h.mapped e' he'),
    fun x hx => (hshaped.leaves x).trans (h.others x hx), h.unmapped, h.nodup,
    fun e' he' off' hoff' => ?_⟩
  have hsame : e'.pa + off' = e.pa + off ↔ e'.va + off' = e.va + off := by
    constructor
    · intro heq
      have htaken := (h.grown.held _ (mem_owned he')).taken
      have hpa := htaken.eq_of_inPage hheld.taken (inPage_off e'.pa hoff') (heq ▸ hx)
      have hnodup := (List.nodup_append.mp h.grown.nodup).1
      obtain rfl := List.inj_on_of_nodup_map hnodup he' he hpa
      omega
    · intro heq
      have haligned := (h.aligned e he).1
      have haligned' := (h.aligned e' he').1
      have hpage : pageSize = 4096 := rfl
      rw [hpage] at haligned haligned' hoff hoff'
      obtain rfl := List.inj_on_of_nodup_map h.nodup he' he (by omega)
      omega
  change Function.update t.read (e.pa + off) value (e'.pa + off') = _
  rw [Function.update_apply, Function.update_apply, h.words e' he' off' hoff']
  simp only [hsame]

/-- The hardware finds the page of an entry at its addresses. -/
theorem translate {e : Entry} {off : Nat}
    (h : Loaded m₀ before root total paths entries extra content s) (he : e ∈ entries)
    (hflags : pteFlags (e.flags ||| pteU) = e.flags ||| pteU) (hoff : off < pageSize) :
    Mmu.translate s.1 root (e.va + off) = some (e.pa + off, e.flags ||| pteU) := by
  have hpage : pageSize = 4096 := rfl
  have hlimit : userVaLimit = 2 ^ 38 := by decide
  obtain ⟨haligned, hbound⟩ := h.aligned e he
  have htaken := (h.grown.held _ (mem_owned he)).taken
  have hpa : e.pa % 4096 = 0 := htaken.aligned h.shaped.tree.sound
  have hlt : e.pa < 2 ^ 56 := by
    have hrange := htaken.pageInRange h.shaped.tree.sound
    have hsmall := h.shaped.tree.small
    simp only [Usage.pageInRange, BuddyAllocator.pageInRange, Bool.and_eq_true,
      decide_eq_true_eq] at hrange
    omega
  rw [hpage] at haligned hoff
  rw [hlimit] at hbound
  have hvpn : vpn (e.va + off) = vpn e.va := by
    rw [vpn_eq_page (by omega) (by omega) haligned]
    omega
  rw [translate_of_leafAt ((leafAt_of_vpn hvpn).trans (h.mapped e he)) hflags hpa hlt hpa]
  congr 2
  omega

/-- The first page of the list is unmapped and given back. -/
theorem undo {e : Entry} (h : Loaded m₀ [] root total paths (e :: entries) extra content (t, done)) :
    ∃ t' u total', Mmu.unmap4k t root e.va = some (.ok (), t') ∧
      t'.freePages e.pa = some (.ok (), u) ∧
      Loaded m₀ [] root total' paths entries extra content (u, entries.map fun e => (e.va, e.pa)) := by
  obtain ⟨low, hlow⟩ := tableAt_of_leafAt (h.mapped e (.head _))
  obtain ⟨t', hunmap, hshaped, hkept⟩ := h.shaped.unmap4k ((h.shaped.places _).mpr ⟨low, hlow⟩)
  have hgrown := h.grown.dataKept hkept
  have howned : e.pa ∈ (e :: entries).map Entry.pa ++ extra := .head _
  obtain ⟨u, total', hfree, hgives, hshaped', htables⟩ :=
    hshaped.give (hgrown.held _ howned) (hgrown.data howned).2
  have hgiven := hgrown.give hgives howned htables
  rw [List.map_cons, List.cons_append, List.erase_cons_head] at hgiven
  obtain ⟨hfirst, hnodup⟩ := List.nodup_cons.mp h.nodup
  obtain ⟨hpa, -⟩ := List.nodup_cons.mp h.grown.nodup
  have hvpn : ∀ e' ∈ entries, vpn e'.va ≠ vpn e.va := by
    intro e' he' heq
    have hsame := (vpn_eq_iff_of_aligned (h.aligned e' (.tail _ he')) (h.aligned e (.head _))).mp heq
    exact hfirst (hsame ▸ List.mem_map_of_mem he')
  refine ⟨t', u, total', hunmap, hfree,
    ⟨hshaped'.tree, hshaped'.places, fun _ => rfl, hshaped'.room⟩, hgiven, rfl,
    fun e' he' => h.aligned e' (.tail _ he'), fun e' he' => ?_, fun x hx => ?_,
    fun e' he' => h.unmapped e' (.tail _ he'), hnodup, fun e' he' off hoff => ?_⟩
  · exact (hshaped'.leaves e'.va).trans ((if_neg (hvpn e' he')).trans (h.mapped e' (.tail _ he')))
  · refine (hshaped'.leaves x).trans ?_
    split
    next hsame => rw [leafAt_of_vpn hsame, h.unmapped e (.head _)]
    next hne =>
      refine h.others x fun e' he' => ?_
      rcases List.mem_cons.mp he' with rfl | he'
      · exact hne
      · exact hx e' he'
  · have hmem : e'.pa ∈ (e :: entries).map Entry.pa ++ extra := mem_owned (List.mem_cons_of_mem _ he')
    have hne : e'.pa ≠ e.pa := fun heq =>
      hpa (List.mem_append_left _ (heq ▸ List.mem_map_of_mem he'))
    rw [hgives.frame e'.pa _ hne (hgrown.held _ hmem).taken (inPage_off e'.pa hoff),
      hkept.words e'.pa _ (h.grown.data hmem).1 (h.grown.data hmem).2 (inPage_off e'.pa hoff)]
    exact h.words e' (.tail _ he') off hoff

/-- All pages of the list are unmapped and given back. -/
theorem rollback (h : Loaded m₀ [] root total paths entries extra content s) :
    ∃ u total', Kernel.rollback root s = some u ∧
      Loaded m₀ [] root total' paths [] extra content (u, []) := by
  obtain ⟨t, done⟩ := s
  have hdone := h.done
  rw [List.nil_append] at hdone
  dsimp only at hdone
  subst hdone
  induction entries generalizing t total with
  | nil => exact ⟨t, total, rfl, h⟩
  | cons e entries ih =>
    obtain ⟨t', w, total', hunmap, hfree, hloaded⟩ := h.undo
    obtain ⟨u, total'', hrollback, hlast⟩ := ih w hloaded
    refine ⟨u, total'', ?_, hlast⟩
    rw [Kernel.rollback] at hrollback ⊢
    rw [List.map_cons, List.foldlM_cons]
    dsimp only
    have hfirst : ((Mmu.unmap4k t root e.va).discard.bind fun m => (m.freePages e.pa).discard) =
        some w := by
      rw [hunmap]
      change (t'.freePages e.pa).discard = some w
      rw [hfree]
      rfl
    rw [hfirst]
    exact hrollback

end Loaded

end Ignium.Kernel
