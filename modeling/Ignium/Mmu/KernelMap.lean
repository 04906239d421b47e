import Ignium.Mmu.Trees

/-!
# The mappings of the kernel

What `map_kernel_region` makes of a cleared root, for every layout of the board. Its loops are a list
of steps, each of which sets the leaves of a large page or of a page, or clears one (`MapOp`). A
`Sketch` is what a tree looks like, and `Shaped.run` says that the steps turn one sketch into the next
as long as there is a page for every missing table: a step never meets an entry of another size
(`Plan`). `Board.Layout` says what is assumed of the addresses of the linker script and of the board;
the regions then never share a large page, and the leaf of every address is known at the end
(`Board.leaf_ops`).
-/

namespace Ignium.Mmu

open Mem
open Usage (InPage Takes HasFree)
open Spaces (TableAt)

variable {m : Usage} {root va paddr flags total : Nat}

/-! ## The functions on a tree -/

namespace Shaped

variable {paths : Finset (List Nat)} {leaf : Nat → Option (Nat × Nat)}
  (h : Shaped m root total paths leaf)

include h

/-- Mapping a page where there is no large page. -/
theorem map4k (paddr : Nat) (hflags : Valid flags)
    (hsmall : ∀ size entry, leaf va = some (size, entry) → size = 4096) :
    if (paths ∪ tablesAt va).card ≤ total then
      ∃ t, Mmu.map4k m root va paddr flags = some (.ok (), t) ∧
        Shaped t root total (paths ∪ tablesAt va)
          (fun x => if vpn x = vpn va then some (4096, pte paddr flags) else leaf x) ∧
        DataKept m t root
    else ∃ t, Mmu.map4k m root va paddr flags = some (.error (), t) := by
  rw [map4k_eq]
  have htable := h.lowTable hsmall
  split at htable
  next hcard =>
    obtain ⟨low, t, hok, h', hlow, hkept⟩ := htable
    rw [if_pos hcard, hok, Outcome.andThen_ok]
    obtain ⟨h'', hkept'⟩ := h'.writeLow (pte paddr flags) hlow
    simp only [if_pos (valid_pte.mpr hflags)] at h''
    exact ⟨_, rfl, h'', hkept.trans hkept'⟩
  next hcard =>
    obtain ⟨t, -, herror, -⟩ := htable
    rw [if_neg hcard, herror]
    exact ⟨t, rfl⟩

/-- Mapping a large page where there is nothing. -/
theorem mapSuper (paddr : Nat) (hflags : Valid flags) (hleaf : Leaf flags) (hnone : leaf va = none)
    (htable : [l1Index va, l2Index va] ∉ paths) :
    if (paths ∪ {[l2Index va]}).card ≤ total then
      ∃ t, Mmu.mapSuper m root va paddr flags = some (.ok (), t) ∧
        Shaped t root total (paths ∪ {[l2Index va]})
          (fun x => if l2Index x = l2Index va ∧ l1Index x = l1Index va then
            some (superPage, pte paddr flags) else leaf x) ∧
        DataKept m t root
    else ∃ t, Mmu.mapSuper m root va paddr flags = some (.error (), t) := by
  have hpaths : paths ∪ {[l2Index va]} = insert [l2Index va] paths := by
    rw [Finset.union_comm, Finset.insert_eq]
  rw [hpaths]
  have htop : ¬ (Valid (pteRead m root (l2Index va)) ∧ Leaf (pteRead m root (l2Index va))) := by
    rintro ⟨hvalid, hleaf'⟩
    rw [h.leaf_top hvalid hleaf'] at hnone
    cases hnone
  have hfirst := h.ensureTable .top (by simp) (l2Index_lt va)
  simp only [htop, false_or] at hfirst
  split at hfirst
  · rw [if_neg (by omega)]
    refine ⟨m, ?_⟩
    rw [Mmu.mapSuper, hfirst]
    rfl
  obtain ⟨mid, t₁, htable₁, h₁, hmid, hkept₁⟩ := hfirst
  rw [if_pos (by omega)]
  have hunused : ¬ Valid (pteRead t₁ mid (l1Index va)) := by
    intro hvalid
    by_cases hleaf' : Leaf (pteRead t₁ mid (l1Index va))
    · rw [h₁.leaf_mid hmid hvalid hleaf'] at hnone
      cases hnone
    · have hlow := (h₁.places _).mpr ⟨_, .down hmid (by simp) (l1Index_lt va) hvalid hleaf'⟩
      rw [Finset.mem_insert] at hlow
      exact htable (hlow.resolve_left (by simp))
  obtain ⟨h₂, hkept₂⟩ := h₁.writeMid hmid hunused (valid_pte.mpr hflags) (leaf_pte.mpr hleaf)
  refine ⟨_, ?_, h₂, hkept₁.trans hkept₂⟩
  rw [Mmu.mapSuper, htable₁, Outcome.andThen_ok]

/-- Clearing an entry of a table. -/
theorem unmap4k (htable : [l1Index va, l2Index va] ∈ paths) :
    ∃ t, Mmu.unmap4k m root va = some (.ok (), t) ∧
      Shaped t root total paths (fun x => if vpn x = vpn va then none else leaf x) ∧
      DataKept m t root := by
  obtain ⟨low, hlow⟩ := (h.places _).mp htable
  by_cases hzero : leafPte m root va = 0
  · refine ⟨m, if_pos hzero, ⟨h.tree, h.places, fun x => ?_, h.room⟩, .refl m root⟩
    split
    next hvpn =>
      have hends := (h.tree.low_ends_iff hlow x).mpr hvpn
      have hends' := (h.tree.low_ends_iff hlow va).mpr rfl
      rw [hends.leafAt_eq, ← hends'.leafAt_eq]
      exact leafPte_eq_zero_iff.mp hzero
    next => exact h.leaves x
  · obtain ⟨mid, hmid⟩ := tableAt_parent hlow
    obtain ⟨h₁, hkept⟩ := h.writeLow 0 hlow
    simp only [if_neg not_valid_zero] at h₁
    refine ⟨_, ?_, h₁, hkept⟩
    rw [Mmu.unmap4k, if_neg hzero, ensureTable_of_tableAt .top hmid, Outcome.andThen_ok,
      ensureTable_of_tableAt hmid hlow, Outcome.andThen_ok]

end Shaped

/-! ## Steps -/

/-- What a tree looks like: the places of its tables and the leaf of every address. -/
structure Sketch where
  paths : Finset (List Nat)
  leaf : Nat → Option (Nat × Nat)

/-- The steps of `mapKernelRegion`: a large page or a page is mapped to itself, or a page is cleared. -/
inductive MapOp where
  | large (va flags : Nat)
  | small (va flags : Nat)
  | clear (va : Nat)

namespace MapOp

/-- Do a step. -/
def run (root : Nat) (m : Usage) : MapOp → Option Usage
  | large va flags => (mapSuper m root va va flags).expect
  | small va flags => (map4k m root va va flags).expect
  | clear va => (unmap4k m root va).expect

/-- The tables that a step needs. -/
def paths : MapOp → Finset (List Nat)
  | large va _ => {[l2Index va]}
  | small va _ => tablesAt va
  | clear _ => ∅

/-- The leaves after a step. -/
def leaf (f : Nat → Option (Nat × Nat)) : MapOp → Nat → Option (Nat × Nat)
  | large va flags, x =>
    if l2Index x = l2Index va ∧ l1Index x = l1Index va then some (superPage, pte va flags) else f x
  | small va flags, x => if vpn x = vpn va then some (4096, pte va flags) else f x
  | clear va, x => if vpn x = vpn va then none else f x

/-- A step meets no entry of another size. -/
def Fits (s : Sketch) : MapOp → Prop
  | large va flags =>
    Valid flags ∧ Leaf flags ∧ s.leaf va = none ∧ [l1Index va, l2Index va] ∉ s.paths
  | small va flags => Valid flags ∧ ∀ size entry, s.leaf va = some (size, entry) → size = 4096
  | clear va => [l1Index va, l2Index va] ∈ s.paths

/-- The tables that steps need. -/
def tables : List MapOp → Finset (List Nat)
  | [] => ∅
  | op :: ops => op.paths ∪ tables ops

theorem mem_tables {ops : List MapOp} {path : List Nat} :
    path ∈ tables ops ↔ ∃ op ∈ ops, path ∈ op.paths := by
  induction ops with
  | nil => simp [tables]
  | cons op ops ih => simp [tables, ih]

end MapOp

namespace Sketch

/-- The sketch after a step. -/
def apply (s : Sketch) (op : MapOp) : Sketch := ⟨s.paths ∪ op.paths, op.leaf s.leaf⟩

/-- The sketch after steps. -/
def after (s : Sketch) (ops : List MapOp) : Sketch := ops.foldl apply s

/-- No step meets an entry of another size. -/
def Plan (s : Sketch) : List MapOp → Prop
  | [] => True
  | op :: ops => op.Fits s ∧ Plan (s.apply op) ops

theorem after_append (s : Sketch) (ops ops' : List MapOp) :
    s.after (ops ++ ops') = (s.after ops).after ops' := List.foldl_append

theorem plan_append {s : Sketch} {ops ops' : List MapOp} :
    s.Plan (ops ++ ops') ↔ s.Plan ops ∧ (s.after ops).Plan ops' := by
  induction ops generalizing s with
  | nil => exact (and_iff_right trivial).symm
  | cons op ops ih =>
    change _ ∧ Plan _ (ops ++ ops') ↔ (_ ∧ _) ∧ _
    rw [ih, and_assoc]
    rfl

theorem paths_after (s : Sketch) (ops : List MapOp) :
    (s.after ops).paths = s.paths ∪ MapOp.tables ops := by
  induction ops generalizing s with
  | nil => exact (Finset.union_empty _).symm
  | cons op ops ih =>
    change ((s.apply op).after ops).paths = _
    rw [ih]
    exact Finset.union_assoc _ _ _

end Sketch

namespace Shaped

/-- A step turns a sketch into the next one, unless there is no page for a table. -/
theorem step {s : Sketch} {op : MapOp} (h : Shaped m root total s.paths s.leaf) (hfits : op.Fits s) :
    if (s.apply op).paths.card ≤ total then
      ∃ t, op.run root m = some t ∧ Shaped t root total (s.apply op).paths (s.apply op).leaf ∧
        DataKept m t root
    else op.run root m = none := by
  cases op with
  | large va flags =>
    obtain ⟨hvalid, hleaf, hnone, htable⟩ := hfits
    have hmap := h.mapSuper va hvalid hleaf hnone htable
    have hpaths : (s.apply (.large va flags)).paths = s.paths ∪ {[l2Index va]} := rfl
    split at hmap
    next hcard =>
      obtain ⟨t, hok, hshaped, hkept⟩ := hmap
      rw [hpaths, if_pos hcard]
      exact ⟨t, by rw [MapOp.run, hok]; rfl, hshaped, hkept⟩
    next hcard =>
      obtain ⟨t, herror⟩ := hmap
      rw [hpaths, if_neg hcard, MapOp.run, herror]
      rfl
  | small va flags =>
    have hmap := h.map4k va hfits.1 hfits.2
    have hpaths : (s.apply (.small va flags)).paths = s.paths ∪ tablesAt va := rfl
    split at hmap
    next hcard =>
      obtain ⟨t, hok, hshaped, hkept⟩ := hmap
      rw [hpaths, if_pos hcard]
      exact ⟨t, by rw [MapOp.run, hok]; rfl, hshaped, hkept⟩
    next hcard =>
      obtain ⟨t, herror⟩ := hmap
      rw [hpaths, if_neg hcard, MapOp.run, herror]
      rfl
  | clear va =>
    obtain ⟨t, hok, hshaped, hkept⟩ := h.unmap4k hfits
    have hpaths : (s.apply (.clear va)).paths = s.paths := Finset.union_empty _
    rw [hpaths, if_pos h.card_le]
    exact ⟨t, by rw [MapOp.run, hok]; rfl, hshaped, hkept⟩

/-- All steps are done exactly when there is a page for every table that they need. -/
theorem run {s : Sketch} {ops : List MapOp} (h : Shaped m root total s.paths s.leaf)
    (hplan : s.Plan ops) :
    if (s.after ops).paths.card ≤ total then
      ∃ t, ops.foldlM (MapOp.run root) m = some t ∧
        Shaped t root total (s.after ops).paths (s.after ops).leaf ∧ DataKept m t root
    else ops.foldlM (MapOp.run root) m = none := by
  induction ops generalizing m s with
  | nil =>
    change if s.paths.card ≤ total then _ else _
    rw [if_pos h.card_le]
    exact ⟨m, rfl, h, .refl m root⟩
  | cons op ops ih =>
    obtain ⟨hfits, hrest⟩ := hplan
    have hstep := h.step hfits
    rw [List.foldlM_cons]
    change if ((s.apply op).after ops).paths.card ≤ total then _ else _
    split at hstep
    · obtain ⟨t, hrun, hshaped, hkept⟩ := hstep
      rw [hrun]
      have hmore := ih hshaped hrest
      split at hmore
      next hcard =>
        obtain ⟨u, hruns, hshaped', hkept'⟩ := hmore
        rw [if_pos hcard]
        exact ⟨u, hruns, hshaped', hkept.trans hkept'⟩
      next hcard =>
        rw [if_neg hcard]
        exact hmore
    next hcard =>
      have hmono : (s.apply op).paths.card ≤ ((s.apply op).after ops).paths.card := by
        rw [Sketch.paths_after]
        exact Finset.card_le_card Finset.subset_union_left
      rw [if_neg (by omega), hstep]
      rfl

end Shaped

/-! ## Regions -/

theorem mem_addresses {start stop stride p : Nat} (hstride : 0 < stride) :
    p ∈ addresses start stop stride ↔ start ≤ p ∧ p < stop ∧ (p - start) % stride = 0 := by
  have hlt : ∀ i, i < (stop - start + stride - 1) / stride ↔ i * stride < stop - start := fun i => by
    rw [Nat.lt_iff_add_one_le, Nat.le_div_iff_mul_le hstride, Nat.add_one_mul]
    omega
  simp only [addresses, List.mem_map, List.mem_range, hlt]
  constructor
  · rintro ⟨i, hi, rfl⟩
    exact ⟨by omega, by omega, by rw [Nat.add_sub_cancel_left, Nat.mul_mod_left]⟩
  · rintro ⟨hstart, hstop, hmod⟩
    have hdiv : (p - start) / stride * stride = p - start :=
      Nat.div_mul_cancel (Nat.dvd_of_mod_eq_zero hmod)
    exact ⟨(p - start) / stride, by omega, by omega⟩

/-- The addresses of a region of whole pages. -/
theorem page_mem_addresses {start stop size x : Nat} (hsize : 0 < size) (hstart : start % size = 0)
    (hstop : stop % size = 0) : x / size * size ∈ addresses start stop size ↔ start ≤ x ∧ x < stop := by
  rw [mem_addresses hsize]
  obtain ⟨first, rfl⟩ := Nat.dvd_of_mod_eq_zero hstart
  obtain ⟨last, rfl⟩ := Nat.dvd_of_mod_eq_zero hstop
  have hlow : size * first ≤ x / size * size ↔ size * first ≤ x := by
    rw [Nat.mul_comm (x / size), Nat.mul_le_mul_left_iff hsize, Nat.le_div_iff_mul_le hsize,
      Nat.mul_comm]
  have hhigh : x / size * size < size * last ↔ x < size * last := by
    rw [Nat.mul_comm (x / size), Nat.mul_lt_mul_left hsize, Nat.div_lt_iff_lt_mul hsize, Nat.mul_comm]
  rw [hlow, hhigh]
  refine and_congr_right fun _ => and_iff_left ?_
  rw [Nat.mul_comm (x / size), ← Nat.mul_sub, Nat.mul_mod_right]

theorem vpn_eq_page {x : Nat} (hx : x < 2 ^ 39) (hva : va < 2 ^ 39) (haligned : va % 4096 = 0) :
    vpn x = vpn va ↔ x / 4096 * 4096 = va := by
  rw [Spaces.vpn_eq_iff hva hx]
  change x / 4096 = va / 4096 ↔ _
  omega

theorem block_eq {x : Nat} (hx : x < 2 ^ 39) (hva : va < 2 ^ 39) (haligned : va % superPage = 0) :
    l2Index x = l2Index va ∧ l1Index x = l1Index va ↔ x / superPage * superPage = va := by
  have hsuper : superPage = 2 ^ 21 := by decide
  rw [l2Index_eq, l2Index_eq, l1Index_eq, l1Index_eq, hsuper]
  rw [hsuper] at haligned
  omega

/-- Pages of a size that addresses are multiples of. -/
def PagesOf (size : Nat) (vas : List Nat) : Prop := ∀ va ∈ vas, va % size = 0 ∧ va < 2 ^ 39

theorem pagesOf_addresses {start stop size : Nat} (hsize : 0 < size) (hstart : start % size = 0)
    (hstop : stop ≤ 2 ^ 39) : PagesOf size (addresses start stop size) := by
  intro va hva
  obtain ⟨hle, hlt, hmod⟩ := (mem_addresses hsize).mp hva
  refine ⟨?_, by omega⟩
  have hsum : (start + (va - start)) % size = 0 := by
    rw [Nat.add_mod, hstart, hmod]
    simp
  rwa [Nat.add_sub_cancel' hle] at hsum

/-- The last of several steps at a page decides. -/
theorem ite_mem_cons {α : Type} (page : Nat) (vas : List Nat) (f : Nat → α) (other : α) :
    (if page ∈ vas then f page else if page = va then f va else other) =
      if page ∈ va :: vas then f page else other := by
  by_cases heq : page = va
  · subst heq
    simp
  · simp [heq]

namespace Sketch

variable {s : Sketch} {vas : List Nat} {x : Nat}

theorem leaf_large (hx : x < 2 ^ 39) (hvas : PagesOf superPage vas) (flags : Nat) :
    (s.after (vas.map (.large · flags))).leaf x =
      if x / superPage * superPage ∈ vas then some (superPage, pte (x / superPage * superPage) flags)
      else s.leaf x := by
  induction vas generalizing s with
  | nil => rfl
  | cons va vas ih =>
    obtain ⟨haligned, hlt⟩ := hvas va (.head _)
    change ((s.apply (.large va flags)).after _).leaf x = _
    rw [ih fun va' hva' => hvas va' (.tail _ hva')]
    change (if _ then _ else if l2Index x = l2Index va ∧ l1Index x = l1Index va then
      some (superPage, pte va flags) else s.leaf x) = _
    simp only [block_eq hx hlt haligned]
    exact ite_mem_cons _ vas (fun page => some (superPage, pte page flags)) _

theorem leaf_small (hx : x < 2 ^ 39) (hvas : PagesOf 4096 vas) (flags : Nat) :
    (s.after (vas.map (.small · flags))).leaf x =
      if x / 4096 * 4096 ∈ vas then some (4096, pte (x / 4096 * 4096) flags) else s.leaf x := by
  induction vas generalizing s with
  | nil => rfl
  | cons va vas ih =>
    obtain ⟨haligned, hlt⟩ := hvas va (.head _)
    change ((s.apply (.small va flags)).after _).leaf x = _
    rw [ih fun va' hva' => hvas va' (.tail _ hva')]
    change (if _ then _ else if vpn x = vpn va then some (4096, pte va flags) else s.leaf x) = _
    simp only [vpn_eq_page hx hlt haligned]
    exact ite_mem_cons _ vas (fun page => some (4096, pte page flags)) _

theorem leaf_clear (hx : x < 2 ^ 39) (hvas : PagesOf 4096 vas) :
    (s.after (vas.map .clear)).leaf x = if x / 4096 * 4096 ∈ vas then none else s.leaf x := by
  induction vas generalizing s with
  | nil => rfl
  | cons va vas ih =>
    obtain ⟨haligned, hlt⟩ := hvas va (.head _)
    change ((s.apply (.clear va)).after _).leaf x = _
    rw [ih fun va' hva' => hvas va' (.tail _ hva')]
    change (if _ then _ else if vpn x = vpn va then none else s.leaf x) = _
    simp only [vpn_eq_page hx hlt haligned]
    exact ite_mem_cons _ vas (fun _ => none) _

/-- Large pages are mapped where there is nothing. -/
theorem plan_large {flags : Nat} (hvas : PagesOf superPage vas) (hnodup : vas.Nodup)
    (hflags : Valid flags ∧ Leaf flags) (hnone : ∀ va ∈ vas, s.leaf va = none)
    (hpaths : ∀ va ∈ vas, [l1Index va, l2Index va] ∉ s.paths) :
    s.Plan (vas.map (.large · flags)) := by
  induction vas generalizing s with
  | nil => trivial
  | cons va vas ih =>
    obtain ⟨hnew, hnodup⟩ := List.nodup_cons.mp hnodup
    obtain ⟨haligned, hlt⟩ := hvas va (.head _)
    refine ⟨⟨hflags.1, hflags.2, hnone va (.head _), hpaths va (.head _)⟩,
      ih (fun va' hva' => hvas va' (.tail _ hva')) hnodup (fun va' hva' => ?_) fun va' hva' => ?_⟩
    · obtain ⟨haligned', hlt'⟩ := hvas va' (.tail _ hva')
      refine (if_neg ?_).trans (hnone va' (.tail _ hva'))
      rw [block_eq hlt' hlt haligned, Nat.div_mul_cancel (Nat.dvd_of_mod_eq_zero haligned')]
      rintro rfl
      exact hnew hva'
    · intro hmem
      rcases Finset.mem_union.mp hmem with hold | hpath
      · exact hpaths va' (.tail _ hva') hold
      · simp [MapOp.paths] at hpath

/-- Pages are mapped where there is no large page. -/
theorem plan_small {ops : List MapOp} (hops : ∀ op ∈ ops, ∃ va flags, op = .small va flags ∧
      Valid flags ∧ ∀ size entry, s.leaf va = some (size, entry) → size = 4096) : s.Plan ops := by
  induction ops generalizing s with
  | nil => trivial
  | cons op ops ih =>
    obtain ⟨va, flags, rfl, hflags, hsmall⟩ := hops op (.head _)
    refine ⟨⟨hflags, hsmall⟩, ih fun op' hop' => ?_⟩
    obtain ⟨va', flags', rfl, hflags', hsmall'⟩ := hops op' (.tail _ hop')
    refine ⟨va', flags', rfl, hflags', fun size entry hleaf => ?_⟩
    change (if vpn va' = vpn va then some (4096, pte va flags) else s.leaf va') = _ at hleaf
    split at hleaf
    · cases hleaf
      rfl
    · exact hsmall' size entry hleaf

/-- Entries of tables are cleared. -/
theorem plan_clear (hpaths : ∀ va ∈ vas, [l1Index va, l2Index va] ∈ s.paths) :
    s.Plan (vas.map .clear) := by
  induction vas generalizing s with
  | nil => trivial
  | cons va vas ih =>
    exact ⟨hpaths va (.head _), ih fun va' hva' =>
      Finset.mem_union_left _ (hpaths va' (.tail _ hva'))⟩

end Sketch

theorem mapRegion4k_eq {start stop : Nat} (hstart : start % 4096 = 0) (hstop : stop % 4096 = 0)
    (flags : Nat) (m : Usage) : mapRegion4k m root start stop flags =
      ((addresses start stop 4096).map (.small · flags)).foldlM (MapOp.run root) m := by
  rw [mapRegion4k, if_neg (by omega), List.foldlM_map]
  rfl

theorem mapRegionSuper_eq (start stop flags : Nat) (m : Usage) :
    mapRegionSuper m root start stop flags =
      ((addresses start stop superPage).map (.large · flags)).foldlM (MapOp.run root) m := by
  rw [mapRegionSuper, List.foldlM_map]
  rfl

theorem unmapGuardPages_eq (base top : Nat) (m : Usage) : unmapGuardPages m root base top =
    ((Board.guards base top).map .clear).foldlM (MapOp.run root) m := by
  rw [unmapGuardPages, Board.guards, List.map_flatMap]
  generalize addresses base top trapStride = slots
  induction slots generalizing m with
  | nil => rfl
  | cons slot slots ih =>
    rw [List.flatMap_cons, List.foldlM_append, List.foldlM_cons, List.foldlM_map]
    exact bind_congr ih

/-! ## Boards -/

namespace Board

/-- The end of the last large page that the image touches. -/
def superEnd (b : Board) : Nat := (b.kernelEnd + superPage - 1) / superPage * superPage

/-- An array of stacks lies behind the image, before the next large page. -/
structure Stacks (b : Board) (base top : Nat) : Prop where
  aligned : base % 4096 = 0
  inside : b.kernelEnd ≤ base ∧ top ≤ b.superEnd
  slots : (top - base) % trapStride = 0

/-- What is assumed of the addresses of the linker script and of the board. -/
structure Layout (b : Board) : Prop where
  ramStart_aligned : b.ramStart % superPage = 0
  ramEnd_aligned : b.ramEnd % superPage = 0
  kernelStart_aligned : b.kernelStart % superPage = 0
  textStart_aligned : b.textStart % 4096 = 0
  rodataStart_aligned : b.rodataStart % 4096 = 0
  dataStart_aligned : b.dataStart % 4096 = 0
  kernelEnd_aligned : b.kernelEnd % 4096 = 0
  ramStart_le : b.ramStart ≤ b.kernelStart
  kernelStart_le : b.kernelStart ≤ b.textStart
  textStart_le : b.textStart ≤ b.rodataStart
  rodataStart_le : b.rodataStart ≤ b.dataStart
  dataStart_le : b.dataStart ≤ b.kernelEnd
  kernelEnd_le : b.kernelEnd ≤ b.ramEnd
  ramEnd_le : b.ramEnd ≤ 2 ^ 39
  stackGuard_aligned : b.stackGuard % 4096 = 0
  stackGuard_inside : b.kernelEnd ≤ b.stackGuard ∧ b.stackGuard < b.superEnd
  trapStacks : b.Stacks b.trapStackBase b.trapStackTop
  idleStacks : b.Stacks b.idleStackBase b.idleStackTop
  uartBase_aligned : b.uartBase % 4096 = 0
  uartBase_outside : b.uartBase < b.ramStart ∨ b.ramEnd ≤ b.uartBase
  uartBase_lt : b.uartBase < 2 ^ 39

/-- An address in the guard at the start of a slot of an array of stacks. -/
def InGuards (base top x : Nat) : Prop :=
  base ≤ x ∧ x < top ∧ (x - base) % trapStride < trapGuard

instance (base top x : Nat) : Decidable (InGuards base top x) :=
  inferInstanceAs (Decidable (_ ∧ _ ∧ _))

/-- An address in a guard: the page below the boot stack, or the start of a slot. -/
def Guard (b : Board) (x : Nat) : Prop :=
  (b.stackGuard ≤ x ∧ x < b.stackGuard + 4096) ∨ InGuards b.trapStackBase b.trapStackTop x ∨
    InGuards b.idleStackBase b.idleStackTop x

instance (b : Board) (x : Nat) : Decidable (b.Guard x) := inferInstanceAs (Decidable (_ ∨ _ ∨ _))

/-- The steps that map the image and what follows it up to the next large page. -/
def imageOps (b : Board) : List MapOp :=
  (addresses b.kernelStart b.textStart 4096).map (.small · pteLeafRw) ++
    (addresses b.textStart b.rodataStart 4096).map (.small · pteLeafRx) ++
    (addresses b.rodataStart b.dataStart 4096).map (.small · pteLeafR) ++
    (addresses b.dataStart b.kernelEnd 4096).map (.small · pteLeafRw) ++
    (addresses b.kernelEnd b.superEnd 4096).map (.small · pteLeafRw)

/-- The steps that map the memory. -/
def ramOps (b : Board) : List MapOp :=
  (addresses b.ramStart b.kernelStart superPage).map (.large · pteLeafR) ++ b.imageOps ++
    (addresses b.superEnd b.ramEnd superPage).map (.large · pteLeafRw)

/-- The steps of `mapKernelRegion`. -/
def ops (b : Board) : List MapOp :=
  b.ramOps ++ b.guardPages.map .clear ++ [.small b.uartBase pteLeafRw]

/-- The tables that a root needs. -/
def tables (b : Board) : Finset (List Nat) := MapOp.tables b.ops

/-- The leaf of an address of the memory, before the guards are taken away. -/
def ramLeaf (b : Board) (x : Nat) : Option (Nat × Nat) :=
  if x < b.ramStart ∨ b.ramEnd ≤ x then none
  else if x < b.kernelStart then some (superPage, pte (x / superPage * superPage) pteLeafR)
  else if x < b.textStart then some (4096, pte (x / 4096 * 4096) pteLeafRw)
  else if x < b.rodataStart then some (4096, pte (x / 4096 * 4096) pteLeafRx)
  else if x < b.dataStart then some (4096, pte (x / 4096 * 4096) pteLeafR)
  else if x < b.superEnd then some (4096, pte (x / 4096 * 4096) pteLeafRw)
  else some (superPage, pte (x / superPage * superPage) pteLeafRw)

/-- A root that maps nothing. -/
def blank : Sketch := ⟨{[]}, fun _ => none⟩

theorem superEnd_aligned (b : Board) : b.superEnd % superPage = 0 := Nat.mul_mod_left _ _

/-- A guard page lies behind the image, before the next large page. -/
theorem Stacks.guard_inside {b : Board} {base top page : Nat} (h : b.Stacks base top)
    (hpage : page ∈ guards base top) :
    page % 4096 = 0 ∧ b.kernelEnd ≤ page ∧ page < b.superEnd := by
  obtain ⟨slot, hslot, hpage⟩ := List.mem_flatMap.mp hpage
  obtain ⟨hle, hlt, hmod⟩ := (mem_addresses (by decide)).mp hslot
  obtain ⟨hle', hlt', hmod'⟩ := (mem_addresses (by decide)).mp hpage
  have haligned := h.aligned
  have hslots := h.slots
  obtain ⟨hinside, hinside'⟩ := h.inside
  have hstride : trapStride = 32768 := by decide
  have hguard : trapGuard = 16384 := by decide
  rw [hstride] at hmod hslots
  rw [hguard] at hlt'
  omega

theorem Stacks.mem_guards {b : Board} {base top x : Nat} (h : b.Stacks base top) :
    x / 4096 * 4096 ∈ guards base top ↔ InGuards base top x := by
  have haligned := h.aligned
  have hslots := h.slots
  have hstride : trapStride = 32768 := by decide
  have hguard : trapGuard = 16384 := by decide
  rw [InGuards, guards, List.mem_flatMap]
  simp only [mem_addresses (by decide : 0 < trapStride), mem_addresses (by decide : 0 < 4096)]
  rw [hstride] at hslots
  rw [hstride, hguard]
  constructor
  · rintro ⟨slot, ⟨hle, hlt, hmod⟩, hle', hlt', hmod'⟩
    omega
  · rintro ⟨hle, hlt, hmod⟩
    exact ⟨base + (x - base) / 32768 * 32768, by omega, by omega⟩

theorem superEnd_page (b : Board) : b.superEnd % 4096 = 0 := by
  have hsuper : superPage = 2 ^ 21 := by decide
  have haligned := b.superEnd_aligned
  rw [hsuper] at haligned
  omega

namespace Layout

variable {b : Board} (h : b.Layout)

include h

theorem kernelStart_page : b.kernelStart % 4096 = 0 := by
  have hsuper : superPage = 2 ^ 21 := by decide
  have haligned := h.kernelStart_aligned
  rw [hsuper] at haligned
  omega

theorem kernelEnd_lt_superEnd : b.kernelEnd < b.superEnd := by
  obtain ⟨hle, hlt⟩ := h.stackGuard_inside
  omega

theorem superEnd_le : b.superEnd ≤ b.ramEnd := by
  have hsuper : superPage = 2 ^ 21 := by decide
  have hend := h.kernelEnd_le
  have haligned := h.ramEnd_aligned
  rw [superEnd, hsuper]
  rw [hsuper] at haligned
  omega

/-- The addresses in their order. -/
theorem order : b.ramStart ≤ b.kernelStart ∧ b.kernelStart ≤ b.textStart ∧
    b.textStart ≤ b.rodataStart ∧ b.rodataStart ≤ b.dataStart ∧ b.dataStart ≤ b.kernelEnd ∧
    b.kernelEnd < b.superEnd ∧ b.superEnd ≤ b.ramEnd ∧ b.ramEnd ≤ 2 ^ 39 :=
  ⟨h.ramStart_le, h.kernelStart_le, h.textStart_le, h.rodataStart_le, h.dataStart_le,
    h.kernelEnd_lt_superEnd, h.superEnd_le, h.ramEnd_le⟩

theorem guardPage_inside {page : Nat} (hpage : page ∈ b.guardPages) :
    page % 4096 = 0 ∧ b.kernelEnd ≤ page ∧ page < b.superEnd := by
  rcases List.mem_cons.mp hpage with rfl | hpage
  · exact ⟨h.stackGuard_aligned, h.stackGuard_inside⟩
  rcases List.mem_append.mp hpage with hpage | hpage
  · exact h.trapStacks.guard_inside hpage
  · exact h.idleStacks.guard_inside hpage

theorem pagesOf_guardPages : PagesOf 4096 b.guardPages := fun page hpage => by
  obtain ⟨haligned, -, hlt⟩ := h.guardPage_inside hpage
  have horder := h.order
  exact ⟨haligned, by omega⟩

theorem mem_guardPages {x : Nat} : x / 4096 * 4096 ∈ b.guardPages ↔ b.Guard x := by
  have haligned := h.stackGuard_aligned
  rw [guardPages, List.mem_cons, List.mem_append, h.trapStacks.mem_guards, h.idleStacks.mem_guards]
  refine or_congr_left ?_
  omega

/-- The loops of `mapKernelRegion` are its steps, one after the other. -/
theorem mapKernelRegion_eq (m : Usage) (root : Nat) :
    mapKernelRegion b m root = b.ops.foldlM (MapOp.run root) m := by
  have hram : ¬ (b.ramStart % superPage ≠ 0 ∨ b.ramEnd % superPage ≠ 0) := by
    rw [h.ramStart_aligned, h.ramEnd_aligned]
    simp
  unfold mapKernelRegion
  change (if _ then none else _) = _
  rw [if_neg hram]
  change (do
    let m ← mapRegionSuper m root b.ramStart b.kernelStart pteLeafR
    let m ← mapRegion4k m root b.kernelStart b.textStart pteLeafRw
    let m ← mapRegion4k m root b.textStart b.rodataStart pteLeafRx
    let m ← mapRegion4k m root b.rodataStart b.dataStart pteLeafR
    let m ← mapRegion4k m root b.dataStart b.kernelEnd pteLeafRw
    let m ← (if b.kernelEnd < b.superEnd then mapRegion4k m root b.kernelEnd b.superEnd pteLeafRw
      else some m)
    let m ← mapRegionSuper m root b.superEnd b.ramEnd pteLeafRw
    let m ← (unmap4k m root b.stackGuard).expect
    let m ← unmapGuardPages m root b.trapStackBase b.trapStackTop
    let m ← unmapGuardPages m root b.idleStackBase b.idleStackTop
    (map4k m root b.uartBase b.uartBase pteLeafRw).expect) = _
  simp only [if_pos h.kernelEnd_lt_superEnd, mapRegionSuper_eq, unmapGuardPages_eq,
    mapRegion4k_eq h.kernelStart_page h.textStart_aligned, mapRegion4k_eq h.textStart_aligned h.rodataStart_aligned,
    mapRegion4k_eq h.rodataStart_aligned h.dataStart_aligned,
    mapRegion4k_eq h.dataStart_aligned h.kernelEnd_aligned, mapRegion4k_eq h.kernelEnd_aligned b.superEnd_page,
    ops, ramOps, imageOps, guardPages, List.map_cons, List.map_append, List.foldlM_append,
    List.foldlM_cons, List.foldlM_nil, bind_assoc, bind_pure]
  rfl

/-- The leaf of every address once the image is mapped. -/
theorem leaf_image (s : Sketch) {x : Nat} (hx : x < 2 ^ 39) :
    (s.after b.imageOps).leaf x = if b.kernelStart ≤ x ∧ x < b.superEnd then b.ramLeaf x else s.leaf x := by
  have horder := h.order
  rw [imageOps, Sketch.after_append, Sketch.after_append, Sketch.after_append, Sketch.after_append,
    Sketch.leaf_small hx (pagesOf_addresses (by decide) h.kernelEnd_aligned (by omega)),
    Sketch.leaf_small hx (pagesOf_addresses (by decide) h.dataStart_aligned (by omega)),
    Sketch.leaf_small hx (pagesOf_addresses (by decide) h.rodataStart_aligned (by omega)),
    Sketch.leaf_small hx (pagesOf_addresses (by decide) h.textStart_aligned (by omega)),
    Sketch.leaf_small hx (pagesOf_addresses (by decide) h.kernelStart_page (by omega))]
  simp only [page_mem_addresses (by decide : 0 < 4096) h.kernelEnd_aligned b.superEnd_page,
    page_mem_addresses (by decide : 0 < 4096) h.dataStart_aligned h.kernelEnd_aligned,
    page_mem_addresses (by decide : 0 < 4096) h.rodataStart_aligned h.dataStart_aligned,
    page_mem_addresses (by decide : 0 < 4096) h.textStart_aligned h.rodataStart_aligned,
    page_mem_addresses (by decide : 0 < 4096) h.kernelStart_page h.textStart_aligned, ramLeaf]
  have hcases : x < b.kernelStart ∨ b.kernelStart ≤ x ∧ x < b.textStart ∨
      b.textStart ≤ x ∧ x < b.rodataStart ∨ b.rodataStart ≤ x ∧ x < b.dataStart ∨
      b.dataStart ≤ x ∧ x < b.kernelEnd ∨ b.kernelEnd ≤ x ∧ x < b.superEnd ∨ b.superEnd ≤ x := by
    omega
  rcases hcases with hx | hx | hx | hx | hx | hx | hx
  all_goals simp (disch := omega) only [if_pos, if_neg]

/-- The leaf of every address once the memory is mapped. -/
theorem leaf_ramOps {x : Nat} (hx : x < 2 ^ 39) : (blank.after b.ramOps).leaf x = b.ramLeaf x := by
  have horder := h.order
  rw [ramOps, Sketch.after_append, Sketch.after_append,
    Sketch.leaf_large hx (pagesOf_addresses (by decide) b.superEnd_aligned (by omega)),
    h.leaf_image _ hx,
    Sketch.leaf_large hx (pagesOf_addresses (by decide) h.ramStart_aligned (by omega))]
  simp only [page_mem_addresses (by decide : 0 < superPage) b.superEnd_aligned h.ramEnd_aligned,
    page_mem_addresses (by decide : 0 < superPage) h.ramStart_aligned h.kernelStart_aligned, ramLeaf,
    blank]
  split_ifs <;> first | rfl | omega

omit h in
theorem nodup_addresses (start stop stride : Nat) (hstride : 0 < stride) :
    (addresses start stop stride).Nodup := by
  refine List.nodup_range.map fun i j hij => ?_
  exact Nat.eq_of_mul_eq_mul_right hstride (Nat.add_left_cancel hij)

/-- The steps of the image map pages. -/
theorem small_of_mem_imageOps {op : MapOp} (hop : op ∈ b.imageOps) :
    ∃ va flags, op = .small va flags ∧ Valid flags ∧ b.kernelStart ≤ va ∧ va < b.superEnd := by
  have horder := h.order
  have hsmall : ∀ {start stop flags}, b.kernelStart ≤ start → stop ≤ b.superEnd → Valid flags →
      op ∈ (addresses start stop 4096).map (MapOp.small · flags) →
      ∃ va flags, op = .small va flags ∧ Valid flags ∧ b.kernelStart ≤ va ∧ va < b.superEnd := by
    intro start stop flags hstart hstop hflags hmem
    obtain ⟨va, hva, rfl⟩ := List.mem_map.mp hmem
    obtain ⟨hlow, hhigh, -⟩ := (mem_addresses (by decide)).mp hva
    exact ⟨va, flags, rfl, hflags, Nat.le_trans hstart hlow, Nat.lt_of_lt_of_le hhigh hstop⟩
  simp only [imageOps, List.mem_append] at hop
  rcases hop with (((hop | hop) | hop) | hop) | hop
  · exact hsmall (by omega) (by omega) (by decide) hop
  · exact hsmall (by omega) (by omega) (by decide) hop
  · exact hsmall (by omega) (by omega) (by decide) hop
  · exact hsmall (by omega) (by omega) (by decide) hop
  · exact hsmall (by omega) (by omega) (by decide) hop

/-- The steps of the memory meet no entry of another size. -/
theorem plan_ramOps : blank.Plan b.ramOps := by
  have horder := h.order
  have hbefore : ∀ x < 2 ^ 39, (blank.after ((addresses b.ramStart b.kernelStart superPage).map
      (.large · pteLeafR))).leaf x = if b.ramStart ≤ x ∧ x < b.kernelStart then
        some (superPage, pte (x / superPage * superPage) pteLeafR) else none := fun x hx => by
    rw [Sketch.leaf_large hx (pagesOf_addresses (by decide) h.ramStart_aligned (by omega))]
    simp only [page_mem_addresses (by decide : 0 < superPage) h.ramStart_aligned h.kernelStart_aligned,
      blank]
  rw [ramOps, Sketch.plan_append, Sketch.plan_append, Sketch.after_append]
  refine ⟨⟨?_, ?_⟩, ?_⟩
  · refine Sketch.plan_large (pagesOf_addresses (by decide) h.ramStart_aligned (by omega))
      (nodup_addresses _ _ _ (by decide)) (by decide) (fun _ _ => rfl) fun va _ => ?_
    simp [blank]
  · refine Sketch.plan_small fun op hop => ?_
    obtain ⟨va, flags, rfl, hflags, hlow, hhigh⟩ := h.small_of_mem_imageOps hop
    refine ⟨va, flags, rfl, hflags, fun size entry hleaf => ?_⟩
    rw [hbefore va (by omega), if_neg (by omega)] at hleaf
    cases hleaf
  · have hva : ∀ {va}, va ∈ addresses b.superEnd b.ramEnd superPage → b.superEnd ≤ va ∧ va < b.ramEnd :=
      fun hva => ⟨((mem_addresses (by decide)).mp hva).1, ((mem_addresses (by decide)).mp hva).2.1⟩
    have hpages := pagesOf_addresses (by decide : 0 < superPage) b.superEnd_aligned horder.2.2.2.2.2.2.2
    refine Sketch.plan_large hpages (nodup_addresses _ _ _ (by decide)) (by decide)
      (fun va hmem => ?_) fun va hmem hpath => ?_
    · have hva := hva hmem
      rw [h.leaf_image _ (by omega), if_neg (by omega), hbefore va (by omega), if_neg (by omega)]
    · -- The tables of level 0 are those of the image, which ends before.
      rw [Sketch.paths_after, Sketch.paths_after, Finset.mem_union, Finset.mem_union,
        MapOp.mem_tables, MapOp.mem_tables] at hpath
      rcases hpath with (hpath | ⟨op, hop, hpath⟩) | ⟨op, hop, hpath⟩
      · simp [blank] at hpath
      · obtain ⟨va', -, rfl⟩ := List.mem_map.mp hop
        simp [MapOp.paths] at hpath
      · obtain ⟨va', flags, rfl, -, -, hhigh⟩ := h.small_of_mem_imageOps hop
        simp only [MapOp.paths, tablesAt, Finset.mem_insert, Finset.mem_singleton, List.cons.injEq,
          reduceCtorEq, and_false, false_or, and_true] at hpath
        obtain ⟨haligned, hlt⟩ := hpages va hmem
        have hsame := (block_eq (by omega) hlt haligned).mp ⟨hpath.2.symm, hpath.1.symm⟩
        have hle := Nat.div_mul_le_self va' superPage
        have hva := hva hmem
        omega

theorem plan_ops : blank.Plan b.ops := by
  have horder := h.order
  rw [ops, Sketch.plan_append, Sketch.plan_append, Sketch.after_append]
  refine ⟨⟨h.plan_ramOps, Sketch.plan_clear fun page hpage => ?_⟩, Sketch.plan_small fun op hop => ?_⟩
  · obtain ⟨haligned, hlow, hhigh⟩ := h.guardPage_inside hpage
    have hmem : page ∈ addresses b.kernelEnd b.superEnd 4096 := by
      rw [mem_addresses (by decide)]
      have hend := h.kernelEnd_aligned
      omega
    rw [Sketch.paths_after, Finset.mem_union, MapOp.mem_tables]
    refine .inr ⟨.small page pteLeafRw, ?_, by simp [MapOp.paths, tablesAt]⟩
    simp only [ramOps, imageOps, List.mem_append]
    exact .inl (.inr (.inr (List.mem_map_of_mem hmem)))
  · obtain rfl := List.mem_singleton.mp hop
    refine ⟨_, _, rfl, by decide, fun size entry hleaf => ?_⟩
    rw [Sketch.leaf_clear h.uartBase_lt h.pagesOf_guardPages, h.leaf_ramOps h.uartBase_lt, ramLeaf,
      if_pos h.uartBase_outside, ite_self] at hleaf
    cases hleaf

/-- The leaf of every address at the end. -/
theorem leaf_ops {x : Nat} (hx : x < 2 ^ 39) :
    (blank.after b.ops).leaf x =
      if x / 4096 * 4096 = b.uartBase then some (4096, pte (x / 4096 * 4096) pteLeafRw)
      else if b.Guard x then none else b.ramLeaf x := by
  have huart : PagesOf 4096 [b.uartBase] := fun va hva => by
    obtain rfl := List.mem_singleton.mp hva
    exact ⟨h.uartBase_aligned, h.uartBase_lt⟩
  have hmap : [MapOp.small b.uartBase pteLeafRw] = [b.uartBase].map (.small · pteLeafRw) := rfl
  rw [ops, hmap, Sketch.after_append, Sketch.after_append, Sketch.leaf_small hx huart,
    Sketch.leaf_clear hx h.pagesOf_guardPages, h.leaf_ramOps hx]
  simp only [List.mem_singleton, h.mem_guardPages]

end Layout

end Board

/-! ## What the mappings say -/

/-- An entry allows to write. -/
def Writable (flags : Nat) : Prop := flags &&& pteW ≠ 0

instance (flags : Nat) : Decidable (Writable flags) := inferInstanceAs (Decidable (_ ≠ _))

/-- An entry allows to execute. -/
def Executable (flags : Nat) : Prop := flags &&& pteX ≠ 0

instance (flags : Nat) : Decidable (Executable flags) := inferInstanceAs (Decidable (_ ≠ _))

/-- What a root makes of every address that has the mappings of the kernel and no other ones. -/
structure KernelMapped (b : Board) (m : Usage) (root : Nat) : Prop where
  ram : ∀ x, b.ramStart ≤ x → x < b.ramEnd → ¬ b.Guard x →
    ∃ flags, translate m root x = some (x, flags) ∧ ¬ User flags ∧
      (Executable flags ↔ b.textStart ≤ x ∧ x < b.rodataStart) ∧
      (Writable flags ↔ b.kernelStart ≤ x ∧ x < b.textStart ∨ b.dataStart ≤ x)
  guard : ∀ x, b.Guard x → translate m root x = none
  uart : ∀ x, b.uartBase ≤ x → x < b.uartBase + 4096 →
    ∃ flags, translate m root x = some (x, flags) ∧ ¬ User flags ∧ ¬ Executable flags
  other : ∀ x < 2 ^ 39, x < b.ramStart ∨ b.ramEnd ≤ x → x < b.uartBase ∨ b.uartBase + 4096 ≤ x →
    translate m root x = none

/-- A page that is mapped to itself. -/
theorem translate_self {size x : Nat} (hleaf : leafAt m root x = some (size, pte (x / size * size) flags))
    (hflags : pteFlags flags = flags) (hsize : 4096 ∣ size) (hx : x < 2 ^ 39) :
    translate m root x = some (x, flags) := by
  have hle := Nat.div_mul_le_self x size
  have hpage : x / size * size % 4096 = 0 :=
    Nat.mod_eq_zero_of_dvd (Nat.dvd_mul_left_of_dvd hsize _)
  rw [translate_of_leafAt hleaf hflags hpage (by omega) (Nat.mul_mod_left _ _), Nat.div_add_mod']

theorem Board.Layout.ramLeaf_eq {b : Board} (h : b.Layout) {x : Nat} (hlow : b.ramStart ≤ x)
    (hhigh : x < b.ramEnd) :
    ∃ size flags, b.ramLeaf x = some (size, pte (x / size * size) flags) ∧ 4096 ∣ size ∧
      pteFlags flags = flags ∧ ¬ User flags ∧
      (Executable flags ↔ b.textStart ≤ x ∧ x < b.rodataStart) ∧
      (Writable flags ↔ b.kernelStart ≤ x ∧ x < b.textStart ∨ b.dataStart ≤ x) := by
  have horder := h.order
  unfold ramLeaf
  rw [if_neg (by omega)]
  split_ifs
  · exact ⟨_, _, rfl, by decide, by decide, by decide, iff_of_false (by decide) (by omega),
      iff_of_false (by decide) (by omega)⟩
  · exact ⟨_, _, rfl, by decide, by decide, by decide, iff_of_false (by decide) (by omega),
      iff_of_true (by decide) (by omega)⟩
  · exact ⟨_, _, rfl, by decide, by decide, by decide, iff_of_true (by decide) (by omega),
      iff_of_false (by decide) (by omega)⟩
  · exact ⟨_, _, rfl, by decide, by decide, by decide, iff_of_false (by decide) (by omega),
      iff_of_false (by decide) (by omega)⟩
  · exact ⟨_, _, rfl, by decide, by decide, by decide, iff_of_false (by decide) (by omega),
      iff_of_true (by decide) (by omega)⟩
  · exact ⟨_, _, rfl, by decide, by decide, by decide, iff_of_false (by decide) (by omega),
      iff_of_true (by decide) (by omega)⟩

theorem Board.Layout.guard_lt {b : Board} (h : b.Layout) {x : Nat} (hguard : b.Guard x) :
    b.kernelEnd ≤ x ∧ x < b.superEnd := by
  obtain ⟨haligned, hlow, hhigh⟩ := h.guardPage_inside (h.mem_guardPages.mpr hguard)
  have hend := b.superEnd_page
  omega

/-- A tree with the leaves of the steps has the mappings of the kernel. -/
theorem Board.Layout.kernelMapped {b : Board} (h : b.Layout)
    (hleaf : ∀ x, leafAt m root x = (Board.blank.after b.ops).leaf x) : KernelMapped b m root := by
  have horder := h.order
  have haligned := h.uartBase_aligned
  have houtside := h.uartBase_outside
  have huart := h.uartBase_lt
  have hstart : b.ramStart % 4096 = 0 ∧ b.ramEnd % 4096 = 0 := by
    have hsuper : superPage = 2 ^ 21 := by decide
    have hstart := h.ramStart_aligned
    have hend := h.ramEnd_aligned
    rw [hsuper] at hstart hend
    omega
  constructor
  · intro x hlow hhigh hguard
    obtain ⟨size, flags, hram, hsize, hflags, hbits⟩ := h.ramLeaf_eq hlow hhigh
    refine ⟨flags, translate_self ?_ hflags hsize (by omega), hbits⟩
    rw [hleaf, h.leaf_ops (by omega), if_neg (by omega), if_neg hguard, hram]
  · intro x hguard
    have hlt := h.guard_lt hguard
    rw [translate, hleaf, h.leaf_ops (by omega), if_neg (by omega), if_pos hguard]
    rfl
  · intro x hlow hhigh
    refine ⟨pteLeafRw, translate_self ?_ (by decide) (Nat.dvd_refl 4096) (by omega), by decide,
      by decide⟩
    rw [hleaf, h.leaf_ops (by omega), if_pos (by omega)]
  · intro x hx hram hother
    rw [translate, hleaf, h.leaf_ops hx, if_neg (by omega), Board.ramLeaf, if_pos hram, ite_self]
    rfl

/-- A cleared root. -/
theorem Shaped.blank {n : Nat} (hsound : m.Sound)
    (hsmall : m.allocator.base + m.allocator.realCount * pageSize ≤ 2 ^ 56) (hroot : m.Taken root)
    (hzero : ∀ i < 512, pteRead m root i = 0) (hfree : m.HasFree n) :
    Shaped m root (n + 1) Board.blank.paths Board.blank.leaf := by
  have htop : ∀ {path table}, TableAt m root path table → path = [] ∧ table = root := by
    intro path table htable
    induction htable with
    | top => exact ⟨rfl, rfl⟩
    | down _ _ hi hvalid _ ih =>
      rw [ih.2, hzero _ hi] at hvalid
      exact absurd hvalid not_valid_zero
  refine ⟨⟨⟨hsound, hsmall, ?_, ?_⟩, ?_⟩, fun path => ?_, fun va => ?_, n, hfree, rfl⟩
  · rintro r path table rfl htable
    rw [(htop htable).2]
    exact hroot
  · rintro r r' path path' table rfl rfl htable htable'
    rw [(htop htable).1, (htop htable').1]
  · intro path path' table htable htable'
    rw [(htop htable).1, (htop htable').1]
  · refine Finset.mem_singleton.trans ⟨?_, fun ⟨table, htable⟩ => (htop htable).1⟩
    rintro rfl
    exact ⟨root, .top⟩
  · rw [leafAt, hzero _ (l2Index_lt va)]
    rfl

/-- `mapKernelRegion` on a cleared root. -/
theorem Board.Layout.mapKernelRegion {b : Board} (h : b.Layout) {n : Nat} (hsound : m.Sound)
    (hsmall : m.allocator.base + m.allocator.realCount * pageSize ≤ 2 ^ 56) (hroot : m.Taken root)
    (hzero : ∀ i < 512, pteRead m root i = 0) (hfree : m.HasFree n) :
    if b.tables.card ≤ n then
      ∃ t, Mmu.mapKernelRegion b m root = some t ∧ KernelMapped b t root ∧ Tree t root ∧
        DataKept m t root
    else Mmu.mapKernelRegion b m root = none := by
  have hrun := (Shaped.blank hsound hsmall hroot hzero hfree).run h.plan_ops
  have hcard : (Board.blank.after b.ops).paths.card = b.tables.card + 1 := by
    rw [Sketch.paths_after, Finset.union_comm]
    refine Finset.card_union_of_disjoint (Finset.disjoint_singleton_right.mpr fun hmem => ?_)
    obtain ⟨op, -, hpath⟩ := MapOp.mem_tables.mp hmem
    cases op <;> simp [MapOp.paths, tablesAt] at hpath
  rw [hcard, ← h.mapKernelRegion_eq] at hrun
  split at hrun
  next hle =>
    obtain ⟨t, hmap, hshaped, hkept⟩ := hrun
    rw [if_pos (by omega)]
    exact ⟨t, hmap, h.kernelMapped hshaped.leaves, hshaped.tree, hkept⟩
  next hle =>
    rw [if_neg (by omega)]
    exact hrun

/-- On every layout, `mapKernelRegion` fills a cleared root when there is a page for every table, and
the root then has the mappings of the kernel and no other ones. -/
theorem mapKernelRegion_kernelMapped {b : Board} (hlayout : b.Layout) {n : Nat} (hsound : m.Sound)
    (hsmall : m.allocator.base + m.allocator.realCount * pageSize ≤ 2 ^ 56) (hroot : m.Taken root)
    (hzero : ∀ i < 512, pteRead m root i = 0) (hfree : m.HasFree n) :
    ((∃ t, mapKernelRegion b m root = some t) ↔ b.tables.card ≤ n) ∧
      ∀ t, mapKernelRegion b m root = some t → KernelMapped b t root := by
  have hrun := hlayout.mapKernelRegion hsound hsmall hroot hzero hfree
  split at hrun
  next hle =>
    obtain ⟨t, hmap, hmapped, -⟩ := hrun
    refine ⟨iff_of_true ⟨t, hmap⟩ hle, fun t' hmap' => ?_⟩
    rw [hmap] at hmap'
    cases hmap'
    exact hmapped
  next hle =>
    rw [hrun]
    exact ⟨iff_of_false nofun hle, nofun⟩

/-- A board with an image of three pages. -/
def Board.sample : Board where
  ramStart := 0x80000000
  ramEnd := 0x80400000
  kernelStart := 0x80200000
  textStart := 0x80200000
  rodataStart := 0x80201000
  dataStart := 0x80202000
  kernelEnd := 0x80203000
  stackGuard := 0x80203000
  trapStackBase := 0x80208000
  trapStackTop := 0x80210000
  idleStackBase := 0x80210000
  idleStackTop := 0x80218000
  uartBase := 0x10000000

theorem Board.sample_layout : Board.sample.Layout := by
  constructor <;> first | decide | exact ⟨by decide, by decide, by decide⟩

set_option maxRecDepth 100000 in
theorem Board.sample_tables : Board.sample.tables.card ≤ 4 := by
  have hpaths : ∀ op ∈ Board.sample.ops, ∀ path ∈ op.paths,
      path ∈ ({[0], [2], [1, 2], [128, 0]} : Finset (List Nat)) := by decide +kernel
  refine Nat.le_trans (Finset.card_le_card fun path hpath => ?_) (@Finset.card_le_four _ _ [0] [2] [1, 2] [128, 0])
  obtain ⟨op, hop, hpath⟩ := MapOp.mem_tables.mp hpath
  exact hpaths op hop path hpath

theorem mapKernelRegion_kernelMapped_sample : ∃ m root t,
    mapKernelRegion Board.sample m root = some t ∧ KernelMapped Board.sample t root := by
  have hregion : Region 0x80300000 8 := ⟨by decide, by decide, by decide⟩
  have hsees := hregion.sees (fun _ => 0) []
  have hfree : (Usage.start (fun _ => 0) 0x80300000 8 []).HasFree 8 := by decide +kernel
  obtain ⟨root, t, -, htakes, hfree'⟩ := hsees.sound.allocPages_succ hfree
  have hpage : t.HasPage root := (htakes.pages root).mpr (.inl rfl)
  have hzero : ∀ i < 512, pteRead (t.zeroPage root) root i = 0 := fun i hi =>
    Usage.read_zeroPage_of_inPage (inPage_entry hi)
  have hsmall : t.allocator.base + t.allocator.realCount * pageSize ≤ 2 ^ 56 := by
    rw [htakes.region.1, htakes.region.2.1]
    exact hsees.small
  obtain ⟨hmaps, hmapped⟩ := mapKernelRegion_kernelMapped Board.sample_layout htakes.zeroed.sound
    hsmall hpage.taken hzero ((htakes.sound.hasFree_zeroPage hpage).mpr hfree')
  obtain ⟨u, hu⟩ := hmaps.mpr (Board.sample_tables.trans (by decide))
  exact ⟨_, root, u, hu, hmapped u hu⟩

end Ignium.Mmu
