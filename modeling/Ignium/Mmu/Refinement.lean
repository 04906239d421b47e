import Ignium.Kernel.Machine
import Ignium.Mmu.Teardown

/-!
# Page tables refine a finite map

A machine that makes address spaces and maps and unmaps pages in them, in any order. Read through
`leafPte`, each address space is a map from virtual pages to entries, and `Refines` says what every
call does to these maps: a map that succeeds sets one unset entry, one that fails sets none, and
unmapping clears one entry and allocates nothing. `always_lawful` has this in every reachable
state, with the separation that makes it true: every page is a table of one place of one address
space at most (`TableAt`).
-/

namespace Ignium.Mmu

open Mem

/-- The address spaces that were made, and the memory that holds them. -/
structure Spaces where
  mem : Usage
  roots : List Nat

/-- The calls on address spaces. -/
inductive TableOp where
  | create
  | mapUser (root va paddr flags : Nat)
  | mapDevice (root va paddr flags : Nat)
  | unmap (root va : Nat)
  deriving DecidableEq

namespace Spaces

/-- A call names an address space that was made and a user address, and maps a valid entry. -/
def Admits (s : Spaces) : TableOp → Prop
  | .create => True
  | .mapUser root va _ flags => root ∈ s.roots ∧ va < userVaLimit ∧ Valid flags
  | .mapDevice root va _ flags => root ∈ s.roots ∧ va < userVaLimit ∧ Valid flags
  | .unmap root va => root ∈ s.roots ∧ va < userVaLimit

instance (s : Spaces) : (op : TableOp) → Decidable (s.Admits op)
  | .create => inferInstanceAs (Decidable True)
  | .mapUser _ _ _ _ => inferInstanceAs (Decidable (_ ∧ _ ∧ _))
  | .mapDevice _ _ _ _ => inferInstanceAs (Decidable (_ ∧ _ ∧ _))
  | .unmap _ _ => inferInstanceAs (Decidable (_ ∧ _))

/-- A call, with what it returns. -/
def call (b : Board) (s : Spaces) : TableOp → Outcome Spaces Unit Unit
  | .create =>
    match createUserRoot b s.mem with
    | none => none
    | some (.error _, m) => some (.error (), { s with mem := m })
    | some (.ok root, m) => some (.ok (), ⟨m, root :: s.roots⟩)
  | .mapUser root va paddr flags =>
    (mapUserPage s.mem root va paddr flags).map fun r => (r.1, { s with mem := r.2 })
  | .mapDevice root va paddr flags =>
    (mapDevicePage s.mem root va paddr flags).map fun r => (r.1, { s with mem := r.2 })
  | .unmap root va => (unmap4k s.mem root va).map fun r => (r.1, { s with mem := r.2 })

/-- One step of the machine. -/
def step (b : Board) (s : Spaces) (op : TableOp) : Option Spaces :=
  if s.Admits op then (s.call b op).discard else none

/-- The machine before the first address space is made. -/
def start (mem : Usage) : Spaces := ⟨mem, []⟩

/-! ## What the calls are for -/

/-- The entry of an address. -/
def entry (s : Spaces) (root va : Nat) : Nat := leafPte s.mem root va

/-- Nothing changed that can be read. -/
def Keeps (s s' : Spaces) : Prop :=
  s'.roots = s.roots ∧ ∀ r ∈ s.roots, ∀ va, s'.entry r va = s.entry r va

/-- One entry changed, in one address space. -/
def Sets (s s' : Spaces) (root va value : Nat) : Prop :=
  s'.roots = s.roots ∧ ∀ r ∈ s.roots, ∀ va' < 2 ^ 39, s'.entry r va' =
    if r = root ∧ va' / pageSize = va / pageSize then value else s.entry r va'

/-- A new address space, next to those that were there. -/
def Adds (s s' : Spaces) : Prop :=
  ∃ root, root ∉ s.roots ∧ s'.roots = root :: s.roots ∧
    ∀ r ∈ s.roots, ∀ va, s'.entry r va = s.entry r va

/-- What a call may do to the address spaces, by what it returns. -/
def Refines (s s' : Spaces) : TableOp → Except Unit Unit → Prop
  | .create, .ok _ => s.Adds s'
  | .mapUser root va paddr flags, .ok _ =>
    s.entry root va = 0 ∧ s.Sets s' root va (pte paddr (flags ||| pteU))
  | .mapDevice root va paddr flags, .ok _ =>
    s.entry root va = 0 ∧ s.Sets s' root va (pte paddr (flags ||| pteU))
  | .unmap root va, .ok _ => s.Sets s' root va 0 ∧ s'.mem.live = s.mem.live
  | _, .error _ => s.Keeps s'

/-- A page is the table at a place of an address space. -/
inductive TableAt (m : Usage) (root : Nat) : List Nat → Nat → Prop where
  | top : TableAt m root [] root
  | down {path : List Nat} {table i : Nat} : TableAt m root path table → path.length < 2 → i < 512 →
      Valid (pteRead m table i) → ¬ Leaf (pteRead m table i) →
      TableAt m root (i :: path) (ptePaddr (pteRead m table i))

/-- No page is a table of two address spaces, or at two places of one. -/
def Apart (s : Spaces) : Prop :=
  ∀ r ∈ s.roots, ∀ r' ∈ s.roots, ∀ path path' table,
    TableAt s.mem r path table → TableAt s.mem r' path' table → r = r' ∧ path = path'

/-! ## The calls keep the address spaces apart -/

/-- The memory implements address spaces with the roots that were made. -/
def Sound (s : Spaces) : Prop := ∃ place V, Sees s.mem place V ∧ ∀ r, V.root r ↔ r ∈ s.roots

variable {s s' : Spaces} {b : Board} {op : TableOp} {r : Except Unit Unit} {V V' : View}
  {place place' : Nat → Option Place} {root va value : Nat}

theorem place_of_tableAt {path : List Nat} {table : Nat} (h : Sees s.mem place V)
    (hroot : V.root root) (htable : TableAt s.mem root path table) :
    place table = some ⟨root, path⟩ := by
  induction htable with
  | top => exact h.roots.mp hroot
  | down _ hpath hi hvalid hleaf ih =>
    obtain ⟨hleaf', -⟩ | ⟨-, hdown⟩ := h.tables.down ih hpath hi hvalid
    · exact absurd hleaf' hleaf
    · exact hdown

theorem Sound.apart (h : s.Sound) : s.Apart := by
  obtain ⟨place, V, hsees, hroots⟩ := h
  intro r hr r' hr' path path' table hat hat'
  have hplace := place_of_tableAt hsees ((hroots r).mpr hr) hat
  have hplace' := place_of_tableAt hsees ((hroots r').mpr hr') hat'
  rw [hplace] at hplace'
  cases hplace'
  exact ⟨rfl, rfl⟩

theorem vpn_eq_iff {va va' : Nat} (hva : va < 2 ^ 39) (hva' : va' < 2 ^ 39) :
    vpn va' = vpn va ↔ va' / pageSize = va / pageSize := by
  simp only [vpn, Prod.mk.injEq, l2Index_eq, l1Index_eq, l0Index_eq, pageSize]
  omega

section

variable (h : Sees s.mem place V)
include h

theorem keeps_of_sees (h' : Sees s'.mem place' V)
    (hroots : ∀ r, V.root r ↔ r ∈ s.roots) (heq : s'.roots = s.roots) : s.Keeps s' := by
  refine ⟨heq, fun r hr va => ?_⟩
  rw [entry, entry, h.leaves ((hroots r).mpr hr), h'.leaves ((hroots r).mpr hr)]

theorem sets_of_sees (h' : Sees s'.mem place' (V.setLeaf root (vpn va) value))
    (hroots : ∀ r, V.root r ↔ r ∈ s.roots) (heq : s'.roots = s.roots) (hva : va < userVaLimit) :
    s.Sets s' root va value := by
  have hlt : va < 2 ^ 39 := lt_trans hva (by decide)
  refine ⟨heq, fun r hr va' hva' => ?_⟩
  have hroot : (V.setLeaf root (vpn va) value).root r := (hroots r).mpr hr
  rw [entry, entry, h.leaves ((hroots r).mpr hr), h'.leaves hroot]
  simp only [View.setLeaf, vpn_eq_iff hlt hva']

/-- The two ways of mapping a page. -/
theorem map_refines {paddr flags : Nat} {m : Usage}
    (hroots : ∀ r, V.root r ↔ r ∈ s.roots) (hroot : root ∈ s.roots) (hva : va < userVaLimit)
    (hflags : Valid flags) (hmap : mapUserLeaf s.mem root va paddr flags = some (r, m)) :
    (r = .error () ∧ s.Keeps { s with mem := m } ∨
      r = .ok () ∧ s.entry root va = 0 ∧
        s.Sets { s with mem := m } root va (pte paddr (flags ||| pteU))) ∧
      ({ s with mem := m } : Spaces).Sound := by
  obtain ⟨m', place', ⟨herror, h'⟩ | ⟨hok, hzero, h'⟩⟩ := h.mapUserLeaf ((hroots root).mpr hroot) hflags
  · rw [herror] at hmap
    cases hmap
    exact ⟨.inl ⟨rfl, keeps_of_sees h h' hroots rfl⟩, place', V, h', hroots⟩
  · rw [hok] at hmap
    cases hmap
    refine ⟨.inr ⟨rfl, ?_, sets_of_sees h h' hroots rfl hva⟩, place', _, h', hroots⟩
    rw [entry, h.leaves ((hroots root).mpr hroot), hzero]

theorem unmap_refines {m : Usage} (hroots : ∀ r, V.root r ↔ r ∈ s.roots)
    (hroot : root ∈ s.roots) (hva : va < userVaLimit)
    (hunmap : unmap4k s.mem root va = some (r, m)) :
    (r = .error () ∧ s.Keeps { s with mem := m } ∨
      r = .ok () ∧ s.Sets { s with mem := m } root va 0 ∧ m.live = s.mem.live) ∧
      ({ s with mem := m } : Spaces).Sound := by
  obtain ⟨herror, -⟩ | ⟨m', hok, hkeeps, h'⟩ := h.unmap4k ((hroots root).mpr hroot) va
  · rw [herror] at hunmap
    cases hunmap
    exact ⟨.inl ⟨rfl, keeps_of_sees h h hroots rfl⟩, place, V, h, hroots⟩
  · rw [hok] at hunmap
    cases hunmap
    exact ⟨.inr ⟨rfl, sets_of_sees h h' hroots rfl hva, hkeeps.live⟩, place, _, h', hroots⟩

theorem create_refines {result : Except Unit Nat} {m : Usage}
    (hroots : ∀ r, V.root r ↔ r ∈ s.roots) (hcreate : createUserRoot b s.mem = some (result, m)) :
    (result = .error () ∧ m = s.mem) ∨ ∃ root, result = .ok root ∧ s.Adds ⟨m, root :: s.roots⟩ ∧
      (⟨m, root :: s.roots⟩ : Spaces).Sound := by
  obtain herror | ⟨root, place', V', hok, hnew, -, h', hgrows, -⟩ := h.createUserRoot hcreate
  · exact .inl herror
  have hroots' : ∀ r, V'.root r ↔ r ∈ root :: s.roots := by
    intro r
    rw [hgrows.roots, List.mem_cons, ← hroots]
    rfl
  have hold : ∀ r ∈ s.roots, r ≠ root := by
    rintro r hr rfl
    exact hnew ((hroots r).mpr hr)
  refine .inr ⟨root, hok, ⟨root, fun hmem => hold root hmem rfl, rfl, fun r hr va => ?_⟩, place', V',
    h', hroots'⟩
  have hr' : V'.root r := (hroots' r).mpr (List.mem_cons_of_mem _ hr)
  rw [entry, entry, h.leaves ((hroots r).mpr hr), h'.leaves hr', hgrows.leaves r (hold r hr)]
  exact if_neg (hold r hr)

end

/-- A call does what it is for and leaves address spaces behind. -/
theorem Sound.call (h : s.Sound) (hadmits : s.Admits op) (hcall : s.call b op = some (r, s')) :
    s.Refines s' op r ∧ s'.Sound := by
  have hsame : s.Keeps { s with mem := s.mem } ∧ s.Sound := ⟨⟨rfl, fun _ _ _ => rfl⟩, h⟩
  obtain ⟨place, V, hsees, hroots⟩ := h
  cases op with
  | create =>
    rcases hcreate : createUserRoot b s.mem with _ | ⟨result, m⟩
    · simp [Spaces.call, hcreate] at hcall
    obtain ⟨rfl, rfl⟩ | ⟨root, rfl, hadds, hsound⟩ := create_refines hsees hroots hcreate
    · simp only [Spaces.call, hcreate] at hcall
      cases hcall
      exact hsame
    · simp only [Spaces.call, hcreate] at hcall
      cases hcall
      exact ⟨hadds, hsound⟩
  | mapUser root va paddr flags =>
    obtain ⟨hroot, hva, hflags⟩ := hadmits
    obtain ⟨⟨result, m⟩, hmap, ⟨⟩⟩ := Option.map_eq_some_iff.mp hcall
    unfold mapUserPage at hmap
    split at hmap
    · cases hmap
      exact hsame
    split at hmap
    · cases hmap
      exact hsame
    split at hmap
    · cases hmap
      exact hsame
    obtain ⟨⟨rfl, hkeeps⟩ | ⟨rfl, hsets⟩, hsound⟩ := map_refines hsees hroots hroot hva hflags hmap
    · exact ⟨hkeeps, hsound⟩
    · exact ⟨hsets, hsound⟩
  | mapDevice root va paddr flags =>
    obtain ⟨hroot, hva, hflags⟩ := hadmits
    obtain ⟨⟨result, m⟩, hmap, ⟨⟩⟩ := Option.map_eq_some_iff.mp hcall
    unfold mapDevicePage at hmap
    split at hmap
    · cases hmap
      exact hsame
    obtain ⟨⟨rfl, hkeeps⟩ | ⟨rfl, hsets⟩, hsound⟩ := map_refines hsees hroots hroot hva hflags hmap
    · exact ⟨hkeeps, hsound⟩
    · exact ⟨hsets, hsound⟩
  | unmap root va =>
    obtain ⟨hroot, hva⟩ := hadmits
    obtain ⟨⟨result, m⟩, hunmap, ⟨⟩⟩ := Option.map_eq_some_iff.mp hcall
    obtain ⟨⟨rfl, hkeeps⟩ | ⟨rfl, hsets⟩, hsound⟩ := unmap_refines hsees hroots hroot hva hunmap
    · exact ⟨hkeeps, hsound⟩
    · exact ⟨hsets, hsound⟩

/-- Only making an address space can fail to return, when there is no memory for its tables. -/
theorem Sound.call_isSome (h : s.Sound) (hadmits : s.Admits op) (hop : op ≠ .create) :
    (s.call b op).isSome := by
  obtain ⟨place, V, hsees, hroots⟩ := h
  have hleaf : ∀ {root va paddr flags}, root ∈ s.roots → Valid flags →
      (mapUserLeaf s.mem root va paddr flags).isSome := by
    intro root va paddr flags hroot hflags
    obtain ⟨m, place', ⟨heq, -⟩ | ⟨heq, -⟩⟩ := hsees.mapUserLeaf ((hroots root).mpr hroot) hflags
    · rw [heq]
      rfl
    · rw [heq]
      rfl
  cases op with
  | create => exact absurd rfl hop
  | mapUser root va paddr flags =>
    obtain ⟨hroot, -, hflags⟩ := hadmits
    rw [Spaces.call, Option.isSome_map]
    unfold mapUserPage
    split
    · rfl
    split
    · rfl
    split
    · rfl
    exact hleaf hroot hflags
  | mapDevice root va paddr flags =>
    obtain ⟨hroot, -, hflags⟩ := hadmits
    rw [Spaces.call, Option.isSome_map]
    unfold mapDevicePage
    split
    · rfl
    exact hleaf hroot hflags
  | unmap root va =>
    obtain ⟨hroot, -⟩ := hadmits
    rw [Spaces.call, Option.isSome_map]
    obtain ⟨heq, -⟩ | ⟨m, heq, -⟩ := hsees.unmap4k ((hroots root).mpr hroot) va
    · rw [heq]
      rfl
    · rw [heq]
      rfl

/-- Tables are not shared, calls on address spaces return, and every call does what it is for. -/
structure Lawful (b : Board) (s : Spaces) : Prop where
  apart : s.Apart
  returns : ∀ op, s.Admits op → op ≠ .create → (s.call b op).isSome
  refines : ∀ op r s', s.Admits op → s.call b op = some (r, s') → s.Refines s' op r

/-- Page tables refine finite maps in every state of every run. -/
theorem always_lawful {base count : Nat} (h : Region base count) (b : Board) (ram : Nat → Nat)
    (reserved : List (Nat × Nat)) (ops : List TableOp) :
    Machine.Always (step b) (start (Usage.start ram base count reserved)) ops (Lawful b) := by
  have hstart : Sound (start (Usage.start ram base count reserved)) :=
    ⟨_, _, h.sees ram reserved, fun r => by simp [View.bare, start]⟩
  have halways : Machine.Always (step b) (start (Usage.start ram base count reserved)) ops Sound := by
    refine Machine.always_of_step hstart fun s op s' hsound hstep => ?_
    unfold step at hstep
    split at hstep
    · next hadmits =>
      obtain ⟨r, hcall⟩ := Outcome.discard_eq_some hstep
      exact (hsound.call hadmits hcall).2
    · cases hstep
  intro first rest s hops hrun
  have hsound := halways first rest s hops hrun
  exact ⟨hsound.apart, fun op hadmits hop => hsound.call_isSome hadmits hop,
    fun op r s' hadmits hcall => (hsound.call hadmits hcall).1⟩

set_option maxRecDepth 100000 in
/-- Two address spaces on the small board, and a page that is mapped, unmapped and mapped to the
device. -/
theorem always_lawful_small :
    Region 0x80300000 32 ∧
      (Machine.run (step Kernel.smallBoard) (start Kernel.smallMem)
        [.create, .create, .mapUser 0x80300000 0x1000 0x80310000 pteLeafRw, .unmap 0x80300000 0x1000,
          .mapDevice 0x80300000 0x1000 0x10000000 pteLeafRw]).isSome = true ∧
      Machine.Always (step Kernel.smallBoard) (start Kernel.smallMem)
        [.create, .create, .mapUser 0x80300000 0x1000 0x80310000 pteLeafRw, .unmap 0x80300000 0x1000,
          .mapDevice 0x80300000 0x1000 0x10000000 pteLeafRw] (Lawful Kernel.smallBoard) := by
  have hregion : Region 0x80300000 32 := ⟨by decide, by decide, by decide⟩
  exact ⟨hregion, by decide +kernel, always_lawful hregion Kernel.smallBoard _ _ _⟩

end Spaces

end Ignium.Mmu
