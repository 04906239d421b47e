import Ignium.Kernel.UseAfterFree
import Ignium.Mmu.Exact

/-!
# Revoking a shared page

The record of a shared page remembers which slots of which processes were given its capability, and
`shm_revoke` empties these slots and unmaps `shmVa` in both address spaces without looking at what
is there by then. `RevokeFrame` says that it finds what it looks for: it takes away capabilities and
mappings of this page only. `always_revokeLaw` has this for every live shared page in every state
of every run that does not overwrite a recorded slot. In `not_revokeLaw_dup` one of the slots holds
a capability for a process when the page is revoked.
-/

namespace Ignium.Kernel

open Mem Mmu Spaces

namespace State

variable {k k' : State} {b : Board} {range : Nat → Bool} {pol : Policy} {base count id : Nat}

/-- Going from `k` to `k'` touched only what belongs to a shared page. -/
structure RevokeFrame (k k' : State) (id : Nat) (sp : SharedPage) : Prop where
  /-- A slot that changed held a capability for the page. -/
  caps : ∀ q s, k'.table.capAt q s ≠ k.table.capAt q s → k.table.capAt q s = some (.shm id)
  roots : k'.table.pidRoot = k.table.pidRoot
  /-- A leaf that changed mapped the page for user code. -/
  leaves : ∀ pid root va, k.table.pidRoot pid = some root →
    leafPte k'.mem root va ≠ leafPte k.mem root va →
      User (leafPte k.mem root va) ∧ ptePaddr (leafPte k.mem root va) = sp.paddr
  /-- The tables are where they were. -/
  tables : ∀ pid root path table, k.table.pidRoot pid = some root →
    (TableAt k'.mem root path table ↔ TableAt k.mem root path table)
  /-- No other page became free. -/
  freed : ∀ p, FreePage k'.mem.allocator p ↔
    FreePage k.mem.allocator p ∨ k.mem.allocator.blockAddr p = sp.paddr
  /-- The record is dead and no other one is. -/
  records : ∀ i, k'.sharedPage i = if i = id then none else k.sharedPage i
  pages : k'.pages = k.pages
  services : k'.services = k.services
  devices : k'.devices = k.devices

/-- Revoking a live shared page touches only what belongs to it. -/
def RevokeLaw (k : State) : Prop :=
  ∀ id sp r k', k.sharedPage id = some sp → k.shmRevoke id = some (r, k') → RevokeFrame k k' id sp

/-- In the discipline of owned pages the recorded slots hold the capability and both owners map the
page. -/
theorem revokeLaw_of_inOrder (hk : k.Sound) (h : InOrder range k.mem (k.ledger pol)) :
    k.RevokeLaw := by
  intro id sp r k' hsp hrevoke
  obtain ⟨V, ⟨place, hsees⟩, hgood, rfl⟩ := h
  obtain ⟨m₁, m₂, hm₁, hm₂, hfree⟩ := shmRevoke_mem hsp hrevoke
  have hrevoked := revoked_shmRevoke hk hrevoke
  obtain ⟨V₁, hsees₁, hloses₁, hkeeps₁⟩ := unmapAt_sees hsees (fun r hr => hgood.root hr) hm₁
  have hroots₁ : ∀ r, k.table.pidRoot sp.second.1 = some r → V₁.root r := by
    intro r hr
    rw [hloses₁.roots]
    exact hgood.root hr
  obtain ⟨V₂, hsees₂, hloses₂, hkeeps₂⟩ := unmapAt_sees hsees₁ hroots₁ hm₂
  have hloses := hloses₁.trans hloses₂
  obtain ⟨hdata, -⟩ := (hgood.at_ sp.paddr).shared hsp rfl
  have hdata₂ : V₂.data sp.paddr := by rwa [hloses.data]
  obtain ⟨t, hdone, hgives⟩ := hsees₂.sound.freePages (hsees₂.data.mp hdata₂).1
  obtain ⟨t', hdone', hsees'⟩ := hsees₂.give hdata₂
  obtain rfl : k'.mem = t := by
    rw [hdone] at hfree
    exact congrArg Prod.snd (Option.some.inj hfree).symm
  obtain rfl : k'.mem = t' := by
    rw [hdone] at hdone'
    exact congrArg Prod.snd (Option.some.inj hdone')
  have hroot' : ∀ {r}, V.root r → (V₂.dropData sp.paddr).root r := fun {r} hr => by
    show V₂.root r
    rwa [hloses.roots]
  refine ⟨fun q s hne => ?_, hrevoked.roots, fun pid root va hroot hne => ?_,
    fun pid root path table hroot => ?_, fun p => ?_, fun i => ?_, hrevoked.pages,
    hrevoked.services, hrevoked.devices⟩
  · -- The slots that are emptied are those that the record names.
    obtain ⟨hfirst, hsecond⟩ := hgood.slots hsp
    have hrec : k.Recorded [id] q s := by
      by_contra hrec
      exact hne (hrevoked.kept q s hrec)
    obtain ⟨other, hmem, sp', hsp', hslot⟩ := hrec
    obtain rfl := List.mem_singleton.mp hmem
    obtain rfl : sp = sp' := Option.some.inj (hsp.symm.trans hsp')
    rcases hslot with hslot | hslot
    · rw [← hslot] at hfirst
      exact hfirst
    · rw [← hslot] at hsecond
      exact hsecond
  · have hr := hgood.root hroot
    rw [hsees.leaves hr, hsees'.leaves (hroot' hr)] at hne
    rw [hsees.leaves hr]
    -- Only the leaves of the two owners at `shmVa` are cleared.
    have hplace : (k.table.pidRoot sp.first.1 = some root ∧ vpn va = vpn shmVa) ∨
        (k.table.pidRoot sp.second.1 = some root ∧ vpn va = vpn shmVa) := by
      by_contra hplace
      exact hne (hloses.leaves root (vpn va) hplace)
    obtain ⟨hfirst, hsecond⟩ := hgood.shown hsp
    rcases hplace with ⟨howner, hva⟩ | ⟨howner, hva⟩
    · obtain ⟨root', hroot', hmaps⟩ := hfirst
      obtain rfl : root = root' := Option.some.inj (howner.symm.trans hroot')
      rwa [hva]
    · obtain ⟨root', hroot', hmaps⟩ := hsecond
      obtain rfl : root = root' := Option.some.inj (howner.symm.trans hroot')
      rwa [hva]
  · have hr := hgood.root hroot
    have hat : TableAt k.mem root path table ↔ place table = some ⟨root, path⟩ :=
      tableAt_iff (s := ⟨k.mem, []⟩) hsees hr
    have hat' : TableAt k'.mem root path table ↔ place table = some ⟨root, path⟩ :=
      tableAt_iff (s := ⟨k'.mem, []⟩) hsees' (hroot' hr)
    exact hat'.trans hat.symm
  · have hkeeps := hkeeps₁.trans hkeeps₂
    rw [hgives.free, hkeeps.free, hkeeps.region.blockAddr_eq]
  · rw [hrevoked.records]
    simp only [List.mem_singleton]

/-- In every run in which no operation overwrites a slot that a live shared page records, revoking a
shared page touches only what belongs to it. -/
theorem always_revokeLaw (h : Fits b base count) (ram : Nat → Nat) (reserved : List (Nat × Nat))
    (ops : List KernelOp)
    (hkeeps : Machine.Each (step b) (boot (Usage.start ram base count reserved)) ops
      KeepsRecorded) :
    Machine.Always (step b) (boot (Usage.start ram base count reserved)) ops RevokeLaw := by
  have hboot : Orderly .free _ (boot (Usage.start ram base count reserved)) :=
    orderly_boot (h.sees ram reserved)
  have halways := Machine.always_of_each hboot (fun k op k' hinv hstep hcond =>
    hinv.step h.uart_out h.uartSmall permits_free hcond hstep) hkeeps
  intro first rest k hops hrun
  have horderly := halways first rest k hops hrun
  exact revokeLaw_of_inOrder horderly.sound horderly.inOrder

/-- Two processes share a page, and either may revoke it. -/
theorem always_revokeLaw_share :
    Fits smallBoard 0x80300000 32 ∧ Machine.Always (step smallBoard) (boot smallMem)
      [.create, .create, .serviceRegister 1 1, .serviceConnect 0 1 0 1, .shmMap 0 0 0 4096]
      RevokeLaw := by
  have hfits : Fits smallBoard 0x80300000 32 := by
    refine ⟨⟨?_, ?_, ?_⟩, ?_, ?_⟩ <;> decide
  exact ⟨hfits, always_revokeLaw hfits _ _ _ each_keepsRecorded_share⟩

set_option maxRecDepth 100000 in
/-- Process 1 copies its capability for process 0 over the one for the page. Revoking the page takes
the copy away. -/
theorem not_revokeLaw_dup :
    ¬ Machine.Always (step smallBoard) (boot smallMem)
      [.create, .create, .serviceRegister 1 1, .serviceConnect 0 1 0 1, .shmMap 0 0 0 4096,
        .capDup 1 1 0] RevokeLaw := by
  intro halways
  have heval : (Machine.run (step smallBoard) (boot smallMem)
      [.create, .create, .serviceRegister 1 1, .serviceConnect 0 1 0 1, .shmMap 0 0 0 4096,
        .capDup 1 1 0]).map (fun k => ((k.sharedPage 0).isSome, k.table.capAt 1 0,
          (k.shmRevoke 0).map fun r => r.2.table.capAt 1 0)) =
      some (true, some (.proc 0), some none) := by
    decide +kernel
  obtain ⟨k, hrun, hk⟩ := Option.map_eq_some_iff.mp heval
  obtain ⟨hlive, hk⟩ := Prod.mk.inj hk
  obtain ⟨hbefore, hk⟩ := Prod.mk.inj hk
  obtain ⟨sp, hsp⟩ := Option.isSome_iff_exists.mp hlive
  obtain ⟨⟨r, k'⟩, hrevoke, hafter⟩ := Option.map_eq_some_iff.mp hk
  have hframe := halways _ [] k (List.append_nil _).symm hrun 0 sp r k' hsp hrevoke
  have hcap : k.table.capAt 1 0 = some (.shm 0) := by
    refine hframe.caps 1 0 fun hsame => ?_
    rw [hbefore] at hsame
    exact absurd (hafter.symm.trans hsame) (by decide)
  rw [hbefore] at hcap
  exact absurd hcap (by decide)

end State

end Ignium.Kernel
