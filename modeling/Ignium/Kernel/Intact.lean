import Ignium.Kernel.UseAfterFree

/-!
# The kernel's part of an address space

User and kernel addresses share one root table, and a user address is only checked against
`2 ^ 38`. What keeps user calls out of the kernel's pages is that a mapping is refused where
there is one already. `always_intact` says that this is enough wherever the kernel has a mapping:
as long as no call asks for a page that `mapKernelRegion` leaves unmapped (`AvoidsHoles`), every
root keeps `Board.kernelMap` on all pages of the kernel. The guard pages below the stacks are
such holes, and `not_intact_guard` maps one of them for user code.
-/

namespace Ignium.Mmu

namespace PageMap

/-- No leaf is for user code. -/
def Plain (f : PageMap) : Prop := ∀ n, ¬ User (f n)

variable {f : PageMap}

theorem Plain.set4k (h : f.Plain) {entry : Nat} (hentry : ¬ User entry) (va : Nat) :
    (f.set4k va entry).Plain := by
  intro n
  rw [PageMap.set4k, Function.update_apply]
  split
  · exact hentry
  · exact h n

theorem Plain.setSuper (h : f.Plain) {entry : Nat} (hentry : ¬ User entry) (va : Nat) :
    (f.setSuper va entry).Plain := by
  intro n
  rw [PageMap.setSuper]
  split
  · exact hentry
  · exact h n

theorem Plain.region4k (h : f.Plain) {flags : Nat} (hflags : ¬ User flags) (start stop : Nat) :
    (f.region4k start stop flags).Plain := by
  refine List.foldlRecOn _ _ h fun f hf va _ => ?_
  exact hf.set4k (fun huser => hflags (user_pte.mp huser)) va

theorem Plain.regionSuper (h : f.Plain) {flags : Nat} (hflags : ¬ User flags) (start stop : Nat) :
    (f.regionSuper start stop flags).Plain := by
  refine List.foldlRecOn _ _ h fun f hf va _ => ?_
  exact hf.setSuper (fun huser => hflags (user_pte.mp huser)) va

theorem Plain.clear (h : f.Plain) (pages : List Nat) : (f.clear pages).Plain :=
  List.foldlRecOn _ _ h fun _ hf page _ => hf.set4k not_user_zero page

end PageMap

namespace Board

variable {b : Board}

theorem image_plain : b.image.Plain := by
  have hr : ¬ User pteLeafR := by decide
  have hrw : ¬ User pteLeafRw := by decide
  have hrx : ¬ User pteLeafRx := by decide
  have hfirst : PageMap.Plain (PageMap.regionSuper (fun _ => 0) b.ramStart b.kernelStart pteLeafR) :=
    PageMap.Plain.regionSuper (fun _ => not_user_zero) hr _ _
  have hdata := (((hfirst.region4k hrw b.kernelStart b.textStart).region4k hrx
    b.textStart b.rodataStart).region4k hr b.rodataStart b.dataStart).region4k hrw
      b.dataStart b.kernelEnd
  unfold image
  refine PageMap.Plain.regionSuper ?_ hrw _ _
  split
  · exact hdata.region4k hrw _ _
  · exact hdata

/-- The kernel maps nothing for user code. -/
theorem kernelMap_plain : b.kernelMap.Plain := by
  refine (image_plain.clear b.guardPages).set4k ?_ b.uartBase
  rw [user_pte]
  decide

/-- A page of the kernel: one that it maps, a guard page, or a page of the RAM. -/
def Resident (b : Board) (n : Nat × Nat × Nat) : Prop :=
  b.kernelMap n ≠ 0 ∨ n ∈ b.guardPages.map vpn ∨ ∃ va, b.ramStart ≤ va ∧ va < b.ramEnd ∧ vpn va = n

end Board

end Ignium.Mmu

namespace Ignium.Kernel

open Mem Mmu

/-- The layout of `linker.ld` for a kernel of 32 pages, on a board with 4 MiB of memory. -/
def qemuBoard : Board where
  ramStart := 0x80000000
  ramEnd := 0x80400000
  kernelStart := 0x80200000
  textStart := 0x80200000
  rodataStart := 0x80210000
  dataStart := 0x80214000
  kernelEnd := 0x80220000
  stackGuard := 0x80220000
  trapStackBase := 0x80238000
  trapStackTop := 0x80258000
  idleStackBase := 0x80258000
  idleStackTop := 0x80278000
  uartBase := 0x10000000

/-- The pages of the kernel keep what `mapKernelRegion` sets up. -/
def Policy.resident (b : Board) : Policy :=
  ⟨b.Resident, b.kernelMap, fun _ => b.kernelMap_plain _, fun _ _ _ => True⟩

namespace State

variable {k : State} {b : Board} {range : Nat → Bool} {base count : Nat}

/-- In every address space the pages of the kernel translate as `mapKernelRegion` set them up: what
it mapped keeps its entry, which is not for user code, and the guard pages are not mapped. -/
structure Intact (b : Board) (k : State) : Prop where
  kept : ∀ pid root va, k.table.pidRoot pid = some root → b.Resident (vpn va) →
    leafPte k.mem root va = b.kernelMap (vpn va)
  plain : ∀ pid root va, k.table.pidRoot pid = some root → b.Resident (vpn va) →
    ¬ User (leafPte k.mem root va)
  guard : ∀ pid root va, k.table.pidRoot pid = some root → va ∈ b.guardPages →
    vpn va ≠ vpn b.uartBase → leafPte k.mem root va = 0

/-- An operation asks for no page of the kernel that the kernel leaves unmapped, and a grant
overwrites no slot that a live shared page records. -/
structure AvoidsHoles (b : Board) (k : State) (op : KernelOp) : Prop where
  mapped : ∀ va ∈ op.vaddrs, b.Resident (vpn va) → b.kernelMap (vpn va) ≠ 0
  recorded : KeepsRecorded k op

theorem permits_resident {op : KernelOp} (h : AvoidsHoles b k op) : Permits b (.resident b) k op where
  kernel _ := rfl
  mapped := h.mapped
  taken _ _ _ _ _ _ _ _ := trivial
  cleared _ _ _ := trivial
  loaded _ _ _ _ _ _ _ _ := trivial
  stored _ _ _ _ _ _ _ _ _ := trivial

/-- The pages of the kernel are the fixed pages of the discipline. -/
theorem intact_of_inOrder (h : InOrder range k.mem (k.ledger (.resident b))) : Intact b k := by
  obtain ⟨V, ⟨place, hsees⟩, hgood, -⟩ := h
  have hleaf : ∀ pid root va, k.table.pidRoot pid = some root → b.Resident (vpn va) →
      leafPte k.mem root va = b.kernelMap (vpn va) := by
    intro pid root va hroot hva
    rw [hsees.leaves (hgood.root hroot)]
    exact hgood.fixed hroot hva
  refine ⟨hleaf, fun pid root va hroot hva => ?_, fun pid root va hroot hva huart => ?_⟩
  · rw [hleaf pid root va hroot hva]
    exact b.kernelMap_plain _
  · rw [hleaf pid root va hroot (.inr (.inl (List.mem_map_of_mem hva)))]
    exact Board.kernelMap_guard hva huart

/-- In every run in which no operation asks for a hole in the kernel's part of the address space,
every address space keeps the kernel's part as it was created. -/
theorem always_intact (h : Fits b base count) (ram : Nat → Nat) (reserved : List (Nat × Nat))
    (ops : List KernelOp)
    (havoids : Machine.Each (step b) (boot (Usage.start ram base count reserved)) ops
      (AvoidsHoles b)) :
    Machine.Always (step b) (boot (Usage.start ram base count reserved)) ops (Intact b) := by
  have hboot : Orderly (.resident b) _ (boot (Usage.start ram base count reserved)) :=
    orderly_boot (h.sees ram reserved)
  have halways := Machine.always_of_each hboot (fun k op k' hinv hstep hcond =>
    hinv.step h.uart_out h.uartSmall (permits_resident hcond) hcond.recorded hstep) havoids
  intro first rest k hops hrun
  exact intact_of_inOrder (halways first rest k hops hrun).inOrder

set_option maxRecDepth 100000 in
/-- A process asks for its page to be mapped over the data of the kernel, which is refused, and then
at an address of its own. -/
theorem always_intact_qemu :
    Fits qemuBoard 0x80278000 32 ∧
      Machine.Always (step qemuBoard) (boot (Usage.start (fun _ => 0) 0x80278000 32 []))
        [.create, .grantPage 0 0, .memMap 0 0 0x80214000, .memMap 0 0 0x10000]
        (Intact qemuBoard) := by
  have hfits : Fits qemuBoard 0x80278000 32 := by
    refine ⟨⟨?_, ?_, ?_⟩, ?_, ?_⟩ <;> decide
  refine ⟨hfits, always_intact hfits _ _ _ ?_⟩
  have hdata : qemuBoard.kernelMap (vpn 0x80214000) ≠ 0 := by decide +kernel
  have hown : ¬ qemuBoard.Resident (vpn 0x10000) := by
    rintro (hmap | hguard | ⟨va, hlo, hhi, hva⟩)
    · exact hmap (by decide +kernel)
    · exact absurd hguard (by decide +kernel)
    · have hl2 : l2Index va = l2Index 0x10000 := congrArg Prod.fst hva
      change 0x80000000 ≤ va at hlo
      change va < 0x80400000 at hhi
      rw [l2Index_eq, l2Index_eq] at hl2
      omega
  have hops : ∀ op ∈ [KernelOp.create, .grantPage 0 0, .memMap 0 0 0x80214000, .memMap 0 0 0x10000],
      ∀ k, AvoidsHoles qemuBoard k op := by
    simp only [List.forall_mem_cons, List.not_mem_nil, false_imp_iff, implies_true, and_true]
    refine ⟨fun k => ⟨?_, fun hgrants => hgrants.elim⟩, fun k => ⟨?_, fun hgrants => hgrants.elim⟩,
      fun k => ⟨?_, fun hgrants => hgrants.elim⟩, fun k => ⟨?_, fun hgrants => hgrants.elim⟩⟩ <;>
      simp [KernelOp.vaddrs, hdata, hown]
  intro first op rest k k' hsplit hrun hstep
  exact hops op (by simp [hsplit]) k

set_option maxRecDepth 100000 in
/-- A process gets a page and has it mapped over the guard page of the boot stack. -/
theorem not_intact_guard :
    ¬ Machine.Always (step qemuBoard) (boot (Usage.start (fun _ => 0) 0x80278000 32 []))
      [.create, .grantPage 0 0, .memMap 0 0 0x80220000] (Intact qemuBoard) := by
  intro halways
  have heval : (Machine.run (step qemuBoard) (boot (Usage.start (fun _ => 0) 0x80278000 32 []))
      [.create, .grantPage 0 0, .memMap 0 0 0x80220000]).map (fun k =>
        (k.table.pidRoot 0).map fun root => decide (leafPte k.mem root 0x80220000 = 0)) =
      some (some false) := by decide +kernel
  obtain ⟨k, hrun, hk⟩ := Option.map_eq_some_iff.mp heval
  obtain ⟨root, hroot, hleaf⟩ := Option.map_eq_some_iff.mp hk
  have hguard : 0x80220000 ∈ qemuBoard.guardPages := .head _
  exact of_decide_eq_false hleaf ((halways _ [] k (List.append_nil _).symm hrun).guard 0 root _ hroot
    hguard (by decide))

end State

end Ignium.Kernel
