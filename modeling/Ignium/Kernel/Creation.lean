import Ignium.Kernel.Calls
import Ignium.Kernel.Slots
import Ignium.Mmu.KernelMap

/-!
# Creating a process when memory is short

`process::create` answers `Err` when the table is full and when there is no page for the root. The
tables below the root are made inside `map_kernel_region`, whose `expect` calls stop the kernel when
one of them cannot be had. How many there are depends on the board only (`Board.tables`), so that the
number of free pages decides what happens.
-/

namespace Ignium.Mmu

open Mem
open Usage (HasFree)

/-- Without a free page there is no root. With one, the root is complete or the kernel stops. -/
theorem Board.Layout.createUserRoot {b : Board} (h : b.Layout) {m : Usage} {n : Nat} (hsound : m.Sound)
    (hsmall : m.allocator.base + m.allocator.realCount * pageSize ≤ 2 ^ 56) (hfree : m.HasFree n) :
    if n = 0 then Mmu.createUserRoot b m = some (.error (), m)
    else if b.tables.card < n then
      ∃ root t, Mmu.createUserRoot b m = some (.ok root, t) ∧ KernelMapped b t root ∧ Tree t root
    else Mmu.createUserRoot b m = none := by
  cases n with
  | zero => rw [if_pos rfl, Mmu.createUserRoot, hsound.allocPages_zero hfree]
  | succ n =>
    rw [if_neg (Nat.succ_ne_zero n)]
    obtain ⟨root, t, halloc, htakes, hfree'⟩ := hsound.allocPages_succ hfree
    have hpage : t.HasPage root := (htakes.pages root).mpr (.inl rfl)
    have hsmall' : t.allocator.base + t.allocator.realCount * pageSize ≤ 2 ^ 56 := by
      rw [htakes.region.1, htakes.region.2.1]
      exact hsmall
    have hmap := h.mapKernelRegion htakes.zeroed.sound hsmall' hpage.taken
      (fun i hi => Usage.read_zeroPage_of_inPage (inPage_entry hi))
      ((htakes.sound.hasFree_zeroPage hpage).mpr hfree')
    split at hmap
    next hle =>
      obtain ⟨u, hu, hmapped, htree, -⟩ := hmap
      rw [if_pos (by omega)]
      refine ⟨root, u, ?_, hmapped, htree⟩
      simp only [Mmu.createUserRoot, halloc, hu, Option.map_some]
    next hle =>
      rw [if_neg (by omega)]
      simp only [Mmu.createUserRoot, halloc, hmap, Option.map_none]

end Ignium.Mmu

namespace Ignium.Kernel

open Mem Mmu

/-- `create` returns a process whose root has the mappings of the kernel, or an error that leaves the
pages that are held and the process table as they were. -/
def CreatesCleanly (b : Board) (k : State) : Prop :=
  ∃ result k', k.create b = some (result, k') ∧
    match result with
    | .ok pid => ∃ root, k'.table.pidRoot pid = some root ∧ KernelMapped b k'.mem root
    | .error _ => k'.table = k.table ∧ ∀ page, k'.mem.Taken page ↔ k.mem.Taken page

/-- The table is full, no page is free, or there is one for the root and for each of its tables. -/
def EnoughPages (b : Board) (k : State) (free : Nat) : Prop :=
  k.table.liveCount ≥ maxProcesses ∨ free = 0 ∨ b.tables.card < free

end Ignium.Kernel
