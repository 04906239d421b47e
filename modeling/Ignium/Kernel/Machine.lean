import Ignium.Kernel.Calls
import Ignium.Kernel.Loader
import Ignium.Lib.Machine

/-!
# The kernel as a machine

The operations that processes and the boot code perform on the kernel, each run to its end, with
arbitrary arguments. A step drops what the call returns to the caller. A call that panics has no
next state.
-/

namespace Ignium.Kernel

open Mem Mmu

/-- What happens to the kernel: processes come and go, boot code hands out capabilities and pages,
programs are loaded, system calls are made, and user code writes to its memory. -/
inductive KernelOp where
  | create
  | destroy (pid : Nat)
  | grantCap (pid slot target : Nat)
  | grantPage (pid slot : Nat)
  | load (pid : Nat) (info : ElfInfo) (args : List (List UInt8))
  | shmMap (caller aSlot bSlot len : Nat)
  | capRevoke (caller slot : Nat)
  | capDup (caller src dst : Nat)
  | serviceRegister (caller id : Nat)
  | serviceConnect (caller id clientSlot serverSlot : Nat)
  | mapDevice (caller devId va : Nat)
  | memGrant (caller srcSlot peerSlot dstSlot : Nat)
  | memMap (caller slot va : Nat)
  | store (pid va value : Nat)
  deriving DecidableEq

namespace State

/-- Allocate a page for a process and put its capability into a slot, which boot code does for
slots that are empty. -/
def grantPage (k : State) (pid slot : Nat) : Option State :=
  if slot < maxCaps ∧ (k.table.get pid).isSome ∧ k.table.capTarget pid slot = .error .notFound then
    (k.pagesAlloc pid).map fun r =>
      match r with
      | (.error _, k) => k
      | (.ok id, k) => { k with table := (k.table.grantTypedCap pid slot (.page id)).2 }
  else some k

/-- Load a program into a process. -/
def load (k : State) (pid : Nat) (info : ElfInfo) (args : List (List UInt8)) :
    Outcome State ElfError LoadedElf :=
  match k.table.pidRoot pid with
  | none => some (.error .badProcess, k)
  | some root => (loadInto k.mem root info args).map fun r => (r.1, k.withMem r.2)

/-- User code writes a word: it takes effect where the address is mapped writable for user code in
a page of the allocator. -/
def store (k : State) (pid va value : Nat) : State :=
  match k.table.pidRoot pid with
  | none => k
  | some root =>
    let entry := leafPte k.mem root va
    if User entry ∧ entry &&& pteW ≠ 0 ∧ k.mem.pageInRange (ptePaddr entry) then
      k.withMem (k.mem.write (ptePaddr entry + va % pageSize) value)
    else k

/-- One operation. -/
def step (b : Board) (k : State) : KernelOp → Option State
  | .create => (k.create b).discard
  | .destroy pid => k.destroy pid
  | .grantCap pid slot target => some { k with table := (k.table.grantCap pid slot target).2 }
  | .grantPage pid slot => k.grantPage pid slot
  | .load pid info args => (k.load pid info args).discard
  | .shmMap caller aSlot bSlot len => (k.mmapShare caller aSlot bSlot len).discard
  | .capRevoke caller slot => (k.capRevoke caller slot).discard
  | .capDup caller src dst => some (k.capDuplicate caller src dst).2
  | .serviceRegister caller id => some (k.registerService caller id).2
  | .serviceConnect caller id clientSlot serverSlot =>
    some (k.connect caller id clientSlot serverSlot).2
  | .mapDevice caller devId va => (k.deviceMap b caller devId va).discard
  | .memGrant caller srcSlot peerSlot dstSlot =>
    (k.memGrant caller srcSlot peerSlot dstSlot).discard
  | .memMap caller slot va => (k.memMap caller slot va).discard
  | .store pid va value => some (k.store pid va value)

end State

/-- A board with 4 MiB of memory and a kernel image that needs no small pages. Runs on it are
short enough to evaluate. -/
def smallBoard : Board where
  ramStart := 0x80000000
  ramEnd := 0x80400000
  kernelStart := 0x80200000
  textStart := 0x80200000
  rodataStart := 0x80200000
  dataStart := 0x80200000
  kernelEnd := 0x80200000
  stackGuard := 0x40000000
  trapStackBase := 0
  trapStackTop := 0
  idleStackBase := 0
  idleStackTop := 0
  uartBase := 0x10000000

/-- The allocator of the small board: 32 pages, all free. -/
def smallMem : Usage := Usage.start (fun _ => 0) 0x80300000 32 []

end Ignium.Kernel
