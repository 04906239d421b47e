import Mathlib.Data.Fintype.Pi
import Mathlib.Logic.Function.Basic

/-!
# The process table and its capability slots

The table of `kernel/src/process.rs`: a process is a slot of the table, a destroyed process
keeps its slot with the id `usize::MAX` until `create` takes the slot again, and every process
has a fixed array of capability slots. The functions here are the sections under the table lock
that the rest of the kernel is built from.
-/

namespace Ignium.Kernel

/-- The largest number of live processes. -/
def maxProcesses : Nat := 32

/-- The number of capability slots of a process. -/
def maxCaps : Nat := 8

/-- `usize::MAX`, the id of a destroyed process. -/
def noId : Nat := 2 ^ 64 - 1

/-- A capability: the right to talk to a process, a share of a shared page, or a page. -/
inductive Cap where
  | proc (pid : Nat)
  | shm (id : Nat)
  | page (id : Nat)
  deriving DecidableEq, Repr

/-- The slots of one process. -/
abbrev Caps := Fin maxCaps → Option Cap

/-- A process: its id, which is its index in the table while it lives, its root page table and
its capability slots. -/
structure Process where
  id : Nat
  root : Nat
  caps : Caps
  deriving DecidableEq

/-- The process table: the slots, and the slots of destroyed processes in the order in which
`create` takes them again. -/
structure ProcessTable where
  slots : List Process
  free : List Nat
  deriving DecidableEq

/-! ## Error codes -/

/-- The ways a capability operation fails. -/
inductive CapError where
  | invalidSlot
  | notFound
  | wrongType
  | shmNotFound
  | pageNotFound
  deriving DecidableEq, Repr

/-! The codes are small negative numbers in two's complement. -/

def sysErrEinval : Nat := 2 ^ 64 - 1
def sysErrEacces : Nat := 2 ^ 64 - 1 - 1
def sysErrEnoent : Nat := 2 ^ 64 - 1 - 2
def sysErrEnomem : Nat := 2 ^ 64 - 1 - 3
def sysErrEexist : Nat := 2 ^ 64 - 1 - 6

/-- The code a system call returns for an error. -/
def capErrno : CapError → Nat
  | .invalidSlot => sysErrEinval
  | .wrongType => sysErrEinval
  | .notFound => sysErrEacces
  | .shmNotFound => sysErrEnoent
  | .pageNotFound => sysErrEnoent

/-- No error code is the code of success. -/
theorem capErrno_ne_zero (e : CapError) : capErrno e ≠ 0 := by
  cases e <;> decide

namespace ProcessTable

/-- The live process with an id. -/
def get (t : ProcessTable) (pid : Nat) : Option Process :=
  t.slots[pid]?.filter fun p => p.id = pid

/-- Overwrite the capability slots of a process. -/
def setCaps (t : ProcessTable) (pid : Nat) (p : Process) (caps : Caps) : ProcessTable :=
  { t with slots := t.slots.set pid { p with caps := caps } }

/-- Write a capability into a slot. -/
def grantTypedCap (t : ProcessTable) (pid slot : Nat) (cap : Cap) :
    Except CapError Unit × ProcessTable :=
  if h : slot < maxCaps then
    match t.get pid with
    | some p => (.ok (), t.setCaps pid p (Function.update p.caps ⟨slot, h⟩ (some cap)))
    | none => (.error .notFound, t)
  else (.error .invalidSlot, t)

/-- Give a process the right to talk to another one. -/
def grantCap (t : ProcessTable) (pid slot target : Nat) : Except CapError Unit × ProcessTable :=
  t.grantTypedCap pid slot (.proc target)

/-- Give a process a share of a shared page. -/
def grantShmCap (t : ProcessTable) (pid slot id : Nat) : Except CapError Unit × ProcessTable :=
  t.grantTypedCap pid slot (.shm id)

/-- The capability in a slot. -/
def capTarget (t : ProcessTable) (pid slot : Nat) : Except CapError Cap :=
  if h : slot < maxCaps then
    match t.get pid with
    | some p =>
      match p.caps ⟨slot, h⟩ with
      | some cap => .ok cap
      | none => .error .notFound
    | none => .error .notFound
  else .error .invalidSlot

/-- Copy a capability to another slot of the same process. A page has one owner and one slot, so
its capability is not copied. -/
def capDuplicate (t : ProcessTable) (pid src dst : Nat) : Except CapError Unit × ProcessTable :=
  if h : src < maxCaps ∧ dst < maxCaps then
    match t.get pid with
    | some p =>
      match p.caps ⟨src, h.1⟩ with
      | some (.page _) => (.error .wrongType, t)
      | some cap => (.ok (), t.setCaps pid p (Function.update p.caps ⟨dst, h.2⟩ (some cap)))
      | none => (.error .notFound, t)
    | none => (.error .notFound, t)
  else (.error .invalidSlot, t)

/-- Empty a slot. -/
def clearCap (t : ProcessTable) (pid slot : Nat) : Except CapError Unit × ProcessTable :=
  if h : slot < maxCaps then
    match t.get pid with
    | some p => (.ok (), t.setCaps pid p (Function.update p.caps ⟨slot, h⟩ none))
    | none => (.error .notFound, t)
  else (.error .invalidSlot, t)

/-- The root page table of a live process. -/
def pidRoot (t : ProcessTable) (pid : Nat) : Option Nat := (t.get pid).map Process.root

/-- The number of live processes, as `create` counts it. -/
def liveCount (t : ProcessTable) : Nat := t.slots.length - t.free.length

/-- Enter a new process with an empty capability table: in the slot that has been free for
longest, or in a new one. -/
def enter (t : ProcessTable) (root : Nat) : Nat × ProcessTable :=
  match t.free with
  | idx :: rest => (idx, ⟨t.slots.set idx ⟨idx, root, fun _ => none⟩, rest⟩)
  | [] => (t.slots.length, ⟨t.slots ++ [⟨t.slots.length, root, fun _ => none⟩], []⟩)

/-- Take a process out of the table and queue its slot for reuse. -/
def retire (t : ProcessTable) (pid : Nat) : Option (Nat × ProcessTable) :=
  (t.get pid).map fun p => (p.root, ⟨t.slots.set pid ⟨noId, p.root, fun _ => none⟩, t.free ++ [pid]⟩)

end ProcessTable

end Ignium.Kernel
