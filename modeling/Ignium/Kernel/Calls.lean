import Ignium.Kernel.Process
import Ignium.Lib.Registry
import Ignium.Mmu.PageTable

/-!
# Processes, shared pages, pages, services and devices

The system calls on capabilities and memory: `kernel/src/process.rs`, `shm.rs`, `pages.rs`,
`services.rs` and `device.rs`. A call runs to its end without interference, returns a value or the
code of an error, and has no result when the code panics. TLB shootdown has no part in the model.

A record of the two page registries is live while its id is its index: revoking it sets the id to
`usize::MAX` and queues the index for reuse.
-/

namespace Ignium.Kernel

open Mem Mmu

/-- Where a shared page is mapped in both processes. -/
def shmVa : Nat := 0x50000000

/-- The size of a shared page. -/
def shmLen : Nat := 4096

/-- The capacity of the registry of shared pages. -/
def maxShms : Nat := 16

/-- The capacity of the registry of pages. -/
def maxPages : Nat := 64

def maxServices : Nat := 8

def maxDevices : Nat := 8

/-- The flags of user mappings: valid, readable, writable, accessed and dirty. -/
def mapFlags : Nat := 0xC7

/-- A shared page: its physical page and the two processes that share it, each with the slot its
capability was written to. -/
structure SharedPage where
  id : Nat
  paddr : Nat
  first : Nat × Nat
  second : Nat × Nat
  deriving DecidableEq

/-- A page that a capability stands for: its physical page, its owner and the address at which
the owner has it mapped. -/
structure PageRecord where
  id : Nat
  paddr : Nat
  owner : Nat
  mapVa : Option Nat
  deriving DecidableEq

/-- A registered service. -/
structure ServiceEntry where
  id : Nat
  pid : Nat
  deriving DecidableEq

/-- The state of the kernel. -/
structure State where
  mem : Usage
  table : ProcessTable
  shm : Registry SharedPage
  pages : Registry PageRecord
  services : Fin maxServices → Option ServiceEntry
  devices : Fin maxDevices → Option (Nat × Nat)

/-- The kernel before the first process is created. -/
def boot (mem : Usage) : State where
  mem := mem
  table := ⟨[], []⟩
  shm := ⟨[], []⟩
  pages := ⟨[], []⟩
  services := fun _ => none
  devices := fun _ => none

namespace State

/-- Replace the memory. -/
def withMem (k : State) (mem : Usage) : State := { k with mem := mem }

/-! ## Shared pages -/

/-- The live record of a shared page. -/
def sharedPage (k : State) (id : Nat) : Option SharedPage := k.shm.get SharedPage.id id

/-- Take a shared page away from one of its owners. -/
def shmRelease (k : State) (owner : Nat × Nat) : Option State :=
  let unmapped : Option Usage :=
    match k.table.pidRoot owner.1 with
    | some root => (unmap4k k.mem root shmVa).discard
    | none => some k.mem
  unmapped.map fun m => { k with mem := m, table := (k.table.clearCap owner.1 owner.2).2 }

/-- Revoke a shared page: both owners lose the mapping and the slot of their capability. -/
def shmRevoke (k : State) (id : Nat) : Outcome State Unit Unit :=
  match k.sharedPage id with
  | none => some (.error (), k)
  | some sp =>
    let k := { k with shm := k.shm.retire id { sp with id := noId } }
    (k.shmRelease sp.first).bind fun k =>
      (k.shmRelease sp.second).bind fun k =>
        (k.mem.freePages sp.paddr).map fun r => (r.1, k.withMem r.2)

/-- The memory of a shared page: a cleared page, mapped in both address spaces. What was done is
undone when a step fails or the registry is `full`. -/
def mapShared (m : Usage) (rootA rootB : Nat) (full : Bool) : Outcome Usage Nat Nat :=
  match m.allocPagesZeroed 0 with
  | none => none
  | some (none, m) => some (.error sysErrEnomem, m)
  | some (some paddr, m) =>
    match mapUserPage m rootA shmVa paddr mapFlags with
    | none => none
    | some (.error _, m) => .failAfter (m.freePages paddr).discard sysErrEinval
    | some (.ok _, m) =>
      match mapUserPage m rootB shmVa paddr mapFlags with
      | none => none
      | some (.error _, m) =>
        let undone := (unmap4k m rootA shmVa).discard.bind fun m =>
          (m.freePages paddr).discard
        .failAfter undone sysErrEinval
      | some (.ok _, m) =>
        let undone := (unmap4k m rootA shmVa).discard.bind fun m =>
          (unmap4k m rootB shmVa).discard.bind fun m => (m.freePages paddr).discard
        if full then .failAfter undone sysErrEnomem else some (.ok paddr, m)

/-- Share a new page with the process that the capability in `aSlot` stands for. That capability
is overwritten by the one for the page, and so is whatever the other process has in `bSlot`. -/
def mmapShare (k : State) (caller aSlot bSlot len : Nat) : Outcome State Nat Nat :=
  if len ≠ shmLen then some (.error sysErrEinval, k)
  else
    match k.table.capTarget caller aSlot with
    | .error e => some (.error (capErrno e), k)
    | .ok (.shm _) => some (.error sysErrEinval, k)
    | .ok (.page _) => some (.error sysErrEinval, k)
    | .ok (.proc peer) =>
      if bSlot ≥ maxCaps then some (.error sysErrEinval, k)
      else
        match k.table.pidRoot peer, k.table.pidRoot caller with
        | none, _ => some (.error sysErrEacces, k)
        | some _, none => some (.error sysErrEacces, k)
        | some rootB, some rootA =>
          match mapShared k.mem rootA rootB (decide (k.shm.slots.length ≥ maxShms)) with
          | none => none
          | some (.error e, m) => some (.error e, k.withMem m)
          | some (.ok paddr, m) =>
            let (id, shm) := k.shm.enter fun id => ⟨id, paddr, (caller, aSlot), (peer, bSlot)⟩
            let k := { k with mem := m, shm := shm }
            match k.table.grantShmCap caller aSlot id with
            | (.error _, _) => .failAfter (k.shmRevoke id).discard sysErrEnomem
            | (.ok _, table) =>
              let k := { k with table := table }
              match k.table.grantShmCap peer bSlot id with
              | (.error _, _) => .failAfter (k.shmRevoke id).discard sysErrEnomem
              | (.ok _, table) => some (.ok id, { k with table := table })

/-! ## Pages -/

/-- The live record of a page. -/
def pageRecord (k : State) (id : Nat) : Option PageRecord := k.pages.get PageRecord.id id

/-- Allocate a page and register it for its owner. -/
def pagesAlloc (k : State) (owner : Nat) : Outcome State Nat Nat :=
  match k.mem.allocPages 0 with
  | none => none
  | some (none, m) => some (.error sysErrEnomem, k.withMem m)
  | some (some paddr, m) =>
    if k.pages.slots.length ≥ maxPages then
      .failAfter ((m.freePages paddr).discard.map k.withMem) sysErrEnomem
    else
      let (id, pages) := k.pages.enter fun id => ⟨id, paddr, owner, none⟩
      some (.ok id, { k with mem := m, pages := pages })

/-- The memory after a page is taken out of an address space, if it is mapped there. -/
def unmapFrom (k : State) (owner : Nat) (mapVa : Option Nat) : Option Usage :=
  match mapVa with
  | none => some k.mem
  | some va =>
    match k.table.pidRoot owner with
    | some root => (unmap4k k.mem root va).discard
    | none => some k.mem

/-- Revoke a page: its record dies, it is unmapped and released. -/
def pagesRevoke (k : State) (id : Nat) : Outcome State Unit Unit :=
  match k.pageRecord id with
  | none => some (.error (), k)
  | some rec =>
    let k := { k with pages := k.pages.retire id { rec with id := noId, mapVa := none } }
    (k.unmapFrom rec.owner rec.mapVa).bind fun m =>
      (m.freePages rec.paddr).map fun r => (r.1, k.withMem r.2)

/-- Hand a page to another owner, unmapping it from the old one. -/
def pagesGrant (k : State) (id toPid : Nat) : Outcome State Unit Unit :=
  match k.pageRecord id with
  | none => some (.error (), k)
  | some rec =>
    let k := { k with pages := k.pages.put id { rec with owner := toPid, mapVa := none } }
    (k.unmapFrom rec.owner rec.mapVa).map fun m => (.ok (), k.withMem m)

/-- Move a page capability to an empty slot of another process. -/
def memGrant (k : State) (caller srcSlot peerSlot dstSlot : Nat) : Outcome State Nat Unit :=
  match k.table.capTarget caller srcSlot with
  | .error e => some (.error (capErrno e), k)
  | .ok (.proc _) => some (.error (capErrno .wrongType), k)
  | .ok (.shm _) => some (.error (capErrno .wrongType), k)
  | .ok (.page id) =>
    match k.table.capTarget caller peerSlot with
    | .error e => some (.error (capErrno e), k)
    | .ok (.shm _) => some (.error (capErrno .wrongType), k)
    | .ok (.page _) => some (.error (capErrno .wrongType), k)
    | .ok (.proc peer) =>
      if k.table.pidRoot peer = none then some (.error sysErrEacces, k)
      else if dstSlot ≥ maxCaps then some (.error sysErrEinval, k)
      else
        match k.table.capTarget peer dstSlot with
        | .ok _ => some (.error sysErrEexist, k)
        | .error .invalidSlot => some (.error sysErrEinval, k)
        | .error _ =>
          match k.pagesGrant id peer with
          | none => none
          | some (.error _, k) => some (.error sysErrEnoent, k)
          | some (.ok _, k) =>
            match k.table.grantTypedCap peer dstSlot (.page id) with
            | (.error _, _) => .failAfter (k.pagesGrant id caller).discard sysErrEexist
            | (.ok _, table) =>
              some (.ok (), { k with table := (table.clearCap caller srcSlot).2 })

/-- Whether a page is mapped. -/
def pageIsMapped (k : State) (id : Nat) : Bool :=
  match k.pageRecord id with
  | some rec => rec.mapVa.isSome
  | none => false

/-- Record where a page is mapped. -/
def pagesMap (k : State) (id va : Nat) : Except Unit Unit × State :=
  match k.pageRecord id with
  | none => (.error (), k)
  | some rec =>
    if rec.mapVa.isSome then (.error (), k)
    else (.ok (), { k with pages := k.pages.put id { rec with mapVa := some va } })

/-- Map the page of a capability. -/
def memMap (k : State) (caller slot va : Nat) : Outcome State Nat Unit :=
  if va % pageSize ≠ 0 ∨ va ≥ userVaLimit then some (.error sysErrEinval, k)
  else
    match k.table.capTarget caller slot with
    | .error e => some (.error (capErrno e), k)
    | .ok (.proc _) => some (.error (capErrno .wrongType), k)
    | .ok (.shm _) => some (.error (capErrno .wrongType), k)
    | .ok (.page id) =>
      if k.pageIsMapped id then some (.error sysErrEexist, k)
      else
        match k.pageRecord id, k.table.pidRoot caller with
        | none, _ => some (.error sysErrEnoent, k)
        | some _, none => some (.error sysErrEacces, k)
        | some rec, some root =>
          match mapUserPage k.mem root va rec.paddr mapFlags with
          | none => none
          | some (.error _, m) => some (.error sysErrEinval, k.withMem m)
          | some (.ok _, m) =>
            match (k.withMem m).pagesMap id va with
            | (.error _, k) =>
              .failAfter ((unmap4k k.mem root va).discard.map k.withMem) sysErrEexist
            | (.ok _, k) => some (.ok (), k)

/-! ## Services -/

/-- Register a service, with the process table locked. -/
def registerLocked (k : State) (pid id : Nat) : Except Nat Unit × State :=
  if h : id = 0 ∨ id ≥ maxServices then (.error sysErrEinval, k)
  else
    let slot : Fin maxServices := ⟨id, by omega⟩
    match k.services slot with
    | some _ => (.error sysErrEexist, k)
    | none => (.ok (), { k with services := Function.update k.services slot (some ⟨id, pid⟩) })

/-- Register the calling process for a service. -/
def registerService (k : State) (pid id : Nat) : Except Nat Unit × State :=
  if (k.table.get pid).isNone then (.error sysErrEacces, k) else k.registerLocked pid id

/-- Drop the registrations of a process. -/
def unregisterAll (k : State) (pid : Nat) : State :=
  { k with services := fun slot => (k.services slot).filter fun entry => entry.pid ≠ pid }

/-- The process registered for a service. -/
def lookup (k : State) (id : Nat) : Option Nat :=
  if h : id < maxServices then
    ((k.services ⟨id, h⟩).filter fun entry => entry.id = id).map ServiceEntry.pid
  else none

/-- Give the calling process and a service the right to talk to each other. Whatever the two
slots held is overwritten. -/
def connect (k : State) (caller id clientSlot serverSlot : Nat) : Except Nat Unit × State :=
  match k.lookup id with
  | none => (.error sysErrEnoent, k)
  | some server =>
    if server = caller then (.error sysErrEacces, k)
    else if clientSlot ≥ maxCaps ∨ serverSlot ≥ maxCaps then (.error sysErrEinval, k)
    else
      match k.table.grantCap caller clientSlot server with
      | (.error e, _) => (.error (capErrno e), k)
      | (.ok _, table) =>
        match table.grantCap server serverSlot caller with
        | (.error e, _) =>
          (.error (capErrno e), { k with table := (table.clearCap caller clientSlot).2 })
        | (.ok _, table) => (.ok (), { k with table := table })

/-! ## Devices -/

/-- Map the page of a device. Device 0 is the UART, and there is no other. -/
def deviceMap (b : Board) (k : State) (caller devId va : Nat) : Outcome State Nat Unit :=
  if h : devId = 0 then
    let paddr := b.uartBase
    let slot : Fin maxDevices := ⟨devId, by rw [h]; decide⟩
    if va ≥ userVaLimit ∨ va % 4096 ≠ 0 ∨ paddr % 4096 ≠ 0 then some (.error sysErrEinval, k)
    else
      match k.table.pidRoot caller with
      | none => some (.error sysErrEacces, k)
      | some root =>
        match k.devices slot with
        | some (owner, ownerVa) =>
          if owner ≠ caller then some (.error sysErrEexist, k)
          else if ownerVa ≠ va then some (.error sysErrEinval, k)
          else some (.ok (), k)
        | none =>
          match mapDevicePage k.mem root va paddr mapFlags with
          | none => none
          | some (.error _, m) => some (.error sysErrEinval, k.withMem m)
          | some (.ok _, m) =>
            some (.ok (), { k with
              mem := m
              devices := Function.update k.devices slot (some (caller, va)) })
  else some (.error sysErrEinval, k)

/-- Drop the claims of a process. -/
def releaseAll (k : State) (pid : Nat) : State :=
  { k with devices := fun slot => (k.devices slot).filter fun claim => claim.1 ≠ pid }

/-! ## Processes -/

/-- Create a process. -/
def create (b : Board) (k : State) : Outcome State Unit Nat :=
  if k.table.liveCount ≥ maxProcesses then some (.error (), k)
  else
    match createUserRoot b k.mem with
    | none => none
    | some (.error _, m) => some (.error (), k.withMem m)
    | some (.ok root, m) =>
      let (pid, table) := k.table.enter root
      some (.ok pid, { k with mem := m, table := table })

/-- Copy a capability of a process to another of its slots. -/
def capDuplicate (k : State) (pid src dst : Nat) : Except CapError Unit × State :=
  let (result, table) := k.table.capDuplicate pid src dst
  (result, { k with table := table })

/-- Give up a capability. Giving up a shared page revokes it for both owners. -/
def capRevoke (k : State) (pid slot : Nat) : Outcome State CapError Unit :=
  if slot ≥ maxCaps then some (.error .invalidSlot, k)
  else
    match k.table.capTarget pid slot with
    | .error e => some (.error e, k)
    | .ok (.shm id) =>
      match k.shmRevoke id with
      | none => none
      | some (.error _, k) => some (.error .shmNotFound, k)
      | some (.ok _, k) => some (.ok (), k)
    | .ok (.proc _) =>
      let (result, table) := k.table.clearCap pid slot
      some (result, { k with table := table })
    | .ok (.page id) =>
      match k.pagesRevoke id with
      | none => none
      | some (.error _, k) => some (.error .pageNotFound, k)
      | some (.ok _, k) =>
        let (result, table) := k.table.clearCap pid slot
        some (result, { k with table := table })

/-- The shared pages a process has capabilities for, in the order of its slots. -/
def shmIds (p : Process) : List Nat :=
  (List.finRange maxCaps).filterMap fun slot =>
    match p.caps slot with
    | some (.shm id) => some id
    | _ => none

/-- The pages a process has capabilities for, in the order of its slots. -/
def pageIds (p : Process) : List Nat :=
  (List.finRange maxCaps).filterMap fun slot =>
    match p.caps slot with
    | some (.page id) => some id
    | _ => none

/-- Revoke the shared pages and the pages of a process. -/
def revokeAll (k : State) (p : Process) : Option State :=
  ((shmIds p).foldlM (fun (k : State) id => (k.shmRevoke id).discard) k).bind fun k =>
    (pageIds p).foldlM (fun (k : State) id => (k.pagesRevoke id).discard) k

/-- Destroy a process. The capabilities that other processes have to it stay. -/
def destroy (k : State) (pid : Nat) : Option State :=
  match k.table.get pid with
  | none => some k
  | some p =>
    (k.revokeAll p).bind fun k =>
      match k.table.retire pid with
      | none => some k
      | some (root, table) =>
        let k := ({ k with table := table }.releaseAll pid).unregisterAll pid
        (destroyRoot k.mem root).map k.withMem

end State

end Ignium.Kernel
