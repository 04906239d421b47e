import Ignium.Sched.Thread
import Mathlib.Data.List.FinRange
import Mathlib.Logic.Function.Basic

/-!
# The scheduler

The sections of `kernel/src/sched.rs` that run under the scheduler lock, as functions on the
state. Each hart has a current thread, an idle thread and one ready queue per priority; a thread
is queued at the hart of its affinity. What a section returns besides the state is what the caller
acts on once the lock is free: the thread to switch to, or the frame to resume from.

The register and root-table switch after a section, the interrupts that tell another hart about
new work, and the statistics are left out, and so are the assertions of debug builds. Entries of
`thread` at `len` and beyond are not part of the table.
-/

namespace Ignium.Sched

open Ipc

/-- A blocked thread lends its priority to the threads of the process that it waits for. -/
structure Donation where
  donorTid : Nat
  peerProc : Nat
  prio : Prio
  deriving DecidableEq, Repr

/-- The size of the donation table. -/
def maxDonations : Nat := maxThreads

/-- The scheduler, with the kill requests of the threads. -/
structure Scheduler where
  len : Nat
  thread : Nat → Thread
  ready : Hart → Prio → List Nat
  donations : List Donation
  current : Hart → Nat
  idle : Hart → Nat
  ticksRun : Hart → Nat
  freeSlots : List Nat
  reaper : List Nat
  killRequest : Nat → Bool

/-- A switch to be made once the lock is free. -/
structure SwitchTarget where
  old : Nat
  new : Nat
  useFrame : Bool
  nextRoot : Nat
  deriving DecidableEq, Repr

namespace Scheduler

variable (s : Scheduler)

/-- The thread is the idle thread of some hart. -/
def Idle (id : Nat) : Prop := ∃ h, s.idle h = id

instance (id : Nat) : Decidable (s.Idle id) := inferInstanceAs (Decidable (∃ h, s.idle h = id))

/-- Change one thread. -/
def modify (id : Nat) (f : Thread → Thread) : Scheduler :=
  { s with thread := Function.update s.thread id (f (s.thread id)) }

/-- Change one ready queue. -/
def setReady (h : Hart) (l : Prio) (q : List Nat) : Scheduler :=
  { s with ready := Function.update s.ready h (Function.update (s.ready h) l q) }

/-- Change the current thread of a hart. -/
def setCurrent (h : Hart) (id : Nat) : Scheduler :=
  { s with current := Function.update s.current h id }

/-- Start a new time slice on a hart. -/
def resetTicks (h : Hart) : Scheduler :=
  { s with ticksRun := Function.update s.ticksRun h 0 }

/-! ## Queues -/

/-- A ready thread can be resumed: for a cooperative switch from its context or its frame, for a
preemption from its frame or from a context that a wake-up allows to expand. -/
def resumable (needCtx : Bool) (id : Nat) : Bool :=
  let t := s.thread id
  if needCtx then t.ctxValid || t.frameValid else t.frameValid || (t.ctxValid && t.woken)

/-- One round over a queue. Threads that are not ready are dropped, and ready threads that cannot
be resumed this way go to the back. -/
def scan (needCtx : Bool) : Nat → List Nat → Option Nat × List Nat
  | 0, q => (none, q)
  | _ + 1, [] => (none, [])
  | n + 1, id :: q =>
    if (s.thread id).state ≠ .ready then scan needCtx n q
    else if s.resumable needCtx id then (some id, q)
    else scan needCtx n (q ++ [id])

/-- The search over the levels of a hart. The thread found is marked as running. -/
def pickLevels (h : Hart) (needCtx : Bool) : List Prio → Scheduler → Option Nat × Scheduler
  | [], s => (none, s)
  | l :: rest, s =>
    match s.scan needCtx (s.ready h l).length (s.ready h l) with
    | (some id, q) =>
      (some id, (s.setReady h l q).modify id fun t => { t with state := .running })
    | (none, q) => pickLevels h needCtx rest (s.setReady h l q)

/-- The next thread of a hart. Without a candidate the current thread goes on if it is running,
and the idle thread runs otherwise. -/
def pickNext (h : Hart) (needCtx : Bool) : Nat × Scheduler :=
  match pickLevels h needCtx (List.finRange prioLevels) s with
  | (some id, s) => (id, s)
  | (none, s) =>
    (if (s.thread (s.current h)).state ≠ .running then s.idle h else s.current h, s)

/-- The priority of a thread with what is donated to its process. -/
def effPrio (id : Nat) : Prio :=
  match (s.thread id).proc with
  | none => (s.thread id).prio
  | some proc =>
    s.donations.foldl (fun p d => if d.peerProc = proc ∧ d.prio < p then d.prio else p)
      (s.thread id).prio

/-- Put a thread at the back of the queue of its hart and priority. -/
def enqueue (id : Nat) : Scheduler :=
  let h := (s.thread id).hart
  let l := s.effPrio id
  (s.setReady h l (s.ready h l ++ [id])).modify id fun t => { t with state := .ready }

/-- All queues in a row. -/
def queues : List Nat :=
  (List.finRange maxHarts).flatMap fun h => (List.finRange prioLevels).flatMap fun l => s.ready h l

/-- Queue the ready threads of a process anew, at their present priorities. -/
def requeueProcThreads (proc : Nat) : Scheduler :=
  let taken := (s.queues.filter fun id => (s.thread id).proc = some proc).take maxThreads
  let rest : Scheduler :=
    { s with ready := fun h l => (s.ready h l).filter fun id => (s.thread id).proc ≠ some proc }
  taken.foldl enqueue rest

/-- Take a thread out of the queues of its hart. -/
def removeFromReady (id : Nat) : Scheduler :=
  let h := (s.thread id).hart
  match (List.finRange prioLevels).find? fun l => id ∈ s.ready h l with
  | some l => s.setReady h l ((s.ready h l).erase id)
  | none => s

/-! ## Donations -/

/-- Enter or replace the donation of a thread, and queue the threads of the peer process anew. -/
def registerDonation (donorTid peerProc : Nat) : Scheduler :=
  let donation : Donation := ⟨donorTid, peerProc, s.effPrio donorTid⟩
  let donations :=
    match s.donations.findIdx? fun d => d.donorTid = donorTid with
    | some i => s.donations.set i donation
    | none => if s.donations.length < maxDonations then s.donations ++ [donation] else s.donations
  { s with donations := donations }.requeueProcThreads peerProc

/-- Drop donations, and return which threads or processes they concerned. -/
def dropDonations (p : Donation → Bool) (key : Donation → Nat) : List Nat × Scheduler :=
  (((s.donations.filter p).map key).eraseDups.take maxThreads,
    { s with donations := s.donations.filter fun d => !p d })

/-- Drop what a thread donates. -/
def revokeDonations (donorTid : Nat) : Scheduler :=
  let (affected, s) := s.dropDonations (fun d => d.donorTid = donorTid) Donation.peerProc
  affected.foldl requeueProcThreads s

/-- Drop what some threads donate. The process they belong to is not queued anew. -/
def revokeDonationsOf (tids : List Nat) (skipProc : Option Nat) : Scheduler :=
  let (affected, s) := s.dropDonations (fun d => d.donorTid ∈ tids) Donation.peerProc
  affected.foldl (fun s proc => if some proc ≠ skipProc then s.requeueProcThreads proc else s) s

/-- Drop what is donated to a process. -/
def revokeDonationsForProc (proc : Nat) : Scheduler :=
  let (affected, s) := s.dropDonations (fun d => d.peerProc = proc) Donation.donorTid
  affected.foldl (fun s tid =>
    match (s.thread tid).proc with
    | some p => if p ≠ proc then s.requeueProcThreads p else s
    | none => s) s

/-- The section of `donate_on_block`. A thread id beyond the table stops the kernel. -/
def donateOnBlock (donorTid peerProc : Nat) : Option Scheduler :=
  if donorTid < s.len then some (s.registerDonation donorTid peerProc) else none

/-! ## Preemption -/

/-- A queued thread may preempt. -/
def preemptable (id : Nat) : Bool :=
  decide ((s.thread id).state = .ready) && s.resumable false id

/-- Some level of a hart below `bound` has a thread that may preempt the current one. -/
def hasOther (h : Hart) (bound : Nat) : Bool :=
  (List.finRange prioLevels).any fun l =>
    decide (l.val < bound) &&
      (s.ready h l).any fun id => decide (id ≠ s.current h) && s.preemptable id

/-- Turn the context of a thread into a frame, which uses its wake-up. -/
def expandCtxToFrame (b : Boot) (id : Nat) : Scheduler :=
  s.modify id fun t =>
    { t with frame := t.ctx.toFrame b, frameValid := true, ctxValid := false, woken := false }

/-- Make a thread current and ready to be resumed from its frame. -/
def resumeFrame (b : Boot) (h : Hart) (next : Nat) : Scheduler :=
  let s := s.setCurrent h next
  if (s.thread next).frameValid then s else s.expandCtxToFrame b next

/-- The part of `on_tick` that looks for a thread to preempt the current one. -/
def preempt (b : Boot) (frame : TrapFrame) (h : Hart) : Option Nat × Scheduler :=
  let s := s.resetTicks h
  if s.hasOther h prioLevels then
    let cur := s.current h
    let s := (s.modify cur fun t =>
      { t with frame := frame, frameValid := true, ctxValid := false, state := .ready }).enqueue cur
    let (next, s) := s.pickNext h false
    if next = cur then
      (none, (s.removeFromReady cur).modify cur fun t =>
        { t with state := .running, frameValid := true, ctxValid := false })
    else (some next, s.resumeFrame b h next)
  else (none, s)

/-- The timer interrupt. The result is the thread whose frame is resumed, or `none` for the
interrupted frame. -/
def onTick (b : Boot) (frame : TrapFrame) (h : Hart) : Option Nat × Scheduler :=
  let s := { s with ticksRun := Function.update s.ticksRun h ((s.ticksRun h + 1) % 2 ^ 64) }
  if s.ticksRun h < sliceTicks then
    -- within the slice only a higher priority preempts
    if s.hasOther h (s.effPrio (s.current h)).val then s.preempt b frame h else (none, s)
  else s.preempt b frame h

/-! ## Exits -/

/-- Hand the stack of a thread over and mark the thread as exited. -/
def retire (id : Nat) (f : Thread → Thread) : Scheduler :=
  { s.modify id fun t => { f t with state := .exited, stack := none } with
    reaper := s.reaper ++ (s.thread id).stack.toList
    freeSlots := s.freeSlots ++ [id] }

/-- The kill interrupt. -/
def forceKillCurrent (b : Boot) (h : Hart) : Option Nat × Scheduler :=
  let cur := s.current h
  if s.killRequest cur then
    let s := s.retire cur fun t => { t with frameValid := false, ctxValid := false, woken := false }
    let s := { s with killRequest := Function.update s.killRequest cur false }.resetTicks h
    let (next, s) := s.pickNext h false
    (some next, s.resumeFrame b h next)
  else (none, s)

/-- What the caller switches to. -/
def switchTarget (old new : Nat) : SwitchTarget :=
  ⟨old, new, !(s.thread new).ctxValid, (s.thread new).root⟩

/-- Pick the next thread of a hart and make it current. -/
def dispatch (h : Hart) : SwitchTarget × Scheduler :=
  let cur := s.current h
  let (next, s) := (s.resetTicks h).pickNext h true
  let s := s.setCurrent h next
  (s.switchTarget cur next, s)

/-- The section of `exit`. -/
def exit (h : Hart) : SwitchTarget × Scheduler :=
  (s.retire (s.current h) fun t => { t with frameValid := false, ctxValid := true }).dispatch h

/-- The section of `exit_from_trap`. -/
def exitFromTrap (h : Hart) : SwitchTarget × Scheduler :=
  (s.retire (s.current h) fun t => { t with frameValid := false, ctxValid := true }).dispatch h

/-- What `kill_process` does to one thread of the process. A thread that runs on another hart gets
a kill request; the others exit. -/
def killThread (id : Nat) : Scheduler :=
  if (s.thread id).state = .running then
    { s with killRequest := Function.update s.killRequest id true }
  else s.retire id fun t => { t with frameValid := false, ctxValid := false }

/-- The threads of a process, without the current one of the hart. -/
def victims (h : Hart) (pid : Nat) : List Nat :=
  (List.range s.len).filter fun id => (s.thread id).proc = some pid ∧ id ≠ s.current h

/-- The section of `kill_process`: whether the caller must exit, the threads to be killed on other
harts, and the state. -/
def killProcess (h : Hart) (pid : Nat) : Bool × List (Nat × Hart) × Scheduler :=
  let cur := s.current h
  let victims := s.victims h pid
  let force := (victims.filter fun id => (s.thread id).state = .running).map fun id =>
    (id, (s.thread id).hart)
  let queued : Scheduler := { s with ready := fun h l => (s.ready h l).filter (· ∉ victims) }
  let killed := victims.foldl killThread queued
  (decide ((s.thread cur).proc = some pid), force,
    (killed.revokeDonationsForProc pid).revokeDonationsOf (victims ++ [cur]) (some pid))

/-! ## New threads -/

/-- The slot of a new thread: the oldest free one, or a new one while the table has room. -/
def takeSlot : Option (Nat × Scheduler) :=
  match s.freeSlots with
  | id :: rest => some (id, { s with freeSlots := rest })
  | [] => if s.len < maxThreads then some (s.len, s) else none

/-- Put a new thread into its slot. A kill request for an earlier owner is void. -/
def seat (id : Nat) (t : Thread) : Scheduler :=
  { s with
    len := max s.len (id + 1)
    thread := Function.update s.thread id t
    killRequest := Function.update s.killRequest id false }

/-- Put a new thread into its slot and queue it. -/
def place (id : Nat) (t : Thread) : Scheduler := (s.seat id t).enqueue id

/-- A new kernel thread, with the stack that the heap gave. -/
def spawn (b : Boot) (h : Hart) (entry prio stack : Nat) : Option (Nat × Scheduler) :=
  s.takeSlot.map fun (id, s) => (id, s.place id (.kernel b h entry prio stack))

/-- A new user thread in the address space `root` of its process. -/
def spawnUser (b : Boot) (h : Hart) (proc root entryPc stackTop prio argc argv : Nat) :
    Option (Nat × Scheduler) :=
  s.takeSlot.map fun (id, s) =>
    (id, s.place id (.user b h proc root entryPc stackTop prio argc argv))

/-- A new kernel thread that belongs to a process. -/
def spawnOwned (b : Boot) (h : Hart) (entry prio proc stack : Nat) : Option (Nat × Scheduler) :=
  (s.spawn b h entry prio stack).map fun (id, s) =>
    let s := s.modify id fun t => { t with proc := some proc }
    (id, if s.donations.any fun d => d.peerProc = proc then s.requeueProcThreads proc else s)

/-! ## Switches -/

/-- The section of `yield_`. -/
def yield (h : Hart) : SwitchTarget × Scheduler :=
  let cur := s.current h
  let s := s.modify cur fun t => { t with frameValid := false, ctxValid := true }
  ({ s with reaper := [] }.enqueue cur).dispatch h

/-- The first section of `block_current`. A wake-up that came first is used up, and the thread
goes on. -/
def blockCurrent (h : Hart) : Option SwitchTarget × Scheduler :=
  let cur := s.current h
  let t := s.thread cur
  if t.ipcWake.isSome then
    (none, (s.modify cur fun t => { t with ipcWake := none, state := .running }).revokeDonations cur)
  else if t.state = .ready then
    (none, (s.removeFromReady cur).modify cur fun t => { t with state := .running, woken := false })
  else if t.woken then
    (none, s.modify cur fun t => { t with woken := false, state := .running })
  else
    let (target, s) := (s.modify cur fun t =>
      { t with state := .blocked, frameValid := false, ctxValid := true }).dispatch h
    (some target, s)

/-- The second section of `block_current`, after the switch back. -/
def blockResumed (h : Hart) : Scheduler :=
  let cur := s.current h
  (s.removeFromReady cur).modify cur fun t => { t with woken := false }

/-- What `block_user_from_trap` does to its caller: the call returns with this frame, or there is
a switch to make. -/
inductive Blocked where
  | returned (frame : TrapFrame)
  | switched (target : SwitchTarget)
  deriving DecidableEq, Repr

/-- The section of `block_user_from_trap`. -/
def blockUserFromTrap (h : Hart) (frame : TrapFrame) : Blocked × Scheduler :=
  let cur := s.current h
  let clear := (s.modify cur fun t =>
    { t with ipcWake := none, state := .running }).revokeDonations cur
  match (s.thread cur).ipcWake with
  | some (.msg words) =>
    (.returned (((frame.put xA0 0).putAll xA1 words).skipEcall), clear)
  | some (.err code) => (.returned ((frame.put xA0 code).skipEcall), clear)
  | none =>
    let (target, s) := (s.modify cur fun t =>
      { t with
        frame := frame
        frameValid := true
        ctxValid := false
        woken := false
        state := .blocked }).dispatch h
    (.switched target, s)

/-- The section of `wake`. -/
def wake (id : Nat) : Scheduler :=
  if id < s.len then
    let s := s.modify id fun t => { t with woken := true }
    if (s.thread id).state = .blocked then s.enqueue id else s
  else s

/-- The section of `ipc_wake_with_msg`. A thread that has not blocked finds the result when it is
about to block. A thread id beyond the table stops the kernel. -/
def ipcWakeWithMsg (tid : Nat) (msg : Option Message) : Option Scheduler :=
  if tid < s.len then
    if (s.thread tid).state ≠ .blocked then
      let buf := msg.getD (.replicate msgWords 0)
      some (s.modify tid fun t => { t with ipcMsg := some buf, ipcWake := some (.msg buf) })
    else
      let s := s.modify tid fun t =>
        let frame := t.frame.put xA0 0
        let frame := match msg with
          | some words => frame.putAll xA1 words
          | none => frame
        { t with frame := frame.skipEcall, ipcMsg := msg, ipcWake := none }
      some ((s.enqueue tid).revokeDonations tid)
  else none

/-- The section of `ipc_wake_with_err`. -/
def ipcWakeWithErr (tid code : Nat) : Option Scheduler :=
  if tid < s.len then
    let buf : Message := .replicate msgWords code
    if (s.thread tid).state ≠ .blocked then
      some (s.modify tid fun t => { t with ipcMsg := some buf, ipcWake := some (.err code) })
    else
      let s := s.modify tid fun t =>
        { t with
          frame := (t.frame.put xA0 code).skipEcall
          ipcMsg := some buf
          ipcWake := none }
      some ((s.enqueue tid).revokeDonations tid)
  else none

/-- Move a thread to another hart. Only threads that are ready or blocked can move. -/
def setAffinity (id hart : Nat) : Option Scheduler :=
  let h := clampHart hart
  if id < s.len then
    match (s.thread id).state with
    | .ready =>
      if (s.thread id).hart ≠ h then
        some (((s.removeFromReady id).modify id fun t => { t with hart := h }).enqueue id)
      else some s
    | .blocked => some (s.modify id fun t => { t with hart := h })
    | _ => none
  else none

/-- One round of the idle loop of a secondary hart. -/
def secondaryIdle (h : Hart) : Option SwitchTarget × Scheduler :=
  let cur := s.current h
  let (next, s) := (s.resetTicks h).pickNext h true
  if next = cur then (none, s)
  else
    let s := s.setCurrent h next
    (some (s.switchTarget cur next), s)

/-- The start of a kernel thread uses its first frame up. -/
def threadEntry (h : Hart) : Scheduler :=
  s.modify (s.current h) fun t => { t with frameValid := false }

/-- The section of `take_ipc_msg`. -/
def takeIpcMsg (h : Hart) : Option Message × Scheduler :=
  ((s.thread (s.current h)).ipcMsg, s.modify (s.current h) fun t => { t with ipcMsg := none })

/-- Free the stacks of exited threads. -/
def drainReaper : Scheduler := { s with reaper := [] }

/-! ## Runs -/

/-- The scheduler after `init`: every hart runs its idle thread. -/
def init (b : Boot) (stackOf : Hart → Nat) : Scheduler where
  len := maxHarts
  thread id := .idle b (clampHart id) (stackOf (clampHart id))
  ready _ _ := []
  donations := []
  current h := h
  idle h := h
  ticksRun _ := 0
  freeSlots := []
  reaper := []
  killRequest _ := false

end Scheduler

/-- The sections, with the hart that runs them and their arguments. -/
inductive SchedOp where
  | spawn (h : Hart) (entry prio stack : Nat)
  | spawnUser (h : Hart) (proc root entryPc stackTop prio argc argv : Nat)
  | spawnOwned (h : Hart) (entry prio proc stack : Nat)
  | exit (h : Hart)
  | exitFromTrap (h : Hart)
  | killProcess (h : Hart) (pid : Nat)
  | forceKillCurrent (h : Hart)
  | onTick (h : Hart) (frame : TrapFrame)
  | yield (h : Hart)
  | blockCurrent (h : Hart)
  | blockResumed (h : Hart)
  | blockUserFromTrap (h : Hart) (frame : TrapFrame)
  | wake (id : Nat)
  | ipcWakeWithMsg (tid : Nat) (msg : Option Message)
  | ipcWakeWithErr (tid code : Nat)
  | donateOnBlock (donorTid peerProc : Nat)
  | setAffinity (id hart : Nat)
  | secondaryIdle (h : Hart)
  | threadEntry (h : Hart)
  | takeIpcMsg (h : Hart)
  | drainReaper
  deriving DecidableEq, Repr

/-- One section. Idle threads neither exit nor block, and only they run the idle loop. -/
def Scheduler.step (b : Boot) (s : Scheduler) : SchedOp → Option Scheduler
  | .spawn h entry prio stack => (s.spawn b h entry prio stack).map Prod.snd
  | .spawnUser h proc root entryPc stackTop prio argc argv =>
    (s.spawnUser b h proc root entryPc stackTop prio argc argv).map Prod.snd
  | .spawnOwned h entry prio proc stack => (s.spawnOwned b h entry prio proc stack).map Prod.snd
  | .exit h => if s.Idle (s.current h) then none else some (s.exit h).2
  | .exitFromTrap h => if s.Idle (s.current h) then none else some (s.exitFromTrap h).2
  | .killProcess h pid => some (s.killProcess h pid).2.2
  | .forceKillCurrent h => some (s.forceKillCurrent b h).2
  | .onTick h frame => some (s.onTick b frame h).2
  | .yield h => some (s.yield h).2
  | .blockCurrent h => if s.Idle (s.current h) then none else some (s.blockCurrent h).2
  | .blockResumed h => some (s.blockResumed h)
  | .blockUserFromTrap h frame =>
    if s.Idle (s.current h) then none else some (s.blockUserFromTrap h frame).2
  | .wake id => some (s.wake id)
  | .ipcWakeWithMsg tid msg => s.ipcWakeWithMsg tid msg
  | .ipcWakeWithErr tid code => s.ipcWakeWithErr tid code
  | .donateOnBlock donorTid peerProc => s.donateOnBlock donorTid peerProc
  | .setAffinity id hart => s.setAffinity id hart
  | .secondaryIdle h => if s.current h = s.idle h then some (s.secondaryIdle h).2 else none
  | .threadEntry h => some (s.threadEntry h)
  | .takeIpcMsg h => some (s.takeIpcMsg h).2
  | .drainReaper => some s.drainReaper

end Ignium.Sched
