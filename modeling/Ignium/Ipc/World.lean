import Ignium.Sched.Thread

/-!
# User threads in IPC calls

The threads of a kernel with several harts, as far as `ipc_send` and `ipc_recv` see them. A call
is cut at its locks: the section under the IPC lock, the wake-up of the partner and the blocking
of the caller each are one step, and the steps of different threads interleave in any order.
Preemption and dispatch are free choices of the run, which covers every scheduler and any number
of harts. No process is killed here, and other system calls appear only as changes of the process
table between two steps.

The lists `handed` and `returned` are ghosts: which call was handed the message of which call, and
with which registers the calls came back to user mode.
-/

namespace Ignium.Ipc

open Kernel Sched

/-- The part of a trap frame that the calls use: `a0`, `a1` to `a5`, and `sepc`. -/
structure Frame where
  a0 : Nat
  args : Message
  sepc : Nat
  deriving DecidableEq, Repr

/-- The part of a thread control block that the calls use. -/
structure Thread where
  proc : Nat
  state : ThreadState
  frame : Frame
  ipcMsg : Option Message
  ipcWake : Option IpcWake
  deriving DecidableEq, Repr

/-- Wake a thread with the result of its call. A thread that has not blocked yet finds the result
when it is about to block; `none` stands for the acknowledgement of a sender. -/
def ipcWakeWithMsg (t : Thread) (msg : Option Message) : Thread :=
  if t.state ≠ .blocked then
    let buf := msg.getD (.replicate msgWords 0)
    { t with ipcMsg := some buf, ipcWake := some (.msg buf) }
  else
    { t with
      frame := ⟨0, msg.getD t.frame.args, t.frame.sepc + 4⟩
      ipcMsg := msg
      ipcWake := none
      state := .ready }

/-- Block the current thread at its trap frame, unless its result is there already. Then the
result is written to the frame and the call returns. -/
def blockUserFromTrap (t : Thread) (frame : Frame) : Thread × Option Frame :=
  match t.ipcWake with
  | some (.msg words) =>
    ({ t with ipcWake := none, state := .running }, some ⟨0, words, frame.sepc + 4⟩)
  | some (.err code) =>
    ({ t with ipcWake := none, state := .running },
      some { frame with a0 := code, sepc := frame.sepc + 4 })
  | none => ({ t with frame := frame, state := .blocked }, none)

/-! ## Calls -/

/-- A call with its capability resolved. -/
inductive Request where
  | send (dst : Nat) (msg : Message)
  | recv (src : Nat)
  deriving DecidableEq, Repr

/-- The name of a call: the thread and how many calls it had made before. -/
structure CallId where
  tid : Nat
  number : Nat
  deriving DecidableEq, Repr

/-- A call, the process that makes it, and what it asks for. -/
structure Call where
  id : CallId
  pid : Nat
  req : Request
  deriving DecidableEq, Repr

/-- The call is a `send`. -/
def Call.isSend (call : Call) : Bool :=
  match call.req with
  | .send _ _ => true
  | .recv _ => false

/-- How far a thread has got in a call. -/
inductive Phase where
  /-- In user mode. -/
  | user
  /-- The capability is resolved, the IPC lock not yet taken. -/
  | resolved (call : Call)
  /-- A partner was found: `target` has to be woken with `msg`, and then the call returns with
  `reply`. -/
  | waking (call : Call) (target : Nat) (msg reply : Option Message)
  /-- Queued, not yet blocked. -/
  | parked (call : Call)
  /-- Queued and switched away from. -/
  | asleep (call : Call)
  deriving DecidableEq, Repr

/-- The call that a queued thread is in. -/
def Phase.queued : Phase → Option Call
  | .parked call => some call
  | .asleep call => some call
  | _ => none

/-- A thread, its registers or trap frame, its place in a call, and the number of its calls. -/
structure Task where
  thread : Thread
  live : Frame
  phase : Phase
  calls : Nat
  deriving DecidableEq, Repr

/-- A call that came back: whether it was a `send`, and its registers. -/
structure Returned where
  id : CallId
  sent : Bool
  frame : Frame
  deriving DecidableEq, Repr

/-- The whole: the process table, the queues and the threads, and the ghosts. -/
structure World where
  table : ProcessTable
  ipc : IpcState
  tasks : Nat → Task
  handed : List (Call × Call)
  returned : List Returned

/-- What can happen next. -/
inductive WorldOp where
  | callSend (tid slot : Nat) (msg : Message) (sepc : Nat)
  | callRecv (tid slot : Nat) (args : Message) (sepc : Nat)
  | ipcSection (tid : Nat)
  | wakeSection (tid : Nat)
  | blockSection (tid : Nat)
  | preempt (tid : Nat)
  | resume (tid : Nat)
  | setTable (table : ProcessTable)
  deriving DecidableEq

namespace World

/-- Change one thread. -/
def setTask (w : World) (tid : Nat) (task : Task) : World :=
  { w with tasks := Function.update w.tasks tid task }

/-- A system call starts with its arguments in the frame: it returns with an error code, or it
goes on to the IPC lock. -/
def enter (w : World) (tid : Nat) (live : Frame) (sent : Bool) (req : Except Nat Request) : World :=
  let task := w.tasks tid
  let id : CallId := ⟨tid, task.calls⟩
  match req with
  | .error code =>
    let frame : Frame := { live with a0 := code, sepc := live.sepc + 4 }
    { w.setTask tid { task with live := frame, calls := task.calls + 1 } with
      returned := w.returned ++ [⟨id, sent, frame⟩] }
  | .ok req =>
    w.setTask tid
      { task with
        live := live
        phase := .resolved ⟨id, task.thread.proc, req⟩
        calls := task.calls + 1 }

/-- The section under the IPC lock. The ghost records whom a partner was found for. -/
def ipcSection (w : World) (tid : Nat) (call : Call) : World :=
  let task := w.tasks tid
  match call.req with
  | .send dst msg =>
    match sendLocked w.ipc tid call.pid dst msg with
    | (some r, ipc) =>
      { w.setTask tid { task with phase := .waking call r.recverTid (some msg) none } with
        ipc := ipc
        handed := w.handed ++
          ((w.tasks r.recverTid).phase.queued.map fun peer => (call, peer)).toList }
    | (none, ipc) => { w.setTask tid { task with phase := .parked call } with ipc := ipc }
  | .recv src =>
    match recvLocked w.ipc tid call.pid src with
    | (some s, ipc) =>
      { w.setTask tid { task with phase := .waking call s.senderTid none (some s.msg) } with
        ipc := ipc
        handed := w.handed ++
          ((w.tasks s.senderTid).phase.queued.map fun peer => (peer, call)).toList }
    | (none, ipc) => { w.setTask tid { task with phase := .parked call } with ipc := ipc }

/-- The thread returns to user mode with these registers. -/
def finish (w : World) (tid : Nat) (call : Call) (thread : Thread) (frame : Frame) : World :=
  { w.setTask tid { w.tasks tid with thread := thread, live := frame, phase := .user } with
    returned := w.returned ++ [⟨call.id, call.isSend, frame⟩] }

/-- Wake a thread in the section under the scheduler lock. -/
def wake (w : World) (target : Nat) (msg : Option Message) : World :=
  w.setTask target
    { w.tasks target with thread := ipcWakeWithMsg (w.tasks target).thread msg }

/-- One step. A step of a thread that is not at the place for it does not exist. -/
def step (w : World) : WorldOp → Option World
  | .callSend tid slot msg sepc =>
    let task := w.tasks tid
    if task.phase = .user ∧ task.thread.state = .running then
      let target := sendTarget w.table task.thread.proc slot
      some (w.enter tid ⟨slot, msg, sepc⟩ true (target.map fun dst => .send dst msg))
    else none
  | .callRecv tid slot args sepc =>
    let task := w.tasks tid
    if task.phase = .user ∧ task.thread.state = .running then
      let source := recvSource w.table task.thread.proc slot
      some (w.enter tid ⟨slot, args, sepc⟩ false (source.map .recv))
    else none
  | .ipcSection tid =>
    match (w.tasks tid).phase with
    | .resolved call => some (w.ipcSection tid call)
    | _ => none
  | .wakeSection tid =>
    match (w.tasks tid).phase with
    | .waking call target msg reply =>
      let w := w.wake target msg
      let task := w.tasks tid
      some (w.finish tid call task.thread
        ⟨0, reply.getD task.live.args, task.live.sepc + 4⟩)
    | _ => none
  | .blockSection tid =>
    let task := w.tasks tid
    match task.phase with
    | .parked call =>
      match blockUserFromTrap task.thread task.live with
      | (thread, some frame) => some (w.finish tid call thread frame)
      | (thread, none) =>
        some (w.setTask tid { task with thread := thread, phase := .asleep call })
    | _ => none
  | .preempt tid =>
    let task := w.tasks tid
    if task.phase = .user ∧ task.thread.state = .running then
      some (w.setTask tid
        { task with thread := { task.thread with frame := task.live, state := .ready } })
    else none
  | .resume tid =>
    let task := w.tasks tid
    if task.thread.state = .ready then
      let thread := { task.thread with state := .running }
      match task.phase with
      | .asleep call => some (w.finish tid call thread thread.frame)
      | _ => some (w.setTask tid { task with thread := thread, live := thread.frame })
    else none
  | .setTable table => some { w with table := table }

/-- A thread that has never made a call. -/
def Fresh (task : Task) : Prop :=
  task.phase = .user ∧ (task.thread.state = .ready ∨ task.thread.state = .running) ∧
    task.thread.ipcWake = none ∧ task.calls = 0

/-- At the start the queues are empty and no thread has made a call. -/
structure Initial (w : World) : Prop where
  ipc : w.ipc = .empty
  tasks : ∀ tid, Fresh (w.tasks tid)
  handed : w.handed = []
  returned : w.returned = []

end World

end Ignium.Ipc
