import Ignium.Ipc.ExactlyOnce
import Ignium.Sched.Wakeups

/-!
# The registers that a call returns with

The calls of `World` with whole trap frames. The result of a call is written in three places: by the
handler into the live frame if the partner was queued, by the partner into the saved frame if the
caller has blocked, and by the caller into its live frame if the partner came before it could block.
`step_view` shows that the machine here moves as `World` does, so what is known about pairs and
messages there holds here. `thread_ipcWakeWithMsg` and `blockUserFromTrap_result` say that the thread
control blocks change as in the sections of the scheduler.
-/

namespace Ignium.Ipc

open Kernel Sched

/-- The slot of the number of a system call in a trap frame. -/
def xA7 : Fin frameWords := ⟨16, by decide⟩

/-- The numbers of the calls. -/
def syscallIpcSend : Nat := 3

def syscallIpcRecv : Nat := 4

theorem message_slot (i : Fin msgWords) : xA1.val + i.val < frameWords := by
  have hslot : xA1.val = 10 := rfl
  have hwords : frameWords = 36 := rfl
  have hi : i.val < 5 := i.isLt
  omega

/-- The words of a message in a trap frame. -/
def frameMessage (frame : TrapFrame) : Message :=
  .ofFn fun i => frame.get ⟨xA1.val + i.val, message_slot i⟩

/-- A trap frame in which the call has failed. -/
def failedFrame (frame : TrapFrame) (code : Nat) : TrapFrame := (frame.put xA0 code).skipEcall

/-- A trap frame in which the call has succeeded, with the message for a receiver. -/
def doneFrame (frame : TrapFrame) (msg : Option Message) : TrapFrame :=
  let frame := frame.put xA0 0
  let frame := match msg with
    | some words => frame.putAll xA1 words
    | none => frame
  frame.skipEcall

namespace Registers

/-- The part of a thread control block that the calls use, with the whole frame. -/
structure Thread where
  proc : Nat
  state : ThreadState
  frame : TrapFrame
  ipcMsg : Option Message
  ipcWake : Option IpcWake
  deriving DecidableEq, Repr

/-- What `ipc_wake_with_msg` does to its target. -/
def ipcWakeWithMsg (t : Thread) (msg : Option Message) : Thread :=
  if t.state ≠ .blocked then
    let buf := msg.getD (.replicate msgWords 0)
    { t with ipcMsg := some buf, ipcWake := some (.msg buf) }
  else
    { t with frame := doneFrame t.frame msg, ipcMsg := msg, ipcWake := none, state := .ready }

/-- What `block_user_from_trap` does to its caller: it returns with a frame, or the caller blocks. -/
def blockUserFromTrap (t : Thread) (frame : TrapFrame) : Thread × Option TrapFrame :=
  match t.ipcWake with
  | some (.msg words) =>
    ({ t with ipcWake := none, state := .running }, some (doneFrame frame (some words)))
  | some (.err code) => ({ t with ipcWake := none, state := .running }, some (failedFrame frame code))
  | none => ({ t with frame := frame, state := .blocked }, none)

/-- A thread, its registers or live trap frame, its place in a call, and the number of its calls. The
registers with which the last call began are a ghost. -/
structure Task where
  thread : Thread
  live : TrapFrame
  phase : Phase
  calls : Nat
  entry : TrapFrame
  deriving DecidableEq, Repr

/-- A call that came back: whether it was a `send`, and its registers before and after. -/
structure Returned where
  id : CallId
  sent : Bool
  entry : TrapFrame
  frame : TrapFrame
  deriving DecidableEq, Repr

/-- The whole. -/
structure World where
  table : ProcessTable
  ipc : IpcState
  tasks : Nat → Task
  handed : List (Call × Call)
  returned : List Returned

/-- What can happen next. A system call comes with the registers of its thread. -/
inductive Op where
  | ecall (tid : Nat) (frame : TrapFrame)
  | ipcSection (tid : Nat)
  | wakeSection (tid : Nat)
  | blockSection (tid : Nat)
  | preempt (tid : Nat)
  | resume (tid : Nat)
  | setTable (table : ProcessTable)
  deriving DecidableEq

namespace World

/-- Change one thread. -/
def setTask (w : World) (tid : Nat) (task : Task) : World :=
  { w with tasks := Function.update w.tasks tid task }

/-- A system call starts: it returns with an error code, or it goes on to the IPC lock. -/
def enter (w : World) (tid : Nat) (frame : TrapFrame) (sent : Bool) (req : Except Nat Request) :
    World :=
  let task := w.tasks tid
  let id : CallId := ⟨tid, task.calls⟩
  match req with
  | .error code =>
    let task := { task with live := failedFrame frame code, calls := task.calls + 1, entry := frame }
    { w.setTask tid task with
      returned := w.returned ++ [⟨id, sent, frame, failedFrame frame code⟩] }
  | .ok req =>
    w.setTask tid
      { task with
        live := frame
        phase := .resolved ⟨id, task.thread.proc, req⟩
        calls := task.calls + 1
        entry := frame }

/-- The dispatch of a system call by its number. Calls other than `ipc_send` and `ipc_recv` are no
part of this machine. -/
def handle (w : World) (tid : Nat) (frame : TrapFrame) : Option World :=
  let proc := (w.tasks tid).thread.proc
  let slot := frame.get xA0
  if frame.get xA7 = syscallIpcSend then
    let target := sendTarget w.table proc slot
    some (w.enter tid frame true (target.map fun dst => .send dst (frameMessage frame)))
  else if frame.get xA7 = syscallIpcRecv then
    some (w.enter tid frame false ((recvSource w.table proc slot).map .recv))
  else none

/-- The section under the IPC lock. -/
def ipcSection (w : World) (tid : Nat) (call : Call) : World :=
  let task := w.tasks tid
  match call.req with
  | .send dst msg =>
    match sendLocked w.ipc tid call.pid dst msg with
    | (some r, ipc) =>
      { w.setTask tid { task with phase := .waking call r.recverTid (some msg) none } with
        ipc := ipc
        handed := w.handed ++
          ((w.tasks r.recverTid).phase.queued.map fun peer => (call, peer)).toList }
    | (none, ipc) => { w.setTask tid { task with phase := .parked call } with ipc := ipc }
  | .recv src =>
    match recvLocked w.ipc tid call.pid src with
    | (some s, ipc) =>
      { w.setTask tid { task with phase := .waking call s.senderTid none (some s.msg) } with
        ipc := ipc
        handed := w.handed ++
          ((w.tasks s.senderTid).phase.queued.map fun peer => (peer, call)).toList }
    | (none, ipc) => { w.setTask tid { task with phase := .parked call } with ipc := ipc }

/-- The thread returns to user mode with these registers. -/
def finish (w : World) (tid : Nat) (call : Call) (thread : Thread) (frame : TrapFrame) : World :=
  { w.setTask tid { w.tasks tid with thread := thread, live := frame, phase := .user } with
    returned := w.returned ++ [⟨call.id, call.isSend, (w.tasks tid).entry, frame⟩] }

/-- Wake a thread in the section under the scheduler lock. -/
def wake (w : World) (target : Nat) (msg : Option Message) : World :=
  w.setTask target
    { w.tasks target with thread := ipcWakeWithMsg (w.tasks target).thread msg }

/-- One step. -/
def step (w : World) : Op → Option World
  | .ecall tid frame =>
    let task := w.tasks tid
    if task.phase = .user ∧ task.thread.state = .running then w.handle tid frame else none
  | .ipcSection tid =>
    match (w.tasks tid).phase with
    | .resolved call => some (w.ipcSection tid call)
    | _ => none
  | .wakeSection tid =>
    match (w.tasks tid).phase with
    | .waking call target msg reply =>
      let w := w.wake target msg
      let task := w.tasks tid
      some (w.finish tid call task.thread (doneFrame task.live reply))
    | _ => none
  | .blockSection tid =>
    let task := w.tasks tid
    match task.phase with
    | .parked call =>
      match blockUserFromTrap task.thread task.live with
      | (thread, some frame) => some (w.finish tid call thread frame)
      | (thread, none) =>
        some (w.setTask tid { task with thread := thread, phase := .asleep call })
    | _ => none
  | .preempt tid =>
    let task := w.tasks tid
    if task.phase = .user ∧ task.thread.state = .running then
      some (w.setTask tid
        { task with thread := { task.thread with frame := task.live, state := .ready } })
    else none
  | .resume tid =>
    let task := w.tasks tid
    if task.thread.state = .ready then
      let thread := { task.thread with state := .running }
      match task.phase with
      | .asleep call => some (w.finish tid call thread thread.frame)
      | _ => some (w.setTask tid { task with thread := thread, live := thread.frame })
    else none
  | .setTable table => some { w with table := table }

end World

/-! ## Frames -/

section Frames

variable {frame : TrapFrame} {i j : Fin frameWords} {word code : Nat} {msg : Option Message}
  {words : Message}

theorem get_eq_getElem {n : Nat} (words : Vector Nat n) (i : Fin n) : words.get i = words[i.val] := rfl

theorem get_put : (frame.put i word).get j = if i = j then word else frame.get j := by
  simp only [TrapFrame.put, get_eq_getElem, Vector.getElem_set, Fin.ext_iff]

theorem get_putAll (frame : TrapFrame) (words : Message) (j : Fin frameWords) :
    (frame.putAll xA1 words).get j =
    if h : 10 ≤ j.val ∧ j.val - 10 < msgWords then words.get ⟨j.val - 10, h.2⟩ else frame.get j := by
  simp only [TrapFrame.putAll, get_eq_getElem, Fin.getElem_fin, Vector.getElem_ofFn]
  rfl

theorem get_skipEcall : frame.skipEcall.get j =
    if frameSepc = j then frame.get frameSepc + 4 else frame.get j := get_put

theorem get_frameMessage (frame : TrapFrame) (k : Fin msgWords) :
    (frameMessage frame).get k = frame.get ⟨xA1.val + k.val, message_slot k⟩ := by
  simp only [frameMessage, get_eq_getElem, Vector.getElem_ofFn]

/-- The slots of a message are neither `a0` nor `sepc`. -/
theorem message_slot_ne (k : Fin msgWords) : xA0 ≠ ⟨xA1.val + k.val, message_slot k⟩ ∧
    frameSepc ≠ ⟨xA1.val + k.val, message_slot k⟩ := by
  revert k
  decide

theorem frameMessage_congr {frame' : TrapFrame}
    (heq : ∀ k : Fin msgWords, frame'.get ⟨xA1.val + k.val, message_slot k⟩ =
      frame.get ⟨xA1.val + k.val, message_slot k⟩) :
    frameMessage frame' = frameMessage frame := by
  refine Vector.ext fun k hk => ?_
  have hk' := heq ⟨k, hk⟩
  rw [← get_frameMessage, ← get_frameMessage] at hk'
  exact hk'

theorem frameMessage_putAll : frameMessage (frame.putAll xA1 words) = words := by
  refine Vector.ext fun k hk => ?_
  have hget := get_frameMessage (frame.putAll xA1 words) ⟨k, hk⟩
  rw [get_putAll] at hget
  have hslot : xA1.val + k - 10 = k := Nat.add_sub_cancel_left 10 k
  have hin : 10 ≤ xA1.val + k ∧ xA1.val + k - 10 < msgWords :=
    ⟨Nat.le_add_right 10 k, by rw [hslot]; exact hk⟩
  rw [dif_pos hin] at hget
  refine hget.trans ?_
  change words.get _ = words.get ⟨k, hk⟩
  congr 1
  exact Fin.ext hslot

theorem putAll_frameMessage : frame.putAll xA1 (frameMessage frame) = frame := by
  refine Vector.ext fun k hk => ?_
  have hget := get_putAll frame (frameMessage frame) ⟨k, hk⟩
  refine hget.trans ?_
  split
  · next hin =>
    refine (get_frameMessage frame ⟨k - 10, hin.2⟩).trans ?_
    have hslot : xA1.val + (k - 10) = k := Nat.add_sub_cancel' hin.1
    simp only [get_eq_getElem, hslot]
  · rfl

/-- The part of the frame that `World` keeps. -/
def viewFrame (frame : TrapFrame) : Frame :=
  ⟨frame.get xA0, frameMessage frame, frame.get frameSepc⟩

theorem frameMessage_put (hi : ∀ k : Fin msgWords, i ≠ ⟨xA1.val + k.val, message_slot k⟩) :
    frameMessage (frame.put i word) = frameMessage frame :=
  frameMessage_congr fun k => by rw [get_put, if_neg (hi k)]

theorem frameMessage_skipEcall : frameMessage frame.skipEcall = frameMessage frame :=
  frameMessage_put fun k => (message_slot_ne k).2

theorem viewFrame_failed : viewFrame (failedFrame frame code) =
    ⟨code, (viewFrame frame).args, (viewFrame frame).sepc + 4⟩ := by
  have hne : xA0 ≠ frameSepc := by decide
  simp only [viewFrame, failedFrame, get_skipEcall, get_put, if_neg hne, if_neg hne.symm, if_true,
    frameMessage_skipEcall, frameMessage_put fun k => (message_slot_ne k).1]

theorem viewFrame_done : viewFrame (doneFrame frame msg) =
    ⟨0, msg.getD (viewFrame frame).args, (viewFrame frame).sepc + 4⟩ := by
  cases msg with
  | none => exact viewFrame_failed
  | some words =>
    have hne : xA0 ≠ frameSepc := by decide
    have ha0 : ¬ (10 ≤ xA0.val ∧ xA0.val - 10 < msgWords) := by decide
    have hsepc : ¬ (10 ≤ frameSepc.val ∧ frameSepc.val - 10 < msgWords) := by decide
    simp only [viewFrame, doneFrame, get_skipEcall, get_putAll, dif_neg ha0, dif_neg hsepc, get_put,
      if_neg hne, if_neg hne.symm, if_true, frameMessage_skipEcall, frameMessage_putAll,
      Option.getD_some]

/-- A message that is in the registers already makes no difference. -/
theorem doneFrame_own : doneFrame frame (some (frameMessage frame)) = doneFrame frame none := by
  have hown : frameMessage (frame.put xA0 0) = frameMessage frame :=
    frameMessage_put fun k => (message_slot_ne k).1
  simp only [doneFrame]
  rw [← hown, putAll_frameMessage]

end Frames

/-! ## The view of the machine -/

/-- What `World` keeps of a thread control block. -/
def Thread.view (t : Thread) : Ipc.Thread := ⟨t.proc, t.state, viewFrame t.frame, t.ipcMsg, t.ipcWake⟩

def Task.view (task : Task) : Ipc.Task :=
  ⟨task.thread.view, viewFrame task.live, task.phase, task.calls⟩

def Returned.view (ret : Returned) : Ipc.Returned := ⟨ret.id, ret.sent, viewFrame ret.frame⟩

def World.view (w : World) : Ipc.World where
  table := w.table
  ipc := w.ipc
  tasks tid := (w.tasks tid).view
  handed := w.handed
  returned := w.returned.map Returned.view

/-- The step of `World` for a step here. -/
def Op.view : Op → WorldOp
  | .ecall tid frame =>
    if frame.get xA7 = syscallIpcSend then
      .callSend tid (frame.get xA0) (frameMessage frame) (frame.get frameSepc)
    else .callRecv tid (frame.get xA0) (frameMessage frame) (frame.get frameSepc)
  | .ipcSection tid => .ipcSection tid
  | .wakeSection tid => .wakeSection tid
  | .blockSection tid => .blockSection tid
  | .preempt tid => .preempt tid
  | .resume tid => .resume tid
  | .setTable table => .setTable table

section View

variable {w w' : World} {tid : Nat} {op : Op}

theorem view_ipcWakeWithMsg (t : Thread) (msg : Option Message) :
    (ipcWakeWithMsg t msg).view = Ipc.ipcWakeWithMsg t.view msg := by
  unfold ipcWakeWithMsg Ipc.ipcWakeWithMsg
  by_cases hstate : t.state = .blocked
  · have hview : t.view.state = .blocked := hstate
    rw [if_neg (not_not.mpr hstate), if_neg (not_not.mpr hview), Thread.view, viewFrame_done]
    rfl
  · have hview : t.view.state ≠ .blocked := hstate
    rw [if_pos hstate, if_pos hview]
    rfl

/-- A step changes one thread, the queues and the ghosts. -/
theorem view_with (w : World) (tid : Nat) (task : Task) (ipc : IpcState) (handed : List (Call × Call))
    (returned : List Returned) :
    World.view { w.setTask tid task with ipc := ipc, handed := handed, returned := returned } =
      { w.view.setTask tid task.view with
        ipc := ipc, handed := handed, returned := returned.map Returned.view } := by
  have htasks : (fun x => (Function.update w.tasks tid task x).view) =
      Function.update (fun x => (w.tasks x).view) tid task.view := by
    funext x
    exact Function.apply_update (fun _ => Task.view) w.tasks tid task x
  unfold World.view World.setTask Ipc.World.setTask
  dsimp only
  rw [htasks]

theorem view_setTask (w : World) (tid : Nat) (task : Task) :
    (w.setTask tid task).view = w.view.setTask tid task.view :=
  view_with w tid task w.ipc w.handed w.returned

theorem view_finish (w : World) (tid : Nat) (call : Call) (thread : Thread) (frame : TrapFrame) :
    (w.finish tid call thread frame).view =
      w.view.finish tid call thread.view (viewFrame frame) := by
  refine (view_with w tid _ w.ipc w.handed _).trans ?_
  rw [List.map_append]
  rfl

theorem view_wake (w : World) (target : Nat) (msg : Option Message) :
    (w.wake target msg).view = w.view.wake target msg := by
  unfold World.wake Ipc.World.wake
  rw [view_setTask]
  unfold Task.view
  dsimp only
  rw [view_ipcWakeWithMsg]
  rfl

theorem view_enter (w : World) (tid : Nat) (frame : TrapFrame) (sent : Bool)
    (req : Except Nat Request) : (w.enter tid frame sent req).view =
      w.view.enter tid (viewFrame frame) sent req := by
  cases req with
  | error code =>
    refine (view_with w tid _ w.ipc w.handed _).trans ?_
    unfold Ipc.World.enter
    dsimp only
    rw [List.map_append, ← viewFrame_failed]
    rfl
  | ok req => exact view_setTask w tid _

theorem view_ipcSection (w : World) (tid : Nat) (call : Call) :
    (w.ipcSection tid call).view = w.view.ipcSection tid call := by
  have hipc : w.view.ipc = w.ipc := rfl
  unfold World.ipcSection Ipc.World.ipcSection
  cases call.req with
  | send dst msg =>
    dsimp only
    rw [hipc]
    rcases sendLocked w.ipc tid call.pid dst msg with ⟨_ | r, ipc⟩
    · exact view_with w tid _ ipc w.handed w.returned
    · exact view_with w tid _ ipc _ w.returned
  | recv src =>
    dsimp only
    rw [hipc]
    rcases recvLocked w.ipc tid call.pid src with ⟨_ | r, ipc⟩
    · exact view_with w tid _ ipc w.handed w.returned
    · exact view_with w tid _ ipc _ w.returned

/-- Every step here is a step of `World`. -/
theorem step_view (hstep : w.step op = some w') : w.view.step op.view = some w'.view := by
  have hphase : ∀ tid, (w.view.tasks tid).phase = (w.tasks tid).phase := fun _ => rfl
  have hstate : ∀ tid, (w.view.tasks tid).thread.state = (w.tasks tid).thread.state := fun _ => rfl
  cases op with
  | ecall tid frame =>
    obtain ⟨hready, hhandle⟩ := Option.ite_none_right_eq_some.mp hstep
    unfold World.handle at hhandle
    dsimp only at hhandle
    unfold Op.view
    dsimp only
    by_cases hsend : frame.get xA7 = syscallIpcSend
    · rw [if_pos hsend] at hhandle ⊢
      cases hhandle
      rw [view_enter]
      exact if_pos hready
    · rw [if_neg hsend] at hhandle ⊢
      obtain ⟨-, ⟨⟩⟩ := Option.ite_none_right_eq_some.mp hhandle
      rw [view_enter]
      exact if_pos hready
  | ipcSection tid =>
    unfold World.step at hstep
    unfold Op.view Ipc.World.step
    dsimp only at hstep ⊢
    rw [hphase]
    cases hcall : (w.tasks tid).phase with
    | resolved call =>
      rw [hcall] at hstep
      cases hstep
      exact congrArg some (view_ipcSection w tid call).symm
    | _ =>
      rw [hcall] at hstep
      cases hstep
  | wakeSection tid =>
    unfold World.step at hstep
    unfold Op.view Ipc.World.step
    dsimp only at hstep ⊢
    rw [hphase]
    cases hcall : (w.tasks tid).phase with
    | waking call target msg reply =>
      rw [hcall] at hstep
      cases hstep
      dsimp only
      rw [view_finish, view_wake, viewFrame_done, ← view_wake]
      rfl
    | _ =>
      rw [hcall] at hstep
      cases hstep
  | blockSection tid =>
    unfold World.step at hstep
    unfold Op.view Ipc.World.step
    dsimp only at hstep ⊢
    rw [hphase]
    cases hcall : (w.tasks tid).phase with
    | parked call =>
      rw [hcall] at hstep
      have hwake : (w.view.tasks tid).thread.ipcWake = (w.tasks tid).thread.ipcWake := rfl
      unfold blockUserFromTrap at hstep
      unfold Ipc.blockUserFromTrap
      rw [hwake]
      rcases hresult : (w.tasks tid).thread.ipcWake with _ | ⟨words | code⟩
      · rw [hresult] at hstep
        cases hstep
        rw [view_setTask]
        rfl
      · rw [hresult] at hstep
        cases hstep
        dsimp only
        rw [view_finish, viewFrame_done]
        rfl
      · rw [hresult] at hstep
        cases hstep
        dsimp only
        rw [view_finish, viewFrame_failed]
        rfl
    | _ =>
      rw [hcall] at hstep
      cases hstep
  | preempt tid =>
    obtain ⟨hready, rfl⟩ := Option.ite_some_none_eq_some.mp hstep
    rw [view_setTask]
    exact if_pos hready
  | resume tid =>
    unfold World.step at hstep
    unfold Op.view Ipc.World.step
    dsimp only at hstep ⊢
    rw [hstate, hphase]
    by_cases hready : (w.tasks tid).thread.state = .ready
    · rw [if_pos hready] at hstep ⊢
      cases hcall : (w.tasks tid).phase with
      | asleep call =>
        rw [hcall] at hstep
        cases hstep
        rw [view_finish]
        rfl
      | _ =>
        rw [hcall] at hstep
        cases hstep
        rw [view_setTask]
        rfl
    · rw [if_neg hready] at hstep
      cases hstep
  | setTable table =>
    cases hstep
    rfl

end View

/-! ## The sections of the scheduler -/

/-- What the calls use of a thread of the scheduler. -/
def ofTcb (t : Sched.Thread) : Thread := ⟨t.proc.getD 0, t.state, t.frame, t.ipcMsg, t.ipcWake⟩

/-- A ready thread is queued anew without any change to it. -/
theorem ready_thread_requeues {t : Sched.Thread} (tid : Nat) (hready : t.state = .ready) :
    Requeues fun s : Scheduler => s.thread tid = t where
  drop _ _ hs := hs
  requeue s proc hs := by
    unfold Scheduler.requeueProcThreads
    refine List.foldlRecOn (motive := fun s : Scheduler => s.thread tid = t) _ _ hs
      fun u hu id _ => ?_
    by_cases hid : tid = id
    · rw [← hid, Scheduler.enqueue_self, hu, ← hready]
    · rw [Scheduler.enqueue_of_ne _ hid]
      exact hu

theorem thread_ipcWakeWithMsg {s s' : Scheduler} {tid : Nat} {msg : Option Message}
    (hstep : s.ipcWakeWithMsg tid msg = some s') :
    ofTcb (s'.thread tid) = ipcWakeWithMsg (ofTcb (s.thread tid)) msg := by
  obtain ⟨-, hsome⟩ := Option.ite_none_right_eq_some.mp hstep
  unfold ipcWakeWithMsg
  by_cases hblocked : (s.thread tid).state = .blocked
  · have hview : (ofTcb (s.thread tid)).state = .blocked := hblocked
    rw [if_neg (not_not.mpr hblocked)] at hsome
    rw [if_neg (not_not.mpr hview)]
    cases hsome
    generalize hwritten : (s.modify tid _).enqueue tid = s₁
    have hthread : s₁.thread tid = { s.thread tid with
        frame := doneFrame (s.thread tid).frame msg
        ipcMsg := msg
        ipcWake := none
        state := .ready } := by
      rw [← hwritten, Scheduler.enqueue_self, Scheduler.modify_self]
      rfl
    have hkept := (ready_thread_requeues tid rfl).revokeDonations hthread tid
    exact congrArg ofTcb hkept
  · have hview : (ofTcb (s.thread tid)).state ≠ .blocked := hblocked
    rw [if_pos hblocked] at hsome
    rw [if_pos hview]
    cases hsome
    rw [Scheduler.modify_self]
    rfl

theorem blockUserFromTrap_result (s : Scheduler) (h : Hart) (frame : TrapFrame) :
    match (blockUserFromTrap (ofTcb (s.thread (s.current h))) frame).2 with
    | some frame' => (s.blockUserFromTrap h frame).1 = .returned frame'
    | none => ∃ target, (s.blockUserFromTrap h frame).1 = .switched target := by
  unfold blockUserFromTrap Scheduler.blockUserFromTrap
  have hview : (ofTcb (s.thread (s.current h))).ipcWake = (s.thread (s.current h)).ipcWake := rfl
  rw [hview]
  rcases hwake : (s.thread (s.current h)).ipcWake with _ | ⟨words | code⟩
  · dsimp only
    rw [hwake]
    exact ⟨_, rfl⟩
  · dsimp only
    rw [hwake]
    rfl
  · dsimp only
    rw [hwake]
    rfl

end Registers

end Ignium.Ipc
