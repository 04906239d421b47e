import Ignium.Ipc.Queues
import Ignium.Sched.Slots

/-!
# The scheduler and the IPC queues

The state under the scheduler lock together with the state under the IPC lock. A step is one section
under one of the two locks on any hart, and the sections of different calls interleave freely: which
thread a wake-up section wakes, and with what, is a choice of the run. `killProcess` is the call as a
hart makes it when nothing comes in between. The end of the process itself is not part of this
state.
-/

namespace Ignium.Ipc

open Kernel Sched

/-- The scheduler and the queues. -/
structure System where
  sched : Scheduler
  ipc : IpcState

/-- The sections. A call of `send` or `recv` is made by the current thread of a hart, and comes with
the process table that it finds. -/
inductive SystemOp where
  | sched (op : SchedOp)
  | send (h : Hart) (table : ProcessTable) (slot : Nat) (msg : Message)
  | recv (h : Hart) (table : ProcessTable) (slot : Nat)
  | purge (pid : Nat)
  deriving DecidableEq

/-- The threads of the entries in the queues. -/
def IpcState.waiting (ipc : IpcState) : List Nat :=
  ipc.recvs.map PendingRecv.recverTid ++ ipc.sends.map PendingSend.senderTid

/-- The thread that makes a call. -/
def IpcOp.caller : IpcOp → Option Nat
  | .send _ tid .. | .recv _ tid .. => some tid
  | .purge _ => none

/-- A thread whose entry is in the queues after a call was waiting before or has made the call. -/
theorem IpcState.waiting_step {ipc ipc' : IpcState} {op : IpcOp} (h : ipc.step op = some ipc') :
    ∀ tid ∈ ipc'.waiting, tid ∈ ipc.waiting ∨ op.caller = some tid := by
  have hmono : ∀ ipc' : IpcState, ipc'.sends.Sublist ipc.sends → ipc'.recvs.Sublist ipc.recvs →
      ∀ tid ∈ ipc'.waiting, tid ∈ ipc.waiting := fun ipc' hsends hrecvs tid hin =>
    ((hrecvs.map _).append (hsends.map _)).subset hin
  cases op with
  | send table tid pid slot msg =>
    rw [IpcState.step] at h
    split at h
    · next dst _ =>
      cases h
      rcases hsection : sendLocked ipc tid pid dst msg with ⟨_ | r, ipc'⟩
      · obtain ⟨rfl, -⟩ := sendLocked_none hsection
        intro t hin
        simp only [waiting, List.map_append, List.mem_append, List.map_cons, List.map_nil,
          List.mem_singleton] at hin ⊢
        rcases hin with hr | hs | rfl
        · exact .inl (.inl hr)
        · exact .inl (.inr hs)
        · exact .inr rfl
      · obtain ⟨-, -, hsends, front, back, hrecvs, hrest⟩ := sendLocked_some hsection
        refine fun t hin => .inl (hmono ipc' (by rw [hsends]) ?_ t hin)
        rw [hrecvs, hrest]
        exact (List.Sublist.refl front).append (List.sublist_cons_self r back)
    · cases h
      exact fun t hin => .inl hin
  | recv table tid pid slot =>
    rw [IpcState.step] at h
    split at h
    · next src _ =>
      cases h
      rcases hsection : recvLocked ipc tid pid src with ⟨_ | s, ipc'⟩
      · obtain ⟨rfl, -⟩ := recvLocked_none hsection
        intro t hin
        simp only [waiting, List.map_append, List.mem_append, List.map_cons, List.map_nil,
          List.mem_singleton] at hin ⊢
        rcases hin with (hr | rfl) | hs
        · exact .inl (.inl hr)
        · exact .inr rfl
        · exact .inl (.inr hs)
      · obtain ⟨-, -, hrecvs, front, back, hsends, hrest⟩ := recvLocked_some hsection
        refine fun t hin => .inl (hmono ipc' ?_ (by rw [hrecvs]) t hin)
        rw [hsends, hrest]
        exact (List.Sublist.refl front).append (List.sublist_cons_self s back)
    · cases h
      exact fun t hin => .inl hin
  | purge pid =>
    cases h
    exact fun t hin => .inl (hmono _ (List.filter_sublist.trans List.filter_sublist)
      (List.filter_sublist.trans List.filter_sublist) t hin)

namespace System

/-- The process of the current thread of a hart. The kernel stops if the thread has none. -/
def currentProc (w : System) (h : Hart) : Option Nat := (w.sched.thread (w.sched.current h)).proc

/-- The queues move on. -/
def ipcStep (w : System) (op : IpcOp) : Option System :=
  (w.ipc.step op).map fun ipc => { w with ipc := ipc }

/-- One section. -/
def step (b : Boot) (w : System) : SystemOp → Option System
  | .sched op => (w.sched.step b op).map fun sched => { w with sched := sched }
  | .send h table slot msg =>
    w.currentProc h >>= fun pid => w.ipcStep (.send table (w.sched.current h) pid slot msg)
  | .recv h table slot =>
    w.currentProc h >>= fun pid => w.ipcStep (.recv table (w.sched.current h) pid slot)
  | .purge pid => w.ipcStep (.purge pid)

/-- Before the first section. -/
def boot (b : Boot) (stackOf : Hart → Nat) : System := ⟨.init b stackOf, .empty⟩

/-- The wake-ups of a purge, one section after the other. -/
def wakeAll (s : Scheduler) (wakes : List (Nat × Nat)) : Option Scheduler :=
  wakes.foldlM (fun s wake => s.ipcWakeWithErr wake.1 wake.2) s

/-- The call of `kill_process` up to the end of the process: the purge, its wake-ups, and the section
of the scheduler. -/
def killProcess (w : System) (h : Hart) (pid : Nat) : Option System :=
  let (wakes, ipc) := purgeLocked w.ipc pid
  (wakeAll w.sched wakes).map fun sched => ⟨(sched.killProcess h pid).2.2, ipc⟩

end System

end Ignium.Ipc
