import Ignium.Ipc.Queues
import Ignium.Kernel.Effects

/-!
# Waiting for a process that is gone

A killed process is purged from the IPC queues, but the capabilities that name it stay in the slots
of other processes, and `cap_target` does not look whether the process it returns is alive. So a
later `send` or `recv` through such a capability is queued and can never be paired.
`always_noDeadWait_iff` says exactly when all parties of queued calls are alive all along a run:
when every call names live processes (`NamesLive`). `not_noDeadWait_kill` is a run in which one does
not.

Calls are single steps here, `kill_process` is the purge and the end of the process, and a process
ends in no other way. Which thread makes a call is an argument of the call.
-/

namespace Ignium.Ipc

open Kernel Mem Mmu

/-- The kernel with its IPC queues. -/
structure Switchboard where
  kernel : State
  ipc : IpcState

/-- The calls: those of the kernel, `send`, `recv` and `kill_process`. -/
inductive SwitchOp where
  | kernel (op : KernelOp)
  | send (tid pid slot : Nat) (msg : Message)
  | recv (tid pid slot : Nat)
  | kill (pid : Nat)
  deriving DecidableEq

/-- The operation ends a process. -/
def endsProcess : KernelOp → Bool
  | .destroy _ => true
  | _ => false

namespace Switchboard

/-- The queues move on. -/
def ipcStep (w : Switchboard) (op : IpcOp) : Option Switchboard :=
  (w.ipc.step op).map fun ipc => { w with ipc := ipc }

/-- One call. -/
def step (b : Board) (w : Switchboard) : SwitchOp → Option Switchboard
  | .kernel op =>
    if endsProcess op then none
    else (w.kernel.step b op).map fun kernel => { w with kernel := kernel }
  | .send tid pid slot msg => w.ipcStep (.send w.kernel.table tid pid slot msg)
  | .recv tid pid slot => w.ipcStep (.recv w.kernel.table tid pid slot)
  | .kill pid => (w.kernel.destroy pid).map fun kernel => ⟨kernel, (purgeLocked w.ipc pid).2⟩

/-- A process is alive. -/
def Live (w : Switchboard) (pid : Nat) : Prop := w.kernel.table.pidRoot pid ≠ none

/-- All parties of queued calls are alive. -/
structure NoDeadWait (w : Switchboard) : Prop where
  sender : ∀ s ∈ w.ipc.sends, w.Live s.senderPid
  dst : ∀ s ∈ w.ipc.sends, w.Live s.dstPid
  recver : ∀ r ∈ w.ipc.recvs, w.Live r.recverPid
  src : ∀ r ∈ w.ipc.recvs, w.Live r.srcPid ∨ r.srcPid = ipcAcceptAny

/-- A call is made by a live process and goes to a live one, or listens to anyone. -/
def NamesLive (w : Switchboard) : SwitchOp → Prop
  | .send _ pid slot _ => ∀ dst, sendTarget w.kernel.table pid slot = .ok dst → w.Live dst
  | .recv _ pid slot => ∀ src, recvSource w.kernel.table pid slot = .ok src →
      w.Live pid ∧ (w.Live src ∨ src = ipcAcceptAny)
  | _ => True

/-- Before the first process is created. -/
def boot (mem : Usage) : Switchboard := ⟨Kernel.boot mem, .empty⟩

variable {w w' : Switchboard} {b : Board} {op : SwitchOp} {tid pid slot : Nat} {msg : Message}

/-- Only live processes have capabilities to send through. -/
theorem live_of_sendTarget {dst : Nat} (h : sendTarget w.kernel.table pid slot = .ok dst) :
    w.Live pid := by
  intro hdead
  have hnone : w.kernel.table.capAt pid slot = none := ProcessTable.capAt_of_pidRoot hdead
  rw [sendTarget] at h
  split at h <;> cases h
  next hcap =>
    rw [ProcessTable.capTarget_eq_ok, hnone] at hcap
    cases hcap

/-- The parties stay alive while no process ends and entries only go. -/
theorem NoDeadWait.mono (h : w.NoDeadWait) (hsends : ∀ s ∈ w'.ipc.sends, s ∈ w.ipc.sends)
    (hrecvs : ∀ r ∈ w'.ipc.recvs, r ∈ w.ipc.recvs) (hlive : ∀ q, w.Live q → w'.Live q) :
    w'.NoDeadWait where
  sender s hs := hlive _ (h.sender s (hsends s hs))
  dst s hs := hlive _ (h.dst s (hsends s hs))
  recver r hr := hlive _ (h.recver r (hrecvs r hr))
  src r hr := (h.src r (hrecvs r hr)).imp_left (hlive _)

/-! ## Calls -/

/-- What a `send` does: nothing, or it takes a receiver, or it is queued because nobody waits. -/
theorem send_cases (h : w.step b (.send tid pid slot msg) = some w') :
    (w' = w ∧ ∀ dst, sendTarget w.kernel.table pid slot ≠ .ok dst) ∨
    ∃ dst, sendTarget w.kernel.table pid slot = .ok dst ∧
      ((∃ r ∈ w.ipc.recvs, r.recverPid = dst ∧ w'.kernel = w.kernel ∧ w'.ipc.sends = w.ipc.sends ∧
        ∀ r ∈ w'.ipc.recvs, r ∈ w.ipc.recvs) ∨
      w' = { w with ipc.sends := w.ipc.sends ++ [⟨tid, pid, dst, msg⟩] }) := by
  obtain ⟨ipc, hipc, rfl⟩ := Option.map_eq_some_iff.mp h
  rw [IpcState.step] at hipc
  split at hipc
  · next dst htarget =>
    cases hipc
    refine .inr ⟨dst, htarget, ?_⟩
    rcases hsection : sendLocked w.ipc tid pid dst msg with ⟨taken, ipc⟩
    cases taken with
    | none =>
      obtain ⟨rfl, -⟩ := sendLocked_none hsection
      exact .inr rfl
    | some r =>
      obtain ⟨hdst, -, hsends, front, back, hrecvs, hrest⟩ := sendLocked_some hsection
      refine .inl ⟨r, by simp [hrecvs], hdst, rfl, hsends, fun r' hr' => ?_⟩
      rw [hrecvs]
      rw [hrest] at hr'
      simp only [List.mem_append, List.mem_cons] at hr' ⊢
      tauto
  · next e herror =>
    cases hipc
    exact .inl ⟨rfl, fun dst hdst => by rw [herror] at hdst; cases hdst⟩

/-- What a `recv` does: nothing, or it takes a message, or it is queued. -/
theorem recv_cases (h : w.step b (.recv tid pid slot) = some w') :
    (w' = w ∧ ∀ src, recvSource w.kernel.table pid slot ≠ .ok src) ∨
    ∃ src, recvSource w.kernel.table pid slot = .ok src ∧
      ((∃ s ∈ w.ipc.sends, s.senderPid = src ∧ s.dstPid = pid ∧ w'.kernel = w.kernel ∧
        w'.ipc.recvs = w.ipc.recvs ∧ ∀ s ∈ w'.ipc.sends, s ∈ w.ipc.sends) ∨
      w' = { w with ipc.recvs := w.ipc.recvs ++ [⟨tid, pid, src⟩] }) := by
  obtain ⟨ipc, hipc, rfl⟩ := Option.map_eq_some_iff.mp h
  rw [IpcState.step] at hipc
  split at hipc
  · next src hsource =>
    cases hipc
    refine .inr ⟨src, hsource, ?_⟩
    rcases hsection : recvLocked w.ipc tid pid src with ⟨taken, ipc⟩
    cases taken with
    | none =>
      obtain ⟨rfl, -⟩ := recvLocked_none hsection
      exact .inr rfl
    | some s =>
      obtain ⟨hsrc, hdst, hrecvs, front, back, hsends, hrest⟩ := recvLocked_some hsection
      refine .inl ⟨s, by simp [hsends], hsrc, hdst, rfl, hrecvs, fun s' hs' => ?_⟩
      rw [hsends]
      rw [hrest] at hs'
      simp only [List.mem_append, List.mem_cons] at hs' ⊢
      tauto
  · next e herror =>
    cases hipc
    exact .inl ⟨rfl, fun src hsrc => by rw [herror] at hsrc; cases hsrc⟩

/-- An operation of the kernel leaves the queues alone and ends no process. -/
theorem kernel_cases {op : KernelOp} (hk : w.kernel.Sound) (h : w.step b (.kernel op) = some w') :
    w'.kernel.Sound ∧ w'.ipc = w.ipc ∧ ∀ q, w.Live q → w'.Live q := by
  rw [step] at h
  split at h
  · cases h
  next hends =>
  obtain ⟨kernel, hkernel, rfl⟩ := Option.map_eq_some_iff.mp h
  refine ⟨hk.step hkernel, rfl, ?_⟩
  obtain hlives | ⟨pid, rfl⟩ | ⟨pid, id, rfl⟩ | ⟨caller, devId, va, rfl⟩ :=
    State.step_lives hk hkernel
  · exact hlives.roots
  · exact absurd rfl hends
  · cases hkernel
    obtain ⟨services, heq⟩ := State.registerService_eq w.kernel pid id
    intro q hq
    rw [Live, heq]
    exact hq
  · intro q hq
    rw [Live, (State.mapDevice_lives hkernel).2]
    exact hq

/-- Killing a process drops every entry that it is a party of. -/
theorem NoDeadWait.kill (h : w.NoDeadWait) (hk : w.kernel.Sound)
    (hstep : w.step b (.kill pid) = some w') : w'.NoDeadWait := by
  obtain ⟨kernel, hdestroy, rfl⟩ := Option.map_eq_some_iff.mp hstep
  have hlive : ∀ q, q ≠ pid → w.Live q → kernel.table.pidRoot q ≠ none := fun q hne hq =>
    State.destroy_lives hk hdestroy hne hq
  have hsends : ∀ s ∈ (purgeLocked w.ipc pid).2.sends,
      s ∈ w.ipc.sends ∧ s.senderPid ≠ pid ∧ s.dstPid ≠ pid := fun s hs => by
    simp only [purgeLocked, List.mem_filter, decide_eq_true_eq] at hs
    exact ⟨hs.1.1, hs.2, hs.1.2⟩
  have hrecvs : ∀ r ∈ (purgeLocked w.ipc pid).2.recvs,
      r ∈ w.ipc.recvs ∧ r.recverPid ≠ pid ∧ r.srcPid ≠ pid := fun r hr => by
    simp only [purgeLocked, List.mem_filter, decide_eq_true_eq] at hr
    exact ⟨hr.1.1, hr.2, hr.1.2⟩
  refine ⟨fun s hs => ?_, fun s hs => ?_, fun r hr => ?_, fun r hr => ?_⟩
  · obtain ⟨hold, hsender, -⟩ := hsends s hs
    exact hlive _ hsender (h.sender s hold)
  · obtain ⟨hold, -, hdst⟩ := hsends s hs
    exact hlive _ hdst (h.dst s hold)
  · obtain ⟨hold, hrecver, -⟩ := hrecvs r hr
    exact hlive _ hrecver (h.recver r hold)
  · obtain ⟨hold, -, hsrc⟩ := hrecvs r hr
    exact (h.src r hold).imp_left (hlive _ hsrc)

theorem NoDeadWait.step (h : w.NoDeadWait) (hk : w.kernel.Sound) (hnames : w.NamesLive op)
    (hstep : w.step b op = some w') : w'.NoDeadWait := by
  cases op with
  | kernel op =>
    obtain ⟨-, hipc, hlive⟩ := kernel_cases hk hstep
    exact h.mono (fun s hs => hipc ▸ hs) (fun r hr => hipc ▸ hr) hlive
  | send tid pid slot msg =>
    obtain ⟨rfl, -⟩ | ⟨dst, htarget, ⟨r, -, -, hkernel, hsends, hrecvs⟩ | rfl⟩ := send_cases hstep
    · exact h
    · exact h.mono (fun s hs => hsends ▸ hs) hrecvs fun q hq => by rwa [Live, hkernel]
    · have hdst := hnames dst htarget
      refine ⟨fun s hs => ?_, fun s hs => ?_, h.recver, h.src⟩
      · rcases List.mem_append.mp hs with hold | hnew
        · exact h.sender s hold
        · rw [List.mem_singleton.mp hnew]
          exact live_of_sendTarget htarget
      · rcases List.mem_append.mp hs with hold | hnew
        · exact h.dst s hold
        · rw [List.mem_singleton.mp hnew]
          exact hdst
  | recv tid pid slot =>
    obtain ⟨rfl, -⟩ | ⟨src, hsource, ⟨s, -, -, -, hkernel, hrecvs, hsends⟩ | rfl⟩ :=
      recv_cases hstep
    · exact h
    · exact h.mono hsends (fun r hr => hrecvs ▸ hr) fun q hq => by rwa [Live, hkernel]
    · obtain ⟨hpid, hsrc⟩ := hnames src hsource
      refine ⟨h.sender, h.dst, fun r hr => ?_, fun r hr => ?_⟩
      · rcases List.mem_append.mp hr with hold | hnew
        · exact h.recver r hold
        · rw [List.mem_singleton.mp hnew]
          exact hpid
      · rcases List.mem_append.mp hr with hold | hnew
        · exact h.src r hold
        · rw [List.mem_singleton.mp hnew]
          exact hsrc
  | kill pid => exact h.kill hk hstep

/-- A call that names a dead process finds no partner and is queued. -/
theorem NoDeadWait.not_step (h : w.NoDeadWait) (hbad : ¬ w.NamesLive op)
    (hstep : w.step b op = some w') : ¬ w'.NoDeadWait := by
  intro hafter
  refine hbad ?_
  cases op with
  | kernel op => trivial
  | send tid pid slot msg =>
    intro dst hdst
    obtain ⟨-, hnone⟩ | ⟨dst', htarget, hcases⟩ := send_cases hstep
    · exact absurd hdst (hnone dst)
    obtain rfl := Except.ok.inj (htarget.symm.trans hdst)
    obtain ⟨r, hr, hrecver, -⟩ | rfl := hcases
    · exact hrecver ▸ h.recver r hr
    · exact hafter.dst ⟨tid, pid, dst', msg⟩ (by simp)
  | recv tid pid slot =>
    intro src hsrc
    obtain ⟨-, hnone⟩ | ⟨src', hsource, hcases⟩ := recv_cases hstep
    · exact absurd hsrc (hnone src)
    obtain rfl := Except.ok.inj (hsource.symm.trans hsrc)
    obtain ⟨s, hs, hsender, hdst, -⟩ | rfl := hcases
    · exact ⟨hdst ▸ h.dst s hs, .inl (hsender ▸ h.sender s hs)⟩
    · exact ⟨hafter.recver ⟨tid, pid, src'⟩ (by simp), hafter.src ⟨tid, pid, src'⟩ (by simp)⟩
  | kill pid => trivial

/-! ## Runs -/

theorem sound_step (hk : w.kernel.Sound) (hstep : w.step b op = some w') : w'.kernel.Sound := by
  cases op with
  | kernel op => exact (kernel_cases hk hstep).1
  | send tid pid slot msg | recv tid pid slot =>
    obtain ⟨ipc, -, rfl⟩ := Option.map_eq_some_iff.mp hstep
    exact hk
  | kill pid =>
    obtain ⟨kernel, hdestroy, rfl⟩ := Option.map_eq_some_iff.mp hstep
    exact hk.destroy hdestroy

/-- What is kept along runs. -/
def Inv (w : Switchboard) : Prop := w.kernel.Sound ∧ w.NoDeadWait

/-- All parties of queued calls are alive exactly in the runs in which every call is made by a live
process and names a live one. -/
theorem always_noDeadWait_iff (b : Board) (mem : Usage) (ops : List SwitchOp) :
    Machine.Always (step b) (boot mem) ops NoDeadWait ↔
      Machine.Each (step b) (boot mem) ops NamesLive := by
  have hboot : (boot mem).NoDeadWait := by
    refine ⟨?_, ?_, ?_, ?_⟩ <;> intro entry hentry <;> cases hentry
  have hinit : (boot mem).Inv := ⟨State.sound_boot mem, hboot⟩
  refine Machine.always_iff_each hinit (fun w hinv => hinv.2) ?_ ?_
  · intro w op w' hinv hstep hnames
    exact ⟨sound_step hinv.1 hstep, hinv.2.step hinv.1 hnames hstep⟩
  · intro w op w' hinv hstep hbad
    exact hinv.2.not_step hbad hstep

set_option maxRecDepth 100000 in
/-- Process 0 may talk to process 1, which is killed. The next message to it waits for ever. -/
theorem not_noDeadWait_kill :
    ¬ Machine.Always (step smallBoard) (boot smallMem)
      [.kernel .create, .kernel .create, .kernel (.grantCap 0 0 1), .kill 1,
        .send 7 0 0 (.replicate 5 42)] NoDeadWait := by
  intro halways
  have heval : (Machine.run (step smallBoard) (boot smallMem)
      [.kernel .create, .kernel .create, .kernel (.grantCap 0 0 1), .kill 1,
        .send 7 0 0 (.replicate 5 42)]).map (fun w => (w.ipc.sends, w.kernel.table.pidRoot 1)) =
      some ([⟨7, 0, 1, .replicate 5 42⟩], none) := by decide +kernel
  obtain ⟨w, hrun, hw⟩ := Option.map_eq_some_iff.mp heval
  obtain ⟨hsends, hdead⟩ := Prod.mk.inj hw
  have hlaw := halways _ [] w (List.append_nil _).symm hrun
  exact hlaw.dst ⟨7, 0, 1, .replicate 5 42⟩ (by simp [hsends]) hdead

end Switchboard

end Ignium.Ipc
