import Ignium.Kernel.Process
import Ignium.Lib.Machine
import Mathlib.Data.List.Basic
import Mathlib.Data.List.Induction

/-!
# The queues of synchronous IPC

The pairing of `kernel/src/ipc.rs`. A `send` and a `recv` resolve a capability under the table
lock and then enter the section under the IPC lock: the caller takes the first matching entry of
the other queue, or it queues itself. An empty slot makes a `recv` listen to anyone, and such a
listener never takes a send that is already queued. `no_pair_waits` says which compatible
parties can wait for each other at the same time: only a listener and sends queued before it.
-/

namespace Ignium.Ipc

open Kernel

/-- The number of words of a message, `a1` to `a5`. -/
def msgWords : Nat := 5

/-- A register message. -/
abbrev Message := Vector Nat msgWords

/-- The source of a `recv` that accepts anyone. -/
def ipcAcceptAny : Nat := 2 ^ 64 - 1

/-- A queued `send`. -/
structure PendingSend where
  senderTid : Nat
  senderPid : Nat
  dstPid : Nat
  msg : Message
  deriving DecidableEq, Repr

/-- A queued `recv`. -/
structure PendingRecv where
  recverTid : Nat
  recverPid : Nat
  srcPid : Nat
  deriving DecidableEq, Repr

/-- The two queues, oldest entry first. -/
structure IpcState where
  sends : List PendingSend
  recvs : List PendingRecv
  deriving DecidableEq, Repr

/-- The queues at boot. -/
def IpcState.empty : IpcState := ⟨[], []⟩

/-- Take the first entry with a property out of a queue. -/
def takeFirst {α : Type} (p : α → Bool) (l : List α) : Option (α × List α) :=
  (l.find? p).map fun x => (x, l.eraseP p)

/-! ## The sections -/

/-- The target of a `send`. -/
def sendTarget (t : ProcessTable) (pid slot : Nat) : Except Nat Nat :=
  match t.capTarget pid slot with
  | .ok (.proc dst) => .ok dst
  | .ok (.shm _) => .error (capErrno .wrongType)
  | .ok (.page _) => .error (capErrno .wrongType)
  | .error e => .error (capErrno e)

/-- The source of a `recv`. An empty slot listens to anyone. -/
def recvSource (t : ProcessTable) (pid slot : Nat) : Except Nat Nat :=
  match t.capTarget pid slot with
  | .ok (.proc src) => .ok src
  | .ok (.shm _) => .error (capErrno .wrongType)
  | .ok (.page _) => .error (capErrno .wrongType)
  | .error .notFound => .ok ipcAcceptAny
  | .error e => .error (capErrno e)

/-- A `send` or `recv` that fails to resolve its capability does not fail with the code of
success. -/
theorem sendTarget_error {t : ProcessTable} {pid slot code : Nat}
    (h : sendTarget t pid slot = .error code) : code ≠ 0 := by
  rw [sendTarget] at h
  split at h <;> cases h <;> exact capErrno_ne_zero _

theorem recvSource_error {t : ProcessTable} {pid slot code : Nat}
    (h : recvSource t pid slot = .error code) : code ≠ 0 := by
  rw [recvSource] at h
  split at h <;> cases h <;> exact capErrno_ne_zero _

/-- The part of `send` under the IPC lock: take a queued `recv` for this sender, or else one that
accepts anyone, or queue the message. -/
def sendLocked (ipc : IpcState) (tid pid dst : Nat) (msg : Message) :
    Option PendingRecv × IpcState :=
  match (takeFirst (fun r => r.recverPid = dst ∧ r.srcPid = pid) ipc.recvs).or
      (takeFirst (fun r => r.recverPid = dst ∧ r.srcPid = ipcAcceptAny) ipc.recvs) with
  | some (r, recvs) => (some r, { ipc with recvs := recvs })
  | none => (none, { ipc with sends := ipc.sends ++ [⟨tid, pid, dst, msg⟩] })

/-- The part of `recv` under the IPC lock: take a queued message of the source for this process,
or queue the request. -/
def recvLocked (ipc : IpcState) (tid pid src : Nat) : Option PendingSend × IpcState :=
  match takeFirst (fun s => s.senderPid = src ∧ s.dstPid = pid) ipc.sends with
  | some (s, sends) => (some s, { ipc with sends := sends })
  | none => (none, { ipc with recvs := ipc.recvs ++ [⟨tid, pid, src⟩] })

/-- The part of `purge_process` under the IPC lock: drop the entries that a dying process is a
party of, and return the threads of others that must be told so, with the code they get. -/
def purgeLocked (ipc : IpcState) (pid : Nat) : List (Nat × Nat) × IpcState :=
  let wakeRecvs := ipc.recvs.filter fun r => r.srcPid = pid ∧ r.recverPid ≠ pid
  let wakeSends := ipc.sends.filter fun s => s.dstPid = pid ∧ s.senderPid ≠ pid
  (wakeRecvs.map (fun r => (r.recverTid, sysErrEnoent)) ++
    wakeSends.map (fun s => (s.senderTid, sysErrEnoent)),
   { sends := (ipc.sends.filter fun s => s.dstPid ≠ pid).filter fun s => s.senderPid ≠ pid
     recvs := (ipc.recvs.filter fun r => r.srcPid ≠ pid).filter fun r => r.recverPid ≠ pid })

/-! ## What the sections do to the queues -/

section Sections

variable {α : Type} {p : α → Bool} {l rest : List α} {x : α}

theorem takeFirst_eq_none : takeFirst p l = none ↔ ∀ x ∈ l, p x = false := by
  simp [takeFirst]

/-- What is taken has the property, and the rest of the queue keeps its order. -/
theorem takeFirst_eq_some (h : takeFirst p l = some (x, rest)) :
    p x = true ∧ ∃ front back, l = front ++ x :: back ∧ rest = front ++ back := by
  simp only [takeFirst, Option.map_eq_some_iff, Prod.mk.injEq] at h
  obtain ⟨y, hfind, rfl, rfl⟩ := h
  have hy := List.find?_some hfind
  obtain ⟨z, front, back, hfront, hz, hl, herase⟩ :=
    List.exists_of_eraseP (List.mem_of_find?_eq_some hfind) hy
  have hyz : y = z := by
    have hnone : front.find? p = none := by
      rw [List.find?_eq_none]
      exact fun w hw => by simpa using hfront w hw
    rw [hl, List.find?_append, hnone, Option.none_or, List.find?_cons_of_pos hz] at hfind
    exact (Option.some.inj hfind).symm
  subst hyz
  exact ⟨hy, front, back, hl, herase⟩

variable {ipc ipc' : IpcState} {tid pid dst src : Nat} {msg : Message} {r : PendingRecv}
  {s : PendingSend}

/-- A `send` that finds a partner takes one that waits for it or for anyone. -/
theorem sendLocked_some (h : sendLocked ipc tid pid dst msg = (some r, ipc')) :
    r.recverPid = dst ∧ (r.srcPid = pid ∨ r.srcPid = ipcAcceptAny) ∧ ipc'.sends = ipc.sends ∧
      ∃ front back, ipc.recvs = front ++ r :: back ∧ ipc'.recvs = front ++ back := by
  rw [sendLocked] at h
  split at h
  · next r' recvs htake =>
    obtain ⟨hr, rfl⟩ := Prod.mk.inj h
    cases hr
    rcases Option.or_eq_some_iff.mp htake with hspecific | ⟨-, hany⟩
    · obtain ⟨hp, hlist⟩ := takeFirst_eq_some hspecific
      simp only [decide_eq_true_eq] at hp
      exact ⟨hp.1, .inl hp.2, rfl, hlist⟩
    · obtain ⟨hp, hlist⟩ := takeFirst_eq_some hany
      simp only [decide_eq_true_eq] at hp
      exact ⟨hp.1, .inr hp.2, rfl, hlist⟩
  · cases h

/-- A `send` that finds no partner is queued, and nobody waits for it. -/
theorem sendLocked_none (h : sendLocked ipc tid pid dst msg = (none, ipc')) :
    ipc' = { ipc with sends := ipc.sends ++ [⟨tid, pid, dst, msg⟩] } ∧
      ∀ r ∈ ipc.recvs, r.recverPid = dst → r.srcPid ≠ pid ∧ r.srcPid ≠ ipcAcceptAny := by
  rw [sendLocked] at h
  split at h
  · cases h
  · next htake =>
    obtain ⟨hspecific, hany⟩ := Option.or_eq_none_iff.mp htake
    rw [takeFirst_eq_none] at hspecific hany
    refine ⟨(Prod.mk.inj h).2.symm, fun r hr hdst => ⟨fun heq => ?_, fun heq => ?_⟩⟩
    · simpa [hdst, heq] using hspecific r hr
    · simpa [hdst, heq] using hany r hr

/-- A `recv` that finds a partner takes a message of its source to its process. -/
theorem recvLocked_some (h : recvLocked ipc tid pid src = (some s, ipc')) :
    s.senderPid = src ∧ s.dstPid = pid ∧ ipc'.recvs = ipc.recvs ∧
      ∃ front back, ipc.sends = front ++ s :: back ∧ ipc'.sends = front ++ back := by
  rw [recvLocked] at h
  split at h
  · next s' sends htake =>
    obtain ⟨hs, rfl⟩ := Prod.mk.inj h
    cases hs
    obtain ⟨hp, hlist⟩ := takeFirst_eq_some htake
    simp only [decide_eq_true_eq] at hp
    exact ⟨hp.1, hp.2, rfl, hlist⟩
  · cases h

/-- A `recv` that finds no partner is queued, and its source has no message waiting for it. -/
theorem recvLocked_none (h : recvLocked ipc tid pid src = (none, ipc')) :
    ipc' = { ipc with recvs := ipc.recvs ++ [⟨tid, pid, src⟩] } ∧
      ∀ s ∈ ipc.sends, s.dstPid = pid → s.senderPid ≠ src := by
  rw [recvLocked] at h
  split at h
  · cases h
  · next htake =>
    rw [takeFirst_eq_none] at htake
    refine ⟨(Prod.mk.inj h).2.symm, fun s hs hdst heq => ?_⟩
    simpa [hdst, heq] using htake s hs

end Sections

/-! ## Runs of calls -/

/-- A call as the queues see it. Other system calls change the capabilities between two calls, so
each call comes with the process table it finds. -/
inductive IpcOp where
  | send (table : ProcessTable) (tid pid slot : Nat) (msg : Message)
  | recv (table : ProcessTable) (tid pid slot : Nat)
  | purge (pid : Nat)
  deriving DecidableEq

/-- The effect of a call on the queues. A call whose capability does not resolve leaves them
alone. -/
def IpcState.step (ipc : IpcState) : IpcOp → Option IpcState
  | .send table tid pid slot msg =>
    match sendTarget table pid slot with
    | .ok dst => some (sendLocked ipc tid pid dst msg).2
    | .error _ => some ipc
  | .recv table tid pid slot =>
    match recvSource table pid slot with
    | .ok src => some (recvLocked ipc tid pid src).2
    | .error _ => some ipc
  | .purge pid => some (purgeLocked ipc pid).2

/-- An entry of the queues after a call was there before, or it was queued by the call, and then
nobody was waiting for it. -/
theorem step_entries {ipc ipc' : IpcState} {op : IpcOp} (h : ipc.step op = some ipc') :
    (∀ s ∈ ipc'.sends, s ∈ ipc.sends ∨ ipc'.recvs = ipc.recvs ∧ ∀ r ∈ ipc.recvs,
      r.recverPid = s.dstPid → r.srcPid ≠ s.senderPid ∧ r.srcPid ≠ ipcAcceptAny) ∧
    (∀ r ∈ ipc'.recvs, r ∈ ipc.recvs ∨ ipc'.sends = ipc.sends ∧
      (∀ s ∈ ipc.sends, s.dstPid = r.recverPid → s.senderPid ≠ r.srcPid) ∧
      ∃ table slot, op = .recv table r.recverTid r.recverPid slot ∧
        recvSource table r.recverPid slot = .ok r.srcPid) := by
  cases op with
  | send table tid pid slot msg =>
    rw [IpcState.step] at h
    split at h
    · next dst _ =>
      cases h
      rcases hsection : sendLocked ipc tid pid dst msg with ⟨taken, ipc'⟩
      cases taken with
      | none =>
        obtain ⟨rfl, hnobody⟩ := sendLocked_none hsection
        refine ⟨fun s hs => ?_, fun r hr => .inl hr⟩
        rcases List.mem_append.mp hs with hold | hnew
        · exact .inl hold
        · rw [List.mem_singleton] at hnew
          subst hnew
          exact .inr ⟨rfl, hnobody⟩
      | some r =>
        obtain ⟨-, -, hsends, front, back, hrecvs, hrest⟩ := sendLocked_some hsection
        refine ⟨fun s hs => .inl (hsends ▸ hs), fun r hr => .inl ?_⟩
        rw [hrecvs]
        rw [hrest] at hr
        simp only [List.mem_append, List.mem_cons] at hr ⊢
        tauto
    · cases h
      exact ⟨fun s hs => .inl hs, fun r hr => .inl hr⟩
  | recv table tid pid slot =>
    rw [IpcState.step] at h
    split at h
    · next src hsource =>
      cases h
      rcases hsection : recvLocked ipc tid pid src with ⟨taken, ipc'⟩
      cases taken with
      | none =>
        obtain ⟨rfl, hnobody⟩ := recvLocked_none hsection
        refine ⟨fun s hs => .inl hs, fun r hr => ?_⟩
        rcases List.mem_append.mp hr with hold | hnew
        · exact .inl hold
        · rw [List.mem_singleton] at hnew
          subst hnew
          exact .inr ⟨rfl, hnobody, table, slot, rfl, hsource⟩
      | some s =>
        obtain ⟨-, -, hrecvs, front, back, hsends, hrest⟩ := recvLocked_some hsection
        refine ⟨fun s hs => .inl ?_, fun r hr => .inl (hrecvs ▸ hr)⟩
        rw [hsends]
        rw [hrest] at hs
        simp only [List.mem_append, List.mem_cons] at hs ⊢
        tauto
    · cases h
      exact ⟨fun s hs => .inl hs, fun r hr => .inl hr⟩
  | purge pid =>
    cases h
    refine ⟨fun s hs => .inl ?_, fun r hr => .inl ?_⟩
    · exact List.mem_of_mem_filter (List.mem_of_mem_filter hs)
    · exact List.mem_of_mem_filter (List.mem_of_mem_filter hr)

/-- Two compatible parties wait at the same time only if the receiver listens to anyone and the
message was queued before the receiver called: a receiver that names the sender never waits
beside its message. -/
theorem no_pair_waits (ops : List IpcOp) (ipc : IpcState)
    (hrun : Machine.run IpcState.step IpcState.empty ops = some ipc)
    (s : PendingSend) (hs : s ∈ ipc.sends) (r : PendingRecv) (hr : r ∈ ipc.recvs)
    (hdst : r.recverPid = s.dstPid) :
    r.srcPid ≠ s.senderPid ∧
    (r.srcPid = ipcAcceptAny → ∃ first table slot rest before,
      ops = first ++ .recv table r.recverTid r.recverPid slot :: rest ∧
      recvSource table r.recverPid slot = .ok ipcAcceptAny ∧
      Machine.run IpcState.step IpcState.empty first = some before ∧ s ∈ before.sends) := by
  induction ops using List.reverseRecOn generalizing ipc with
  | nil =>
    cases hrun
    simp [IpcState.empty] at hs
  | append_singleton ops op ih =>
    rw [Machine.run_append] at hrun
    obtain ⟨before, hbefore, hlast⟩ := Option.bind_eq_some_iff.mp hrun
    have hstep : before.step op = some ipc := by simpa using hlast
    obtain ⟨hsends, hrecvs⟩ := step_entries hstep
    rcases hsends s hs with hs' | ⟨hsame, hnobody⟩
    · rcases hrecvs r hr with hr' | ⟨-, hnobody, table, slot, rfl, hsource⟩
      · -- Both were waiting before the last call.
        obtain ⟨hne, hlisten⟩ := ih before hbefore hs' hr'
        refine ⟨hne, fun hany => ?_⟩
        obtain ⟨first, table, slot, rest, u, hops, hsource, hu, hsu⟩ := hlisten hany
        exact ⟨first, table, slot, rest ++ [op], u, by simp [hops], hsource, hu, hsu⟩
      · refine ⟨fun heq => hnobody s hs' hdst.symm heq.symm, fun hany => ?_⟩
        exact ⟨ops, table, slot, [], before, rfl, by rw [← hany]; exact hsource, hbefore, hs'⟩
    · obtain ⟨hne, hany⟩ := hnobody r (hsame ▸ hr) hdst
      exact ⟨hne, fun h => absurd h hany⟩

/-- Process 0 may talk to process 1, whose slots are empty. -/
def clientTable : ProcessTable :=
  ⟨[⟨0, 0, Function.update (fun _ => none) ⟨0, by decide⟩ (some (.proc 1))⟩, ⟨1, 0, fun _ => none⟩], []⟩

/-- A listener that comes after a queued message waits beside it. -/
theorem listener_waits_beside_send :
    ∃ ipc, Machine.run IpcState.step IpcState.empty
        [.send clientTable 7 0 0 (.replicate 5 42), .recv clientTable 8 1 0] = some ipc ∧
      ∃ s ∈ ipc.sends, ∃ r ∈ ipc.recvs, r.recverPid = s.dstPid ∧
        (r.srcPid = s.senderPid ∨ r.srcPid = ipcAcceptAny) :=
  ⟨⟨[⟨7, 0, 1, .replicate 5 42⟩], [⟨8, 1, ipcAcceptAny⟩]⟩, by decide, by decide⟩

/-- The listener of that run does not name the sender, and the message was queued before it
called. -/
theorem no_pair_waits_listener :
    (⟨8, 1, ipcAcceptAny⟩ : PendingRecv).srcPid ≠
        (⟨7, 0, 1, .replicate 5 42⟩ : PendingSend).senderPid ∧
      (ipcAcceptAny = ipcAcceptAny → ∃ first table slot rest before,
        [IpcOp.send clientTable 7 0 0 (.replicate 5 42), .recv clientTable 8 1 0] =
          first ++ .recv table 8 1 slot :: rest ∧
        recvSource table 1 slot = .ok ipcAcceptAny ∧
        Machine.run IpcState.step IpcState.empty first = some before ∧
        (⟨7, 0, 1, .replicate 5 42⟩ : PendingSend) ∈ before.sends) :=
  no_pair_waits [.send clientTable 7 0 0 (.replicate 5 42), .recv clientTable 8 1 0]
    ⟨[⟨7, 0, 1, .replicate 5 42⟩], [⟨8, 1, ipcAcceptAny⟩]⟩ (by decide) ⟨7, 0, 1, .replicate 5 42⟩
    (by decide) ⟨8, 1, ipcAcceptAny⟩ (by decide) rfl

end Ignium.Ipc
