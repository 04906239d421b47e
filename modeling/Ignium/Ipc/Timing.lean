import Ignium.Ipc.Registers

/-!
# The outcome of a call does not depend on its timing

`TimingLaw` says with which registers a call returns that was paired: `a0` is zero, `sepc` is behind
the `ecall`, a receiver has the message in `a1` to `a5`, and all other registers are as they were. It
says the same for a partner that was queued, for one that came after the caller had blocked, and for one
that came in between.

The last case breaks it. The acknowledgement for a sender that has not blocked is recorded as a message
of zeros, and the sender writes it into its own registers (`not_timingLaw`). `always_timingLaw` proves
the law for the runs in which every sender has blocked when its acknowledgement comes, or has sent
zeros (`AcksBlocked`).
-/

namespace Ignium.Ipc

open Kernel Sched
open Function (update_self update_of_ne)

namespace Registers

/-- The registers after a call that succeeded, against those before it. -/
structure Succeeded (entry : TrapFrame) (args : Message) (frame : TrapFrame) : Prop where
  a0 : frame.get xA0 = 0
  args : frameMessage frame = args
  sepc : frame.get frameSepc = entry.get frameSepc + 4
  others : ∀ j, j ≠ xA0 → j ≠ frameSepc → (∀ k : Fin msgWords, j.val ≠ xA1.val + k.val) →
    frame.get j = entry.get j

/-- What a call that was paired returns with. -/
structure TimingLaw (w : World) : Prop where
  sent : ∀ ret ∈ w.returned, ret.sent = true → (∃ h ∈ w.handed, h.1.id = ret.id) →
    Succeeded ret.entry (frameMessage ret.entry) ret.frame
  received : ∀ ret ∈ w.returned, ret.sent = false → ∀ h ∈ w.handed, h.2.id = ret.id →
    ∃ dst msg, h.1.req = .send dst msg ∧ Succeeded ret.entry msg ret.frame

/-- A sender has blocked when it is acknowledged, or it has sent zeros. -/
def AcksBlocked (w : World) : Op → Prop
  | .wakeSection tid =>
    match (w.tasks tid).phase with
    | .waking _ target none _ => (w.tasks target).thread.state = .blocked ∨
        frameMessage (w.tasks target).live = .replicate msgWords 0
    | _ => True
  | _ => True

/-- No call has been made yet. -/
def Initial (w : World) : Prop := w.view.Initial

/-! ## The invariant -/

/-- What the frames of a thread hold, given which calls the other threads are queued for. The result of
a call has a message exactly if the call is a `recv`. -/
def Holds (queued : Nat → Option Call) (task : Task) : Prop :=
  match task.phase with
  | .user => True
  | .resolved _ => task.live = task.entry
  | .waking call target msg reply => task.live = task.entry ∧ (reply = none ↔ call.isSend = true) ∧
      ∀ peer, queued target = some peer → (msg = none ↔ peer.isSend = true)
  | .parked call => task.live = task.entry ∧ ∀ words, task.thread.ipcWake = some (.msg words) →
      call.isSend = true → words = frameMessage task.entry
  | .asleep call => (task.thread.state = .blocked → task.thread.frame = task.entry) ∧
      (task.thread.state = .ready → ∃ msg, task.thread.frame = doneFrame task.entry msg ∧
        (msg = none ↔ call.isSend = true))

/-- What the registers of a call that came back with success hold. -/
def Good (ret : Returned) : Prop :=
  ret.frame.get xA0 = 0 → ret.frame =
    doneFrame ret.entry (if ret.sent then none else some (frameMessage ret.frame))

/-- The calls that the threads are queued for. -/
def World.queued (w : World) (tid : Nat) : Option Call := (w.tasks tid).phase.queued

/-- The invariant of the frames. -/
structure Exact (w : World) : Prop where
  tasks : ∀ tid, Holds w.queued (w.tasks tid)
  returned : ∀ ret ∈ w.returned, Good ret

section Invariant

variable {w w' : World} {tid : Nat} {op : Op} {stage : Nat → Stage} {frame : TrapFrame}
  {msg : Option Message}

theorem frameMessage_done : frameMessage (doneFrame frame msg) = msg.getD (frameMessage frame) :=
  congrArg Frame.args viewFrame_done

/-- What a successful call has written. -/
theorem succeeded_done (frame : TrapFrame) (msg : Option Message) :
    Succeeded frame (msg.getD (frameMessage frame)) (doneFrame frame msg) where
  a0 := congrArg Frame.a0 viewFrame_done
  args := frameMessage_done
  sepc := congrArg Frame.sepc viewFrame_done
  others j ha0 hsepc hargs := by
    have hput : (frame.put xA0 0).get j = frame.get j := by rw [get_put, if_neg (Ne.symm ha0)]
    unfold doneFrame
    dsimp only
    rw [get_skipEcall, if_neg (Ne.symm hsepc)]
    cases msg with
    | none => exact hput
    | some words =>
      have hslot : ¬ (10 ≤ j.val ∧ j.val - 10 < msgWords) := by
        rintro ⟨hlow, hhigh⟩
        exact hargs ⟨j.val - 10, hhigh⟩ (Nat.add_sub_cancel' hlow).symm
      dsimp only
      rw [get_putAll, dif_neg hslot, hput]

theorem Good.done (id : CallId) {sent : Bool} (hmsg : msg = none ↔ sent = true) :
    Good ⟨id, sent, frame, doneFrame frame msg⟩ := by
  intro _
  dsimp only
  rw [frameMessage_done]
  cases msg with
  | none => rw [if_pos (hmsg.mp rfl)]
  | some words =>
    rw [if_neg fun hsent => by cases hmsg.mpr hsent]
    rfl

theorem Holds.mono {queued queued' : Nat → Option Call} {task : Task} (hs : Holds queued task)
    (hqueued : ∀ c target m reply, task.phase = .waking c target m reply → ∀ peer,
      queued' target = some peer → queued target = some peer ∨ (m = none ↔ peer.isSend = true)) :
    Holds queued' task := by
  unfold Holds at hs ⊢
  cases hphase : task.phase with
  | waking c target m reply =>
    rw [hphase] at hs
    obtain ⟨hlive, hreply, hpeer⟩ := hs
    refine ⟨hlive, hreply, fun peer hp => ?_⟩
    rcases hqueued c target m reply hphase peer hp with hold | hmsg
    · exact hpeer peer hold
    · exact hmsg
  | _ =>
    rw [hphase] at hs
    exact hs

/-- A step changes one thread. If the thread gets queued, those that are about to wake it know for
what. -/
theorem Exact.update (tid : Nat) (hs : Exact w) (htasks : ∀ x, x ≠ tid → w'.tasks x = w.tasks x)
    (hself : Holds w'.queued (w'.tasks tid))
    (hqueued : ∀ peer, w'.queued tid = some peer → w.queued tid = some peer ∨
      ∀ x c m reply, x ≠ tid → (w.tasks x).phase = .waking c tid m reply →
        (m = none ↔ peer.isSend = true))
    (hreturned : ∀ ret ∈ w'.returned, ret ∈ w.returned ∨ Good ret) : Exact w' := by
  refine ⟨fun x => ?_, fun ret hret => ?_⟩
  · by_cases hx : x = tid
    · exact hx ▸ hself
    · rw [htasks x hx]
      refine (hs.tasks x).mono fun c target m reply hphase peer hpeer => ?_
      by_cases htarget : target = tid
      · subst htarget
        exact (hqueued peer hpeer).imp_right fun hwaker => hwaker x c m reply hx hphase
      · unfold World.queued at hpeer
        rw [htasks target htarget] at hpeer
        exact .inl hpeer
  · exact (hreturned ret hret).elim (hs.returned ret) id

/-- A thread leaves its call, or is not in one. -/
theorem Exact.outside (tid : Nat) (hs : Exact w) (htasks : ∀ x, x ≠ tid → w'.tasks x = w.tasks x)
    (hphase : (w'.tasks tid).phase = .user)
    (hreturned : ∀ ret ∈ w'.returned, ret ∈ w.returned ∨ Good ret) : Exact w' := by
  refine hs.update tid htasks ?_ (fun peer hpeer => ?_) hreturned
  · unfold Holds
    rw [hphase]
    trivial
  · unfold World.queued at hpeer
    rw [hphase] at hpeer
    cases hpeer

theorem setTask_self {task : Task} : (w.setTask tid task).tasks tid = task := update_self _ _ _

theorem Exact.finish (hs : Exact w) {call : Call} {thread : Thread}
    (hmsg : msg = none ↔ call.isSend = true) :
    Exact (w.finish tid call thread (doneFrame (w.tasks tid).entry msg)) := by
  have hothers : ∀ x, x ≠ tid →
      (w.finish tid call thread (doneFrame (w.tasks tid).entry msg)).tasks x = w.tasks x :=
    fun x hx => update_of_ne hx _ _
  refine hs.outside tid hothers (congrArg Task.phase setTask_self) fun ret hret => ?_
  refine (List.mem_append.mp hret).imp_right fun hnew => ?_
  rw [List.mem_singleton.mp hnew]
  exact Good.done _ hmsg

theorem Exact.enter (hs : Exact w) {sent : Bool} {req : Except Nat Request}
    (hphase : (w.tasks tid).phase = .user) (hcode : ∀ code, req = .error code → code ≠ 0) :
    Exact (w.enter tid frame sent req) := by
  cases req with
  | error code =>
    refine hs.outside tid (fun x hx => update_of_ne hx _ _) ?_ fun ret hret => ?_
    · exact (congrArg Task.phase setTask_self).trans hphase
    · refine (List.mem_append.mp hret).imp_right fun hnew => ?_
      obtain rfl := List.mem_singleton.mp hnew
      have ha0 : (failedFrame frame code)[xA0] = code := congrArg Frame.a0 viewFrame_failed
      exact fun hzero => absurd (ha0.symm.trans hzero) (hcode code rfl)
  | ok req =>
    have hself : (w.enter tid frame sent (.ok req)).tasks tid = _ := setTask_self
    refine hs.update tid (fun x hx => update_of_ne hx _ _) ?_ (fun peer hpeer => ?_)
      fun ret hret => .inl hret
    · unfold Holds
      rw [hself]
    · unfold World.queued at hpeer
      rw [hself] at hpeer
      cases hpeer

/-- A thread in a queue is queued for its call. -/
theorem queued_of_stage (htracks : Tracks w.view stage) {x : Nat} {c : Call}
    (hstage : stage x = .waiting c ∨ ∃ y, stage x = .paired c y) : w.queued x = some c := by
  have hfits := htracks.fits x
  have hqueued : Queued (w.view.tasks x) c := by
    rcases hstage with hst | ⟨y, hst⟩
    · rw [hst] at hfits
      exact hfits.1
    · rw [hst] at hfits
      exact hfits.1
  rcases hqueued with ⟨hphase, -⟩ | ⟨hphase, -⟩
  · exact congrArg Phase.queued hphase
  · exact congrArg Phase.queued hphase

/-- The section under the IPC lock finds a partner. -/
theorem Exact.pair (hs : Exact w) {call : Call} {target : Nat} {reply : Option Message} {peer : Call}
    (hphase : (w.tasks tid).phase = .resolved call) (htarget : w.queued target = some peer)
    (hreply : reply = none ↔ call.isSend = true) (hmsg : msg = none ↔ peer.isSend = true)
    (htasks : w'.tasks = Function.update w.tasks tid
      { w.tasks tid with phase := .waking call target msg reply })
    (hreturned : w'.returned = w.returned) : Exact w' := by
  have hself : w'.tasks tid = { w.tasks tid with phase := .waking call target msg reply } := by
    rw [htasks, update_self]
  have hothers : ∀ x, x ≠ tid → w'.tasks x = w.tasks x := fun x hx => by
    rw [htasks, update_of_ne hx]
  have hold := hs.tasks tid
  unfold Holds at hold
  rw [hphase] at hold
  have hne : target ≠ tid := by
    rintro rfl
    unfold World.queued at htarget
    rw [hphase] at htarget
    cases htarget
  refine hs.update tid hothers ?_ (fun c hc => ?_) fun ret hret => .inl (hreturned ▸ hret)
  · unfold Holds
    rw [hself]
    refine ⟨hold, hreply, fun c hc => ?_⟩
    unfold World.queued at hc
    rw [hothers target hne] at hc
    rw [Option.some.inj (hc.symm.trans htarget)]
    exact hmsg
  · unfold World.queued at hc
    rw [hself] at hc
    cases hc

/-- The section under the IPC lock finds nobody. -/
theorem Exact.park (hs : Exact w) (htracks : Tracks w.view stage) {call : Call}
    (hphase : (w.tasks tid).phase = .resolved call)
    (htasks : w'.tasks = Function.update w.tasks tid { w.tasks tid with phase := .parked call })
    (hreturned : w'.returned = w.returned) : Exact w' := by
  have hstage : stage tid = .resolved call := htracks.stage_of_resolved hphase
  have hfits := htracks.fits tid
  rw [hstage] at hfits
  obtain ⟨-, -, hwake, -⟩ := hfits
  have hself : w'.tasks tid = { w.tasks tid with phase := .parked call } := by
    rw [htasks, update_self]
  have hold := hs.tasks tid
  unfold Holds at hold
  rw [hphase] at hold
  refine hs.update tid (fun x hx => ?_) ?_
    (fun c hc => .inr fun x c' m reply hx hwaking => ?_) fun ret hret => .inl (hreturned ▸ hret)
  · rw [htasks, update_of_ne hx]
  · unfold Holds
    rw [hself]
    refine ⟨hold, fun words hwords => ?_⟩
    have hnone : (w.tasks tid).thread.ipcWake = none := hwake
    rw [hnone] at hwords
    cases hwords
  · -- A thread that is about to be woken is queued, not about to enter a queue.
    obtain ⟨c'', hpaired⟩ := htracks.wakers x c' tid (htracks.stage_of_waking hwaking)
    rw [hstage] at hpaired
    cases hpaired

theorem Exact.ipcSection (hs : Exact w) (htracks : Tracks w.view stage) {call : Call}
    (hphase : (w.tasks tid).phase = .resolved call) : Exact (w.ipcSection tid call) := by
  unfold World.ipcSection
  cases hreq : call.req with
  | send dst words =>
    have hsend : call.isSend = true := by
      unfold Call.isSend
      rw [hreq]
    dsimp only
    rcases hlocked : sendLocked w.ipc tid call.pid dst words with ⟨_ | r, ipc⟩
    · exact hs.park htracks hphase rfl rfl
    · obtain ⟨-, -, -, front, back, hrecvs, -⟩ := sendLocked_some hlocked
      have hin : r ∈ w.ipc.recvs := hrecvs ▸ List.mem_append_right _ List.mem_cons_self
      obtain ⟨c, hst, -, hrecv⟩ := (htracks.recvs r).mp hin
      have hpeer : c.isSend = false := by
        unfold Call.isSend
        rw [hrecv]
      exact hs.pair hphase (queued_of_stage htracks (.inl hst)) (by simp [hsend]) (by simp [hpeer])
        rfl rfl
  | recv src =>
    have hrecv : call.isSend = false := by
      unfold Call.isSend
      rw [hreq]
    dsimp only
    rcases hlocked : recvLocked w.ipc tid call.pid src with ⟨_ | r, ipc⟩
    · exact hs.park htracks hphase rfl rfl
    · obtain ⟨-, -, -, front, back, hsends, -⟩ := recvLocked_some hlocked
      have hin : r ∈ w.ipc.sends := hsends ▸ List.mem_append_right _ List.mem_cons_self
      obtain ⟨c, hst, -, hsend⟩ := (htracks.sends r).mp hin
      have hpeer : c.isSend = true := by
        unfold Call.isSend
        rw [hsend]
      exact hs.pair hphase (queued_of_stage htracks (.inl hst)) (by simp [hrecv]) (by simp [hpeer])
        rfl rfl

/-- The result reaches a thread in its queue. -/
theorem Exact.wake (hs : Exact w) (htracks : Tracks w.view stage) {call : Call} {target : Nat}
    {reply : Option Message} (hphase : (w.tasks tid).phase = .waking call target msg reply)
    (hacks : AcksBlocked w (.wakeSection tid)) : Exact (w.wake target msg) := by
  obtain ⟨c, hpaired⟩ := htracks.wakers tid call target (htracks.stage_of_waking hphase)
  have hqueued := queued_of_stage htracks (.inr ⟨tid, hpaired⟩)
  have hwaker := hs.tasks tid
  unfold Holds at hwaker
  rw [hphase] at hwaker
  have hmsg := hwaker.2.2 c hqueued
  have hfits := htracks.fits target
  rw [hpaired] at hfits
  have hhold := hs.tasks target
  have hself : (w.wake target msg).tasks target =
      { w.tasks target with thread := ipcWakeWithMsg (w.tasks target).thread msg } :=
    update_self _ _ _
  refine hs.update target (fun x hx => update_of_ne hx _ _) ?_
    (fun peer hpeer => .inl ?_) fun ret hret => .inl hret
  · unfold Holds at hhold ⊢
    rw [hself]
    dsimp only
    rcases hfits.1 with ⟨hparked, hrunning⟩ | ⟨hasleep, hblocked⟩
    · have hparked' : (w.tasks target).phase = .parked c := hparked
      have hrunning' : (w.tasks target).thread.state = .running := hrunning
      rw [hparked'] at hhold ⊢
      refine ⟨hhold.1, fun words hwords hsend => ?_⟩
      rw [ipcWakeWithMsg, if_pos (by simp [hrunning'])] at hwords
      -- The acknowledgement of a sender is recorded as a message of zeros.
      have hnone : msg = none := hmsg.mpr hsend
      subst hnone
      unfold AcksBlocked at hacks
      dsimp only at hacks
      rw [hphase] at hacks
      have hzeros := hacks.resolve_left (by simp [hrunning'])
      rw [hhold.1] at hzeros
      rw [hzeros]
      exact (IpcWake.msg.inj (Option.some.inj hwords)).symm
    · have hasleep' : (w.tasks target).phase = .asleep c := hasleep
      have hblocked' : (w.tasks target).thread.state = .blocked := hblocked
      rw [hasleep'] at hhold ⊢
      rw [ipcWakeWithMsg, if_neg (by simp [hblocked'])]
      refine ⟨fun hstate => absurd hstate ?_, fun _ => ⟨msg, ?_, hmsg⟩⟩
      · exact fun hready => by cases hready
      · rw [← hhold.1 hblocked']
  · unfold World.queued at hpeer ⊢
    rw [hself] at hpeer
    exact hpeer

theorem Exact.step (hs : Exact w) (htracks : Tracks w.view stage) (hacks : AcksBlocked w op)
    (hstep : w.step op = some w') : Exact w' := by
  cases op with
  | ecall tid frame =>
    obtain ⟨⟨hphase, -⟩, hhandle⟩ := Option.ite_none_right_eq_some.mp hstep
    unfold World.handle at hhandle
    dsimp only at hhandle
    split at hhandle
    · cases hhandle
      refine hs.enter hphase fun code hcode => ?_
      cases htarget : sendTarget w.table (w.tasks tid).thread.proc (frame.get xA0) with
      | error e =>
        rw [htarget] at hcode
        exact Except.error.inj hcode ▸ sendTarget_error htarget
      | ok dst =>
        rw [htarget] at hcode
        cases hcode
    · obtain ⟨-, ⟨⟩⟩ := Option.ite_none_right_eq_some.mp hhandle
      refine hs.enter hphase fun code hcode => ?_
      cases hsource : recvSource w.table (w.tasks tid).thread.proc (frame.get xA0) with
      | error e =>
        rw [hsource] at hcode
        exact Except.error.inj hcode ▸ recvSource_error hsource
      | ok src =>
        rw [hsource] at hcode
        cases hcode
  | ipcSection tid =>
    unfold World.step at hstep
    dsimp only at hstep
    cases hphase : (w.tasks tid).phase with
    | resolved call =>
      rw [hphase] at hstep
      cases hstep
      exact hs.ipcSection htracks hphase
    | _ =>
      rw [hphase] at hstep
      cases hstep
  | wakeSection tid =>
    unfold World.step at hstep
    dsimp only at hstep
    cases hphase : (w.tasks tid).phase with
    | waking call target msg reply =>
      rw [hphase] at hstep
      cases hstep
      have hne : tid ≠ target := by
        rintro rfl
        obtain ⟨c, hpaired⟩ := htracks.wakers tid call tid (htracks.stage_of_waking hphase)
        rw [htracks.stage_of_waking hphase] at hpaired
        cases hpaired
      have hwoken := hs.wake htracks hphase hacks
      have htask : (w.wake target msg).tasks tid = w.tasks tid := update_of_ne hne _ _
      have hhold := hs.tasks tid
      unfold Holds at hhold
      rw [hphase] at hhold
      rw [htask, hhold.1, ← htask]
      exact hwoken.finish hhold.2.1
    | _ =>
      rw [hphase] at hstep
      cases hstep
  | blockSection tid =>
    unfold World.step at hstep
    dsimp only at hstep
    cases hphase : (w.tasks tid).phase with
    | parked call =>
      rw [hphase] at hstep
      have hhold := hs.tasks tid
      unfold Holds at hhold
      rw [hphase] at hhold
      unfold blockUserFromTrap at hstep
      rcases hwake : (w.tasks tid).thread.ipcWake with _ | ⟨words | code⟩
      · rw [hwake] at hstep
        cases hstep
        refine hs.update tid (fun x hx => update_of_ne hx _ _) ?_
          (fun peer hpeer => .inl ?_) fun ret hret => .inl hret
        · unfold Holds
          rw [setTask_self]
          exact ⟨fun _ => hhold.1, fun hready => by cases hready⟩
        · unfold World.queued at hpeer ⊢
          rw [setTask_self] at hpeer
          rw [hphase]
          exact hpeer
      · rw [hwake] at hstep
        cases hstep
        rw [hhold.1]
        cases hsend : call.isSend with
        | true =>
          rw [hhold.2 words hwake hsend, doneFrame_own]
          exact hs.finish (by simp [hsend])
        | false => exact hs.finish (by simp [hsend])
      · obtain ⟨-, words, hmsg, -⟩ := htracks.woken_of_parked hphase hwake
        cases hmsg
    | _ =>
      rw [hphase] at hstep
      cases hstep
  | preempt tid =>
    obtain ⟨⟨hphase, -⟩, rfl⟩ := Option.ite_some_none_eq_some.mp hstep
    refine hs.outside tid (fun x hx => update_of_ne hx _ _) ?_
      fun ret hret => .inl hret
    exact (congrArg Task.phase setTask_self).trans hphase
  | resume tid =>
    unfold World.step at hstep
    dsimp only at hstep
    obtain ⟨hready, hstep⟩ := Option.ite_none_right_eq_some.mp hstep
    by_cases hasleep : ∃ call, (w.tasks tid).phase = .asleep call
    · obtain ⟨call, hphase⟩ := hasleep
      rw [hphase] at hstep
      cases hstep
      have hhold := hs.tasks tid
      unfold Holds at hhold
      rw [hphase] at hhold
      obtain ⟨msg, hframe, hmsg⟩ := hhold.2 hready
      rw [hframe]
      exact hs.finish hmsg
    · have hphase : (w.tasks tid).phase = .user :=
        htracks.user_of_ready hready fun c hc => hasleep ⟨c, hc⟩
      rw [hphase] at hstep
      cases hstep
      refine hs.outside tid (fun x hx => update_of_ne hx _ _) ?_
        fun ret hret => .inl hret
      exact congrArg Task.phase setTask_self
  | setTable table =>
    cases hstep
    exact ⟨hs.tasks, hs.returned⟩

/-! ## The law -/

theorem Exact.timingLaw (hs : Exact w) (htracks : Tracks w.view stage) : TimingLaw w := by
  refine ⟨fun ret hret hsent hpaired => ?_, fun ret hret hsent p hp hid => ?_⟩
  · have hvalid := htracks.returns ret.view (List.mem_map_of_mem hret)
    have ha0 : ret.frame.get xA0 = 0 := (hvalid.1 hsent).mpr hpaired
    rw [hs.returned ret hret ha0, if_pos hsent]
    exact succeeded_done ret.entry none
  · have hvalid := (htracks.returns ret.view (List.mem_map_of_mem hret)).2 hsent
    have ha0 : ret.frame.get xA0 = 0 := hvalid.1.mpr ⟨p, hp, hid⟩
    obtain ⟨dst, hreq⟩ := hvalid.2 p hp hid
    refine ⟨dst, frameMessage ret.frame, hreq, ?_⟩
    have hframe := hs.returned ret hret ha0
    rw [if_neg (by simp [hsent])] at hframe
    have hdone := succeeded_done ret.entry (some (frameMessage ret.frame))
    rw [← hframe] at hdone
    exact hdone

theorem Exact.init (hinit : Initial w) : Exact w := by
  refine ⟨fun tid => ?_, fun ret hret => ?_⟩
  · have hphase : (w.tasks tid).phase = .user := (hinit.tasks tid).1
    unfold Holds
    rw [hphase]
    trivial
  · have hnone : w.returned = [] := List.map_eq_nil_iff.mp hinit.returned
    rw [hnone] at hret
    cases hret

/-- Whatever calls the threads make and however their steps interleave: if every sender has blocked when
it is acknowledged, or has sent zeros, the registers after a call do not depend on when its partner
came. -/
theorem always_timingLaw (w : World) (ops : List Op) (hinit : Initial w)
    (hops : Machine.Each World.step w ops AcksBlocked) :
    Machine.Always World.step w ops TimingLaw := by
  have halways : Machine.Always World.step w ops fun w => Exact w ∧ ∃ stage, Tracks w.view stage :=
    Machine.always_of_each ⟨.init hinit, _, .init hinit⟩
      (fun _ _ _ ⟨hexact, _, htracks⟩ hstep hacks =>
        ⟨hexact.step htracks hacks hstep, htracks.step (step_view hstep)⟩) hops
  intro first rest w' hsplit hrun
  obtain ⟨hexact, stage, htracks⟩ := halways first rest w' hsplit hrun
  exact hexact.timingLaw htracks

end Invariant

instance (w : World) : ∀ op, Decidable (AcksBlocked w op)
  | .wakeSection tid => by
    unfold AcksBlocked
    dsimp only
    split
    · infer_instance
    · infer_instance
  | .ecall .. | .ipcSection .. | .blockSection .. | .preempt .. | .resume .. | .setTable .. =>
    inferInstanceAs (Decidable True)

/-- Two processes that may talk to each other, with one running thread each. -/
def mutualStart : World where
  table := ⟨[⟨0, 0, fun slot => [Cap.proc 1][slot.val]?⟩, ⟨1, 0, fun slot => [Cap.proc 0][slot.val]?⟩], []⟩
  ipc := .empty
  tasks tid := ⟨⟨tid, .running, .zero, none, none⟩, .zero, .user, 0, .zero⟩
  handed := []
  returned := []

/-- The registers of a call over slot 0. -/
def callFrame (number : Nat) (words : Message) : TrapFrame :=
  (TrapFrame.zero.put xA7 number).putAll xA1 words

/-- Thread 0 sends, and thread 1 receives `between` the queueing of thread 0 and the steps in `after`. -/
def timingOps (between after : List Op) : List Op :=
  [.ecall 0 (callFrame syscallIpcSend (.replicate 5 42)), .ipcSection 0] ++ between ++
    [.ecall 1 (callFrame syscallIpcRecv (.replicate 5 0)), .ipcSection 1, .wakeSection 1] ++ after

/-- Thread 0 has blocked before thread 1 receives. -/
theorem always_timingLaw_blocked : ∃ w,
    Machine.run World.step mutualStart (timingOps [.blockSection 0] [.resume 0]) = some w ∧
      TimingLaw w ∧ w.returned.map (fun ret => (ret.sent, frameMessage ret.frame)) =
        [(false, .replicate 5 42), (true, .replicate 5 42)] := by
  have hmeets : Machine.meets World.step (fun w op => decide (AcksBlocked w op)) mutualStart
      (timingOps [.blockSection 0] [.resume 0]) = true := by decide +kernel
  have hinit : Initial mutualStart := ⟨rfl, fun _ => ⟨rfl, .inr rfl, rfl, rfl⟩, rfl, rfl⟩
  obtain ⟨w, hrun, hreturned⟩ : ∃ w,
      Machine.run World.step mutualStart (timingOps [.blockSection 0] [.resume 0]) = some w ∧
        decide (w.returned.map (fun ret => (ret.sent, frameMessage ret.frame)) =
          [(false, .replicate 5 42), (true, .replicate 5 42)]) = true :=
    Option.map_eq_some_iff.mp (by decide +kernel)
  have hlaw := always_timingLaw _ _ hinit (Machine.each_of_meets (fun _ _ => of_decide_eq_true) hmeets)
  exact ⟨w, hrun, hlaw _ [] w (List.append_nil _).symm hrun, of_decide_eq_true hreturned⟩

/-- Thread 1 receives before thread 0 could block, and thread 0 loses the words that it sent. -/
theorem not_timingLaw : ∃ w,
    Machine.run World.step mutualStart (timingOps [] [.blockSection 0]) = some w ∧ ¬ TimingLaw w := by
  obtain ⟨w, hrun, hstate⟩ : ∃ w,
      Machine.run World.step mutualStart (timingOps [] [.blockSection 0]) = some w ∧
        decide (∃ ret ∈ w.returned, ret.sent = true ∧ (∃ h ∈ w.handed, h.1.id = ret.id) ∧
          frameMessage ret.frame ≠ frameMessage ret.entry) = true :=
    Option.map_eq_some_iff.mp (by decide +kernel)
  obtain ⟨ret, hret, hsent, hpaired, hwords⟩ := of_decide_eq_true hstate
  exact ⟨w, hrun, fun hlaw => hwords (hlaw.sent ret hret hsent hpaired).args⟩

end Registers

end Ignium.Ipc
