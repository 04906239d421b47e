import Ignium.Ipc.Stages

/-!
# Every message is delivered exactly once

Every step of the threads moves the stages along (`Tracks.step`), so every reachable world has a
stage for every thread. `ipc_exactly_once` reads off what that means for the messages: each one is
handed over at most once, to the process its sender named; calls return with success exactly if
they were paired; and a thread has an entry in the queues exactly while it waits.
-/

namespace Ignium.Ipc

open Kernel Sched
open Function (update_self update_of_ne)

section Steps

variable {w w' : World} {stage : Nat → Stage} {tid : Nat} {c : Call}

namespace Tracks

section

variable (h : Tracks w stage)
include h

/-- A thread in user mode is outside any call. -/
theorem stage_of_user (hphase : (w.tasks tid).phase = .user) :
    stage tid = .outside := by
  have hfits := h.fits tid
  cases hst : stage tid with
  | outside => rfl
  | _ =>
    rw [hst] at hfits
    simp [Fits, Queued, hphase] at hfits

theorem stage_of_resolved (hphase : (w.tasks tid).phase = .resolved c) :
    stage tid = .resolved c := by
  have hfits := h.fits tid
  cases hst : stage tid with
  | resolved c' =>
    rw [hst] at hfits
    rw [Phase.resolved.inj (hphase.symm.trans hfits.1)]
  | _ =>
    rw [hst] at hfits
    simp [Fits, Queued, hphase] at hfits

/-- No call that was handed over has the name of a thread's next call. -/
theorem next_unserved {p : Call × Call} (hp : p ∈ w.handed) :
    p.1.id ≠ ⟨tid, (w.tasks tid).calls⟩ ∧ p.2.id ≠ ⟨tid, (w.tasks tid).calls⟩ := by
  obtain ⟨⟨hfst, -⟩, ⟨hsnd, -⟩, -⟩ := h.pairs p hp
  constructor
  · intro heq
    rw [heq] at hfst
    exact Nat.lt_irrefl _ hfst
  · intro heq
    rw [heq] at hsnd
    exact Nat.lt_irrefl _ hsnd

/-- A system call starts; an error comes back at once, with a code that is not zero. -/
theorem enter {live : Frame} {sent : Bool} {req : Except Nat Request}
    (hphase : (w.tasks tid).phase = .user) (hstate : (w.tasks tid).thread.state = .running)
    (hcode : ∀ code, req = .error code → code ≠ 0) :
    ∃ stage', Tracks (w.enter tid live sent req) stage' := by
  have hst := h.stage_of_user hphase
  have hfits := h.fits tid
  rw [hst] at hfits
  obtain ⟨-, -, hwake⟩ := hfits
  have hself : ∀ task : Task, (w.setTask tid task).tasks tid = task :=
    fun task => update_self _ _ _
  cases req with
  | error code =>
    refine ⟨_, h.move .outside _ rfl rfl rfl rfl rfl (Nat.le_succ _) (by simp [hst])
      (by simp) (by simp [hst]) (by simp [hst]) ?_ (by simp [Stage.call]) (fun ret hret => ?_)
      (by simp [Stage.call])⟩
    · rw [Fits]
      simp only [World.enter, hself]
      exact ⟨hphase, .inr hstate, hwake⟩
    · obtain rfl := List.mem_singleton.mp hret
      have hcode' : code ≠ 0 := hcode code rfl
      refine ⟨⟨fun _ => ⟨fun ha0 => absurd ha0 hcode', ?_⟩,
        fun _ => ⟨⟨fun ha0 => absurd ha0 hcode', ?_⟩, ?_⟩⟩, rfl, Nat.lt_succ_self _⟩
      · intro hex
        obtain ⟨p, hp, hid⟩ := hex
        exact absurd hid (h.next_unserved hp).1
      · intro hex
        obtain ⟨p, hp, hid⟩ := hex
        exact absurd hid (h.next_unserved hp).2
      · intro p hp hid
        exact absurd hid (h.next_unserved hp).2
  | ok req =>
    refine ⟨_, h.move (.resolved ⟨⟨tid, (w.tasks tid).calls⟩, (w.tasks tid).thread.proc,
      req⟩) [] rfl rfl rfl (List.append_nil _).symm rfl (Nat.le_succ _) (by simp [hst])
      (by simp) (by simp [hst]) (by simp [hst]) ?_ ?_ (by simp) ?_⟩
    · rw [Fits]
      simp only [World.enter, hself]
      exact ⟨trivial, hstate, hwake, fun p hp => h.next_unserved hp⟩
    · intro c hc
      cases hc
      exact ⟨rfl, rfl, rfl⟩
    · intro ret hret htid c hc heq
      cases hc
      have hlt := (h.closed ret (by simpa using hret)).1
      rw [← heq] at hlt
      exact Nat.lt_irrefl _ hlt

theorem queued_of_waiting {x : Nat} (hst : stage x = .waiting c) :
    (w.tasks x).phase.queued = some c := by
  have hfits := h.fits x
  rw [hst] at hfits
  rcases hfits.1 with ⟨hphase, -⟩ | ⟨hphase, -⟩
  · rw [hphase]; rfl
  · rw [hphase]; rfl

theorem made_of_call {x : Nat} (hc : (stage x).call = some c) :
    Made w c := by
  obtain ⟨htid, hnumber, hpid⟩ := h.named x c hc
  rw [Made, htid]
  exact ⟨Nat.lt_of_succ_le hnumber.le, hpid⟩

/-- A `send` in its section under the IPC lock. -/
theorem section_send {dst : Nat} {words : Message}
    (hphase : (w.tasks tid).phase = .resolved c) (hreq : c.req = .send dst words) :
    ∃ stage', Tracks (w.ipcSection tid c) stage' := by
  have hst := h.stage_of_resolved hphase
  have hcall : (stage tid).call = some c := by rw [hst]; rfl
  rcases hlocked : sendLocked w.ipc tid c.pid dst words with ⟨_ | r, ipc⟩
  · have hw : w.ipcSection tid c =
        { w.setTask tid { w.tasks tid with phase := .parked c } with ipc := ipc } := by
      simp only [World.ipcSection, hreq, hlocked]
    obtain ⟨rfl, -⟩ := sendLocked_none hlocked
    rw [hw]
    refine ⟨_, h.park rfl rfl rfl hst (fun s => ?_) (fun r => ?_) ⟨?_, h.recvs_nodup⟩⟩
    · simp only [List.mem_append, List.mem_singleton, hreq, Request.send.injEq]
      refine or_congr_right ⟨?_, ?_⟩
      · intro hs
        subst hs
        exact ⟨rfl, rfl, rfl, rfl⟩
      · intro hex
        obtain ⟨htid, hpid, hdst, hmsg⟩ := hex
        rw [← htid, ← hpid, hdst, hmsg]
    · simp [hreq]
    · rw [List.map_append, List.nodup_append]
      refine ⟨h.sends_nodup, by simp, fun a ha b hb heq => ?_⟩
      obtain ⟨s, hs, rfl⟩ := List.mem_map.mp ha
      obtain ⟨c', hwaiting, -⟩ := (h.sends s).mp hs
      rw [List.mem_singleton.mp hb] at heq
      rw [heq, hst] at hwaiting
      cases hwaiting
  · obtain ⟨hdst, hsrc, hsends, front, back, hold, hnew⟩ := sendLocked_some hlocked
    have hnodup := h.recvs_nodup
    rw [hold] at hnodup
    obtain ⟨peer, hpeer, hpid, hpeerReq⟩ := (h.recvs r).mp (by simp [hold])
    have hw : w.ipcSection tid c =
        { w.setTask tid { w.tasks tid with phase := .waking c r.recverTid (some words) none } with
          ipc := ipc
          handed := w.handed ++ [(c, peer)] } := by
      simp [World.ipcSection, hreq, hlocked, h.queued_of_waiting hpeer]
    rw [hw]
    refine ⟨_, h.pair rfl rfl rfl hst hpeer (.inl rfl) ?_ (.inl ⟨peer, by simp⟩)
      (.inr ⟨c, dst, words, by simp, hreq, rfl⟩) (fun s => ?_) (fun r' => ?_) ⟨?_, ?_⟩⟩
    · exact ⟨h.made_of_call hcall, h.made_of_call (by rw [hpeer]; rfl), dst, words, r.srcPid,
        hreq, hpeerReq, hpid.symm.trans hdst, hsrc⟩
    · rw [hsends]
      refine ⟨fun hs => ⟨fun heq => ?_, hs⟩, And.right⟩
      obtain ⟨c', hwaiting, -, hreq'⟩ := (h.sends s).mp hs
      rw [heq, hpeer] at hwaiting
      rw [← Stage.waiting.inj hwaiting, hpeerReq] at hreq'
      cases hreq'
    · rw [hnew, hold]
      exact mem_taken hnodup
    · rw [hsends]
      exact h.sends_nodup
    · rw [hnew]
      exact hnodup.sublist (((List.sublist_cons_self r back).append_left front).map _)

/-- A `recv` in its section under the IPC lock. -/
theorem section_recv {src : Nat}
    (hphase : (w.tasks tid).phase = .resolved c) (hreq : c.req = .recv src) :
    ∃ stage', Tracks (w.ipcSection tid c) stage' := by
  have hst := h.stage_of_resolved hphase
  have hcall : (stage tid).call = some c := by rw [hst]; rfl
  rcases hlocked : recvLocked w.ipc tid c.pid src with ⟨_ | s, ipc⟩
  · have hw : w.ipcSection tid c =
        { w.setTask tid { w.tasks tid with phase := .parked c } with ipc := ipc } := by
      simp only [World.ipcSection, hreq, hlocked]
    obtain ⟨rfl, -⟩ := recvLocked_none hlocked
    rw [hw]
    refine ⟨_, h.park rfl rfl rfl hst (fun s => ?_) (fun r => ?_) ⟨h.sends_nodup, ?_⟩⟩
    · simp [hreq]
    · simp only [List.mem_append, List.mem_singleton, hreq, Request.recv.injEq]
      refine or_congr_right ⟨?_, ?_⟩
      · intro hr
        subst hr
        exact ⟨rfl, rfl, rfl⟩
      · intro hex
        obtain ⟨htid, hpid, hsrc⟩ := hex
        rw [← htid, ← hpid, hsrc]
    · rw [List.map_append, List.nodup_append]
      refine ⟨h.recvs_nodup, by simp, fun a ha b hb heq => ?_⟩
      obtain ⟨r, hr, rfl⟩ := List.mem_map.mp ha
      obtain ⟨c', hwaiting, -⟩ := (h.recvs r).mp hr
      rw [List.mem_singleton.mp hb] at heq
      rw [heq, hst] at hwaiting
      cases hwaiting
  · obtain ⟨hsrc, hdst, hrecvs, front, back, hold, hnew⟩ := recvLocked_some hlocked
    have hnodup := h.sends_nodup
    rw [hold] at hnodup
    obtain ⟨peer, hpeer, hpid, hpeerReq⟩ := (h.sends s).mp (by simp [hold])
    have hw : w.ipcSection tid c =
        { w.setTask tid { w.tasks tid with phase := .waking c s.senderTid none (some s.msg) } with
          ipc := ipc
          handed := w.handed ++ [(peer, c)] } := by
      simp [World.ipcSection, hreq, hlocked, h.queued_of_waiting hpeer]
    rw [hw]
    refine ⟨_, h.pair rfl rfl rfl hst hpeer (.inr rfl) ?_
      (.inr ⟨peer, s.dstPid, s.msg, by simp, hpeerReq, rfl⟩) (.inl ⟨c, by simp⟩)
      (fun s' => ?_) (fun r => ?_) ⟨?_, ?_⟩⟩
    · exact ⟨h.made_of_call (by rw [hpeer]; rfl), h.made_of_call hcall, s.dstPid, s.msg, src,
        hpeerReq, hreq, hdst.symm, .inl (hsrc.symm.trans hpid)⟩
    · rw [hnew, hold]
      exact mem_taken hnodup
    · rw [hrecvs]
      refine ⟨fun hr => ⟨fun heq => ?_, hr⟩, And.right⟩
      obtain ⟨c', hwaiting, -, hreq'⟩ := (h.recvs r).mp hr
      rw [heq, hpeer] at hwaiting
      rw [← Stage.waiting.inj hwaiting, hpeerReq] at hreq'
      cases hreq'
    · rw [hnew]
      exact hnodup.sublist (((List.sublist_cons_self s back).append_left front).map _)
    · rw [hrecvs]
      exact h.recvs_nodup

/-- A woken thread returns from its call. -/
theorem back {thread : Thread} {frame : Frame} (hst : stage tid = .woken c)
    (hthread : thread.proc = (w.tasks tid).thread.proc ∧ thread.state = .running ∧
      thread.ipcWake = none)
    (ha0 : frame.a0 = 0) (hserves : Serves w.handed c (some frame.args)) :
    ∃ stage', Tracks (w.finish tid c thread frame) stage' := by
  obtain ⟨htid, hnumber, -⟩ := h.named tid c (by rw [hst]; rfl)
  refine ⟨_, h.move .outside _ rfl rfl rfl rfl hthread.1 le_rfl (by simp [hst]) (by simp)
    (by simp [hst]) (by simp [hst]) ?_ (by simp [Stage.call]) (fun ret hret => ?_)
    (by simp [Stage.call])⟩
  · simp only [Fits, World.finish, World.setTask, update_self]
    exact ⟨trivial, .inr hthread.2.1, hthread.2.2⟩
  · obtain rfl := List.mem_singleton.mp hret
    refine ⟨?_, htid, Nat.lt_of_succ_le hnumber.le⟩
    rw [← show (⟨0, frame.args, frame.sepc⟩ : Frame) = frame by rw [← ha0]]
    exact h.validReturn hserves fun words hwords => Option.some.inj hwords

/-- A queued thread that finds no result blocks and keeps its stage. -/
theorem sleep (hphase : (w.tasks tid).phase = .parked c)
    (hwake : (w.tasks tid).thread.ipcWake = none) :
    Tracks (w.setTask tid { w.tasks tid with
      thread := { (w.tasks tid).thread with frame := (w.tasks tid).live, state := .blocked }
      phase := .asleep c }) (Function.update stage tid (stage tid)) := by
  have hfits := h.fits tid
  have hqueued : ∀ c', Queued (w.tasks tid) c' → c' = c := by
    intro c' hq
    rcases hq with ⟨hparked, -⟩ | ⟨hasleep, -⟩
    · exact (Phase.parked.inj (hphase.symm.trans hparked)).symm
    · cases hphase.symm.trans hasleep
  have hnot : ∀ c' x, stage tid ≠ .waking c' x := by
    intro c' x hst
    rw [hst] at hfits
    obtain ⟨-, -, m, r, hwaking, -⟩ := hfits
    cases hphase.symm.trans hwaking
  refine h.move (stage tid) [] rfl rfl rfl (List.append_nil _).symm rfl le_rfl hnot hnot
    (fun _ _ hst => hst) (fun _ => Iff.rfl) ?_ (fun c' hc => h.named tid c' hc) (by simp)
    (fun ret hret htid c' hc => ?_)
  · cases hst : stage tid with
    | waiting c' =>
      rw [hst] at hfits
      obtain ⟨hq, -, hunserved⟩ := hfits
      simp only [Fits, World.setTask, update_self]
      exact ⟨.inr ⟨by rw [hqueued c' hq], rfl⟩, hwake, hunserved⟩
    | paired c' x =>
      rw [hst] at hfits
      obtain ⟨hq, -, c'', m, r, hwaking, hserves⟩ := hfits
      have hx : x ≠ tid := h.waker_ne hst hnot
      simp only [Fits, World.setTask, update_self, update_of_ne hx]
      exact ⟨.inr ⟨by rw [hqueued c' hq], rfl⟩, hwake, c'', m, r, hwaking, hserves⟩
    | _ =>
      rw [hst] at hfits
      simp [Fits, hphase, hwake] at hfits
  · exact (h.closed ret (by simpa using hret)).2 c' (htid ▸ hc)

/-- A parked thread that has a result was woken before it could block. -/
theorem woken_of_parked {result : IpcWake} (hphase : (w.tasks tid).phase = .parked c)
    (hwake : (w.tasks tid).thread.ipcWake = some result) :
    stage tid = .woken c ∧ ∃ words, result = .msg words ∧ Serves w.handed c (some words) := by
  have hfits := h.fits tid
  cases hst : stage tid with
  | woken c' =>
    rw [hst] at hfits
    rcases hfits with ⟨hphase', -, words, hwake', hserves⟩ | ⟨hphase', -⟩
    · obtain rfl := Phase.parked.inj (hphase.symm.trans hphase')
      exact ⟨rfl, words, Option.some.inj (hwake.symm.trans hwake'), hserves⟩
    · cases hphase.symm.trans hphase'
  | _ =>
    rw [hst] at hfits
    simp [Fits, Queued, hphase, hwake] at hfits

/-- A sleeping thread that is ready was woken with its result in the frame. -/
theorem woken_of_ready (hphase : (w.tasks tid).phase = .asleep c)
    (hstate : (w.tasks tid).thread.state = .ready) :
    stage tid = .woken c ∧ (w.tasks tid).thread.ipcWake = none ∧
      (w.tasks tid).thread.frame.a0 = 0 ∧
      Serves w.handed c (some (w.tasks tid).thread.frame.args) := by
  have hfits := h.fits tid
  cases hst : stage tid with
  | woken c' =>
    rw [hst] at hfits
    rcases hfits with ⟨hphase', -⟩ | ⟨hphase', -, hrest⟩
    · cases hphase.symm.trans hphase'
    · obtain rfl := Phase.asleep.inj (hphase.symm.trans hphase')
      exact ⟨rfl, hrest⟩
  | _ =>
    rw [hst] at hfits
    simp [Fits, Queued, hphase, hstate] at hfits

/-- Any other thread that is ready is in user mode. -/
theorem user_of_ready (hstate : (w.tasks tid).thread.state = .ready)
    (hnot : ∀ c, (w.tasks tid).phase ≠ .asleep c) : (w.tasks tid).phase = .user := by
  have hfits := h.fits tid
  cases hst : stage tid with
  | outside =>
    rw [hst] at hfits
    exact hfits.1
  | _ =>
    rw [hst] at hfits
    simp [Fits, Queued, hstate, hnot] at hfits

/-- Outside a call a thread is preempted and resumed without any trace. -/
theorem switch {thread : Thread} {live : Frame} (hphase : (w.tasks tid).phase = .user)
    (hproc : thread.proc = (w.tasks tid).thread.proc)
    (hstate : thread.state = .ready ∨ thread.state = .running)
    (hwake : thread.ipcWake = (w.tasks tid).thread.ipcWake) :
    ∃ stage', Tracks (w.setTask tid { w.tasks tid with thread := thread, live := live })
      stage' := by
  have hst := h.stage_of_user hphase
  have hfits := h.fits tid
  rw [hst] at hfits
  refine ⟨_, h.move .outside [] rfl rfl rfl (List.append_nil _).symm hproc le_rfl (by simp [hst])
    (by simp) (by simp [hst]) (by simp [hst]) ?_ (by simp [Stage.call]) (by simp)
    (by simp [Stage.call])⟩
  simp only [Fits, World.setTask, update_self]
  exact ⟨hphase, hstate, hwake.trans hfits.2.2⟩

/-- Every step keeps the invariant. -/
theorem step {op : WorldOp} (hstep : w.step op = some w') :
    ∃ stage', Tracks w' stage' := by
  cases op with
  | callSend tid slot words sepc =>
    obtain ⟨⟨hphase, hstate⟩, rfl⟩ := Option.ite_some_none_eq_some.mp hstep
    refine h.enter hphase hstate fun code hcode => ?_
    cases htarget : sendTarget w.table (w.tasks tid).thread.proc slot with
    | error e =>
      rw [htarget] at hcode
      exact Except.error.inj hcode ▸ sendTarget_error htarget
    | ok dst =>
      rw [htarget] at hcode
      cases hcode
  | callRecv tid slot args sepc =>
    obtain ⟨⟨hphase, hstate⟩, rfl⟩ := Option.ite_some_none_eq_some.mp hstep
    refine h.enter hphase hstate fun code hcode => ?_
    cases hsource : recvSource w.table (w.tasks tid).thread.proc slot with
    | error e =>
      rw [hsource] at hcode
      exact Except.error.inj hcode ▸ recvSource_error hsource
    | ok src =>
      rw [hsource] at hcode
      cases hcode
  | ipcSection tid =>
    rw [World.step] at hstep
    split at hstep
    · next c hphase =>
      cases hstep
      cases hreq : c.req with
      | send dst words => exact h.section_send hphase hreq
      | recv src => exact h.section_recv hphase hreq
    · cases hstep
  | wakeSection tid =>
    rw [World.step] at hstep
    split at hstep
    · next c x m reply hphase =>
      cases hstep
      have hne : x ≠ tid := by
        intro heq
        obtain ⟨c', hpaired⟩ := h.wakers tid c x (h.stage_of_waking hphase)
        rw [heq, h.stage_of_waking hphase] at hpaired
        cases hpaired
      have htid : (w.wake x m).tasks tid = w.tasks tid := update_of_ne hne.symm _ _
      rw [htid]
      refine h.wake hphase ?_ ?_ (fun y hy => ?_) rfl rfl rfl
      · simp only [World.finish, World.setTask, update_self, htid]
      · simp only [World.finish, World.setTask, update_of_ne hne, World.wake,
          update_self]
      · simp only [not_or] at hy
        simp only [World.finish, World.setTask, update_of_ne hy.1, World.wake,
          update_of_ne hy.2]
    · cases hstep
  | blockSection tid =>
    simp only [World.step] at hstep
    split at hstep
    · next c hphase =>
      cases hwake : (w.tasks tid).thread.ipcWake with
      | none =>
        have hblock : blockUserFromTrap (w.tasks tid).thread (w.tasks tid).live =
            ({ (w.tasks tid).thread with frame := (w.tasks tid).live, state := .blocked },
              none) := by
          simp only [blockUserFromTrap, hwake]
        rw [hblock] at hstep
        cases hstep
        exact ⟨_, h.sleep hphase hwake⟩
      | some result =>
        obtain ⟨hst, words, rfl, hserves⟩ := h.woken_of_parked hphase hwake
        simp only [blockUserFromTrap, hwake] at hstep
        cases hstep
        exact h.back hst ⟨rfl, rfl, rfl⟩ rfl hserves
    · cases hstep
  | preempt tid =>
    obtain ⟨⟨hphase, hstate⟩, rfl⟩ := Option.ite_some_none_eq_some.mp hstep
    exact h.switch hphase rfl (.inl rfl) rfl
  | resume tid =>
    simp only [World.step] at hstep
    split at hstep
    · next hready =>
      split at hstep
      · next c hphase =>
        cases hstep
        obtain ⟨hst, hwake, ha0, hserves⟩ := h.woken_of_ready hphase hready
        exact h.back hst ⟨rfl, rfl, hwake⟩ ha0 hserves
      · next hnot =>
        cases hstep
        exact h.switch (h.user_of_ready hready hnot) rfl (.inr rfl) rfl
    · cases hstep
  | setTable table =>
    cases hstep
    exact ⟨stage, { h with }⟩

end

/-- At the start every thread is outside a call. -/
theorem init (h : World.Initial w) : Tracks w fun _ => .outside where
  fits tid := ⟨(h.tasks tid).1, (h.tasks tid).2.1, (h.tasks tid).2.2.1⟩
  named _ _ hc := by cases hc
  wakers _ _ _ hst := by cases hst
  sends s := by simp [h.ipc, IpcState.empty]
  recvs r := by simp [h.ipc, IpcState.empty]
  sends_nodup := by simp [h.ipc, IpcState.empty]
  recvs_nodup := by simp [h.ipc, IpcState.empty]
  pairs := by simp [h.handed]
  sent_once := by simp [h.handed]
  received_once := by simp [h.handed]
  returns := by simp [h.returned]
  closed := by simp [h.returned]

end Tracks

/-- Every reachable world has a place for every thread. -/
theorem tracks_of_run {ops : List WorldOp} (hinit : World.Initial w)
    (hrun : Machine.run World.step w ops = some w') : ∃ stage, Tracks w' stage := by
  have halways : Machine.Always World.step w ops fun w => ∃ stage, Tracks w stage :=
    Machine.always_of_step ⟨_, .init hinit⟩ fun _ _ _ ⟨_, h⟩ hstep => h.step hstep
  exact halways ops [] w' (List.append_nil _).symm hrun

end Steps

/-! ## Exactly once -/

/-- The number of entries of a thread in the two queues together. -/
def World.entries (w : World) (tid : Nat) : Nat :=
  (w.ipc.sends.map PendingSend.senderTid).count tid +
    (w.ipc.recvs.map PendingRecv.recverTid).count tid

/-- The thread has queued a call that has not been paired. -/
def World.Registered (w : World) (tid : Nat) : Prop :=
  ∃ c, (w.tasks tid).phase.queued = some c ∧ Unserved w.handed c

/-- What the calls guarantee together. -/
structure ExactlyOnce (w : World) : Prop where
  /-- No message is handed over twice, and no `recv` gets two messages. -/
  sent_once : (w.handed.map fun h => h.1.id).Nodup
  received_once : (w.handed.map fun h => h.2.id).Nodup
  /-- Messages go where the capability of the sender points, to a `recv` that accepts it. -/
  pairs : ∀ h ∈ w.handed, ValidPair w h
  /-- Calls come back with success exactly if they were paired, and a `recv` with the message. -/
  returns : ∀ ret ∈ w.returned, ValidReturn w.handed ret
  /-- A registered thread has exactly one entry in the two queues together. -/
  registered : ∀ tid, w.Registered tid → w.entries tid = 1
  /-- A thread that is paired or in no call has none. -/
  unregistered : ∀ tid, ¬ w.Registered tid → w.entries tid = 0
  /-- A blocked thread without an entry has a waker on the way. -/
  blocked : ∀ tid, (w.tasks tid).thread.state = .blocked → w.entries tid = 0 →
    ∃ x c msg reply, (w.tasks x).phase = .waking c tid msg reply

section Result

variable {w : World} {stage : Nat → Stage} {tid : Nat} {c : Call}

theorem Unserved.not_serves {handed : List (Call × Call)} {msg : Option Message}
    (h : Unserved handed c) : ¬ Serves handed c msg := by
  intro hserves
  rcases hserves with ⟨r, hr⟩ | ⟨s, dst, words, hs, -⟩
  · exact (h _ hr).1 rfl
  · exact (h _ hs).2 rfl

namespace Tracks

theorem queued_eq {c' : Call} (hqueued : Queued (w.tasks tid) c')
    (hphase : (w.tasks tid).phase.queued = some c) : c' = c := by
  rcases hqueued with ⟨hp, -⟩ | ⟨hp, -⟩
  · rw [hp] at hphase
    exact Option.some.inj hphase
  · rw [hp] at hphase
    exact Option.some.inj hphase

/-- The registered threads are the waiting ones: the call of a paired or a woken thread has been
handed over. -/
theorem registered_iff (h : Tracks w stage) : w.Registered tid ↔ ∃ c, stage tid = .waiting c := by
  have hfits := h.fits tid
  constructor
  · intro hex
    obtain ⟨c, hphase, hunserved⟩ := hex
    cases hst : stage tid with
    | waiting c' => exact ⟨c', rfl⟩
    | paired c' x =>
      rw [hst] at hfits
      obtain ⟨hqueued, -, c'', m, reply, -, hserves⟩ := hfits
      exact absurd (queued_eq hqueued hphase ▸ hserves) hunserved.not_serves
    | woken c' =>
      rw [hst] at hfits
      rcases hfits with ⟨hp, -, words, -, hserves⟩ | ⟨hp, -, -, -, hserves⟩
      · rw [hp] at hphase
        exact absurd (Option.some.inj hphase ▸ hserves) hunserved.not_serves
      · rw [hp] at hphase
        exact absurd (Option.some.inj hphase ▸ hserves) hunserved.not_serves
    | outside | resolved c' =>
      rw [hst] at hfits
      simp [hfits.1, Phase.queued] at hphase
    | waking c' x =>
      rw [hst] at hfits
      obtain ⟨-, -, m, reply, hp, -⟩ := hfits
      simp [hp, Phase.queued] at hphase
  · intro hex
    obtain ⟨c, hst⟩ := hex
    rw [hst] at hfits
    exact ⟨c, h.queued_of_waiting hst, hfits.2.2⟩

/-- A thread that does not wait has no entry. -/
theorem entries_eq_zero (h : Tracks w stage) (hnot : ∀ c, stage tid ≠ .waiting c) :
    w.entries tid = 0 := by
  rw [World.entries, Nat.add_eq_zero_iff, List.count_eq_zero, List.count_eq_zero]
  constructor
  · intro hmem
    obtain ⟨s, hs, rfl⟩ := List.mem_map.mp hmem
    obtain ⟨c, hst, -⟩ := (h.sends s).mp hs
    exact hnot c hst
  · intro hmem
    obtain ⟨r, hr, rfl⟩ := List.mem_map.mp hmem
    obtain ⟨c, hst, -⟩ := (h.recvs r).mp hr
    exact hnot c hst

/-- A waiting thread has its one entry in the queue of its kind. -/
theorem entries_eq_one (h : Tracks w stage) (hst : stage tid = .waiting c) :
    w.entries tid = 1 := by
  have hsends : tid ∈ w.ipc.sends.map PendingSend.senderTid ↔ ∃ dst msg, c.req = .send dst msg := by
    simp only [List.mem_map]
    constructor
    · rintro ⟨s, hs, rfl⟩
      obtain ⟨c', hst', -, hreq⟩ := (h.sends s).mp hs
      rw [hst] at hst'
      exact ⟨_, _, Stage.waiting.inj hst' ▸ hreq⟩
    · intro hex
      obtain ⟨dst, msg, hreq⟩ := hex
      exact ⟨⟨tid, c.pid, dst, msg⟩, (h.sends _).mpr ⟨c, hst, rfl, hreq⟩, rfl⟩
  have hrecvs : tid ∈ w.ipc.recvs.map PendingRecv.recverTid ↔ ∃ src, c.req = .recv src := by
    simp only [List.mem_map]
    constructor
    · rintro ⟨r, hr, rfl⟩
      obtain ⟨c', hst', -, hreq⟩ := (h.recvs r).mp hr
      rw [hst] at hst'
      exact ⟨_, Stage.waiting.inj hst' ▸ hreq⟩
    · intro hex
      obtain ⟨src, hreq⟩ := hex
      exact ⟨⟨tid, c.pid, src⟩, (h.recvs _).mpr ⟨c, hst, rfl, hreq⟩, rfl⟩
  rw [World.entries, h.sends_nodup.count, h.recvs_nodup.count]
  cases hreq : c.req with
  | send dst msg => rw [if_pos (by simp [hsends, hreq]), if_neg (by simp [hrecvs, hreq])]
  | recv src => rw [if_neg (by simp [hsends, hreq]), if_pos (by simp [hrecvs, hreq])]

/-- A blocked thread that does not wait is paired, and its waker has not run. -/
theorem waker_of_blocked (h : Tracks w stage) (hstate : (w.tasks tid).thread.state = .blocked)
    (hnot : ∀ c, stage tid ≠ .waiting c) :
    ∃ x c msg reply, (w.tasks x).phase = .waking c tid msg reply := by
  have hfits := h.fits tid
  cases hst : stage tid with
  | waiting c => exact absurd hst (hnot c)
  | paired c x =>
    rw [hst] at hfits
    obtain ⟨-, -, c', m, reply, hphase, -⟩ := hfits
    exact ⟨x, c', m, reply, hphase⟩
  | _ =>
    rw [hst] at hfits
    simp [Fits, hstate] at hfits

theorem exactlyOnce (h : Tracks w stage) : ExactlyOnce w where
  sent_once := h.sent_once
  received_once := h.received_once
  pairs := h.pairs
  returns := h.returns
  registered tid hreg := by
    obtain ⟨c, hst⟩ := h.registered_iff.mp hreg
    exact h.entries_eq_one hst
  unregistered tid hreg := by
    rw [h.registered_iff, not_exists] at hreg
    exact h.entries_eq_zero hreg
  blocked tid hstate hentries := by
    refine h.waker_of_blocked hstate fun c hst => ?_
    rw [h.entries_eq_one hst] at hentries
    cases hentries

end Tracks

end Result

/-- Whatever calls the threads make and however their steps interleave, every message is delivered
exactly once. -/
theorem ipc_exactly_once {w w' : World} {ops : List WorldOp} (hinit : World.Initial w)
    (hrun : Machine.run World.step w ops = some w') : ExactlyOnce w' := by
  obtain ⟨stage, h⟩ := tracks_of_run hinit hrun
  exact h.exactlyOnce

/-- Two threads, of processes 0 and 1, before their first call. -/
def pairStart : World where
  table := clientTable
  ipc := .empty
  tasks tid := ⟨⟨tid, .ready, ⟨0, .replicate 5 0, 0⟩, none, none⟩, ⟨0, .replicate 5 0, 0⟩, .user, 0⟩
  handed := []
  returned := []

/-- Thread 1 listens, and thread 0 finds it queued but not yet blocked. -/
def pairOps : List WorldOp :=
  [.resume 0, .resume 1, .callRecv 1 0 (.replicate 5 0) 200, .callSend 0 0 (.replicate 5 42) 100,
    .ipcSection 1, .ipcSection 0, .wakeSection 0, .blockSection 1]

/-- Both calls of that run come back, and the receiver has the message. -/
theorem ipc_exactly_once_pair :
    ∃ w, Machine.run World.step pairStart pairOps = some w ∧
      w.returned = [⟨⟨0, 0⟩, true, ⟨0, .replicate 5 42, 104⟩⟩,
        ⟨⟨1, 0⟩, false, ⟨0, .replicate 5 42, 204⟩⟩] ∧ ExactlyOnce w := by
  have hrun : (Machine.run World.step pairStart pairOps).map World.returned =
      some [⟨⟨0, 0⟩, true, ⟨0, .replicate 5 42, 104⟩⟩,
        ⟨⟨1, 0⟩, false, ⟨0, .replicate 5 42, 204⟩⟩] := by decide +kernel
  obtain ⟨w, hw, hreturned⟩ := Option.map_eq_some_iff.mp hrun
  have hinit : pairStart.Initial := ⟨rfl, fun _ => ⟨rfl, .inl rfl, rfl, rfl⟩, rfl, rfl⟩
  exact ⟨w, hw, hreturned, ipc_exactly_once hinit hw⟩

end Ignium.Ipc
