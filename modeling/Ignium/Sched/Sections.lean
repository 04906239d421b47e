import Ignium.Sched.Wellformed

/-!
# The sections keep the scheduler well formed

One lemma for each section under the scheduler lock: what it makes of a well-formed state is well
formed. A section that leaves the current thread of its hart queues, blocks or retires the thread,
and ends with a new current thread. The one condition is that of `Wf.killProcess`: the threads of
the process that it retires must not have exited before.
-/

namespace Ignium.Sched

open Scheduler

section Sections

variable {s s' : Scheduler} {away : Hart → Prop} {b : Boot} {h : Hart} {id : Nat}

theorem Loose.congr (hl : Loose s away id) (hready : s'.ready = s.ready)
    (hfree : s'.freeSlots = s.freeSlots) (hcurrent : s'.current = s.current) :
    Loose s' away id := by
  refine ⟨?_, hfree ▸ hl.free, hcurrent ▸ hl.current⟩
  rw [← hl.occ, Scheduler.occ, Scheduler.occ, hready]

theorem setCurrent_self (hcurrent : s.current h = id) : s.setCurrent h id = s := by
  rw [setCurrent, ← hcurrent, Function.update_eq_self]

theorem removeFromReady_plan (s : Scheduler) (id : Nat) : SamePlan s (s.removeFromReady id) ∧
    (s.removeFromReady id).thread = s.thread := by
  rw [Scheduler.removeFromReady]
  split
  · exact ⟨⟨rfl, rfl, rfl, rfl, rfl⟩, rfl⟩
  · exact ⟨⟨rfl, rfl, rfl, rfl, rfl⟩, rfl⟩

/-- Taking a slot changes the queue of free slots and nothing else. -/
theorem takeSlot_eq {s₁ : Scheduler} (hslot : s.takeSlot = some (id, s₁)) :
    ∃ free, s₁ = { s with freeSlots := free } := by
  rw [takeSlot] at hslot
  split at hslot
  · cases hslot
    exact ⟨_, rfl⟩
  · split at hslot <;> cases hslot
    exact ⟨_, rfl⟩

/-! ## Results of calls -/

/-- Writing a result into a thread leaves all but its frame and its message alone. -/
def Reply (f : Thread → Thread) : Prop :=
  ∀ t, f t = { t with frame := (f t).frame, ipcMsg := (f t).ipcMsg, ipcWake := (f t).ipcWake }

namespace Reply

variable {f : Thread → Thread}

theorem state (hf : Reply f) (t : Thread) : (f t).state = t.state := by rw [hf t]

theorem hart (hf : Reply f) (t : Thread) : (f t).hart = t.hart := by rw [hf t]

theorem proc (hf : Reply f) (t : Thread) : (f t).proc = t.proc := by rw [hf t]

theorem root (hf : Reply f) (t : Thread) : (f t).root = t.root := by rw [hf t]

theorem prio (hf : Reply f) (t : Thread) : (f t).prio = t.prio := by rw [hf t]

end Reply

/-- What a wake-up with the result `r` can do. -/
inductive Delivered (s : Scheduler) (id : Nat) (r : IpcWake) : Scheduler → Prop where
  /-- The thread has not blocked and will find the result when it is about to. -/
  | noted {f : Thread → Thread} (hf : Reply f) (hstate : (s.thread id).state ≠ .blocked)
      (hnote : ∀ t, (f t).ipcWake = some r) : Delivered s id r (s.modify id f)
  /-- The thread is blocked. It is queued and donates no more. -/
  | woken {f : Thread → Thread} (hf : Reply f) (hlt : id < s.len)
      (hblocked : (s.thread id).state = .blocked) (hnone : ∀ t, (f t).ipcWake = none) :
      Delivered s id r (((s.modify id f).enqueue id).revokeDonations id)

theorem delivered_ipcWakeWithMsg {msg : Option Ipc.Message}
    (hstep : s.ipcWakeWithMsg id msg = some s') :
    Delivered s id (.msg (msg.getD (.replicate Ipc.msgWords 0))) s' := by
  rw [Scheduler.ipcWakeWithMsg] at hstep
  split at hstep
  · next hlt =>
    split at hstep
    · next hstate =>
      cases hstep
      exact .noted (fun _ => rfl) hstate fun _ => rfl
    · next hblocked =>
      cases hstep
      exact .woken (fun _ => rfl) hlt (not_not.mp hblocked) fun _ => rfl
  · cases hstep

theorem delivered_ipcWakeWithErr {code : Nat} (hstep : s.ipcWakeWithErr id code = some s') :
    Delivered s id (.err code) s' := by
  rw [Scheduler.ipcWakeWithErr] at hstep
  split at hstep
  · next hlt =>
    split at hstep
    · next hstate =>
      cases hstep
      exact .noted (fun _ => rfl) hstate fun _ => rfl
    · next hblocked =>
      cases hstep
      exact .woken (fun _ => rfl) hlt (not_not.mp hblocked) fun _ => rfl
  · cases hstep

/-- A blocked thread is loose. -/
theorem Wf.loose_blocked (hs : Wf s fun _ => False) (hlt : id < s.len) (hid : ¬ s.Idle id)
    (hstate : (s.thread id).state = .blocked) : Loose s (fun _ => False) id :=
  (hs.placed id hlt hid).loose (by simp [hstate]) (by simp [hstate])
    fun h heq hrunning => by simp [hstate] at hrunning

/-- The state of a current thread that is not idle. -/
theorem Wf.current_running (hs : Wf s fun _ => False) (hid : ¬ s.Idle (s.current h)) :
    (s.thread (s.current h)).state = .running :=
  ((hs.placed _ (hs.current_lt h) hid).current h rfl).2 not_false

namespace Wf

/-! ## Switches -/

section

variable (hs : Wf s fun _ => False)
include hs

theorem yield : Wf (s.yield h).2 fun _ => False := by
  have hleft : Wf s (· = h) := hs.leave fun _ hfalse => hfalse.elim
  have hsaved : Wf (s.modify (s.current h) fun t => { t with frameValid := false, ctxValid := true })
      (· = h) := hleft.modify_same rfl rfl fun _ => rfl
  have hdrained : Wf { s.modify (s.current h) fun t =>
      { t with frameValid := false, ctxValid := true } with reaper := [] } (· = h) :=
    hsaved.thin rfl rfl rfl rfl (fun _ _ _ => le_rfl) rfl fun _ => rfl
  refine (hdrained.enqueue (hs.current_lt h) fun hid => ?_).dispatch
  exact (hs.loose_current hid).congr rfl rfl rfl

theorem exit (hid : ¬ s.Idle (s.current h)) :
    Wf (s.exit h).2 fun _ => False := by
  have hleft : Wf s (· = h) := hs.leave fun _ hfalse => hfalse.elim
  exact (hleft.retire (hs.current_lt h) hid (hs.loose_current hid) rfl).dispatch

/-- A running thread finds a wake-up and goes on. -/
theorem stay (hid : ¬ s.Idle (s.current h)) {f : Thread → Thread}
    (hstate : ∀ t, (f t).state = .running) (hhart : ∀ t, (f t).hart = t.hart)
    (hproc : ∀ t, (f t).proc = t.proc) : Wf (s.modify (s.current h) f) fun _ => False :=
  hs.modify_same (by rw [hstate, hs.current_running hid]) (hhart _) fun _ => hproc _

/-- A running thread blocks, and the hart goes on with another one. -/
theorem sleep (hid : ¬ s.Idle (s.current h)) {f : Thread → Thread}
    (hstate : ∀ t, (f t).state = .blocked) (hhart : ∀ t, (f t).hart = t.hart)
    (hproc : ∀ t, (f t).proc = t.proc) :
    Wf ((s.modify (s.current h) f).dispatch h).2 fun _ => False := by
  have hleft : Wf s (· = h) := hs.leave fun _ hfalse => hfalse.elim
  exact (hleft.setState (hs.current_lt h) (fun _ => hs.loose_current hid) (by simp [hstate])
    (hhart _) (hproc _)).dispatch

theorem blockCurrent (hid : ¬ s.Idle (s.current h)) :
    Wf (s.blockCurrent h).2 fun _ => False := by
  unfold Scheduler.blockCurrent
  dsimp only
  split
  · refine Wf.requeues.revokeDonations ?_ _
    exact hs.stay hid (fun _ => rfl) (fun _ => rfl) fun _ => rfl
  · split
    · next hready =>
      rw [hs.current_running hid] at hready
      cases hready
    · split
      · dsimp only
        exact hs.stay hid (fun _ => rfl) (fun _ => rfl) fun _ => rfl
      · exact hs.sleep hid (fun _ => rfl) (fun _ => rfl) fun _ => rfl

end

theorem blockResumed (hs : Wf s away) : Wf (s.blockResumed h) away := by
  unfold Scheduler.blockResumed
  exact hs.removeFromReady.modify_same rfl rfl fun _ => rfl

theorem blockUserFromTrap (hs : Wf s fun _ => False) (hid : ¬ s.Idle (s.current h))
    (frame : TrapFrame) : Wf (s.blockUserFromTrap h frame).2 fun _ => False := by
  have hclear : Wf ((s.modify (s.current h) fun t =>
      { t with ipcWake := none, state := .running }).revokeDonations (s.current h))
      fun _ => False := by
    refine Wf.requeues.revokeDonations ?_ _
    exact hs.stay hid (fun _ => rfl) (fun _ => rfl) fun _ => rfl
  unfold Scheduler.blockUserFromTrap
  dsimp only
  split
  · exact hclear
  · exact hclear
  · exact hs.sleep hid (fun _ => rfl) (fun _ => rfl) fun _ => rfl

theorem secondaryIdle (hs : Wf s fun _ => False) : Wf (s.secondaryIdle h).2 fun _ => False := by
  have hleft : Wf s (· = h) := hs.leave fun _ hfalse => hfalse.elim
  obtain ⟨hwf, hrun⟩ := (hleft.resetTicks (h := h)).pickNext h true
  have hsame := pickNext_plan (s.resetTicks h) h true
  unfold Scheduler.secondaryIdle
  rcases hpick : (s.resetTicks h).pickNext h true with ⟨next, s'⟩
  rw [hpick] at hwf hsame hrun
  have hback : Wf (s'.setCurrent h next) fun _ => False := hwf.back hrun
  dsimp only
  split
  · next hnext =>
    rwa [setCurrent_self ((congrFun hsame.current h).trans hnext.symm)] at hback
  · exact hback

/-! ## Wake-ups -/

theorem wake (hs : Wf s fun _ => False) : Wf (s.wake id) fun _ => False := by
  unfold Scheduler.wake
  dsimp only
  split
  · next hlt =>
    have hwoken : Wf (s.modify id fun t => { t with woken := true }) fun _ => False :=
      hs.modify_same rfl rfl fun _ => rfl
    split
    · next hblocked => exact hwoken.enqueue hlt fun hid => hwoken.loose_blocked hlt hid hblocked
    · exact hwoken
  · exact hs

/-- A result is written to a thread, which is queued if it was blocked. -/
theorem delivered {r : IpcWake} (hs : Wf s fun _ => False) (hstep : Delivered s id r s') :
    Wf s' fun _ => False := by
  have hwritten : ∀ {f : Thread → Thread}, Reply f → Wf (s.modify id f) fun _ => False :=
    fun hf => hs.modify_same (hf.state _) (hf.hart _) fun _ => hf.proc _
  cases hstep with
  | noted hf => exact hwritten hf
  | woken hf hlt hblocked =>
    refine Wf.requeues.revokeDonations ((hwritten hf).enqueue hlt fun hid => ?_) id
    refine (hwritten hf).loose_blocked hlt hid ?_
    rw [modify_self, hf.state, hblocked]

theorem donateOnBlock {peer : Nat} (hs : Wf s away)
    (hstep : s.donateOnBlock id peer = some s') : Wf s' away := by
  rw [Scheduler.donateOnBlock] at hstep
  split at hstep
  · cases hstep
    refine Wf.requeueProcThreads ?_ peer
    exact hs.thin rfl rfl rfl rfl (fun _ _ _ => le_rfl) rfl fun _ => rfl
  · cases hstep

/-- A loose thread moves to another hart. -/
theorem setHart (hs : Wf s fun _ => False) (hlt : id < s.len)
    (hloose : ¬ s.Idle id → Loose s (fun _ => False) id) (hart : Hart) :
    Wf (s.modify id fun t => { t with hart := hart }) fun _ => False := by
  refine hs.modify hlt (fun hidle => ?_) fun hid => ?_
  · obtain ⟨h, rfl⟩ := hidle
    exact hs.idle_proc h
  · have hp := hs.placed id hlt hid
    obtain ⟨hzero, hfree, hcurrent⟩ := hloose hid
    refine ⟨hp.once, fun h l hin => ?_, ?_, fun h heq => (hcurrent h heq).elim⟩
    · have hpos : 0 < s.occ id := occ_pos hin
      omega
    · rw [modify_self]
      exact hp.free

theorem setAffinity {hart : Nat} (hs : Wf s fun _ => False)
    (hstep : s.setAffinity id hart = some s') : Wf s' fun _ => False := by
  rw [Scheduler.setAffinity] at hstep
  split at hstep
  · next hlt =>
    split at hstep
    · next hready =>
      split at hstep
      · cases hstep
        obtain ⟨hplan, -⟩ := removeFromReady_plan s id
        have hlt' : id < (s.removeFromReady id).len := by rwa [hplan.len]
        have hloose : ¬ (s.removeFromReady id).Idle id →
            Loose (s.removeFromReady id) (fun _ => False) id := by
          intro hid
          rw [Scheduler.Idle, hplan.idle] at hid
          have hp := hs.placed id hlt hid
          refine ⟨hp.occ_removeFromReady, fun hfree => ?_, fun h heq => ?_⟩
          · rw [hplan.freeSlots, hp.free, hready] at hfree
            cases hfree
          · rw [hplan.current] at heq
            simpa [hready] using (hp.current h heq).2
        refine (hs.removeFromReady.setHart hlt' hloose (clampHart hart)).enqueue hlt' fun hid => ?_
        exact (hloose hid).congr rfl rfl rfl
      · cases hstep
        exact hs
    · next hblocked =>
      cases hstep
      exact hs.setHart hlt (fun hid => hs.loose_blocked hlt hid hblocked) _
    · cases hstep
  · cases hstep

/-! ## Interrupts -/

theorem resumeFrame {next : Nat} (hs : Wf s (· = h)) (hrun : Runnable s h next) :
    Wf (s.resumeFrame b h next) fun _ => False := by
  unfold Scheduler.resumeFrame
  dsimp only
  split
  · exact hs.back hrun
  · exact (hs.back hrun).modify_same rfl rfl fun _ => rfl

/-- A picked thread that the hart is at already goes on. -/
theorem resumeCurrent {f : Thread → Thread} (hs : Wf s (· = h)) (hrun : Runnable s h (s.current h))
    (hstate : ∀ t, (f t).state = .running) (hhart : ∀ t, (f t).hart = t.hart)
    (hproc : ∀ t, (f t).proc = t.proc) :
    Wf ((s.removeFromReady (s.current h)).modify (s.current h) f) fun _ => False := by
  obtain ⟨hplan, hthread⟩ := removeFromReady_plan s (s.current h)
  have hlt : s.current h < (s.removeFromReady (s.current h)).len := by
    rw [hplan.len]
    exact hs.current_lt h
  have hloose : ¬ s.Idle (s.current h) →
      Loose (s.removeFromReady (s.current h)) (· = h) (s.current h) := by
    intro hid
    have hp := hs.placed _ (hs.current_lt h) hid
    obtain ⟨hh, hrunning⟩ := hrun.2 hid
    refine ⟨hp.occ_removeFromReady, fun hfree => ?_, fun h' heq => ?_⟩
    · rw [hplan.freeSlots, hp.free, hrunning] at hfree
      cases hfree
    · rw [hplan.current] at heq
      exact (hp.current h' heq).1.symm.trans hh
  have hidle : ∀ x, (s.removeFromReady (s.current h)).Idle x ↔ s.Idle x := by
    intro x
    rw [Scheduler.Idle, Scheduler.Idle, hplan.idle]
  have hwf := hs.removeFromReady.setState hlt (fun hid => hloose (mt (hidle _).mpr hid))
    (f := f) (by simp [hstate]) (hhart _) (hproc _)
  have hback := hwf.back (h := h) ⟨hlt, fun hid => ?_⟩
  · have hsame : ((s.removeFromReady (s.current h)).modify (s.current h) f).current h =
        s.current h := congrFun hplan.current h
    rwa [setCurrent_self hsame] at hback
  · rw [modify_self, hstate, hhart, hthread]
    exact ⟨(hrun.2 (mt (hidle _).mpr hid)).1, rfl⟩

section

variable (hs : Wf s fun _ => False)
include hs

theorem preempt (frame : TrapFrame) :
    Wf (s.preempt b frame h).2 fun _ => False := by
  have hreset : Wf (s.resetTicks h) fun _ => False := hs.resetTicks
  have hqueued : Wf (interrupted (s.resetTicks h) frame h) (· = h) := by
    refine Wf.enqueue ?_ (hreset.current_lt h) fun hid => (hreset.loose_current hid).congr rfl rfl rfl
    exact (hreset.leave fun _ hfalse => hfalse.elim).setState (hreset.current_lt h)
      hreset.loose_current (by simp) rfl rfl
  obtain ⟨hwf, hrun⟩ := hqueued.pickNext h false
  have hcurrent := congrFun (pickNext_plan (interrupted (s.resetTicks h) frame h) h false).current h
  refine preempt_rule (P := (Wf · fun _ => False)) hreset (fun s₁ hpick => ?_) fun next s₁ hpick => ?_
  · rw [hpick] at hwf hrun hcurrent
    change s₁.current h = s.current h at hcurrent
    rw [← hcurrent] at hrun ⊢
    exact hwf.resumeCurrent hrun (fun _ => rfl) (fun _ => rfl) fun _ => rfl
  · rw [hpick] at hwf hrun
    exact hwf.resumeFrame hrun

theorem onTick (frame : TrapFrame) :
    Wf (s.onTick b frame h).2 fun _ => False := by
  refine onTick_rule (P := (Wf · fun _ => False)) ?_ fun hticked => preempt hticked frame
  exact hs.thin rfl rfl rfl rfl (fun _ _ _ => le_rfl) rfl fun _ => rfl

theorem forceKillCurrent :
    Wf (s.forceKillCurrent b h).2 fun _ => False := by
  unfold Scheduler.forceKillCurrent
  dsimp only
  split
  · next hkill =>
    have hid : ¬ s.Idle (s.current h) := by
      intro hidle
      obtain ⟨h', heq⟩ := hidle
      rw [← heq, hs.idle_kill] at hkill
      cases hkill
    have hleft : Wf s (· = h) := hs.leave fun _ hfalse => hfalse.elim
    have hretired := hleft.retire (f := fun t =>
      { t with frameValid := false, ctxValid := false, woken := false }) (hs.current_lt h) hid
      (hs.loose_current hid) rfl
    generalize s.retire (s.current h) _ = s₁ at hretired ⊢
    have hcleared : Wf ({ s₁ with
        killRequest := Function.update s₁.killRequest (s.current h) false }.resetTicks h)
        (· = h) := by
      refine Wf.resetTicks (hretired.thin rfl rfl rfl rfl (fun _ _ _ => le_rfl) rfl fun x => ?_)
      by_cases hx : s₁.idle x = s.current h
      · simp only [hx, Function.update_self]
        rw [← hx, hretired.idle_kill]
      · exact Function.update_of_ne hx _ _
    obtain ⟨hwf, hrun⟩ := hcleared.pickNext h false
    exact hwf.resumeFrame hrun
  · exact hs

/-! ## New threads -/

/-- A new thread in a slot that the table did not have. -/
theorem grow {t : Thread} (hlen : s'.len = s.len + 1)
    (hthread : s'.thread = Function.update s.thread s.len t) (hready : s'.ready = s.ready)
    (hcurrent : s'.current = s.current) (hidle : s'.idle = s.idle)
    (hfree : s'.freeSlots = s.freeSlots) (hkill : ∀ h, s'.killRequest (s.idle h) = false)
    (hstate : t.state ≠ .exited) : Wf s' fun _ => False := by
  have hother : ∀ x, x < s.len → s'.thread x = s.thread x := by
    intro x hx
    rw [hthread, Function.update_of_ne (Nat.ne_of_lt hx)]
  have hocc : ∀ x, s'.occ x = s.occ x := by
    intro x
    rw [Scheduler.occ, Scheduler.occ, hready]
  refine {
    placed := fun x hlt hid => ?_
    idle_lt := fun h => by rw [hidle, hlen]; exact Nat.lt_succ_of_lt (hs.idle_lt h)
    current_lt := fun h => by rw [hcurrent, hlen]; exact Nat.lt_succ_of_lt (hs.current_lt h)
    queued_lt := fun x hx => by rw [hlen]; exact Nat.lt_succ_of_lt (hs.queued_lt x (hocc x ▸ hx))
    free_lt := fun x hx => by rw [hlen]; exact Nat.lt_succ_of_lt (hs.free_lt x (hfree ▸ hx))
    free_nodup := hfree ▸ hs.free_nodup
    free_idle := fun h => by rw [hidle, hfree]; exact hs.free_idle h
    idle_proc := fun h => by rw [hidle, hother _ (hs.idle_lt h)]; exact hs.idle_proc h
    idle_kill := fun h => by rw [hidle]; exact hkill h }
  rw [Scheduler.Idle, hidle] at hid
  rw [hlen] at hlt
  rcases Nat.lt_succ_iff_lt_or_eq.mp hlt with hlt | rfl
  · obtain ⟨honce, hqueued, hfreed, hcur⟩ := hs.placed x hlt hid
    refine ⟨by rwa [hocc], ?_, ?_, ?_⟩
    · rwa [hready, hother x hlt]
    · rwa [hfree, hother x hlt]
    · rwa [hcurrent, hother x hlt]
  · have hzero : s.occ s.len = 0 := by
      by_contra hne
      exact Nat.lt_irrefl _ (hs.queued_lt _ (Nat.pos_of_ne_zero hne))
    refine ⟨by rw [hocc, hzero]; exact Nat.zero_le 1, fun h l hin => ?_, ?_, fun h heq => ?_⟩
    · have hpos : 0 < s.occ s.len := occ_pos (hready ▸ hin)
      omega
    · rw [hthread, Function.update_self, hfree]
      exact iff_of_false (fun hin => Nat.lt_irrefl _ (hs.free_lt _ hin)) hstate
    · rw [hcurrent] at heq
      exact absurd (hs.current_lt h) (heq ▸ Nat.lt_irrefl _)

/-- A new thread in a free slot. -/
theorem reuse {t : Thread} (hslot : s.freeSlots = id :: s'.freeSlots)
    (hlen : s'.len = s.len) (hthread : s'.thread = Function.update s.thread id t)
    (hready : s'.ready = s.ready) (hcurrent : s'.current = s.current) (hidle : s'.idle = s.idle)
    (hkill : ∀ h, s'.killRequest (s.idle h) = false) (hstate : t.state ≠ .exited) :
    Wf s' fun _ => False := by
  have hin : id ∈ s.freeSlots := by simp [hslot]
  have hlt := hs.free_lt id hin
  have hnodup := hs.free_nodup
  rw [hslot, List.nodup_cons] at hnodup
  have hid : ¬ s.Idle id := by
    intro hidle
    obtain ⟨h, rfl⟩ := hidle
    exact hs.free_idle h hin
  have hp := hs.placed id hlt hid
  have hexited := hp.free.mp hin
  refine hs.update (· = id) hlen hidle hcurrent (fun x hx => ?_) (fun x _ h l => by rw [hready])
    (fun x hx => by simp [hslot, hx]) (fun x hx => ?_) hnodup.2 hkill
  · rw [hthread, Function.update_of_ne hx]
    exact ⟨rfl, rfl, fun _ => rfl⟩
  · subst hx
    refine ⟨hlt, fun _ => ⟨?_, fun h l hq => ?_, ?_, fun h heq => ?_⟩, fun h => absurd h hid⟩
    · rw [Scheduler.occ, hready]
      exact hp.once
    · have hqueued := (hp.queued h l (hready ▸ hq)).1
      rw [hexited] at hqueued
      cases hqueued
    · rw [hthread, Function.update_self]
      exact iff_of_false hnodup.1 hstate
    · have hrunning := (hp.current h (hcurrent ▸ heq)).2 not_false
      rw [hexited] at hrunning
      cases hrunning

/-- A new thread in a slot that was taken for it, before it is queued. -/
theorem seat {t : Thread} {s₁ : Scheduler}
    (hslot : s.takeSlot = some (id, s₁)) (hstate : t.state = .ready) :
    Wf (s₁.seat id t) (fun _ => False) ∧ Loose (s₁.seat id t) (fun _ => False) id ∧
      ¬ s.Idle id := by
  have hexited : t.state ≠ .exited := by simp [hstate]
  have hkill : ∀ h, Function.update s.killRequest id false (s.idle h) = false := by
    intro h
    by_cases hx : s.idle h = id
    · rw [hx, Function.update_self]
    · rw [Function.update_of_ne hx]
      exact hs.idle_kill h
  rw [takeSlot] at hslot
  split at hslot
  · next id' rest hfree =>
    obtain ⟨rfl, rfl⟩ := Prod.mk.inj (Option.some.inj hslot)
    have hin : id' ∈ s.freeSlots := by simp [hfree]
    have hlt := hs.free_lt id' hin
    have hid : ¬ s.Idle id' := by
      intro hidle
      obtain ⟨h, rfl⟩ := hidle
      exact hs.free_idle h hin
    have hp := hs.placed id' hlt hid
    have hold := hp.free.mp hin
    have hlen : max s.len (id' + 1) = s.len := by omega
    refine ⟨hs.reuse hfree hlen rfl rfl rfl rfl hkill hexited,
      ⟨hp.not_queued (by simp [hold]), ?_, fun h heq => ?_⟩, hid⟩
    · have hnodup := hs.free_nodup
      rw [hfree, List.nodup_cons] at hnodup
      exact hnodup.1
    · have hrunning := (hp.current h heq).2 not_false
      rw [hold] at hrunning
      cases hrunning
  · split at hslot
    · obtain ⟨rfl, rfl⟩ := Prod.mk.inj (Option.some.inj hslot)
      have hid : ¬ s.Idle s.len := by
        intro hidle
        obtain ⟨h, heq⟩ := hidle
        exact Nat.lt_irrefl _ (heq ▸ hs.idle_lt h)
      have hocc : s.occ s.len = 0 := by
        by_contra hne
        exact Nat.lt_irrefl _ (hs.queued_lt _ (Nat.pos_of_ne_zero hne))
      have hlen : max s.len (s.len + 1) = s.len + 1 := by omega
      exact ⟨hs.grow hlen rfl rfl rfl rfl rfl hkill hexited,
        ⟨hocc, fun hin => Nat.lt_irrefl _ (hs.free_lt _ hin),
          fun h heq => Nat.lt_irrefl _ (heq ▸ hs.current_lt h)⟩, hid⟩
    · cases hslot

theorem takeSlot_le {s₁ : Scheduler} (hslot : s.takeSlot = some (id, s₁)) : id ≤ s.len := by
  rw [takeSlot] at hslot
  split at hslot
  · next hfree =>
    cases hslot
    exact (hs.free_lt id (by simp [hfree])).le
  · split at hslot <;> cases hslot
    exact le_rfl

end

theorem lt_seat (s : Scheduler) (id : Nat) (t : Thread) : id < (s.seat id t).len :=
  Nat.lt_of_lt_of_le (Nat.lt_succ_self id) (Nat.le_max_right _ _)

/-- A new thread in a slot that was taken for it. -/
theorem place {t : Thread} {s₁ : Scheduler} (hs : Wf s fun _ => False)
    (hslot : s.takeSlot = some (id, s₁)) (hstate : t.state = .ready) :
    Wf (s₁.place id t) (fun _ => False) ∧ ¬ s.Idle id := by
  obtain ⟨hwf, hloose, hid⟩ := hs.seat hslot hstate
  exact ⟨hwf.enqueue (lt_seat s₁ id t) fun _ => hloose, hid⟩

theorem spawn {entry prio stack : Nat} {result : Nat × Scheduler} (hs : Wf s fun _ => False)
    (hstep : s.spawn b h entry prio stack = some result) :
    Wf result.2 (fun _ => False) ∧ ¬ result.2.Idle result.1 := by
  obtain ⟨⟨id, s₁⟩, hslot, rfl⟩ := Option.map_eq_some_iff.mp hstep
  obtain ⟨hwf, hid⟩ := hs.place (t := .kernel b h entry prio stack) hslot rfl
  obtain ⟨free, rfl⟩ := takeSlot_eq hslot
  exact ⟨hwf, hid⟩

theorem spawnUser {proc root entryPc stackTop prio argc argv : Nat} {result : Nat × Scheduler}
    (hs : Wf s fun _ => False)
    (hstep : s.spawnUser b h proc root entryPc stackTop prio argc argv = some result) :
    Wf result.2 fun _ => False := by
  obtain ⟨⟨id, s₁⟩, hslot, rfl⟩ := Option.map_eq_some_iff.mp hstep
  exact (hs.place hslot rfl).1

theorem spawnOwned {entry prio proc stack : Nat} {result : Nat × Scheduler}
    (hs : Wf s fun _ => False) (hstep : s.spawnOwned b h entry prio proc stack = some result) :
    Wf result.2 fun _ => False := by
  obtain ⟨⟨id, s₁⟩, hspawn, rfl⟩ := Option.map_eq_some_iff.mp hstep
  obtain ⟨hwf, hid⟩ := hs.spawn hspawn
  have howned : Wf (s₁.modify id fun t => { t with proc := some proc }) fun _ => False :=
    hwf.modify_same rfl rfl fun hidle => absurd hidle hid
  dsimp only
  split
  · exact howned.requeueProcThreads proc
  · exact howned

/-! ## Killing a process -/

end Wf

/-- What killing one thread does to the others. -/
theorem killThread_other (s : Scheduler) {a x : Nat} (hne : x ≠ a) :
    (s.killThread a).thread x = s.thread x := by
  rw [killThread]
  split
  · rfl
  · exact Function.update_of_ne hne _ _

theorem killThread_plan (s : Scheduler) (a : Nat) : (s.killThread a).len = s.len ∧
    (s.killThread a).idle = s.idle ∧ (s.killThread a).ready = s.ready ∧
    (s.killThread a).freeSlots =
      s.freeSlots ++ if (s.thread a).state = .running then [] else [a] := by
  rw [killThread]
  split
  · exact ⟨rfl, rfl, rfl, (List.append_nil _).symm⟩
  · exact ⟨rfl, rfl, rfl, rfl⟩

namespace Wf

theorem killThread (hs : Wf s fun _ => False) (hlt : id < s.len) (hid : ¬ s.Idle id)
    (hocc : s.occ id = 0) (hlive : (s.thread id).state ≠ .exited) :
    Wf (s.killThread id) fun _ => False := by
  have hp := hs.placed id hlt hid
  rw [Scheduler.killThread]
  split
  · refine hs.thin rfl rfl rfl rfl (fun _ _ _ => le_rfl) rfl fun h => ?_
    exact Function.update_of_ne (fun heq => hid ⟨h, heq⟩) _ _
  · next hrunning =>
    refine hs.retire hlt hid ⟨hocc, fun hin => hlive (hp.free.mp hin), fun h heq => ?_⟩ rfl
    exact hrunning ((hp.current h heq).2 not_false)

/-- Different threads that have not exited are killed one after the other. -/
theorem kill_all {ids : List Nat} (hs : Wf s fun _ => False) (hnodup : ids.Nodup)
    (hids : ∀ x ∈ ids, x < s.len ∧ ¬ s.Idle x ∧ s.occ x = 0 ∧ (s.thread x).state ≠ .exited) :
    Wf (ids.foldl Scheduler.killThread s) fun _ => False := by
  induction ids generalizing s with
  | nil => exact hs
  | cons a ids ih =>
    obtain ⟨ha, hnodup⟩ := List.nodup_cons.mp hnodup
    obtain ⟨hlt, hid, hocc, hlive⟩ := hids a (by simp)
    obtain ⟨hlen, hidle, hready, -⟩ := killThread_plan s a
    refine ih (hs.killThread hlt hid hocc hlive) hnodup fun x hx => ?_
    have hne : x ≠ a := fun heq => ha (heq ▸ hx)
    rw [hlen, Scheduler.Idle, hidle, Scheduler.occ, hready, killThread_other s hne]
    exact hids x (by simp [hx])

/-- No thread of the process but the caller has exited before. -/
theorem killProcess {pid : Nat} (hs : Wf s fun _ => False)
    (hlive : ∀ x ∈ s.victims h pid, (s.thread x).state ≠ .exited) :
    Wf (s.killProcess h pid).2.2 fun _ => False := by
  have hthin : Wf { s with ready := fun h' l => (s.ready h' l).filter (· ∉ s.victims h pid) }
      fun _ => False :=
    hs.thin rfl rfl rfl rfl (fun x _ _ => List.filter_sublist.count_le x) rfl fun _ => rfl
  refine Wf.requeues.revokeDonationsOf
    (Wf.requeues.revokeDonationsForProc (hthin.kill_all ?_ fun x hx => ?_) _) _ _
  · exact List.nodup_range.filter _
  · obtain ⟨hlt, hproc⟩ := List.mem_filter.mp hx
    simp only [List.mem_range] at hlt
    simp only [decide_eq_true_eq] at hproc
    refine ⟨hlt, fun hidle => ?_, ?_, hlive x hx⟩
    · obtain ⟨h', rfl⟩ := hidle
      rw [hs.idle_proc] at hproc
      cases hproc.1
    · by_contra hne
      obtain ⟨h', l, hin⟩ := mem_ready_of_occ (Nat.pos_of_ne_zero hne)
      have hnot := (List.mem_filter.mp hin).2
      simp only [decide_eq_true_eq] at hnot
      exact hnot hx

end Wf

end Sections

end Ignium.Sched
