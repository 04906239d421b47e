import Ignium.Sched.Tidy

/-!
# The ready queues

`QueueLaw` says that the ready queues agree with the thread table: a thread is queued at most once,
it is queued exactly if it is ready, the queue is one of its hart, and no hart runs a thread that is
queued. `always_queueLaw` proves it for all runs of the sections whose steps meet `KeepsQueues`.
Three things break it. A kill that meets a thread that has exited before frees its slot twice, and
two new threads then share it. A kill interrupt that finds nothing to resume from a frame returns to
the idle thread although that thread is still queued (`not_queueLaw_forceKill`). And an idle thread
that is moved to another hart is queued there, while its own hart goes on to use it.
-/

namespace Ignium.Sched

open Scheduler

/-- Between two sections no hart is away and no thread is out of its queue. -/
def Tidied (s : Scheduler) : Prop := Tidy s (fun _ => False) fun _ => False

section Sections

variable {s s' : Scheduler} {away : Hart → Prop} {b : Boot} {h : Hart} {id : Nat}

theorem removeFromReady_eq_self (hocc : s.occ id = 0) : s.removeFromReady id = s := by
  rw [removeFromReady]
  split
  · next l hfind =>
    have hin : id ∈ s.ready (s.thread id).hart l := by simpa using List.find?_some hfind
    have hpos := occ_pos hin
    omega
  · rfl

/-- A loose thread is queued, and no other thread is out. -/
theorem Tidy.list {out : Nat → Prop} (hs : Tidy s away out) (hlt : id < s.len)
    (hloose : Loose s away id) (hvalid : s.Idle id → s.resumable true id = true)
    (hout : ∀ x, out x → x = id) : Tidy (s.enqueue id) away fun _ => False :=
  (hs.enqueue hlt hloose hvalid).weaken fun x _ ho => ho.2 (hout x ho.1)

namespace Tidied

section

variable (hs : Tidied s)
include hs

theorem left (h : Hart) : Tidy s (· = h) fun _ => False :=
  Tidy.leave hs fun _ hfalse => hfalse.elim

theorem running (h : Hart) : (s.thread (s.current h)).state = .running :=
  (Tidy.current hs h).2 not_false

/-! ## Switches -/

theorem yield : Tidied (s.yield h).2 := by
  have hsaved : Tidy (s.modify (s.current h) fun t => { t with frameValid := false, ctxValid := true })
      (· = h) fun _ => False :=
    (hs.left h).modify_same rfl rfl (fun _ => rfl) fun _ _ => rfl
  have hdrained : Tidy { s.modify (s.current h) fun t =>
      { t with frameValid := false, ctxValid := true } with reaper := [] } (· = h) fun _ => False :=
    hsaved.congr (hsaved.wf.thin rfl rfl rfl rfl (fun _ _ _ => le_rfl) rfl fun _ => rfl) rfl rfl rfl
      rfl rfl
  refine (hdrained.list (hs.wf.current_lt h) ?_ (fun _ => ?_) fun _ ho => ho.elim).dispatch
  · exact (hs.loose_current h).congr rfl rfl rfl
  · simp [resumable, Scheduler.modify]

theorem exit (hid : ¬ s.Idle (s.current h)) : Tidied (s.exit h).2 :=
  ((hs.left h).retire (hs.wf.current_lt h) hid (hs.loose_current h) rfl).dispatch

/-- A running thread finds a wake-up and goes on. -/
theorem stay {f : Thread → Thread} (hstate : ∀ t, (f t).state = .running)
    (hhart : ∀ t, (f t).hart = t.hart) (hproc : ∀ t, (f t).proc = t.proc) :
    Tidied (s.modify (s.current h) f) := by
  refine Tidy.modify_same hs (by rw [hstate, hs.running]) (hhart _) (fun _ => hproc _)
    fun _ hready => ?_
  rw [hs.running] at hready
  cases hready

/-- A running thread blocks, and the hart goes on with another one. -/
theorem sleep (hid : ¬ s.Idle (s.current h)) {f : Thread → Thread}
    (hstate : ∀ t, (f t).state = .blocked) (hhart : ∀ t, (f t).hart = t.hart)
    (hproc : ∀ t, (f t).proc = t.proc) : Tidied ((s.modify (s.current h) f).dispatch h).2 := by
  refine Tidy.dispatch ((hs.left h).setState (hs.wf.current_lt h) (hs.loose_current h)
    (by simp [hstate]) (hhart _) (hproc _) (fun _ ho => ho) (fun hready => ?_)
    fun hidle => absurd hidle hid)
  rw [hstate] at hready
  cases hready

theorem blockCurrent (hid : ¬ s.Idle (s.current h)) :
    Tidied (s.blockCurrent h).2 := by
  unfold Scheduler.blockCurrent
  dsimp only
  split
  · refine Tidy.requeues.revokeDonations ?_ _
    exact hs.stay (fun _ => rfl) (fun _ => rfl) fun _ => rfl
  · split
    · next hready =>
      rw [hs.running] at hready
      cases hready
    · split
      · dsimp only
        exact hs.stay (fun _ => rfl) (fun _ => rfl) fun _ => rfl
      · exact hs.sleep hid (fun _ => rfl) (fun _ => rfl) fun _ => rfl

theorem blockResumed : Tidied (s.blockResumed h) := by
  have hocc : s.occ (s.current h) = 0 := (hs.loose_current h).occ
  unfold Scheduler.blockResumed
  dsimp only
  rw [removeFromReady_eq_self hocc]
  exact Tidy.modify_same hs rfl rfl (fun _ => rfl) fun hidle hready => by
    rw [hs.running] at hready
    cases hready

theorem blockUserFromTrap (hid : ¬ s.Idle (s.current h)) (frame : TrapFrame) :
    Tidied (s.blockUserFromTrap h frame).2 := by
  have hclear : Tidied ((s.modify (s.current h) fun t =>
      { t with ipcWake := none, state := .running }).revokeDonations (s.current h)) := by
    refine Tidy.requeues.revokeDonations ?_ _
    exact hs.stay (fun _ => rfl) (fun _ => rfl) fun _ => rfl
  unfold Scheduler.blockUserFromTrap
  dsimp only
  split
  · exact hclear
  · exact hclear
  · exact hs.sleep hid (fun _ => rfl) (fun _ => rfl) fun _ => rfl

theorem secondaryIdle : Tidied (s.secondaryIdle h).2 := by
  obtain ⟨htidy, hp⟩ := ((hs.left h).resetTicks (h := h)).pickNext h true fun _ => .inl rfl
  have hsame := pickNext_plan (s.resetTicks h) h true
  unfold Scheduler.secondaryIdle
  rcases hpick : (s.resetTicks h).pickNext h true with ⟨next, s'⟩
  rw [hpick] at htidy hp hsame
  have hback : Tidied (s'.setCurrent h next) := htidy.back hp
  dsimp only
  split
  · next hnext =>
    rwa [setCurrent_self ((congrFun hsame.current h).trans hnext.symm)] at hback
  · exact hback

/-! ## Wake-ups -/

/-- A blocked thread is loose, and it is no idle thread. -/
theorem loose_blocked (hblocked : (s.thread id).state = .blocked) :
    Loose s (fun _ => False) id ∧ ¬ s.Idle id := by
  refine ⟨⟨hs.not_queued (by simp [hblocked]), hs.not_free (by simp [hblocked]), fun h heq => ?_⟩,
    fun hidle => ?_⟩
  · have hrunning := hs.running h
    rw [heq, hblocked] at hrunning
    cases hrunning
  · obtain ⟨h, rfl⟩ := hidle
    have hstate := (hs.idle h).state
    rw [hblocked] at hstate
    rcases hstate with hstate | hstate <;> cases hstate

/-- A blocked thread is queued. -/
theorem rouse (hlt : id < s.len) (hblocked : (s.thread id).state = .blocked) :
    Tidied (s.enqueue id) := by
  obtain ⟨hloose, hid⟩ := hs.loose_blocked hblocked
  exact Tidy.list hs hlt hloose (fun hidle => absurd hidle hid) fun _ ho => ho.elim

theorem wake : Tidied (s.wake id) := by
  unfold Scheduler.wake
  dsimp only
  split
  · next hlt =>
    have hwoken : Tidied (s.modify id fun t => { t with woken := true }) :=
      Tidy.modify_same hs rfl rfl (fun _ => rfl) fun hidle hready => by
        obtain ⟨h, rfl⟩ := hidle
        exact (hs.idle h).valid hready
    split
    · next hblocked => exact hwoken.rouse hlt hblocked
    · exact hwoken
  · exact hs

/-- A result is written to a thread, which is queued if it was blocked. -/
theorem delivered {r : IpcWake} (hstep : Delivered s id r s') : Tidied s' := by
  have hwritten : ∀ {f : Thread → Thread}, Reply f → Tidied (s.modify id f) := fun hf =>
    Tidy.modify_same hs (hf.state _) (hf.hart _) (fun _ => hf.proc _) fun hidle hready => by
      obtain ⟨h, rfl⟩ := hidle
      rw [hf]
      exact (hs.idle h).valid hready
  cases hstep with
  | noted hf => exact hwritten hf
  | woken hf hlt hblocked =>
    refine Tidy.requeues.revokeDonations ((hwritten hf).rouse hlt ?_) id
    rw [modify_self, hf.state, hblocked]

theorem donateOnBlock {peer : Nat} (hstep : s.donateOnBlock id peer = some s') : Tidied s' := by
  rw [Scheduler.donateOnBlock] at hstep
  split at hstep
  · cases hstep
    exact Tidy.requeueProcThreads (Tidy.requeues.drop s _ hs) peer
  · cases hstep

end

/-- A loose thread that is not idle moves to another hart. -/
theorem setHart {out : Nat → Prop} (hs : Tidy s (fun _ => False) out) (hlt : id < s.len)
    (hid : ¬ s.Idle id) (hloose : Loose s (fun _ => False) id)
    (hout : (s.thread id).state = .ready → out id) (hart : Hart) :
    Tidy (s.modify id fun t => { t with hart := hart }) (fun _ => False) out := by
  refine hs.update (hs.wf.setHart hlt (fun _ => hloose) hart) (· = id) (fun x hx => .inl hx) hs.few
    rfl rfl (fun x hx => modify_of_ne hx) (fun _ _ _ _ => rfl) (fun _ _ ho => ho)
    (fun x hx _ ho hready => ?_) fun h heq => absurd ⟨h, heq⟩ hid
  subst hx
  rw [modify_self] at hready
  exact absurd (hout hready) ho

theorem setAffinity {hart : Nat} (hs : Tidied s) (hid : ¬ s.Idle id)
    (hstep : s.setAffinity id hart = some s') : Tidied s' := by
  rw [Scheduler.setAffinity] at hstep
  split at hstep
  · next hlt =>
    split at hstep
    · next hready =>
      split at hstep
      · cases hstep
        obtain ⟨hplan, hthread⟩ := removeFromReady_plan s id
        have hremoved : Tidy (s.removeFromReady id) (fun _ => False) (· = id) := by
          rw [removeFromReady]
          split
          · refine Tidy.unlist hs (fun x => count_setReady_le (List.erase_sublist.count_le x))
              (fun x hx => count_setReady (List.count_erase_of_ne hx)) fun _ ho => ho.elim
          · exact hs.weaken fun _ _ ho => ho.elim
        have hloose : Loose (s.removeFromReady id) (fun _ => False) id := by
          refine ⟨(hs.wf.placed id hlt hid).occ_removeFromReady, ?_, fun h heq => ?_⟩
          · rw [hplan.freeSlots]
            exact hs.not_free (by simp [hready])
          · rw [hplan.current] at heq
            have hrunning := hs.running h
            rw [heq, hready] at hrunning
            cases hrunning
        have hlt' : id < (s.removeFromReady id).len := by rwa [hplan.len]
        have hid' : ¬ (s.removeFromReady id).Idle id := by rwa [Scheduler.Idle, hplan.idle]
        exact (setHart hremoved hlt' hid' hloose (fun _ => rfl) (clampHart hart)).list hlt'
          (hloose.congr rfl rfl rfl) (fun hidle => absurd hidle hid') fun _ ho => ho
      · cases hstep
        exact hs
    · next hblocked =>
      cases hstep
      refine setHart hs hlt hid (hs.loose_blocked hblocked).1 (fun hready => ?_) _
      rw [hblocked] at hready
      cases hready
    · cases hstep
  · cases hstep

/-! ## Interrupts -/

theorem resumeFrame {next : Nat} (hs : Tidy s (· = h) fun _ => False) (hp : Picked s h next) :
    Tidied (s.resumeFrame b h next) := by
  unfold Scheduler.resumeFrame
  dsimp only
  split
  · exact hs.back hp
  · exact (hs.back hp).modify_same rfl rfl (fun _ => rfl) fun _ _ => rfl

/-- A picked thread that the hart is at already goes on. -/
theorem resumeCurrent {f : Thread → Thread} (hs : Tidy s (· = h) fun _ => False)
    (hp : Picked s h (s.current h)) (hstate : ∀ t, (f t).state = .running)
    (hhart : ∀ t, (f t).hart = t.hart) (hproc : ∀ t, (f t).proc = t.proc) :
    Tidied ((s.removeFromReady (s.current h)).modify (s.current h) f) := by
  have hback : Tidied (s.setCurrent h (s.current h)) := hs.back hp
  rw [setCurrent_self rfl] at hback
  rw [removeFromReady_eq_self (hs.not_queued (by simp [hp.running]))]
  exact hback.stay hstate hhart hproc

theorem preempt (hs : Tidied s) (frame : TrapFrame) : Tidied (s.preempt b frame h).2 := by
  have hreset : Tidied (s.resetTicks h) := Tidy.resetTicks hs
  have hself := interrupted_self (s.resetTicks h) frame h
  have hqueued : Tidy (interrupted (s.resetTicks h) frame h) (· = h) fun _ => False := by
    have hsaved : Tidy ((s.resetTicks h).modify (s.current h) fun t =>
        { t with frame := frame, frameValid := true, ctxValid := false, state := .ready }) (· = h)
        (· = s.current h) :=
      (hreset.left h).setState (hreset.wf.current_lt h) (hreset.loose_current h) (by simp) rfl rfl
        (fun _ ho => ho.elim) (fun _ => rfl) fun _ => .inr ⟨rfl, rfl⟩
    refine hsaved.list (hreset.wf.current_lt h) ((hreset.loose_current h).congr rfl rfl rfl)
      (fun _ => ?_) fun _ ho => ho
    change Scheduler.resumable _ true (s.current h) = true
    simp [resumable, modify_self]
  -- The thread that was just queued can be resumed, so the search finds one.
  have hfound : ∃ l, ∃ x ∈ (interrupted (s.resetTicks h) frame h).ready h l,
      (interrupted (s.resetTicks h) frame h).resumable false x = true := by
    obtain ⟨h', l, hin⟩ := mem_ready_of_occ (hqueued.listed _ (hreset.wf.current_lt h) not_false
      (congrArg Thread.state hself))
    have hhart := (congrArg Thread.hart hself).trans (Tidy.current hreset h).1
    obtain rfl : h' = h := (hqueued.queued hin).2.2.symm.trans hhart
    refine ⟨l, _, hin, ?_⟩
    rw [resumable, hself]
    rfl
  obtain ⟨htidy, hp⟩ := hqueued.pickNext h false fun _ => .inr hfound
  have hcurrent := congrFun (pickNext_plan (interrupted (s.resetTicks h) frame h) h false).current h
  refine preempt_rule (P := Tidied) hreset (fun s₁ hpick => ?_) fun next s₁ hpick => ?_
  · rw [hpick] at htidy hp hcurrent
    change s₁.current h = s.current h at hcurrent
    rw [← hcurrent] at hp ⊢
    exact resumeCurrent htidy hp (fun _ => rfl) (fun _ => rfl) fun _ => rfl
  · rw [hpick] at htidy hp
    exact resumeFrame htidy hp

theorem onTick (hs : Tidied s) (frame : TrapFrame) : Tidied (s.onTick b frame h).2 := by
  refine onTick_rule (P := Tidied) ?_ fun hticked => preempt hticked frame
  exact Tidy.congr hs (hs.wf.thin rfl rfl rfl rfl (fun _ _ _ => le_rfl) rfl fun _ => rfl) rfl rfl rfl
    rfl rfl

/-- The kill interrupt, when the idle thread is not queued or a queued thread can be resumed. -/
theorem forceKillCurrent (hs : Tidied s)
    (hfall : s.killRequest (s.current h) = true → (s.thread (s.idle h)).state = .ready →
      s.hasOther h prioLevels = true) : Tidied (s.forceKillCurrent b h).2 := by
  unfold Scheduler.forceKillCurrent
  dsimp only
  split
  · next hkill =>
    have hid : ¬ s.Idle (s.current h) := by
      intro hidle
      obtain ⟨h', heq⟩ := hidle
      rw [← heq, hs.wf.idle_kill] at hkill
      cases hkill
    have hretired := (hs.left h).retire (f := fun t =>
      { t with frameValid := false, ctxValid := false, woken := false }) (hs.wf.current_lt h) hid
      (hs.loose_current h) rfl
    have hother : ∀ x, x ≠ s.current h → (s.retire (s.current h) fun t =>
        { t with frameValid := false, ctxValid := false, woken := false }).thread x = s.thread x :=
      fun x hx => Function.update_of_ne hx _ _
    have hready : (s.retire (s.current h) fun t =>
        { t with frameValid := false, ctxValid := false, woken := false }).ready = s.ready := rfl
    have hidle : (s.retire (s.current h) fun t =>
        { t with frameValid := false, ctxValid := false, woken := false }).idle = s.idle := rfl
    generalize s.retire (s.current h) _ = s₁ at hretired hother hready hidle ⊢
    have hcleared : Tidy ({ s₁ with
        killRequest := Function.update s₁.killRequest (s.current h) false }.resetTicks h)
        (· = h) fun _ => False := by
      refine Tidy.resetTicks (hretired.congr ?_ rfl rfl rfl rfl rfl)
      refine hretired.wf.thin rfl rfl rfl rfl (fun _ _ _ => le_rfl) rfl fun x => ?_
      by_cases hx : s₁.idle x = s.current h
      · simp only [hx, Function.update_self]
        rw [← hx, hretired.wf.idle_kill]
      · exact Function.update_of_ne hx _ _
    have hfound : (s₁.thread (s₁.idle h)).state = .ready →
        ∃ l, ∃ x ∈ s₁.ready h l, s₁.resumable false x = true := by
      intro hstate
      rw [hidle, hother _ fun heq => hid ⟨h, heq⟩] at hstate
      obtain ⟨l, -, hany⟩ := List.any_eq_true.mp (hfall hkill hstate)
      simp only [Bool.and_eq_true, List.any_eq_true, decide_eq_true_eq, preemptable] at hany
      obtain ⟨-, x, hin, hne, -, hresume⟩ := hany
      refine ⟨l, x, hready ▸ hin, ?_⟩
      rw [resumable, hother x hne]
      exact hresume
    obtain ⟨htidy, hp⟩ := hcleared.pickNext h false fun hstate => .inr (hfound hstate)
    exact resumeFrame htidy hp
  · exact hs

/-! ## New threads -/

theorem place {t : Thread} {s₁ : Scheduler} (hs : Tidied s) (hslot : s.takeSlot = some (id, s₁))
    (hstate : t.state = .ready) : Tidied (s₁.place id t) := by
  obtain ⟨hwf, hloose, hid⟩ := hs.wf.seat hslot hstate
  have hle := hs.wf.takeSlot_le hslot
  have hfew : max s.len (id + 1) ≤ maxThreads := by
    have hlen := hs.few
    rw [takeSlot] at hslot
    split at hslot
    · next hfree =>
      cases hslot
      have hlt := hs.wf.free_lt id (by simp [hfree])
      omega
    · split at hslot
      · cases hslot
        omega
      · cases hslot
  obtain ⟨free, rfl⟩ := takeSlot_eq hslot
  have hseat : Tidy (Scheduler.seat { s with freeSlots := free } id t) (fun _ => False)
      (· = id) := by
    refine Tidy.update hs hwf (· = id) (fun x hx => ?_) hfew rfl rfl
      (fun x hx => Function.update_of_ne hx _ _) (fun _ _ _ _ => rfl) (fun _ _ ho => ho.elim)
      (fun x hx _ ho => absurd hx ho) fun h heq => absurd ⟨h, heq⟩ hid
    change x < max s.len (id + 1) at hx
    omega
  exact hseat.list (Wf.lt_seat _ id t) hloose (fun hidle => absurd hidle hid) fun _ ho => ho

theorem spawn {entry prio stack : Nat} {result : Nat × Scheduler} (hs : Tidied s)
    (hstep : s.spawn b h entry prio stack = some result) : Tidied result.2 := by
  obtain ⟨⟨id, s₁⟩, hslot, rfl⟩ := Option.map_eq_some_iff.mp hstep
  exact hs.place hslot rfl

theorem spawnUser {proc root entryPc stackTop prio argc argv : Nat} {result : Nat × Scheduler}
    (hs : Tidied s)
    (hstep : s.spawnUser b h proc root entryPc stackTop prio argc argv = some result) :
    Tidied result.2 := by
  obtain ⟨⟨id, s₁⟩, hslot, rfl⟩ := Option.map_eq_some_iff.mp hstep
  exact hs.place hslot rfl

theorem spawnOwned {entry prio proc stack : Nat} {result : Nat × Scheduler} (hs : Tidied s)
    (hstep : s.spawnOwned b h entry prio proc stack = some result) : Tidied result.2 := by
  obtain ⟨⟨id, s₁⟩, hspawn, rfl⟩ := Option.map_eq_some_iff.mp hstep
  have hid := (hs.wf.spawn hspawn).2
  have howned : Tidied (s₁.modify id fun t => { t with proc := some proc }) :=
    Tidy.modify_same (hs.spawn hspawn) rfl rfl (fun hidle => absurd hidle hid) fun hidle =>
      absurd hidle hid
  dsimp only
  split
  · exact Tidy.requeueProcThreads howned proc
  · exact howned

/-! ## Killing a process -/

/-- Different threads that are in no queue and have not exited are killed one after the other. -/
theorem kill_all {ids : List Nat} (hs : Tidy s (fun _ => False) (· ∈ ids)) (hnodup : ids.Nodup)
    (hids : ∀ x ∈ ids, x < s.len ∧ ¬ s.Idle x ∧ s.occ x = 0 ∧ (s.thread x).state ≠ .exited) :
    Tidied (ids.foldl Scheduler.killThread s) := by
  induction ids generalizing s with
  | nil => exact hs.weaken fun x _ ho => List.not_mem_nil ho
  | cons a ids ih =>
    obtain ⟨ha, hnodup⟩ := List.nodup_cons.mp hnodup
    obtain ⟨hlt, hid, hocc, hlive⟩ := hids a (by simp)
    obtain ⟨hlen, hidle, hready, -⟩ := killThread_plan s a
    have hkilled : Tidy (s.killThread a) (fun _ => False) (· ∈ a :: ids) ∧
        ((s.killThread a).thread a).state ≠ .ready := by
      have hwf := hs.wf.killThread hlt hid hocc hlive
      rw [Scheduler.killThread] at hwf ⊢
      split at hwf
      · next hrunning =>
        rw [if_pos hrunning]
        exact ⟨hs.congr hwf rfl rfl rfl rfl rfl, by simp [hrunning]⟩
      · next hrunning =>
        rw [if_neg hrunning]
        refine ⟨hs.retire hlt hid ⟨hocc, hs.not_free hlive, fun h heq => ?_⟩ rfl, ?_⟩
        · have hstate := (hs.current h).2 not_false
          rw [heq] at hstate
          exact hrunning hstate
        · simp [Scheduler.retire, Scheduler.modify]
    refine ih (hkilled.1.weaken fun x hx ho => ?_) hnodup fun x hx => ?_
    · rcases List.mem_cons.mp ho with rfl | ho
      · exact absurd hx hkilled.2
      · exact ho
    · have hne : x ≠ a := fun heq => ha (heq ▸ hx)
      rw [hlen, Scheduler.Idle, hidle, Scheduler.occ, hready, killThread_other s hne]
      exact hids x (by simp [hx])

/-- No thread of the process but the caller has exited before. -/
theorem killProcess {pid : Nat} (hs : Tidied s)
    (hlive : ∀ x ∈ s.victims h pid, (s.thread x).state ≠ .exited) :
    Tidied (s.killProcess h pid).2.2 := by
  have hthin : Tidy { s with ready := fun h' l => (s.ready h' l).filter (· ∉ s.victims h pid) }
      (fun _ => False) (· ∈ s.victims h pid) :=
    Tidy.unlist hs (fun x _ _ => List.filter_sublist.count_le x)
      (fun x hx _ _ => List.count_filter (by simpa using hx)) fun _ ho => ho.elim
  refine Tidy.requeues.revokeDonationsOf
    (Tidy.requeues.revokeDonationsForProc (kill_all hthin ?_ fun x hx => ?_) _) _ _
  · exact List.nodup_range.filter _
  · obtain ⟨hlt, hproc⟩ := List.mem_filter.mp hx
    simp only [List.mem_range] at hlt
    simp only [decide_eq_true_eq] at hproc
    refine ⟨hlt, fun hidle => ?_, ?_, hlive x hx⟩
    · obtain ⟨h', rfl⟩ := hidle
      rw [hs.wf.idle_proc] at hproc
      cases hproc.1
    · by_contra hne
      obtain ⟨h', l, hin⟩ := mem_ready_of_occ (Nat.pos_of_ne_zero hne)
      have hnot := (List.mem_filter.mp hin).2
      simp only [decide_eq_true_eq] at hnot
      exact hnot hx

end Tidied

end Sections

/-! ## The law of the queues -/

/-- The ready queues agree with the thread table. -/
structure QueueLaw (s : Scheduler) : Prop where
  /-- No thread is queued twice. -/
  nodup : s.queues.Nodup
  /-- The queued threads are those that are ready. -/
  listed : ∀ id, id ∈ s.queues ↔ id < s.len ∧ (s.thread id).state = .ready
  /-- A queue holds threads of its hart. -/
  hart : ∀ h l, ∀ id ∈ s.ready h l, (s.thread id).hart = h
  /-- A thread that a hart runs is not queued. -/
  current : ∀ h h' l, s.current h ∉ s.ready h' l

/-- A kill meets no thread that has exited before, a kill interrupt finds a thread to resume unless
the idle thread is not queued, and idle threads stay on their harts. -/
def KeepsQueues (s : Scheduler) : SchedOp → Prop
  | .killProcess h pid => ∀ id ∈ s.victims h pid, (s.thread id).state ≠ .exited
  | .forceKillCurrent h => s.killRequest (s.current h) = true →
      (s.thread (s.idle h)).state = .ready → s.hasOther h prioLevels = true
  | .setAffinity id _ => ¬ s.Idle id
  | _ => True

instance (s : Scheduler) : ∀ op, Decidable (KeepsQueues s op)
  | .killProcess h pid =>
    inferInstanceAs (Decidable (∀ id ∈ s.victims h pid, (s.thread id).state ≠ .exited))
  | .forceKillCurrent h => inferInstanceAs (Decidable (s.killRequest (s.current h) = true →
      (s.thread (s.idle h)).state = .ready → s.hasOther h prioLevels = true))
  | .setAffinity id _ => inferInstanceAs (Decidable (¬ s.Idle id))
  | .spawn .. | .spawnUser .. | .spawnOwned .. | .exit .. | .exitFromTrap .. | .onTick .. | .yield ..
  | .blockCurrent .. | .blockResumed .. | .blockUserFromTrap .. | .wake .. | .ipcWakeWithMsg ..
  | .ipcWakeWithErr .. | .donateOnBlock .. | .secondaryIdle .. | .threadEntry .. | .takeIpcMsg ..
  | .drainReaper => inferInstanceAs (Decidable True)

section Law

variable {s s' : Scheduler} {b : Boot} {op : SchedOp}

theorem mem_queues {id : Nat} : id ∈ s.queues ↔ 0 < s.occ id := by
  rw [← List.count_pos_iff, count_queues]

theorem Tidied.queueLaw (hs : Tidied s) : QueueLaw s where
  nodup := List.nodup_iff_count_le_one.mpr fun id => by
    rw [count_queues]
    exact Tidy.once hs id
  listed id := by
    rw [mem_queues]
    constructor
    · intro hpos
      obtain ⟨h, l, hin⟩ := mem_ready_of_occ hpos
      exact ⟨(Tidy.queued hs hin).1, (Tidy.queued hs hin).2.1⟩
    · intro hready
      exact hs.listed id hready.1 not_false hready.2
  hart h l id hin := (Tidy.queued hs hin).2.2
  current h h' l hin := by
    have hready := (Tidy.queued hs hin).2.1
    rw [hs.running h] at hready
    cases hready

theorem Tidied.init (b : Boot) (stackOf : Hart → Nat) : Tidied (Scheduler.init b stackOf) where
  wf := Wf.init b stackOf
  few := show maxHarts ≤ maxThreads by decide
  listed id hlt _ hready := by cases hready
  idle h := {
    once := by simp [Scheduler.occ, Scheduler.init]
    queued := by simp [Scheduler.init]
    hart := by
      change clampHart h = h
      exact Fin.ext (min_eq_left (Nat.le_pred_of_lt h.isLt))
    state := .inr rfl
    valid := fun hready => by cases hready
    current := fun h' heq => ⟨Fin.ext heq, fun _ => rfl⟩ }

/-- Every section that meets the condition keeps the queues in order. -/
theorem Tidied.step (hs : Tidied s) (hstep : s.step b op = some s') (hkeeps : KeepsQueues s op) :
    Tidied s' := by
  cases op with
  | spawn h entry prio stack =>
    obtain ⟨result, hspawn, rfl⟩ := Option.map_eq_some_iff.mp hstep
    exact hs.spawn hspawn
  | spawnUser h proc root entryPc stackTop prio argc argv =>
    obtain ⟨result, hspawn, rfl⟩ := Option.map_eq_some_iff.mp hstep
    exact hs.spawnUser hspawn
  | spawnOwned h entry prio proc stack =>
    obtain ⟨result, hspawn, rfl⟩ := Option.map_eq_some_iff.mp hstep
    exact hs.spawnOwned hspawn
  | exit h | exitFromTrap h =>
    obtain ⟨hid, ⟨⟩⟩ := Option.ite_none_left_eq_some.mp hstep
    exact hs.exit hid
  | killProcess h pid =>
    cases hstep
    exact hs.killProcess hkeeps
  | forceKillCurrent h =>
    cases hstep
    exact hs.forceKillCurrent hkeeps
  | onTick h frame =>
    cases hstep
    exact hs.onTick frame
  | yield h =>
    cases hstep
    exact hs.yield
  | blockCurrent h =>
    obtain ⟨hid, ⟨⟩⟩ := Option.ite_none_left_eq_some.mp hstep
    exact hs.blockCurrent hid
  | blockResumed h =>
    cases hstep
    exact hs.blockResumed
  | blockUserFromTrap h frame =>
    obtain ⟨hid, ⟨⟩⟩ := Option.ite_none_left_eq_some.mp hstep
    exact hs.blockUserFromTrap hid frame
  | wake id =>
    cases hstep
    exact hs.wake
  | ipcWakeWithMsg tid msg => exact hs.delivered (delivered_ipcWakeWithMsg hstep)
  | ipcWakeWithErr tid code => exact hs.delivered (delivered_ipcWakeWithErr hstep)
  | donateOnBlock donorTid peerProc => exact hs.donateOnBlock hstep
  | setAffinity id hart => exact hs.setAffinity hkeeps hstep
  | secondaryIdle h =>
    obtain ⟨-, rfl⟩ := Option.ite_some_none_eq_some.mp hstep
    exact hs.secondaryIdle
  | threadEntry h =>
    cases hstep
    refine Tidy.modify_same hs rfl rfl (fun _ => rfl) fun _ hready => ?_
    rw [hs.running h] at hready
    cases hready
  | takeIpcMsg h =>
    cases hstep
    unfold Scheduler.takeIpcMsg
    dsimp only
    refine Tidy.modify_same hs rfl rfl (fun _ => rfl) fun _ hready => ?_
    rw [hs.running h] at hready
    cases hready
  | drainReaper =>
    cases hstep
    have hthin : Wf s.drainReaper fun _ => False :=
      hs.wf.thin rfl rfl rfl rfl (fun _ _ _ => le_rfl) rfl fun _ => rfl
    exact Tidy.congr hs hthin rfl rfl rfl rfl rfl

end Law

/-- From boot on, along any run of the sections on any harts whose steps meet `KeepsQueues`, the
ready queues follow their law in every state. -/
theorem always_queueLaw (b : Boot) (stackOf : Hart → Nat) (ops : List SchedOp)
    (hops : Machine.Each (Scheduler.step b) (Scheduler.init b stackOf) ops KeepsQueues) :
    Machine.Always (Scheduler.step b) (Scheduler.init b stackOf) ops QueueLaw :=
  fun first rest s hsplit hrun =>
    Tidied.queueLaw (Machine.always_of_each (Tidied.init b stackOf)
      (fun _ _ _ hs hstep hkeeps => Tidied.step hs hstep hkeeps) hops first rest s hsplit hrun)

/-- Hart `0` yields to a thread of process `5`, which hart `1` kills; another thread may be waiting
at hart `0`. -/
def interruptOps (others : List SchedOp) : List SchedOp :=
  [.spawnUser (clampHart 0) 5 0 0 0 0 0 0] ++ others ++
    [.yield (clampHart 0), .killProcess (clampHart 1) 5, .forceKillCurrent (clampHart 0)]

/-- With a thread of process `6` in the queue, the kill interrupt resumes that one. -/
theorem always_queueLaw_interrupt :
    (Machine.run (Scheduler.step ⟨0, 0, 0, 0, 0⟩) (.init ⟨0, 0, 0, 0, 0⟩ fun _ => 0)
      (interruptOps [.spawnUser (clampHart 0) 6 0 0 0 0 0 0])).isSome = true ∧
    Machine.Always (Scheduler.step ⟨0, 0, 0, 0, 0⟩) (.init ⟨0, 0, 0, 0, 0⟩ fun _ => 0)
      (interruptOps [.spawnUser (clampHart 0) 6 0 0 0 0 0 0]) QueueLaw := by
  have hmeets : Machine.meets (Scheduler.step ⟨0, 0, 0, 0, 0⟩)
      (fun s op => decide (KeepsQueues s op)) (.init ⟨0, 0, 0, 0, 0⟩ fun _ => 0)
      (interruptOps [.spawnUser (clampHart 0) 6 0 0 0 0 0 0]) = true := by decide +kernel
  exact ⟨by decide +kernel, always_queueLaw _ _ _
    (Machine.each_of_meets (fun _ _ => of_decide_eq_true) hmeets)⟩

/-- Without one, it resumes the idle thread, which stays in its queue. -/
theorem not_queueLaw_forceKill : ∃ s,
    Machine.run (Scheduler.step ⟨0, 0, 0, 0, 0⟩) (.init ⟨0, 0, 0, 0, 0⟩ fun _ => 0)
      (interruptOps []) = some s ∧ s.current (clampHart 0) = 0 ∧
    s.ready (clampHart 0) prioLow = [0] ∧ ¬ QueueLaw s := by
  have hrun : (Machine.run (Scheduler.step ⟨0, 0, 0, 0, 0⟩) (.init ⟨0, 0, 0, 0, 0⟩ fun _ => 0)
      (interruptOps [])).map (fun s => (s.current (clampHart 0), s.ready (clampHart 0) prioLow)) =
      some (0, [0]) := by decide +kernel
  obtain ⟨s, hs, hend⟩ := Option.map_eq_some_iff.mp hrun
  obtain ⟨hcurrent, hready⟩ := Prod.mk.inj hend
  refine ⟨s, hs, hcurrent, hready, fun hlaw => ?_⟩
  refine hlaw.current (clampHart 0) (clampHart 0) prioLow ?_
  rw [hcurrent, hready]
  exact List.mem_singleton_self 0

end Ignium.Sched
