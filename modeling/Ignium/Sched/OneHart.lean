import Ignium.Sched.Slots

/-!
# One hart

While all sections run on one hart, a thread that is marked as running is the current thread of
that hart or an idle thread: `Lone` holds in all states of such runs (`Lone.step`). In the middle of
a section the hart may have left its current thread, and then no other thread is running.
-/

namespace Ignium.Sched

open Scheduler

/-- Of the threads that are not idle, only those in `who` are marked as running. -/
def RunsOnly (s : Scheduler) (who : Nat → Prop) : Prop :=
  ∀ id, id < s.len → (s.thread id).state = .running → who id ∨ s.Idle id

/-- Besides idle threads, only the current thread of the hart is marked as running. -/
def Lone (s : Scheduler) (h : Hart) : Prop := RunsOnly s (· = s.current h)

/-- The section runs on the hart, or it does not depend on the hart. -/
def SchedOp.On (h : Hart) : SchedOp → Prop
  | .spawn h' .. | .spawnUser h' .. | .spawnOwned h' .. | .exit h' | .exitFromTrap h'
  | .killProcess h' _ | .forceKillCurrent h' | .onTick h' _ | .yield h' | .blockCurrent h'
  | .blockResumed h' | .blockUserFromTrap h' _ | .secondaryIdle h' | .threadEntry h'
  | .takeIpcMsg h' => h' = h
  | .wake _ | .ipcWakeWithMsg .. | .ipcWakeWithErr .. | .donateOnBlock .. | .setAffinity ..
  | .drainReaper => True

section Parts

variable {s s' : Scheduler} {who who' : Nat → Prop} {b : Boot} {h : Hart} {id : Nat}
  {f : Thread → Thread}

namespace RunsOnly

section

variable (hs : RunsOnly s who)
include hs

/-- No thread becomes running but those that are allowed to. -/
theorem update (hlen : s'.len = s.len) (hidle : s'.idle = s.idle)
    (hrun : ∀ x, (s'.thread x).state = .running →
      who' x ∨ (s.thread x).state = .running ∧ (who x → who' x)) : RunsOnly s' who' := by
  intro x hlt hx
  rcases hrun x hx with hwho | ⟨hold, hmono⟩
  · exact .inl hwho
  · refine (hs x (hlen ▸ hlt) hold).imp hmono fun hid => ?_
    rwa [Scheduler.Idle, hidle]

theorem mono (hwho : ∀ x, who x → who' x) : RunsOnly s who' :=
  hs.update rfl rfl fun x hx => .inr ⟨hx, hwho x⟩

/-- A change that nothing depends on. -/
theorem same (hlen : s'.len = s.len) (hidle : s'.idle = s.idle)
    (hthread : s'.thread = s.thread) : RunsOnly s' who :=
  hs.update hlen hidle fun _ hx => .inr ⟨hthread ▸ hx, fun h => h⟩

/-- One thread changes, and it is not running afterwards. -/
theorem stop (hlen : s'.len = s.len) (hidle : s'.idle = s.idle)
    (hother : ∀ x, x ≠ id → s'.thread x = s.thread x) (hstate : (s'.thread id).state ≠ .running) :
    RunsOnly s' fun x => who x ∧ x ≠ id := by
  refine hs.update hlen hidle fun x hx => ?_
  have hne : x ≠ id := fun heq => hstate (heq ▸ hx)
  rw [hother x hne] at hx
  exact .inr ⟨hx, fun hwho => ⟨hwho, hne⟩⟩

/-- One thread changes, and it becomes running only if it may. -/
theorem modify
    (hstate : (f (s.thread id)).state = .running → who id ∨ (s.thread id).state = .running) :
    RunsOnly (s.modify id f) who := by
  refine hs.update rfl rfl fun x hx => ?_
  by_cases heq : x = id
  · subst heq
    rw [modify_self] at hx
    exact (hstate hx).imp (fun h => h) fun hold => ⟨hold, fun h => h⟩
  · rw [modify_of_ne heq] at hx
    exact .inr ⟨hx, fun h => h⟩

theorem enqueue : RunsOnly (s.enqueue id) fun x => who x ∧ x ≠ id :=
  hs.stop rfl rfl (fun x hne => Function.update_of_ne hne _ _) (by simp [Scheduler.enqueue,
    modify_self])

theorem retire : RunsOnly (s.retire id f) fun x => who x ∧ x ≠ id :=
  hs.stop rfl rfl (fun x hne => Function.update_of_ne hne _ _) (by simp [Scheduler.retire,
    modify_self])

end

theorem pickLevels (hs : RunsOnly s fun _ => False) (h : Hart) (needCtx : Bool)
    (levels : List Prio) : RunsOnly (Scheduler.pickLevels h needCtx levels s).2
      fun x => (Scheduler.pickLevels h needCtx levels s).1 = some x := by
  induction levels generalizing s with
  | nil => exact hs.mono fun _ hfalse => hfalse.elim
  | cons l levels ih =>
    rw [Scheduler.pickLevels]
    split
    · next id q hscan =>
      have hset : RunsOnly (s.setReady h l q) (some id = some ·) :=
        (hs.same rfl rfl rfl).mono fun _ hfalse => hfalse.elim
      exact hset.modify fun _ => .inl rfl
    · next q hscan => exact ih (hs.same rfl rfl rfl)

theorem pickNext (hs : RunsOnly s fun _ => False) (h : Hart) (needCtx : Bool) :
    RunsOnly (s.pickNext h needCtx).2 (· = (s.pickNext h needCtx).1) := by
  have hpicked := hs.pickLevels h needCtx (List.finRange prioLevels)
  rw [Scheduler.pickNext]
  rcases hpick : Scheduler.pickLevels h needCtx (List.finRange prioLevels) s with ⟨_ | id, s'⟩
  · rw [hpick] at hpicked
    exact hpicked.mono fun x hx => by cases hx
  · rw [hpick] at hpicked
    exact hpicked.mono fun x hx => (Option.some.inj hx).symm

theorem setCurrent (hs : RunsOnly s (· = id)) : Lone (s.setCurrent h id) h := by
  have hcurrent : (s.setCurrent h id).current h = id := Function.update_self _ _ _
  rw [Lone, hcurrent]
  exact hs.same rfl rfl rfl

theorem dispatch (hs : RunsOnly s fun _ => False) : Lone (s.dispatch h).2 h :=
  RunsOnly.setCurrent (RunsOnly.pickNext (hs.same rfl rfl rfl : RunsOnly (s.resetTicks h) _) h true)

theorem resumeFrame (hs : RunsOnly s (· = id)) : Lone (s.resumeFrame b h id) h := by
  unfold Scheduler.resumeFrame
  dsimp only
  split
  · exact hs.setCurrent
  · exact RunsOnly.modify hs.setCurrent fun hold => .inr hold

end RunsOnly

/-! ## Sections -/

namespace Lone

theorem requeues (h : Hart) : Requeues fun s => Lone s h where
  drop _ _ hs := RunsOnly.same hs rfl rfl rfl
  requeue s proc hs := by
    unfold Scheduler.requeueProcThreads
    refine List.foldlRecOn (motive := fun t : Scheduler => Lone t h) _ _
      (RunsOnly.same hs rfl rfl rfl) fun t ht id _ => ?_
    exact (RunsOnly.enqueue ht).mono fun x hx => hx.1

/-- After the hart has left its current thread, no other thread is running. -/
theorem left (hs : RunsOnly s' fun x => x = s.current h ∧ x ≠ s.current h) :
    RunsOnly s' fun _ => False :=
  hs.mono fun _ hx => hx.2 hx.1

theorem yield (hs : Lone s h) : Lone (s.yield h).2 h := by
  have hsaved : RunsOnly (s.modify (s.current h) fun t =>
      { t with frameValid := false, ctxValid := true }) (· = s.current h) :=
    RunsOnly.modify hs .inr
  have hdrained : RunsOnly { s.modify (s.current h) fun t =>
      { t with frameValid := false, ctxValid := true } with reaper := [] } (· = s.current h) :=
    hsaved.same rfl rfl rfl
  exact (left hdrained.enqueue).dispatch

theorem exit (hs : Lone s h) : Lone (s.exit h).2 h :=
  (left (RunsOnly.retire hs)).dispatch

/-- The current thread goes on. -/
theorem stay (hs : Lone s h) : Lone (s.modify (s.current h) f) h :=
  RunsOnly.modify hs fun _ => .inl rfl

/-- The current thread goes to sleep. -/
theorem sleep (hs : Lone s h) (hstate : ∀ t, (f t).state = .blocked) :
    Lone ((s.modify (s.current h) f).dispatch h).2 h := by
  have hstopped : RunsOnly (s.modify (s.current h) f) fun x => x = s.current h ∧ x ≠ s.current h :=
    RunsOnly.stop hs rfl rfl (fun x hne => modify_of_ne hne) (by simp [modify_self, hstate])
  exact (left hstopped).dispatch

theorem removeFromReady (hs : Lone s h) (id : Nat) : Lone (s.removeFromReady id) h := by
  obtain ⟨hplan, hthread⟩ := removeFromReady_plan s id
  rw [Lone, hplan.current]
  exact RunsOnly.same hs hplan.len hplan.idle hthread

theorem current_removeFromReady : (s.removeFromReady id).current h = s.current h :=
  congrFun (removeFromReady_plan s id).1.current h

section

variable (hs : Lone s h)
include hs

theorem blockCurrent : Lone (s.blockCurrent h).2 h := by
  unfold Scheduler.blockCurrent
  dsimp only
  split
  · exact (requeues h).revokeDonations hs.stay _
  · split
    · have hstay := (hs.removeFromReady (s.current h)).stay (f := fun t =>
        { t with state := .running, woken := false })
      rwa [current_removeFromReady] at hstay
    · split
      · exact hs.stay
      · exact hs.sleep fun _ => rfl

theorem blockResumed : Lone (s.blockResumed h) h := by
  have hstay := (hs.removeFromReady (s.current h)).stay (f := fun t =>
    { t with woken := false })
  rwa [current_removeFromReady] at hstay

theorem blockUserFromTrap (frame : TrapFrame) :
    Lone (s.blockUserFromTrap h frame).2 h := by
  unfold Scheduler.blockUserFromTrap
  dsimp only
  split
  · exact (requeues h).revokeDonations hs.stay _
  · exact (requeues h).revokeDonations hs.stay _
  · exact hs.sleep fun _ => rfl

theorem secondaryIdle (hcurrent : s.current h = s.idle h) :
    Lone (s.secondaryIdle h).2 h := by
  -- The hart leaves an idle thread, which may stay marked as running.
  have hleft : RunsOnly (s.resetTicks h) fun _ => False := by
    intro x hlt hx
    refine .inr ((hs x hlt hx).elim (fun heq => ⟨h, ?_⟩) fun hid => hid)
    exact (heq.trans hcurrent).symm
  have hpicked := hleft.pickNext h true
  have hsame := pickNext_plan (s.resetTicks h) h true
  unfold Scheduler.secondaryIdle
  dsimp only
  split
  · next hnext =>
    rw [Lone, hsame.current]
    exact hpicked.mono fun x hx => hx.trans hnext
  · exact hpicked.setCurrent

/-- A thread that is not running is queued. -/
theorem enqueue : Lone (s.enqueue id) h :=
  (RunsOnly.enqueue hs).mono fun _ hx => hx.1

theorem modify_same (hstate : (f (s.thread id)).state = (s.thread id).state) :
    Lone (s.modify id f) h :=
  RunsOnly.modify hs fun hrunning => .inr (hstate ▸ hrunning)

theorem wake : Lone (s.wake id) h := by
  unfold Scheduler.wake
  split
  · have hwoken : Lone (s.modify id fun t => { t with woken := true }) h := hs.modify_same rfl
    dsimp only
    split
    · exact hwoken.enqueue
    · exact hwoken
  · exact hs

/-- A result is written to a thread, which is queued if it was blocked. -/
theorem delivered {r : IpcWake} (hstep : Delivered s id r s') : Lone s' h := by
  cases hstep with
  | noted hf => exact hs.modify_same (hf.state _)
  | woken hf => exact (requeues h).revokeDonations (hs.modify_same (hf.state _)).enqueue _

theorem setAffinity {hart : Nat} (hstep : s.setAffinity id hart = some s') :
    Lone s' h := by
  unfold Scheduler.setAffinity at hstep
  dsimp only at hstep
  split at hstep
  · split at hstep
    · split at hstep <;> cases hstep
      · exact ((hs.removeFromReady id).modify_same rfl).enqueue
      · exact hs
    · cases hstep
      exact hs.modify_same rfl
    · cases hstep
  · cases hstep

theorem preempt (frame : TrapFrame) : Lone (s.preempt b frame h).2 h := by
  have hreset : Lone (s.resetTicks h) h := RunsOnly.same hs rfl rfl rfl
  have hsaved : RunsOnly ((s.resetTicks h).modify (s.current h) fun t =>
      { t with frame := frame, frameValid := true, ctxValid := false, state := .ready })
      (· = s.current h) := RunsOnly.modify hreset (by simp)
  have hqueued : RunsOnly (interrupted (s.resetTicks h) frame h) fun x =>
      x = s.current h ∧ x ≠ s.current h := hsaved.enqueue
  have hpicked := RunsOnly.pickNext (left hqueued) h false
  have hcurrent := congrFun (pickNext_plan (interrupted (s.resetTicks h) frame h) h false).current h
  refine preempt_rule (P := (Lone · h)) hreset (fun s₁ hpick => ?_) fun next s₁ hpick => ?_
  · rw [hpick] at hpicked hcurrent
    change s₁.current h = s.current h at hcurrent
    have hlone : Lone s₁ h := by
      rw [Lone, hcurrent]
      exact hpicked
    have hstay := (hlone.removeFromReady (s.current h)).stay (f := fun t =>
      { t with state := .running, frameValid := true, ctxValid := false })
    rwa [current_removeFromReady, hcurrent] at hstay
  · rw [hpick] at hpicked
    exact hpicked.resumeFrame

theorem onTick (frame : TrapFrame) : Lone (s.onTick b frame h).2 h := by
  exact onTick_rule (P := (Lone · h)) (RunsOnly.same hs rfl rfl rfl) fun hticked =>
    preempt hticked frame

theorem forceKillCurrent : Lone (s.forceKillCurrent b h).2 h := by
  unfold Scheduler.forceKillCurrent
  dsimp only
  split
  · have hretired := left (RunsOnly.retire hs (f := fun t =>
      { t with frameValid := false, ctxValid := false, woken := false }))
    generalize s.retire (s.current h) _ = s₁ at hretired ⊢
    have hcleared : RunsOnly ({ s₁ with
        killRequest := Function.update s₁.killRequest (s.current h) false }.resetTicks h)
        fun _ => False := hretired.same rfl rfl rfl
    exact (hcleared.pickNext h false).resumeFrame
  · exact hs

theorem donateOnBlock {peer : Nat} (hstep : s.donateOnBlock id peer = some s') :
    Lone s' h := by
  unfold Scheduler.donateOnBlock at hstep
  split at hstep
  · cases hstep
    exact (requeues h).requeue _ _ ((requeues h).drop s _ hs)
  · cases hstep

/-- A new thread is ready. -/
theorem place {t : Thread} {s₁ : Scheduler} (hwf : Wf s fun _ => False)
    (hslot : s.takeSlot = some (id, s₁)) : Lone (s₁.place id t) h := by
  have hle := hwf.takeSlot_le hslot
  obtain ⟨free, rfl⟩ := takeSlot_eq hslot
  have hseat : RunsOnly (Scheduler.seat { s with freeSlots := free } id t)
      fun x => x = s.current h ∨ x = id := by
    intro x hlt hx
    by_cases heq : x = id
    · exact .inl (.inr heq)
    · have hthread : (Scheduler.seat { s with freeSlots := free } id t).thread x = s.thread x :=
        Function.update_of_ne heq _ _
      rw [hthread] at hx
      have hold : x < s.len := by
        change x < max s.len (id + 1) at hlt
        omega
      exact (hs x hold hx).imp .inl fun hid => hid
  exact hseat.enqueue.mono fun x hx => hx.1.resolve_right hx.2

theorem spawnOwned {entry prio proc stack : Nat} {result : Nat × Scheduler}
    (hwf : Wf s fun _ => False) (hstep : s.spawnOwned b h entry prio proc stack = some result) :
    Lone result.2 h := by
  obtain ⟨⟨id, s₁⟩, hspawn, rfl⟩ := Option.map_eq_some_iff.mp hstep
  obtain ⟨⟨id', s₂⟩, hslot, hplaced⟩ := Option.map_eq_some_iff.mp hspawn
  obtain ⟨rfl, rfl⟩ := Prod.mk.inj hplaced
  have howned : Lone ((s₂.place id' (.kernel b h entry prio stack)).modify id' fun t =>
      { t with proc := some proc }) h := (hs.place hwf hslot).modify_same rfl
  dsimp only
  split
  · exact (requeues h).requeue _ _ howned
  · exact howned

theorem killThread : Lone (s.killThread id) h := by
  unfold Scheduler.killThread
  split
  · exact RunsOnly.same hs rfl rfl rfl
  · exact (RunsOnly.retire hs).mono fun _ hx => hx.1

theorem killProcess {pid : Nat} : Lone (s.killProcess h pid).2.2 h := by
  refine (requeues h).revokeDonationsOf ((requeues h).revokeDonationsForProc ?_ _) _ _
  exact List.foldlRecOn (motive := fun t : Scheduler => Lone t h) _ _
    (RunsOnly.same hs rfl rfl rfl) fun t ht id _ => ht.killThread

end

theorem init (b : Boot) (stackOf : Hart → Nat) (h : Hart) : Lone (Scheduler.init b stackOf) h :=
  fun id hlt _ => .inr ⟨⟨id, hlt⟩, rfl⟩

/-- Every section that runs on the hart leaves no other thread running. -/
theorem step {op : SchedOp} (hs : Lone s h) (hwf : Wf s fun _ => False) (hon : op.On h)
    (hstep : s.step b op = some s') : Lone s' h := by
  cases op with
  | spawn h' entry prio stack | spawnUser h' proc root entryPc stackTop prio argc argv =>
    obtain rfl : h' = h := hon
    obtain ⟨result, hspawn, rfl⟩ := Option.map_eq_some_iff.mp hstep
    obtain ⟨⟨id, s₁⟩, hslot, rfl⟩ := Option.map_eq_some_iff.mp hspawn
    exact hs.place hwf hslot
  | spawnOwned h' entry prio proc stack =>
    obtain rfl : h' = h := hon
    obtain ⟨result, hspawn, rfl⟩ := Option.map_eq_some_iff.mp hstep
    exact hs.spawnOwned hwf hspawn
  | exit h' | exitFromTrap h' =>
    obtain rfl : h' = h := hon
    obtain ⟨-, ⟨⟩⟩ := Option.ite_none_left_eq_some.mp hstep
    exact hs.exit
  | killProcess h' pid =>
    obtain rfl : h' = h := hon
    cases hstep
    exact hs.killProcess
  | forceKillCurrent h' =>
    obtain rfl : h' = h := hon
    cases hstep
    exact hs.forceKillCurrent
  | onTick h' frame =>
    obtain rfl : h' = h := hon
    cases hstep
    exact hs.onTick frame
  | yield h' =>
    obtain rfl : h' = h := hon
    cases hstep
    exact hs.yield
  | blockCurrent h' =>
    obtain rfl : h' = h := hon
    obtain ⟨-, ⟨⟩⟩ := Option.ite_none_left_eq_some.mp hstep
    exact hs.blockCurrent
  | blockResumed h' =>
    obtain rfl : h' = h := hon
    cases hstep
    exact hs.blockResumed
  | blockUserFromTrap h' frame =>
    obtain rfl : h' = h := hon
    obtain ⟨-, ⟨⟩⟩ := Option.ite_none_left_eq_some.mp hstep
    exact hs.blockUserFromTrap frame
  | wake id =>
    cases hstep
    exact hs.wake
  | ipcWakeWithMsg tid msg => exact hs.delivered (delivered_ipcWakeWithMsg hstep)
  | ipcWakeWithErr tid code => exact hs.delivered (delivered_ipcWakeWithErr hstep)
  | donateOnBlock donorTid peerProc => exact hs.donateOnBlock hstep
  | setAffinity id hart => exact hs.setAffinity hstep
  | secondaryIdle h' =>
    obtain rfl : h' = h := hon
    obtain ⟨hcurrent, rfl⟩ := Option.ite_some_none_eq_some.mp hstep
    exact hs.secondaryIdle hcurrent
  | threadEntry h' =>
    cases hstep
    exact hs.modify_same rfl
  | takeIpcMsg h' =>
    cases hstep
    exact hs.modify_same (f := fun t => { t with ipcMsg := none }) rfl
  | drainReaper =>
    cases hstep
    exact RunsOnly.same hs rfl rfl rfl

end Lone

end Parts

end Ignium.Sched
