import Ignium.Sched.Slots

/-!
# What the sections leave alone

Most sections only move threads between queues and states. `Moved` says what such a section leaves
alone in a thread: who the thread is, its recorded wake-up, and, if it ends up blocked, that it was
blocked before. `step_moved` proves it for these sections. The sections in which a thread blocks or
gets a result change more, but a thread keeps its process, its address space and its priority from
the moment it gets its slot (`step_sameThreads`), and `step_spawned` says what the spawns do.
-/

namespace Ignium.Sched

open Scheduler

/-- What a thread keeps as long as it has its slot. -/
structure SameThread (t t' : Thread) : Prop where
  proc : t'.proc = t.proc
  root : t'.root = t.root
  prio : t'.prio = t.prio

/-- What a thread keeps when it is moved between queues and states. -/
structure Moved (t t' : Thread) : Prop where
  same : SameThread t t'
  ipcWake : t'.ipcWake = t.ipcWake
  blocked : t'.state = .blocked → t.state = .blocked ∧ (t'.woken = true → t.woken = true)

/-- The table has the same threads, and what happened to each is in `R`. -/
structure Threads (R : Thread → Thread → Prop) (s s' : Scheduler) : Prop where
  len : s'.len = s.len
  idle : s'.idle = s.idle
  thread : ∀ id, R (s.thread id) (s'.thread id)

/-- A relation between what a thread was and what it is that allows it to be moved. -/
structure AllowsMoves (R : Thread → Thread → Prop) : Prop where
  moved : ∀ t t', Moved t t' → R t t'
  trans : ∀ t₁ t₂ t₃, R t₁ t₂ → R t₂ t₃ → R t₁ t₃

section Relations

variable {t t' : Thread}

theorem Moved.refl (t : Thread) : Moved t t := ⟨⟨rfl, rfl, rfl⟩, rfl, fun h => ⟨h, fun h => h⟩⟩

/-- A thread that is not blocked afterwards. -/
theorem Moved.awake (hsame : SameThread t t') (hwake : t'.ipcWake = t.ipcWake)
    (hstate : t'.state ≠ .blocked) : Moved t t' :=
  ⟨hsame, hwake, fun h => absurd h hstate⟩

theorem allowsMoves_sameThread : AllowsMoves SameThread where
  moved _ _ h := h.same
  trans _ _ _ h h' := ⟨h'.proc.trans h.proc, h'.root.trans h.root, h'.prio.trans h.prio⟩

theorem allowsMoves_moved : AllowsMoves Moved where
  moved _ _ h := h
  trans _ _ _ h h' :=
    ⟨allowsMoves_sameThread.trans _ _ _ h.same h'.same, h'.ipcWake.trans h.ipcWake, fun hblocked =>
      ⟨(h.blocked (h'.blocked hblocked).1).1, fun hwoken =>
        (h.blocked (h'.blocked hblocked).1).2 ((h'.blocked hblocked).2 hwoken)⟩⟩

end Relations

section Parts

variable {R : Thread → Thread → Prop} {s s' s₁ s₂ : Scheduler} {b : Boot} {h : Hart} {id : Nat}
  {f : Thread → Thread}

namespace Threads

theorem refl (hR : AllowsMoves R) (s : Scheduler) : Threads R s s :=
  ⟨rfl, rfl, fun _ => hR.moved _ _ (Moved.refl _)⟩

theorem trans (hR : AllowsMoves R) (h : Threads R s s₁) (h' : Threads R s₁ s₂) : Threads R s s₂ where
  len := h'.len.trans h.len
  idle := h'.idle.trans h.idle
  thread id := hR.trans _ _ _ (h.thread id) (h'.thread id)

/-- A change of anything but the table. -/
theorem same (h : Threads R s s₁) (hlen : s₂.len = s₁.len) (hidle : s₂.idle = s₁.idle)
    (hthread : s₂.thread = s₁.thread) : Threads R s s₂ where
  len := hlen.trans h.len
  idle := hidle.trans h.idle
  thread id := by
    rw [hthread]
    exact h.thread id

/-- A change of one thread. -/
theorem modify (hR : AllowsMoves R) (h : Threads R s s₁) (hf : ∀ t, R t (f t)) :
    Threads R s (s₁.modify id f) := by
  refine h.trans hR ⟨rfl, rfl, fun x => ?_⟩
  by_cases hx : x = id
  · rw [hx, modify_self]
    exact hf _
  · rw [modify_of_ne hx]
    exact hR.moved _ _ (Moved.refl _)

theorem enqueue (hR : AllowsMoves R) (h : Threads R s s₁) (id : Nat) :
    Threads R s (s₁.enqueue id) := by
  have hset : Threads R s (s₁.setReady (s₁.thread id).hart (s₁.effPrio id)
      (s₁.ready (s₁.thread id).hart (s₁.effPrio id) ++ [id])) := h.same rfl rfl rfl
  unfold Scheduler.enqueue
  refine hset.modify hR fun t => hR.moved _ _ (.awake ⟨rfl, rfl, rfl⟩ rfl ?_)
  exact fun hstate => by cases hstate

theorem retire (hR : AllowsMoves R) (h : Threads R s s₁) (id : Nat)
    (hsame : ∀ t, SameThread t (f t)) (hwake : ∀ t, (f t).ipcWake = t.ipcWake) :
    Threads R s (s₁.retire id f) := by
  have hmodify : Threads R s (s₁.modify id fun t => { f t with state := .exited, stack := none }) :=
    h.modify hR fun t => hR.moved _ _
      (.awake ⟨(hsame t).proc, (hsame t).root, (hsame t).prio⟩ (hwake t) fun hstate => by cases hstate)
  exact hmodify.same rfl rfl rfl

theorem requeues (hR : AllowsMoves R) (s : Scheduler) : Requeues (Threads R s) where
  drop _ _ h := h.same rfl rfl rfl
  requeue t proc h := by
    unfold Scheduler.requeueProcThreads
    exact List.foldlRecOn (motive := Threads R s) _ _ (h.same rfl rfl rfl)
      fun _ h id _ => h.enqueue hR id

theorem removeFromReady (h : Threads R s s₁) (id : Nat) : Threads R s (s₁.removeFromReady id) := by
  obtain ⟨hplan, hthread⟩ := removeFromReady_plan s₁ id
  exact h.same hplan.len hplan.idle hthread

theorem pickLevels (hR : AllowsMoves R) (hs : Threads R s s₁) (h : Hart) (needCtx : Bool)
    (levels : List Prio) : Threads R s (Scheduler.pickLevels h needCtx levels s₁).2 := by
  induction levels generalizing s₁ with
  | nil => exact hs
  | cons l levels ih =>
    rw [Scheduler.pickLevels]
    rcases s₁.scan needCtx (s₁.ready h l).length (s₁.ready h l) with ⟨_ | id, q⟩
    · exact ih (hs.same rfl rfl rfl)
    · have hset : Threads R s (s₁.setReady h l q) := hs.same rfl rfl rfl
      dsimp only
      refine hset.modify hR fun t => hR.moved _ _ (.awake ⟨rfl, rfl, rfl⟩ rfl ?_)
      exact fun hstate => by cases hstate

theorem pickNext (hR : AllowsMoves R) (hs : Threads R s s₁) (h : Hart) (needCtx : Bool) :
    Threads R s (s₁.pickNext h needCtx).2 := by
  have hpicked := hs.pickLevels hR h needCtx (List.finRange prioLevels)
  rw [Scheduler.pickNext]
  rcases hpick : Scheduler.pickLevels h needCtx (List.finRange prioLevels) s₁ with ⟨_ | id, s'⟩
  · rwa [hpick] at hpicked
  · rwa [hpick] at hpicked

theorem dispatch (hR : AllowsMoves R) (hs : Threads R s s₁) (h : Hart) :
    Threads R s (s₁.dispatch h).2 := by
  have hreset : Threads R s (s₁.resetTicks h) := hs.same rfl rfl rfl
  exact (hreset.pickNext hR h true).same rfl rfl rfl

end Threads

/-! ## Sections that move threads -/

namespace MovedThreads

theorem start (s : Scheduler) : Threads Moved s s := Threads.refl allowsMoves_moved s

theorem exit (s : Scheduler) (h : Hart) : Threads Moved s (s.exit h).2 := by
  have hretired : Threads Moved s (s.retire (s.current h) fun t =>
      { t with frameValid := false, ctxValid := true }) :=
    (start s).retire allowsMoves_moved _ (fun _ => ⟨rfl, rfl, rfl⟩) fun _ => rfl
  exact hretired.dispatch allowsMoves_moved h

theorem yield (s : Scheduler) (h : Hart) : Threads Moved s (s.yield h).2 := by
  have hsaved : Threads Moved s (s.modify (s.current h) fun t =>
      { t with frameValid := false, ctxValid := true }) :=
    (start s).modify allowsMoves_moved fun _ => ⟨⟨rfl, rfl, rfl⟩, rfl, fun h => ⟨h, fun h => h⟩⟩
  have hdrained : Threads Moved s { s.modify (s.current h) fun t =>
      { t with frameValid := false, ctxValid := true } with reaper := [] } :=
    hsaved.same rfl rfl rfl
  exact (hdrained.enqueue allowsMoves_moved _).dispatch allowsMoves_moved h

theorem secondaryIdle (s : Scheduler) (h : Hart) : Threads Moved s (s.secondaryIdle h).2 := by
  have hreset : Threads Moved s (s.resetTicks h) := (start s).same rfl rfl rfl
  have hpicked := hreset.pickNext allowsMoves_moved h true
  unfold Scheduler.secondaryIdle
  dsimp only
  split
  · exact hpicked
  · exact hpicked.same rfl rfl rfl

theorem wake (s : Scheduler) (id : Nat) : Threads Moved s (s.wake id) := by
  unfold Scheduler.wake
  dsimp only
  split
  · -- A blocked thread is queued, so a thread that is woken is never left blocked.
    have hwoken : (s.modify id fun t => { t with woken := true }).thread id =
        { s.thread id with woken := true } := modify_self
    have hother : ∀ x, x ≠ id →
        Moved (s.thread x) ((s.modify id fun t => { t with woken := true }).thread x) := by
      intro x hx
      rw [modify_of_ne hx]
      exact Moved.refl _
    split
    · refine ⟨rfl, rfl, fun x => ?_⟩
      by_cases hx : x = id
      · subst hx
        rw [enqueue_self, hwoken]
        exact .awake ⟨rfl, rfl, rfl⟩ rfl fun hstate => by cases hstate
      · rw [enqueue_of_ne _ hx]
        exact hother x hx
    · next hstate =>
      refine ⟨rfl, rfl, fun x => ?_⟩
      by_cases hx : x = id
      · subst hx
        rw [hwoken] at hstate ⊢
        exact .awake ⟨rfl, rfl, rfl⟩ rfl hstate
      · exact hother x hx
  · exact start s

theorem setAffinity {hart : Nat} (hstep : s.setAffinity id hart = some s') : Threads Moved s s' := by
  unfold Scheduler.setAffinity at hstep
  dsimp only at hstep
  split at hstep
  · split at hstep
    · split at hstep <;> cases hstep
      · refine Threads.enqueue allowsMoves_moved
          (((start s).removeFromReady id).modify allowsMoves_moved ?_) id
        exact fun _ => ⟨⟨rfl, rfl, rfl⟩, rfl, fun h => ⟨h, fun h => h⟩⟩
      · exact start s
    · cases hstep
      exact (start s).modify allowsMoves_moved
        fun _ => ⟨⟨rfl, rfl, rfl⟩, rfl, fun h => ⟨h, fun h => h⟩⟩
    · cases hstep
  · cases hstep

theorem resumeFrame (hs : Threads Moved s s₁) (h : Hart) (id : Nat) :
    Threads Moved s (s₁.resumeFrame b h id) := by
  have hcurrent : Threads Moved s (s₁.setCurrent h id) := hs.same rfl rfl rfl
  unfold Scheduler.resumeFrame
  dsimp only
  split
  · exact hcurrent
  · unfold Scheduler.expandCtxToFrame
    refine hcurrent.modify allowsMoves_moved fun _ => ⟨⟨rfl, rfl, rfl⟩, rfl, fun h => ⟨h, ?_⟩⟩
    exact fun hwoken => by cases hwoken

theorem preempt (s : Scheduler) (frame : TrapFrame) (h : Hart) :
    Threads Moved s (s.preempt b frame h).2 := by
  have hreset : Threads Moved s (s.resetTicks h) := (start s).same rfl rfl rfl
  have hsaved : Threads Moved s ((s.resetTicks h).modify (s.current h) fun t =>
      { t with frame := frame, frameValid := true, ctxValid := false, state := .ready }) :=
    hreset.modify allowsMoves_moved fun _ => .awake ⟨rfl, rfl, rfl⟩ rfl nofun
  have hpicked := (hsaved.enqueue allowsMoves_moved (s.current h)).pickNext allowsMoves_moved h false
  refine preempt_rule (P := Threads Moved s) hreset (fun s₁ hpick => ?_) fun next s₁ hpick => ?_
  · replace hpicked := (congrArg (fun p => Threads Moved s p.2) hpick).mp hpicked
    exact (hpicked.removeFromReady _).modify allowsMoves_moved fun _ =>
      .awake ⟨rfl, rfl, rfl⟩ rfl nofun
  · exact resumeFrame ((congrArg (fun p => Threads Moved s p.2) hpick).mp hpicked) h _

theorem onTick (s : Scheduler) (frame : TrapFrame) (h : Hart) :
    Threads Moved s (s.onTick b frame h).2 := by
  exact onTick_rule (P := Threads Moved s) ((start s).same rfl rfl rfl) fun hticked =>
    hticked.trans allowsMoves_moved (preempt _ frame h)

theorem forceKillCurrent (s : Scheduler) (h : Hart) :
    Threads Moved s (s.forceKillCurrent b h).2 := by
  unfold Scheduler.forceKillCurrent
  dsimp only
  split
  · have hretired : Threads Moved s (s.retire (s.current h) fun t =>
        { t with frameValid := false, ctxValid := false, woken := false }) :=
      (start s).retire allowsMoves_moved _ (fun _ => ⟨rfl, rfl, rfl⟩) fun _ => rfl
    generalize s.retire (s.current h) _ = s₁ at hretired ⊢
    have hcleared : Threads Moved s ({ s₁ with
        killRequest := Function.update s₁.killRequest (s.current h) false }.resetTicks h) :=
      hretired.same rfl rfl rfl
    exact resumeFrame (hcleared.pickNext allowsMoves_moved h false) h _
  · exact start s

theorem killThread (h : Threads Moved s s₁) (id : Nat) : Threads Moved s (s₁.killThread id) := by
  unfold Scheduler.killThread
  split
  · exact h.same rfl rfl rfl
  · exact h.retire allowsMoves_moved id (fun _ => ⟨rfl, rfl, rfl⟩) fun _ => rfl

theorem killProcess (s : Scheduler) (h : Hart) (pid : Nat) :
    Threads Moved s (s.killProcess h pid).2.2 := by
  have hrequeue := Threads.requeues allowsMoves_moved s
  refine hrequeue.revokeDonationsOf (hrequeue.revokeDonationsForProc ?_ _) _ _
  exact List.foldlRecOn (motive := Threads Moved s) _ _ ((start s).same rfl rfl rfl)
    fun _ h id _ => killThread h id

theorem blockResumed (s : Scheduler) (h : Hart) : Threads Moved s (s.blockResumed h) := by
  unfold Scheduler.blockResumed
  refine ((start s).removeFromReady _).modify allowsMoves_moved fun _ =>
    ⟨⟨rfl, rfl, rfl⟩, rfl, fun h => ⟨h, ?_⟩⟩
  exact fun hwoken => by cases hwoken

end MovedThreads

/-- The section neither makes a thread, nor blocks the current one, nor brings a result. -/
def SchedOp.moves : SchedOp → Bool
  | .spawn .. | .spawnUser .. | .spawnOwned .. | .blockCurrent _ | .blockUserFromTrap ..
  | .ipcWakeWithMsg .. | .ipcWakeWithErr .. => false
  | _ => true

theorem step_moved {op : SchedOp} (hop : op.moves = true) (hstep : s.step b op = some s') :
    Threads Moved s s' := by
  cases op with
  | exit h | exitFromTrap h =>
    obtain ⟨-, ⟨⟩⟩ := Option.ite_none_left_eq_some.mp hstep
    exact MovedThreads.exit s h
  | killProcess h pid =>
    cases hstep
    exact MovedThreads.killProcess s h pid
  | forceKillCurrent h =>
    cases hstep
    exact MovedThreads.forceKillCurrent s h
  | onTick h frame =>
    cases hstep
    exact MovedThreads.onTick s frame h
  | yield h =>
    cases hstep
    exact MovedThreads.yield s h
  | blockResumed h =>
    cases hstep
    exact MovedThreads.blockResumed s h
  | wake id =>
    cases hstep
    exact MovedThreads.wake s id
  | donateOnBlock donorTid peerProc =>
    obtain ⟨-, rfl⟩ := Option.ite_some_none_eq_some.mp hstep
    exact (Threads.requeues allowsMoves_moved s).requeue _ _
      ((MovedThreads.start s).same rfl rfl rfl)
  | setAffinity id hart => exact MovedThreads.setAffinity hstep
  | secondaryIdle h =>
    obtain ⟨-, rfl⟩ := Option.ite_some_none_eq_some.mp hstep
    exact MovedThreads.secondaryIdle s h
  | threadEntry h =>
    cases hstep
    exact (MovedThreads.start s).modify allowsMoves_moved
      fun _ => ⟨⟨rfl, rfl, rfl⟩, rfl, fun h => ⟨h, fun h => h⟩⟩
  | takeIpcMsg h =>
    cases hstep
    unfold Scheduler.takeIpcMsg
    dsimp only
    exact (MovedThreads.start s).modify allowsMoves_moved
      fun _ => ⟨⟨rfl, rfl, rfl⟩, rfl, fun h => ⟨h, fun h => h⟩⟩
  | drainReaper =>
    cases hstep
    exact (MovedThreads.start s).same rfl rfl rfl
  | _ => cases hop

/-! ## The other sections -/

namespace SameThreads

theorem start (s : Scheduler) : Threads SameThread s s := Threads.refl allowsMoves_sameThread s

/-- The current thread goes on, and its donations end. -/
theorem clear (s : Scheduler) (id : Nat) : Threads SameThread s
    ((s.modify id fun t => { t with ipcWake := none, state := .running }).revokeDonations id) := by
  refine (Threads.requeues allowsMoves_sameThread s).revokeDonations
    ((start s).modify allowsMoves_sameThread ?_) _
  exact fun _ => ⟨rfl, rfl, rfl⟩

theorem blockCurrent (s : Scheduler) (h : Hart) : Threads SameThread s (s.blockCurrent h).2 := by
  unfold Scheduler.blockCurrent
  dsimp only
  split
  · exact clear s _
  · split
    · dsimp only
      exact ((start s).removeFromReady _).modify allowsMoves_sameThread fun _ => ⟨rfl, rfl, rfl⟩
    · split
      · dsimp only
        exact (start s).modify allowsMoves_sameThread fun _ => ⟨rfl, rfl, rfl⟩
      · dsimp only
        refine Threads.dispatch allowsMoves_sameThread
          ((start s).modify allowsMoves_sameThread ?_) h
        exact fun _ => ⟨rfl, rfl, rfl⟩

theorem blockUserFromTrap (s : Scheduler) (h : Hart) (frame : TrapFrame) :
    Threads SameThread s (s.blockUserFromTrap h frame).2 := by
  unfold Scheduler.blockUserFromTrap
  dsimp only
  split
  · exact clear s _
  · exact clear s _
  · dsimp only
    refine Threads.dispatch allowsMoves_sameThread ((start s).modify allowsMoves_sameThread ?_) h
    exact fun _ => ⟨rfl, rfl, rfl⟩

theorem delivered {r : IpcWake} (hstep : Delivered s id r s') : Threads SameThread s s' := by
  cases hstep with
  | noted hf =>
    exact (start s).modify allowsMoves_sameThread fun t => ⟨hf.proc t, hf.root t, hf.prio t⟩
  | woken hf =>
    have hwritten : Threads SameThread s (s.modify id _) :=
      (start s).modify allowsMoves_sameThread fun t => ⟨hf.proc t, hf.root t, hf.prio t⟩
    exact (Threads.requeues allowsMoves_sameThread s).revokeDonations
      (hwritten.enqueue allowsMoves_sameThread id) id

end SameThreads

/-- The section makes a new thread. -/
def SchedOp.spawns : SchedOp → Bool
  | .spawn .. | .spawnUser .. | .spawnOwned .. => true
  | _ => false

/-- No section but the spawns changes who a thread is. -/
theorem step_sameThreads {op : SchedOp} (hop : op.spawns = false)
    (hstep : s.step b op = some s') : Threads SameThread s s' := by
  cases hmoves : op.moves with
  | true =>
    have hmoved := step_moved hmoves hstep
    exact ⟨hmoved.len, hmoved.idle, fun id => (hmoved.thread id).same⟩
  | false =>
    cases op with
    | blockCurrent h =>
      obtain ⟨-, ⟨⟩⟩ := Option.ite_none_left_eq_some.mp hstep
      exact SameThreads.blockCurrent s h
    | blockUserFromTrap h frame =>
      obtain ⟨-, ⟨⟩⟩ := Option.ite_none_left_eq_some.mp hstep
      exact SameThreads.blockUserFromTrap s h frame
    | ipcWakeWithMsg tid msg => exact SameThreads.delivered (delivered_ipcWakeWithMsg hstep)
    | ipcWakeWithErr tid code => exact SameThreads.delivered (delivered_ipcWakeWithErr hstep)
    | spawn => cases hop
    | spawnUser => cases hop
    | spawnOwned => cases hop
    | _ => cases hmoves

/-! ## New threads -/

/-- What a spawn does: a slot gets a new thread, and the other threads are only moved. -/
structure Spawned (s : Scheduler) (id : Nat) (s' : Scheduler) : Prop where
  slot : ∃ s₁, s.takeSlot = some (id, s₁)
  len : s'.len = max s.len (id + 1)
  idle : s'.idle = s.idle
  other : ∀ x, x ≠ id → Moved (s.thread x) (s'.thread x)
  fresh : (s'.thread id).ipcWake = none ∧ (s'.thread id).state ≠ .blocked

/-- The process of a new thread. -/
def SchedOp.newProc : SchedOp → Option Nat
  | .spawnUser _ proc .. | .spawnOwned _ _ _ proc _ => some proc
  | _ => none

theorem spawned_place {t : Thread} (hslot : s.takeSlot = some (id, s₁)) (hwake : t.ipcWake = none)
    (hstate : t.state ≠ .blocked) :
    Spawned s id (s₁.place id t) ∧ ((s₁.place id t).thread id).proc = t.proc := by
  obtain ⟨free, rfl⟩ := takeSlot_eq hslot
  have hplaced := (MovedThreads.start (Scheduler.seat { s with freeSlots := free } id t)).enqueue
    allowsMoves_moved id
  have hseat : (Scheduler.seat { s with freeSlots := free } id t).thread =
      Function.update s.thread id t := rfl
  have hnew := hplaced.thread id
  rw [hseat, Function.update_self] at hnew
  refine ⟨⟨⟨_, hslot⟩, hplaced.len, hplaced.idle, fun x hx => ?_, hnew.ipcWake.trans hwake,
    fun hblocked => hstate (hnew.blocked hblocked).1⟩, hnew.same.proc⟩
  have hthread := hplaced.thread x
  rw [hseat, Function.update_of_ne hx] at hthread
  exact hthread

/-- Every spawn gives one slot to a thread of its process. -/
theorem step_spawned {op : SchedOp} (hop : op.spawns = true) (hstep : s.step b op = some s') :
    ∃ id, Spawned s id s' ∧ (s'.thread id).proc = op.newProc := by
  cases op with
  | spawn h entry prio stack | spawnUser h proc root entryPc stackTop prio argc argv =>
    obtain ⟨result, hspawn, rfl⟩ := Option.map_eq_some_iff.mp hstep
    obtain ⟨⟨id, s₁⟩, hslot, rfl⟩ := Option.map_eq_some_iff.mp hspawn
    exact ⟨id, spawned_place hslot rfl fun hblocked => by cases hblocked⟩
  | spawnOwned h entry prio proc stack =>
    obtain ⟨result, howned, rfl⟩ := Option.map_eq_some_iff.mp hstep
    obtain ⟨⟨id, s₂⟩, hspawn, rfl⟩ := Option.map_eq_some_iff.mp howned
    obtain ⟨⟨id', s₁⟩, hslot, hplaced⟩ := Option.map_eq_some_iff.mp hspawn
    obtain ⟨rfl, rfl⟩ := Prod.mk.inj hplaced
    obtain ⟨hspawned, -⟩ := spawned_place (t := .kernel b h entry prio stack) hslot rfl
      fun hblocked => by cases hblocked
    generalize s₁.place id' (.kernel b h entry prio stack) = s₂ at hspawned
    have hmoved : Threads Moved (s₂.modify id' fun t => { t with proc := some proc })
        (if (s₂.modify id' fun t => { t with proc := some proc }).donations.any
            fun d => d.peerProc = proc
          then (s₂.modify id' fun t => { t with proc := some proc }).requeueProcThreads proc
          else s₂.modify id' fun t => { t with proc := some proc }) := by
      split
      · exact (Threads.requeues allowsMoves_moved _).requeue _ _ (MovedThreads.start _)
      · exact MovedThreads.start _
    have hnew := hmoved.thread id'
    rw [modify_self] at hnew
    refine ⟨id', ⟨hspawned.slot, hmoved.len.trans hspawned.len, hmoved.idle.trans hspawned.idle,
      fun x hx => ?_, hnew.ipcWake.trans hspawned.fresh.1,
      fun hblocked => hspawned.fresh.2 (hnew.blocked hblocked).1⟩, hnew.same.proc⟩
    have hthread := hmoved.thread x
    rw [modify_of_ne hx] at hthread
    exact allowsMoves_moved.trans _ _ _ (hspawned.other x hx) hthread
  | _ => cases hop

/-- The table never gets shorter. -/
theorem step_len_le {op : SchedOp} (hstep : s.step b op = some s') : s.len ≤ s'.len := by
  cases hop : op.spawns with
  | false => exact (step_sameThreads hop hstep).len.ge
  | true =>
    obtain ⟨id, hspawned, -⟩ := step_spawned hop hstep
    rw [hspawned.len]
    exact Nat.le_max_left _ _

end Parts

end Ignium.Sched
