import Ignium.Sched.Identity
import Ignium.Lib.Machine

/-!
# Wake-ups

A wake-up reaches a thread at any time: before it blocks, while it is blocked, or after. A blocked
thread never has a wake-up on record (`Quiet`), so a wake-up makes a blocked thread ready and is
recorded for any other (`Arrives`). A recorded result stays until its thread is about to block, and
that section then returns at once (`Lasts`).

`lasts_iff` is the step lemma of the last part. A record is lost if a second result for the same
thread replaces it, and if a spawn puts a new thread into the slot while its owner is alive, which
a slot that is free twice allows.
-/

namespace Ignium.Sched

open Scheduler

/-- No blocked thread has a wake-up on record. -/
def Quiet (s : Scheduler) : Prop :=
  ∀ id, (s.thread id).state = .blocked →
    (s.thread id).woken = false ∧ (s.thread id).ipcWake = none

/-- The slot has a thread that has not exited. -/
def Live (s : Scheduler) (id : Nat) : Prop := id < s.len ∧ (s.thread id).state ≠ .exited

instance (s : Scheduler) (id : Nat) : Decidable (Live s id) :=
  inferInstanceAs (Decidable (id < s.len ∧ (s.thread id).state ≠ .exited))

/-- A wake-up of a live thread makes it ready if it is blocked, and is recorded otherwise. -/
def Arrives (s : Scheduler) (op : SchedOp) (s' : Scheduler) : Prop :=
  match op with
  | .wake id => Live s id →
      if (s.thread id).state = .blocked then (s'.thread id).state = .ready
      else (s'.thread id).woken = true
  | .ipcWakeWithMsg id msg => Live s id →
      if (s.thread id).state = .blocked then (s'.thread id).state = .ready
      else (s'.thread id).ipcWake = some (.msg (msg.getD (.replicate Ipc.msgWords 0)))
  | .ipcWakeWithErr id code => Live s id →
      if (s.thread id).state = .blocked then (s'.thread id).state = .ready
      else (s'.thread id).ipcWake = some (.err code)
  | _ => True

/-- The section is one in which this thread is about to block. -/
def BlocksIn (s : Scheduler) (id : Nat) : SchedOp → Prop
  | .blockCurrent h => s.current h = id
  | .blockUserFromTrap h _ => s.current h = id
  | _ => False

/-- The section returns to the thread that is about to block, without a switch. -/
def Returns (s : Scheduler) : SchedOp → Prop
  | .blockCurrent h => (s.blockCurrent h).1 = none
  | .blockUserFromTrap h frame => ∃ frame', (s.blockUserFromTrap h frame).1 = .returned frame'
  | _ => False

/-- What happens to the recorded result `r` of a thread: it stays, and the section in which the
thread is about to block uses it up and returns without blocking. -/
structure Kept (s : Scheduler) (op : SchedOp) (s' : Scheduler) (id : Nat) (r : IpcWake) :
    Prop where
  stays : ¬ BlocksIn s id op → (s'.thread id).ipcWake = some r
  used : BlocksIn s id op → Returns s op ∧ s'.current = s.current ∧
    (s'.thread id).ipcWake = none ∧ (s'.thread id).state ≠ .blocked

/-- No recorded result of a live thread is lost. -/
def Lasts (s : Scheduler) (op : SchedOp) (s' : Scheduler) : Prop :=
  ∀ id r, Live s id → (s.thread id).ipcWake = some r → Kept s op s' id r

/-- A spawn takes no slot of a live thread that has a result on record, and no result replaces
a different one on record. -/
def SparesResults (s : Scheduler) : SchedOp → Prop
  | .spawn .. | .spawnUser .. | .spawnOwned .. =>
    ∀ id s₁, s.takeSlot = some (id, s₁) → Live s id → (s.thread id).ipcWake = none
  | .ipcWakeWithMsg id msg => Live s id → ∀ r, (s.thread id).ipcWake = some r →
      r = .msg (msg.getD (.replicate Ipc.msgWords 0))
  | .ipcWakeWithErr id code => Live s id → ∀ r, (s.thread id).ipcWake = some r → r = .err code
  | _ => True

section Sections

variable {s s' : Scheduler} {b : Boot} {h : Hart} {id : Nat} {op : SchedOp} {r : IpcWake}

/-! ## The sections that block -/

/-- What a section in which the current thread is about to block can do. -/
inductive Sleeps (s : Scheduler) (h : Hart) (returned : Prop) (s' : Scheduler) : Prop where
  /-- A result on record is used up. -/
  | used (hreturned : returned) (hcurrent : s'.current = s.current)
      (hmoved : Threads Moved (s.modify (s.current h) fun t =>
        { t with ipcWake := none, state := .running }) s')
  /-- Another wake-up is used up. -/
  | stayed (hnone : (s.thread (s.current h)).ipcWake = none) (hmoved : Threads Moved s s')
  /-- The thread blocks. -/
  | slept {f : Thread → Thread} (hnone : (s.thread (s.current h)).ipcWake = none)
      (hwoken : (f (s.thread (s.current h))).woken = false)
      (hwake : (f (s.thread (s.current h))).ipcWake = none)
      (hmoved : Threads Moved (s.modify (s.current h) f) s')

/-- The results of other threads stay on record. -/
theorem Sleeps.ipcWake_of_ne {returned : Prop} {x : Nat} (hsleeps : Sleeps s h returned s')
    (hne : x ≠ s.current h) : (s'.thread x).ipcWake = (s.thread x).ipcWake := by
  cases hsleeps with
  | used _ _ hmoved => rw [(hmoved.thread x).ipcWake, modify_of_ne hne]
  | stayed _ hmoved => exact (hmoved.thread x).ipcWake
  | slept _ _ _ hmoved => rw [(hmoved.thread x).ipcWake, modify_of_ne hne]

/-- A thread that is about to block has no result on record afterwards. -/
theorem Sleeps.ipcWake_current {returned : Prop} (hsleeps : Sleeps s h returned s') :
    (s'.thread (s.current h)).ipcWake = none := by
  cases hsleeps with
  | used _ _ hmoved => rw [(hmoved.thread _).ipcWake, modify_self]
  | stayed hnone hmoved => rw [(hmoved.thread _).ipcWake, hnone]
  | slept _ _ hwake hmoved => rw [(hmoved.thread _).ipcWake, modify_self, hwake]

theorem moved_revokeDonations (s : Scheduler) (id : Nat) :
    Threads Moved s (s.revokeDonations id) :=
  (Threads.requeues allowsMoves_moved s).revokeDonations (MovedThreads.start s) id

/-- The end of a wait. -/
theorem moved_rouse (s : Scheduler) (id : Nat) :
    Threads Moved s ((s.enqueue id).revokeDonations id) :=
  (Threads.requeues allowsMoves_moved s).revokeDonations
    ((MovedThreads.start s).enqueue allowsMoves_moved id) id

theorem current_revokeDonations (s : Scheduler) (id : Nat) :
    (s.revokeDonations id).current = s.current :=
  ((samePlan_requeues s).revokeDonations ⟨rfl, rfl, rfl, rfl, rfl⟩ id).current

theorem blockCurrent_sleeps (s : Scheduler) (h : Hart) :
    Sleeps s h ((s.blockCurrent h).1 = none) (s.blockCurrent h).2 := by
  unfold Scheduler.blockCurrent
  dsimp only
  split
  · exact .used rfl (current_revokeDonations _ _) (moved_revokeDonations _ _)
  · next hwake =>
    have hnone : (s.thread (s.current h)).ipcWake = none := by simpa using hwake
    split
    · refine .stayed hnone ?_
      dsimp only
      refine ((MovedThreads.start s).removeFromReady _).modify allowsMoves_moved fun _ =>
        .awake ⟨rfl, rfl, rfl⟩ rfl ?_
      exact fun hstate => by cases hstate
    · split
      · refine .stayed hnone ?_
        dsimp only
        refine (MovedThreads.start s).modify allowsMoves_moved fun _ =>
          .awake ⟨rfl, rfl, rfl⟩ rfl ?_
        exact fun hstate => by cases hstate
      · next hwoken =>
        exact .slept hnone (Bool.not_eq_true _ ▸ hwoken) hnone
          ((MovedThreads.start _).dispatch allowsMoves_moved h)

theorem blockUserFromTrap_sleeps (s : Scheduler) (h : Hart) (frame : TrapFrame) :
    Sleeps s h (∃ frame', (s.blockUserFromTrap h frame).1 = .returned frame')
      (s.blockUserFromTrap h frame).2 := by
  unfold Scheduler.blockUserFromTrap
  dsimp only
  split
  · exact .used ⟨_, rfl⟩ (current_revokeDonations _ _) (moved_revokeDonations _ _)
  · exact .used ⟨_, rfl⟩ (current_revokeDonations _ _) (moved_revokeDonations _ _)
  · next hnone =>
    exact .slept hnone rfl hnone ((MovedThreads.start _).dispatch allowsMoves_moved h)

/-! ## Blocked threads -/

/-- A thread that is only moved stays quiet. -/
theorem Moved.quiet {t t' : Thread} (hmoved : Moved t t')
    (hquiet : t.state = .blocked → t.woken = false ∧ t.ipcWake = none)
    (hblocked : t'.state = .blocked) : t'.woken = false ∧ t'.ipcWake = none := by
  obtain ⟨hbefore, hwoken⟩ := hmoved.blocked hblocked
  obtain ⟨hfalse, hnone⟩ := hquiet hbefore
  refine ⟨?_, hmoved.ipcWake.trans hnone⟩
  rw [← Bool.not_eq_true]
  intro htrue
  rw [hwoken htrue] at hfalse
  cases hfalse

namespace Quiet

theorem moved (hs : Quiet s) (hmoved : Threads Moved s s') : Quiet s' := fun id hblocked =>
  (hmoved.thread id).quiet (hs id) hblocked

/-- One thread is changed before the threads are moved. -/
theorem changed {f : Thread → Thread} (hs : Quiet s)
    (hf : (f (s.thread id)).state = .blocked →
      (f (s.thread id)).woken = false ∧ (f (s.thread id)).ipcWake = none)
    (hmoved : Threads Moved (s.modify id f) s') : Quiet s' := by
  refine moved (fun x hblocked => ?_) hmoved
  by_cases hx : x = id
  · subst hx
    rw [modify_self] at hblocked ⊢
    exact hf hblocked
  · rw [modify_of_ne hx] at hblocked ⊢
    exact hs x hblocked

theorem sleeps {returned : Prop} (hs : Quiet s) (hsleeps : Sleeps s h returned s') : Quiet s' := by
  cases hsleeps with
  | used _ _ hmoved => exact hs.changed (fun hblocked => by cases hblocked) hmoved
  | stayed _ hmoved => exact hs.moved hmoved
  | slept _ hwoken hwake hmoved => exact hs.changed (fun _ => ⟨hwoken, hwake⟩) hmoved

theorem delivered (hs : Quiet s) (hstep : Delivered s id r s') : Quiet s' := by
  cases hstep with
  | noted hf hstate =>
    refine hs.changed (fun hblocked => ?_) (MovedThreads.start _)
    exact absurd (hf.state _ ▸ hblocked) hstate
  | woken hf _ hblocked hnone =>
    refine hs.changed (fun _ => ⟨?_, hnone _⟩) (moved_rouse _ id)
    rw [hf]
    exact (hs id hblocked).1

theorem spawned (hs : Quiet s) (hspawned : Spawned s id s') : Quiet s' := by
  intro x hblocked
  by_cases hx : x = id
  · subst hx
    exact absurd hblocked hspawned.fresh.2
  · exact (hspawned.other x hx).quiet (hs x) hblocked

theorem init (b : Boot) (stackOf : Hart → Nat) : Quiet (Scheduler.init b stackOf) :=
  fun _ hblocked => by cases hblocked

theorem step (hs : Quiet s) (hstep : s.step b op = some s') : Quiet s' := by
  cases op with
  | spawn | spawnUser | spawnOwned =>
    obtain ⟨id, hspawned, -⟩ := step_spawned rfl hstep
    exact hs.spawned hspawned
  | blockCurrent h =>
    obtain ⟨-, ⟨⟩⟩ := Option.ite_none_left_eq_some.mp hstep
    exact hs.sleeps (blockCurrent_sleeps s h)
  | blockUserFromTrap h frame =>
    obtain ⟨-, ⟨⟩⟩ := Option.ite_none_left_eq_some.mp hstep
    exact hs.sleeps (blockUserFromTrap_sleeps s h frame)
  | ipcWakeWithMsg tid msg => exact hs.delivered (delivered_ipcWakeWithMsg hstep)
  | ipcWakeWithErr tid code => exact hs.delivered (delivered_ipcWakeWithErr hstep)
  | _ => exact hs.moved (step_moved rfl hstep)

end Quiet

/-! ## Arriving wake-ups -/

theorem ready_requeues (id : Nat) :
    Requeues fun s : Scheduler => (s.thread id).state = .ready where
  drop _ _ h := h
  requeue t proc h := by
    unfold Scheduler.requeueProcThreads
    refine List.foldlRecOn (motive := fun s : Scheduler => (s.thread id).state = .ready) _ _ h
      fun s hs x _ => ?_
    by_cases hx : id = x
    · rw [hx, enqueue_self]
    · rwa [enqueue_of_ne s hx]

theorem Delivered.arrives (hstep : Delivered s id r s') :
    if (s.thread id).state = .blocked then (s'.thread id).state = .ready
    else (s'.thread id).ipcWake = some r := by
  cases hstep with
  | noted hf hstate hnote =>
    rw [if_neg hstate, modify_self]
    exact hnote _
  | woken hf hlt hblocked =>
    rw [if_pos hblocked]
    refine (ready_requeues id).revokeDonations ?_ id
    rw [enqueue_self]

theorem step_arrives (hstep : s.step b op = some s') : Arrives s op s' := by
  cases op with
  | wake id =>
    cases hstep
    intro hlive
    rw [Scheduler.wake, if_pos hlive.1]
    dsimp only
    rw [modify_self]
    split
    · rw [enqueue_self]
    · rw [modify_self]
  | ipcWakeWithMsg id msg => exact fun _ => (delivered_ipcWakeWithMsg hstep).arrives
  | ipcWakeWithErr id code => exact fun _ => (delivered_ipcWakeWithErr hstep).arrives
  | _ => trivial

/-! ## Recorded results -/

theorem Lasts.moved (hmoved : Threads Moved s s') (hop : ∀ id, ¬ BlocksIn s id op) :
    Lasts s op s' := fun id _ _ hwake =>
  ⟨fun _ => (hmoved.thread id).ipcWake.trans hwake, fun hblocks => absurd hblocks (hop id)⟩

theorem Lasts.sleeps (hsleeps : Sleeps s h (Returns s op) s')
    (hop : ∀ id, BlocksIn s id op ↔ s.current h = id) : Lasts s op s' := by
  intro id r hlive hwake
  by_cases hid : s.current h = id
  · subst hid
    cases hsleeps with
    | used hreturned hcurrent hmoved =>
      have hthread := hmoved.thread (s.current h)
      rw [modify_self] at hthread
      refine ⟨fun hnot => absurd ((hop _).mpr rfl) hnot, fun _ => ⟨hreturned, hcurrent,
        hthread.ipcWake, fun hblocked => ?_⟩⟩
      cases (hthread.blocked hblocked).1
    | stayed hnone => rw [hnone] at hwake; cases hwake
    | slept hnone => rw [hnone] at hwake; cases hwake
  · -- The other threads are only moved.
    have hother : Moved (s.thread id) (s'.thread id) := by
      cases hsleeps with
      | used _ _ hmoved => simpa only [modify_of_ne (Ne.symm hid)] using hmoved.thread id
      | stayed _ hmoved => exact hmoved.thread id
      | slept _ _ _ hmoved => simpa only [modify_of_ne (Ne.symm hid)] using hmoved.thread id
    exact ⟨fun _ => hother.ipcWake.trans hwake, fun hblocks => absurd ((hop id).mp hblocks) hid⟩

/-- A result that arrives leaves the others alone, and replaces the one on record if there is
one. -/
theorem lasts_delivered_iff (hs : Quiet s) (hstep : Delivered s id r s')
    (hop : ∀ x, ¬ BlocksIn s x op) :
    Lasts s op s' ↔ (Live s id → ∀ r', (s.thread id).ipcWake = some r' → r' = r) := by
  have hother : ∀ x, x ≠ id → (s'.thread x).ipcWake = (s.thread x).ipcWake := by
    intro x hx
    cases hstep with
    | noted hf => rw [modify_of_ne hx]
    | woken hf => rw [((moved_rouse _ id).thread x).ipcWake, modify_of_ne hx]
  -- A blocked thread has nothing on record, so a thread with a record gets the new one.
  have hself : ∀ r', (s.thread id).ipcWake = some r' → (s'.thread id).ipcWake = some r := by
    intro r' hwake
    have harrives := hstep.arrives
    rwa [if_neg] at harrives
    intro hblocked
    rw [(hs id hblocked).2] at hwake
    cases hwake
  constructor
  · intro hlasts hlive r' hwake
    have hkept := (hlasts id r' hlive hwake).stays (hop id)
    rw [hself r' hwake] at hkept
    exact (Option.some.inj hkept).symm
  · intro hsame x r' hlive hwake
    refine ⟨fun _ => ?_, fun hblocks => absurd hblocks (hop x)⟩
    by_cases hx : x = id
    · subst hx
      rw [hself r' hwake, hsame hlive r' hwake]
    · rw [hother x hx, hwake]

/-- A new thread has nothing on record. -/
theorem lasts_spawned_iff (hspawned : Spawned s id s') (hop : ∀ x, ¬ BlocksIn s x op) :
    Lasts s op s' ↔
      ∀ x s₁, s.takeSlot = some (x, s₁) → Live s x → (s.thread x).ipcWake = none := by
  obtain ⟨s₁, hslot⟩ := hspawned.slot
  constructor
  · intro hlasts x s₂ hslot' hlive
    rw [hslot] at hslot'
    obtain ⟨rfl, -⟩ := Prod.mk.inj (Option.some.inj hslot')
    rw [Option.eq_none_iff_forall_ne_some]
    intro r hwake
    have hkept := (hlasts id r hlive hwake).stays (hop id)
    rw [hspawned.fresh.1] at hkept
    cases hkept
  · intro hspares x r hlive hwake
    refine ⟨fun _ => ?_, fun hblocks => absurd hblocks (hop x)⟩
    by_cases hx : x = id
    · subst hx
      rw [hspares x s₁ hslot hlive] at hwake
      cases hwake
    · exact (hspawned.other x hx).ipcWake.trans hwake

/-- A step loses no recorded result exactly if it meets the condition. -/
theorem lasts_iff (hs : Quiet s) (hstep : s.step b op = some s') :
    Lasts s op s' ↔ SparesResults s op := by
  cases op with
  | spawn | spawnUser | spawnOwned =>
    obtain ⟨id, hspawned, -⟩ := step_spawned rfl hstep
    exact lasts_spawned_iff hspawned fun _ hblocks => hblocks
  | blockCurrent h =>
    obtain ⟨-, ⟨⟩⟩ := Option.ite_none_left_eq_some.mp hstep
    exact iff_of_true (.sleeps (blockCurrent_sleeps s h) fun _ => Iff.rfl) trivial
  | blockUserFromTrap h frame =>
    obtain ⟨-, ⟨⟩⟩ := Option.ite_none_left_eq_some.mp hstep
    exact iff_of_true (.sleeps (blockUserFromTrap_sleeps s h frame) fun _ => Iff.rfl) trivial
  | ipcWakeWithMsg tid msg =>
    exact lasts_delivered_iff hs (delivered_ipcWakeWithMsg hstep) fun _ hblocks => hblocks
  | ipcWakeWithErr tid code =>
    exact lasts_delivered_iff hs (delivered_ipcWakeWithErr hstep) fun _ hblocks => hblocks
  | _ => exact iff_of_true (.moved (step_moved rfl hstep) fun _ hblocks => hblocks) trivial

end Sections

/-! ## Runs -/

/-- From boot on, along any run of the sections on any harts: no blocked thread has a wake-up on
record and every wake-up arrives; and no recorded result is lost exactly if every step spares the
results of live threads. -/
theorem no_lost_wakeup_iff (b : Boot) (stackOf : Hart → Nat) (ops : List SchedOp) :
    Machine.Always (Scheduler.step b) (.init b stackOf) ops Quiet ∧
    Machine.Steps (Scheduler.step b) (.init b stackOf) ops Arrives ∧
    (Machine.Steps (Scheduler.step b) (.init b stackOf) ops Lasts ↔
      Machine.Each (Scheduler.step b) (.init b stackOf) ops SparesResults) := by
  have hquiet : Machine.Always (Scheduler.step b) (.init b stackOf) ops Quiet :=
    Machine.always_of_step (Quiet.init b stackOf) fun _ _ _ hs hstep => hs.step hstep
  refine ⟨hquiet, fun _ _ _ _ _ _ _ hstep => step_arrives hstep, ?_⟩
  constructor
  · intro hlasts first op rest s s' hops hrun hstep
    exact (lasts_iff (hquiet first _ s hops hrun) hstep).mp (hlasts first op rest s s' hops hrun hstep)
  · intro hspares first op rest s s' hops hrun hstep
    exact (lasts_iff (hquiet first _ s hops hrun) hstep).mpr
      (hspares first op rest s s' hops hrun hstep)

/-- A process with two threads: the first exits and the second is killed with the process, so the
slot of the first is free twice. A new thread takes it and gets a result. -/
def resultOps : List SchedOp :=
  let h : Hart := clampHart 0
  [.spawnUser h 5 0 0 0 0 0 0, .spawnUser h 5 0 0 0 0 0 0, .yield h, .exitFromTrap h,
    .killProcess h 5, .exitFromTrap h, .spawnUser h 6 0 0 0 0 0 0, .ipcWakeWithErr 4 3]

/-- The next spawn takes the slot once more, and the result is lost. -/
theorem not_lasts_reuse : ∃ s s',
    Machine.run (Scheduler.step ⟨0, 0, 0, 0, 0⟩) (.init ⟨0, 0, 0, 0, 0⟩ fun _ => 0) resultOps =
      some s ∧
    s.step ⟨0, 0, 0, 0, 0⟩ (.spawnUser (clampHart 0) 7 0 0 0 0 0 0) = some s' ∧
    ¬ Lasts s (.spawnUser (clampHart 0) 7 0 0 0 0 0 0) s' := by
  have hrun : ((Machine.run (Scheduler.step ⟨0, 0, 0, 0, 0⟩)
      (.init ⟨0, 0, 0, 0, 0⟩ fun _ => 0) resultOps).bind fun s =>
        (s.step ⟨0, 0, 0, 0, 0⟩ (.spawnUser (clampHart 0) 7 0 0 0 0 0 0)).map fun s' =>
          (decide (Live s 4), (s.thread 4).ipcWake, (s'.thread 4).ipcWake)) =
      some (true, some (.err 3), none) := by
    decide +kernel
  obtain ⟨s, hs, hmap⟩ := Option.bind_eq_some_iff.mp hrun
  obtain ⟨s', hs', hlost⟩ := Option.map_eq_some_iff.mp hmap
  simp only [Prod.mk.injEq, decide_eq_true_eq] at hlost
  obtain ⟨hlive, hbefore, hafter⟩ := hlost
  refine ⟨s, s', hs, hs', fun hlasts => ?_⟩
  have hkept := (hlasts 4 (.err 3) hlive hbefore).stays fun hblocks => hblocks
  rw [hafter] at hkept
  cases hkept

end Ignium.Sched
