import Ignium.Sched.Sections
import Ignium.Lib.Machine

/-!
# Recycling thread slots

Exited threads leave their slots to later threads through the queue of free slots. Every section
keeps the state well formed, except that `kill_process` visits all threads of the process, also
those that have exited before: they keep their process in the thread table, and their slots are
freed a second time. `always_slotLaw_iff` says that this is the only way in which the slots go
wrong: along a run no slot is free twice and only slots of exited threads are free exactly if no
`kill_process` of the run meets a thread of its process that has exited before.
-/

namespace Ignium.Sched

open Scheduler

section FreeSlots

variable {s : Scheduler} {id : Nat}

/-- Every victim that does not run is put into the free slots, whether it is there already or
not. -/
theorem freeSlots_kill {ids : List Nat} (hnodup : ids.Nodup) (hid : id ∈ ids)
    (hstate : (s.thread id).state ≠ .running) :
    ∃ more, (ids.foldl Scheduler.killThread s).freeSlots = s.freeSlots ++ more ∧ id ∈ more := by
  have happend : ∀ (ids : List Nat) (s : Scheduler), ∃ more,
      (ids.foldl Scheduler.killThread s).freeSlots = s.freeSlots ++ more := by
    intro ids
    induction ids with
    | nil => exact fun s => ⟨[], (List.append_nil _).symm⟩
    | cons a ids ih =>
      intro s
      obtain ⟨more, hmore⟩ := ih (s.killThread a)
      rw [(killThread_plan s a).2.2.2, List.append_assoc] at hmore
      exact ⟨_, hmore⟩
  induction ids generalizing s with
  | nil => simp at hid
  | cons a ids ih =>
    obtain ⟨ha, hnodup⟩ := List.nodup_cons.mp hnodup
    have hfree := (killThread_plan s a).2.2.2
    rcases List.mem_cons.mp hid with rfl | hin
    · obtain ⟨more, hmore⟩ := happend ids (s.killThread id)
      rw [hfree, if_neg hstate, List.append_assoc] at hmore
      exact ⟨_, hmore, by simp⟩
    · have hne : id ≠ a := fun heq => ha (heq ▸ hin)
      obtain ⟨more, hmore, hmem⟩ := ih hnodup hin (by rwa [killThread_other s hne])
      rw [hfree, List.append_assoc] at hmore
      exact ⟨_, hmore, List.mem_append_right _ hmem⟩

end FreeSlots

/-! ## The law of the slots -/

/-- No slot is free twice, only slots of exited threads are free, and hence a new thread never gets
the slot of a thread that still exists. -/
structure SlotLaw (s : Scheduler) : Prop where
  nodup : s.freeSlots.Nodup
  exited : ∀ id ∈ s.freeSlots, (s.thread id).state = .exited
  fresh : ∀ id s', s.takeSlot = some (id, s') → id < s.len → (s.thread id).state = .exited

/-- A kill meets no thread that has exited before, the caller apart. -/
def KillsLive (s : Scheduler) : SchedOp → Prop
  | .killProcess h pid => ∀ id ∈ s.victims h pid, (s.thread id).state ≠ .exited
  | _ => True

instance (s : Scheduler) : ∀ op, Decidable (KillsLive s op)
  | .killProcess h pid =>
    inferInstanceAs (Decidable (∀ id ∈ s.victims h pid, (s.thread id).state ≠ .exited))
  | .spawn .. | .spawnUser .. | .spawnOwned .. | .exit .. | .exitFromTrap .. | .forceKillCurrent ..
  | .onTick .. | .yield .. | .blockCurrent .. | .blockResumed .. | .blockUserFromTrap .. | .wake ..
  | .ipcWakeWithMsg .. | .ipcWakeWithErr .. | .donateOnBlock .. | .setAffinity .. | .secondaryIdle ..
  | .threadEntry .. | .takeIpcMsg .. | .drainReaper => inferInstanceAs (Decidable True)

section Law

variable {s s' : Scheduler} {b : Boot} {op : SchedOp}

theorem Wf.slotLaw (hs : Wf s fun _ => False) : SlotLaw s := by
  have hexited : ∀ id ∈ s.freeSlots, (s.thread id).state = .exited := by
    intro id hin
    have hid : ¬ s.Idle id := by
      intro hidle
      obtain ⟨h, rfl⟩ := hidle
      exact hs.free_idle h hin
    exact (hs.placed id (hs.free_lt id hin) hid).free.mp hin
  refine ⟨hs.free_nodup, hexited, fun id s' hslot hlt => ?_⟩
  rw [takeSlot] at hslot
  split at hslot
  · next rest hfree =>
    obtain ⟨rfl, -⟩ := Prod.mk.inj (Option.some.inj hslot)
    exact hexited _ (by simp [hfree])
  · split at hslot
    · obtain ⟨rfl, -⟩ := Prod.mk.inj (Option.some.inj hslot)
      exact absurd hlt (Nat.lt_irrefl _)
    · cases hslot

theorem Wf.init (b : Boot) (stackOf : Hart → Nat) : Wf (Scheduler.init b stackOf) fun _ => False := by
  have hidle : ∀ id, id < maxHarts → (Scheduler.init b stackOf).Idle id :=
    fun id hlt => ⟨⟨id, hlt⟩, rfl⟩
  refine {
    placed := fun id hlt hid => absurd (hidle id hlt) hid
    idle_lt := fun h => h.isLt
    current_lt := fun h => h.isLt
    queued_lt := fun id hpos => ?_
    free_lt := by simp [Scheduler.init]
    free_nodup := List.nodup_nil
    free_idle := by simp [Scheduler.init]
    idle_proc := fun _ => rfl
    idle_kill := fun _ => rfl }
  obtain ⟨h, l, hin⟩ := mem_ready_of_occ hpos
  simp [Scheduler.init] at hin

/-- Every section keeps the state well formed if it is no kill that meets an exited thread. -/
theorem Wf.step (hs : Wf s fun _ => False) (hstep : s.step b op = some s')
    (hlive : KillsLive s op) : Wf s' fun _ => False := by
  cases op with
  | spawn h entry prio stack =>
    obtain ⟨result, hspawn, rfl⟩ := Option.map_eq_some_iff.mp hstep
    exact (hs.spawn hspawn).1
  | spawnUser h proc root entryPc stackTop prio argc argv =>
    obtain ⟨result, hspawn, rfl⟩ := Option.map_eq_some_iff.mp hstep
    exact hs.spawnUser hspawn
  | spawnOwned h entry prio proc stack =>
    obtain ⟨result, hspawn, rfl⟩ := Option.map_eq_some_iff.mp hstep
    exact hs.spawnOwned hspawn
  | exit h | exitFromTrap h =>
    obtain ⟨hid, ⟨⟩⟩ := Option.ite_none_left_eq_some.mp hstep
    exact hs.exit hid
  | killProcess h pid =>
    cases hstep
    exact hs.killProcess hlive
  | forceKillCurrent h =>
    cases hstep
    exact hs.forceKillCurrent
  | onTick h frame =>
    cases hstep
    exact hs.onTick frame
  | yield h =>
    cases hstep
    exact hs.yield
  | blockCurrent h =>
    obtain ⟨hid, ⟨⟩⟩ := Option.ite_none_left_eq_some.mp hstep
    exact hs.blockCurrent hid
  | blockResumed h =>
    cases hstep
    exact hs.blockResumed
  | blockUserFromTrap h frame =>
    obtain ⟨hid, ⟨⟩⟩ := Option.ite_none_left_eq_some.mp hstep
    exact hs.blockUserFromTrap hid frame
  | wake id =>
    cases hstep
    exact hs.wake
  | ipcWakeWithMsg tid msg => exact hs.delivered (delivered_ipcWakeWithMsg hstep)
  | ipcWakeWithErr tid code => exact hs.delivered (delivered_ipcWakeWithErr hstep)
  | donateOnBlock donorTid peerProc => exact hs.donateOnBlock hstep
  | setAffinity id hart => exact hs.setAffinity hstep
  | secondaryIdle h =>
    obtain ⟨-, rfl⟩ := Option.ite_some_none_eq_some.mp hstep
    exact hs.secondaryIdle
  | threadEntry h =>
    cases hstep
    exact hs.modify_same rfl rfl fun _ => rfl
  | takeIpcMsg h =>
    cases hstep
    unfold Scheduler.takeIpcMsg
    dsimp only
    exact hs.modify_same rfl rfl fun _ => rfl
  | drainReaper =>
    cases hstep
    exact hs.thin rfl rfl rfl rfl (fun _ _ _ => le_rfl) rfl fun _ => rfl

/-- A kill that meets an exited thread frees its slot a second time. -/
theorem Wf.not_slotLaw (hs : Wf s fun _ => False) (hstep : s.step b op = some s')
    (hdead : ¬ KillsLive s op) : ¬ SlotLaw s' := by
  cases op with
  | killProcess h pid =>
    cases hstep
    simp only [KillsLive, not_forall, not_not] at hdead
    obtain ⟨id, hin, hexited⟩ := hdead
    obtain ⟨hlt, hproc⟩ := List.mem_filter.mp hin
    simp only [List.mem_range] at hlt
    simp only [decide_eq_true_eq] at hproc
    have hid : ¬ s.Idle id := by
      intro hidle
      obtain ⟨h', rfl⟩ := hidle
      rw [hs.idle_proc] at hproc
      cases hproc.1
    have hold : id ∈ s.freeSlots := (hs.placed id hlt hid).free.mpr hexited
    have hfree : ∃ more, (s.killProcess h pid).2.2.freeSlots = s.freeSlots ++ more ∧
        id ∈ more := by
      unfold Scheduler.killProcess
      dsimp only
      have hplan := fun t : Scheduler => (samePlan_requeues t).revokeDonationsOf
        ((samePlan_requeues t).revokeDonationsForProc ⟨rfl, rfl, rfl, rfl, rfl⟩ pid)
        (s.victims h pid ++ [s.current h]) (some pid)
      rw [(hplan _).freeSlots]
      have hqueued : (Scheduler.thread { s with
          ready := fun h' l => (s.ready h' l).filter (· ∉ s.victims h pid) } id).state ≠
          .running := by simp [hexited]
      exact freeSlots_kill (List.nodup_range.filter _) hin hqueued
    obtain ⟨more, hfree, hmore⟩ := hfree
    intro hlaw
    have hnodup := hlaw.nodup
    rw [hfree, List.nodup_append] at hnodup
    exact hnodup.2.2 id hold id hmore rfl
  | _ => exact absurd trivial hdead

end Law

/-- A state between two sections: no hart is away. -/
def Settled (s : Scheduler) : Prop := Wf s fun _ => False

/-- From boot on, along any run of the sections on any harts, the slots follow their law in every
state exactly if no kill of the run meets a thread of its process that has exited before. -/
theorem always_slotLaw_iff (b : Boot) (stackOf : Hart → Nat) (ops : List SchedOp) :
    Machine.Always (Scheduler.step b) (Scheduler.init b stackOf) ops SlotLaw ↔
      Machine.Each (Scheduler.step b) (Scheduler.init b stackOf) ops KillsLive := by
  have hinit : Settled (Scheduler.init b stackOf) := Wf.init b stackOf
  exact Machine.always_iff_each hinit (fun _ hs => Wf.slotLaw hs)
    (fun _ _ _ hs hstep hlive => Wf.step hs hstep hlive)
    (fun _ _ _ hs hstep hdead => Wf.not_slotLaw hs hstep hdead)

/-- A process with two threads: the first exits, and then the second is killed with the process. -/
def killOps : List SchedOp :=
  let h : Hart := ⟨0, by decide⟩
  [.spawnUser h 5 0 0 0 0 0 0, .spawnUser h 5 0 0 0 0 0 0, .secondaryIdle h, .exitFromTrap h,
    .killProcess h 5]

/-- Afterwards the slot of the first thread is free twice. -/
theorem not_slotLaw_kill : ∃ s,
    Machine.run (Scheduler.step ⟨0, 0, 0, 0, 0⟩) (.init ⟨0, 0, 0, 0, 0⟩ fun _ => 0) killOps =
      some s ∧ s.freeSlots = [4, 4] ∧ ¬ SlotLaw s := by
  have hrun : (Machine.run (Scheduler.step ⟨0, 0, 0, 0, 0⟩)
      (.init ⟨0, 0, 0, 0, 0⟩ fun _ => 0) killOps).map Scheduler.freeSlots = some [4, 4] := by
    decide +kernel
  obtain ⟨s, hs, hfree⟩ := Option.map_eq_some_iff.mp hrun
  refine ⟨s, hs, hfree, fun hlaw => ?_⟩
  have hnodup := hlaw.nodup
  rw [hfree] at hnodup
  simp at hnodup

end Ignium.Sched
