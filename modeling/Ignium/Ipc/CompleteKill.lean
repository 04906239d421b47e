import Ignium.Ipc.System
import Ignium.Sched.Identity
import Ignium.Sched.OneHart

/-!
# A kill on one hart

After `kill_process` nothing of the process is left in the queues of the scheduler and of IPC:
`CompleteKill` says what has to hold, and `always_completeKill` proves it for every process in every
state that one hart can reach, as long as no earlier kill of the run met a thread that had exited
before. After such a kill a slot is free twice, so that two new threads share it, and a thread can
be current and queued at the same time; `not_completeKill_shared` is a run in which a kill by that
thread leaves it in the queue.
-/

namespace Ignium.Ipc

open Kernel Sched Function

/-! ## What requeuing leaves alone -/

section Requeuing

variable {s : Scheduler} {threads : Nat → Sched.Thread} {P : Nat → Prop}

/-- While queued threads of processes are ready, queuing a process anew changes no thread and brings
no new thread into the queues. -/
theorem requeues_same (threads : Nat → Sched.Thread)
    (hready : ∀ id, P id → (threads id).proc ≠ none → (threads id).state = .ready) :
    Requeues fun s => s.thread = threads ∧ ∀ h l, ∀ id ∈ s.ready h l, P id where
  drop _ _ hs := hs
  requeue s proc hs := by
    obtain ⟨hthread, hqueued⟩ := hs
    unfold Scheduler.requeueProcThreads
    refine List.foldlRecOn (motive := fun t : Scheduler =>
      t.thread = threads ∧ ∀ h l, ∀ id ∈ t.ready h l, P id) _ _ ⟨hthread, fun h l id hin => ?_⟩
      fun t ht id hid => ?_
    · exact hqueued h l id (List.mem_of_mem_filter hin)
    · obtain ⟨hin, hproc⟩ := List.mem_filter.mp (List.mem_of_mem_take hid)
      simp only [decide_eq_true_eq] at hproc
      have hP : P id := by
        obtain ⟨h, l, hmem⟩ := Scheduler.mem_ready_of_occ
          (count_queues (s := s) ▸ List.count_pos_iff.mpr hin)
        exact hqueued h l id hmem
      obtain ⟨hsame, hqueue⟩ := ht
      refine ⟨?_, fun h l x hx => ?_⟩
      · have hstate : (t.thread id).state = .ready := by
          rw [hsame]
          refine hready id hP ?_
          rw [← hthread, hproc]
          simp
        rw [Scheduler.enqueue_of_ready hstate, hsame]
      · rcases Scheduler.mem_enqueue hx with rfl | hold
        · exact hP
        · exact hqueue h l x hold

end Requeuing

/-! ## Telling the waiting threads -/

/-- What a thread looks like after it was told that its peer is gone. -/
def told (code : Nat) (t : Sched.Thread) : Sched.Thread :=
  if t.state = .blocked then
    { t with
      state := .ready
      frame := (t.frame.put xA0 code).skipEcall
      ipcMsg := some (.replicate msgWords code)
      ipcWake := none }
  else { t with ipcMsg := some (.replicate msgWords code), ipcWake := some (.err code) }

theorem told_proc (code : Nat) (t : Sched.Thread) : (told code t).proc = t.proc := by
  rw [told]
  split <;> rfl

section Telling

variable {s : Scheduler} {h : Hart} {tid code : Nat}

/-- A queued thread of a process is ready. -/
theorem ready_of_queued {l : Prio} (hs : Settled s) (hin : tid ∈ s.ready h l)
    (hproc : (s.thread tid).proc ≠ none) : (s.thread tid).state = .ready := by
  have hid : ¬ s.Idle tid := by
    intro hidle
    obtain ⟨h', rfl⟩ := hidle
    exact hproc (hs.idle_proc h')
  exact ((hs.placed tid (hs.queued_lt tid (Scheduler.occ_pos hin)) hid).queued h l hin).1

/-- When a blocked thread has been queued, the end of its donations changes no thread. -/
theorem revoke_queued {f : Sched.Thread → Sched.Thread} (hs : Settled s) (tid : Nat) :
    (((s.modify tid f).enqueue tid).revokeDonations tid).thread =
        update s.thread tid { f (s.thread tid) with state := .ready } ∧
      SamePlan s (((s.modify tid f).enqueue tid).revokeDonations tid) := by
  have hthread : ((s.modify tid f).enqueue tid).thread =
      update s.thread tid { f (s.thread tid) with state := .ready } := by
    change update (update s.thread tid (f (s.thread tid))) tid
      { (s.modify tid f).thread tid with state := .ready } = _
    rw [update_idem, Scheduler.modify_self]
  have hqueued : ∀ h l, ∀ id ∈ ((s.modify tid f).enqueue tid).ready h l,
      (((s.modify tid f).enqueue tid).thread id).proc ≠ none →
      (((s.modify tid f).enqueue tid).thread id).state = .ready := by
    intro h l id hin hproc
    rw [hthread] at hproc ⊢
    by_cases heq : id = tid
    · rw [heq, update_self]
    · rw [update_of_ne heq] at hproc ⊢
      exact ready_of_queued hs ((Scheduler.mem_enqueue hin).resolve_left heq) hproc
  have hplan : SamePlan s ((s.modify tid f).enqueue tid) := ⟨rfl, rfl, rfl, rfl, rfl⟩
  generalize (s.modify tid f).enqueue tid = s₁ at hthread hqueued hplan ⊢
  have hsame := (requeues_same _ fun _ h => h).revokeDonations ⟨rfl, hqueued⟩ tid
  exact ⟨hsame.1.trans hthread, (samePlan_requeues s).revokeDonations hplan tid⟩

/-- One wake-up changes one thread. -/
theorem wake_told (hs : Settled s) (hlt : tid < s.len) (code : Nat) :
    ∃ s', s.ipcWakeWithErr tid code = some s' ∧
    s'.thread = update s.thread tid (told code (s.thread tid)) ∧ SamePlan s s' := by
  rw [Scheduler.ipcWakeWithErr, if_pos hlt]
  dsimp only
  split
  · next hstate =>
    refine ⟨_, rfl, ?_, ⟨rfl, rfl, rfl, rfl, rfl⟩⟩
    rw [told, if_neg hstate]
    rfl
  · next hstate =>
    obtain ⟨hthread, hplan⟩ := revoke_queued hs tid
    refine ⟨_, rfl, hthread.trans ?_, hplan⟩
    rw [told, if_pos (not_not.mp hstate)]

/-- Waking different threads one after the other. -/
theorem wakeAll_told (wakes : List (Nat × Nat)) (hs : Settled s) (hlone : Lone s h)
    (hnodup : (wakes.map Prod.fst).Nodup) (hlt : ∀ wake ∈ wakes, wake.1 < s.len) :
    ∃ s', System.wakeAll s wakes = some s' ∧ Settled s' ∧ Lone s' h ∧ SamePlan s s' ∧
      (∀ wake ∈ wakes, s'.thread wake.1 = told wake.2 (s.thread wake.1)) ∧
      ∀ x, x ∉ wakes.map Prod.fst → s'.thread x = s.thread x := by
  induction wakes generalizing s with
  | nil => exact ⟨s, rfl, hs, hlone, ⟨rfl, rfl, rfl, rfl, rfl⟩, by simp, fun _ _ => rfl⟩
  | cons wake wakes ih =>
    obtain ⟨hfresh, hnodup⟩ := List.nodup_cons.mp hnodup
    obtain ⟨s₁, hstep, hthread, hplan⟩ := wake_told hs (hlt wake (by simp)) wake.2
    have hdelivered := delivered_ipcWakeWithErr hstep
    have hlt₁ : ∀ wake ∈ wakes, wake.1 < s₁.len := by
      intro w hw
      rw [hplan.len]
      exact hlt w (by simp [hw])
    obtain ⟨s', hrest, hs', hlone', hplan', htold, hsame⟩ :=
      ih (Wf.delivered hs hdelivered) (hlone.delivered hdelivered) hnodup hlt₁
    refine ⟨s', ?_, hs', hlone', hplan.trans hplan', fun w hw => ?_, fun x hx => ?_⟩
    · rw [System.wakeAll, List.foldlM_cons, hstep]
      exact hrest
    · rcases List.mem_cons.mp hw with rfl | hw
      · rw [hsame _ hfresh, hthread, update_self]
      · have hne : w.1 ≠ wake.1 := fun heq => hfresh (heq ▸ List.mem_map_of_mem hw)
        rw [htold w hw, hthread, update_of_ne hne]
    · simp only [List.map_cons, List.mem_cons, not_or] at hx
      rw [hsame x hx.2, hthread, update_of_ne hx.1]

end Telling

/-! ## The section of the scheduler -/

section Killing

variable {s : Scheduler} {h : Hart} {pid : Nat}

theorem donations_requeue (s : Scheduler) (proc : Nat) :
    (s.requeueProcThreads proc).donations = s.donations := by
  unfold Scheduler.requeueProcThreads
  exact List.foldlRecOn (motive := fun t : Scheduler => t.donations = s.donations) _ _ rfl
    fun _ ht _ _ => ht

theorem donations_revokeForProc (s : Scheduler) (proc : Nat) :
    (s.revokeDonationsForProc proc).donations = s.donations.filter fun d => d.peerProc ≠ proc := by
  unfold Scheduler.revokeDonationsForProc
  refine List.foldlRecOn (motive := fun t : Scheduler =>
    t.donations = s.donations.filter fun d => d.peerProc ≠ proc) _ _ ?_ fun t ht tid _ => ?_
  · simp
  · split
    · split
      · rw [donations_requeue, ht]
      · exact ht
    · exact ht

theorem donations_revokeOf (s : Scheduler) (tids : List Nat) (skip : Option Nat) :
    (s.revokeDonationsOf tids skip).donations = s.donations.filter fun d => d.donorTid ∉ tids := by
  unfold Scheduler.revokeDonationsOf
  refine List.foldlRecOn (motive := fun t : Scheduler =>
    t.donations = s.donations.filter fun d => d.donorTid ∉ tids) _ _ ?_ fun t ht proc _ => ?_
  · simp
  · split
    · rw [donations_requeue, ht]
    · exact ht

/-- What becomes of the threads of a kill, in whatever order they are visited. -/
theorem killThreads_spec (ids : List Nat) (s : Scheduler) :
    (ids.foldl Scheduler.killThread s).ready = s.ready ∧
    (ids.foldl Scheduler.killThread s).donations = s.donations ∧
    (ids.foldl Scheduler.killThread s).len = s.len ∧
    (ids.foldl Scheduler.killThread s).current = s.current ∧
    (∀ x, x ∉ ids → (ids.foldl Scheduler.killThread s).thread x = s.thread x) ∧
    (∀ x, ((ids.foldl Scheduler.killThread s).thread x).proc = (s.thread x).proc) ∧
    ∀ x ∈ ids, (s.thread x).state ≠ .running →
      ((ids.foldl Scheduler.killThread s).thread x).state = .exited := by
  induction ids generalizing s with
  | nil => exact ⟨rfl, rfl, rfl, rfl, fun _ _ => rfl, fun _ => rfl, by simp⟩
  | cons a ids ih =>
    have hstep : (s.killThread a).ready = s.ready ∧ (s.killThread a).donations = s.donations ∧
        (s.killThread a).len = s.len ∧ (s.killThread a).current = s.current ∧
        ((s.killThread a).thread a).proc = (s.thread a).proc ∧
        ((s.thread a).state ≠ .running → ((s.killThread a).thread a).state = .exited) := by
      rw [Scheduler.killThread]
      split
      · next hrunning => exact ⟨rfl, rfl, rfl, rfl, rfl, fun hnot => absurd hrunning hnot⟩
      · simp [Scheduler.retire, Scheduler.modify]
    obtain ⟨hready, hdonations, hlen, hcurrent, hproc, hexited⟩ := hstep
    obtain ⟨hready', hdonations', hlen', hcurrent', hsame', hproc', hexited'⟩ :=
      ih (s.killThread a)
    refine ⟨hready'.trans hready, hdonations'.trans hdonations, hlen'.trans hlen,
      hcurrent'.trans hcurrent, fun x hx => ?_, fun x => ?_, fun x hx hstate => ?_⟩
    · simp only [List.mem_cons, not_or] at hx
      exact (hsame' x hx.2).trans (killThread_other s hx.1)
    · rw [List.foldl_cons, hproc']
      by_cases heq : x = a
      · rw [heq, hproc]
      · rw [killThread_other s heq]
    · rw [List.foldl_cons]
      by_cases heq : x = a
      · subst heq
        by_cases hin : x ∈ ids
        · exact hexited' x hin (by simp [hexited hstate])
        · rw [hsame' x hin, hexited hstate]
      · refine hexited' x ((List.mem_cons.mp hx).resolve_left heq) ?_
        rwa [killThread_other s heq]

/-- The threads of the process are taken out of the queues and killed, before the donations are
revoked. -/
def killed (s : Scheduler) (h : Hart) (pid : Nat) : Scheduler :=
  (s.victims h pid).foldl Scheduler.killThread
    { s with ready := fun h' l => (s.ready h' l).filter (· ∉ s.victims h pid) }

theorem killProcess_eq (s : Scheduler) (h : Hart) (pid : Nat) : (s.killProcess h pid).2.2 =
    ((killed s h pid).revokeDonationsForProc pid).revokeDonationsOf
      (s.victims h pid ++ [s.current h]) (some pid) := rfl

theorem mem_victims {id : Nat} : id ∈ s.victims h pid ↔
    id < s.len ∧ (s.thread id).proc = some pid ∧ id ≠ s.current h := by
  simp [Scheduler.victims]

theorem killed_spec (s : Scheduler) (h : Hart) (pid : Nat) :
    (∀ h' l, (killed s h pid).ready h' l = (s.ready h' l).filter (· ∉ s.victims h pid)) ∧
    (killed s h pid).donations = s.donations ∧ (killed s h pid).len = s.len ∧
    (killed s h pid).current = s.current ∧
    (∀ x, x ∉ s.victims h pid → (killed s h pid).thread x = s.thread x) ∧
    (∀ x, ((killed s h pid).thread x).proc = (s.thread x).proc) ∧
    ∀ x ∈ s.victims h pid, (s.thread x).state ≠ .running →
      ((killed s h pid).thread x).state = .exited := by
  obtain ⟨hready, hrest⟩ := killThreads_spec (s.victims h pid)
    { s with ready := fun h' l => (s.ready h' l).filter (· ∉ s.victims h pid) }
  exact ⟨fun h' l => congrFun (congrFun hready h') l, hrest⟩

/-- What is left in the queues. -/
theorem queued_killed (hs : Settled s) {h' : Hart} {l : Prio} {id : Nat}
    (hin : id ∈ (killed s h pid).ready h' l) : ((killed s h pid).thread id).proc ≠ some pid ∧
      (((killed s h pid).thread id).proc ≠ none → ((killed s h pid).thread id).state = .ready) := by
  obtain ⟨hready, -, -, -, hsame, -⟩ := killed_spec s h pid
  rw [hready] at hin
  obtain ⟨hin, hnot⟩ := List.mem_filter.mp hin
  simp only [decide_eq_true_eq] at hnot
  rw [hsame id hnot]
  have hlt : id < s.len := hs.queued_lt id (Scheduler.occ_pos hin)
  refine ⟨fun hproc => ?_, ready_of_queued hs hin⟩
  -- A queued thread of the process that is no victim would be the current thread, which runs.
  have hcurrent : id = s.current h := by
    by_contra hne
    exact hnot (mem_victims.mpr ⟨hlt, hproc, hne⟩)
  have hid : ¬ s.Idle id := by
    intro hidle
    obtain ⟨h₀, rfl⟩ := hidle
    rw [hs.idle_proc] at hproc
    cases hproc
  have hqueued := ready_of_queued hs hin (by rw [hproc]; simp)
  have hrunning := ((hs.placed id hlt hid).current h hcurrent.symm).2 not_false
  rw [hrunning] at hqueued
  cases hqueued

/-- The revocations at the end of the section change no thread and bring no thread of the process
into the queues. -/
theorem killProcess_thread (hs : Settled s) (h : Hart) (pid : Nat) :
    (s.killProcess h pid).2.2.thread = (killed s h pid).thread ∧
    ∀ h' l, ∀ id ∈ (s.killProcess h pid).2.2.ready h' l,
      ((killed s h pid).thread id).proc ≠ some pid := by
  have hsame := requeues_same (killed s h pid).thread
    (P := fun id => ((killed s h pid).thread id).proc ≠ some pid ∧
      (((killed s h pid).thread id).proc ≠ none → ((killed s h pid).thread id).state = .ready))
    fun _ hP => hP.2
  obtain ⟨hthread, hqueued⟩ := hsame.revokeDonationsOf
    (hsame.revokeDonationsForProc ⟨rfl, fun _ _ _ hin => queued_killed hs hin⟩ pid)
    (s.victims h pid ++ [s.current h]) (some pid)
  rw [killProcess_eq]
  exact ⟨hthread, fun h' l id hin => (hqueued h' l id hin).1⟩

theorem killProcess_donations : (s.killProcess h pid).2.2.donations =
    (s.donations.filter fun d => d.peerProc ≠ pid).filter
      fun d => d.donorTid ∉ s.victims h pid ++ [s.current h] := by
  obtain ⟨-, hdonations, -⟩ := killed_spec s h pid
  rw [killProcess_eq, donations_revokeOf, donations_revokeForProc, hdonations]

theorem killProcess_plan (s : Scheduler) (h : Hart) (pid : Nat) :
    (s.killProcess h pid).2.2.len = s.len ∧
    (s.killProcess h pid).2.2.current = s.current := by
  obtain ⟨-, -, hlen, hcurrent, -⟩ := killed_spec s h pid
  have hplan := (samePlan_requeues (killed s h pid)).revokeDonationsOf
    ((samePlan_requeues _).revokeDonationsForProc ⟨rfl, rfl, rfl, rfl, rfl⟩ pid)
    (s.victims h pid ++ [s.current h]) (some pid)
  rw [killProcess_eq]
  exact ⟨hplan.len.trans hlen, hplan.current.trans hcurrent⟩

end Killing

/-! ## The law of the kill -/

/-- What has to hold after a kill: `w` is the state before and `w'` the state after it. -/
structure CompleteKill (h : Hart) (pid : Nat) (w w' : System) : Prop where
  /-- No thread of the process is queued. -/
  queued : ∀ h' l, ∀ id ∈ w'.sched.ready h' l, (w'.sched.thread id).proc ≠ some pid
  /-- All threads of the process have exited, the current one apart. -/
  exited : ∀ id, id < w'.sched.len → (w'.sched.thread id).proc = some pid →
    id ≠ w'.sched.current h → (w'.sched.thread id).state = .exited
  /-- The entries that name the process are gone, and the others are as they were. -/
  sends : w'.ipc.sends = w.ipc.sends.filter fun s => s.senderPid ≠ pid ∧ s.dstPid ≠ pid
  recvs : w'.ipc.recvs = w.ipc.recvs.filter fun r => r.recverPid ≠ pid ∧ r.srcPid ≠ pid
  /-- Nobody donates to the process, and neither its threads nor the current one donate. -/
  donations : ∀ d ∈ w'.sched.donations, d.peerProc ≠ pid ∧ d.donorTid ≠ w'.sched.current h ∧
    (d.donorTid < w'.sched.len → (w'.sched.thread d.donorTid).proc ≠ some pid)
  /-- The threads of others that waited for the process have been told, once. -/
  toldSender : ∀ s ∈ w.ipc.sends, s.dstPid = pid → s.senderPid ≠ pid →
    (w.sched.thread s.senderTid).proc ≠ some pid →
    w'.sched.thread s.senderTid = told sysErrEnoent (w.sched.thread s.senderTid)
  toldRecver : ∀ r ∈ w.ipc.recvs, r.srcPid = pid → r.recverPid ≠ pid →
    (w.sched.thread r.recverTid).proc ≠ some pid →
    w'.sched.thread r.recverTid = told sysErrEnoent (w.sched.thread r.recverTid)

section Law

variable {w : System} {h : Hart} {pid : Nat}

/-- The wake-ups of a purge go to different threads that wait. -/
theorem purge_wakes (hnodup : w.ipc.waiting.Nodup) (pid : Nat) :
    ((purgeLocked w.ipc pid).1.map Prod.fst).Nodup ∧
      ∀ wake ∈ (purgeLocked w.ipc pid).1, wake.1 ∈ w.ipc.waiting ∧ wake.2 = sysErrEnoent := by
  have hmap : (purgeLocked w.ipc pid).1.map Prod.fst =
      (w.ipc.recvs.filter fun r => r.srcPid = pid ∧ r.recverPid ≠ pid).map PendingRecv.recverTid ++
        (w.ipc.sends.filter fun s => s.dstPid = pid ∧ s.senderPid ≠ pid).map
          PendingSend.senderTid := by
    simp [purgeLocked, Function.comp_def]
  have hsub : List.Sublist ((purgeLocked w.ipc pid).1.map Prod.fst) w.ipc.waiting := by
    rw [hmap]
    exact (List.filter_sublist.map _).append (List.filter_sublist.map _)
  refine ⟨hnodup.sublist hsub, fun wake hin => ⟨hsub.subset (List.mem_map_of_mem hin), ?_⟩⟩
  simp only [purgeLocked, List.mem_append, List.mem_map] at hin
  rcases hin with ⟨r, -, rfl⟩ | ⟨s, -, rfl⟩
  · rfl
  · rfl

/-- A kill in a settled state of one hart, when no thread waits twice. -/
theorem completeKill (hs : Settled w.sched) (hlone : Lone w.sched h)
    (hlt : ∀ tid ∈ w.ipc.waiting, tid < w.sched.len) (hnodup : w.ipc.waiting.Nodup) :
    ∃ w', w.killProcess h pid = some w' ∧ CompleteKill h pid w w' := by
  obtain ⟨hwakes, hwaiting⟩ := purge_wakes hnodup pid
  obtain ⟨s₁, hwoken, hs₁, hlone₁, hplan₁, htold, hother⟩ :=
    wakeAll_told (purgeLocked w.ipc pid).1 hs hlone hwakes fun wake hin =>
      hlt _ (hwaiting wake hin).1
  refine ⟨⟨(s₁.killProcess h pid).2.2, (purgeLocked w.ipc pid).2⟩, ?_, ?_⟩
  · rw [System.killProcess]
    dsimp only
    rw [hwoken]
    rfl
  obtain ⟨hthread, hqueued⟩ := killProcess_thread hs₁ h pid
  obtain ⟨hlen, hcurrent⟩ := killProcess_plan s₁ h pid
  obtain ⟨-, -, -, -, hsame, hproc, hexited⟩ := killed_spec s₁ h pid
  have hsurvivor : ∀ tid, (tid, sysErrEnoent) ∈ (purgeLocked w.ipc pid).1 →
      (w.sched.thread tid).proc ≠ some pid →
      (s₁.killProcess h pid).2.2.thread tid = told sysErrEnoent (w.sched.thread tid) := by
    intro tid hin hne
    have hnow : s₁.thread tid = told sysErrEnoent (w.sched.thread tid) := htold _ hin
    have hnot : tid ∉ s₁.victims h pid := by
      rw [mem_victims, hnow, told_proc]
      exact fun hvictim => hne hvictim.2.1
    rw [hthread, hsame tid hnot, hnow]
  refine {
    queued := fun h' l id hin => ?_
    exited := fun id hid hpid hne => ?_
    sends := ?_
    recvs := ?_
    donations := fun d hd => ?_
    toldSender := fun s hin hdst hne => hsurvivor _ ?_
    toldRecver := fun r hin hsrc hne => hsurvivor _ ?_ }
  · rw [hthread]
    exact hqueued h' l id hin
  · rw [hthread, hproc] at hpid
    rw [hthread]
    rw [hlen] at hid
    rw [hcurrent] at hne
    refine hexited id (mem_victims.mpr ⟨hid, hpid, hne⟩) fun hrunning => ?_
    rcases hlone₁ id hid hrunning with heq | ⟨h', rfl⟩
    · exact hne heq
    · rw [hs₁.idle_proc] at hpid
      cases hpid
  · simp [purgeLocked, List.filter_filter]
  · simp [purgeLocked, List.filter_filter]
  · change d ∈ (s₁.killProcess h pid).2.2.donations at hd
    rw [killProcess_donations, List.mem_filter, List.mem_filter] at hd
    obtain ⟨⟨-, hpeer⟩, hdonor⟩ := hd
    simp only [decide_eq_true_eq, List.mem_append, List.mem_singleton, not_or, mem_victims] at hpeer hdonor
    refine ⟨hpeer, ?_, fun hlt hpid => ?_⟩
    · rw [hcurrent]
      exact hdonor.2
    · rw [hthread, hproc] at hpid
      exact hdonor.1 ⟨hlen ▸ hlt, hpid, hdonor.2⟩
  · simp only [purgeLocked, List.mem_append, List.mem_map, List.mem_filter, decide_eq_true_eq]
    exact .inr ⟨s, ⟨hin, hdst, hne⟩, rfl⟩
  · simp only [purgeLocked, List.mem_append, List.mem_map, List.mem_filter, decide_eq_true_eq]
    exact .inl ⟨r, ⟨hin, hsrc, hne⟩, rfl⟩

end Law

/-! ## Runs of one hart -/

/-- The section runs on the hart, or it does not depend on the hart. -/
def SystemOp.On (h : Hart) : SystemOp → Prop
  | .sched op => op.On h
  | .send h' .. | .recv h' .. => h' = h
  | .purge _ => True

namespace System

/-- A kill meets no thread that has exited before, the caller apart. -/
def KillsLive (w : System) : SystemOp → Prop
  | .sched op => Sched.KillsLive w.sched op
  | _ => True

instance (w : System) : ∀ op, Decidable (w.KillsLive op)
  | .sched op => inferInstanceAs (Decidable (Sched.KillsLive w.sched op))
  | .send .. | .recv .. | .purge _ => inferInstanceAs (Decidable True)

/-- What holds between the sections of one hart. -/
structure OneHart (h : Hart) (w : System) : Prop where
  settled : Settled w.sched
  lone : Lone w.sched h
  waiting : ∀ tid ∈ w.ipc.waiting, tid < w.sched.len

variable {w w' : System} {b : Boot} {h : Hart} {op : SystemOp}

/-- The queues move on, and the call is made by a current thread. -/
theorem OneHart.ipcStep {op : IpcOp} (hw : OneHart h w) (hstep : w.ipcStep op = some w')
    (hcaller : ∀ tid, op.caller = some tid → tid < w.sched.len) : OneHart h w' := by
  obtain ⟨ipc, hipc, rfl⟩ := Option.map_eq_some_iff.mp hstep
  refine ⟨hw.settled, hw.lone, fun tid hin => ?_⟩
  rcases IpcState.waiting_step hipc tid hin with hold | hnew
  · exact hw.waiting tid hold
  · exact hcaller tid hnew

theorem OneHart.step (hw : OneHart h w) (hstep : w.step b op = some w') (hon : op.On h)
    (hlive : w.KillsLive op) : OneHart h w' := by
  cases op with
  | sched op =>
    obtain ⟨s, hsched, rfl⟩ := Option.map_eq_some_iff.mp hstep
    refine ⟨Wf.step hw.settled hsched hlive, hw.lone.step hw.settled hon hsched, fun tid hin => ?_⟩
    exact Nat.lt_of_lt_of_le (hw.waiting tid hin) (step_len_le hsched)
  | send h' table slot msg | recv h' table slot =>
    obtain ⟨pid, -, hipc⟩ := Option.bind_eq_some_iff.mp hstep
    refine hw.ipcStep hipc fun tid hcaller => ?_
    cases hcaller
    exact hw.settled.current_lt h'
  | purge pid => exact hw.ipcStep hstep fun tid hcaller => by cases hcaller

/-- In every state that the sections of one hart reach from boot, and in which no thread has two
entries in the queues, the kill of any process comes to its end and is complete, provided that the
earlier kills met no thread that had exited before. -/
theorem always_completeKill (b : Boot) (stackOf : Hart → Nat) (h : Hart) (ops : List SystemOp)
    (hon : ∀ op ∈ ops, op.On h)
    (hops : Machine.Each (System.step b) (System.boot b stackOf) ops KillsLive) :
    Machine.Always (System.step b) (System.boot b stackOf) ops fun w =>
      w.ipc.waiting.Nodup → ∀ pid, ∃ w', w.killProcess h pid = some w' ∧ CompleteKill h pid w w' := by
  have hboot : OneHart h (System.boot b stackOf) :=
    ⟨Wf.init b stackOf, Lone.init b stackOf h, by simp [System.boot, IpcState.waiting, IpcState.empty]⟩
  have hboth : Machine.Each (System.step b) (System.boot b stackOf) ops
      fun w op => op.On h ∧ w.KillsLive op := by
    intro first op rest w w' hsplit hrun hstep
    exact ⟨hon op (by simp [hsplit]), hops first op rest w w' hsplit hrun hstep⟩
  intro first rest w hsplit hrun hnodup pid
  have hw := Machine.always_of_each hboot
    (fun _ _ _ hw hstep hop => OneHart.step hw hstep hop.1 hop.2) hboth first rest w hsplit hrun
  exact completeKill hw.settled hw.lone hw.waiting hnodup

/-- A thread of process `0` waits for process `1`. -/
def waitOps : List SystemOp :=
  let h := clampHart 0
  [.sched (.spawnUser h 0 0 0 0 0 0 0), .sched (.spawnUser h 1 0 0 0 0 0 0), .sched (.yield h),
    .send h clientTable 0 (.replicate 5 42), .sched (.donateOnBlock 4 1),
    .sched (.blockUserFromTrap h .zero)]

/-- It is told when process `1` is killed. -/
theorem completeKill_wait : ∃ w, Machine.run (System.step ⟨0, 0, 0, 0, 0⟩)
    (System.boot ⟨0, 0, 0, 0, 0⟩ fun _ => 0) waitOps = some w ∧ w.ipc.waiting = [4] ∧
    (w.sched.thread 4).state = .blocked ∧
    ∃ w', w.killProcess (clampHart 0) 1 = some w' ∧ CompleteKill (clampHart 0) 1 w w' := by
  have hon : ∀ op ∈ waitOps, op.On (clampHart 0) := by
    simp [waitOps, SystemOp.On, SchedOp.On]
  have hmeets : Machine.meets (System.step ⟨0, 0, 0, 0, 0⟩) (fun w op => decide (w.KillsLive op))
      (System.boot ⟨0, 0, 0, 0, 0⟩ fun _ => 0) waitOps = true := by decide +kernel
  have hrun : (Machine.run (System.step ⟨0, 0, 0, 0, 0⟩) (System.boot ⟨0, 0, 0, 0, 0⟩ fun _ => 0)
      waitOps).map (fun w => (w.ipc.waiting, (w.sched.thread 4).state)) =
      some ([4], .blocked) := by decide +kernel
  obtain ⟨w, hw, hend⟩ := Option.map_eq_some_iff.mp hrun
  obtain ⟨hwaiting, hstate⟩ := Prod.mk.inj hend
  refine ⟨w, hw, hwaiting, hstate, ?_⟩
  refine always_completeKill _ _ _ waitOps hon
    (Machine.each_of_meets (fun _ _ => of_decide_eq_true) hmeets) waitOps [] w (by simp) hw ?_ 1
  rw [hwaiting]
  exact List.nodup_singleton 4

/-- Two threads of process `5`: the first exits, the second is killed with the process and exits.
The slot of the first is then free twice, and two threads of process `6` get it. -/
def sharedOps : List SystemOp :=
  let h := clampHart 0
  [.sched (.spawnUser h 5 0 0 0 0 0 0), .sched (.spawnUser h 5 0 0 0 0 0 0), .sched (.yield h),
    .sched (.exitFromTrap h), .sched (.killProcess h 5), .sched (.exitFromTrap h),
    .sched (.spawnUser h 6 0 0 0 0 0 0), .sched (.spawnUser h 6 0 0 0 0 0 0), .sched (.yield h)]

/-- The kill of process `6` by its thread leaves the thread in the queue. -/
theorem not_completeKill_shared : ∃ w w', Machine.run (System.step ⟨0, 0, 0, 0, 0⟩)
    (System.boot ⟨0, 0, 0, 0, 0⟩ fun _ => 0) sharedOps = some w ∧ w.ipc.waiting = [] ∧
    w.killProcess (clampHart 0) 6 = some w' ∧ w'.sched.ready (clampHart 0) (clampPrio 0) = [4] ∧
    (w'.sched.thread 4).proc = some 6 ∧ ¬ CompleteKill (clampHart 0) 6 w w' := by
  have hrun : (Machine.run (System.step ⟨0, 0, 0, 0, 0⟩) (System.boot ⟨0, 0, 0, 0, 0⟩ fun _ => 0)
      sharedOps >>= fun w => (w.killProcess (clampHart 0) 6).map fun w' => (w.ipc.waiting,
        w'.sched.ready (clampHart 0) (clampPrio 0), (w'.sched.thread 4).proc)) =
      some ([], [4], some 6) := by decide +kernel
  obtain ⟨w, hw, hkill⟩ := Option.bind_eq_some_iff.mp hrun
  obtain ⟨w', hw', hend⟩ := Option.map_eq_some_iff.mp hkill
  obtain ⟨hwaiting, hrest⟩ := Prod.mk.inj hend
  obtain ⟨hready, hproc⟩ := Prod.mk.inj hrest
  refine ⟨w, w', hw, hwaiting, hw', hready, hproc, fun hlaw => ?_⟩
  refine hlaw.queued (clampHart 0) (clampPrio 0) 4 ?_ hproc
  rw [hready]
  exact List.mem_singleton_self 4

end System

end Ignium.Ipc
