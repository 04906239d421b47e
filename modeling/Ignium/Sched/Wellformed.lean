import Ignium.Sched.Scheduler
import Mathlib.Algebra.BigOperators.Fin
import Mathlib.Algebra.Order.BigOperators.Group.Finset
import Mathlib.Data.Fintype.Prod

/-!
# Well-formed scheduler states

`Placed` says for one thread how its state, the ready queues, the free slots and the current
threads of the harts fit together, and `Wf` says it for all threads but the idle ones, whose state
the scheduler uses loosely. In the middle of a section a hart may be `away` from its current
thread: the thread has been queued, blocked or retired, and the next one is not yet picked. The
lemmas say what the parts of the sections do to `Wf`; `Wf.pickNext` and `Wf.setCurrent` end the
absence.
-/

namespace Ignium.Sched

namespace Scheduler

/-- How often a thread is queued, over all harts and priorities. -/
def occ (s : Scheduler) (id : Nat) : Nat := ∑ p : Hart × Prio, (s.ready p.1 p.2).count id

section Occ

variable {s s' : Scheduler} {h : Hart} {l : Prio} {id x : Nat} {q : List Nat} {f : Thread → Thread}

theorem count_le_occ : (s.ready h l).count id ≤ s.occ id :=
  Finset.single_le_sum (f := fun p : Hart × Prio => (s.ready p.1 p.2).count id)
    (fun _ _ => Nat.zero_le _) (Finset.mem_univ (h, l))

theorem occ_pos (hid : id ∈ s.ready h l) : 0 < s.occ id :=
  Nat.lt_of_lt_of_le (List.count_pos_iff.mpr hid) count_le_occ

theorem mem_ready_of_occ (hid : 0 < s.occ id) : ∃ h l, id ∈ s.ready h l := by
  by_contra hnone
  push Not at hnone
  have hzero : s.occ id = 0 :=
    Finset.sum_eq_zero fun p _ => List.count_eq_zero.mpr (hnone p.1 p.2)
  omega

theorem occ_le (hready : ∀ h l, (s'.ready h l).count id ≤ (s.ready h l).count id) :
    s'.occ id ≤ s.occ id :=
  Finset.sum_le_sum fun p _ => hready p.1 p.2

theorem setReady_self : (s.setReady h l q).ready h l = q := by simp [setReady]

theorem setReady_of_ne {h' : Hart} {l' : Prio} (hne : (h', l') ≠ (h, l)) :
    (s.setReady h l q).ready h' l' = s.ready h' l' := by
  by_cases hh : h' = h
  · subst hh
    have hl : l' ≠ l := fun heq => hne (by rw [heq])
    simp [setReady, hl]
  · simp [setReady, hh]

/-- Replacing a queue changes the count by what the queue counts. -/
theorem occ_setReady :
    (s.setReady h l q).occ id + (s.ready h l).count id = s.occ id + q.count id := by
  have hnew : (s.setReady h l q).occ id = q.count id +
      ∑ p ∈ {(h, l)}ᶜ, ((s.setReady h l q).ready p.1 p.2).count id := by
    rw [occ, Fintype.sum_eq_add_sum_compl (h, l), setReady_self]
  have hold : s.occ id = (s.ready h l).count id +
      ∑ p ∈ {(h, l)}ᶜ, (s.ready p.1 p.2).count id :=
    Fintype.sum_eq_add_sum_compl (h, l) _
  have hrest : ∑ p ∈ {(h, l)}ᶜ, ((s.setReady h l q).ready p.1 p.2).count id =
      ∑ p ∈ {(h, l)}ᶜ, (s.ready p.1 p.2).count id := by
    refine Finset.sum_congr rfl fun p hp => ?_
    rw [setReady_of_ne (by simpa using hp)]
  omega

theorem count_snoc {q : List Nat} {x y : Nat} :
    (q ++ [y]).count x = q.count x + if y = x then 1 else 0 := by
  rw [List.count_append, List.count_singleton]
  simp

theorem occ_enqueue (x : Nat) :
    (s.enqueue id).occ x = s.occ x + if id = x then 1 else 0 := by
  have hset : (s.setReady (s.thread id).hart (s.effPrio id)
      (s.ready (s.thread id).hart (s.effPrio id) ++ [id])).occ x +
      (s.ready (s.thread id).hart (s.effPrio id)).count x =
      s.occ x + (s.ready (s.thread id).hart (s.effPrio id) ++ [id]).count x := occ_setReady
  rw [count_snoc] at hset
  show (s.setReady _ _ _).occ x = _
  omega

theorem mem_enqueue (hx : x ∈ (s.enqueue id).ready h l) : x = id ∨ x ∈ s.ready h l := by
  change x ∈ (s.setReady _ _ _).ready h l at hx
  by_cases hp : (h, l) = ((s.thread id).hart, s.effPrio id)
  · obtain ⟨rfl, rfl⟩ := Prod.mk.inj hp
    rw [setReady_self, List.mem_append, List.mem_singleton] at hx
    exact hx.symm
  · rw [setReady_of_ne hp] at hx
    exact .inr hx

theorem enqueue_self (s : Scheduler) (id : Nat) :
    (s.enqueue id).thread id = { s.thread id with state := .ready } := Function.update_self _ _ _

theorem enqueue_of_ne (s : Scheduler) (hne : x ≠ id) : (s.enqueue id).thread x = s.thread x :=
  Function.update_of_ne hne _ _

/-- Queuing a ready thread changes no thread. -/
theorem enqueue_of_ready (hready : (s.thread id).state = .ready) :
    (s.enqueue id).thread = s.thread := by
  have hsame : { s.thread id with state := .ready } = s.thread id := by rw [← hready]
  change Function.update s.thread id { s.thread id with state := .ready } = s.thread
  rw [hsame, Function.update_eq_self]

theorem modify_self : (s.modify id f).thread id = f (s.thread id) := Function.update_self _ _ _

theorem modify_of_ne (hne : x ≠ id) : (s.modify id f).thread x = s.thread x :=
  Function.update_of_ne hne _ _

end Occ

end Scheduler

open Scheduler

/-- How a thread that is not idle fits in. -/
structure Placed (s : Scheduler) (away : Hart → Prop) (id : Nat) : Prop where
  /-- It is queued at most once. -/
  once : s.occ id ≤ 1
  /-- If it is queued, it is ready, and the queue is one of its hart. -/
  queued : ∀ h l, id ∈ s.ready h l → (s.thread id).state = .ready ∧ (s.thread id).hart = h
  /-- Its slot is free exactly if it has exited. -/
  free : id ∈ s.freeSlots ↔ (s.thread id).state = .exited
  /-- A hart runs it only if it belongs there, and then it is running. -/
  current : ∀ h, s.current h = id → (s.thread id).hart = h ∧
    (¬ away h → (s.thread id).state = .running)

/-- A state of the scheduler between two sections, or within one of the harts that are `away`. -/
structure Wf (s : Scheduler) (away : Hart → Prop) : Prop where
  placed : ∀ id, id < s.len → ¬ s.Idle id → Placed s away id
  idle_lt : ∀ h, s.idle h < s.len
  current_lt : ∀ h, s.current h < s.len
  queued_lt : ∀ id, 0 < s.occ id → id < s.len
  free_lt : ∀ id ∈ s.freeSlots, id < s.len
  free_nodup : s.freeSlots.Nodup
  free_idle : ∀ h, s.idle h ∉ s.freeSlots
  idle_proc : ∀ h, (s.thread (s.idle h)).proc = none
  idle_kill : ∀ h, s.killRequest (s.idle h) = false

section Changes

variable {s s' : Scheduler} {away away' : Hart → Prop} {h : Hart} {l : Prio} {id : Nat}
  {f : Thread → Thread}

namespace Wf

section

variable (hs : Wf s away)
include hs

/-- What a change has to show for the threads that it moves. The others keep what `Placed` looks
at, except that they may leave the queues. -/
theorem update (moved : Nat → Prop)
    (hlen : s'.len = s.len) (hidle : s'.idle = s.idle) (hcurrent : s'.current = s.current)
    (hframe : ∀ x, ¬ moved x → (s'.thread x).state = (s.thread x).state ∧
      (s'.thread x).hart = (s.thread x).hart ∧
      (s.Idle x → (s'.thread x).proc = (s.thread x).proc))
    (hcount : ∀ x, ¬ moved x → ∀ h l, (s'.ready h l).count x ≤ (s.ready h l).count x)
    (hfree : ∀ x, ¬ moved x → (x ∈ s'.freeSlots ↔ x ∈ s.freeSlots))
    (hmoved : ∀ x, moved x → x < s.len ∧ (¬ s.Idle x → Placed s' away x) ∧
      (s.Idle x → x ∉ s'.freeSlots ∧ (s'.thread x).proc = none))
    (hnodup : s'.freeSlots.Nodup) (hkill : ∀ h, s'.killRequest (s.idle h) = false) :
    Wf s' away := by
  have hmem : ∀ x, ¬ moved x → ∀ h l, x ∈ s'.ready h l → x ∈ s.ready h l := by
    intro x hx h l hin
    have hle := hcount x hx h l
    have hpos := List.count_pos_iff.mpr hin
    exact List.count_pos_iff.mp (by omega)
  refine {
    placed := fun x hlt hx => ?_
    idle_lt := fun h => by rw [hidle, hlen]; exact hs.idle_lt h
    current_lt := fun h => by rw [hcurrent, hlen]; exact hs.current_lt h
    queued_lt := fun x hx => ?_
    free_lt := fun x hx => ?_
    free_nodup := hnodup
    free_idle := fun h => ?_
    idle_proc := fun h => ?_
    idle_kill := fun h => by rw [hidle]; exact hkill h }
  · rw [Scheduler.Idle, hidle] at hx
    rw [hlen] at hlt
    by_cases hm : moved x
    · exact (hmoved x hm).2.1 hx
    · obtain ⟨hstate, hhart, -⟩ := hframe x hm
      have hp := hs.placed x hlt hx
      refine ⟨(occ_le (hcount x hm)).trans hp.once, fun h l hin => ?_, ?_, fun h heq => ?_⟩
      · rw [hstate, hhart]
        exact hp.queued h l (hmem x hm h l hin)
      · rw [hfree x hm, hstate]
        exact hp.free
      · rw [hstate, hhart]
        exact hp.current h (hcurrent ▸ heq)
  · by_cases hm : moved x
    · rw [hlen]
      exact (hmoved x hm).1
    · rw [hlen]
      exact hs.queued_lt x (Nat.lt_of_lt_of_le hx (occ_le (hcount x hm)))
  · rw [hlen]
    by_cases hm : moved x
    · exact (hmoved x hm).1
    · exact hs.free_lt x ((hfree x hm).mp hx)
  · rw [hidle]
    by_cases hm : moved (s.idle h)
    · exact ((hmoved _ hm).2.2 ⟨h, rfl⟩).1
    · rw [hfree _ hm]
      exact hs.free_idle h
  · rw [hidle]
    by_cases hm : moved (s.idle h)
    · exact ((hmoved _ hm).2.2 ⟨h, rfl⟩).2
    · rw [(hframe _ hm).2.2 ⟨h, rfl⟩]
      exact hs.idle_proc h

/-- A hart leaves its current thread. -/
theorem leave (hle : ∀ h, away h → away' h) : Wf s away' :=
  { hs with
    placed := fun id hlt hid =>
      let hp := hs.placed id hlt hid
      { hp with current := fun h heq => ⟨(hp.current h heq).1, fun hnot =>
          (hp.current h heq).2 fun haway => hnot (hle h haway)⟩ } }

/-- A change that nothing in `Wf` looks at, except that the queues may get shorter. -/
theorem thin (hlen : s'.len = s.len) (hidle : s'.idle = s.idle)
    (hcurrent : s'.current = s.current) (hthread : s'.thread = s.thread)
    (hcount : ∀ x h l, (s'.ready h l).count x ≤ (s.ready h l).count x)
    (hfree : s'.freeSlots = s.freeSlots)
    (hkill : ∀ h, s'.killRequest (s.idle h) = s.killRequest (s.idle h)) : Wf s' away :=
  hs.update (fun _ => False) hlen hidle hcurrent (fun x _ => by rw [hthread]; exact ⟨rfl, rfl, fun _ => rfl⟩)
    (fun x _ => hcount x) (fun x _ => by rw [hfree]) (fun x hx => hx.elim)
    (hfree ▸ hs.free_nodup) fun h => by rw [hkill]; exact hs.idle_kill h

theorem setReady {q : List Nat} (hq : ∀ x, q.count x ≤ (s.ready h l).count x) :
    Wf (s.setReady h l q) away := by
  refine hs.thin rfl rfl rfl rfl (fun x h' l' => ?_) rfl fun _ => rfl
  by_cases hp : (h', l') = (h, l)
  · obtain ⟨rfl, rfl⟩ := Prod.mk.inj hp
    rw [setReady_self]
    exact hq x
  · rw [setReady_of_ne hp]

theorem resetTicks : Wf (s.resetTicks h) away :=
  hs.thin rfl rfl rfl rfl (fun _ _ _ => le_rfl) rfl fun _ => rfl

/-- A change of one thread. -/
theorem modify (hlt : id < s.len) (hproc : s.Idle id → (f (s.thread id)).proc = none)
    (hplaced : ¬ s.Idle id → Placed (s.modify id f) away id) : Wf (s.modify id f) away := by
  refine hs.update (· = id) rfl rfl rfl (fun x hx => ?_) (fun _ _ _ _ => le_rfl)
    (fun _ _ => Iff.rfl) (fun x hx => ?_) hs.free_nodup hs.idle_kill
  · rw [modify_of_ne hx]
    exact ⟨rfl, rfl, fun _ => rfl⟩
  · subst hx
    refine ⟨hlt, hplaced, fun hidle => ⟨?_, ?_⟩⟩
    · obtain ⟨h, rfl⟩ := hidle
      exact hs.free_idle h
    · rw [modify_self]
      exact hproc hidle

/-- A change of what `Wf` does not look at in a thread. -/
theorem modify_same (hstate : (f (s.thread id)).state = (s.thread id).state)
    (hhart : (f (s.thread id)).hart = (s.thread id).hart)
    (hproc : s.Idle id → (f (s.thread id)).proc = (s.thread id).proc) :
    Wf (s.modify id f) away := by
  refine hs.update (fun _ => False) rfl rfl rfl (fun x _ => ?_) (fun _ _ _ _ => le_rfl)
    (fun _ _ => Iff.rfl) (fun x hx => hx.elim) hs.free_nodup hs.idle_kill
  by_cases hx : x = id
  · subst hx
    rw [modify_self]
    exact ⟨hstate, hhart, hproc⟩
  · rw [modify_of_ne hx]
    exact ⟨rfl, rfl, fun _ => rfl⟩

end

end Wf

theorem Placed.not_queued (hp : Placed s away id) (hstate : (s.thread id).state ≠ .ready) :
    s.occ id = 0 := by
  by_contra hne
  obtain ⟨h, l, hin⟩ := mem_ready_of_occ (Nat.pos_of_ne_zero hne)
  exact hstate (hp.queued h l hin).1

/-- A thread that is in no queue and in no free slot, and that no hart is at. -/
structure Loose (s : Scheduler) (away : Hart → Prop) (id : Nat) : Prop where
  occ : s.occ id = 0
  free : id ∉ s.freeSlots
  current : ∀ h, s.current h = id → away h

theorem Placed.loose (hp : Placed s away id) (hready : (s.thread id).state ≠ .ready)
    (hexited : (s.thread id).state ≠ .exited)
    (hcurrent : ∀ h, s.current h = id → (s.thread id).state = .running → away h) :
    Loose s away id := by
  refine ⟨hp.not_queued hready, fun hin => hexited (hp.free.mp hin), fun h heq => ?_⟩
  by_contra haway
  exact haway (hcurrent h heq ((hp.current h heq).2 haway))

/-- The current thread of a hart that has left it is loose. -/
theorem Wf.loose_current (hs : Wf s fun _ => False) (hid : ¬ s.Idle (s.current h)) :
    Loose s (· = h) (s.current h) := by
  have hp := hs.placed _ (hs.current_lt h) hid
  obtain ⟨hhart, hstate⟩ := hp.current h rfl
  have hrunning := hstate not_false
  refine ⟨hp.not_queued (by simp [hrunning]), fun hin => ?_, fun h' heq => ?_⟩
  · simpa [hrunning] using hp.free.mp hin
  · exact (hp.current h' heq).1.symm.trans hhart

namespace Wf

/-- A loose thread changes its state. For an idle thread nothing is asked. -/
theorem setState (hs : Wf s away) (hlt : id < s.len) (hloose : ¬ s.Idle id → Loose s away id)
    (hexited : (f (s.thread id)).state ≠ .exited)
    (hhart : (f (s.thread id)).hart = (s.thread id).hart)
    (hproc : (f (s.thread id)).proc = (s.thread id).proc) : Wf (s.modify id f) away := by
  refine hs.modify hlt (fun hidle => ?_) fun hid => ?_
  · obtain ⟨h, rfl⟩ := hidle
    rw [hproc]
    exact hs.idle_proc h
  · have hp := hs.placed id hlt hid
    refine ⟨hp.once, fun h l hin => ?_, ?_, fun h heq => ?_⟩
    · have hpos : 0 < s.occ id := occ_pos hin
      rw [(hloose hid).occ] at hpos
      exact absurd hpos (Nat.lt_irrefl 0)
    · rw [modify_self]
      exact iff_of_false (hloose hid).free hexited
    · rw [modify_self, hhart]
      exact ⟨(hp.current h heq).1, fun hnot => absurd ((hloose hid).current h heq) hnot⟩

/-- A loose thread is queued. For an idle thread nothing is asked. -/
theorem enqueue (hs : Wf s away) (hlt : id < s.len) (hloose : ¬ s.Idle id → Loose s away id) :
    Wf (s.enqueue id) away := by
  have hstate : (s.enqueue id).thread id = { s.thread id with state := .ready } :=
    Function.update_self _ _ _
  refine hs.update (· = id) rfl rfl rfl (fun x hx => ?_) (fun x hx h l => ?_)
    (fun _ _ => Iff.rfl) (fun x hx => ?_) hs.free_nodup hs.idle_kill
  · rw [Scheduler.enqueue, modify_of_ne hx]
    exact ⟨rfl, rfl, fun _ => rfl⟩
  · show ((s.setReady _ _ _).ready h l).count x ≤ _
    by_cases hp : (h, l) = ((s.thread id).hart, s.effPrio id)
    · obtain ⟨rfl, rfl⟩ := Prod.mk.inj hp
      rw [setReady_self, count_snoc, if_neg (Ne.symm hx)]
      exact le_rfl
    · rw [setReady_of_ne hp]
  · subst hx
    refine ⟨hlt, fun hid => ?_, fun hidle => ?_⟩
    · obtain ⟨hzero, hfree, hcurrent⟩ := hloose hid
      have hp := hs.placed x hlt hid
      refine ⟨by rw [occ_enqueue, hzero, if_pos rfl], fun h l hin => ?_, ?_, fun h heq => ?_⟩
      · rw [hstate]
        refine ⟨rfl, ?_⟩
        by_contra hne
        have hin' : x ∈ (s.setReady _ _ _).ready h l := hin
        rw [setReady_of_ne (fun heq => hne (congrArg Prod.fst heq).symm)] at hin'
        have hpos := occ_pos hin'
        omega
      · rw [hstate]
        exact iff_of_false hfree (by simp)
      · rw [hstate]
        exact ⟨(hp.current h heq).1, fun hnot => absurd (hcurrent h heq) hnot⟩
    · obtain ⟨h, rfl⟩ := hidle
      rw [hstate]
      exact ⟨hs.free_idle h, hs.idle_proc h⟩

/-- A loose thread exits, and its slot becomes free. -/
theorem retire (hs : Wf s away) (hlt : id < s.len) (hid : ¬ s.Idle id)
    (hloose : Loose s away id) (hhart : (f (s.thread id)).hart = (s.thread id).hart) :
    Wf (s.retire id f) away := by
  have hthread : (s.retire id f).thread id =
      { f (s.thread id) with state := .exited, stack := none } := Function.update_self _ _ _
  have hp := hs.placed id hlt hid
  refine hs.update (· = id) rfl rfl rfl (fun x hx => ?_) (fun _ _ _ _ => le_rfl)
    (fun x hx => ?_) (fun x hx => ?_) ?_ hs.idle_kill
  · have hsame : (s.retire id f).thread x = s.thread x := Function.update_of_ne hx _ _
    rw [hsame]
    exact ⟨rfl, rfl, fun _ => rfl⟩
  · simp [Scheduler.retire, hx]
  · subst hx
    refine ⟨hlt, fun _ => ⟨hp.once, fun h l hin => ?_, ?_, fun h heq => ?_⟩,
      fun hidle => absurd hidle hid⟩
    · have hpos : 0 < s.occ x := occ_pos hin
      rw [hloose.occ] at hpos
      exact absurd hpos (Nat.lt_irrefl 0)
    · rw [hthread]
      exact iff_of_true (by simp [Scheduler.retire]) rfl
    · rw [hthread]
      exact ⟨hhart.trans (hp.current h heq).1, fun hnot => absurd (hloose.current h heq) hnot⟩
  · show (s.freeSlots ++ [id]).Nodup
    rw [List.nodup_append]
    refine ⟨hs.free_nodup, by simp, fun a ha b hb heq => ?_⟩
    rw [List.mem_singleton.mp hb] at heq
    exact hloose.free (heq ▸ ha)

/-- Taking a thread out of its queue. -/
theorem removeFromReady (hs : Wf s away) : Wf (s.removeFromReady id) away := by
  rw [Scheduler.removeFromReady]
  split
  · exact hs.setReady fun x => List.erase_sublist.count_le x
  · exact hs

end Wf

theorem Placed.occ_removeFromReady (hp : Placed s away id) :
    (s.removeFromReady id).occ id = 0 := by
  rw [Scheduler.removeFromReady]
  split
  · next l hfind =>
    have hin : id ∈ s.ready (s.thread id).hart l := by simpa using List.find?_some hfind
    have hset : (s.setReady (s.thread id).hart l ((s.ready (s.thread id).hart l).erase id)).occ
        id + (s.ready (s.thread id).hart l).count id =
        s.occ id + ((s.ready (s.thread id).hart l).erase id).count id := occ_setReady
    have hpos := List.count_pos_iff.mpr hin
    have honce := hp.once
    rw [List.count_erase_self] at hset
    omega
  · next hnone =>
    by_contra hne
    obtain ⟨h, l, hin⟩ := mem_ready_of_occ (Nat.pos_of_ne_zero hne)
    rw [List.find?_eq_none] at hnone
    have hnot := hnone l (List.mem_finRange l)
    rw [(hp.queued h l hin).2] at hnot
    simp [hin] at hnot

/-! ## Requeuing -/

/-- A property that survives when donations change and when a process is queued anew. The
revocations do nothing else. -/
structure Requeues (P : Scheduler → Prop) : Prop where
  drop : ∀ s donations, P s → P { s with donations := donations }
  requeue : ∀ s proc, P s → P (s.requeueProcThreads proc)

namespace Requeues

variable {P : Scheduler → Prop}

theorem revokeDonations (hP : Requeues P) (hs : P s) (tid : Nat) : P (s.revokeDonations tid) :=
  List.foldlRecOn _ _ (hP.drop s _ hs) fun _ h proc _ => hP.requeue _ proc h

theorem revokeDonationsOf (hP : Requeues P) (hs : P s) (tids : List Nat) (skip : Option Nat) :
    P (s.revokeDonationsOf tids skip) := by
  refine List.foldlRecOn _ _ (hP.drop s _ hs) fun _ h proc _ => ?_
  split
  · exact hP.requeue _ proc h
  · exact h

theorem revokeDonationsForProc (hP : Requeues P) (hs : P s) (proc : Nat) :
    P (s.revokeDonationsForProc proc) := by
  refine List.foldlRecOn _ _ (hP.drop s _ hs) fun _ h tid _ => ?_
  split
  · split
    · exact hP.requeue _ _ h
    · exact h
  · exact h

end Requeues

theorem count_queues : s.queues.count id = s.occ id := by
  simp only [Scheduler.queues, List.count_flatMap, Scheduler.occ, Fintype.sum_prod_type,
    Fin.sum_univ_def, Function.comp_def]

namespace Wf

/-- Different loose threads are queued one after the other. -/
theorem enqueue_all {ids : List Nat} (hs : Wf s away) (hnodup : ids.Nodup)
    (hids : ∀ x ∈ ids, x < s.len ∧ Loose s away x) : Wf (ids.foldl Scheduler.enqueue s) away := by
  induction ids generalizing s with
  | nil => exact hs
  | cons a ids ih =>
    obtain ⟨ha, hnodup⟩ := List.nodup_cons.mp hnodup
    obtain ⟨hlt, hloose⟩ := hids a (by simp)
    refine ih (hs.enqueue hlt fun _ => hloose) hnodup fun x hx => ?_
    obtain ⟨hltx, hx0, hfree, hcurrent⟩ := hids x (by simp [hx])
    have hne : a ≠ x := fun heq => ha (heq ▸ hx)
    exact ⟨hltx, by rw [occ_enqueue, hx0, if_neg hne], hfree, hcurrent⟩

/-- Queuing the threads of a process anew. -/
theorem requeueProcThreads (hs : Wf s away) (proc : Nat) :
    Wf (s.requeueProcThreads proc) away := by
  have hmem : ∀ x ∈ s.queues.filter fun id => (s.thread id).proc = some proc,
      x < s.len ∧ Placed s away x ∧ ∃ h l, x ∈ s.ready h l := by
    intro x hx
    obtain ⟨hin, hproc⟩ := List.mem_filter.mp hx
    have hpos : 0 < s.occ x := count_queues (s := s) ▸ List.count_pos_iff.mpr hin
    have hid : ¬ s.Idle x := by
      intro hidle
      obtain ⟨h, rfl⟩ := hidle
      simp [hs.idle_proc h] at hproc
    exact ⟨hs.queued_lt x hpos, hs.placed x (hs.queued_lt x hpos) hid, mem_ready_of_occ hpos⟩
  have hrest : Wf { s with ready := fun h l => (s.ready h l).filter fun id =>
      (s.thread id).proc ≠ some proc } away :=
    hs.thin rfl rfl rfl rfl (fun x h l => List.filter_sublist.count_le x) rfl fun _ => rfl
  refine hrest.enqueue_all ?_ fun x hx => ?_
  · refine List.Nodup.sublist (List.take_sublist _ _) (List.nodup_iff_count_le_one.mpr fun x => ?_)
    by_cases hx : x ∈ s.queues.filter fun id => (s.thread id).proc = some proc
    · have hle : (s.queues.filter fun id => (s.thread id).proc = some proc).count x ≤ s.occ x :=
        count_queues (s := s) ▸ List.filter_sublist.count_le x
      exact hle.trans (hmem x hx).2.1.once
    · rw [List.count_eq_zero.mpr hx]
      exact Nat.zero_le 1
  · have hx' := List.mem_of_mem_take hx
    obtain ⟨hlt, hp, h, l, hin⟩ := hmem x hx'
    have hready := (hp.queued h l hin).1
    refine ⟨hlt, ?_, fun hfree => ?_, fun h heq => ?_⟩
    · by_contra hne
      obtain ⟨h, l, hin⟩ := mem_ready_of_occ (Nat.pos_of_ne_zero hne)
      have hproc := (List.mem_filter.mp hx').2
      have hnot := (List.mem_filter.mp hin).2
      simp only [decide_eq_true_eq] at hproc hnot
      exact hnot hproc
    · simpa [hready] using hp.free.mp hfree
    · by_contra haway
      simpa [hready] using (hp.current h heq).2 haway

theorem requeues : Requeues fun s => Wf s away where
  drop _ _ hs := hs.thin rfl rfl rfl rfl (fun _ _ _ => le_rfl) rfl fun _ => rfl
  requeue _ proc hs := hs.requeueProcThreads proc

end Wf

/-! ## Picking the next thread -/

/-- A round over a queue only loses threads, and the thread it finds is ready and gone from the
queue. -/
theorem scan_spec (needCtx : Bool) (n : Nat) (q : List Nat) :
    (∀ x, (s.scan needCtx n q).2.count x + (if (s.scan needCtx n q).1 = some x then 1 else 0) ≤
      q.count x) ∧
    ∀ x, (s.scan needCtx n q).1 = some x → (s.thread x).state = .ready := by
  induction n generalizing q with
  | zero => simp [scan]
  | succ n ih =>
    cases q with
    | nil => simp [scan]
    | cons y q =>
      rw [scan]
      split
      · refine ⟨fun x => ((ih q).1 x).trans ?_, (ih q).2⟩
        rw [List.count_cons]
        exact Nat.le_add_right _ _
      · next hready =>
        split
        · refine ⟨fun x => ?_, fun x hx => ?_⟩
          · simp [List.count_cons]
          · cases hx
            exact not_not.mp hready
        · refine ⟨fun x => ((ih (q ++ [y])).1 x).trans ?_, (ih (q ++ [y])).2⟩
          rw [count_snoc, List.count_cons]
          simp

/-- A thread that may become current on a hart. -/
def Runnable (s : Scheduler) (h : Hart) (id : Nat) : Prop :=
  id < s.len ∧ (¬ s.Idle id → (s.thread id).hart = h ∧ (s.thread id).state = .running)

/-- The parts of the state that picking a thread does not touch. -/
structure SamePlan (s s' : Scheduler) : Prop where
  len : s'.len = s.len
  idle : s'.idle = s.idle
  current : s'.current = s.current
  freeSlots : s'.freeSlots = s.freeSlots
  killRequest : s'.killRequest = s.killRequest

theorem SamePlan.trans {s₁ s₂ s₃ : Scheduler} (h : SamePlan s₁ s₂) (h' : SamePlan s₂ s₃) :
    SamePlan s₁ s₃ :=
  ⟨h'.len.trans h.len, h'.idle.trans h.idle, h'.current.trans h.current,
    h'.freeSlots.trans h.freeSlots, h'.killRequest.trans h.killRequest⟩

theorem samePlan_requeues (s : Scheduler) : Requeues (SamePlan s) where
  drop _ _ hs := ⟨hs.len, hs.idle, hs.current, hs.freeSlots, hs.killRequest⟩
  requeue t proc ht := by
    unfold Scheduler.requeueProcThreads
    exact List.foldlRecOn (motive := SamePlan s) _ _
      ⟨ht.len, ht.idle, ht.current, ht.freeSlots, ht.killRequest⟩
      fun u hu _ _ => ⟨hu.len, hu.idle, hu.current, hu.freeSlots, hu.killRequest⟩

theorem pickLevels_plan (s : Scheduler) (h : Hart) (needCtx : Bool) (levels : List Prio) :
    SamePlan s (Scheduler.pickLevels h needCtx levels s).2 := by
  induction levels generalizing s with
  | nil => exact ⟨rfl, rfl, rfl, rfl, rfl⟩
  | cons l levels ih =>
    rw [Scheduler.pickLevels]
    rcases s.scan needCtx (s.ready h l).length (s.ready h l) with ⟨_ | id, q⟩
    · obtain ⟨hlen, hidle, hcurrent, hfree, hkill⟩ := ih (s.setReady h l q)
      exact ⟨hlen, hidle, hcurrent, hfree, hkill⟩
    · exact ⟨rfl, rfl, rfl, rfl, rfl⟩

theorem pickNext_plan (s : Scheduler) (h : Hart) (needCtx : Bool) :
    SamePlan s (s.pickNext h needCtx).2 := by
  have hplan := pickLevels_plan s h needCtx (List.finRange prioLevels)
  rw [Scheduler.pickNext]
  rcases hpick : Scheduler.pickLevels h needCtx (List.finRange prioLevels) s with ⟨_ | id, s'⟩
  · rwa [hpick] at hplan
  · rwa [hpick] at hplan

/-- The scheduler before the thread that goes on is picked. -/
def interrupted (s : Scheduler) (frame : TrapFrame) (h : Hart) : Scheduler :=
  (s.modify (s.current h) fun t =>
    { t with frame := frame, frameValid := true, ctxValid := false, state := .ready }).enqueue
      (s.current h)

theorem interrupted_self (s : Scheduler) (frame : TrapFrame) (h : Hart) :
    (interrupted s frame h).thread (s.current h) = { s.thread (s.current h) with
      frame := frame, frameValid := true, ctxValid := false, state := .ready } := by
  rw [interrupted, enqueue_self, modify_self]

theorem interrupted_of_ne (frame : TrapFrame) (hne : id ≠ s.current h) :
    (interrupted s frame h).thread id = s.thread id := by
  rw [interrupted, enqueue_of_ne _ hne, modify_of_ne hne]

/-- What holds after a switch at the end of a time slice, whether or not another thread was found. -/
theorem preempt_rule {P : Scheduler → Prop} {b : Boot} {frame : TrapFrame} (hreset : P (s.resetTicks h))
    (hstay : ∀ s₁, (interrupted (s.resetTicks h) frame h).pickNext h false = (s.current h, s₁) →
      P ((s₁.removeFromReady (s.current h)).modify (s.current h) fun t =>
        { t with state := .running, frameValid := true, ctxValid := false }))
    (hnext : ∀ next s₁, (interrupted (s.resetTicks h) frame h).pickNext h false = (next, s₁) →
      P (s₁.resumeFrame b h next)) : P (s.preempt b frame h).2 := by
  rcases hpick : (interrupted (s.resetTicks h) frame h).pickNext h false with ⟨next, s₁⟩
  have hstay' := hstay s₁
  have hnext' := hnext next s₁ hpick
  rw [hpick] at hstay'
  unfold interrupted at hpick
  unfold Scheduler.preempt
  dsimp only
  rw [hpick]
  split
  · dsimp only
    split
    · next heq => exact hstay' (congrArg (·, s₁) heq)
    · exact hnext'
  · exact hreset

/-- What holds after a tick, which may end with a switch. -/
theorem onTick_rule {P : Scheduler → Prop} {b : Boot} {frame : TrapFrame} (hticked : P { s with
      ticksRun := Function.update s.ticksRun h ((s.ticksRun h + 1) % 2 ^ 64) })
    (hpreempt : ∀ {s}, P s → P (s.preempt b frame h).2) : P (s.onTick b frame h).2 := by
  unfold Scheduler.onTick
  dsimp only
  split
  · split
    · exact hpreempt hticked
    · exact hticked
  · exact hpreempt hticked

namespace Wf

/-- A queued thread is taken out of its queue and runs. -/
theorem run {q : List Nat} (hs : Wf s away) (hready : (s.thread id).state = .ready)
    (hq : ∀ x, q.count x + (if some id = some x then 1 else 0) ≤ (s.ready h l).count x) :
    Wf ((s.setReady h l q).modify id fun t => { t with state := .running }) away ∧
      Runnable ((s.setReady h l q).modify id fun t => { t with state := .running }) h id := by
  have hcount := hq id
  rw [if_pos rfl] at hcount
  have hin : id ∈ s.ready h l := List.count_pos_iff.mp (by omega)
  have hlt : id < s.len := hs.queued_lt id (occ_pos hin)
  have hset : Wf (s.setReady h l q) away := hs.setReady fun x => by have := hq x; omega
  have hloose : ¬ s.Idle id → Loose (s.setReady h l q) away id := by
    intro hid
    have hp := hs.placed id hlt hid
    have hocc : (s.setReady h l q).occ id + (s.ready h l).count id = s.occ id + q.count id :=
      occ_setReady
    have honce := hp.once
    refine ⟨by omega, fun hfree => ?_, fun h' heq => ?_⟩
    · simpa [hready] using hp.free.mp hfree
    · by_contra haway
      simpa [hready] using (hp.current h' heq).2 haway
  refine ⟨hset.setState hlt hloose (by simp) rfl rfl, hlt, fun hid => ?_⟩
  rw [modify_self]
  exact ⟨((hs.placed id hlt hid).queued h l hin).2, rfl⟩

theorem pickLevels (hs : Wf s away) (h : Hart) (needCtx : Bool) (levels : List Prio) :
    Wf (Scheduler.pickLevels h needCtx levels s).2 away ∧
    ∀ x, (Scheduler.pickLevels h needCtx levels s).1 = some x →
      Runnable (Scheduler.pickLevels h needCtx levels s).2 h x := by
  induction levels generalizing s with
  | nil => exact ⟨hs, fun x hx => by cases hx⟩
  | cons l levels ih =>
    obtain ⟨hcount, hready⟩ :=
      scan_spec (s := s) needCtx (s.ready h l).length (s.ready h l)
    rw [Scheduler.pickLevels]
    rcases hscan : s.scan needCtx (s.ready h l).length (s.ready h l) with ⟨_ | id, q⟩
    · rw [hscan] at hcount
      have hset : Wf (s.setReady h l q) away := hs.setReady fun x => by
        have := hcount x
        simpa using this
      exact ih hset
    · rw [hscan] at hcount hready
      obtain ⟨hwf, hrun⟩ := hs.run (hready id rfl) hcount
      refine ⟨hwf, fun x hx => ?_⟩
      cases hx
      exact hrun

/-- The thread that is picked may become current. -/
theorem pickNext (hs : Wf s away) (h : Hart) (needCtx : Bool) :
    Wf (s.pickNext h needCtx).2 away ∧
      Runnable (s.pickNext h needCtx).2 h (s.pickNext h needCtx).1 := by
  obtain ⟨hwf, hrun⟩ := hs.pickLevels h needCtx (List.finRange prioLevels)
  rw [Scheduler.pickNext]
  rcases hpick : Scheduler.pickLevels h needCtx (List.finRange prioLevels) s with ⟨_ | id, s'⟩
  · rw [hpick] at hwf
    refine ⟨hwf, ?_⟩
    show Runnable s' h (if (s'.thread (s'.current h)).state ≠ .running then _ else _)
    split
    · exact ⟨hwf.idle_lt h, fun hnot => absurd ⟨h, rfl⟩ hnot⟩
    · next hrunning =>
      refine ⟨hwf.current_lt h, fun hid => ?_⟩
      exact ⟨((hwf.placed _ (hwf.current_lt h) hid).current h rfl).1, not_not.mp hrunning⟩
  · rw [hpick] at hwf hrun
    exact ⟨hwf, hrun id rfl⟩

/-- A hart takes up a thread. -/
theorem setCurrent (hs : Wf s away) (hrun : Runnable s h id) :
    Wf (s.setCurrent h id) fun x => away x ∧ x ≠ h := by
  have hcurrent : ∀ x, x ≠ h → (s.setCurrent h id).current x = s.current x :=
    fun x hx => Function.update_of_ne hx _ _
  have hself : (s.setCurrent h id).current h = id := Function.update_self _ _ _
  refine { hs with
    placed := fun x hlt hx => ?_
    current_lt := fun x => ?_ }
  · have hp := hs.placed x hlt hx
    refine { hp with current := fun h' heq => ?_ }
    by_cases hh : h' = h
    · subst hh
      rw [hself] at heq
      subst heq
      exact ⟨(hrun.2 hx).1, fun _ => (hrun.2 hx).2⟩
    · rw [hcurrent h' hh] at heq
      exact ⟨(hp.current h' heq).1, fun hnot => (hp.current h' heq).2 fun haway => hnot ⟨haway, hh⟩⟩
  · by_cases hx : x = h
    · subst hx
      rw [hself]
      exact hrun.1
    · rw [hcurrent x hx]
      exact hs.current_lt x

/-- The hart that was away takes up a thread: nobody is away any more. -/
theorem back (hs : Wf s (· = h)) (hrun : Runnable s h id) :
    Wf (s.setCurrent h id) fun _ => False :=
  (hs.setCurrent hrun).leave fun _ hx => hx.2 hx.1

theorem dispatch (hs : Wf s (· = h)) : Wf (s.dispatch h).2 fun _ => False := by
  obtain ⟨hwf, hrun⟩ := (hs.resetTicks (h := h)).pickNext h true
  exact hwf.back hrun

end Wf

end Changes

end Ignium.Sched
