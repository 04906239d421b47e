import Ignium.Sched.Ranks
import Ignium.Sched.ReadyQueues

/-!
# The timer interrupt

What `on_tick` does in a state whose queues hold the ready threads and nothing else. A round over a
queue without a thread that can be resumed turns the queue once and leaves it as it was
(`scan_rotate`), so the search over the levels finds the first thread that can be resumed at the best
level that has one (`pickLevels_cases`). The interrupted thread is put at the end of its level before
the search: `preempt_cases` says that it goes on exactly if every thread that may preempt it has a
worse priority.
-/

namespace Ignium.Sched

open Scheduler

section Search

variable {s : Scheduler} {h : Hart} {needCtx : Bool}

/-- A round turns the part of the queue that it finds nothing in. -/
theorem scan_rotate (n : Nat) (front rest : List Nat)
    (hfront : ∀ x ∈ front, (s.thread x).state = .ready ∧ s.resumable needCtx x = false) :
    s.scan needCtx (front.length + n) (front ++ rest) = s.scan needCtx n (rest ++ front) := by
  induction front generalizing rest with
  | nil => simp
  | cons x front ih =>
    obtain ⟨⟨hready, hunfit⟩, hfront⟩ := List.forall_mem_cons.mp hfront
    have hlen : (x :: front).length + n = (front.length + n) + 1 := by
      rw [List.length_cons]
      omega
    rw [hlen, List.cons_append, scan, if_neg (not_not.mpr hready), if_neg (by simp [hunfit]),
      List.append_assoc, ih _ hfront, List.append_assoc]
    rfl

/-- The first element of a list with a property. -/
theorem exists_first {p : Nat → Bool} {q : List Nat} (hq : ∃ x ∈ q, p x = true) :
    ∃ front x back, q = front ++ x :: back ∧ p x = true ∧ ∀ y ∈ front, p y = false := by
  obtain ⟨x, hfind⟩ := Option.isSome_iff_exists.mp (List.find?_isSome.mpr hq)
  obtain ⟨hx, front, back, rfl, hfront⟩ := List.find?_eq_some_iff_append.mp hfind
  exact ⟨front, x, back, rfl, hx, fun y hy => by simpa using hfront y hy⟩

/-- A queue of ready threads: the first one that can be resumed is taken, or the queue stays. -/
theorem scan_cases (needCtx : Bool) {q : List Nat} (hq : ∀ x ∈ q, (s.thread x).state = .ready) :
    ((∀ x ∈ q, s.resumable needCtx x = false) ∧ s.scan needCtx q.length q = (none, q)) ∨
    ∃ front x back, q = front ++ x :: back ∧ s.resumable needCtx x = true ∧
      (∀ y ∈ front, s.resumable needCtx y = false) ∧
      s.scan needCtx q.length q = (some x, back ++ front) := by
  by_cases hany : ∃ x ∈ q, s.resumable needCtx x = true
  · obtain ⟨front, x, back, rfl, hx, hfront⟩ := exists_first hany
    refine .inr ⟨front, x, back, rfl, hx, hfront, ?_⟩
    have hready : (s.thread x).state = .ready := hq x (by simp)
    rw [List.length_append, scan_rotate _ _ _ fun y hy => ⟨hq y (by simp [hy]), hfront y hy⟩,
      List.length_cons, List.cons_append, scan, if_neg (not_not.mpr hready), if_pos hx]
  · have hunfit : ∀ x ∈ q, s.resumable needCtx x = false := fun x hx =>
      Bool.not_eq_true _ ▸ fun htrue => hany ⟨x, hx, htrue⟩
    have hround := scan_rotate 0 q [] fun x hx => ⟨hq x hx, hunfit x hx⟩
    rw [Nat.add_zero, List.append_nil, List.nil_append] at hround
    exact .inl ⟨hunfit, hround⟩

theorem setReady_eq_self {l : Prio} : s.setReady h l (s.ready h l) = s := by
  rw [setReady, Function.update_eq_self, Function.update_eq_self]

/-- The search finds the first thread that can be resumed at the first level that has one. -/
theorem pickLevels_cases (needCtx : Bool) {levels : List Prio} (hsorted : levels.Pairwise (· < ·))
    (hready : ∀ l, ∀ x ∈ s.ready h l, (s.thread x).state = .ready) :
    ((∀ l ∈ levels, ∀ x ∈ s.ready h l, s.resumable needCtx x = false) ∧
      Scheduler.pickLevels h needCtx levels s = (none, s)) ∨
    ∃ l ∈ levels, ∃ front x back, s.ready h l = front ++ x :: back ∧
      s.resumable needCtx x = true ∧ (∀ y ∈ front, s.resumable needCtx y = false) ∧
      (∀ l' ∈ levels, l' < l → ∀ y ∈ s.ready h l', s.resumable needCtx y = false) ∧
      Scheduler.pickLevels h needCtx levels s = (some x, (s.setReady h l (back ++ front)).modify x
        fun t => { t with state := .running }) := by
  induction levels with
  | nil => exact .inl ⟨fun l hl => absurd hl List.not_mem_nil, rfl⟩
  | cons l levels ih =>
    obtain ⟨hfirst, hsorted⟩ := List.pairwise_cons.mp hsorted
    rw [Scheduler.pickLevels]
    rcases scan_cases needCtx (hready l) with ⟨hunfit, hscan⟩ |
      ⟨front, x, back, hqueue, hx, hfront, hscan⟩
    · rw [hscan]
      dsimp only
      rw [setReady_eq_self]
      rcases ih hsorted with ⟨hnone, hpick⟩ | ⟨l', hl', front, x, back, hqueue, hx, hfront, hlower,
        hpick⟩
      · refine .inl ⟨fun l' hl' => ?_, hpick⟩
        rcases List.mem_cons.mp hl' with rfl | hin
        · exact hunfit
        · exact hnone l' hin
      · refine .inr ⟨l', List.mem_cons_of_mem _ hl', front, x, back, hqueue, hx, hfront,
          fun k hk hlt => ?_, hpick⟩
        rcases List.mem_cons.mp hk with rfl | hin
        · exact hunfit
        · exact hlower k hin hlt
    · refine .inr ⟨l, List.mem_cons_self, front, x, back, hqueue, hx, hfront, fun k hk hlt => ?_,
        by rw [hscan]⟩
      rcases List.mem_cons.mp hk with rfl | hin
      · exact absurd hlt (lt_irrefl _)
      · exact absurd hlt (lt_asymm (hfirst k hin))

theorem finRange_sorted : (List.finRange prioLevels).Pairwise (· < ·) := by decide

/-- The next thread of a hart whose queues hold ready threads. -/
theorem pickNext_cases (needCtx : Bool)
    (hready : ∀ l, ∀ x ∈ s.ready h l, (s.thread x).state = .ready) :
    ((∀ l, ∀ x ∈ s.ready h l, s.resumable needCtx x = false) ∧ s.pickNext h needCtx =
      (if (s.thread (s.current h)).state ≠ .running then s.idle h else s.current h, s)) ∨
    ∃ l front x back, s.ready h l = front ++ x :: back ∧ s.resumable needCtx x = true ∧
      (∀ y ∈ front, s.resumable needCtx y = false) ∧
      (∀ l', l' < l → ∀ y ∈ s.ready h l', s.resumable needCtx y = false) ∧
      s.pickNext h needCtx = (x, (s.setReady h l (back ++ front)).modify x
        fun t => { t with state := .running }) := by
  rw [Scheduler.pickNext]
  rcases pickLevels_cases needCtx finRange_sorted hready with ⟨hnone, hpick⟩ |
    ⟨l, -, front, x, back, hqueue, hx, hfront, hlower, hpick⟩
  · rw [hpick]
    exact .inl ⟨fun l => hnone l (List.mem_finRange l), rfl⟩
  · rw [hpick]
    exact .inr ⟨l, front, x, back, hqueue, hx, hfront, fun l' => hlower l' (List.mem_finRange l'), rfl⟩

end Search

/-! ## The law of the timer interrupt -/

/-- Each ready thread is queued once, at its hart and level, and nothing else is queued. -/
structure Lined (s : Scheduler) : Prop where
  once : ∀ id, id < s.len → (s.thread id).state = .ready → ∀ h l,
    (s.ready h l).count id = if h = (s.thread id).hart ∧ l = s.effPrio id then 1 else 0
  only : ∀ h l, ∀ id ∈ s.ready h l, id < s.len ∧ (s.thread id).state = .ready

/-- The interrupted thread goes on: no thread changes its state, the other threads do not change at
all, the queues hold what they held, and the harts run the threads that they ran. -/
structure Undisturbed (s : Scheduler) (h : Hart) (s' : Scheduler) : Prop where
  state : ∀ id, (s'.thread id).state = (s.thread id).state
  others : ∀ id, id ≠ s.current h → s'.thread id = s.thread id
  queues : ∀ h l, (s'.ready h l).Perm (s.ready h l)
  current : s'.current = s.current

/-- The hart goes on with the thread `n`. Besides it and the interrupted thread nothing changes. -/
structure Preempted (s : Scheduler) (b : Boot) (frame : TrapFrame) (h : Hart) (n : Nat)
    (s' : Scheduler) : Prop where
  other : n ≠ s.current h
  found : n < s.len ∧ (s.thread n).hart = h ∧ s.preemptable n = true
  prio : s.effPrio n ≤ s.effPrio (s.current h)
  best : ∀ m, m < s.len → (s.thread m).hart = h → s.preemptable m = true →
    s.effPrio n ≤ s.effPrio m
  saved : (s'.thread (s.current h)).frame = frame ∧ (s'.thread (s.current h)).frameValid = true
  queued : (s'.thread (s.current h)).state = .ready ∧ s'.occ (s.current h) = 1 ∧
    s.current h ∈ s'.ready h (s.effPrio (s.current h))
  running : (s'.thread n).state = .running ∧ s'.current h = n ∧ s'.occ n = 0
  resumed : (s'.thread n).frame =
    if (s.thread n).frameValid then (s.thread n).frame else (s.thread n).ctx.toFrame b
  others : ∀ id, id ≠ n → id ≠ s.current h →
    s'.thread id = s.thread id ∧ ∀ h' l, (s'.ready h' l).count id = (s.ready h' l).count id
  harts : ∀ h', h' ≠ h → s'.current h' = s.current h'

/-- The time slice of a hart is not over with the next tick. -/
def WithinSlice (s : Scheduler) (h : Hart) : Prop := (s.ticksRun h + 1) % 2 ^ 64 < sliceTicks

instance (s : Scheduler) (h : Hart) : Decidable (WithinSlice s h) :=
  inferInstanceAs (Decidable ((s.ticksRun h + 1) % 2 ^ 64 < sliceTicks))

/-- The interrupt returns the frame that it was given and changes nothing that counts, or it returns
the frame of the best thread that may preempt. Within the time slice that thread has a better priority
than the interrupted one. -/
def TickLaw (s : Scheduler) (b : Boot) (frame : TrapFrame) (h : Hart) : Prop :=
  ((s.onTick b frame h).1 = none ∧ Undisturbed s h (s.onTick b frame h).2) ∨
  ∃ n, (s.onTick b frame h).1 = some n ∧ Preempted s b frame h n (s.onTick b frame h).2 ∧
    (WithinSlice s h → s.effPrio n < s.effPrio (s.current h))

section Law

variable {s : Scheduler} {b : Boot} {frame : TrapFrame} {h : Hart}

theorem Lined.mem (hs : Lined s) {id : Nat} (hlt : id < s.len)
    (hready : (s.thread id).state = .ready) : id ∈ s.ready (s.thread id).hart (s.effPrio id) := by
  rw [← List.count_pos_iff, hs.once id hlt hready, if_pos ⟨rfl, rfl⟩]
  exact Nat.one_pos

theorem Lined.place (hs : Lined s) {id : Nat} {l : Prio} (hin : id ∈ s.ready h l) :
    h = (s.thread id).hart ∧ l = s.effPrio id := by
  obtain ⟨hlt, hready⟩ := hs.only h l id hin
  have hpos := List.count_pos_iff.mpr hin
  rw [hs.once id hlt hready] at hpos
  by_contra hne
  rw [if_neg hne] at hpos
  exact absurd hpos (Nat.lt_irrefl 0)

theorem preemptable_iff {id : Nat} : s.preemptable id = true ↔
    (s.thread id).state = .ready ∧ s.resumable false id = true := by
  simp [preemptable]

theorem hasOther_iff {bound : Nat} : s.hasOther h bound = true ↔ ∃ l : Prio, l.val < bound ∧
    ∃ id ∈ s.ready h l, id ≠ s.current h ∧ s.preemptable id = true := by
  simp [hasOther]

/-- The current thread of a hart is changed and put at the end of its level. -/
theorem ready_enqueue_current {f : Thread → Thread} (hhart : (s.thread (s.current h)).hart = h)
    (hf : ∀ t, (f t).prio = t.prio ∧ (f t).proc = t.proc ∧ (f t).hart = t.hart) (h' : Hart)
    (l : Prio) : ((s.modify (s.current h) f).enqueue (s.current h)).ready h' l =
      if (h', l) = (h, s.effPrio (s.current h)) then s.ready h' l ++ [s.current h]
      else s.ready h' l := by
  obtain ⟨hprio, hproc, hsame⟩ := hf (s.thread (s.current h))
  have hlevel : (s.modify (s.current h) f).effPrio (s.current h) = s.effPrio (s.current h) := by
    refine effPrio_congr ?_ ?_ fun _ _ => rfl
    · rw [modify_self, hprio]
    · rw [modify_self, hproc]
  unfold Scheduler.enqueue
  dsimp only
  rw [hlevel, modify_self, hsame, hhart]
  split
  · next heq =>
    obtain ⟨rfl, rfl⟩ := Prod.mk.inj heq
    exact setReady_self
  · next hne => exact setReady_of_ne hne

theorem ready_interrupted (hhart : (s.thread (s.current h)).hart = h) (h' : Hart) (l : Prio) :
    (interrupted s frame h).ready h' l =
      if (h', l) = (h, s.effPrio (s.current h)) then s.ready h' l ++ [s.current h]
      else s.ready h' l := by
  unfold interrupted
  refine ready_enqueue_current hhart ?_ h' l
  exact fun _ => ⟨rfl, rfl, rfl⟩

/-- The threads that the search looks at are ready. -/
theorem Lined.interrupted (hs : Lined s) (frame : TrapFrame)
    (hhart : (s.thread (s.current h)).hart = h) (l : Prio) : ∀ x ∈ (interrupted s frame h).ready h l,
      ((interrupted s frame h).thread x).state = .ready := by
  intro x hx
  by_cases hid : x = s.current h
  · rw [hid, interrupted_self]
  · rw [interrupted_of_ne frame hid]
    rw [ready_interrupted hhart] at hx
    split at hx
    · rcases List.mem_append.mp hx with hin | hin
      · exact (hs.only h l x hin).2
      · exact absurd (List.mem_singleton.mp hin) hid
    · exact (hs.only h l x hx).2

/-- What the search after the interrupt finds. -/
inductive Found (s : Scheduler) (frame : TrapFrame) (h : Hart) : Nat × Scheduler → Prop where
  /-- The interrupted thread itself, if all that may preempt it are worse. -/
  | again {rest : List Nat} (hrest : rest.Perm (s.ready h (s.effPrio (s.current h))))
      (hworse : ∀ m, m < s.len → (s.thread m).hart = h → s.preemptable m = true →
        s.effPrio (s.current h) < s.effPrio m) :
      Found s frame h (s.current h, ((interrupted s frame h).setReady h
        (s.effPrio (s.current h)) rest).modify (s.current h) fun t => { t with state := .running })
  /-- The best of the threads that may preempt. -/
  | next {n : Nat} {rest : List Nat} (hne : n ≠ s.current h)
      (hfound : n < s.len ∧ (s.thread n).hart = h ∧ s.preemptable n = true)
      (hprio : s.effPrio n ≤ s.effPrio (s.current h))
      (hbest : ∀ m, m < s.len → (s.thread m).hart = h → s.preemptable m = true →
        s.effPrio n ≤ s.effPrio m)
      (hrest : (n :: rest).Perm ((interrupted s frame h).ready h (s.effPrio n))) :
      Found s frame h (n, ((interrupted s frame h).setReady h (s.effPrio n) rest).modify n
        fun t => { t with state := .running })

theorem found_pickNext (hs : Lined s) (hrunning : (s.thread (s.current h)).state = .running)
    (hhart : (s.thread (s.current h)).hart = h) :
    Found s frame h ((interrupted s frame h).pickNext h false) := by
  have hfree : ∀ h' l, s.current h ∉ s.ready h' l := by
    intro h' l hin
    rw [(hs.only h' l _ hin).2] at hrunning
    cases hrunning
  have hfit : ∀ x, x ≠ s.current h →
      (interrupted s frame h).resumable false x = s.resumable false x := by
    intro x hx
    unfold resumable
    rw [interrupted_of_ne frame hx]
  have hself : (interrupted s frame h).resumable false (s.current h) = true := by
    unfold resumable
    rw [interrupted_self]
    rfl
  have hown : s.current h ∈ (interrupted s frame h).ready h (s.effPrio (s.current h)) := by
    rw [ready_interrupted hhart, if_pos rfl]
    exact List.mem_append_right _ (List.mem_singleton_self _)
  -- A thread that may preempt is in the queue of its level.
  have hmember : ∀ m, m < s.len → (s.thread m).hart = h → s.preemptable m = true →
      m ≠ s.current h ∧ m ∈ s.ready h (s.effPrio m) ∧ s.resumable false m = true := by
    intro m hlt hm hpre
    obtain ⟨hready, hres⟩ := preemptable_iff.mp hpre
    refine ⟨fun heq => ?_, hm ▸ hs.mem hlt hready, hres⟩
    rw [heq, hrunning] at hready
    cases hready
  have hmember' : ∀ m, m < s.len → (s.thread m).hart = h → s.preemptable m = true →
      m ∈ (interrupted s frame h).ready h (s.effPrio m) ∧
        (interrupted s frame h).resumable false m = true := by
    intro m hlt hm hpre
    obtain ⟨hne, hin, hres⟩ := hmember m hlt hm hpre
    refine ⟨?_, (hfit m hne).trans hres⟩
    rw [ready_interrupted hhart]
    split
    · exact List.mem_append_left _ hin
    · exact hin
  rcases pickNext_cases false (hs.interrupted frame hhart) with ⟨hnone, -⟩ |
    ⟨l, front, n, back, hqueue, hn, hfront, hlower, hpick⟩
  · rw [hnone _ _ hown] at hself
    cases hself
  · rw [hpick]
    have hlevel : l ≤ s.effPrio (s.current h) := by
      by_contra hlt
      rw [hlower _ (not_le.mp hlt) _ hown] at hself
      cases hself
    have hbest : ∀ m, m < s.len → (s.thread m).hart = h → s.preemptable m = true →
        l ≤ s.effPrio m := by
      intro m hlt hm hpre
      by_contra hbetter
      obtain ⟨hin, hres⟩ := hmember' m hlt hm hpre
      rw [hlower _ (not_le.mp hbetter) _ hin] at hres
      cases hres
    have hperm : (n :: (back ++ front)).Perm ((interrupted s frame h).ready h l) := by
      rw [hqueue, ← List.cons_append]
      exact List.perm_append_comm
    have hn_in : n ∈ (interrupted s frame h).ready h l := hperm.subset List.mem_cons_self
    rw [ready_interrupted hhart] at hqueue hn_in
    by_cases heq : n = s.current h
    · subst heq
      have hl : l = s.effPrio (s.current h) := by
        by_contra hne
        rw [if_neg fun hpair => hne (Prod.mk.inj hpair).2] at hn_in
        exact hfree h l hn_in
      subst hl
      rw [if_pos rfl] at hqueue
      -- It is the last one of its level, so the others of the level cannot preempt.
      have hback : back = [] := by
        rcases List.eq_nil_or_concat back with hnil | ⟨init, last, rfl⟩
        · exact hnil
        · have hsplit : s.ready h (s.effPrio (s.current h)) ++ [s.current h] =
              (front ++ s.current h :: init) ++ [last] := by simpa using hqueue
          obtain ⟨hfirst, -⟩ := List.append_inj' hsplit rfl
          exact absurd (by rw [hfirst]; simp) (hfree h (s.effPrio (s.current h)))
      subst hback
      have hsame : front = s.ready h (s.effPrio (s.current h)) :=
        (List.append_inj' hqueue rfl).1.symm
      rw [List.nil_append]
      refine .again (by rw [hsame]) fun m hlt hm hpre => ?_
      refine lt_of_le_of_ne (hbest m hlt hm hpre) fun hsamePrio => ?_
      obtain ⟨hne, hin, hres⟩ := hmember m hlt hm hpre
      rw [← hsamePrio, ← hsame] at hin
      rw [← hfit m hne, hfront m hin] at hres
      cases hres
    · have hin : n ∈ s.ready h l := by
        split at hn_in
        · rcases List.mem_append.mp hn_in with hin | hin
          · exact hin
          · exact absurd (List.mem_singleton.mp hin) heq
        · exact hn_in
      obtain ⟨hlt, hready⟩ := hs.only h l n hin
      obtain ⟨hat, rfl⟩ := hs.place hin
      exact .next heq ⟨hlt, hat.symm, preemptable_iff.mpr ⟨hready, (hfit n heq).symm.trans hn⟩⟩ hlevel
        hbest hperm

/-- In the queues of `s'` a thread is counted as in those of `s` and `more` times more. -/
theorem occ_setReady_perm {n x : Nat} {l : Prio} {rest : List Nat}
    (hrest : (n :: rest).Perm (s.ready h l)) :
    (s.setReady h l rest).occ x + (if n = x then 1 else 0) = s.occ x := by
  have hset : (s.setReady h l rest).occ x + (s.ready h l).count x = s.occ x + rest.count x :=
    occ_setReady
  rw [← hrest.count_eq, List.count_cons] at hset
  simp only [beq_iff_eq] at hset
  omega

theorem Lined.occ_le (hs : Lined s) {id : Nat} (hlt : id < s.len)
    (hready : (s.thread id).state = .ready) : s.occ id = 1 := by
  rw [occ]
  simp only [hs.once id hlt hready]
  rw [Finset.sum_eq_single ((s.thread id).hart, s.effPrio id)]
  · simp
  · intro p _ hne
    rw [if_neg fun hboth => hne (Prod.ext hboth.1 hboth.2)]
  · exact fun hnot => absurd (Finset.mem_univ _) hnot

theorem occ_interrupted (x : Nat) :
    (interrupted s frame h).occ x = s.occ x + if s.current h = x then 1 else 0 :=
  occ_enqueue x

/-- The interrupted thread is found again and leaves the queue. -/
theorem undisturbed_again (frame : TrapFrame) {rest : List Nat}
    (hrunning : (s.thread (s.current h)).state = .running)
    (hhart : (s.thread (s.current h)).hart = h) (hfree : s.occ (s.current h) = 0)
    (hrest : rest.Perm (s.ready h (s.effPrio (s.current h)))) :
    Undisturbed s h (((((interrupted s frame h).setReady h (s.effPrio (s.current h)) rest).modify
      (s.current h) fun t => { t with state := .running }).removeFromReady (s.current h)).modify
        (s.current h) fun t => { t with state := .running, frameValid := true, ctxValid := false }) := by
  have hperm : (s.current h :: rest).Perm
      ((interrupted s frame h).ready h (s.effPrio (s.current h))) := by
    rw [ready_interrupted hhart, if_pos rfl]
    exact (hrest.cons _).trans (List.perm_append_singleton _ _).symm
  have hgone : (((interrupted s frame h).setReady h (s.effPrio (s.current h)) rest).modify
      (s.current h) fun t => { t with state := .running }).occ (s.current h) = 0 := by
    have hcount := occ_setReady_perm (x := s.current h) hperm
    rw [occ_interrupted, hfree, if_pos rfl] at hcount
    change ((interrupted s frame h).setReady h (s.effPrio (s.current h)) rest).occ (s.current h) = 0
    omega
  rw [removeFromReady_eq_self hgone]
  have hothers : ∀ id, id ≠ s.current h → ((((interrupted s frame h).setReady h
      (s.effPrio (s.current h)) rest).modify (s.current h) fun t => { t with state := .running }).modify
        (s.current h) fun t => { t with state := .running, frameValid := true, ctxValid := false }).thread
          id = s.thread id := by
    intro id hid
    rw [modify_of_ne hid, modify_of_ne hid]
    exact interrupted_of_ne frame hid
  refine ⟨fun id => ?_, hothers, fun h' l => ?_, rfl⟩
  · by_cases hid : id = s.current h
    · rw [hid, modify_self, hrunning]
    · rw [hothers id hid]
  · change (((interrupted s frame h).setReady h (s.effPrio (s.current h)) rest).ready h' l).Perm _
    by_cases hp : (h', l) = (h, s.effPrio (s.current h))
    · obtain ⟨rfl, rfl⟩ := Prod.mk.inj hp
      rw [setReady_self]
      exact hrest
    · rw [setReady_of_ne hp, ready_interrupted hhart, if_neg hp]

/-- A thread that is resumed stays in its state, and nothing else changes but the thread of the hart. -/
theorem resumeFrame_spec (s : Scheduler) (b : Boot) (h : Hart) (n : Nat) :
    (s.resumeFrame b h n).ready = s.ready ∧
      (s.resumeFrame b h n).current = Function.update s.current h n ∧
      (∀ x, x ≠ n → (s.resumeFrame b h n).thread x = s.thread x) ∧
      ((s.resumeFrame b h n).thread n).state = (s.thread n).state := by
  unfold resumeFrame
  dsimp only
  split
  · exact ⟨rfl, rfl, fun _ _ => rfl, rfl⟩
  · refine ⟨rfl, rfl, fun _ hx => modify_of_ne hx, ?_⟩
    unfold expandCtxToFrame
    rw [modify_self]
    rfl

/-- Another thread is found and resumed. -/
theorem preempted_next {n : Nat} {rest : List Nat} (hs : Lined s)
    (hhart : (s.thread (s.current h)).hart = h) (hfree : s.occ (s.current h) = 0) (hne : n ≠ s.current h)
    (hfound : n < s.len ∧ (s.thread n).hart = h ∧ s.preemptable n = true)
    (hprio : s.effPrio n ≤ s.effPrio (s.current h))
    (hbest : ∀ m, m < s.len → (s.thread m).hart = h → s.preemptable m = true →
      s.effPrio n ≤ s.effPrio m)
    (hrest : (n :: rest).Perm ((interrupted s frame h).ready h (s.effPrio n))) :
    Preempted s b frame h n ((((interrupted s frame h).setReady h (s.effPrio n) rest).modify n
      fun t => { t with state := .running }).resumeFrame b h n) := by
  generalize hs₁ : ((interrupted s frame h).setReady h (s.effPrio n) rest).modify n
    (fun t => { t with state := .running }) = s₁
  have hother : ∀ x, x ≠ n → s₁.thread x = (interrupted s frame h).thread x := by
    intro x hx
    rw [← hs₁, modify_of_ne hx]
    rfl
  have hself : s₁.thread n = { s.thread n with state := .running } := by
    rw [← hs₁, modify_self]
    exact congrArg (fun t : Thread => { t with state := .running }) (interrupted_of_ne frame hne)
  obtain ⟨hqueues, hcurrent, hthread, hstate⟩ := resumeFrame_spec s₁ b h n
  replace hqueues : (s₁.resumeFrame b h n).ready =
      ((interrupted s frame h).setReady h (s.effPrio n) rest).ready := by
    rw [hqueues, ← hs₁]
    rfl
  have hocc : ∀ x, (s₁.resumeFrame b h n).occ x + (if n = x then 1 else 0) =
      s.occ x + if s.current h = x then 1 else 0 := by
    intro x
    rw [← occ_interrupted, ← occ_setReady_perm hrest, occ, occ, hqueues]
  have hready := (preemptable_iff.mp hfound.2.2).1
  refine ⟨hne, hfound, hprio, hbest, ?_, ⟨?_, ?_, ?_⟩, ⟨?_, ?_, ?_⟩, ?_,
    fun id hid hcur => ⟨?_, ?_⟩, fun h' hh => ?_⟩
  · rw [hthread _ hne.symm, hother _ hne.symm, interrupted_self]
    exact ⟨rfl, rfl⟩
  · rw [hthread _ hne.symm, hother _ hne.symm, interrupted_self]
  · have hcount := hocc (s.current h)
    rw [hfree, if_neg hne, if_pos rfl] at hcount
    omega
  · have hown : s.current h ∈ (interrupted s frame h).ready h (s.effPrio (s.current h)) := by
      rw [ready_interrupted hhart, if_pos rfl]
      exact List.mem_append_right _ (List.mem_singleton_self _)
    rw [hqueues]
    by_cases hlevel : s.effPrio (s.current h) = s.effPrio n
    · rw [hlevel] at hown ⊢
      rw [setReady_self]
      exact (List.mem_cons.mp (hrest.symm.subset hown)).resolve_left hne.symm
    · rw [setReady_of_ne fun hpair => hlevel (Prod.mk.inj hpair).2]
      exact hown
  · rw [hstate, hself]
  · rw [hcurrent, Function.update_self]
  · have hcount := hocc n
    rw [hs.occ_le hfound.1 hready, if_pos rfl, if_neg hne.symm] at hcount
    omega
  · have hset : (s₁.setCurrent h n).thread n = { s.thread n with state := .running } := hself
    unfold resumeFrame
    dsimp only
    rw [hset]
    split
    · rw [hset]
    · unfold expandCtxToFrame
      rw [modify_self, hset]
  · rw [hthread id hid, hother id hid, interrupted_of_ne frame hcur]
  · intro h' l
    have hold : ((interrupted s frame h).ready h' l).count id = (s.ready h' l).count id := by
      rw [ready_interrupted hhart]
      split
      · rw [count_snoc, if_neg hcur.symm, Nat.add_zero]
      · rfl
    have hrest' : rest.count id = ((interrupted s frame h).ready h (s.effPrio n)).count id := by
      rw [← hrest.count_eq, List.count_cons_of_ne hid.symm]
    rw [hqueues, count_setReady hrest', hold]
  · rw [hcurrent, Function.update_of_ne hh, ← hs₁]
    rfl

theorem preempt_eq (hother : (s.resetTicks h).hasOther h prioLevels = true) {next : Nat}
    {s₁ : Scheduler}
    (hpick : (interrupted (s.resetTicks h) frame h).pickNext h false = (next, s₁)) :
    s.preempt b frame h = if next = s.current h then
      (none, (s₁.removeFromReady (s.current h)).modify (s.current h) fun t =>
        { t with state := .running, frameValid := true, ctxValid := false })
      else (some next, s₁.resumeFrame b h next) := by
  unfold interrupted at hpick
  unfold Scheduler.preempt
  dsimp only
  rw [if_pos hother, hpick]
  rfl

/-- The part of the interrupt that looks for another thread. -/
theorem preempt_cases (b : Boot) (frame : TrapFrame) (hs : Lined s)
    (hrunning : (s.thread (s.current h)).state = .running)
    (hhart : (s.thread (s.current h)).hart = h) :
    ((s.preempt b frame h).1 = none ∧ Undisturbed s h (s.preempt b frame h).2 ∧
      ∀ m, m < s.len → (s.thread m).hart = h → s.preemptable m = true →
        s.effPrio (s.current h) < s.effPrio m) ∨
    ∃ n, (s.preempt b frame h).1 = some n ∧ Preempted s b frame h n (s.preempt b frame h).2 := by
  have hfree : s.occ (s.current h) = 0 := by
    by_contra hne
    obtain ⟨h', l, hin⟩ := mem_ready_of_occ (Nat.pos_of_ne_zero hne)
    rw [(hs.only h' l _ hin).2] at hrunning
    cases hrunning
  -- The tick count plays no part in what follows.
  have hlined : Lined (s.resetTicks h) := ⟨hs.once, hs.only⟩
  by_cases hother : (s.resetTicks h).hasOther h prioLevels = true
  · have hfound : Found (s.resetTicks h) frame h
        ((interrupted (s.resetTicks h) frame h).pickNext h false) :=
      found_pickNext hlined hrunning hhart
    rcases hpick : (interrupted (s.resetTicks h) frame h).pickNext h false with ⟨next, s₁⟩
    rw [hpick] at hfound
    rw [preempt_eq hother hpick]
    cases hfound with
    | again hrest hworse =>
      have hsame := undisturbed_again (s := s.resetTicks h) frame hrunning hhart hfree hrest
      have hself : (s.resetTicks h).current h = s.current h := rfl
      rw [if_pos hself]
      exact .inl ⟨rfl, ⟨hsame.state, hsame.others, hsame.queues, hsame.current⟩, hworse⟩
    | next hne hcand hprio hbest hrest =>
      have hnext := preempted_next (b := b) hlined hhart hfree hne hcand hprio hbest hrest
      have hother' : next ≠ s.current h := hne
      rw [if_neg hother']
      exact .inr ⟨_, rfl, hnext.other, hnext.found, hnext.prio, hnext.best, hnext.saved,
        hnext.queued, hnext.running, hnext.resumed, hnext.others, hnext.harts⟩
  · have hstay : s.preempt b frame h = (none, s.resetTicks h) := by
      unfold Scheduler.preempt
      dsimp only
      rw [if_neg hother]
    rw [hstay]
    refine .inl ⟨rfl, ⟨fun _ => rfl, fun _ _ => rfl, fun _ _ => List.Perm.refl _, rfl⟩,
      fun m hlt hm hpre => ?_⟩
    obtain ⟨hready, -⟩ := preemptable_iff.mp hpre
    refine absurd (hasOther_iff.mpr ⟨s.effPrio m, (s.effPrio m).isLt, m, hm ▸ hs.mem hlt hready,
      fun heq => ?_, hpre⟩) hother
    change m = s.current h at heq
    rw [heq, hrunning] at hready
    cases hready

/-- What the timer interrupt does. If the interrupted thread goes on at the end of its time slice, all
threads that may preempt it are worse. -/
theorem onTick_cases (b : Boot) (frame : TrapFrame) (hs : Lined s)
    (hrunning : (s.thread (s.current h)).state = .running)
    (hhart : (s.thread (s.current h)).hart = h) :
    ((s.onTick b frame h).1 = none ∧ Undisturbed s h (s.onTick b frame h).2 ∧
      (¬ WithinSlice s h → ∀ m, m < s.len → (s.thread m).hart = h → s.preemptable m = true →
        s.effPrio (s.current h) < s.effPrio m)) ∨
    ∃ n, (s.onTick b frame h).1 = some n ∧ Preempted s b frame h n (s.onTick b frame h).2 ∧
      (WithinSlice s h → s.effPrio n < s.effPrio (s.current h)) := by
  -- Counting the tick changes neither threads nor queues.
  have hcases := preempt_cases (s := { s with
    ticksRun := Function.update s.ticksRun h ((s.ticksRun h + 1) % 2 ^ 64) }) b frame
    ⟨hs.once, hs.only⟩ hrunning hhart
  have hticks : Function.update s.ticksRun h ((s.ticksRun h + 1) % 2 ^ 64) h < sliceTicks ↔
      WithinSlice s h := by
    rw [Function.update_self]
    rfl
  unfold Scheduler.onTick
  dsimp only
  by_cases hslice : WithinSlice s h
  · rw [if_pos (hticks.mpr hslice)]
    split
    · next hhigher =>
      rcases hcases with ⟨hnone, hsame, -⟩ | ⟨n, hsome, hnext⟩
      · exact .inl ⟨hnone, ⟨hsame.state, hsame.others, hsame.queues, hsame.current⟩,
          fun hover => absurd hslice hover⟩
      · refine .inr ⟨n, hsome, ⟨hnext.other, hnext.found, hnext.prio, hnext.best, hnext.saved,
          hnext.queued, hnext.running, hnext.resumed, hnext.others, hnext.harts⟩, fun _ => ?_⟩
        -- A thread of a better priority may preempt, and none is better than the one found.
        obtain ⟨l, hbound, m, hin, -, hpre⟩ := hasOther_iff.mp hhigher
        obtain ⟨hlt, -⟩ := hs.only h l m hin
        obtain ⟨hm, rfl⟩ := hs.place hin
        exact lt_of_le_of_lt (hnext.best m hlt hm.symm hpre) hbound
    · exact .inl ⟨rfl, ⟨fun _ => rfl, fun _ _ => rfl, fun _ _ => List.Perm.refl _, rfl⟩,
        fun hover => absurd hslice hover⟩
  · rw [if_neg (mt hticks.mp hslice)]
    rcases hcases with ⟨hnone, hsame, hworse⟩ | ⟨n, hsome, hnext⟩
    · exact .inl ⟨hnone, ⟨hsame.state, hsame.others, hsame.queues, hsame.current⟩, fun _ => hworse⟩
    · exact .inr ⟨n, hsome, ⟨hnext.other, hnext.found, hnext.prio, hnext.best, hnext.saved,
        hnext.queued, hnext.running, hnext.resumed, hnext.others, hnext.harts⟩,
        fun hwithin => absurd hwithin hslice⟩

/-- In every state whose queues hold the ready threads and nothing else, for every frame: the timer
interrupt of a hart that runs one of its own threads follows the law. -/
theorem onTick_tickLaw (s : Scheduler) (b : Boot) (frame : TrapFrame) (h : Hart) (hs : Lined s)
    (hrunning : (s.thread (s.current h)).state = .running)
    (hhart : (s.thread (s.current h)).hart = h) : TickLaw s b frame h := by
  rcases onTick_cases b frame hs hrunning hhart with ⟨hnone, hsame, -⟩ | hnext
  · exact .inl ⟨hnone, hsame⟩
  · exact .inr hnext

end Law

instance (s : Scheduler) : Decidable (Lined s) :=
  decidable_of_iff ((∀ id, id < s.len → (s.thread id).state = .ready → ∀ h l,
      (s.ready h l).count id = if h = (s.thread id).hart ∧ l = s.effPrio id then 1 else 0) ∧
    ∀ h l, ∀ id ∈ s.ready h l, id < s.len ∧ (s.thread id).state = .ready)
    ⟨fun hs => ⟨hs.1, hs.2⟩, fun hs => ⟨hs.once, hs.only⟩⟩

/-- Two kernel threads on hart 0: the first runs, and the second is ready. -/
def pairOps (first second : Nat) : List SchedOp :=
  [.spawn (clampHart 0) 0 first 0, .yield (clampHart 0), .spawn (clampHart 0) 0 second 0]

/-- A thread of a better priority preempts within the time slice. -/
theorem onTick_tickLaw_pair : ∃ s,
    Machine.run (Scheduler.step ⟨0, 0, 0, 0, 0⟩) (.init ⟨0, 0, 0, 0, 0⟩ fun _ => 0) (pairOps 2 0) =
      some s ∧ (s.onTick ⟨0, 0, 0, 0, 0⟩ .zero (clampHart 0)).1 = some 5 ∧
      TickLaw s ⟨0, 0, 0, 0, 0⟩ .zero (clampHart 0) := by
  obtain ⟨s, hrun, hstate⟩ : ∃ s, Machine.run (Scheduler.step ⟨0, 0, 0, 0, 0⟩)
      (.init ⟨0, 0, 0, 0, 0⟩ fun _ => 0) (pairOps 2 0) = some s ∧
      decide ((s.onTick ⟨0, 0, 0, 0, 0⟩ .zero (clampHart 0)).1 = some 5 ∧ Lined s ∧
        (s.thread (s.current (clampHart 0))).state = .running ∧
        (s.thread (s.current (clampHart 0))).hart = clampHart 0) = true :=
    Option.map_eq_some_iff.mp (by decide +kernel)
  obtain ⟨hnext, hlined, hrunning, hhart⟩ := of_decide_eq_true hstate
  exact ⟨s, hrun, hnext, onTick_tickLaw s _ _ _ hlined hrunning hhart⟩

/-- The thread 4 with another hart as its affinity, at the end of a time slice. -/
def strayed (s : Scheduler) : Scheduler :=
  { s.modify 4 fun t => { t with hart := clampHart 1 } with ticksRun := fun _ => 9 }

/-- A hart that runs a thread of another hart does not find it again in its own queues, and goes on
with a thread of a worse priority. -/
theorem not_tickLaw_strayed : ∃ s : Scheduler, Lined s ∧
    (s.thread (s.current (clampHart 0))).state = .running ∧
    (∀ h l, s.current (clampHart 0) ∉ s.ready h l) ∧
    ¬ TickLaw s ⟨0, 0, 0, 0, 0⟩ .zero (clampHart 0) := by
  obtain ⟨s, -, hstate⟩ : ∃ s, Machine.run (Scheduler.step ⟨0, 0, 0, 0, 0⟩)
      (.init ⟨0, 0, 0, 0, 0⟩ fun _ => 0) (pairOps 0 2) = some s ∧
      decide (((strayed s).onTick ⟨0, 0, 0, 0, 0⟩ .zero (clampHart 0)).1 = some 5 ∧
        Lined (strayed s) ∧
        ((strayed s).thread ((strayed s).current (clampHart 0))).state = .running ∧
        (∀ h l, (strayed s).current (clampHart 0) ∉ (strayed s).ready h l) ∧
        ¬ (strayed s).effPrio 5 ≤ (strayed s).effPrio ((strayed s).current (clampHart 0))) = true :=
    Option.map_eq_some_iff.mp (by decide +kernel)
  obtain ⟨hnext, hlined, hrunning, hfree, hprio⟩ := of_decide_eq_true hstate
  refine ⟨strayed s, hlined, hrunning, hfree, fun hlaw => ?_⟩
  rcases hlaw with ⟨hnone, -⟩ | ⟨n, hsome, hpreempted, -⟩
  · rw [hnext] at hnone
    cases hnone
  · rw [hnext] at hsome
    cases hsome
    exact hprio hpreempted.prio

end Ignium.Sched
