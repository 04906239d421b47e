import Ignium.Sched.Slots

/-!
# Queues that agree with the states of the threads

`Wf` lets a ready thread be missing from the queues and says nothing about the idle threads. `Tidy`
adds both: every ready thread is queued, except those that a section has just taken `out`, and the
idle threads are placed like all others. The lemmas carry `Tidy` through the parts of the sections.
What needs an argument is the fallback of `pickNext`, which returns the idle thread of the hart
without taking it out of a queue: a section may only get there if that thread is not queued.
-/

namespace Ignium.Sched

open Scheduler

/-- How the idle thread of a hart fits in. -/
structure IdleAt (s : Scheduler) (away : Hart → Prop) (h : Hart) : Prop where
  once : s.occ (s.idle h) ≤ 1
  queued : ∀ h' l, s.idle h ∈ s.ready h' l → (s.thread (s.idle h)).state = .ready ∧ h' = h
  hart : (s.thread (s.idle h)).hart = h
  state : (s.thread (s.idle h)).state = .ready ∨ (s.thread (s.idle h)).state = .running
  /-- It can be picked by a cooperative switch. -/
  valid : (s.thread (s.idle h)).state = .ready → s.resumable true (s.idle h) = true
  current : ∀ h', s.current h' = s.idle h → h' = h ∧
    (¬ away h' → (s.thread (s.idle h)).state = .running)

/-- A well-formed state whose ready threads are queued, those that are `out` apart. -/
structure Tidy (s : Scheduler) (away : Hart → Prop) (out : Nat → Prop) : Prop where
  wf : Wf s away
  few : s.len ≤ maxThreads
  listed : ∀ id, id < s.len → ¬ out id → (s.thread id).state = .ready → 0 < s.occ id
  idle : ∀ h, IdleAt s away h

section Parts

variable {s s' : Scheduler} {away away' : Hart → Prop} {out out' : Nat → Prop} {h : Hart} {l : Prio}
  {id : Nat} {f : Thread → Thread}

theorem occ_congr (hcount : ∀ h l, (s'.ready h l).count id = (s.ready h l).count id) :
    s'.occ id = s.occ id :=
  Finset.sum_congr rfl fun p _ => hcount p.1 p.2

/-- An idle thread that changes nothing but what `IdleAt` does not look at, and may leave a
queue. -/
theorem IdleAt.mono (hi : IdleAt s away h) (hidle : s'.idle = s.idle)
    (hcurrent : s'.current = s.current)
    (hcount : ∀ h' l, (s'.ready h' l).count (s.idle h) ≤ (s.ready h' l).count (s.idle h))
    (hstate : (s'.thread (s.idle h)).state = (s.thread (s.idle h)).state)
    (hhart : (s'.thread (s.idle h)).hart = (s.thread (s.idle h)).hart)
    (hvalid : (s.thread (s.idle h)).state = .ready → s'.resumable true (s.idle h) = true) :
    IdleAt s' away h := by
  refine ⟨?_, fun h' l hin => ?_, ?_, ?_, ?_, fun h' heq => ?_⟩
  · rw [hidle]
    exact (occ_le hcount).trans hi.once
  · rw [hidle] at hin ⊢
    have hpos := List.count_pos_iff.mpr hin
    have hle := hcount h' l
    rw [hstate]
    exact hi.queued h' l (List.count_pos_iff.mp (by omega))
  · rw [hidle, hhart]
    exact hi.hart
  · rw [hidle, hstate]
    exact hi.state
  · rw [hidle, hstate]
    exact hvalid
  · rw [hcurrent, hidle] at heq
    rw [hidle, hstate]
    exact hi.current h' heq

namespace Tidy

/-- A thread that is queued is ready, and the queue is one of its hart. -/
theorem queued (hs : Tidy s away out) (hin : id ∈ s.ready h l) :
    id < s.len ∧ (s.thread id).state = .ready ∧ (s.thread id).hart = h := by
  have hlt := hs.wf.queued_lt id (occ_pos hin)
  refine ⟨hlt, ?_⟩
  by_cases hid : s.Idle id
  · obtain ⟨h', rfl⟩ := hid
    obtain ⟨hready, rfl⟩ := (hs.idle h').queued h l hin
    exact ⟨hready, (hs.idle h).hart⟩
  · exact (hs.wf.placed id hlt hid).queued h l hin

theorem once (hs : Tidy s away out) (id : Nat) : s.occ id ≤ 1 := by
  by_cases hpos : 0 < s.occ id
  · by_cases hid : s.Idle id
    · obtain ⟨h', rfl⟩ := hid
      exact (hs.idle h').once
    · exact (hs.wf.placed id (hs.wf.queued_lt id hpos) hid).once
  · omega

theorem not_queued (hs : Tidy s away out) (hstate : (s.thread id).state ≠ .ready) :
    s.occ id = 0 := by
  by_contra hne
  obtain ⟨h, l, hin⟩ := mem_ready_of_occ (Nat.pos_of_ne_zero hne)
  exact hstate (hs.queued hin).2.1

/-- The current thread of a hart. -/
theorem current (hs : Tidy s away out) (h : Hart) : (s.thread (s.current h)).hart = h ∧
    (¬ away h → (s.thread (s.current h)).state = .running) := by
  by_cases hid : s.Idle (s.current h)
  · obtain ⟨h', heq⟩ := hid
    obtain ⟨rfl, hstate⟩ := (hs.idle h').current h heq.symm
    rw [← heq]
    exact ⟨(hs.idle h).hart, hstate⟩
  · exact (hs.wf.placed _ (hs.wf.current_lt h) hid).current h rfl

/-- A thread that has not exited does not lie in a free slot. -/
theorem not_free (hs : Tidy s away out) (hstate : (s.thread id).state ≠ .exited) :
    id ∉ s.freeSlots := by
  intro hin
  have hid : ¬ s.Idle id := by
    intro hidle
    obtain ⟨h, rfl⟩ := hidle
    exact hs.wf.free_idle h hin
  exact hstate ((hs.wf.placed id (hs.wf.free_lt id hin) hid).free.mp hin)

/-- The current thread of a hart that has left it is loose. -/
theorem loose_current (hs : Tidy s (fun _ => False) out) (h : Hart) :
    Loose s (· = h) (s.current h) := by
  obtain ⟨hhart, hrunning⟩ := hs.current h
  have hstate := hrunning not_false
  refine ⟨hs.not_queued (by simp [hstate]), hs.not_free (by simp [hstate]), fun h' heq => ?_⟩
  rw [← (hs.current h').1, heq]
  exact hhart

section

variable (hs : Tidy s away out)
include hs

/-- What a change has to show for the threads that it moves. The others stay as they are. -/
theorem update (hwf : Wf s' away) (moved : Nat → Prop)
    (hlen : ∀ x, x < s'.len → x < s.len ∨ moved x) (hfew : s'.len ≤ maxThreads)
    (hidle : s'.idle = s.idle) (hcurrent : s'.current = s.current)
    (hframe : ∀ x, ¬ moved x → s'.thread x = s.thread x)
    (hcount : ∀ x, ¬ moved x → ∀ h l, (s'.ready h l).count x = (s.ready h l).count x)
    (hout : ∀ x, ¬ moved x → out x → out' x)
    (hlisted : ∀ x, moved x → x < s'.len → ¬ out' x → (s'.thread x).state = .ready → 0 < s'.occ x)
    (hidles : ∀ h, moved (s.idle h) → IdleAt s' away h) : Tidy s' away out' := by
  refine ⟨hwf, hfew, fun x hlt hx hready => ?_, fun h => ?_⟩
  · by_cases hm : moved x
    · exact hlisted x hm hlt hx hready
    · rw [occ_congr (hcount x hm)]
      rw [hframe x hm] at hready
      exact hs.listed x ((hlen x hlt).resolve_right hm) (fun ho => hx (hout x hm ho)) hready
  · by_cases hm : moved (s.idle h)
    · exact hidles h hm
    · have hthread := hframe _ hm
      refine (hs.idle h).mono hidle hcurrent (fun h' l => (hcount _ hm h' l).le) (by rw [hthread])
        (by rw [hthread]) fun hready => ?_
      rw [resumable, hthread]
      exact (hs.idle h).valid hready

/-- A change that `Tidy` does not look at. -/
theorem congr (hwf : Wf s' away) (hlen : s'.len = s.len)
    (hidle : s'.idle = s.idle) (hcurrent : s'.current = s.current) (hthread : s'.thread = s.thread)
    (hready : s'.ready = s.ready) : Tidy s' away out :=
  hs.update hwf (fun _ => False) (fun x hx => .inl (hlen ▸ hx)) (hlen ▸ hs.few) hidle hcurrent
    (fun _ _ => by rw [hthread]) (fun _ _ _ _ => by rw [hready]) (fun _ _ ho => ho)
    (fun _ hx => hx.elim) fun _ hx => hx.elim

theorem resetTicks : Tidy (s.resetTicks h) away out :=
  hs.congr hs.wf.resetTicks rfl rfl rfl rfl rfl

/-- A hart leaves its current thread. -/
theorem leave (hle : ∀ h, away h → away' h) : Tidy s away' out :=
  { hs with
    wf := hs.wf.leave hle
    idle := fun h =>
      let hi := hs.idle h
      { hi with current := fun h' heq => ⟨(hi.current h' heq).1, fun hnot =>
          (hi.current h' heq).2 fun haway => hnot (hle h' haway)⟩ } }

/-- Only ready threads need to be named as out. -/
theorem weaken (hout : ∀ x, (s.thread x).state = .ready → out x → out' x) :
    Tidy s away out' :=
  { hs with listed := fun x hlt hx hready =>
      hs.listed x hlt (fun ho => hx (hout x hready ho)) hready }

/-- A change of one thread that keeps its state and its hart. -/
theorem modify_same (hstate : (f (s.thread id)).state = (s.thread id).state)
    (hhart : (f (s.thread id)).hart = (s.thread id).hart)
    (hproc : s.Idle id → (f (s.thread id)).proc = (s.thread id).proc)
    (hvalid : s.Idle id → (s.thread id).state = .ready →
      ((f (s.thread id)).ctxValid || (f (s.thread id)).frameValid) = true) :
    Tidy (s.modify id f) away out := by
  refine hs.update (hs.wf.modify_same hstate hhart hproc) (· = id) (fun x hx => .inl hx) hs.few rfl
    rfl (fun x hx => modify_of_ne hx) (fun _ _ _ _ => rfl) (fun _ _ ho => ho)
    (fun x hx hlt ho hready => ?_) fun h heq => ?_
  · subst hx
    rw [modify_self, hstate] at hready
    exact hs.listed x hlt ho hready
  · subst heq
    refine (hs.idle h).mono rfl rfl (fun _ _ => le_rfl) (by rw [modify_self, hstate])
      (by rw [modify_self, hhart]) fun hready => ?_
    rw [resumable, modify_self]
    exact hvalid ⟨h, rfl⟩ hready

/-- A loose thread gets another state. A thread that becomes ready counts as out until it is
queued, and an idle thread does not block. -/
theorem setState (hlt : id < s.len) (hloose : Loose s away id)
    (hexited : (f (s.thread id)).state ≠ .exited)
    (hhart : (f (s.thread id)).hart = (s.thread id).hart)
    (hproc : (f (s.thread id)).proc = (s.thread id).proc)
    (hout : ∀ x, out x → out' x) (hready : (f (s.thread id)).state = .ready → out' id)
    (hidle : s.Idle id → (f (s.thread id)).state = .running ∨ (f (s.thread id)).state = .ready ∧
      ((f (s.thread id)).ctxValid || (f (s.thread id)).frameValid) = true) :
    Tidy (s.modify id f) away out' := by
  refine hs.update (hs.wf.setState hlt (fun _ => hloose) hexited hhart hproc) (· = id)
    (fun x hx => .inl hx) hs.few rfl rfl (fun x hx => modify_of_ne hx) (fun _ _ _ _ => rfl)
    (fun x _ ho => hout x ho) (fun x hx _ ho hstate => ?_) fun h heq => ?_
  · subst hx
    rw [modify_self] at hstate
    exact absurd (hready hstate) ho
  · subst heq
    have hthread : (s.modify (s.idle h) f).thread (s.idle h) = f (s.thread (s.idle h)) := modify_self
    have hnew := hidle ⟨h, rfl⟩
    refine ⟨hloose.occ.le.trans (Nat.zero_le 1), fun h' l hin => ?_, ?_, ?_, fun hstate => ?_,
      fun h' heq => ?_⟩
    · have hpos : 0 < s.occ (s.idle h) := occ_pos hin
      rw [hloose.occ] at hpos
      exact absurd hpos (Nat.lt_irrefl 0)
    · exact (congrArg Thread.hart hthread).trans (hhart.trans (hs.idle h).hart)
    · exact (hnew.imp (congrArg Thread.state hthread).trans
        fun hr => (congrArg Thread.state hthread).trans hr.1).symm
    · have hstate' : (f (s.thread (s.idle h))).state = .ready :=
        (congrArg Thread.state hthread).symm.trans hstate
      change (s.modify (s.idle h) f).resumable true (s.idle h) = true
      rw [resumable, hthread]
      refine (hnew.resolve_left fun hrunning => ?_).2
      rw [hrunning] at hstate'
      cases hstate'
    · exact ⟨((hs.idle h).current h' heq).1, fun hnot => absurd (hloose.current h' heq) hnot⟩

end

theorem count_enqueue_of_ne {x : Nat} (hne : x ≠ id) (h : Hart) (l : Prio) :
    ((s.enqueue id).ready h l).count x = (s.ready h l).count x := by
  show ((s.setReady _ _ _).ready h l).count x = _
  by_cases hp : (h, l) = ((s.thread id).hart, s.effPrio id)
  · obtain ⟨rfl, rfl⟩ := Prod.mk.inj hp
    rw [setReady_self, count_snoc, if_neg (Ne.symm hne), Nat.add_zero]
  · rw [setReady_of_ne hp]

section

variable (hs : Tidy s away out)
include hs

/-- A loose thread is queued. -/
theorem enqueue (hlt : id < s.len) (hloose : Loose s away id)
    (hvalid : s.Idle id → s.resumable true id = true) :
    Tidy (s.enqueue id) away fun x => out x ∧ x ≠ id := by
  have hone : (s.enqueue id).occ id = 1 := by rw [occ_enqueue, hloose.occ, if_pos rfl]
  refine hs.update (hs.wf.enqueue hlt fun _ => hloose) (· = id) (fun x hx => .inl hx) hs.few rfl rfl
    (fun x hx => ?_) (fun x hx => count_enqueue_of_ne hx) (fun x hx ho => ⟨ho, hx⟩)
    (fun x hx _ _ _ => ?_) fun h heq => ?_
  · rw [Scheduler.enqueue, modify_of_ne hx]
    rfl
  · subst hx
    omega
  · subst heq
    have hi := hs.idle h
    have hthread := enqueue_self s (s.idle h)
    refine ⟨hone.le, fun h' l hin => ?_, ?_, ?_, fun _ => ?_, fun h' heq => ?_⟩
    · change s.idle h ∈ (s.setReady _ _ _).ready h' l at hin
      refine ⟨congrArg Thread.state hthread, ?_⟩
      by_contra hne
      rw [setReady_of_ne (fun heq => hne ((congrArg Prod.fst heq).trans hi.hart))] at hin
      have hpos := occ_pos hin
      rw [hloose.occ] at hpos
      exact Nat.lt_irrefl 0 hpos
    · exact (congrArg Thread.hart hthread).trans hi.hart
    · exact .inl (congrArg Thread.state hthread)
    · show (s.enqueue (s.idle h)).resumable true (s.idle h) = true
      rw [resumable, hthread]
      exact hvalid ⟨h, rfl⟩
    · exact ⟨(hi.current h' heq).1, fun hnot => absurd (hloose.current h' heq) hnot⟩

/-- A loose thread exits. -/
theorem retire (hlt : id < s.len) (hid : ¬ s.Idle id)
    (hloose : Loose s away id) (hhart : (f (s.thread id)).hart = (s.thread id).hart) :
    Tidy (s.retire id f) away out := by
  refine hs.update (hs.wf.retire hlt hid hloose hhart) (· = id) (fun x hx => .inl hx) hs.few rfl rfl
    (fun x hx => Function.update_of_ne hx _ _) (fun _ _ _ _ => rfl) (fun _ _ ho => ho)
    (fun x hx _ _ hready => ?_) fun h heq => absurd ⟨h, heq⟩ hid
  subst hx
  have hthread : (s.retire x f).thread x =
      { f (s.thread x) with state := .exited, stack := none } := Function.update_self _ _ _
  rw [hthread] at hready
  cases hready

/-- Threads leave the queues, and those that are ready count as out. -/
theorem unlist {ready : Hart → Prio → List Nat}
    (hcount : ∀ x h l, (ready h l).count x ≤ (s.ready h l).count x)
    (hkeep : ∀ x, ¬ out' x → ∀ h l, (ready h l).count x = (s.ready h l).count x)
    (hout : ∀ x, out x → out' x) :
    Tidy { s with ready := ready } away out' := by
  refine ⟨hs.wf.thin rfl rfl rfl rfl hcount rfl fun _ => rfl, hs.few, fun x hlt hx hready => ?_,
    fun h => ?_⟩
  · have hocc : Scheduler.occ { s with ready := ready } x = s.occ x := occ_congr (hkeep x hx)
    rw [hocc]
    exact hs.listed x hlt (fun ho => hx (hout x ho)) hready
  · exact (hs.idle h).mono rfl rfl (hcount _) rfl rfl (hs.idle h).valid

/-! ## Requeuing -/

/-- Different loose threads are queued one after the other. -/
theorem enqueue_all {ids : List Nat} (hnodup : ids.Nodup)
    (hids : ∀ x ∈ ids, x < s.len ∧ ¬ s.Idle x ∧ Loose s away x) :
    Tidy (ids.foldl Scheduler.enqueue s) away fun x => out x ∧ x ∉ ids := by
  induction ids generalizing s out with
  | nil => exact hs.weaken fun x _ ho => ⟨ho, List.not_mem_nil⟩
  | cons a ids ih =>
    obtain ⟨ha, hnodup⟩ := List.nodup_cons.mp hnodup
    obtain ⟨hlt, hid, hloose⟩ := hids a (by simp)
    refine (ih (hs.enqueue hlt hloose fun hidle => absurd hidle hid) hnodup fun x hx => ?_).weaken
      fun x _ ho => ⟨ho.1.1, by simp [ho.1.2, ho.2]⟩
    obtain ⟨hltx, hidx, hx0, hfree, hcurrent⟩ := hids x (by simp [hx])
    have hne : a ≠ x := fun heq => ha (heq ▸ hx)
    exact ⟨hltx, hidx, by rw [occ_enqueue, hx0, if_neg hne], hfree, hcurrent⟩

/-- A list of different threads is no longer than the table. -/
theorem length_le {ids : List Nat} (hnodup : ids.Nodup)
    (hids : ∀ x ∈ ids, x < s.len) : ids.length ≤ maxThreads := by
  have hsub : ids ⊆ List.range s.len := fun x hx => List.mem_range.mpr (hids x hx)
  have hle := (hnodup.subperm hsub).length_le
  rw [List.length_range] at hle
  exact hle.trans hs.few

/-- Queuing the threads of a process anew. -/
theorem requeueProcThreads (proc : Nat) :
    Tidy (s.requeueProcThreads proc) away out := by
  have hmem : ∀ x ∈ s.queues.filter fun id => (s.thread id).proc = some proc,
      x < s.len ∧ (s.thread x).state = .ready ∧ (s.thread x).proc = some proc := by
    intro x hx
    obtain ⟨hin, hproc⟩ := List.mem_filter.mp hx
    have hpos : 0 < s.occ x := count_queues (s := s) ▸ List.count_pos_iff.mpr hin
    obtain ⟨h, l, hq⟩ := mem_ready_of_occ hpos
    obtain ⟨hlt, hready, -⟩ := hs.queued hq
    exact ⟨hlt, hready, by simpa using hproc⟩
  rw [Scheduler.requeueProcThreads]
  generalize hids : (s.queues.filter fun id => (s.thread id).proc = some proc) = ids at hmem ⊢
  have hnodup : ids.Nodup := hids ▸ List.nodup_iff_count_le_one.mpr fun x =>
    (List.filter_sublist.count_le x).trans (count_queues (s := s) ▸ hs.once x)
  rw [List.take_of_length_le (hs.length_le hnodup fun x hx => (hmem x hx).1)]
  -- The threads of the process are taken out of the queues and put back one by one.
  have hrest : Tidy { s with ready := fun h l => (s.ready h l).filter fun id =>
      (s.thread id).proc ≠ some proc } away fun x => out x ∨ x ∈ ids := by
    refine hs.unlist (fun x h l => List.filter_sublist.count_le x) (fun x hx h l => ?_)
      fun x ho => .inl ho
    by_cases hproc : (s.thread x).proc = some proc
    · have hzero : s.occ x = 0 := by
        by_contra hne
        have hin : x ∈ s.queues :=
          List.count_pos_iff.mp (count_queues (s := s) ▸ Nat.pos_of_ne_zero hne)
        exact hx (.inr (hids ▸ List.mem_filter.mpr ⟨hin, by simpa using hproc⟩))
      have hle : (s.ready h l).count x ≤ s.occ x := count_le_occ
      have hsub : ((s.ready h l).filter fun id => (s.thread id).proc ≠ some proc).count x ≤
          (s.ready h l).count x := List.filter_sublist.count_le x
      omega
    · exact List.count_filter (by simpa using hproc)
  refine (hrest.enqueue_all hnodup fun x hx => ?_).weaken
    fun x _ ho => ho.1.resolve_right ho.2
  obtain ⟨hlt, hready, hproc⟩ := hmem x hx
  refine ⟨hlt, fun hidle => ?_, ?_, hs.not_free (by simp [hready]), fun h heq => ?_⟩
  · obtain ⟨h, rfl⟩ := hidle
    have hnone := hs.wf.idle_proc h
    rw [hproc] at hnone
    cases hnone
  · by_contra hne
    obtain ⟨h, l, hin⟩ := mem_ready_of_occ (Nat.pos_of_ne_zero hne)
    have hnot := (List.mem_filter.mp hin).2
    simp only [decide_eq_true_eq] at hnot
    exact hnot hproc
  · by_contra haway
    have hrunning := (hs.current h).2 haway
    rw [show s.current h = x from heq, hready] at hrunning
    cases hrunning

end

theorem requeues : Requeues fun s => Tidy s away out where
  drop _ _ hs := hs.congr (Wf.requeues.drop _ _ hs.wf) rfl rfl rfl rfl rfl
  requeue _ proc hs := hs.requeueProcThreads proc

end Tidy

/-! ## Picking the next thread -/

/-- A round over a queue of ready threads loses none but the one that it finds. -/
theorem scan_count (needCtx : Bool) (n : Nat) {q : List Nat}
    (hq : ∀ x ∈ q, (s.thread x).state = .ready) (x : Nat) :
    (s.scan needCtx n q).2.count x + (if (s.scan needCtx n q).1 = some x then 1 else 0) =
      q.count x := by
  induction n generalizing q with
  | zero => simp [scan]
  | succ n ih =>
    cases q with
    | nil => simp [scan]
    | cons y q =>
      rw [scan, if_neg (by simp [hq y (by simp)])]
      split
      · simp [List.count_cons]
      · rw [ih fun z hz => hq z (by simpa [or_comm] using hz), count_snoc, List.count_cons]
        simp

/-- A round that finds nothing has met no ready thread that can be resumed. -/
theorem scan_none (needCtx : Bool) {n : Nat} {q : List Nat} (hn : n ≤ q.length)
    (hnone : (s.scan needCtx n q).1 = none) (x : Nat) (hx : x ∈ q.take n)
    (hready : (s.thread x).state = .ready) : s.resumable needCtx x = false := by
  induction n generalizing q with
  | zero => simp at hx
  | succ n ih =>
    cases q with
    | nil => simp at hx
    | cons y q =>
      rw [List.length_cons, Nat.succ_le_succ_iff] at hn
      rw [List.take_succ_cons, List.mem_cons] at hx
      rw [scan] at hnone
      split at hnone
      · next hstate =>
        rcases hx with rfl | hx
        · exact absurd hready hstate
        · exact ih hn hnone hx
      · split at hnone
        · cases hnone
        · next hresume =>
          rcases hx with rfl | hx
          · simpa using hresume
          · refine ih (by simp; omega) hnone ?_
            rw [List.take_append_of_le_length hn]
            exact hx

/-- A thread that may become current on a hart. -/
structure Picked (s : Scheduler) (h : Hart) (id : Nat) : Prop where
  lt : id < s.len
  hart : (s.thread id).hart = h
  running : (s.thread id).state = .running

theorem Picked.runnable (hp : Picked s h id) : Runnable s h id :=
  ⟨hp.lt, fun _ => ⟨hp.hart, hp.running⟩⟩

theorem count_setReady {q : List Nat} {x : Nat} (hq : q.count x = (s.ready h l).count x)
    (h' : Hart) (l' : Prio) :
    ((s.setReady h l q).ready h' l').count x = (s.ready h' l').count x := by
  by_cases hp : (h', l') = (h, l)
  · obtain ⟨rfl, rfl⟩ := Prod.mk.inj hp
    rw [setReady_self]
    exact hq
  · rw [setReady_of_ne hp]

theorem count_setReady_le {q : List Nat} {x : Nat} (hq : q.count x ≤ (s.ready h l).count x)
    (h' : Hart) (l' : Prio) :
    ((s.setReady h l q).ready h' l').count x ≤ (s.ready h' l').count x := by
  by_cases hp : (h', l') = (h, l)
  · obtain ⟨rfl, rfl⟩ := Prod.mk.inj hp
    rw [setReady_self]
    exact hq
  · rw [setReady_of_ne hp]

namespace Tidy

/-- A queued thread is taken out of its queue and runs. -/
theorem run {q : List Nat} (hs : Tidy s away out)
    (hq : ∀ x, q.count x + (if some id = some x then 1 else 0) = (s.ready h l).count x) :
    Tidy ((s.setReady h l q).modify id fun t => { t with state := .running }) away out ∧
      Picked ((s.setReady h l q).modify id fun t => { t with state := .running }) h id := by
  have hcount := hq id
  rw [if_pos rfl] at hcount
  have hin : id ∈ s.ready h l := List.count_pos_iff.mp (by omega)
  obtain ⟨hlt, hready, hhart⟩ := hs.queued hin
  have hset : Tidy (s.setReady h l q) away fun x => out x ∨ x = id := by
    refine hs.unlist (fun x => count_setReady_le (by have := hq x; omega)) (fun x hx => ?_)
      fun x ho => .inl ho
    have hne : some id ≠ some x := fun heq => hx (.inr (Option.some.inj heq).symm)
    exact count_setReady (by simpa [hne] using hq x)
  have hloose : Loose (s.setReady h l q) away id := by
    have hocc : (s.setReady h l q).occ id + (s.ready h l).count id = s.occ id + q.count id :=
      occ_setReady
    have honce := hs.once id
    refine ⟨by omega, hs.not_free (by simp [hready]), fun h' heq => ?_⟩
    by_contra haway
    have hrunning := (hs.current h').2 haway
    rw [show s.current h' = id from heq, hready] at hrunning
    cases hrunning
  have hrun := hset.setState hlt hloose (f := fun t => { t with state := .running }) (by simp) rfl rfl
    (fun _ ho => ho) (fun hstate => by cases hstate) fun _ => .inl rfl
  refine ⟨hrun.weaken fun x hx ho => ho.resolve_right fun heq => ?_, hlt, ?_, ?_⟩
  · rw [heq, modify_self] at hx
    cases hx
  · rw [modify_self]
    exact hhart
  · rw [modify_self]

/-- What the search over the levels gives: a thread that may become current, or the certainty that
no queued thread of the levels can be resumed. -/
theorem pickLevels (hs : Tidy s away out) (h : Hart) (needCtx : Bool) (levels : List Prio) :
    Tidy (Scheduler.pickLevels h needCtx levels s).2 away out ∧
    (∀ x, (Scheduler.pickLevels h needCtx levels s).1 = some x →
      Picked (Scheduler.pickLevels h needCtx levels s).2 h x) ∧
    ((Scheduler.pickLevels h needCtx levels s).1 = none →
      (Scheduler.pickLevels h needCtx levels s).2.thread = s.thread ∧
      ∀ l ∈ levels, ∀ x ∈ s.ready h l, s.resumable needCtx x = false) := by
  induction levels generalizing s with
  | nil => exact ⟨hs, fun x hx => (by cases hx), fun _ => ⟨rfl, fun l hl => by simp at hl⟩⟩
  | cons l levels ih =>
    have hready : ∀ x ∈ s.ready h l, (s.thread x).state = .ready := fun x hx => (hs.queued hx).2.1
    have hcount := scan_count needCtx (s.ready h l).length hready
    have hnone := scan_none (s := s) needCtx (le_refl (s.ready h l).length)
    rw [Scheduler.pickLevels]
    rcases hscan : s.scan needCtx (s.ready h l).length (s.ready h l) with ⟨_ | id, q⟩
    · rw [hscan] at hcount hnone
      have hsame : ∀ x, q.count x = (s.ready h l).count x := fun x => by simpa using hcount x
      have hset : Tidy (s.setReady h l q) away out :=
        hs.unlist (fun x => count_setReady_le (hsame x).le) (fun x _ => count_setReady (hsame x))
          fun _ ho => ho
      obtain ⟨htidy, hpicked, hrest⟩ := ih hset
      refine ⟨htidy, hpicked, fun hn => ⟨(hrest hn).1, fun l' hl x hx => ?_⟩⟩
      rcases List.mem_cons.mp hl with rfl | hl
      · exact hnone rfl x (by simpa using hx) (hready x hx)
      · refine (hrest hn).2 l' hl x (List.count_pos_iff.mp ?_)
        rw [count_setReady (hsame x)]
        exact List.count_pos_iff.mpr hx
    · rw [hscan] at hcount
      obtain ⟨htidy, hpicked⟩ := hs.run hcount
      refine ⟨htidy, fun x hx => ?_, fun hn => by cases hn⟩
      cases hx
      exact hpicked

/-- The thread that is picked may become current, provided that an idle thread that is queued is
found there or is not needed. -/
theorem pickNext (hs : Tidy s away fun _ => False) (h : Hart) (needCtx : Bool)
    (hfall : (s.thread (s.idle h)).state = .ready → needCtx = true ∨
      ∃ l, ∃ x ∈ s.ready h l, s.resumable needCtx x = true) :
    Tidy (s.pickNext h needCtx).2 away (fun _ => False) ∧
      Picked (s.pickNext h needCtx).2 h (s.pickNext h needCtx).1 := by
  obtain ⟨htidy, hpicked, hnone⟩ := hs.pickLevels h needCtx (List.finRange prioLevels)
  have hplan := pickLevels_plan s h needCtx (List.finRange prioLevels)
  rw [Scheduler.pickNext]
  rcases hpick : Scheduler.pickLevels h needCtx (List.finRange prioLevels) s with ⟨_ | id, s'⟩
  · rw [hpick] at htidy hnone hplan
    obtain ⟨hthread, hunfit⟩ := hnone rfl
    refine ⟨htidy, ?_⟩
    show Picked s' h (if (s'.thread (s'.current h)).state ≠ .running then _ else _)
    split
    · -- The fallback: the idle thread is running, for otherwise the search had found a thread.
      have hi := htidy.idle h
      refine ⟨htidy.wf.idle_lt h, hi.hart, hi.state.resolve_left fun hready => ?_⟩
      rw [hthread, hplan.idle] at hready
      have hpos := hs.listed _ (hs.wf.idle_lt h) not_false hready
      obtain ⟨h', l, hin⟩ := mem_ready_of_occ hpos
      obtain ⟨-, rfl⟩ := (hs.idle h).queued h' l hin
      rcases hfall hready with rfl | ⟨l', x, hx, hresume⟩
      · have hvalid := (hs.idle h').valid hready
        rw [hunfit l (List.mem_finRange l) _ hin] at hvalid
        cases hvalid
      · rw [hunfit l' (List.mem_finRange l') x hx] at hresume
        cases hresume
    · next hrunning =>
      exact ⟨htidy.wf.current_lt h, (htidy.current h).1, not_not.mp hrunning⟩
  · rw [hpick] at htidy hpicked
    exact ⟨htidy, hpicked id rfl⟩

/-- A hart takes up a thread. -/
theorem setCurrent (hs : Tidy s away out) (hp : Picked s h id) :
    Tidy (s.setCurrent h id) (fun x => away x ∧ x ≠ h) out := by
  refine { hs with wf := hs.wf.setCurrent hp.runnable, idle := fun h' => ?_ }
  have hi := hs.idle h'
  refine { hi with current := fun x heq => ?_ }
  by_cases hx : x = h
  · subst hx
    change Function.update s.current x id x = s.idle h' at heq
    rw [Function.update_self] at heq
    subst heq
    exact ⟨hp.hart.symm.trans hi.hart, fun _ => hp.running⟩
  · change Function.update s.current h id x = s.idle h' at heq
    rw [Function.update_of_ne hx] at heq
    exact ⟨(hi.current x heq).1, fun hnot => (hi.current x heq).2 fun haway => hnot ⟨haway, hx⟩⟩

/-- The hart that was away takes up a thread: nobody is away any more. -/
theorem back (hs : Tidy s (· = h) out) (hp : Picked s h id) :
    Tidy (s.setCurrent h id) (fun _ => False) out :=
  (hs.setCurrent hp).leave fun _ hx => hx.2 hx.1

theorem dispatch (hs : Tidy s (· = h) fun _ => False) :
    Tidy (s.dispatch h).2 (fun _ => False) fun _ => False := by
  obtain ⟨htidy, hp⟩ := (hs.resetTicks (h := h)).pickNext h true fun _ => .inl rfl
  exact htidy.back hp

end Tidy

end Parts

end Ignium.Sched
