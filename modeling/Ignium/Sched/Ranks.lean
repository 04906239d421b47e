import Ignium.Sched.Wakeups

/-!
# Queues and donated priorities

A thread is queued at its effective priority, the best of its own priority and of what is donated to
its process. Donations come and go while threads are queued, so every change of the table has to
queue the threads anew whose priority it changes. `Ranked s₀ stale s` says that every queued thread
has the right level, threads of processes that are `stale` apart, and that the donations and the
free slots are those of `s₀`. The sections that leave donations alone keep it; dropping donations
makes their peers stale, and queuing a process anew makes it current (`Ranked.requeue`).

`registerDonation` queues only the new peer anew. If it replaces a donation to another process, the
threads of that process stay where they are: `Ranked.registerDonation` needs that there is none.
-/

namespace Ignium.Sched

open Scheduler

/-- Queued threads have the level of their effective priority, and the donations and the free slots
are those of `s₀`. -/
structure Ranked (s₀ : Scheduler) (stale : Nat → Prop) (s : Scheduler) : Prop where
  donations : s.donations = s₀.donations
  freeSlots : s.freeSlots = s₀.freeSlots
  levels : ∀ h l id, id ∈ s.ready h l → (∀ p, (s.thread id).proc = some p → ¬ stale p) →
    l = s.effPrio id

section Ranks

variable {s s' s₀ : Scheduler} {stale : Nat → Prop} {b : Boot} {h : Hart} {l : Prio} {id proc : Nat}
  {f : Thread → Thread}

/-! ## Effective priorities -/

/-- The effective priority depends on the donations to the process only. -/
theorem foldl_donations (proc : Nat) (donations : List Donation) (p : Prio) :
    donations.foldl (fun p d => if d.peerProc = proc ∧ d.prio < p then d.prio else p) p =
      (donations.filter fun d => d.peerProc = proc).foldl
        (fun p d => if d.peerProc = proc ∧ d.prio < p then d.prio else p) p := by
  induction donations generalizing p with
  | nil => rfl
  | cons d donations ih =>
    by_cases hpeer : d.peerProc = proc
    · rw [List.filter_cons_of_pos (by simpa using hpeer), List.foldl_cons, List.foldl_cons, ih]
    · rw [List.filter_cons_of_neg (by simpa using hpeer), List.foldl_cons, ih,
        if_neg fun hboth => hpeer hboth.1]

/-- A bound on a priority with what is donated. -/
theorem le_foldl_donations (proc : Nat) (donations : List Donation) (x p : Prio) :
    x ≤ donations.foldl (fun p d => if d.peerProc = proc ∧ d.prio < p then d.prio else p) p ↔
      x ≤ p ∧ ∀ d ∈ donations, d.peerProc = proc → x ≤ d.prio := by
  induction donations generalizing p with
  | nil => simp
  | cons d donations ih =>
    rw [List.foldl_cons, ih, List.forall_mem_cons]
    split
    · next hlower =>
      constructor
      · rintro ⟨hd, hrest⟩
        exact ⟨hd.trans hlower.2.le, fun _ => hd, hrest⟩
      · rintro ⟨-, hd, hrest⟩
        exact ⟨hd hlower.1, hrest⟩
    · next hhigher =>
      constructor
      · rintro ⟨hp, hrest⟩
        exact ⟨hp, fun hpeer => hp.trans (not_lt.mp fun hlt => hhigher ⟨hpeer, hlt⟩), hrest⟩
      · rintro ⟨hp, -, hrest⟩
        exact ⟨hp, hrest⟩

/-- The effective priority is the best of the own one and those that are donated. -/
theorem le_effPrio_iff {x : Prio} : x ≤ s.effPrio id ↔
    x ≤ (s.thread id).prio ∧
      ∀ d ∈ s.donations, (s.thread id).proc = some d.peerProc → x ≤ d.prio := by
  unfold effPrio
  cases hproc : (s.thread id).proc with
  | none => simp
  | some proc =>
    dsimp only
    rw [le_foldl_donations]
    simp only [Option.some.injEq, eq_comm]

theorem effPrio_congr (hprio : (s'.thread id).prio = (s.thread id).prio)
    (hproc : (s'.thread id).proc = (s.thread id).proc)
    (hdonations : ∀ p, (s.thread id).proc = some p →
      s'.donations.filter (fun d => d.peerProc = p) = s.donations.filter fun d => d.peerProc = p) :
    s'.effPrio id = s.effPrio id := by
  unfold effPrio
  rw [hprio, hproc]
  split
  · rfl
  · next p hp => rw [foldl_donations, hdonations p hp, ← foldl_donations]

namespace Ranked

/-- What is already in order. -/
theorem start (hs : ∀ h l id, id ∈ s.ready h l → l = s.effPrio id) :
    Ranked s (fun _ => False) s :=
  ⟨rfl, rfl, fun h l id hin _ => hs h l id hin⟩

/-- Without stale processes every queued thread has its level. -/
theorem level (hs : Ranked s₀ (fun _ => False) s) :
    ∀ h l, ∀ id ∈ s.ready h l, l = s.effPrio id :=
  fun h l id hin => hs.levels h l id hin fun _ _ hfalse => hfalse

section

variable (hs : Ranked s₀ stale s)
include hs

/-- Threads leave queues, and nothing changes that the priority depends on. -/
theorem update (hdonations : s'.donations = s.donations) (hfree : s'.freeSlots = s.freeSlots)
    (hsame : ∀ id, (s'.thread id).prio = (s.thread id).prio ∧
      (s'.thread id).proc = (s.thread id).proc)
    (hready : ∀ h l id, id ∈ s'.ready h l → id ∈ s.ready h l) : Ranked s₀ stale s' := by
  refine ⟨hdonations.trans hs.donations, hfree.trans hs.freeSlots, fun h l id hin hstale => ?_⟩
  rw [effPrio_congr (hsame id).1 (hsame id).2 fun p _ => by rw [hdonations]]
  exact hs.levels h l id (hready h l id hin) fun p hp => hstale p ((hsame id).2.trans hp)

theorem modify (hf : ∀ t, (f t).prio = t.prio ∧ (f t).proc = t.proc) :
    Ranked s₀ stale (s.modify id f) := by
  refine hs.update rfl rfl (fun x => ?_) fun _ _ _ hin => hin
  by_cases hx : x = id
  · subst hx
    rw [modify_self]
    exact hf _
  · rw [modify_of_ne hx]
    exact ⟨rfl, rfl⟩

theorem enqueue (id : Nat) : Ranked s₀ stale (s.enqueue id) := by
  have hsame : ∀ x, ((s.enqueue id).thread x).prio = (s.thread x).prio ∧
      ((s.enqueue id).thread x).proc = (s.thread x).proc := by
    intro x
    by_cases hx : x = id
    · subst hx
      rw [enqueue_self]
      exact ⟨rfl, rfl⟩
    · rw [enqueue_of_ne s hx]
      exact ⟨rfl, rfl⟩
  refine ⟨hs.donations, hs.freeSlots, fun h l x hin hstale => ?_⟩
  rw [effPrio_congr (hsame x).1 (hsame x).2 fun p _ => rfl]
  change x ∈ (s.setReady (s.thread id).hart (s.effPrio id) _).ready h l at hin
  by_cases hat : (h, l) = ((s.thread id).hart, s.effPrio id)
  · obtain ⟨rfl, rfl⟩ := Prod.mk.inj hat
    rw [setReady_self, List.mem_append, List.mem_singleton] at hin
    rcases hin with hold | rfl
    · exact hs.levels _ _ x hold fun p hp => hstale p ((hsame x).2.trans hp)
    · rfl
  · rw [setReady_of_ne hat] at hin
    exact hs.levels h l x hin fun p hp => hstale p ((hsame x).2.trans hp)

theorem setReady {q : List Nat} (hq : ∀ x ∈ q, x ∈ s.ready h l) :
    Ranked s₀ stale (s.setReady h l q) := by
  refine hs.update rfl rfl (fun _ => ⟨rfl, rfl⟩) fun h' l' x hin => ?_
  by_cases hat : (h', l') = (h, l)
  · obtain ⟨rfl, rfl⟩ := Prod.mk.inj hat
    rw [setReady_self] at hin
    exact hq x hin
  · rwa [setReady_of_ne hat] at hin

theorem removeFromReady (id : Nat) :
    Ranked s₀ stale (s.removeFromReady id) := by
  rw [Scheduler.removeFromReady]
  split
  · exact hs.setReady fun x hx => List.mem_of_mem_erase hx
  · exact hs

theorem setCurrent (h : Hart) (id : Nat) :
    Ranked s₀ stale (s.setCurrent h id) :=
  hs.update rfl rfl (fun _ => ⟨rfl, rfl⟩) fun _ _ _ hin => hin

theorem resetTicks (h : Hart) : Ranked s₀ stale (s.resetTicks h) :=
  hs.update rfl rfl (fun _ => ⟨rfl, rfl⟩) fun _ _ _ hin => hin

theorem pickLevels (h : Hart) (needCtx : Bool) (levels : List Prio) :
    Ranked s₀ stale (Scheduler.pickLevels h needCtx levels s).2 := by
  induction levels generalizing s with
  | nil => exact hs
  | cons l levels ih =>
    have hcount := (scan_spec (s := s) needCtx (s.ready h l).length (s.ready h l)).1
    rw [Scheduler.pickLevels]
    rcases hscan : s.scan needCtx (s.ready h l).length (s.ready h l) with ⟨found, q⟩
    rw [hscan] at hcount
    have hset : Ranked s₀ stale (s.setReady h l q) := hs.setReady fun x hx => by
      have hle : q.count x ≤ (s.ready h l).count x := le_trans (Nat.le_add_right _ _) (hcount x)
      exact List.count_pos_iff.mp (lt_of_lt_of_le (List.count_pos_iff.mpr hx) hle)
    cases found with
    | none => exact ih hset
    | some id =>
      dsimp only
      exact hset.modify fun _ => ⟨rfl, rfl⟩

theorem pickNext (h : Hart) (needCtx : Bool) :
    Ranked s₀ stale (s.pickNext h needCtx).2 := by
  have hpicked := hs.pickLevels h needCtx (List.finRange prioLevels)
  rw [Scheduler.pickNext]
  rcases hpick : Scheduler.pickLevels h needCtx (List.finRange prioLevels) s with ⟨_ | id, s'⟩
  · rwa [hpick] at hpicked
  · rwa [hpick] at hpicked

theorem dispatch (h : Hart) : Ranked s₀ stale (s.dispatch h).2 :=
  ((hs.resetTicks h).pickNext h true).setCurrent h _

theorem resumeFrame (h : Hart) (id : Nat) :
    Ranked s₀ stale (s.resumeFrame b h id) := by
  unfold Scheduler.resumeFrame
  dsimp only
  split
  · exact hs.setCurrent h id
  · exact (hs.setCurrent h id).modify fun _ => ⟨rfl, rfl⟩

/-! ## Queuing processes anew -/

theorem enqueue_all (ids : List Nat) :
    Ranked s₀ stale (ids.foldl Scheduler.enqueue s) :=
  List.foldlRecOn _ _ hs fun _ h id _ => h.enqueue id

/-- A process that is queued anew is no more stale. -/
theorem requeue (proc : Nat) :
    Ranked s₀ (fun p => stale p ∧ p ≠ proc) (s.requeueProcThreads proc) := by
  have hrest : Ranked s₀ (fun p => stale p ∧ p ≠ proc)
      { s with ready := fun h l => (s.ready h l).filter fun id =>
        (s.thread id).proc ≠ some proc } := by
    refine ⟨hs.donations, hs.freeSlots, fun h l id hin hstale => ?_⟩
    obtain ⟨hin, hproc⟩ := List.mem_filter.mp hin
    refine hs.levels h l id hin fun p hp hold => hstale p hp ⟨hold, ?_⟩
    rintro rfl
    simp [hp] at hproc
  exact hrest.enqueue_all _

theorem weaken {stale' : Nat → Prop} (himp : ∀ p, stale p → stale' p) :
    Ranked s₀ stale' s :=
  ⟨hs.donations, hs.freeSlots, fun h l id hin hstale =>
    hs.levels h l id hin fun p hp hold => hstale p hp (himp p hold)⟩

theorem requeue_all (procs : List Nat) :
    Ranked s₀ (fun p => stale p ∧ p ∉ procs) (procs.foldl requeueProcThreads s) := by
  induction procs generalizing s stale with
  | nil => exact hs.weaken fun p hp => ⟨hp, List.not_mem_nil⟩
  | cons proc procs ih =>
    refine (ih (hs.requeue proc)).weaken fun p ⟨⟨hold, hne⟩, hnot⟩ => ⟨hold, ?_⟩
    exact fun hin => (List.mem_cons.mp hin).elim hne hnot

end

/-- Dropping donations makes their peers stale. -/
theorem drop (hs : Ranked s₀ (fun _ => False) s) (p : Donation → Bool) :
    Ranked { s₀ with donations := s₀.donations.filter fun d => !p d }
      (fun q => ∃ d ∈ s₀.donations, p d = true ∧ d.peerProc = q)
      { s with donations := s.donations.filter fun d => !p d } := by
  refine ⟨by rw [hs.donations], hs.freeSlots, fun h l id hin hstale => ?_⟩
  have hsame : Scheduler.effPrio { s with donations := s.donations.filter fun d => !p d } id =
      s.effPrio id := by
    refine effPrio_congr rfl rfl fun q hq => ?_
    change (s.donations.filter fun d => !p d).filter (fun d => d.peerProc = q) = _
    rw [hs.donations, List.filter_filter]
    refine List.filter_congr fun d hd => ?_
    by_cases hpeer : d.peerProc = q
    · have hkept : p d = false := by
        by_contra hdropped
        exact hstale q hq ⟨d, hd, by simpa using hdropped, hpeer⟩
      simp [hpeer, hkept]
    · simp [hpeer]
  rw [hsame]
  exact hs.level h l id hin

end Ranked

theorem length_eraseDups_le (l : List Nat) : l.eraseDups.length ≤ l.length := by
  induction hn : l.length using Nat.strong_induction_on generalizing l with
  | _ n ih =>
    cases l with
    | nil => simp
    | cons a l =>
      rw [List.eraseDups_cons, List.length_cons]
      have hle : (l.filter fun x => !x == a).length ≤ l.length := List.length_filter_le _ _
      have hlt : (l.filter fun x => !x == a).length < n := by
        rw [← hn, List.length_cons]
        omega
      have hrest := ih _ hlt _ rfl
      rw [List.length_cons] at hn
      omega

/-- The table is not longer than the list of affected processes can be. -/
theorem mem_affected {p : Donation → Bool} {key : Donation → Nat} {q : Nat}
    (hlen : s.donations.length ≤ maxThreads) :
    q ∈ (s.dropDonations p key).1 ↔ ∃ d ∈ s.donations, p d = true ∧ key d = q := by
  have hshort : ((s.donations.filter p).map key).eraseDups.length ≤ maxThreads := by
    refine (length_eraseDups_le _).trans (le_trans ?_ hlen)
    rw [List.length_map]
    exact List.length_filter_le _ _
  simp only [dropDonations, List.take_of_length_le hshort, List.mem_eraseDups, List.mem_map,
    List.mem_filter, and_assoc]

/-- No thread of a process is queued. -/
def Absent (s : Scheduler) (pid : Nat) : Prop :=
  ∀ h l id, id ∈ s.ready h l → (s.thread id).proc ≠ some pid

theorem absent_requeues (pid : Nat) : Requeues fun s => Absent s pid where
  drop _ _ hs := hs
  requeue s proc hs := by
    have hall : ∀ ids : List Nat, (∀ id ∈ ids, (s.thread id).proc ≠ some pid) → ∀ t : Scheduler,
        Absent t pid ∧ (∀ x, (t.thread x).proc = (s.thread x).proc) →
        Absent (ids.foldl Scheduler.enqueue t) pid := by
      intro ids hids t ht
      refine (List.foldlRecOn (motive := fun t => Absent t pid ∧
        ∀ x, (t.thread x).proc = (s.thread x).proc) ids _ ht fun t ⟨habsent, hproc⟩ id hid => ?_).1
      have hsame : ∀ x, ((t.enqueue id).thread x).proc = (s.thread x).proc := by
        intro x
        by_cases hx : x = id
        · rw [hx, enqueue_self]
          exact hproc id
        · rw [enqueue_of_ne t hx]
          exact hproc x
      refine ⟨fun h l x hin => ?_, hsame⟩
      rw [hsame]
      rcases mem_enqueue hin with rfl | hold
      · exact hids x hid
      · exact hproc x ▸ habsent h l x hold
    refine hall _ (fun id hid => ?_) _ ⟨fun h l id hin => ?_, fun _ => rfl⟩
    · obtain ⟨hin, -⟩ := List.mem_filter.mp (List.mem_of_mem_take hid)
      have hpos : 0 < s.occ id := count_queues (s := s) ▸ List.count_pos_iff.mpr hin
      obtain ⟨h, l, hin⟩ := mem_ready_of_occ hpos
      exact hs h l id hin
    · exact hs h l id (List.mem_of_mem_filter hin)

namespace Ranked

/-- A stale process without queued threads does not count. -/
theorem of_absent (hs : Ranked s₀ stale s) (habsent : ∀ p, stale p → Absent s p) :
    Ranked s₀ (fun _ => False) s :=
  ⟨hs.donations, hs.freeSlots, fun h l id hin _ =>
    hs.levels h l id hin fun p hp hstale => habsent p hstale h l id hin hp⟩

section

variable (hs : Ranked s₀ (fun _ => False) s)
include hs

theorem requeue_fresh (proc : Nat) :
    Ranked s₀ (fun _ => False) (s.requeueProcThreads proc) :=
  (hs.requeue proc).weaken fun _ hp => hp.1

/-! ## The donation table -/

theorem revokeDonations (hlen : s.donations.length ≤ maxThreads) (tid : Nat) :
    Ranked { s₀ with donations := s₀.donations.filter fun d => !decide (d.donorTid = tid) }
      (fun _ => False) (s.revokeDonations tid) := by
  refine ((hs.drop fun d => decide (d.donorTid = tid)).requeue_all
    (s.dropDonations (fun d => d.donorTid = tid) Donation.peerProc).1).weaken ?_
  rintro q ⟨hdropped, hnot⟩
  rw [← hs.donations] at hdropped
  exact hnot ((mem_affected hlen).mpr hdropped)

theorem revokeDonationsForProc (habsent : Absent s proc) :
    Ranked { s₀ with donations := s₀.donations.filter fun d => !decide (d.peerProc = proc) }
      (fun _ => False) (s.revokeDonationsForProc proc) := by
  have hdropped := (hs.drop fun d => decide (d.peerProc = proc)).of_absent (by
    rintro q ⟨d, -, hpeer, rfl⟩
    rw [of_decide_eq_true hpeer]
    exact habsent)
  refine List.foldlRecOn _ _ hdropped fun t ht tid _ => ?_
  split
  · split
    · exact ht.requeue_fresh _
    · exact ht
  · exact ht

theorem revokeDonationsOf (habsent : Absent s proc)
    (hlen : s.donations.length ≤ maxThreads) (tids : List Nat) :
    Ranked { s₀ with donations := s₀.donations.filter fun d => !decide (d.donorTid ∈ tids) }
      (fun _ => False) (s.revokeDonationsOf tids (some proc)) := by
  have hskip : ∀ (procs : List Nat) {s₀ : Scheduler} {stale : Nat → Prop} {s : Scheduler},
      Ranked s₀ stale s → Ranked s₀ (fun p => stale p ∧ (p ∉ procs ∨ p = proc))
        (procs.foldl (fun s q => if some q ≠ some proc then s.requeueProcThreads q else s) s) := by
    intro procs
    induction procs with
    | nil => exact fun hs => hs.weaken fun p hp => ⟨hp, .inl List.not_mem_nil⟩
    | cons q procs ih =>
      intro s₀ stale s hs
      rw [List.foldl_cons]
      split
      · refine (ih (hs.requeue q)).weaken fun p ⟨⟨hold, hne⟩, hrest⟩ => ⟨hold, ?_⟩
        rcases hrest with hnot | heq
        · exact .inl fun hin => (List.mem_cons.mp hin).elim hne hnot
        · exact .inr heq
      · next hq =>
        refine (ih hs).weaken fun p ⟨hold, hrest⟩ => ⟨hold, ?_⟩
        rcases hrest with hnot | heq
        · by_cases hpq : p = q
          · exact .inr (hpq.trans (Option.some.inj (not_not.mp hq)))
          · exact .inl fun hin => (List.mem_cons.mp hin).elim hpq hnot
        · exact .inr heq
  have hdone := hskip (s.dropDonations (fun d => d.donorTid ∈ tids) Donation.peerProc).1
    (hs.drop fun d => decide (d.donorTid ∈ tids))
  refine hdone.of_absent ?_
  rintro q ⟨hdropped, hnot | rfl⟩
  · rw [← hs.donations] at hdropped
    exact absurd ((mem_affected hlen).mpr hdropped) hnot
  · exact (absent_requeues q).revokeDonationsOf habsent tids (some q)

end

end Ranked

/-- The table after a donation was entered or renewed. -/
def entered (donations : List Donation) (d : Donation) : List Donation :=
  match donations.findIdx? fun d' => d'.donorTid = d.donorTid with
  | some i => donations.set i d
  | none => if donations.length < maxDonations then donations ++ [d] else donations

theorem registerDonation_eq (s : Scheduler) (tid peer : Nat) :
    s.registerDonation tid peer =
      { s with donations := entered s.donations ⟨tid, peer, s.effPrio tid⟩ }.requeueProcThreads peer :=
  rfl

section Entered

variable {donations : List Donation} {d d' : Donation}

theorem mem_entered (hin : d' ∈ entered donations d) : d' ∈ donations ∨ d' = d := by
  unfold entered at hin
  split at hin
  · exact List.mem_or_eq_of_mem_set hin
  · split at hin
    · simpa using hin
    · exact .inl hin

/-- The donors stay different. -/
theorem nodup_entered (hnodup : (donations.map Donation.donorTid).Nodup) :
    ((entered donations d).map Donation.donorTid).Nodup := by
  unfold entered
  split
  · next i hfind =>
    obtain ⟨hlt, hdonor, -⟩ := List.findIdx?_eq_some_iff_getElem.mp hfind
    have hsame : (donations.set i d).map Donation.donorTid = donations.map Donation.donorTid := by
      have hlt' : i < (donations.map Donation.donorTid).length := by rwa [List.length_map]
      have hat : (donations.map Donation.donorTid)[i] = d.donorTid := by
        rw [List.getElem_map]
        exact of_decide_eq_true hdonor
      rw [List.map_set, ← hat, List.set_getElem_self]
    rwa [hsame]
  · next hfind =>
    split
    · rw [List.map_append, List.nodup_append]
      refine ⟨hnodup, List.nodup_singleton _, ?_⟩
      rintro a ha b hb rfl
      obtain ⟨d', hd', rfl⟩ := List.mem_map.mp ha
      have hnone := List.findIdx?_eq_none_iff.mp hfind d' hd'
      simp only [List.map_cons, List.map_nil, List.mem_singleton] at hb
      simp [hb] at hnone
    · exact hnodup

theorem length_entered (hlen : donations.length ≤ maxDonations) :
    (entered donations d).length ≤ maxDonations := by
  unfold entered
  split
  · rwa [List.length_set]
  · split
    · rw [List.length_append, List.length_singleton]
      omega
    · exact hlen

/-- Renewing a donation to the same process, or entering the first one, changes the priority of
that process only. -/
theorem filter_entered {q : Nat} (hown : ∀ d' ∈ donations, d'.donorTid = d.donorTid →
      d'.peerProc = d.peerProc) (hne : q ≠ d.peerProc) :
    (entered donations d).filter (fun d => d.peerProc = q) =
      donations.filter fun d => d.peerProc = q := by
  have hnew : decide (d.peerProc = q) = false := by simpa using hne.symm
  unfold entered
  split
  · next i hfind =>
    obtain ⟨hlt, hdonor, -⟩ := List.findIdx?_eq_some_iff_getElem.mp hfind
    have hold : decide ((donations[i]).peerProc = q) = false := by
      rw [hown _ (List.getElem_mem hlt) (of_decide_eq_true hdonor)]
      exact hnew
    have hsplit : donations = donations.take i ++ donations[i] :: donations.drop (i + 1) := by
      rw [List.getElem_cons_drop, List.take_append_drop]
    rw [List.set_eq_take_append_cons_drop, if_pos hlt, List.filter_append,
      List.filter_cons_of_neg (by simpa using hnew)]
    conv_rhs => rw [hsplit]
    rw [List.filter_append, List.filter_cons_of_neg (by simpa using hold)]
  · split
    · rw [List.filter_append, List.filter_cons_of_neg (by simpa using hnew)]
      simp
    · rfl

end Entered

/-- A thread that donates to no other process registers a donation. -/
theorem Ranked.registerDonation {tid peer : Nat} (hs : Ranked s₀ (fun _ => False) s)
    (hown : ∀ d ∈ s.donations, d.donorTid = tid → d.peerProc = peer) :
    Ranked { s₀ with donations := entered s₀.donations ⟨tid, peer, s.effPrio tid⟩ } (fun _ => False)
      (s.registerDonation tid peer) := by
  rw [registerDonation_eq, ← hs.donations]
  have hentered : Ranked { s₀ with donations := entered s.donations ⟨tid, peer, s.effPrio tid⟩ }
      (· = peer) { s with donations := entered s.donations ⟨tid, peer, s.effPrio tid⟩ } := by
    refine ⟨rfl, hs.freeSlots, fun h l id hin hstale => ?_⟩
    rw [hs.level h l id hin]
    refine Eq.symm (effPrio_congr ?_ ?_ fun q hq => ?_)
    · rfl
    · rfl
    · exact filter_entered hown (hstale q hq)
  exact (hentered.requeue peer).weaken fun p ⟨heq, hne⟩ => hne heq

/-! ## The sections -/

namespace Ranked

section

variable (hs : Ranked s₀ stale s)
include hs

theorem yield (h : Hart) : Ranked s₀ stale (s.yield h).2 := by
  have hsaved : Ranked s₀ stale (s.modify (s.current h) fun t =>
      { t with frameValid := false, ctxValid := true }) := hs.modify fun _ => ⟨rfl, rfl⟩
  have hdrained : Ranked s₀ stale { s.modify (s.current h) fun t =>
      { t with frameValid := false, ctxValid := true } with reaper := [] } :=
    hsaved.update rfl rfl (fun _ => ⟨rfl, rfl⟩) fun _ _ _ hin => hin
  exact (hdrained.enqueue _).dispatch h

theorem blockResumed (h : Hart) : Ranked s₀ stale (s.blockResumed h) := by
  unfold Scheduler.blockResumed
  exact Ranked.modify (hs.removeFromReady _) fun _ => ⟨rfl, rfl⟩

theorem wake (id : Nat) : Ranked s₀ stale (s.wake id) := by
  unfold Scheduler.wake
  dsimp only
  split
  · have hwoken : Ranked s₀ stale (s.modify id fun t => { t with woken := true }) :=
      hs.modify fun _ => ⟨rfl, rfl⟩
    split
    · exact hwoken.enqueue id
    · exact hwoken
  · exact hs

theorem preempt (frame : TrapFrame) (h : Hart) :
    Ranked s₀ stale (s.preempt b frame h).2 := by
  have hqueued : Ranked s₀ stale (interrupted (s.resetTicks h) frame h) := by
    refine Ranked.enqueue (Ranked.modify (hs.resetTicks h) ?_) _
    exact fun _ => ⟨rfl, rfl⟩
  have hpicked := hqueued.pickNext h false
  refine preempt_rule (P := Ranked s₀ stale) (hs.resetTicks h) (fun s₁ hpick => ?_)
    fun next s₁ hpick => ?_
  · rw [hpick] at hpicked
    exact (hpicked.removeFromReady _).modify fun _ => ⟨rfl, rfl⟩
  · rw [hpick] at hpicked
    exact hpicked.resumeFrame h _

theorem onTick (frame : TrapFrame) (h : Hart) :
    Ranked s₀ stale (s.onTick b frame h).2 := by
  refine onTick_rule (P := Ranked s₀ stale) ?_ fun hticked => preempt hticked frame h
  exact hs.update rfl rfl (fun _ => ⟨rfl, rfl⟩) fun _ _ _ hin => hin

theorem setAffinity {hart : Nat} (hstep : s.setAffinity id hart = some s') :
    Ranked s₀ stale s' := by
  rw [Scheduler.setAffinity] at hstep
  split at hstep
  · split at hstep
    · split at hstep
      · cases hstep
        refine Ranked.enqueue (Ranked.modify (hs.removeFromReady id) ?_) id
        exact fun _ => ⟨rfl, rfl⟩
      · cases hstep
        exact hs
    · cases hstep
      exact hs.modify fun _ => ⟨rfl, rfl⟩
    · cases hstep
  · cases hstep

theorem secondaryIdle (h : Hart) :
    Ranked s₀ stale (s.secondaryIdle h).2 := by
  have hpicked := (hs.resetTicks h).pickNext h true
  unfold Scheduler.secondaryIdle
  dsimp only
  split
  · exact hpicked
  · exact hpicked.setCurrent h _

end

end Ranked

/-- The section changes neither the donations nor the free slots. -/
def SchedOp.plain : SchedOp → Bool
  | .onTick .. | .yield _ | .blockResumed _ | .wake _ | .setAffinity .. | .secondaryIdle _
  | .threadEntry _ | .takeIpcMsg _ | .drainReaper => true
  | _ => false

theorem Ranked.plain {op : SchedOp} (hs : Ranked s₀ stale s) (hop : op.plain = true)
    (hstep : s.step b op = some s') : Ranked s₀ stale s' := by
  cases op with
  | onTick h frame =>
    cases hstep
    exact hs.onTick frame h
  | yield h =>
    cases hstep
    exact hs.yield h
  | blockResumed h =>
    cases hstep
    exact hs.blockResumed h
  | wake id =>
    cases hstep
    exact hs.wake id
  | setAffinity id hart => exact hs.setAffinity hstep
  | secondaryIdle h =>
    obtain ⟨-, ⟨⟩⟩ := Option.ite_none_right_eq_some.mp hstep
    exact hs.secondaryIdle h
  | threadEntry h =>
    cases hstep
    exact hs.modify fun _ => ⟨rfl, rfl⟩
  | takeIpcMsg h =>
    cases hstep
    unfold Scheduler.takeIpcMsg
    dsimp only
    exact hs.modify fun _ => ⟨rfl, rfl⟩
  | drainReaper =>
    cases hstep
    exact hs.update rfl rfl (fun _ => ⟨rfl, rfl⟩) fun _ _ _ hin => hin
  | _ => cases hop

/-- The scheduler without the donations of a thread. -/
def Scheduler.without (s : Scheduler) (tid : Nat) : Scheduler :=
  { s with donations := s.donations.filter fun d => !decide (d.donorTid = tid) }

namespace Ranked

section

variable (hs : Ranked s₀ (fun _ => False) s)
include hs

/-- A thread that picks its result up donates no more. -/
theorem clear (hlen : s.donations.length ≤ maxThreads)
    (id : Nat) : Ranked (s₀.without id) (fun _ => False)
      ((s.modify id fun t => { t with ipcWake := none, state := .running }).revokeDonations id) := by
  refine Ranked.revokeDonations (Ranked.modify hs ?_) hlen id
  exact fun _ => ⟨rfl, rfl⟩

theorem blockCurrent (hlen : s.donations.length ≤ maxThreads) (h : Hart) :
    Ranked (if (s.thread (s.current h)).ipcWake.isSome then s₀.without (s.current h) else s₀)
      (fun _ => False) (s.blockCurrent h).2 := by
  unfold Scheduler.blockCurrent
  dsimp only
  split
  · exact hs.clear hlen _
  · split
    · dsimp only
      exact Ranked.modify (hs.removeFromReady _) fun _ => ⟨rfl, rfl⟩
    · split
      · dsimp only
        exact hs.modify fun _ => ⟨rfl, rfl⟩
      · refine Ranked.dispatch (Ranked.modify hs ?_) h
        exact fun _ => ⟨rfl, rfl⟩

theorem blockUserFromTrap (hlen : s.donations.length ≤ maxThreads) (h : Hart) (frame : TrapFrame) :
    Ranked (if (s.thread (s.current h)).ipcWake.isSome then s₀.without (s.current h) else s₀)
      (fun _ => False) (s.blockUserFromTrap h frame).2 := by
  unfold Scheduler.blockUserFromTrap
  rcases hwake : (s.thread (s.current h)).ipcWake with _ | words | code
  · dsimp only
    rw [hwake]
    refine Ranked.dispatch (Ranked.modify hs ?_) h
    exact fun _ => ⟨rfl, rfl⟩
  · dsimp only
    rw [hwake]
    exact hs.clear hlen _
  · dsimp only
    rw [hwake]
    exact hs.clear hlen _

/-- A result that finds its thread blocked ends its donations. -/
theorem delivered {r : IpcWake}
    (hlen : s.donations.length ≤ maxThreads) (hstep : Delivered s id r s') :
    Ranked (if (s.thread id).state = .blocked then s₀.without id else s₀) (fun _ => False) s' := by
  cases hstep with
  | noted hf hstate =>
    rw [if_neg hstate]
    exact hs.modify fun t => ⟨hf.prio t, hf.proc t⟩
  | woken hf hlt hblocked =>
    rw [if_pos hblocked]
    have hwritten : Ranked s₀ (fun _ => False) (s.modify id _) :=
      hs.modify fun t => ⟨hf.prio t, hf.proc t⟩
    exact (hwritten.enqueue id).revokeDonations hlen id

end

/-! ## New threads -/

/-- A new thread is queued at its effective priority. -/
theorem place {t : Thread} {s₁ : Scheduler} (hs : Ranked s (fun _ => False) s)
    (hwf : Wf s fun _ => False) (hslot : s.takeSlot = some (id, s₁)) (hstate : t.state = .ready) :
    Ranked s₁ (fun _ => False) (s₁.place id t) := by
  obtain ⟨-, hloose, -⟩ := hwf.seat (t := t) hslot hstate
  obtain ⟨free, rfl⟩ := takeSlot_eq hslot
  have hseated : Ranked { s with freeSlots := free } (fun _ => False)
      (Scheduler.seat { s with freeSlots := free } id t) := by
    refine ⟨rfl, rfl, fun h l x hin _ => ?_⟩
    have hne : x ≠ id := by
      rintro rfl
      exact absurd hloose.occ (Nat.pos_iff_ne_zero.mp (occ_pos hin))
    have hthread : (Scheduler.seat { s with freeSlots := free } id t).thread x = s.thread x :=
      Function.update_of_ne hne _ _
    rw [hs.level h l x hin]
    exact (effPrio_congr (congrArg Thread.prio hthread) (congrArg Thread.proc hthread)
      fun _ _ => rfl).symm
  exact hseated.enqueue id

/-- A kernel thread is given to a process after it was queued. -/
theorem own (hs : Ranked s₀ (fun _ => False) s) (hproc : (s.thread id).proc = none) (proc : Nat) :
    Ranked s₀ (fun _ => False)
      (if (s.modify id fun t => { t with proc := some proc }).donations.any fun d =>
          d.peerProc = proc then
        (s.modify id fun t => { t with proc := some proc }).requeueProcThreads proc
      else s.modify id fun t => { t with proc := some proc }) := by
  have hother : ∀ h l x, x ≠ id → x ∈ s.ready h l →
      l = (s.modify id fun t => { t with proc := some proc }).effPrio x := by
    intro h l x hx hin
    have hthread : (s.modify id fun t => { t with proc := some proc }).thread x = s.thread x :=
      modify_of_ne hx
    rw [effPrio_congr (congrArg Thread.prio hthread) (congrArg Thread.proc hthread) fun _ _ => rfl]
    exact hs.level h l x hin
  have hself : ((s.modify id fun t => { t with proc := some proc }).thread id).proc = some proc := by
    rw [modify_self]
  split
  · have hstale : Ranked s₀ (· = proc) (s.modify id fun t => { t with proc := some proc }) := by
      refine ⟨hs.donations, hs.freeSlots, fun h l x hin hnot => hother h l x ?_ hin⟩
      rintro rfl
      exact hnot proc hself rfl
    exact (hstale.requeue proc).weaken fun p ⟨heq, hne⟩ => hne heq
  · next hany =>
    refine ⟨hs.donations, hs.freeSlots, fun h l x hin _ => ?_⟩
    by_cases hx : x = id
    · subst hx
      rw [hs.level h l x hin]
      have hnone : s.donations.filter (fun d => d.peerProc = proc) = [] := by
        rw [List.filter_eq_nil_iff]
        exact fun d hd hpeer => hany (List.any_eq_true.mpr ⟨d, hd, hpeer⟩)
      unfold effPrio
      rw [hself, hproc]
      dsimp only
      rw [foldl_donations]
      change (s.thread x).prio = List.foldl _ _ (s.donations.filter fun d => d.peerProc = proc)
      rw [hnone, modify_self]
      rfl
    · exact hother h l x hx hin

/-- What a spawn does to the queues: the donations stay, and the slot is no more free. -/
theorem spawned {op : SchedOp} (hs : Ranked s (fun _ => False) s) (hwf : Wf s fun _ => False)
    (hop : op.spawns = true) (hstep : s.step b op = some s') :
    ∃ id s₁, s.takeSlot = some (id, s₁) ∧ Ranked s₁ (fun _ => False) s' := by
  cases op with
  | spawn h entry prio stack | spawnUser h proc root entryPc stackTop prio argc argv =>
    obtain ⟨result, hspawn, rfl⟩ := Option.map_eq_some_iff.mp hstep
    obtain ⟨⟨id, s₁⟩, hslot, rfl⟩ := Option.map_eq_some_iff.mp hspawn
    exact ⟨id, s₁, hslot, hs.place hwf hslot rfl⟩
  | spawnOwned h entry prio proc stack =>
    obtain ⟨result, howned, rfl⟩ := Option.map_eq_some_iff.mp hstep
    obtain ⟨⟨id, s₂⟩, hspawn, rfl⟩ := Option.map_eq_some_iff.mp howned
    obtain ⟨⟨id', s₁⟩, hslot, hplaced⟩ := Option.map_eq_some_iff.mp hspawn
    obtain ⟨rfl, rfl⟩ := Prod.mk.inj hplaced
    refine ⟨id', s₁, hslot, (hs.place hwf hslot rfl).own ?_ proc⟩
    obtain ⟨-, hproc⟩ := spawned_place (t := .kernel b h entry prio stack) hslot rfl
      fun hblocked => by cases hblocked
    exact hproc
  | _ => cases hop

end Ranked

end Ranks

end Ignium.Sched
