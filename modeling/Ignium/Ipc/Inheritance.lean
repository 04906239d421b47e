import Ignium.Ipc.Donations

/-!
# Inherited priorities along chains

A thread that waits for a process lends its priority to the threads of the process, and one of them
may wait in turn for another process. `Chain w t p` says that the wait of `t` comes to the process
`p`, directly or through threads that wait themselves, and `InheritLaw` that all threads of `p` then
run at the priority of `t` at least.

A donation holds the priority that the donor had when it began to wait. It is not renewed when the
donor itself is lent a better one, so the law depends on the order in which the threads of a chain
begin to wait. `always_inheritLaw` proves it for runs in which no call lends to a process that has a
thread with a worse donation (`InOrder`).
-/

namespace Ignium.Ipc

open Kernel Sched

/-- The threads of the entries that name a peer, with the process of the peer. -/
def IpcState.wants (ipc : IpcState) : List (Nat × Nat) :=
  ipc.sends.map (fun s => (s.senderTid, s.dstPid)) ++
    (ipc.recvs.filter fun r => r.srcPid ≠ ipcAcceptAny).map fun r => (r.recverTid, r.srcPid)

/-- The thread is blocked in IPC with a process. -/
def WaitsFor (w : System) (tid peer : Nat) : Prop :=
  (w.sched.thread tid).state = .blocked ∧ (tid, peer) ∈ w.ipc.wants

/-- The thread waits for the process, or for one with a thread that waits for the process, and so
on. -/
inductive Chain (w : System) (tid : Nat) : Nat → Prop where
  | direct {peer : Nat} (hwait : WaitsFor w tid peer) : Chain w tid peer
  | through {via peer u : Nat} (hchain : Chain w tid via) (hproc : (w.sched.thread u).proc = some via)
      (hwait : WaitsFor w u peer) : Chain w tid peer

/-- The threads of a process that a thread waits for have its priority or a better one. -/
def InheritLaw (w : System) : Prop :=
  ∀ tid peer, Chain w tid peer → ∀ u, u < w.sched.len → (w.sched.thread u).proc = some peer →
    w.sched.effPrio u ≤ w.sched.effPrio tid

/-- The caller does not wait already, and the waiting threads of the process that it lends to have
donated its priority or a better one. -/
def LendsUp (w : System) (h : Hart) (op : CallOp) : Prop :=
  ¬ Waits w (w.sched.current h) ∧ ∀ peer ∈ w.lendsTo op, ∀ d ∈ w.sched.donations,
    (w.sched.thread d.donorTid).proc = some peer → d.prio ≤ w.sched.effPrio (w.sched.current h)

/-- Calls lend in order, and a kill is made by a thread that does not wait and meets no thread that has
exited before. -/
def InOrder (w : System) : CallOp → Prop
  | .sched _ => True
  | .send h table slot msg => LendsUp w h (.send h table slot msg)
  | .recv h table slot => LendsUp w h (.recv h table slot)
  | .kill h pid => ¬ Waits w (w.sched.current h) ∧
      ∀ id ∈ w.sched.victims h pid, (w.sched.thread id).state ≠ .exited

instance (w : System) (tid : Nat) : Decidable (Waits w tid) :=
  inferInstanceAs (Decidable (tid ∈ w.ipc.waiting ∨ (w.sched.thread tid).ipcWake.isSome))

instance (w : System) (h : Hart) (op : CallOp) : Decidable (LendsUp w h op) :=
  inferInstanceAs (Decidable (¬ Waits w (w.sched.current h) ∧ ∀ peer ∈ w.lendsTo op,
    ∀ d ∈ w.sched.donations, (w.sched.thread d.donorTid).proc = some peer →
      d.prio ≤ w.sched.effPrio (w.sched.current h)))

instance (w : System) : ∀ op, Decidable (InOrder w op)
  | .sched _ => inferInstanceAs (Decidable True)
  | .send h table slot msg => inferInstanceAs (Decidable (LendsUp w h (.send h table slot msg)))
  | .recv h table slot => inferInstanceAs (Decidable (LendsUp w h (.recv h table slot)))
  | .kill h pid => inferInstanceAs (Decidable (¬ Waits w (w.sched.current h) ∧
      ∀ id ∈ w.sched.victims h pid, (w.sched.thread id).state ≠ .exited))

/-- What the law rests on: a donation is as good as the priority of its donor, and a thread has one
entry at most and donates to the process that the entry names. -/
structure Lent (w : System) : Prop where
  fresh : ∀ d ∈ w.sched.donations, d.prio ≤ w.sched.effPrio d.donorTid
  single : w.ipc.waiting.Nodup
  clear : ∀ tid ∈ w.ipc.waiting, (w.sched.thread tid).ipcWake = none
  lent : ∀ e ∈ w.ipc.wants, ∃ d ∈ w.sched.donations, d.donorTid = e.1 ∧ d.peerProc = e.2
  table : w.sched.len ≤ maxThreads

section Lent

variable {w w' : System} {s s' : Scheduler} {ipc' : IpcState} {b : Boot} {h : Hart}
  {tid pid peer : Nat} {r : IpcWake} {op : SchedOp}

theorem mem_waiting_of_wants {ipc : IpcState} {e : Nat × Nat} (he : e ∈ ipc.wants) :
    e.1 ∈ ipc.waiting := by
  simp only [IpcState.wants, List.mem_append, List.mem_map, List.mem_filter] at he
  simp only [IpcState.waiting, List.mem_append, List.mem_map]
  rcases he with ⟨s, hs, rfl⟩ | ⟨r, ⟨hr, -⟩, rfl⟩
  · exact .inr ⟨s, hs, rfl⟩
  · exact .inl ⟨r, hr, rfl⟩

/-- A chain lends all along. -/
theorem Lent.inheritLaw (hw : Lent w) : InheritLaw w := by
  have hlink : ∀ tid peer u, WaitsFor w tid peer → (w.sched.thread u).proc = some peer →
      w.sched.effPrio u ≤ w.sched.effPrio tid := by
    intro tid peer u hwait hproc
    obtain ⟨d, hd, rfl, rfl⟩ := hw.lent _ hwait.2
    exact ((le_effPrio_iff.mp le_rfl).2 d hd hproc).trans (hw.fresh d hd)
  have hchained : ∀ tid peer, Chain w tid peer → ∀ u, (w.sched.thread u).proc = some peer →
      w.sched.effPrio u ≤ w.sched.effPrio tid := by
    intro tid peer hchain
    induction hchain with
    | direct hwait => exact fun u hproc => hlink _ _ u hwait hproc
    | @through via peer u hchain hvia hwait ih =>
      exact fun v hproc => (hlink u peer v hwait hproc).trans (ih u hvia)
  exact fun tid peer hchain u _ hproc => hchained tid peer hchain u hproc

/-! ## Steps that lend nothing -/

/-- Donations stay or go, those of waiting threads stay, and so do entries. -/
theorem Lent.kept (hw : Lent w) (htable : s'.len ≤ maxThreads)
    (hdonations : ∀ d ∈ s'.donations, d ∈ w.sched.donations)
    (hsame : ∀ d ∈ s'.donations, SameThread (w.sched.thread d.donorTid) (s'.thread d.donorTid))
    (hwaiting : ipc'.waiting.Sublist w.ipc.waiting) (hwants : ∀ e ∈ ipc'.wants, e ∈ w.ipc.wants)
    (hclear : ∀ tid ∈ ipc'.waiting, (w.sched.thread tid).ipcWake = none →
      (s'.thread tid).ipcWake = none)
    (hlent : ∀ d ∈ w.sched.donations, (d.donorTid, d.peerProc) ∈ ipc'.wants → d ∈ s'.donations) :
    Lent ⟨s', ipc'⟩ where
  fresh d hd := by
    obtain ⟨hprio, hpeers⟩ := le_effPrio_iff.mp (hw.fresh d (hdonations d hd))
    obtain ⟨hproc, -, hown⟩ := hsame d hd
    refine le_effPrio_iff.mpr ⟨hown ▸ hprio, fun d' hd' hpeer => ?_⟩
    exact hpeers d' (hdonations d' hd') (hproc ▸ hpeer)
  single := hw.single.sublist hwaiting
  clear tid hin := hclear tid hin (hw.clear tid (hwaiting.subset hin))
  lent e he := by
    obtain ⟨d, hd, hdonor, hpeer⟩ := hw.lent e (hwants e he)
    refine ⟨d, hlent d hd ?_, hdonor, hpeer⟩
    rw [hdonor, hpeer]
    exact he
  table := htable

/-- The queues of IPC stay as they are. -/
theorem Lent.sched (hw : Lent w) (htable : s'.len ≤ maxThreads)
    (hdonations : ∀ d ∈ s'.donations, d ∈ w.sched.donations)
    (hsame : ∀ d ∈ s'.donations, SameThread (w.sched.thread d.donorTid) (s'.thread d.donorTid))
    (hclear : ∀ tid ∈ w.ipc.waiting, (s'.thread tid).ipcWake = (w.sched.thread tid).ipcWake)
    (hlent : ∀ d ∈ w.sched.donations, d.donorTid ∈ w.ipc.waiting → d ∈ s'.donations) :
    Lent { w with sched := s' } :=
  hw.kept htable hdonations hsame (List.Sublist.refl _) (fun _ he => he)
    (fun tid hin hnone => (hclear tid hin).trans hnone)
    fun d hd hin => hlent d hd (mem_waiting_of_wants hin)

theorem Lent.plain (hw : Lent w) (hdonating : Donating w) (hop : op.plain = true)
    (hstep : w.sched.step b op = some s') : Lent { w with sched := s' } := by
  have hranked := hdonating.ranked.plain hop hstep
  have hmoved : Threads Moved w.sched s' := by
    refine step_moved ?_ hstep
    cases op <;> first | rfl | cases hop
  refine hw.sched (hmoved.len ▸ hw.table) (fun d hd => hranked.donations ▸ hd)
    (fun d _ => (hmoved.thread _).same) (fun tid _ => (hmoved.thread tid).ipcWake) fun d hd _ => ?_
  rw [hranked.donations]
  exact hd

/-- A thread that picks up its result has no entry. -/
theorem Lent.blocks (hw : Lent w) (hdonating : Donating w) (hop : blocks op = true)
    (hstep : w.sched.step b op = some s') : Lent { w with sched := s' } := by
  have hsame : Threads SameThread w.sched s' := by
    refine step_sameThreads ?_ hstep
    cases op <;> first | rfl | cases hop
  obtain ⟨h, hranked, P, hsleeps⟩ := hdonating.sleeps hop hstep
  refine hw.sched (hsame.len ▸ hw.table) (fun d hd => ?_) (fun d _ => hsame.thread _)
    (fun tid hin => ?_) fun d hd hin => ?_
  · rw [hranked.donations] at hd
    split at hd
    · exact (without_sublist _ _).subset hd
    · exact hd
  · by_cases heq : tid = w.sched.current h
    · rw [heq, hsleeps.ipcWake_current, ← heq]
      exact (hw.clear tid hin).symm
    · exact hsleeps.ipcWake_of_ne heq
  · rw [hranked.donations]
    split
    · next hsome =>
      refine List.mem_filter.mpr ⟨hd, ?_⟩
      have hne : d.donorTid ≠ w.sched.current h := by
        intro heq
        rw [← heq, hw.clear _ hin] at hsome
        cases hsome
      simpa using hne
    · exact hd

theorem Lent.spawns (hw : Lent w) (hdonating : Donating w) (hop : op.spawns = true)
    (hstep : w.sched.step b op = some s') : Lent { w with sched := s' } := by
  obtain ⟨id, s₁, hslot, hranked⟩ := hdonating.ranked.spawned hdonating.wf hop hstep
  obtain ⟨id', hspawned, -⟩ := step_spawned hop hstep
  obtain ⟨s₂, hslot'⟩ := hspawned.slot
  rw [hslot] at hslot'
  obtain ⟨rfl, rfl⟩ := Prod.mk.inj (Option.some.inj hslot')
  have hne : ∀ x, Held w.sched x → x ≠ id := fun x hx => (hx.not_slot hslot).1
  obtain ⟨free, hs₁⟩ := takeSlot_eq hslot
  have hdonations : s'.donations = w.sched.donations := by rw [hranked.donations, hs₁]
  refine hw.sched ?_ (fun d hd => hdonations ▸ hd) (fun d hd => ?_) (fun tid hin => ?_)
    fun d hd _ => hdonations ▸ hd
  · have hlt : id < maxThreads := by
      rw [Scheduler.takeSlot] at hslot
      split at hslot
      · next hslots =>
        obtain ⟨rfl, -⟩ := Prod.mk.inj (Option.some.inj hslot)
        refine lt_of_lt_of_le (hdonating.wf.free_lt _ ?_) hw.table
        rw [hslots]
        exact List.mem_cons_self
      · split at hslot
        · next hroom =>
          obtain ⟨rfl, -⟩ := Prod.mk.inj (Option.some.inj hslot)
          exact hroom
        · cases hslot
    rw [hspawned.len]
    exact Nat.max_le.mpr ⟨hw.table, hlt⟩
  · exact (hspawned.other _ (hne _ (hdonating.held d (hdonations ▸ hd)))).same
  · rw [IpcState.waiting_eq] at hin
    obtain ⟨e, he, rfl⟩ := List.mem_map.mp hin
    exact (hspawned.other _ (hne _ (hdonating.parties e he).1)).ipcWake

/-! ## Results -/

theorem donations_revoke (s : Scheduler) (tid : Nat) :
    (s.revokeDonations tid).donations = s.donations.filter fun d => d.donorTid ≠ tid := by
  unfold Scheduler.revokeDonations
  refine List.foldlRecOn (motive := fun t : Scheduler =>
    t.donations = s.donations.filter fun d => d.donorTid ≠ tid) _ _ ?_ fun t ht proc _ => ?_
  · simp
  · rw [donations_requeue, ht]

/-- A result reaches a thread, which may donate no more, and no other one. -/
theorem delivered_spares (hstep : Delivered s tid r s') :
    (∀ d ∈ s'.donations, d ∈ s.donations) ∧
    (∀ d ∈ s.donations, d.donorTid ≠ tid → d ∈ s'.donations) ∧
    ∀ x, x ≠ tid → (s'.thread x).ipcWake = (s.thread x).ipcWake := by
  cases hstep with
  | noted => exact ⟨fun _ hd => hd, fun _ hd _ => hd, fun x hx => by rw [Scheduler.modify_of_ne hx]⟩
  | @woken f =>
    have hleft : (((s.modify tid f).enqueue tid).revokeDonations tid).donations =
        s.donations.filter fun d => d.donorTid ≠ tid := donations_revoke _ tid
    rw [hleft]
    refine ⟨fun d hd => List.mem_of_mem_filter hd, fun d hd hne => ?_, fun x hx => ?_⟩
    · exact List.mem_filter.mpr ⟨hd, by simpa using hne⟩
    · rw [((moved_rouse _ tid).thread x).ipcWake, Scheduler.modify_of_ne hx]

/-- A result comes for a thread whose entry is gone. -/
theorem Lent.delivered (hw : Lent w) (hstep : Delivered w.sched tid r s')
    (hwaiting : ipc'.waiting.Sublist w.ipc.waiting) (hwants : ∀ e ∈ ipc'.wants, e ∈ w.ipc.wants)
    (hgone : tid ∉ ipc'.waiting) : Lent ⟨s', ipc'⟩ := by
  obtain ⟨hdonations, hkept, hother⟩ := delivered_spares hstep
  have hsame := SameThreads.delivered hstep
  refine hw.kept (hsame.len ▸ hw.table) hdonations (fun d _ => hsame.thread _) hwaiting hwants
    (fun x hx hnone => ?_) fun d hd hin => hkept d hd ?_
  · rw [hother x fun heq => hgone (heq ▸ hx), hnone]
  · exact fun heq => hgone (heq ▸ mem_waiting_of_wants hin)

/-! ## Donations -/

/-- The donors are different threads of the table, so there is room for one more. -/
theorem Lent.room (hw : Lent w) (hdonating : Donating w) (hlt : tid < w.sched.len)
    (hnew : ∀ d ∈ w.sched.donations, d.donorTid ≠ tid) :
    w.sched.donations.length < maxDonations := by
  have hnodup : (tid :: w.sched.donations.map Donation.donorTid).Nodup := by
    refine List.nodup_cons.mpr ⟨fun hin => ?_, hdonating.donors⟩
    obtain ⟨d, hd, heq⟩ := List.mem_map.mp hin
    exact hnew d hd heq
  have hsub : (tid :: w.sched.donations.map Donation.donorTid).Subperm (List.range w.sched.len) := by
    refine hnodup.subperm fun x hx => ?_
    rw [List.mem_range]
    rcases List.mem_cons.mp hx with rfl | hin
    · exact hlt
    · obtain ⟨d, hd, rfl⟩ := List.mem_map.mp hin
      exact (hdonating.held d hd).1
  have hlen := hsub.length_le
  rw [List.length_cons, List.length_map, List.length_range] at hlen
  exact lt_of_lt_of_le hlen hw.table

/-- A thread that has no entry begins to wait, and donates to the process that it waits for. -/
theorem Lent.queued {lends : Option Nat} (hw : Lent w) (hdonating : Donating w)
    (hlt : tid < w.sched.len) (hfree : ¬ Waits w tid)
    (hup : ∀ peer ∈ lends, ∀ d ∈ w.sched.donations,
      (w.sched.thread d.donorTid).proc = some peer → d.prio ≤ w.sched.effPrio tid)
    (hwaiting : ipc'.waiting.Perm (tid :: w.ipc.waiting))
    (hwants : ∀ e ∈ ipc'.wants, e ∈ w.ipc.wants ∨ ∃ peer, lends = some peer ∧ e = (tid, peer))
    (hlends : lends = none ∧ s' = w.sched ∨ ∃ peer, lends = some peer ∧
      w.sched.donateOnBlock tid peer = some s') : Lent ⟨s', ipc'⟩ := by
  obtain ⟨hnot, hnone⟩ := not_or.mp hfree
  have hsingle : ipc'.waiting.Nodup := hwaiting.nodup_iff.mpr (List.nodup_cons.mpr ⟨hnot, hw.single⟩)
  have hclear : ∀ x ∈ ipc'.waiting, (w.sched.thread x).ipcWake = none := by
    intro x hx
    rcases List.mem_cons.mp (hwaiting.mem_iff.mp hx) with rfl | hin
    · simpa using hnone
    · exact hw.clear x hin
  rcases hlends with ⟨rfl, rfl⟩ | ⟨peer, rfl, hlent⟩
  · refine ⟨hw.fresh, hsingle, hclear, fun e he => ?_, hw.table⟩
    rcases hwants e he with hold | ⟨peer, hpeer, -⟩
    · exact hw.lent e hold
    · cases hpeer
  · have hmoved : Threads Moved w.sched s' := by
      have hop : (SchedOp.donateOnBlock tid peer).moves = true := rfl
      have hstep : w.sched.step ⟨0, 0, 0, 0, 0⟩ (.donateOnBlock tid peer) = some s' := hlent
      exact step_moved hop hstep
    have hnew : ∀ d ∈ w.sched.donations, d.donorTid ≠ tid := fun d hd heq =>
      hfree (heq ▸ hdonating.waits d hd)
    have hdonations : s'.donations = w.sched.donations ++ [⟨tid, peer, w.sched.effPrio tid⟩] := by
      rw [Scheduler.donateOnBlock, if_pos hlt] at hlent
      rw [← Option.some.inj hlent, registerDonation_eq, donations_requeue]
      dsimp only
      rw [entered, List.findIdx?_eq_none_iff.mpr fun d hd => by simpa using hnew d hd]
      exact if_pos (hw.room hdonating hlt hnew)
    -- The new donation changes the priorities of its peers only, which donate no worse one.
    have hbound : ∀ x : Prio, ∀ id, x ≤ w.sched.effPrio id →
        ((w.sched.thread id).proc = some peer → x ≤ w.sched.effPrio tid) → x ≤ s'.effPrio id := by
      intro x id hx hpeer
      obtain ⟨hprio, hpeers⟩ := le_effPrio_iff.mp hx
      obtain ⟨hproc, -, hown⟩ := (hmoved.thread id).same
      refine le_effPrio_iff.mpr ⟨hown ▸ hprio, fun d hd hfor => ?_⟩
      rw [hproc] at hfor
      rw [hdonations, List.mem_append, List.mem_singleton] at hd
      rcases hd with hold | rfl
      · exact hpeers d hold hfor
      · exact hpeer hfor
    refine ⟨fun d hd => ?_, hsingle, fun x hx => ?_, fun e he => ?_, hmoved.len ▸ hw.table⟩
    · change d ∈ s'.donations at hd
      rw [hdonations, List.mem_append, List.mem_singleton] at hd
      rcases hd with hold | rfl
      · exact hbound _ _ (hw.fresh d hold) (hup peer rfl d hold)
      · exact hbound _ _ le_rfl fun _ => le_rfl
    · exact (hmoved.thread x).ipcWake.trans (hclear x hx)
    · change ∃ d ∈ s'.donations, d.donorTid = e.1 ∧ d.peerProc = e.2
      rw [hdonations]
      rcases hwants e he with hold | ⟨peer', hpeer, rfl⟩
      · obtain ⟨d, hd, hboth⟩ := hw.lent e hold
        exact ⟨d, List.mem_append_left _ hd, hboth⟩
      · cases hpeer
        exact ⟨_, List.mem_append_right _ (List.mem_singleton_self _), rfl, rfl⟩

/-! ## Calls -/

/-- Entries leave the queues. -/
theorem entries_sublist {ipc ipc' : IpcState} (hsends : ipc'.sends.Sublist ipc.sends)
    (hrecvs : ipc'.recvs.Sublist ipc.recvs) :
    ipc'.waiting.Sublist ipc.waiting ∧ ∀ e ∈ ipc'.wants, e ∈ ipc.wants := by
  refine ⟨(hrecvs.map _).append (hsends.map _), fun e he => ?_⟩
  exact ((hsends.map _).append ((hrecvs.filter _).map _)).subset he

theorem Lent.sendCall {table : ProcessTable} {slot : Nat} {msg : Message} (hw : Lent w)
    (hdonating : Donating w) (hup : LendsUp w h (.send h table slot msg))
    (hstep : w.sendCall h table slot msg = some w') : Lent w' := by
  obtain ⟨pid, hpid, hstep⟩ := Option.bind_eq_some_iff.mp hstep
  obtain ⟨hfree, hup⟩ := hup
  simp only [System.lendsTo, hpid, bind, Option.bind_some] at hup
  split at hstep
  · cases hstep
    exact hw
  · next dst hdst =>
    simp only [hdst] at hup
    rcases hlocked : sendLocked w.ipc (w.sched.current h) pid dst msg with ⟨_ | r, ipc'⟩
    · rw [hlocked] at hstep hup
      obtain ⟨s', hlent, rfl⟩ := Option.map_eq_some_iff.mp hstep
      obtain ⟨rfl, -⟩ := sendLocked_none hlocked
      refine hw.queued hdonating (hdonating.wf.current_lt h) hfree hup ?_ (fun e he => ?_)
        (.inr ⟨dst, rfl, hlent⟩)
      · rw [IpcState.waiting, List.map_append, ← List.append_assoc]
        exact List.perm_append_singleton _ _
      · simp only [IpcState.wants, List.map_append, List.mem_append, List.map_cons, List.map_nil,
          List.mem_singleton] at he ⊢
        rcases he with (hold | rfl) | hold
        · exact .inl (.inl hold)
        · exact .inr ⟨dst, rfl, rfl⟩
        · exact .inl (.inr hold)
    · rw [hlocked] at hstep
      obtain ⟨s', hwake, rfl⟩ := Option.map_eq_some_iff.mp hstep
      obtain ⟨-, -, hsends, front, back, hrecvs, hrest⟩ := sendLocked_some hlocked
      obtain ⟨hwaiting, hwants⟩ : ipc'.waiting.Sublist w.ipc.waiting ∧
          ∀ e ∈ ipc'.wants, e ∈ w.ipc.wants := by
        refine entries_sublist (by rw [hsends]) ?_
        rw [hrecvs, hrest]
        exact (List.Sublist.refl front).append (List.sublist_cons_self r back)
      refine hw.delivered (delivered_ipcWakeWithMsg hwake) hwaiting hwants ?_
      have hnodup : (r.recverTid :: ipc'.waiting).Nodup := by
        refine (List.Perm.nodup_iff ?_).mp hw.single
        simp only [IpcState.waiting, hsends, hrecvs, hrest, List.map_append, List.map_cons,
          List.append_assoc, List.cons_append]
        exact List.perm_middle
      exact (List.nodup_cons.mp hnodup).1

theorem Lent.recvCall {table : ProcessTable} {slot : Nat} (hw : Lent w)
    (hdonating : Donating w) (hup : LendsUp w h (.recv h table slot))
    (hstep : w.recvCall h table slot = some w') : Lent w' := by
  obtain ⟨pid, hpid, hstep⟩ := Option.bind_eq_some_iff.mp hstep
  obtain ⟨hfree, hup⟩ := hup
  simp only [System.lendsTo, hpid, bind, Option.bind_some] at hup
  split at hstep
  · cases hstep
    exact hw
  · next src hsrc =>
    simp only [hsrc] at hup
    rcases hlocked : recvLocked w.ipc (w.sched.current h) pid src with ⟨_ | m, ipc'⟩
    · rw [hlocked] at hstep hup
      obtain ⟨rfl, -⟩ := recvLocked_none hlocked
      obtain ⟨s', rfl, hlends⟩ : ∃ s', w' = ⟨s', { w.ipc with
          recvs := w.ipc.recvs ++ [⟨w.sched.current h, pid, src⟩] }⟩ ∧
          ((if (none : Option PendingSend).isNone ∧ src ≠ ipcAcceptAny then some src else none) =
            none ∧ s' = w.sched ∨ ∃ peer,
            (if (none : Option PendingSend).isNone ∧ src ≠ ipcAcceptAny then some src else none) =
              some peer ∧ w.sched.donateOnBlock (w.sched.current h) peer = some s') := by
        dsimp only at hstep
        split at hstep
        · next hany =>
          obtain ⟨s', hlent, rfl⟩ := Option.map_eq_some_iff.mp hstep
          exact ⟨s', rfl, .inr ⟨src, if_pos ⟨rfl, hany⟩, hlent⟩⟩
        · next hany =>
          cases hstep
          exact ⟨w.sched, rfl, .inl ⟨if_neg fun h => hany h.2, rfl⟩⟩
      refine hw.queued hdonating (hdonating.wf.current_lt h) hfree hup ?_ (fun e he => ?_) hlends
      · rw [IpcState.waiting, List.map_append, List.append_assoc]
        exact List.perm_middle
      · simp only [IpcState.wants, List.filter_append, List.map_append, List.mem_append] at he ⊢
        rcases he with hold | hold | hnew
        · exact .inl (.inl hold)
        · exact .inl (.inr hold)
        · obtain ⟨r, hr, rfl⟩ := List.mem_map.mp hnew
          obtain ⟨hr, hany⟩ := List.mem_filter.mp hr
          obtain rfl := List.mem_singleton.mp hr
          exact .inr ⟨src, if_pos ⟨rfl, by simpa using hany⟩, rfl⟩
    · rw [hlocked] at hstep
      obtain ⟨s', hwake, rfl⟩ := Option.map_eq_some_iff.mp hstep
      obtain ⟨-, -, hrecvs, front, back, hsends, hrest⟩ := recvLocked_some hlocked
      obtain ⟨hwaiting, hwants⟩ : ipc'.waiting.Sublist w.ipc.waiting ∧
          ∀ e ∈ ipc'.wants, e ∈ w.ipc.wants := by
        refine entries_sublist ?_ (by rw [hrecvs])
        rw [hsends, hrest]
        exact (List.Sublist.refl front).append (List.sublist_cons_self m back)
      refine hw.delivered (delivered_ipcWakeWithMsg hwake) hwaiting hwants ?_
      have hnodup : (m.senderTid :: ipc'.waiting).Nodup := by
        refine (List.Perm.nodup_iff ?_).mp hw.single
        simp only [IpcState.waiting, hsends, hrecvs, hrest, List.map_append, List.map_cons]
        rw [← List.append_assoc, ← List.append_assoc]
        exact List.perm_middle
      exact (List.nodup_cons.mp hnodup).1

/-! ## Kills -/

/-- The threads that a purge tells have no entry left. -/
theorem told_gone {ipc : IpcState} (hsingle : ipc.waiting.Nodup) :
    ∀ tid ∈ (purgeLocked ipc pid).1.map Prod.fst, tid ∉ (purgeLocked ipc pid).2.waiting := by
  obtain ⟨hrecvs, hsends, hapart⟩ := List.nodup_append.mp hsingle
  intro tid htold hin
  simp only [purgeLocked, List.map_append, List.map_map, List.mem_append, List.mem_map,
    List.mem_filter, decide_eq_true_eq] at htold
  simp only [purgeLocked, IpcState.waiting, List.mem_append, List.mem_map, List.mem_filter,
    decide_eq_true_eq] at hin
  rcases htold with ⟨r, ⟨hr, hsrc, -⟩, rfl⟩ | ⟨m, ⟨hm, hdst, -⟩, rfl⟩ <;>
    rcases hin with ⟨r', ⟨⟨hr', hsrc'⟩, -⟩, heq⟩ | ⟨m', ⟨⟨hm', hdst'⟩, -⟩, heq⟩
  · obtain rfl := List.inj_on_of_nodup_map hrecvs hr' hr heq
    exact hsrc' hsrc
  · exact hapart _ (List.mem_map_of_mem hr) _ (List.mem_map_of_mem hm') heq.symm
  · exact hapart _ (List.mem_map_of_mem hr') _ (List.mem_map_of_mem hm) heq
  · obtain rfl := List.inj_on_of_nodup_map hsends hm' hm heq
    exact hdst' hdst

theorem Lent.wakeAll (wakes : List (Nat × Nat)) (hw : Lent ⟨s, ipc'⟩)
    (hgone : ∀ tid ∈ wakes.map Prod.fst, tid ∉ ipc'.waiting)
    (hwakes : System.wakeAll s wakes = some s') : Lent ⟨s', ipc'⟩ := by
  induction wakes generalizing s with
  | nil =>
    cases hwakes
    exact hw
  | cons wake wakes ih =>
    rw [System.wakeAll, List.foldlM_cons] at hwakes
    obtain ⟨s₁, hwake, hrest⟩ := Option.bind_eq_some_iff.mp hwakes
    rw [List.map_cons, List.forall_mem_cons] at hgone
    have hone : Lent ⟨s₁, ipc'⟩ := hw.delivered (delivered_ipcWakeWithErr hwake)
      (List.Sublist.refl _) (fun _ he => he) hgone.1
    exact ih hone hgone.2 hrest

theorem Lent.kill (hw : Lent w) (hdonating : Donating w) (hfree : ¬ Waits w (w.sched.current h))
    (hstep : w.killProcess h pid = some w') : Lent w' := by
  obtain ⟨s₁, hwakes, rfl⟩ := Option.map_eq_some_iff.mp hstep
  obtain ⟨hwaiting, hwants⟩ : (purgeLocked w.ipc pid).2.waiting.Sublist w.ipc.waiting ∧
      ∀ e ∈ (purgeLocked w.ipc pid).2.wants, e ∈ w.ipc.wants :=
    entries_sublist (List.filter_sublist.trans List.filter_sublist)
      (List.filter_sublist.trans List.filter_sublist)
  have hpurged : Lent ⟨w.sched, (purgeLocked w.ipc pid).2⟩ :=
    hw.kept hw.table (fun _ hd => hd) (fun _ _ => ⟨rfl, rfl, rfl⟩) hwaiting hwants
      (fun _ _ hnone => hnone) fun _ hd _ => hd
  have htold := hpurged.wakeAll _ (told_gone hw.single) hwakes
  obtain ⟨hdonating₁, hsame, hcurrent, -⟩ := hdonating.wakeAll _ [] (by simp) hwakes
  obtain ⟨hlen, -⟩ := killProcess_plan s₁ h pid
  obtain ⟨hthread, -⟩ := killProcess_thread hdonating₁.wf h pid
  obtain ⟨-, -, -, -, hkept, -⟩ := killed_spec s₁ h pid
  have hdonations : (s₁.killProcess h pid).2.2.donations = _ := killProcess_donations
  dsimp only at hthread
  generalize (s₁.killProcess h pid).2.2 = s' at hlen hthread hdonations ⊢
  -- A thread whose entry is left belongs to another process.
  have hspared : ∀ tid ∈ (purgeLocked w.ipc pid).2.waiting, tid ∉ s₁.victims h pid := by
    intro tid hin
    rw [IpcState.waiting_eq] at hin
    obtain ⟨e, he, rfl⟩ := List.mem_map.mp hin
    obtain ⟨hold, hne⟩ := parties_purge.1 he
    obtain ⟨-, hproc⟩ := hdonating.parties e hold
    rw [mem_victims, (hsame.thread _).proc, hproc]
    rintro ⟨-, hpid, -⟩
    exact hne (Option.some.inj hpid)
  have hdonor : ∀ d ∈ s'.donations, d ∈ s₁.donations ∧ d.donorTid ∉ s₁.victims h pid := by
    intro d hd
    rw [hdonations] at hd
    obtain ⟨hd, hnot⟩ := List.mem_filter.mp hd
    simp only [List.mem_append, not_or, decide_eq_true_eq] at hnot
    exact ⟨List.mem_of_mem_filter hd, hnot.1⟩
  refine htold.kept (hlen ▸ htold.table) (fun d hd => (hdonor d hd).1) (fun d hd => ?_)
    (List.Sublist.refl _) (fun _ he => he) (fun tid hin hnone => ?_) fun d hd hin => ?_
  · rw [hthread, hkept _ (hdonor d hd).2]
    exact ⟨rfl, rfl, rfl⟩
  · rw [hthread, hkept _ (hspared tid hin)]
    exact hnone
  · have hleft := mem_waiting_of_wants hin
    have hpeer : d.peerProc ≠ pid := by
      simp only [IpcState.wants, List.mem_append, List.mem_map, List.mem_filter,
        decide_eq_true_eq, Prod.mk.injEq] at hin
      rcases hin with ⟨m, ⟨⟨-, hdst⟩, -⟩, -, heq⟩ | ⟨r, ⟨⟨⟨-, hsrc⟩, -⟩, -⟩, -, heq⟩
      · exact heq ▸ hdst
      · exact heq ▸ hsrc
    have hcaller : d.donorTid ≠ s₁.current h := by
      intro heq
      rw [hcurrent] at heq
      exact hfree (.inl (heq ▸ hwaiting.subset hleft))
    rw [hdonations]
    refine List.mem_filter.mpr ⟨List.mem_filter.mpr ⟨hd, by simpa using hpeer⟩, ?_⟩
    simp only [List.mem_append, List.mem_singleton, not_or, decide_eq_true_eq]
    exact ⟨hspared _ hleft, hcaller⟩

end Lent

/-! ## Runs -/

/-- A caller that does not wait has no donation that another one could replace. -/
theorem LendsUp.lendsOnce {w : System} {h : Hart} {op : CallOp} (hdonating : Donating w)
    (hup : LendsUp w h op) : ∀ peer ∈ w.lendsTo op, ∀ d ∈ w.sched.donations,
      d.donorTid = w.sched.current h → d.peerProc = peer :=
  fun _ _ d hd heq => absurd (heq ▸ hdonating.waits d hd) hup.1

theorem inOrder_call {b : Boot} {w w' : System} {op : CallOp} (hw : Donating w ∧ Lent w)
    (hstep : w.call b op = some w') (horder : InOrder w op) : Donating w' ∧ Lent w' := by
  obtain ⟨hdonating, hlent⟩ := hw
  cases op with
  | sched op =>
    refine ⟨hdonating.call hstep trivial, ?_⟩
    obtain ⟨hop, hstep⟩ := Option.ite_none_right_eq_some.mp hstep
    obtain ⟨s', hsection, rfl⟩ := Option.map_eq_some_iff.mp hstep
    rw [Bool.or_eq_true, Bool.or_eq_true] at hop
    rcases hop with (hplain | hblocks) | hspawns
    · exact hlent.plain hdonating hplain hsection
    · exact hlent.blocks hdonating hblocks hsection
    · exact hlent.spawns hdonating hspawns hsection
  | send h table slot msg =>
    exact ⟨hdonating.call hstep (horder.lendsOnce hdonating), hlent.sendCall hdonating horder hstep⟩
  | recv h table slot =>
    exact ⟨hdonating.call hstep (horder.lendsOnce hdonating), hlent.recvCall hdonating horder hstep⟩
  | kill h pid =>
    exact ⟨hdonating.call hstep horder.2, hlent.kill hdonating horder.1 hstep⟩

theorem Lent.boot (b : Boot) (stackOf : Hart → Nat) : Lent (System.boot b stackOf) where
  fresh _ hd := absurd hd List.not_mem_nil
  single := List.nodup_nil
  clear _ hin := absurd hin List.not_mem_nil
  lent _ he := absurd he List.not_mem_nil
  table := by
    change maxHarts ≤ maxThreads
    decide

/-- Process 0 may talk to process 1, and process 1 to process 2. -/
def relayTable : ProcessTable :=
  ⟨[⟨0, 0, fun slot => [Cap.proc 1][slot.val]?⟩, ⟨1, 0, fun slot => [Cap.proc 2][slot.val]?⟩,
    ⟨2, 0, fun _ => none⟩], []⟩

/-- A thread of process 0 on hart 0 with the highest priority, a thread of process 1 on hart 1, and one
of process 2 on hart 2, both with the lowest. The first two send along the chain and block, in the
order of `harts`. -/
def relayOps (harts : List Hart) : List CallOp :=
  [.sched (.spawnOwned (clampHart 0) 0 0 0 0), .sched (.spawnOwned (clampHart 1) 0 2 1 0),
    .sched (.spawnOwned (clampHart 2) 0 2 2 0), .sched (.yield (clampHart 0)),
    .sched (.secondaryIdle (clampHart 1))] ++
    harts.flatMap fun h => [.send h relayTable 0 (.replicate 5 0), .sched (.blockCurrent h)]

end Ignium.Ipc
