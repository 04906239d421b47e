import Ignium.Ipc.CompleteKill
import Ignium.Sched.Ranks

/-!
# Inherited priorities along calls

A thread that waits in `send` or `recv` donates its priority to the process it waits for. A call is
made here as one step: `send` and `recv` with the wake-up or the donation that they end with, the
kill of a process with its purge, and the sections of the other calls. `DonationLaw` says that the
queues follow the donations, that a thread has one donation at most, and that it has one only while
it waits: its entry is in the queues of IPC, or its result is there and it has not picked it up.

A thread that is woken by a plain `wake` leaves `block_current` with its entry and its donation. If
its next call waits for another process, the donation is replaced and the threads of the first
process stay at the level they had. `always_donationLaw` proves the law for the runs without such a
call, and without kills that meet exited threads.
-/

namespace Ignium.Ipc

open Kernel Sched

/-- The calls. The sections of the calls that are not about IPC are those of the scheduler. -/
inductive CallOp where
  | sched (op : SchedOp)
  | send (h : Hart) (table : ProcessTable) (slot : Nat) (msg : Message)
  | recv (h : Hart) (table : ProcessTable) (slot : Nat)
  | kill (h : Hart) (pid : Nat)
  deriving DecidableEq

/-- The thread is about to block. -/
def blocks : SchedOp → Bool
  | .blockCurrent _ | .blockUserFromTrap .. => true
  | _ => false

namespace System

/-- The call of `send`, with the wake-up of the receiver or the donation to its process. -/
def sendCall (w : System) (h : Hart) (table : ProcessTable) (slot : Nat) (msg : Message) :
    Option System :=
  w.currentProc h >>= fun pid =>
    match sendTarget table pid slot with
    | .error _ => some w
    | .ok dst =>
      match sendLocked w.ipc (w.sched.current h) pid dst msg with
      | (some r, ipc) => (w.sched.ipcWakeWithMsg r.recverTid (some msg)).map fun s => ⟨s, ipc⟩
      | (none, ipc) => (w.sched.donateOnBlock (w.sched.current h) dst).map fun s => ⟨s, ipc⟩

/-- The call of `recv`. Nobody gets a donation from a thread that listens to anyone. -/
def recvCall (w : System) (h : Hart) (table : ProcessTable) (slot : Nat) : Option System :=
  w.currentProc h >>= fun pid =>
    match recvSource table pid slot with
    | .error _ => some w
    | .ok src =>
      match recvLocked w.ipc (w.sched.current h) pid src with
      | (some s, ipc) => (w.sched.ipcWakeWithMsg s.senderTid none).map fun s => ⟨s, ipc⟩
      | (none, ipc) =>
        if src ≠ ipcAcceptAny then
          (w.sched.donateOnBlock (w.sched.current h) src).map fun s => ⟨s, ipc⟩
        else some { w with ipc := ipc }

/-- One call. Exits are not part of these runs. -/
def call (b : Boot) (w : System) : CallOp → Option System
  | .sched op =>
    if op.plain || blocks op || op.spawns then
      (w.sched.step b op).map fun s => { w with sched := s }
    else none
  | .send h table slot msg => w.sendCall h table slot msg
  | .recv h table slot => w.recvCall h table slot
  | .kill h pid => w.killProcess h pid

/-- The process that a call donates to. -/
def lendsTo (w : System) : CallOp → Option Nat
  | .send h table slot msg =>
    w.currentProc h >>= fun pid =>
      match sendTarget table pid slot with
      | .error _ => none
      | .ok dst =>
        if (sendLocked w.ipc (w.sched.current h) pid dst msg).1.isNone then some dst else none
  | .recv h table slot =>
    w.currentProc h >>= fun pid =>
      match recvSource table pid slot with
      | .error _ => none
      | .ok src =>
        if (recvLocked w.ipc (w.sched.current h) pid src).1.isNone ∧ src ≠ ipcAcceptAny then
          some src
        else none
  | _ => none

end System

/-- The thread waits for a peer, or has not picked up the result of its call. -/
def Waits (w : System) (tid : Nat) : Prop :=
  tid ∈ w.ipc.waiting ∨ (w.sched.thread tid).ipcWake.isSome

/-- The queues follow the donations, and a thread donates once and while it waits. -/
structure DonationLaw (w : System) : Prop where
  levels : ∀ h l, ∀ id ∈ w.sched.ready h l, l = w.sched.effPrio id
  donors : (w.sched.donations.map Donation.donorTid).Nodup
  waits : ∀ d ∈ w.sched.donations, Waits w d.donorTid

/-- A thread that donates to one process does not make a call that donates to another one, and a kill
meets no thread that has exited before, the caller apart. -/
def LendsOnce (w : System) : CallOp → Prop
  | .sched _ => True
  | .send h table slot msg => ∀ peer ∈ w.lendsTo (.send h table slot msg),
      ∀ d ∈ w.sched.donations, d.donorTid = w.sched.current h → d.peerProc = peer
  | .recv h table slot => ∀ peer ∈ w.lendsTo (.recv h table slot),
      ∀ d ∈ w.sched.donations, d.donorTid = w.sched.current h → d.peerProc = peer
  | .kill h pid => ∀ id ∈ w.sched.victims h pid, (w.sched.thread id).state ≠ .exited

instance (w : System) : ∀ op, Decidable (LendsOnce w op)
  | .sched _ => inferInstanceAs (Decidable True)
  | .send h table slot msg => inferInstanceAs (Decidable (∀ peer ∈
      w.lendsTo (.send h table slot msg), ∀ d ∈ w.sched.donations,
        d.donorTid = w.sched.current h → d.peerProc = peer))
  | .recv h table slot => inferInstanceAs (Decidable (∀ peer ∈ w.lendsTo (.recv h table slot),
      ∀ d ∈ w.sched.donations, d.donorTid = w.sched.current h → d.peerProc = peer))
  | .kill h pid => inferInstanceAs (Decidable (∀ id ∈ w.sched.victims h pid,
      (w.sched.thread id).state ≠ .exited))

/-- The threads of the entries in the queues, with their processes. -/
def IpcState.parties (ipc : IpcState) : List (Nat × Nat) :=
  ipc.recvs.map (fun r => (r.recverTid, r.recverPid)) ++
    ipc.sends.map fun s => (s.senderTid, s.senderPid)

theorem IpcState.waiting_eq (ipc : IpcState) : ipc.waiting = ipc.parties.map Prod.fst := by
  rw [waiting, parties, List.map_append, List.map_map, List.map_map]
  rfl

/-- The slot has a thread. -/
def Held (s : Scheduler) (id : Nat) : Prop := id < s.len ∧ id ∉ s.freeSlots

/-- What the law rests on: donors and waiting threads keep their slots, and an entry names the process
of its thread. -/
structure Donating (w : System) : Prop extends DonationLaw w where
  wf : Settled w.sched
  short : w.sched.donations.length ≤ maxDonations
  held : ∀ d ∈ w.sched.donations, Held w.sched d.donorTid
  parties : ∀ e ∈ w.ipc.parties, Held w.sched e.1 ∧ (w.sched.thread e.1).proc = some e.2

section Calls

variable {w w' : System} {s s' : Scheduler} {ipc' : IpcState} {b : Boot} {h : Hart}
  {tid pid peer : Nat} {r : IpcWake} {op : SchedOp}

/-- Donations stay or go, and so do entries. -/
theorem Donating.kept (hw : Donating w) (hwf : Settled s')
    (hlevels : ∀ h l, ∀ id ∈ s'.ready h l, l = s'.effPrio id)
    (hdonations : s'.donations.Sublist w.sched.donations)
    (hparties : ∀ e ∈ ipc'.parties, e ∈ w.ipc.parties)
    (hheld : ∀ id, Held w.sched id → (∃ d ∈ s'.donations, d.donorTid = id) ∨ id ∈ ipc'.waiting →
      Held s' id ∧ (s'.thread id).proc = (w.sched.thread id).proc)
    (hwaits : ∀ d ∈ s'.donations, Waits w d.donorTid → Waits ⟨s', ipc'⟩ d.donorTid) :
    Donating ⟨s', ipc'⟩ where
  levels := hlevels
  donors := hw.donors.sublist (hdonations.map _)
  waits d hd := hwaits d hd (hw.waits d (hdonations.subset hd))
  wf := hwf
  short := hdonations.length_le.trans hw.short
  held d hd := (hheld _ (hw.held d (hdonations.subset hd)) (.inl ⟨d, hd, rfl⟩)).1
  parties e he := by
    obtain ⟨hslot, hproc⟩ := hw.parties e (hparties e he)
    have hin : e.1 ∈ ipc'.waiting := ipc'.waiting_eq ▸ List.mem_map_of_mem he
    obtain ⟨hslot', hsame⟩ := hheld _ hslot (.inr hin)
    exact ⟨hslot', hsame.trans hproc⟩

theorem Donating.ranked (hw : Donating w) : Ranked w.sched (fun _ => False) w.sched :=
  Ranked.start hw.levels

theorem without_sublist (s : Scheduler) (tid : Nat) :
    (s.without tid).donations.Sublist s.donations := List.filter_sublist

theorem not_mem_without {d : Donation} (hd : d ∈ (s.without tid).donations) : d.donorTid ≠ tid := by
  have hne := (List.mem_filter.mp hd).2
  simpa using hne

/-- A new thread gets a slot that is free or new, so nobody has it. -/
theorem Held.not_slot {id x : Nat} {s₁ : Scheduler} (hx : Held s x)
    (hslot : s.takeSlot = some (id, s₁)) : x ≠ id ∧ x ∉ s₁.freeSlots := by
  obtain ⟨hlt, hfree⟩ := hx
  rw [Scheduler.takeSlot] at hslot
  split at hslot
  · next hslots =>
    obtain ⟨rfl, rfl⟩ := Prod.mk.inj (Option.some.inj hslot)
    rw [hslots, List.mem_cons, not_or] at hfree
    exact hfree
  · split at hslot
    · obtain ⟨rfl, rfl⟩ := Prod.mk.inj (Option.some.inj hslot)
      exact ⟨Nat.ne_of_lt hlt, hfree⟩
    · cases hslot

/-! ## Sections of the scheduler -/

namespace Donating

section

variable (hw : Donating w)
include hw

theorem plain (hop : op.plain = true) (hstep : w.sched.step b op = some s') :
    Donating { w with sched := s' } := by
  have hranked := hw.ranked.plain hop hstep
  have hmoved : Threads Moved w.sched s' := by
    refine step_moved ?_ hstep
    cases op <;> first | rfl | cases hop
  have hwf : Settled s' := by
    refine Wf.step hw.wf hstep ?_
    cases op with
    | killProcess => cases hop
    | _ => trivial
  refine hw.kept hwf hranked.level (hranked.donations ▸ List.Sublist.refl _)
    (fun _ he => he) (fun id hid _ => ⟨⟨?_, ?_⟩, (hmoved.thread id).same.proc⟩)
    fun d _ hwait => hwait.imp_right fun hsome => ?_
  · rw [hmoved.len]
    exact hid.1
  · rw [hranked.freeSlots]
    exact hid.2
  · rw [(hmoved.thread _).ipcWake]
    exact hsome

/-- A thread that is about to block picks up its result and donates no more, or its flags change. -/
theorem sleeps (hop : Ipc.blocks op = true) (hstep : w.sched.step b op = some s') :
    ∃ h, Ranked (if (w.sched.thread (w.sched.current h)).ipcWake.isSome
      then w.sched.without (w.sched.current h) else w.sched) (fun _ => False) s' ∧
      ∃ P, Sleeps w.sched h P s' := by
  cases op with
  | blockCurrent h =>
    obtain ⟨-, ⟨⟩⟩ := Option.ite_none_left_eq_some.mp hstep
    exact ⟨h, hw.ranked.blockCurrent hw.short h, _, blockCurrent_sleeps w.sched h⟩
  | blockUserFromTrap h frame =>
    obtain ⟨-, ⟨⟩⟩ := Option.ite_none_left_eq_some.mp hstep
    exact ⟨h, hw.ranked.blockUserFromTrap hw.short h frame, _,
      blockUserFromTrap_sleeps w.sched h frame⟩
  | _ => cases hop

theorem blocks (hop : blocks op = true) (hstep : w.sched.step b op = some s') :
    Donating { w with sched := s' } := by
  have hwf : Settled s' := by
    refine Wf.step hw.wf hstep ?_
    cases op with
    | killProcess => cases hop
    | _ => trivial
  have hsame : Threads SameThread w.sched s' := by
    refine step_sameThreads ?_ hstep
    cases op <;> first | rfl | cases hop
  obtain ⟨h, hranked, P, hsleeps⟩ := hw.sleeps hop hstep
  refine hw.kept hwf hranked.level ?_ (fun _ he => he)
    (fun id hid _ => ⟨⟨?_, ?_⟩, (hsame.thread id).proc⟩)
    fun d hd hwait => hwait.imp_right fun hsome => ?_
  · rw [hranked.donations]
    split
    · exact without_sublist _ _
    · exact List.Sublist.refl _
  · rw [hsame.len]
    exact hid.1
  · rw [hranked.freeSlots]
    split <;> exact hid.2
  · -- A thread that had a result on record and still donates is not the one that picked it up.
    have hne : d.donorTid ≠ w.sched.current h := by
      intro heq
      rw [heq] at hsome
      rw [hranked.donations, if_pos hsome] at hd
      exact not_mem_without hd heq
    rw [hsleeps.ipcWake_of_ne hne]
    exact hsome

theorem spawns (hop : op.spawns = true) (hstep : w.sched.step b op = some s') :
    Donating { w with sched := s' } := by
  have hwf : Settled s' := by
    refine Wf.step hw.wf hstep ?_
    cases op with
    | killProcess => cases hop
    | _ => trivial
  obtain ⟨id, s₁, hslot, hranked⟩ := hw.ranked.spawned hw.wf hop hstep
  obtain ⟨id', hspawned, -⟩ := step_spawned hop hstep
  obtain ⟨s₂, hslot'⟩ := hspawned.slot
  rw [hslot] at hslot'
  obtain ⟨rfl, rfl⟩ := Prod.mk.inj (Option.some.inj hslot')
  have hne : ∀ x, Held w.sched x → x ≠ id ∧ x ∉ s₁.freeSlots := fun x hx => hx.not_slot hslot
  obtain ⟨free, hs₁⟩ := takeSlot_eq hslot
  have hdonations : s'.donations = w.sched.donations := by rw [hranked.donations, hs₁]
  refine hw.kept hwf hranked.level (hdonations ▸ List.Sublist.refl _)
    (fun _ he => he) (fun x hx _ => ⟨⟨?_, ?_⟩, (hspawned.other x (hne x hx).1).same.proc⟩)
    fun d hd hwait => hwait.imp_right fun hsome => ?_
  · rw [hspawned.len]
    exact lt_of_lt_of_le hx.1 (Nat.le_max_left _ _)
  · rw [hranked.freeSlots]
    exact (hne x hx).2
  · rw [hdonations] at hd
    rw [(hspawned.other _ (hne _ (hw.held d hd)).1).ipcWake]
    exact hsome

/-! ## Results -/

/-- A thread that still donates after a result came for it has the result on record, and the others
keep theirs. -/
theorem noted (hstep : Delivered w.sched tid r s') {d : Donation} (hd : d ∈ s'.donations)
    (hsome : d.donorTid = tid ∨ (w.sched.thread d.donorTid).ipcWake.isSome) :
    (s'.thread d.donorTid).ipcWake.isSome := by
  have hranked := hw.ranked.delivered hw.short hstep
  by_cases heq : d.donorTid = tid
  · have hstate : (w.sched.thread tid).state ≠ .blocked := by
      intro hblocked
      rw [hranked.donations, if_pos hblocked] at hd
      exact not_mem_without hd heq
    have harrives := hstep.arrives
    rw [if_neg hstate] at harrives
    rw [heq, harrives]
    rfl
  · have hkept : (s'.thread d.donorTid).ipcWake = (w.sched.thread d.donorTid).ipcWake := by
      cases hstep with
      | noted => rw [Scheduler.modify_of_ne heq]
      | woken => rw [((moved_rouse _ tid).thread _).ipcWake, Scheduler.modify_of_ne heq]
    rw [hkept]
    exact hsome.resolve_left heq

/-- A result comes for a thread, whose entry may be gone. -/
theorem delivered (hstep : Delivered w.sched tid r s')
    (hparties : ∀ e ∈ ipc'.parties, e ∈ w.ipc.parties)
    (hrest : ∀ x ∈ w.ipc.waiting, x ∈ ipc'.waiting ∨ x = tid) : Donating ⟨s', ipc'⟩ := by
  have hranked := hw.ranked.delivered hw.short hstep
  have hsame := SameThreads.delivered hstep
  refine hw.kept (Wf.delivered hw.wf hstep) hranked.level ?_ hparties
    (fun id hid _ => ⟨⟨?_, ?_⟩, (hsame.thread id).proc⟩) fun d hd hwait => ?_
  · rw [hranked.donations]
    split
    · exact without_sublist _ _
    · exact List.Sublist.refl _
  · rw [hsame.len]
    exact hid.1
  · rw [hranked.freeSlots]
    split <;> exact hid.2
  · rcases hwait with hin | hsome
    · rcases hrest _ hin with hin' | heq
      · exact .inl hin'
      · exact .inr (hw.noted hstep hd (.inl heq))
    · exact .inr (hw.noted hstep hd (.inr hsome))

/-! ## New entries -/

/-- A thread enters the queues. -/
theorem enter (hheld : Held w.sched tid) (hproc : (w.sched.thread tid).proc = some pid)
    (hparties : ∀ e ∈ ipc'.parties, e ∈ w.ipc.parties ∨ e = (tid, pid))
    (hwaiting : ∀ x ∈ w.ipc.waiting, x ∈ ipc'.waiting) : Donating { w with ipc := ipc' } where
  levels := hw.levels
  donors := hw.donors
  waits d hd := (hw.waits d hd).imp_left (hwaiting _)
  wf := hw.wf
  short := hw.short
  held := hw.held
  parties e he := by
    rcases hparties e he with hold | rfl
    · exact hw.parties e hold
    · exact ⟨hheld, hproc⟩

/-- A waiting thread donates to a process, and to no other one. -/
theorem lend (hin : tid ∈ w.ipc.waiting) (hheld : Held w.sched tid)
    (hown : ∀ d ∈ w.sched.donations, d.donorTid = tid → d.peerProc = peer)
    (hstep : w.sched.donateOnBlock tid peer = some s') : Donating { w with sched := s' } := by
  have hwf : Settled s' := Wf.donateOnBlock hw.wf hstep
  have hmoved : Threads Moved w.sched s' := by
    have hop : (SchedOp.donateOnBlock tid peer).moves = true := rfl
    exact step_moved (b := ⟨0, 0, 0, 0, 0⟩) hop hstep
  rw [Scheduler.donateOnBlock] at hstep
  split at hstep
  · cases hstep
    have hranked := hw.ranked.registerDonation hown
    have hslots : ∀ x, Held w.sched x → Held (w.sched.registerDonation tid peer) x := by
      intro x hx
      refine ⟨?_, ?_⟩
      · rw [hmoved.len]
        exact hx.1
      · rw [hranked.freeSlots]
        exact hx.2
    have hwaits : ∀ x, Waits w x →
        Waits { w with sched := w.sched.registerDonation tid peer } x := by
      intro x hx
      refine hx.imp_right fun hsome => ?_
      rw [(hmoved.thread x).ipcWake]
      exact hsome
    have hmem : ∀ d ∈ (w.sched.registerDonation tid peer).donations,
        d ∈ w.sched.donations ∨ d.donorTid = tid := by
      intro d hd
      rw [hranked.donations] at hd
      exact (mem_entered hd).imp_right (congrArg Donation.donorTid)
    refine ⟨⟨hranked.level, ?_, fun d hd => ?_⟩, hwf, ?_, fun d hd => ?_, fun e he => ?_⟩
    · rw [hranked.donations]
      exact nodup_entered hw.donors
    · rcases hmem d hd with hold | heq
      · exact hwaits _ (hw.waits d hold)
      · rw [heq]
        exact .inl hin
    · rw [hranked.donations]
      exact length_entered hw.short
    · rcases hmem d hd with hold | heq
      · exact hslots _ (hw.held d hold)
      · rw [heq]
        exact hslots _ hheld
    · obtain ⟨hslot, hproc⟩ := hw.parties e he
      exact ⟨hslots _ hslot, (hmoved.thread _).same.proc.trans hproc⟩
  · cases hstep

end

/-! ## Kills -/

/-- The wake-ups of a purge: whoever was told and still donates has the result on record. -/
theorem wakeAll (wakes : List (Nat × Nat)) (names : List Nat) (hw : Donating w)
    (htold : ∀ d ∈ w.sched.donations, d.donorTid ∈ names →
      (w.sched.thread d.donorTid).ipcWake.isSome)
    (hwakes : System.wakeAll w.sched wakes = some s') :
    Donating { w with sched := s' } ∧ Threads SameThread w.sched s' ∧
      s'.current = w.sched.current ∧
      (∀ x, (s'.thread x).state = .exited → (w.sched.thread x).state = .exited) ∧
      ∀ d ∈ s'.donations, d.donorTid ∈ names ++ wakes.map Prod.fst →
        (s'.thread d.donorTid).ipcWake.isSome := by
  induction wakes generalizing w names with
  | nil =>
    cases hwakes
    exact ⟨hw, SameThreads.start _, rfl, fun _ hx => hx, by simpa using htold⟩
  | cons wake wakes ih =>
    rw [System.wakeAll, List.foldlM_cons] at hwakes
    obtain ⟨s₁, hwake, hrest⟩ := Option.bind_eq_some_iff.mp hwakes
    have hstep := delivered_ipcWakeWithErr hwake
    have hsame := SameThreads.delivered hstep
    have hranked := hw.ranked.delivered hw.short hstep
    have hone : Donating { w with sched := s₁ } :=
      hw.delivered hstep (fun _ he => he) fun _ hx => .inl hx
    have hplan : s₁.current = w.sched.current ∧
        ∀ x, (s₁.thread x).state = .exited → (w.sched.thread x).state = .exited := by
      have hlt : wake.1 < w.sched.len := by
        by_contra hge
        rw [Scheduler.ipcWakeWithErr, if_neg hge] at hwake
        cases hwake
      obtain ⟨s₂, hwake', hthread, hplan⟩ := wake_told hw.wf hlt wake.2
      rw [hwake] at hwake'
      cases hwake'
      refine ⟨hplan.current, fun x hx => ?_⟩
      rw [hthread] at hx
      by_cases heq : x = wake.1
      · rw [heq, Function.update_self, told] at hx
        rw [heq]
        split at hx
        · cases hx
        · exact hx
      · rwa [Function.update_of_ne heq] at hx
    have hnoted : ∀ d ∈ s₁.donations, d.donorTid ∈ names ++ [wake.1] →
        (s₁.thread d.donorTid).ipcWake.isSome := by
      intro d hd hin
      have hold : d ∈ w.sched.donations := by
        rw [hranked.donations] at hd
        split at hd
        · exact (without_sublist _ _).subset hd
        · exact hd
      refine hw.noted hstep hd ?_
      rcases List.mem_append.mp hin with hin | hin
      · exact .inr (htold d hold hin)
      · exact .inl (List.mem_singleton.mp hin)
    obtain ⟨hdone, hsame', hcurrent', hexited', htold'⟩ := ih (names ++ [wake.1]) hone hnoted hrest
    refine ⟨hdone, hsame.trans allowsMoves_sameThread hsame', hcurrent'.trans hplan.1,
      fun x hx => hplan.2 x (hexited' x hx), fun d hd hin => htold' d hd ?_⟩
    rwa [List.append_assoc]

end Donating

/-- The free slots after a kill. -/
theorem freeSlots_killed {id : Nat} (hin : id ∈ (s.killProcess h pid).2.2.freeSlots) :
    id ∈ s.freeSlots ∨ id ∈ s.victims h pid := by
  have hplan := (samePlan_requeues (killed s h pid)).revokeDonationsOf
    ((samePlan_requeues _).revokeDonationsForProc ⟨rfl, rfl, rfl, rfl, rfl⟩ pid)
    (s.victims h pid ++ [s.current h]) (some pid)
  have hfold : ∀ (ids : List Nat) (t : Scheduler), id ∈ (ids.foldl Scheduler.killThread t).freeSlots →
      id ∈ t.freeSlots ∨ id ∈ ids := by
    intro ids
    induction ids with
    | nil => exact fun t hin => .inl hin
    | cons a ids ih =>
      intro t hin
      rcases ih _ hin with hold | hlater
      · obtain ⟨-, -, -, hfree⟩ := killThread_plan t a
        rw [hfree, List.mem_append] at hold
        rcases hold with hold | hnew
        · exact .inl hold
        · split at hnew
          · exact absurd hnew List.not_mem_nil
          · exact .inr (List.mem_cons.mpr (.inl (List.mem_singleton.mp hnew)))
      · exact .inr (List.mem_cons_of_mem _ hlater)
  rw [killProcess_eq, hplan.freeSlots, killed] at hin
  have hmem := hfold _ _ hin
  exact hmem

/-- The queues follow the donations after a kill. -/
theorem levels_killed (hs : Settled s) (hshort : s.donations.length ≤ maxThreads)
    (hlevels : ∀ h l, ∀ id ∈ s.ready h l, l = s.effPrio id) (h : Hart) (pid : Nat) :
    ∀ h' l, ∀ id ∈ (s.killProcess h pid).2.2.ready h' l,
      l = (s.killProcess h pid).2.2.effPrio id := by
  obtain ⟨hready, hdonations, -, -, hsame, -⟩ := killed_spec s h pid
  have hstart : Ranked (killed s h pid) (fun _ => False) (killed s h pid) := by
    refine Ranked.start fun h' l id hin => ?_
    rw [hready] at hin
    obtain ⟨hin, hnot⟩ := List.mem_filter.mp hin
    simp only [decide_eq_true_eq] at hnot
    rw [hlevels h' l id hin]
    refine (effPrio_congr ?_ ?_ fun _ _ => by rw [hdonations]).symm
    · rw [hsame id hnot]
    · rw [hsame id hnot]
  have habsent : Absent (killed s h pid) pid := fun _ _ _ hin => (queued_killed hs hin).1
  have hpeers := hstart.revokeDonationsForProc habsent
  have hlen : ((killed s h pid).revokeDonationsForProc pid).donations.length ≤ maxThreads := by
    rw [hpeers.donations, hdonations]
    exact (List.length_filter_le _ _).trans hshort
  have hdonors := hpeers.revokeDonationsOf
    ((absent_requeues pid).revokeDonationsForProc habsent pid) hlen
    (s.victims h pid ++ [s.current h])
  rw [killProcess_eq]
  exact hdonors.level

/-- The entries that a purge leaves, and whom it tells. -/
theorem parties_purge {ipc : IpcState} {e : Nat × Nat} :
    (e ∈ (purgeLocked ipc pid).2.parties → e ∈ ipc.parties ∧ e.2 ≠ pid) ∧
    (e ∈ ipc.parties → e.2 ≠ pid →
      e ∈ (purgeLocked ipc pid).2.parties ∨ e.1 ∈ (purgeLocked ipc pid).1.map Prod.fst) := by
  simp only [IpcState.parties, purgeLocked, List.mem_append, List.mem_map, List.mem_filter,
    decide_eq_true_eq, List.map_append, List.map_map]
  constructor
  · rintro (⟨r, ⟨⟨hin, -⟩, hown⟩, rfl⟩ | ⟨s, ⟨⟨hin, -⟩, hown⟩, rfl⟩)
    · exact ⟨.inl ⟨r, hin, rfl⟩, hown⟩
    · exact ⟨.inr ⟨s, hin, rfl⟩, hown⟩
  · rintro (⟨r, hin, rfl⟩ | ⟨s, hin, rfl⟩) hown
    · by_cases hsrc : r.srcPid = pid
      · exact .inr (.inl ⟨r, ⟨hin, hsrc, hown⟩, rfl⟩)
      · exact .inl (.inl ⟨r, ⟨⟨hin, hsrc⟩, hown⟩, rfl⟩)
    · by_cases hdst : s.dstPid = pid
      · exact .inr (.inr ⟨s, ⟨hin, hdst, hown⟩, rfl⟩)
      · exact .inl (.inr ⟨s, ⟨⟨hin, hdst⟩, hown⟩, rfl⟩)

/-- The section of the kill and the purge, after the wake-ups. -/
theorem Donating.purge (hw : Donating w)
    (hlive : ∀ id ∈ w.sched.victims h pid, (w.sched.thread id).state ≠ .exited)
    (htold : ∀ d ∈ w.sched.donations, d.donorTid ∈ (purgeLocked w.ipc pid).1.map Prod.fst →
      (w.sched.thread d.donorTid).ipcWake.isSome) :
    Donating ⟨(w.sched.killProcess h pid).2.2, (purgeLocked w.ipc pid).2⟩ := by
  obtain ⟨hlen, -⟩ := killProcess_plan w.sched h pid
  obtain ⟨hthread, -⟩ := killProcess_thread hw.wf h pid
  obtain ⟨-, -, -, -, hkept, hproc, -⟩ := killed_spec w.sched h pid
  have hwf : Settled (w.sched.killProcess h pid).2.2 := Wf.killProcess hw.wf hlive
  have hlevels := levels_killed hw.wf hw.short hw.levels h pid
  have hdonations : (w.sched.killProcess h pid).2.2.donations = _ := killProcess_donations
  have hfree : ∀ id ∈ (w.sched.killProcess h pid).2.2.freeSlots, _ := fun id => freeSlots_killed
  generalize (w.sched.killProcess h pid).2.2 = s' at hlen hthread hwf hlevels hdonations hfree ⊢
  -- A donation that is left is neither to the process nor from one of its threads.
  have hdonor : ∀ d ∈ s'.donations, d ∈ w.sched.donations ∧ d.donorTid ∉ w.sched.victims h pid ∧
      d.donorTid ≠ w.sched.current h := by
    intro d hd
    rw [hdonations] at hd
    obtain ⟨hd, hdonor⟩ := List.mem_filter.mp hd
    simp only [List.mem_append, List.mem_singleton, not_or, decide_eq_true_eq] at hdonor
    exact ⟨List.mem_of_mem_filter hd, hdonor.1, hdonor.2⟩
  refine hw.kept hwf hlevels ?_ (fun e he => (parties_purge.1 he).1) (fun id hid hnamed => ?_)
    fun d hd hwait => ?_
  · rw [hdonations]
    exact List.filter_sublist.trans List.filter_sublist
  · have hnot : id ∉ w.sched.victims h pid := by
      rcases hnamed with ⟨d, hd, rfl⟩ | hin
      · exact (hdonor d hd).2.1
      · rw [IpcState.waiting_eq] at hin
        obtain ⟨e, he, rfl⟩ := List.mem_map.mp hin
        obtain ⟨hold, hne⟩ := parties_purge.1 he
        obtain ⟨-, hpid⟩ := hw.parties e hold
        rw [mem_victims]
        rintro ⟨-, hvictim, -⟩
        exact hne (Option.some.inj (hpid.symm.trans hvictim))
    refine ⟨⟨?_, fun hin => ?_⟩, ?_⟩
    · rw [hlen]
      exact hid.1
    · rcases hfree id hin with hold | hvictim
      · exact hid.2 hold
      · exact hnot hvictim
    · rw [hthread, hproc]
  · obtain ⟨hold, hnot, hcurrent⟩ := hdonor d hd
    have hwake : (s'.thread d.donorTid).ipcWake = (w.sched.thread d.donorTid).ipcWake := by
      rw [hthread, hkept _ hnot]
    rcases hwait with hin | hsome
    · -- The entry is left, or its thread was told, or it is an entry of the process.
      rw [IpcState.waiting_eq] at hin
      obtain ⟨e, he, heq⟩ := List.mem_map.mp hin
      obtain ⟨hheld, hpid⟩ := hw.parties e he
      have hne : e.2 ≠ pid := by
        rintro rfl
        rw [heq] at hpid hheld
        exact hnot (mem_victims.mpr ⟨hheld.1, hpid, hcurrent⟩)
      rcases parties_purge.2 he hne with hleft | hwoken
      · refine .inl ?_
        rw [IpcState.waiting_eq, ← heq]
        exact List.mem_map_of_mem hleft
      · refine .inr ?_
        rw [hwake]
        exact htold d hold (heq ▸ hwoken)
    · refine .inr ?_
      rw [hwake]
      exact hsome

theorem Donating.kill (hw : Donating w)
    (hlive : ∀ id ∈ w.sched.victims h pid, (w.sched.thread id).state ≠ .exited)
    (hstep : w.killProcess h pid = some w') : Donating w' := by
  obtain ⟨s₁, hwakes, rfl⟩ := Option.map_eq_some_iff.mp hstep
  obtain ⟨hw₁, hsame, hcurrent, hexited, htold⟩ := hw.wakeAll _ [] (by simp) hwakes
  refine hw₁.purge (fun id hid hstate => ?_) htold
  refine hlive id ?_ (hexited id hstate)
  rw [mem_victims] at hid ⊢
  dsimp only at hid
  rwa [hsame.len, (hsame.thread id).proc, hcurrent] at hid

/-! ## Calls of IPC -/

/-- What a call of `send` or `recv` by a thread can do. -/
inductive Talks (w : System) (tid pid : Nat) (lends : Option Nat) : System → Prop where
  | refused : Talks w tid pid lends w
  /-- A peer was waiting. Its entry is gone, and it gets its result. -/
  | matched {x : Nat} {r : IpcWake} {s' : Scheduler} {ipc' : IpcState}
      (hdelivered : Delivered w.sched x r s')
      (hparties : ∀ e ∈ ipc'.parties, e ∈ w.ipc.parties)
      (hrest : ∀ y ∈ w.ipc.waiting, y ∈ ipc'.waiting ∨ y = x) : Talks w tid pid lends ⟨s', ipc'⟩
  /-- The thread waits, and may donate. -/
  | queued {s' : Scheduler} {ipc' : IpcState}
      (hparties : ∀ e, e ∈ ipc'.parties ↔ e ∈ w.ipc.parties ∨ e = (tid, pid))
      (hlends : s' = w.sched ∨ ∃ peer, lends = some peer ∧
        w.sched.donateOnBlock tid peer = some s') : Talks w tid pid lends ⟨s', ipc'⟩

theorem sendCall_talks {table : ProcessTable} {slot : Nat} {msg : Message}
    (hstep : w.sendCall h table slot msg = some w') :
    ∃ pid, w.currentProc h = some pid ∧
      Talks w (w.sched.current h) pid (w.lendsTo (.send h table slot msg)) w' := by
  obtain ⟨pid, hpid, hstep⟩ := Option.bind_eq_some_iff.mp hstep
  refine ⟨pid, hpid, ?_⟩
  simp only [System.lendsTo, hpid, bind, Option.bind_some]
  split at hstep
  · cases hstep
    exact .refused
  · next dst hdst =>
    rcases hlocked : sendLocked w.ipc (w.sched.current h) pid dst msg with ⟨_ | r, ipc'⟩
    · rw [hlocked] at hstep
      obtain ⟨s', hlent, rfl⟩ := Option.map_eq_some_iff.mp hstep
      obtain ⟨rfl, -⟩ := sendLocked_none hlocked
      refine .queued (fun e => ?_) (.inr ⟨dst, ?_, hlent⟩)
      · simp only [IpcState.parties, List.map_append, List.mem_append, List.map_cons, List.map_nil,
          List.mem_singleton, or_assoc]
      · rfl
    · rw [hlocked] at hstep
      obtain ⟨s', hwake, rfl⟩ := Option.map_eq_some_iff.mp hstep
      obtain ⟨-, -, hsends, front, back, hrecvs, hrest⟩ := sendLocked_some hlocked
      refine .matched (delivered_ipcWakeWithMsg hwake) (fun e he => ?_) fun y hy => ?_
      · simp only [IpcState.parties, hsends, hrecvs, hrest, List.map_append, List.map_cons,
          List.mem_append, List.mem_cons] at he ⊢
        tauto
      · simp only [IpcState.waiting, hsends, hrecvs, hrest, List.map_append, List.map_cons,
          List.mem_append, List.mem_cons] at hy ⊢
        tauto

theorem recvCall_talks {table : ProcessTable} {slot : Nat}
    (hstep : w.recvCall h table slot = some w') :
    ∃ pid, w.currentProc h = some pid ∧
      Talks w (w.sched.current h) pid (w.lendsTo (.recv h table slot)) w' := by
  obtain ⟨pid, hpid, hstep⟩ := Option.bind_eq_some_iff.mp hstep
  refine ⟨pid, hpid, ?_⟩
  simp only [System.lendsTo, hpid, bind, Option.bind_some]
  split at hstep
  · cases hstep
    exact .refused
  · next src hsrc =>
    rcases hlocked : recvLocked w.ipc (w.sched.current h) pid src with ⟨_ | m, ipc'⟩
    · rw [hlocked] at hstep
      obtain ⟨rfl, -⟩ := recvLocked_none hlocked
      have hparties : ∀ e, e ∈ IpcState.parties { w.ipc with
          recvs := w.ipc.recvs ++ [⟨w.sched.current h, pid, src⟩] } ↔
          e ∈ w.ipc.parties ∨ e = (w.sched.current h, pid) := by
        intro e
        simp only [IpcState.parties, List.map_append, List.mem_append, List.map_cons, List.map_nil,
          List.mem_singleton]
        tauto
      dsimp only at hstep
      split at hstep
      · next hany =>
        obtain ⟨s', hlent, rfl⟩ := Option.map_eq_some_iff.mp hstep
        exact .queued hparties (.inr ⟨src, if_pos ⟨rfl, hany⟩, hlent⟩)
      · cases hstep
        exact .queued hparties (.inl rfl)
    · rw [hlocked] at hstep
      obtain ⟨s', hwake, rfl⟩ := Option.map_eq_some_iff.mp hstep
      obtain ⟨-, -, hrecvs, front, back, hsends, hrest⟩ := recvLocked_some hlocked
      refine .matched (delivered_ipcWakeWithMsg hwake) (fun e he => ?_) fun y hy => ?_
      · simp only [IpcState.parties, hsends, hrecvs, hrest, List.map_append, List.map_cons,
          List.mem_append, List.mem_cons] at he ⊢
        tauto
      · simp only [IpcState.waiting, hsends, hrecvs, hrest, List.map_append, List.map_cons,
          List.mem_append, List.mem_cons] at hy ⊢
        tauto

/-- The current thread of a process has a slot. -/
theorem held_current (hs : Settled s) (hproc : (s.thread (s.current h)).proc = some pid) :
    Held s (s.current h) := by
  have hid : ¬ s.Idle (s.current h) := by
    rintro ⟨h', heq⟩
    rw [← heq, hs.idle_proc] at hproc
    cases hproc
  refine ⟨hs.current_lt h, fun hfree => ?_⟩
  have hexited := (hs.placed _ (hs.current_lt h) hid).free.mp hfree
  rw [Wf.current_running hs hid] at hexited
  cases hexited

theorem Donating.talks {lends : Option Nat} (hw : Donating w) (hpid : w.currentProc h = some pid)
    (hown : ∀ peer ∈ lends, ∀ d ∈ w.sched.donations,
      d.donorTid = w.sched.current h → d.peerProc = peer)
    (hstep : Talks w (w.sched.current h) pid lends w') : Donating w' := by
  cases hstep with
  | refused => exact hw
  | matched hdelivered hparties hrest => exact hw.delivered hdelivered hparties hrest
  | @queued s' ipc' hparties hlends =>
    have hheld := held_current hw.wf hpid
    have hwaiting : ∀ x, x ∈ ipc'.waiting ↔ x ∈ w.ipc.waiting ∨ x = w.sched.current h := by
      intro x
      simp only [IpcState.waiting_eq, List.mem_map, hparties]
      constructor
      · rintro ⟨e, hold | rfl, rfl⟩
        · exact .inl ⟨e, hold, rfl⟩
        · exact .inr rfl
      · rintro (⟨e, hold, rfl⟩ | rfl)
        · exact ⟨e, .inl hold, rfl⟩
        · exact ⟨_, .inr rfl, rfl⟩
    have hentered : Donating { w with ipc := ipc' } :=
      hw.enter hheld hpid (fun e he => (hparties e).mp he) fun x hx => (hwaiting x).mpr (.inl hx)
    rcases hlends with rfl | ⟨peer, hpeer, hlent⟩
    · exact hentered
    · exact hentered.lend ((hwaiting _).mpr (.inr rfl)) hheld (hown peer hpeer) hlent

/-- A call that meets the condition keeps the law. -/
theorem Donating.call {op : CallOp} (hw : Donating w) (hstep : w.call b op = some w')
    (hlends : LendsOnce w op) : Donating w' := by
  cases op with
  | sched op =>
    obtain ⟨hop, hstep⟩ := Option.ite_none_right_eq_some.mp hstep
    obtain ⟨s', hsection, rfl⟩ := Option.map_eq_some_iff.mp hstep
    rw [Bool.or_eq_true, Bool.or_eq_true] at hop
    rcases hop with (hplain | hblocks) | hspawns
    · exact hw.plain hplain hsection
    · exact hw.blocks hblocks hsection
    · exact hw.spawns hspawns hsection
  | send h table slot msg =>
    obtain ⟨pid, hpid, htalks⟩ := sendCall_talks hstep
    exact hw.talks hpid hlends htalks
  | recv h table slot =>
    obtain ⟨pid, hpid, htalks⟩ := recvCall_talks hstep
    exact hw.talks hpid hlends htalks
  | kill h pid => exact hw.kill hlends hstep

theorem Donating.boot (b : Boot) (stackOf : Hart → Nat) : Donating (System.boot b stackOf) where
  levels _ _ _ hin := absurd hin List.not_mem_nil
  donors := List.nodup_nil
  waits _ hd := absurd hd List.not_mem_nil
  wf := Wf.init b stackOf
  short := Nat.zero_le _
  held _ hd := absurd hd List.not_mem_nil
  parties _ he := absurd he List.not_mem_nil

end Calls

/-! ## Runs -/

/-- From boot on, in every state of a run of calls that lend once: queued threads have the level of
their effective priority, a thread donates at most once, and only while it waits. -/
theorem always_donationLaw (b : Boot) (stackOf : Hart → Nat) (ops : List CallOp)
    (hops : Machine.Each (System.call b) (.boot b stackOf) ops LendsOnce) :
    Machine.Always (System.call b) (.boot b stackOf) ops DonationLaw := by
  have hinv := Machine.always_of_each (Donating.boot b stackOf)
    (fun _ _ _ hw hstep hlends => hw.call hstep hlends) hops
  exact fun first rest w hsplit hrun => (hinv first rest w hsplit hrun).toDonationLaw

/-- Process 0 may talk to processes 1 and 2. -/
def lenderTable : ProcessTable :=
  ⟨[⟨0, 0, fun slot => [Cap.proc 1, .proc 2][slot.val]?⟩, ⟨1, 0, fun _ => none⟩,
    ⟨2, 0, fun _ => none⟩], []⟩

/-- A thread of process 0 sends to process 1, whose thread is queued on another hart with a low
priority, and blocks. It is woken without a result and sends again, to the process of a slot. -/
def lendOps (slot : Nat) : List CallOp :=
  let h : Hart := clampHart 0
  [.sched (.spawnOwned h 0 0 0 0), .sched (.spawnUser (clampHart 1) 1 0 0 0 2 0 0),
    .sched (.yield h), .send h lenderTable 0 (.replicate 5 0), .sched (.blockCurrent h),
    .sched (.wake 4), .sched (.yield h), .sched (.blockResumed h),
    .send h lenderTable slot (.replicate 5 0)]

/-- Sending to the same process again keeps the law. -/
theorem always_donationLaw_lend :
    (∃ w, Machine.run (System.call ⟨0, 0, 0, 0, 0⟩) (.boot ⟨0, 0, 0, 0, 0⟩ fun _ => 0)
      (lendOps 0) = some w ∧ w.sched.donations = [⟨4, 1, clampPrio 0⟩]) ∧
    Machine.Always (System.call ⟨0, 0, 0, 0, 0⟩) (.boot ⟨0, 0, 0, 0, 0⟩ fun _ => 0) (lendOps 0)
      DonationLaw := by
  have hmeets : Machine.meets (System.call ⟨0, 0, 0, 0, 0⟩) (fun w op => decide (LendsOnce w op))
      (.boot ⟨0, 0, 0, 0, 0⟩ fun _ => 0) (lendOps 0) = true := by
    decide +kernel
  refine ⟨?_, always_donationLaw _ _ _ (Machine.each_of_meets (fun _ _ => of_decide_eq_true) hmeets)⟩
  exact Option.map_eq_some_iff.mp (by decide +kernel)

/-- A process is killed twice, so that two new threads of different priorities get one slot. -/
def killTwiceOps : List CallOp :=
  let h : Hart := clampHart 0
  [.sched (.spawnUser h 5 0 0 0 0 0 0), .kill h 5, .kill h 5, .sched (.spawnUser h 6 0 0 0 2 0 0),
    .sched (.spawnUser h 7 0 0 0 0 0 0)]

/-- When the thread sends to another process, the thread of the first one stays at the level of the
donation that is gone; and after two kills of one process a thread is queued at two levels. -/
theorem not_donationLaw :
    (∃ w, Machine.run (System.call ⟨0, 0, 0, 0, 0⟩) (.boot ⟨0, 0, 0, 0, 0⟩ fun _ => 0)
        (lendOps 1) = some w ∧ ¬ DonationLaw w) ∧
    ∃ w, Machine.run (System.call ⟨0, 0, 0, 0, 0⟩) (.boot ⟨0, 0, 0, 0, 0⟩ fun _ => 0)
      killTwiceOps = some w ∧ ¬ DonationLaw w := by
  constructor
  · obtain ⟨w, hw, hrank⟩ : ∃ w, Machine.run (System.call ⟨0, 0, 0, 0, 0⟩)
        (.boot ⟨0, 0, 0, 0, 0⟩ fun _ => 0) (lendOps 1) = some w ∧
        (w.sched.ready (clampHart 1) (clampPrio 0), w.sched.effPrio 5) = ([5], clampPrio 2) :=
      Option.map_eq_some_iff.mp (by decide +kernel)
    obtain ⟨hqueue, hprio⟩ := Prod.mk.inj hrank
    refine ⟨w, hw, fun hlaw => ?_⟩
    have hlevel := hlaw.levels (clampHart 1) (clampPrio 0) 5 (by simp [hqueue])
    rw [hprio] at hlevel
    exact absurd hlevel (by decide)
  · obtain ⟨w, hw, hrank⟩ : ∃ w, Machine.run (System.call ⟨0, 0, 0, 0, 0⟩)
        (.boot ⟨0, 0, 0, 0, 0⟩ fun _ => 0) killTwiceOps = some w ∧
        (w.sched.ready (clampHart 0) (clampPrio 2), w.sched.effPrio 4) = ([4], clampPrio 0) :=
      Option.map_eq_some_iff.mp (by decide +kernel)
    obtain ⟨hqueue, hprio⟩ := Prod.mk.inj hrank
    refine ⟨w, hw, fun hlaw => ?_⟩
    have hlevel := hlaw.levels (clampHart 0) (clampPrio 2) 4 (by simp [hqueue])
    rw [hprio] at hlevel
    exact absurd hlevel (by decide)

end Ignium.Ipc
