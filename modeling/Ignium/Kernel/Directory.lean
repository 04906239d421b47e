import Ignium.Kernel.Effects

/-!
# Who is registered

Services and devices are handed to processes by id, and ids are used again. `Directory` adds to the
kernel a log of the calls of `service_register` and `map_device` that succeeded, and counts how
often a process with an id was destroyed. A process that made such a call and has not been destroyed
since holds the service or the device. `always_directoryLaw` says that the two tables of the kernel
name exactly these holders, that they are alive, and that a new process starts with nothing.

The two tables are kept by the same argument: `Rolls` relates a table to its log, and survives a new
holder (`Rolls.enrol`) and the end of a process (`Rolls.close`).
-/

namespace Ignium.Kernel

open Mem Mmu Function

/-- A call that succeeded: for which service or device, by which process, and how many processes
with the id of the caller had been destroyed before. -/
structure Enrolment where
  id : Nat
  pid : Nat
  since : Nat
  deriving DecidableEq

/-! ## A table and its log -/

/-- The table names the processes that are in the log and have not been destroyed since. -/
structure Rolls (ended : Nat → Nat) (holder : Nat → Option Nat) (log : List Enrolment) : Prop where
  held : ∀ id pid, holder id = some pid ↔ ⟨id, pid, ended pid⟩ ∈ log
  past : ∀ e ∈ log, e.since ≤ ended e.pid

namespace Rolls

variable {ended : Nat → Nat} {holder holder' : Nat → Option Nat} {log : List Enrolment} {id pid : Nat}

theorem start : Rolls ended (fun _ => none) [] := ⟨by simp, by simp⟩

/-- A process becomes the holder, or is it already. -/
theorem enrol (h : Rolls ended holder log) (hfree : holder id = none ∨ holder id = some pid)
    (hnew : ∀ i, holder' i = if i = id then some pid else holder i) :
    Rolls ended holder' (⟨id, pid, ended pid⟩ :: log) := by
  refine ⟨fun i q => ?_, fun e he => ?_⟩
  · rw [hnew, List.mem_cons, Enrolment.mk.injEq]
    by_cases hi : i = id
    · subst hi
      rw [if_pos rfl, Option.some.injEq]
      constructor
      · rintro rfl
        exact .inl ⟨rfl, rfl, rfl⟩
      · rintro (⟨-, rfl, -⟩ | hlog)
        · rfl
        · -- The log knows one holder at most, the one in the table.
          have hq := (h.held i q).mpr hlog
          rcases hfree with hnone | hsome
          · rw [hnone] at hq
            cases hq
          · exact Option.some.inj (hsome.symm.trans hq)
    · rw [if_neg hi, h.held]
      constructor
      · exact .inr
      · rintro (⟨rfl, -, -⟩ | hlog)
        · exact absurd rfl hi
        · exact hlog
  · rcases List.mem_cons.mp he with rfl | he
    · exact Nat.le_refl _
    · exact h.past e he

/-- A process is destroyed and its entries go. -/
theorem close (h : Rolls ended holder log)
    (hnew : ∀ i, holder' i = (holder i).filter fun q => q ≠ pid) :
    Rolls (update ended pid (ended pid + 1)) holder' log := by
  refine ⟨fun i q => ?_, fun e he => ?_⟩
  · rw [hnew, Option.filter_eq_some_iff, decide_eq_true_eq, h.held]
    by_cases hq : q = pid
    · subst hq
      rw [update_self]
      constructor
      · rintro ⟨-, hne⟩
        exact absurd rfl hne
      · intro hlog
        have hpast : ended q + 1 ≤ ended q := h.past _ hlog
        omega
    · rw [update_of_ne hq]
      exact and_iff_left hq
  · have hpast := h.past e he
    by_cases hq : e.pid = pid
    · rw [hq, update_self]
      rw [hq] at hpast
      omega
    · rwa [update_of_ne hq]

end Rolls

/-! ## What the two tables do -/

namespace State

variable {k k' : State} {b : Board}

/-- The process that has claimed a device. -/
def claimant (k : State) (devId : Nat) : Option Nat :=
  if h : devId < maxDevices then (k.devices ⟨devId, h⟩).map Prod.fst else none

/-- Every registration stands at its index, where `lookup` finds it. -/
def Indexed (k : State) : Prop := ∀ slot entry, k.services slot = some entry → entry.id = slot.val

theorem lookup_eq_some {id pid : Nat} :
    k.lookup id = some pid ↔ ∃ hid : id < maxServices, k.services ⟨id, hid⟩ = some ⟨id, pid⟩ := by
  unfold lookup
  by_cases hid : id < maxServices
  · rw [dif_pos hid, Option.map_eq_some_iff]
    constructor
    · rintro ⟨⟨i, p⟩, hentry, rfl⟩
      obtain ⟨hentry, hi⟩ := Option.filter_eq_some_iff.mp hentry
      obtain rfl : i = id := of_decide_eq_true hi
      exact ⟨hid, hentry⟩
    · rintro ⟨_, hentry⟩
      exact ⟨⟨id, pid⟩, Option.filter_eq_some_iff.mpr ⟨hentry, decide_eq_true rfl⟩, rfl⟩
  · rw [dif_neg hid]
    constructor
    · rintro ⟨⟩
    · rintro ⟨hid', -⟩
      exact absurd hid' hid

/-- `registerService` fails, or it enters a live process for a service that had none. -/
theorem registerService_cases (k : State) (pid id : Nat) :
    (∃ e, k.registerService pid id = (.error e, k)) ∨
    ∃ hid : id < maxServices, k.table.pidRoot pid ≠ none ∧ k.services ⟨id, hid⟩ = none ∧
      k.registerService pid id =
        (.ok (), { k with services := update k.services ⟨id, hid⟩ (some ⟨id, pid⟩) }) := by
  unfold registerService registerLocked
  cases hget : k.table.get pid with
  | none => exact .inl ⟨_, rfl⟩
  | some p =>
    have hlive : k.table.pidRoot pid ≠ none := by
      rw [Ne, ProcessTable.pidRoot_eq_none, hget]
      exact Option.some_ne_none p
    rw [if_neg (by simp)]
    by_cases hrange : id = 0 ∨ id ≥ maxServices
    · rw [dif_pos hrange]
      exact .inl ⟨_, rfl⟩
    · rw [dif_neg hrange]
      have hid : id < maxServices := by omega
      dsimp only
      cases hslot : k.services ⟨id, hid⟩ with
      | none => exact .inr ⟨hid, hlive, hslot, rfl⟩
      | some entry => exact .inl ⟨_, rfl⟩

/-- Looking up after a registration. -/
theorem lookup_register (k : State) (pid : Nat) {id : Nat} (hid : id < maxServices) (i : Nat) :
    ({ k with services := update k.services ⟨id, hid⟩ (some ⟨id, pid⟩) } : State).lookup i =
      if i = id then some pid else k.lookup i := by
  by_cases hi : i = id
  · subst hi
    rw [if_pos rfl, lookup_eq_some]
    exact ⟨hid, update_self _ _ _⟩
  · rw [if_neg hi]
    unfold lookup
    split
    · next hlt =>
      have hne : (⟨i, hlt⟩ : Fin maxServices) ≠ ⟨id, hid⟩ := fun heq => hi (congrArg Fin.val heq)
      dsimp only
      rw [update_of_ne hne]
    · rfl

theorem lookup_unregisterAll {pid : Nat} (i : Nat) :
    (k.unregisterAll pid).lookup i = (k.lookup i).filter fun q => q ≠ pid := by
  refine Option.ext fun q => ?_
  rw [lookup_eq_some, Option.filter_eq_some_iff, lookup_eq_some, decide_eq_true_eq]
  constructor
  · rintro ⟨hid, hentry⟩
    obtain ⟨hentry, hne⟩ := Option.filter_eq_some_iff.mp hentry
    exact ⟨⟨hid, hentry⟩, of_decide_eq_true hne⟩
  · rintro ⟨⟨hid, hentry⟩, hne⟩
    exact ⟨hid, Option.filter_eq_some_iff.mpr ⟨hentry, decide_eq_true hne⟩⟩

theorem claimant_eq_some {devId pid : Nat} :
    k.claimant devId = some pid ↔
      ∃ (hdev : devId < maxDevices) (va : Nat), k.devices ⟨devId, hdev⟩ = some (pid, va) := by
  unfold claimant
  by_cases hdev : devId < maxDevices
  · rw [dif_pos hdev, Option.map_eq_some_iff]
    constructor
    · rintro ⟨⟨q, va⟩, hclaim, rfl⟩
      exact ⟨hdev, va, hclaim⟩
    · rintro ⟨_, va, hclaim⟩
      exact ⟨(pid, va), hclaim, rfl⟩
  · rw [dif_neg hdev]
    constructor
    · rintro ⟨⟩
    · rintro ⟨hdev', -⟩
      exact absurd hdev' hdev

theorem claimant_releaseAll {pid : Nat} (i : Nat) :
    (k.releaseAll pid).claimant i = (k.claimant i).filter fun q => q ≠ pid := by
  refine Option.ext fun q => ?_
  rw [claimant_eq_some, Option.filter_eq_some_iff, claimant_eq_some, decide_eq_true_eq]
  constructor
  · rintro ⟨hdev, va, hclaim⟩
    obtain ⟨hclaim, hne⟩ := Option.filter_eq_some_iff.mp hclaim
    exact ⟨⟨hdev, va, hclaim⟩, of_decide_eq_true hne⟩
  · rintro ⟨⟨hdev, va, hclaim⟩, hne⟩
    exact ⟨hdev, va, Option.filter_eq_some_iff.mpr ⟨hclaim, decide_eq_true hne⟩⟩

/-- `map` of a device fails and claims nothing, or the caller is the claimant afterwards. -/
theorem deviceMap_claims {caller devId va : Nat} {r : Except Nat Unit}
    (h : k.deviceMap b caller devId va = some (r, k')) :
    (∃ e, r = .error e ∧ k'.devices = k.devices) ∨
      (r = .ok () ∧ k.table.pidRoot caller ≠ none ∧
        (k.claimant devId = none ∨ k.claimant devId = some caller) ∧
        ∀ i, k'.claimant i = if i = devId then some caller else k.claimant i) := by
  unfold deviceMap at h
  by_cases hdev : devId = 0
  · subst hdev
    rw [dif_pos rfl] at h
    dsimp only at h
    split at h
    · cases h
      exact .inl ⟨_, rfl, rfl⟩
    cases hroot : k.table.pidRoot caller with
    | none =>
      rw [hroot] at h
      cases h
      exact .inl ⟨_, rfl, rfl⟩
    | some root =>
      rw [hroot] at h
      dsimp only at h
      have hlive : some root ≠ none := Option.some_ne_none root
      cases hclaim : k.devices ⟨0, by decide⟩ with
      | none =>
        have hnone : k.claimant 0 = none := congrArg (Option.map Prod.fst) hclaim
        rw [hclaim] at h
        dsimp only at h
        rcases hmap : mapDevicePage k.mem root va b.uartBase mapFlags with _ | ⟨_ | _, m⟩
        · rw [hmap] at h
          cases h
        · rw [hmap] at h
          cases h
          exact .inl ⟨_, rfl, rfl⟩
        · rw [hmap] at h
          cases h
          refine .inr ⟨rfl, hlive, .inl hnone, fun i => ?_⟩
          refine Option.ext fun q => ?_
          by_cases hi : i = 0
          · subst hi
            rfl
          · rw [if_neg hi]
            unfold claimant
            split
            · next hlt =>
              have hne : (⟨i, hlt⟩ : Fin maxDevices) ≠ ⟨0, by decide⟩ :=
                fun heq => hi (congrArg Fin.val heq)
              dsimp only
              rw [update_of_ne hne]
            · rfl
      | some claim =>
        rw [hclaim] at h
        dsimp only at h
        split at h
        · cases h
          exact .inl ⟨_, rfl, rfl⟩
        · next hsame =>
          split at h
          · cases h
            exact .inl ⟨_, rfl, rfl⟩
          · cases h
            have hcaller : k.claimant 0 = some caller := by
              refine (congrArg (Option.map Prod.fst) hclaim).trans ?_
              exact congrArg some (not_not.mp hsame)
            refine .inr ⟨rfl, hlive, .inr hcaller, fun i => ?_⟩
            split
            · next hi => rw [hi, hcaller]
            · rfl
  · rw [dif_neg hdev] at h
    cases h
    exact .inl ⟨_, rfl, rfl⟩

/-- Destroying a live process drops its registrations and claims. -/
theorem destroy_tables {pid : Nat} (hk : k.Sound) (hlive : (k.table.get pid).isSome)
    (h : k.destroy pid = some k') :
    k'.table.pidRoot pid = none ∧ (∀ i, k'.lookup i = (k.lookup i).filter fun q => q ≠ pid) ∧
      (∀ i, k'.claimant i = (k.claimant i).filter fun q => q ≠ pid) ∧ (k.Indexed → k'.Indexed) := by
  obtain ⟨hdead, -⟩ | ⟨p, k₁, k₂, root, table, m, -, -, -, h₁, h₂, hretire, -, rfl⟩ :=
    destroy_cases hk h
  · rw [hdead] at hlive
    cases hlive
  have hservices : k₂.services = k.services := h₂.services.trans h₁.services
  have hdevices : k₂.devices = k.devices := h₂.devices.trans h₁.devices
  refine ⟨?_, fun i => ?_, fun i => ?_, fun hindexed slot entry hentry => ?_⟩
  · change table.pidRoot pid = none
    rw [(h₂.sound.table.retire hretire).2.roots, if_pos rfl]
  · have hlookup : k₂.lookup i = k.lookup i := by
      unfold lookup
      rw [hservices]
    rw [← hlookup]
    exact lookup_unregisterAll (k := k₂) i
  · have hclaimant : k₂.claimant i = k.claimant i := by
      unfold claimant
      rw [hdevices]
    rw [← hclaimant]
    exact claimant_releaseAll (k := k₂) i
  · have hold : k₂.services slot = some entry := (Option.filter_eq_some_iff.mp hentry).1
    rw [hservices] at hold
    exact hindexed slot entry hold

end State

/-! ## The kernel with its log -/

/-- The kernel with a history: how many processes with an id were destroyed, and the calls of
`service_register` and `map_device` that succeeded. -/
structure Directory where
  kernel : State
  ended : Nat → Nat
  registered : List Enrolment
  claimed : List Enrolment

namespace Directory

/-- Destroying a live process is counted. -/
def recount (s : Directory) : KernelOp → Nat → Nat
  | .destroy pid =>
    if (s.kernel.table.get pid).isSome then update s.ended pid (s.ended pid + 1)
    else s.ended
  | _ => s.ended

/-- A registration is logged. -/
def logRegister (s : Directory) : KernelOp → List Enrolment
  | .serviceRegister caller id =>
    match (s.kernel.registerService caller id).1 with
    | .ok _ => ⟨id, caller, s.ended caller⟩ :: s.registered
    | .error _ => s.registered
  | _ => s.registered

/-- A claim is logged, also when the caller has the device already. -/
def logClaim (b : Board) (s : Directory) : KernelOp → List Enrolment
  | .mapDevice caller devId va =>
    match s.kernel.deviceMap b caller devId va with
    | some (.ok _, _) => ⟨devId, caller, s.ended caller⟩ :: s.claimed
    | _ => s.claimed
  | _ => s.claimed

/-- One operation of the kernel, with its history. -/
def step (b : Board) (s : Directory) (op : KernelOp) : Option Directory :=
  (s.kernel.step b op).map fun k => ⟨k, s.recount op, s.logRegister op, s.logClaim b op⟩

/-- The kernel before the first process is created. -/
def start (mem : Usage) : Directory := ⟨boot mem, fun _ => 0, [], []⟩

/-- The ids of the live processes. -/
def live (s : Directory) : List Nat := s.kernel.table.registry.live Process.id

/-- The tables name live processes only. A process holds a service or a device if it got it by a
call and has not been destroyed since. -/
structure DirectoryLaw (s : Directory) : Prop where
  /-- The free queue holds the dead slots, each once. -/
  queue : s.kernel.table.free.Nodup ∧ ∀ pid, pid ∈ s.kernel.table.free ↔
    pid < s.kernel.table.slots.length ∧ s.kernel.table.get pid = none
  bound : s.live.length ≤ maxProcesses
  /-- A registered service belongs to a process that is alive and has not been destroyed since. -/
  services : ∀ slot entry, s.kernel.services slot = some entry → entry.id = slot.val ∧
    entry.pid ∈ s.live ∧ ⟨slot, entry.pid, s.ended entry.pid⟩ ∈ s.registered
  /-- A claimed device belongs to such a process, too. -/
  devices : ∀ slot pid va, s.kernel.devices slot = some (pid, va) →
    pid ∈ s.live ∧ ⟨slot, pid, s.ended pid⟩ ∈ s.claimed
  /-- A service has one holder at most, the one that `lookup` finds. -/
  oneServer : ∀ id p, ⟨id, p, s.ended p⟩ ∈ s.registered → s.kernel.lookup id = some p
  /-- A device has one holder at most, the one in the table. -/
  oneClaimant : ∀ id p, ⟨id, p, s.ended p⟩ ∈ s.claimed → s.kernel.claimant id = some p

/-- A new process has no capability, no service and no device. -/
def CreatesBlank (b : Board) (s : Directory) (op : KernelOp) (s' : Directory) : Prop :=
  ∀ pid k, op = .create → s.kernel.create b = some (.ok pid, k) →
    (∀ slot, s'.kernel.table.capAt pid slot = none) ∧
    (∀ slot entry, s'.kernel.services slot = some entry → entry.pid ≠ pid) ∧
    ∀ slot claim, s'.kernel.devices slot = some claim → claim.1 ≠ pid

/-! ## The invariant -/

/-- The tables agree with their logs and name live processes. -/
structure Inv (s : Directory) : Prop where
  sound : s.kernel.Sound
  indexed : s.kernel.Indexed
  services : Rolls s.ended s.kernel.lookup s.registered
  devices : Rolls s.ended s.kernel.claimant s.claimed
  serving : ∀ id pid, s.kernel.lookup id = some pid → s.kernel.table.pidRoot pid ≠ none
  claiming : ∀ id pid, s.kernel.claimant id = some pid → s.kernel.table.pidRoot pid ≠ none

variable {s s' : Directory} {b : Board} {k k' : State} {op : KernelOp}

theorem inv_start (mem : Usage) : (start mem).Inv where
  sound := State.sound_boot mem
  indexed := by
    rintro slot entry ⟨⟩
  services := by
    have hnone : (start mem).kernel.lookup = fun _ => none := by
      funext id
      unfold State.lookup
      split <;> rfl
    rw [hnone]
    exact Rolls.start
  devices := by
    have hnone : (start mem).kernel.claimant = fun _ => none := by
      funext id
      unfold State.claimant
      split <;> rfl
    rw [hnone]
    exact Rolls.start
  serving id pid h := by
    obtain ⟨hid, ⟨⟩⟩ := State.lookup_eq_some.mp h
  claiming id pid h := by
    obtain ⟨hid, va, ⟨⟩⟩ := State.claimant_eq_some.mp h

theorem mem_live {pid : Nat} : pid ∈ s.live ↔ s.kernel.table.pidRoot pid ≠ none := by
  rw [live, Registry.mem_live, ProcessTable.get_registry, Ne, ProcessTable.pidRoot_eq_none,
    Option.isSome_iff_ne_none]

theorem Inv.directoryLaw (h : s.Inv) : s.DirectoryLaw where
  queue := ⟨h.sound.table.registry.nodup, fun pid => ⟨h.sound.table.registry.dead pid,
    fun hdead => h.sound.table.registry.queued pid hdead.1 hdead.2⟩⟩
  bound := Registry.length_live_le.trans h.sound.table.length
  services slot entry hentry := by
    have hid : entry.id = slot.val := h.indexed slot entry hentry
    have hlookup : s.kernel.lookup slot = some entry.pid := by
      refine State.lookup_eq_some.mpr ⟨slot.isLt, hentry.trans ?_⟩
      rw [← hid]
    exact ⟨hid, mem_live.mpr (h.serving _ _ hlookup), (h.services.held _ _).mp hlookup⟩
  devices slot pid va hclaim := by
    have hclaimant : s.kernel.claimant slot = some pid :=
      State.claimant_eq_some.mpr ⟨slot.isLt, va, hclaim⟩
    exact ⟨mem_live.mpr (h.claiming _ _ hclaimant), (h.devices.held _ _).mp hclaimant⟩
  oneServer id p hp := (h.services.held id p).mpr hp
  oneClaimant id p hp := (h.devices.held id p).mpr hp

/-- An operation that registers nothing and ends no process. -/
theorem Inv.lives (h : s.Inv) (hsound : k.Sound) (hlives : State.Lives s.kernel k) :
    Inv ⟨k, s.ended, s.registered, s.claimed⟩ := by
  have hlookup : k.lookup = s.kernel.lookup := by
    funext id
    unfold State.lookup
    rw [hlives.services]
  have hclaimant : k.claimant = s.kernel.claimant := by
    funext id
    unfold State.claimant
    rw [hlives.devices]
  refine ⟨hsound, fun slot entry hentry => ?_, ?_, ?_, fun id pid hid => ?_, fun id pid hid => ?_⟩
  · rw [hlives.services] at hentry
    exact h.indexed slot entry hentry
  · rw [hlookup]
    exact h.services
  · rw [hclaimant]
    exact h.devices
  · rw [hlookup] at hid
    exact hlives.roots pid (h.serving id pid hid)
  · rw [hclaimant] at hid
    exact hlives.roots pid (h.claiming id pid hid)

theorem Inv.destroy {pid : Nat} (h : s.Inv) (hsound : k.Sound)
    (hdestroy : s.kernel.destroy pid = some k) :
    Inv ⟨k, s.recount (.destroy pid), s.registered, s.claimed⟩ := by
  unfold recount
  dsimp only
  by_cases hlive : (s.kernel.table.get pid).isSome
  · rw [if_pos hlive]
    obtain ⟨hdead, hlookup, hclaimant, hindexed⟩ := State.destroy_tables h.sound hlive hdestroy
    refine ⟨hsound, hindexed h.indexed, h.services.close hlookup, h.devices.close hclaimant,
      fun id q hid => ?_, fun id q hid => ?_⟩
    · rw [hlookup] at hid
      obtain ⟨hid, hne⟩ := Option.filter_eq_some_iff.mp hid
      exact State.destroy_lives h.sound hdestroy (of_decide_eq_true hne) (h.serving id q hid)
    · rw [hclaimant] at hid
      obtain ⟨hid, hne⟩ := Option.filter_eq_some_iff.mp hid
      exact State.destroy_lives h.sound hdestroy (of_decide_eq_true hne) (h.claiming id q hid)
  · rw [if_neg hlive]
    have hdead : s.kernel.table.get pid = none := Option.not_isSome_iff_eq_none.mp hlive
    unfold State.destroy at hdestroy
    rw [hdead] at hdestroy
    cases hdestroy
    exact h

theorem Inv.register (h : s.Inv) (caller id : Nat) :
    Inv ⟨(s.kernel.registerService caller id).2, s.ended, s.logRegister (.serviceRegister caller id),
      s.claimed⟩ := by
  unfold logRegister
  dsimp only
  obtain ⟨e, heq⟩ | ⟨hid, hlive, hfree, heq⟩ := State.registerService_cases s.kernel caller id
  · rw [heq]
    exact h
  · rw [heq]
    have hlookup := State.lookup_register s.kernel caller hid
    have hnone : s.kernel.lookup id = none := by
      rw [Option.eq_none_iff_forall_ne_some]
      intro q hq
      obtain ⟨_, hentry⟩ := State.lookup_eq_some.mp hq
      rw [hfree] at hentry
      cases hentry
    refine ⟨⟨h.sound.table, h.sound.shm, h.sound.shmLength, h.sound.pages, h.sound.pagesLength⟩,
      fun slot entry hentry => ?_, h.services.enrol (.inl hnone) hlookup, h.devices,
      fun i q hi => ?_, h.claiming⟩
    · dsimp only at hentry
      by_cases hslot : slot = ⟨id, hid⟩
      · rw [hslot, update_self] at hentry
        cases hentry
        rw [hslot]
      · rw [update_of_ne hslot] at hentry
        exact h.indexed slot entry hentry
    · rw [hlookup] at hi
      split at hi
      · cases hi
        exact hlive
      · exact h.serving i q hi

theorem Inv.mapDevice {caller devId va : Nat} {r : Except Nat Unit} (h : s.Inv) (hsound : k.Sound)
    (hcall : s.kernel.deviceMap b caller devId va = some (r, k))
    (hservices : k.services = s.kernel.services) (htable : k.table = s.kernel.table) :
    Inv ⟨k, s.ended, s.registered, s.logClaim b (.mapDevice caller devId va)⟩ := by
  unfold logClaim
  dsimp only
  rw [hcall]
  obtain ⟨e, rfl, hdevices⟩ | ⟨rfl, hlive, hfree, hclaimant⟩ := State.deviceMap_claims hcall
  · exact h.lives hsound ⟨hservices, hdevices, fun q hq => by rwa [htable]⟩
  · have hlookup : k.lookup = s.kernel.lookup := by
      funext id
      unfold State.lookup
      rw [hservices]
    refine ⟨hsound, fun slot entry hentry => ?_, ?_, h.devices.enrol hfree hclaimant,
      fun id pid hid => ?_, fun id pid hid => ?_⟩
    · rw [hservices] at hentry
      exact h.indexed slot entry hentry
    · rw [hlookup]
      exact h.services
    · rw [hlookup] at hid
      rw [htable]
      exact h.serving id pid hid
    · rw [htable]
      rw [hclaimant] at hid
      split at hid
      · cases hid
        exact hlive
      · exact h.claiming id pid hid

/-- Every operation keeps the invariant. -/
theorem Inv.step (h : s.Inv) (hstep : s.step b op = some s') : s'.Inv := by
  obtain ⟨k, hkernel, rfl⟩ := Option.map_eq_some_iff.mp hstep
  have hsound := h.sound.step hkernel
  cases op with
  | destroy pid => exact h.destroy hsound hkernel
  | serviceRegister caller id =>
    cases hkernel
    exact h.register caller id
  | mapDevice caller devId va =>
    obtain ⟨hservices, htable⟩ := State.mapDevice_lives hkernel
    obtain ⟨r, hcall⟩ := Outcome.discard_eq_some hkernel
    exact h.mapDevice hsound hcall hservices htable
  | _ =>
    obtain hlives | ⟨_, ⟨⟩⟩ | ⟨_, _, ⟨⟩⟩ | ⟨_, _, _, ⟨⟩⟩ := State.step_lives h.sound hkernel
    exact h.lives hsound hlives

/-- No table names an id that is free. -/
theorem Inv.createsBlank (h : s.Inv) (hstep : s.step b op = some s') : CreatesBlank b s op s' := by
  rintro pid k rfl hcreate
  obtain ⟨k', hkernel, rfl⟩ := Option.map_eq_some_iff.mp hstep
  obtain rfl : k = k' := by
    rw [State.step, hcreate] at hkernel
    exact Option.some.inj hkernel
  obtain ⟨m, -, ⟨⟩, -⟩ | ⟨root, m, -, hroom, hpid, rfl⟩ := State.create_cases hcreate
  have henters : s.kernel.table.Enters _ _ root := h.sound.table.enter hroom
  obtain rfl : pid = (s.kernel.table.enter root).1 := Except.ok.inj hpid
  have hfresh := henters.fresh
  refine ⟨fun slot => ?_, fun slot entry hentry hpid => ?_, fun slot claim hclaim hpid => ?_⟩
  · change (s.kernel.table.enter root).2.capAt _ slot = none
    rw [henters.caps]
    exact ProcessTable.capAt_of_pidRoot hfresh
  · have hlive := (h.directoryLaw.services slot entry hentry).2.1
    rw [hpid, mem_live] at hlive
    exact hlive hfresh
  · have hlive := (h.directoryLaw.devices slot claim.1 claim.2 hclaim).1
    rw [hpid, mem_live] at hlive
    exact hlive hfresh

/-- In every run the tables name live processes only, and every new process starts with nothing. -/
theorem always_directoryLaw (b : Board) (mem : Usage) (ops : List KernelOp) :
    Machine.Always (step b) (start mem) ops DirectoryLaw ∧
      Machine.Steps (step b) (start mem) ops (CreatesBlank b) := by
  have hinv : Machine.Always (step b) (start mem) ops Inv :=
    Machine.always_of_step (inv_start mem) fun _ _ _ h hstep => h.step hstep
  refine ⟨fun first rest s hops hrun => ?_, fun first op rest s s' hops hrun hstep => ?_⟩
  · exact (hinv first rest s hops hrun).directoryLaw
  · exact (hinv first (op :: rest) s hops hrun).createsBlank hstep

set_option maxRecDepth 100000 in
/-- Process 1 registers a service and claims the UART. The process that gets its id later can do the
same. -/
example : (Machine.run (step smallBoard) (start smallMem)
    [.create, .create, .serviceRegister 1 1, .mapDevice 1 0 0x10000000, .destroy 1, .create,
      .serviceRegister 1 1]).map (fun s => (s.kernel.lookup 1, s.kernel.claimant 0, s.registered)) =
    some (some 1, none, [⟨1, 1, 1⟩, ⟨1, 1, 0⟩]) := by
  decide +kernel

end Directory

end Ignium.Kernel
