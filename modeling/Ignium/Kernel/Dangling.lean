import Ignium.Kernel.Effects

/-!
# Capabilities for shared pages

Ids of shared pages are recycled, so a capability must not outlive the record it names. Revoking a
shared page empties the two slots that its record names and no others, and `capDuplicate` copies a
capability to a slot that no record names. `always_shmLaw_iff` says which runs are affected: those
with a revocation that leaves a copy behind.
-/

namespace Ignium.Kernel.State

open Mem Mmu

variable {k k' : State} {b : Board} {op : KernelOp}

/-- A capability for a shared page names a live record, of which its holder is an owner. -/
def ShmHeld (k : State) : Prop :=
  ∀ pid slot id, k.table.capAt pid slot = some (.shm id) →
    ∃ sp, k.sharedPage id = some sp ∧ (pid = sp.first.1 ∨ pid = sp.second.1)

/-- Giving up a capability destroys no shared page of other processes. -/
def RevokesOwn (k : State) : Prop :=
  ∀ caller slot r k' id sp, k.capRevoke caller slot = some (r, k') → k.sharedPage id = some sp →
    k'.sharedPage id ≠ some sp → caller = sp.first.1 ∨ caller = sp.second.1

/-- Capabilities for shared pages do not dangle. -/
def ShmLaw (k : State) : Prop := ShmHeld k ∧ RevokesOwn k

/-- The shared pages that an operation revokes. -/
def revokedIds (k : State) : KernelOp → List Nat
  | .capRevoke caller slot =>
    match k.table.capAt caller slot with
    | some (.shm id) => [id]
    | _ => []
  | .destroy pid =>
    match k.table.get pid with
    | some p => shmIds p
    | none => []
  | _ => []

/-- Whether a process is there after an operation, as far as the operation decides it. -/
def Survives : KernelOp → Nat → Prop
  | .destroy pid, q => q ≠ pid
  | _, _ => True

/-- Every copy of a capability for a page that the operation revokes, in a process that survives,
is in a slot that the revoked records name. -/
def RevokesWholly (k : State) (op : KernelOp) : Prop :=
  ∀ q slot id, id ∈ k.revokedIds op → k.table.capAt q slot = some (.shm id) → Survives op q →
    k.Recorded (k.revokedIds op) q slot

/-! ## Operations that revoke -/

/-- What an operation that revokes does to records and to capabilities for shared pages. -/
structure Drops (k k' : State) (op : KernelOp) : Prop where
  records : ∀ id, k'.sharedPage id = if id ∈ k.revokedIds op then none else k.sharedPage id
  before : ∀ q s id, k'.table.capAt q s = some (.shm id) → k.table.capAt q s = some (.shm id) ∧
    ¬ k.Recorded (k.revokedIds op) q s ∧ Survives op q
  after : ∀ q s id, id ∈ k.revokedIds op → k.table.capAt q s = some (.shm id) →
    ¬ k.Recorded (k.revokedIds op) q s → Survives op q → k'.table.capAt q s = some (.shm id)

theorem not_recorded_nil (k : State) (q s : Nat) : ¬ k.Recorded [] q s := by
  rintro ⟨id, hid, -⟩
  simp at hid

theorem Revoked.before {ids : List Nat} {q s id : Nat} (h : Revoked k k' ids)
    (hcap : k'.table.capAt q s = some (.shm id)) :
    k.table.capAt q s = some (.shm id) ∧ ¬ k.Recorded ids q s := by
  have hkept : ¬ k.Recorded ids q s := by
    intro hrec
    rw [h.cleared q s hrec] at hcap
    cases hcap
  exact ⟨by rw [← h.kept q s hkept, hcap], hkept⟩

/-- An operation that revokes nothing and writes no capability for a shared page. -/
theorem Drops.of_nil (hids : k.revokedIds op = []) (hsurvives : ∀ q, Survives op q)
    (hshm : k'.shm = k.shm) (hcaps : ∀ q s id, k'.table.capAt q s = some (.shm id) →
      k.table.capAt q s = some (.shm id)) : Drops k k' op := by
  refine ⟨fun id => ?_, fun q s id hcap => ⟨hcaps q s id hcap, ?_, hsurvives q⟩,
    fun q s id hid => ?_⟩
  · rw [hids, sharedPage, hshm]
    simp [sharedPage]
  · rw [hids]
    exact not_recorded_nil k q s
  · rw [hids] at hid
    simp at hid

/-- Clearing a slot brings no capability back. -/
theorem capAt_of_clearCap {t : ProcessTable} {pid slot q s : Nat} {cap : Cap}
    (h : (t.clearCap pid slot).2.capAt q s = some cap) : t.capAt q s = some cap := by
  rw [(t.writes_clearCap pid slot).caps] at h
  split at h
  · cases h
  · exact h

theorem drops_capRevoke {caller slot : Nat} {r : Except CapError Unit} (hk : k.Sound)
    (h : k.capRevoke caller slot = some (r, k')) : Drops k k' (.capRevoke caller slot) := by
  obtain ⟨hcap, rfl⟩ | ⟨id, r', hcap, hrevoke⟩ | ⟨q, hcap, rfl⟩ | ⟨id, r', k₁, hcap, hrevoke, hend⟩ :=
    capRevoke_cases h
  · exact Drops.of_nil (by simp [revokedIds, hcap]) (fun _ => trivial) rfl fun _ _ _ hq => hq
  · have hids : k.revokedIds (.capRevoke caller slot) = [id] := by simp [revokedIds, hcap]
    have hone := revoked_shmRevoke hk hrevoke
    refine ⟨fun other => ?_, fun q s other hq => ?_, fun q s other _ hq hrec _ => ?_⟩
    · rw [hids, hone.records]
    · rw [hids]
      exact ⟨(hone.before hq).1, (hone.before hq).2, trivial⟩
    · rw [hids] at hrec
      rw [hone.kept q s hrec, hq]
  · exact Drops.of_nil (by simp [revokedIds, hcap]) (fun _ => trivial) rfl
      fun _ _ _ hq => capAt_of_clearCap hq
  · have hpage := pagesRevoked_pagesRevoke hk hrevoke
    have hids : k.revokedIds (.capRevoke caller slot) = [] := by simp [revokedIds, hcap]
    obtain ⟨-, rfl⟩ | ⟨-, rfl⟩ := hend
    · exact Drops.of_nil hids (fun _ => trivial) hpage.shm fun q s id hq => by rwa [← hpage.table]
    · refine Drops.of_nil hids (fun _ => trivial) hpage.shm fun q s id hq => ?_
      rw [← hpage.table]
      exact capAt_of_clearCap hq

theorem drops_destroy {pid : Nat} (hk : k.Sound) (h : k.destroy pid = some k') :
    Drops k k' (.destroy pid) := by
  obtain ⟨hdead, rfl⟩ | ⟨p, k₁, k₂, root, table, m, hp, -, -, h₁, h₂, hretire, -, rfl⟩ :=
    destroy_cases hk h
  · have hids : k'.revokedIds (.destroy pid) = [] := by simp [revokedIds, hdead]
    refine ⟨fun id => by simp [hids], fun q s id hcap => ⟨hcap, ?_, ?_⟩, fun q s id hid => ?_⟩
    · rw [hids]
      exact not_recorded_nil k' q s
    · rintro rfl
      rw [ProcessTable.capAt_of_dead hdead] at hcap
      cases hcap
    · rw [hids] at hid
      simp at hid
  · have hids : k.revokedIds (.destroy pid) = shmIds p := by simp [revokedIds, hp]
    have hgone := (h₂.sound.table.retire hretire).2
    refine ⟨fun id => ?_, fun q s id hcap => ?_, fun q s id _ hcap hrec hq => ?_⟩
    · rw [hids, ← h₁.records]
      exact congrArg (Registry.get SharedPage.id · id) h₂.shm
    · have hcap' : table.capAt q s = some (.shm id) := hcap
      rw [hgone.caps] at hcap'
      split at hcap'
      · cases hcap'
      · next hne =>
        rw [h₂.table] at hcap'
        rw [hids]
        exact ⟨(h₁.before hcap').1, (h₁.before hcap').2, hne⟩
    · change table.capAt q s = some (.shm id)
      rw [hids] at hrec
      rw [hgone.caps, if_neg hq, h₂.table, h₁.kept q s hrec, hcap]

theorem ShmHeld.drops (h : ShmHeld k) (hdrops : Drops k k' op) (hwholly : RevokesWholly k op) :
    ShmHeld k' := by
  intro q s id hcap
  obtain ⟨hcap₀, hrec, hq⟩ := hdrops.before q s id hcap
  obtain ⟨sp, hsp, howner⟩ := h q s id hcap₀
  have hkept : id ∉ k.revokedIds op := fun hid => hrec (hwholly q s id hid hcap₀ hq)
  exact ⟨sp, by rw [hdrops.records, if_neg hkept, hsp], howner⟩

/-- A copy that is left behind names a dead record. -/
theorem Drops.not_shmHeld (h : Drops k k' op) (hbad : ¬ RevokesWholly k op) : ¬ ShmHeld k' := by
  intro hheld
  refine hbad fun q s id hid hcap hq => ?_
  by_contra hrec
  obtain ⟨sp, hsp, -⟩ := hheld q s id (h.after q s id hid hcap hrec hq)
  rw [h.records, if_pos hid] at hsp
  cases hsp

theorem mem_revokedIds_capRevoke {caller slot id : Nat} :
    id ∈ k.revokedIds (.capRevoke caller slot) ↔ k.table.capAt caller slot = some (.shm id) := by
  rcases hcap : k.table.capAt caller slot with _ | (q | other | other)
  · simp [revokedIds, hcap]
  · simp [revokedIds, hcap]
  · simp [revokedIds, hcap, eq_comm]
  · simp [revokedIds, hcap]

/-- Where no capability dangles, a process can only revoke what it owns. -/
theorem ShmHeld.revokesOwn (h : ShmHeld k) (hk : k.Sound) : RevokesOwn k := by
  intro caller slot r k' id sp hcall hsp hgone
  rw [(drops_capRevoke hk hcall).records] at hgone
  have hid : id ∈ k.revokedIds (.capRevoke caller slot) := by
    by_contra hid
    exact hgone (by rw [if_neg hid, hsp])
  obtain ⟨sp', hsp', howner⟩ := h caller slot id (mem_revokedIds_capRevoke.mp hid)
  rw [hsp] at hsp'
  cases hsp'
  exact howner

/-! ## The other operations -/

/-- The registry is as it was, and no process has a capability for a shared page that it did not
have. -/
theorem ShmHeld.mono (h : ShmHeld k) (hshm : k'.shm = k.shm)
    (hcaps : ∀ q s id, k'.table.capAt q s = some (.shm id) →
      ∃ s', k.table.capAt q s' = some (.shm id)) : ShmHeld k' := by
  intro q s id hcap
  obtain ⟨s', hcap'⟩ := hcaps q s id hcap
  rw [sharedPage, hshm]
  exact h q s' id hcap'

theorem ShmHeld.of_capAt (h : ShmHeld k) (hshm : k'.shm = k.shm)
    (hcaps : k'.table.capAt = k.table.capAt) : ShmHeld k' :=
  h.mono hshm fun q s id hcap => ⟨s, by rw [← hcaps, hcap]⟩

/-- Writing a slot adds at most the capability that is written. -/
theorem capAt_of_writes {t t' : ProcessTable} {pid slot q s : Nat} {cap : Option Cap} {c : Cap}
    (h : t.Writes t' pid slot cap) (hcap : t'.capAt q s = some c) :
    (q = pid ∧ s = slot ∧ cap = some c) ∨ t.capAt q s = some c := by
  rw [h.caps] at hcap
  split at hcap
  · next heq => exact .inl ⟨heq.1, heq.2, hcap⟩
  · exact .inr hcap

theorem ShmHeld.writes {pid slot : Nat} {cap : Option Cap} (h : ShmHeld k) (hshm : k'.shm = k.shm)
    (hw : k.table.Writes k'.table pid slot cap) (hcap : ∀ id, cap ≠ some (.shm id)) :
    ShmHeld k' := by
  refine h.mono hshm fun q s id hq => ?_
  obtain ⟨-, -, hnew⟩ | hold := capAt_of_writes hw hq
  · exact absurd hnew (hcap id)
  · exact ⟨s, hold⟩

theorem ShmHeld.mmapShare {caller aSlot bSlot len : Nat} {r : Except Nat Nat} (h : ShmHeld k)
    (hk : k.Sound) (hcall : k.mmapShare caller aSlot bSlot len = some (r, k')) : ShmHeld k' := by
  obtain ⟨m, rfl, -⟩ | ⟨peer, rootA, rootB, paddr, m, id, shm, t₁, t₂, -, -, -, -, -, -, henter,
    hw₁, hw₂, -, rfl⟩ := mmapShare_cases hcall
  · exact h.of_capAt rfl rfl
  obtain ⟨hfresh, hnew, hother⟩ := hk.shm.entered (fun i => rfl) henter
  intro q s other hcap
  obtain ⟨rfl, -, hsecond⟩ | hcap := capAt_of_writes hw₂ hcap
  · cases hsecond
    exact ⟨_, hnew, .inr rfl⟩
  obtain ⟨rfl, -, hfirst⟩ | hcap := capAt_of_writes hw₁ hcap
  · cases hfirst
    exact ⟨_, hnew, .inl rfl⟩
  obtain ⟨sp, hsp, howner⟩ := h q s other hcap
  refine ⟨sp, (hother other ?_).trans hsp, howner⟩
  rintro rfl
  rw [sharedPage, hfresh] at hsp
  cases hsp

theorem ShmHeld.capDuplicate (h : ShmHeld k) (pid src dst : Nat) :
    ShmHeld (k.capDuplicate pid src dst).2 := by
  unfold State.capDuplicate
  obtain ⟨e, heq⟩ | ⟨t, cap, heq, hsrc, -, -, hw⟩ :=
    ProcessTable.capDuplicate_cases k.table pid src dst
  · rw [heq]
    exact h
  · rw [heq]
    refine h.mono rfl fun q s id hq => ?_
    obtain ⟨rfl, -, hnew⟩ | hold := capAt_of_writes hw hq
    · exact ⟨src, hsrc.trans hnew⟩
    · exact ⟨s, hold⟩

theorem ShmHeld.connect (h : ShmHeld k) (caller id clientSlot serverSlot : Nat) :
    ShmHeld (k.connect caller id clientSlot serverSlot).2 := by
  obtain ⟨e, heq⟩ | ⟨server, t, e, -, -, hw, heq⟩ | ⟨server, t₁, t₂, -, -, -, -, hw₁, hw₂, heq⟩ :=
    connect_cases k caller id clientSlot serverSlot
  · rw [heq]
    exact h
  · rw [heq]
    exact h.writes rfl hw (by simp)
  · rw [heq]
    have hfirst : ShmHeld { k with table := t₁ } := h.writes rfl hw₁ (by simp)
    exact hfirst.writes rfl hw₂ (by simp)

theorem ShmHeld.memGrant {caller srcSlot peerSlot dstSlot : Nat} {r : Except Nat Unit}
    (h : ShmHeld k) (hcall : k.memGrant caller srcSlot peerSlot dstSlot = some (r, k')) :
    ShmHeld k' := by
  obtain ⟨rfl, -⟩ | ⟨id, peer, rec, m, t₁, -, -, -, -, -, -, -, hw, -, rfl⟩ := memGrant_cases hcall
  · exact h
  · have hfirst : ShmHeld { k with table := t₁ } := h.writes rfl hw (by simp)
    exact hfirst.writes rfl (t₁.writes_clearCap caller srcSlot) (by simp)

/-- An operation that revokes wholly keeps capabilities from dangling. -/
theorem ShmHeld.step (h : ShmHeld k) (hk : k.Sound) (hstep : k.step b op = some k')
    (hwholly : RevokesWholly k op) : ShmHeld k' := by
  cases op with
  | create =>
    obtain ⟨r, hcall⟩ := Outcome.discard_eq_some hstep
    obtain ⟨m, rfl, -⟩ | ⟨root, m, -, hlive, -, rfl⟩ := create_cases hcall
    · exact h.of_capAt rfl rfl
    · exact h.of_capAt rfl (hk.table.enter hlive).caps
  | destroy pid => exact h.drops (drops_destroy hk hstep) hwholly
  | grantCap pid slot target =>
    cases hstep
    unfold ProcessTable.grantCap
    obtain ⟨e, heq, -⟩ | ⟨t, heq, -, hw⟩ :=
      ProcessTable.grantTypedCap_cases k.table pid slot (.proc target)
    · rw [heq]
      exact h
    · rw [heq]
      exact h.writes rfl hw (by simp)
  | grantPage pid slot =>
    obtain ⟨m, rfl, -⟩ | ⟨paddr, m, id, pages, t, -, -, -, -, -, hw, rfl⟩ := grantPage_cases hstep
    · exact h.of_capAt rfl rfl
    · exact h.writes rfl hw (by simp)
  | shmMap caller aSlot bSlot len =>
    obtain ⟨r, hcall⟩ := Outcome.discard_eq_some hstep
    exact h.mmapShare hk hcall
  | capRevoke caller slot =>
    obtain ⟨r, hcall⟩ := Outcome.discard_eq_some hstep
    exact h.drops (drops_capRevoke hk hcall) hwholly
  | capDup caller src dst =>
    cases hstep
    exact h.capDuplicate caller src dst
  | serviceConnect caller id clientSlot serverSlot =>
    cases hstep
    exact h.connect caller id clientSlot serverSlot
  | memGrant caller srcSlot peerSlot dstSlot =>
    obtain ⟨r, hcall⟩ := Outcome.discard_eq_some hstep
    exact h.memGrant hcall
  | memMap caller slot va =>
    obtain ⟨r, hcall⟩ := Outcome.discard_eq_some hstep
    obtain ⟨m, rfl, -⟩ | ⟨id, rec, root, m, -, -, -, -, -, -, -, -, rfl⟩ := memMap_cases hcall
    · exact h.of_capAt rfl rfl
    · exact h.of_capAt rfl rfl
  | load | serviceRegister | mapDevice | store =>
    obtain ⟨m, services, devices, rfl⟩ := step_aside rfl hstep
    exact h.of_capAt rfl rfl

/-! ## Whole runs -/

/-- Only revocations can fail to revoke wholly, and then a capability dangles. -/
theorem not_shmHeld_of_step (hk : k.Sound) (hstep : k.step b op = some k')
    (hbad : ¬ RevokesWholly k op) : ¬ ShmHeld k' := by
  have hnil : k.revokedIds op = [] → RevokesWholly k op := by
    intro hids q s id hid
    rw [hids] at hid
    simp at hid
  cases op with
  | destroy pid => exact (drops_destroy hk hstep).not_shmHeld hbad
  | capRevoke caller slot =>
    obtain ⟨r, hcall⟩ := Outcome.discard_eq_some hstep
    exact (drops_capRevoke hk hcall).not_shmHeld hbad
  | _ => exact absurd (hnil rfl) hbad

/-- What is kept along runs that revoke wholly. -/
def ShmInv (k : State) : Prop := k.Sound ∧ ShmHeld k

/-- Capabilities for shared pages never dangle exactly in the runs in which every revocation
reaches every copy of the capabilities it revokes. -/
theorem always_shmLaw_iff (b : Board) (mem : Usage) (ops : List KernelOp) :
    Machine.Always (step b) (boot mem) ops ShmLaw ↔
      Machine.Each (step b) (boot mem) ops RevokesWholly := by
  have hboot : ShmInv (boot mem) := by
    refine ⟨sound_boot mem, fun pid slot id hcap => ?_⟩
    rw [ProcessTable.capAt_of_dead rfl] at hcap
    cases hcap
  refine Machine.always_iff_each hboot ?_ ?_ ?_
  · intro k hinv
    exact ⟨hinv.2, hinv.2.revokesOwn hinv.1⟩
  · intro k op k' hinv hstep hwholly
    exact ⟨hinv.1.step hstep, hinv.2.step hinv.1 hstep hwholly⟩
  · intro k op k' hinv hstep hbad hlaw
    exact not_shmHeld_of_step hinv.1 hstep hbad hlaw.1

set_option maxRecDepth 100000 in
/-- A copy outlives the page: process 0 copies its capability, and process 1 revokes the page. -/
theorem not_shmLaw_copy :
    ¬ Machine.Always (step smallBoard) (boot smallMem)
      [.create, .create, .serviceRegister 1 1, .serviceConnect 0 1 0 0, .shmMap 0 0 0 4096,
        .capDup 0 0 1, .capRevoke 1 0] ShmLaw := by
  intro halways
  have heval : (Machine.run (step smallBoard) (boot smallMem)
      [.create, .create, .serviceRegister 1 1, .serviceConnect 0 1 0 0, .shmMap 0 0 0 4096,
        .capDup 0 0 1, .capRevoke 1 0]).map (fun k => (k.table.capAt 0 1, k.sharedPage 0)) =
      some (some (.shm 0), none) := by decide +kernel
  obtain ⟨k, hrun, hk⟩ := Option.map_eq_some_iff.mp heval
  obtain ⟨hcap, hdead⟩ := Prod.mk.inj hk
  obtain ⟨sp, hsp, -⟩ := (halways _ [] k (List.append_nil _).symm hrun).1 0 1 0 hcap
  rw [hdead] at hsp
  cases hsp

end Ignium.Kernel.State
