import Ignium.Kernel.Effects

/-!
# Capabilities and recycled process ids

A destroyed process leaves its id to a later one, and the capabilities that other processes hold
for it stay in their slots. The kernel does not count incarnations, so the model does: `Tagged`
adds to the kernel the number of processes that have had each id and, for each slot, the
incarnation its capability was granted for. `always_sameIncarnation_iff` says which runs revive a
capability: those in which `create` hands out an id that some slot still names.
-/

namespace Ignium.Kernel

open Mem Mmu

/-- The kernel with a history. -/
structure Tagged where
  kernel : State
  /-- How many processes have had an id. -/
  gen : Nat → Nat
  /-- The incarnation that the capability in a slot was first granted for. -/
  tag : Nat → Nat → Nat

namespace Tagged

/-- Note the incarnation for a slot. -/
def setTag (tag : Nat → Nat → Nat) (pid slot incarnation : Nat) : Nat → Nat → Nat :=
  fun q s => if q = pid ∧ s = slot then incarnation else tag q s

/-- A new process is the next incarnation of its id. -/
def recount (b : Board) (s : Tagged) : KernelOp → Nat → Nat
  | .create =>
    match s.kernel.create b with
    | some (.ok pid, _) => Function.update s.gen pid (s.gen pid + 1)
    | _ => s.gen
  | _ => s.gen

/-- A grant is for the current incarnation of its target, and a copy is for that of the original.
No other operation writes a capability for a process. -/
def retag (s : Tagged) : KernelOp → Nat → Nat → Nat
  | .grantCap pid slot target =>
    match (s.kernel.table.grantCap pid slot target).1 with
    | .ok _ => setTag s.tag pid slot (s.gen target)
    | .error _ => s.tag
  | .serviceConnect caller id clientSlot serverSlot =>
    match (s.kernel.connect caller id clientSlot serverSlot).1, s.kernel.lookup id with
    | .ok _, some server =>
      setTag (setTag s.tag caller clientSlot (s.gen server)) server serverSlot (s.gen caller)
    | _, _ => s.tag
  | .capDup pid src dst =>
    match (s.kernel.capDuplicate pid src dst).1 with
    | .ok _ => setTag s.tag pid dst (s.tag pid src)
    | .error _ => s.tag
  | _ => s.tag

/-- One operation of the kernel, with its history. -/
def step (b : Board) (s : Tagged) (op : KernelOp) : Option Tagged :=
  (s.kernel.step b op).map fun k => ⟨k, s.recount b op, s.retag op⟩

/-- The kernel before the first process is created. -/
def start (mem : Usage) : Tagged := ⟨boot mem, fun _ => 0, fun _ _ => 0⟩

/-- A capability for a process that is there was granted for the incarnation that is there. -/
def SameIncarnation (s : Tagged) : Prop :=
  ∀ pid slot q, s.kernel.table.capAt pid slot = some (.proc q) →
    s.kernel.table.pidRoot q ≠ none → s.tag pid slot = s.gen q

/-- An id that `create` hands out is not named by any slot. -/
def CreatesUnnamed (b : Board) (s : Tagged) (op : KernelOp) : Prop :=
  ∀ pid k, op = .create → s.kernel.create b = some (.ok pid, k) →
    ∀ q slot, s.kernel.table.capAt q slot ≠ some (.proc pid)

end Tagged

/-! ## Operations that grant nothing -/

namespace State

variable {k k' k₁ : State} {b : Board}

/-- Going from `k` to `k'` gave no process a capability for a process, and no new process came. -/
structure GrantsNone (k k' : State) : Prop where
  caps : ∀ pid slot q, k'.table.capAt pid slot = some (.proc q) →
    k.table.capAt pid slot = some (.proc q)
  roots : ∀ q, k'.table.pidRoot q ≠ none → k.table.pidRoot q ≠ none

theorem GrantsNone.of_table (h : k'.table = k.table) : GrantsNone k k' := by
  refine ⟨fun pid slot q hcap => ?_, fun q hroot => ?_⟩
  · rwa [← h]
  · rwa [← h]

theorem GrantsNone.trans (h₁ : GrantsNone k k₁) (h₂ : GrantsNone k₁ k') : GrantsNone k k' :=
  ⟨fun pid slot q hcap => h₁.caps pid slot q (h₂.caps pid slot q hcap),
    fun q hroot => h₁.roots q (h₂.roots q hroot)⟩

theorem GrantsNone.of_writes {pid slot : Nat} {cap : Option Cap}
    (hw : k.table.Writes k'.table pid slot cap) (hcap : ∀ q, cap ≠ some (.proc q)) :
    GrantsNone k k' := by
  refine ⟨fun p s q hq => ?_, fun q hroot => ?_⟩
  · rw [hw.caps] at hq
    split at hq
    · exact absurd hq (hcap q)
    · exact hq
  · rwa [← hw.roots]

theorem Revoked.grantsNone {ids : List Nat} (h : Revoked k k' ids) : GrantsNone k k' := by
  refine ⟨fun pid slot q hcap => ?_, fun q hroot => ?_⟩
  · by_cases hrec : k.Recorded ids pid slot
    · rw [h.cleared pid slot hrec] at hcap
      cases hcap
    · rwa [← h.kept pid slot hrec]
  · rwa [← h.roots]

theorem grantsNone_destroy {pid : Nat} (hk : k.Sound) (h : k.destroy pid = some k') :
    GrantsNone k k' := by
  obtain ⟨-, rfl⟩ | ⟨p, k₁, k₂, root, table, m, -, -, -, h₁, h₂, hretire, -, rfl⟩ :=
    destroy_cases hk h
  · exact GrantsNone.of_table rfl
  have hgone := (h₂.sound.table.retire hretire).2
  refine (h₁.grantsNone.trans (GrantsNone.of_table h₂.table)).trans
    ⟨fun q slot target hcap => ?_, fun q hroot => ?_⟩
  · have hcap' : table.capAt q slot = some (.proc target) := hcap
    rw [hgone.caps] at hcap'
    split at hcap'
    · cases hcap'
    · exact hcap'
  · have hroot' : table.pidRoot q ≠ none := hroot
    rw [hgone.roots] at hroot'
    split at hroot'
    · exact absurd rfl hroot'
    · exact hroot'

theorem grantsNone_capRevoke {pid slot : Nat} {r : Except CapError Unit} (hk : k.Sound)
    (h : k.capRevoke pid slot = some (r, k')) : GrantsNone k k' := by
  obtain ⟨-, rfl⟩ | ⟨id, r', -, hrevoke⟩ | ⟨q, -, rfl⟩ | ⟨id, r', k₁, -, hrevoke, hend⟩ :=
    capRevoke_cases h
  · exact GrantsNone.of_table rfl
  · exact (revoked_shmRevoke hk hrevoke).grantsNone
  · exact GrantsNone.of_writes (k.table.writes_clearCap pid slot) (by simp)
  · have hpage := GrantsNone.of_table (pagesRevoked_pagesRevoke hk hrevoke).table
    obtain ⟨-, rfl⟩ | ⟨-, rfl⟩ := hend
    · exact hpage
    · exact hpage.trans (GrantsNone.of_writes (k₁.table.writes_clearCap pid slot) (by simp))

theorem grantsNone_mmapShare {caller aSlot bSlot len : Nat} {r : Except Nat Nat}
    (h : k.mmapShare caller aSlot bSlot len = some (r, k')) : GrantsNone k k' := by
  obtain ⟨m, rfl, -⟩ | ⟨peer, rootA, rootB, paddr, m, id, shm, t₁, t₂, -, -, -, -, -, -, -, hw₁,
    hw₂, -, rfl⟩ := mmapShare_cases h
  · exact GrantsNone.of_table rfl
  · have hfirst : GrantsNone k { k with table := t₁ } := GrantsNone.of_writes hw₁ (by simp)
    exact hfirst.trans (GrantsNone.of_writes hw₂ (by simp))

theorem grantsNone_memGrant {caller srcSlot peerSlot dstSlot : Nat} {r : Except Nat Unit}
    (h : k.memGrant caller srcSlot peerSlot dstSlot = some (r, k')) : GrantsNone k k' := by
  obtain ⟨rfl, -⟩ | ⟨id, peer, rec, m, t₁, -, -, -, -, -, -, -, hw, -, rfl⟩ := memGrant_cases h
  · exact GrantsNone.of_table rfl
  · have hfirst : GrantsNone k { k with table := t₁ } := GrantsNone.of_writes hw (by simp)
    exact hfirst.trans (GrantsNone.of_writes (t₁.writes_clearCap caller srcSlot) (by simp))

end State

/-! ## Tags -/

namespace Tagged

variable {s s' : Tagged} {k k' : State} {b : Board} {op : KernelOp} {t t' : ProcessTable}
variable {gen : Nat → Nat} {tag : Nat → Nat → Nat}

/-- No tag is ahead of its counter, and the tags for processes that are there are current. -/
def TagsMatch (t : ProcessTable) (gen : Nat → Nat) (tag : Nat → Nat → Nat) : Prop :=
  ∀ pid slot q, t.capAt pid slot = some (.proc q) →
    tag pid slot ≤ gen q ∧ (t.pidRoot q ≠ none → tag pid slot = gen q)

theorem TagsMatch.grantsNone (h : TagsMatch k.table gen tag) (hnone : k.GrantsNone k') :
    TagsMatch k'.table gen tag := by
  intro pid slot q hcap
  obtain ⟨hle, hlive⟩ := h pid slot q (hnone.caps pid slot q hcap)
  exact ⟨hle, fun hroot => hlive (hnone.roots q hroot)⟩

/-- A slot may be written when the tag noted for it suits the capability. -/
theorem TagsMatch.writes {pid slot v : Nat} {cap : Option Cap} (h : TagsMatch t gen tag)
    (hw : t.Writes t' pid slot cap)
    (hv : ∀ q, cap = some (.proc q) → v ≤ gen q ∧ (t.pidRoot q ≠ none → v = gen q)) :
    TagsMatch t' gen (setTag tag pid slot v) := by
  intro p n q hcap
  rw [hw.roots]
  rw [hw.caps] at hcap
  unfold setTag
  by_cases hslot : p = pid ∧ n = slot
  · rw [if_pos hslot] at hcap ⊢
    exact hv q hcap
  · rw [if_neg hslot] at hcap ⊢
    exact h p n q hcap

/-- A grant for the current incarnation. -/
theorem TagsMatch.grant {pid slot target : Nat} (h : TagsMatch t gen tag)
    (hw : t.Writes t' pid slot (some (.proc target))) :
    TagsMatch t' gen (setTag tag pid slot (gen target)) := by
  refine h.writes hw fun q hq => ?_
  cases hq
  exact ⟨Nat.le_refl _, fun _ => rfl⟩

theorem TagsMatch.grantCap (h : TagsMatch s.kernel.table s.gen s.tag) (pid slot target : Nat) :
    TagsMatch (s.kernel.table.grantCap pid slot target).2 s.gen
      (s.retag (.grantCap pid slot target)) := by
  unfold retag ProcessTable.grantCap
  obtain ⟨e, heq, -⟩ | ⟨t, heq, -, hw⟩ :=
    ProcessTable.grantTypedCap_cases s.kernel.table pid slot (.proc target)
  · simp only [heq]
    exact h
  · simp only [heq]
    exact h.grant hw

theorem TagsMatch.capDuplicate (h : TagsMatch s.kernel.table s.gen s.tag) (pid src dst : Nat) :
    TagsMatch (s.kernel.capDuplicate pid src dst).2.table s.gen (s.retag (.capDup pid src dst)) := by
  unfold retag State.capDuplicate
  obtain ⟨e, heq⟩ | ⟨t, cap, heq, hsrc, -, -, hw⟩ :=
    ProcessTable.capDuplicate_cases s.kernel.table pid src dst
  · simp only [heq]
    exact h
  · simp only [heq]
    refine h.writes hw fun q hq => ?_
    cases hq
    exact h pid src q hsrc

theorem TagsMatch.connect (h : TagsMatch s.kernel.table s.gen s.tag)
    (caller id clientSlot serverSlot : Nat) :
    TagsMatch (s.kernel.connect caller id clientSlot serverSlot).2.table s.gen
      (s.retag (.serviceConnect caller id clientSlot serverSlot)) := by
  unfold retag
  obtain ⟨e, heq⟩ | ⟨server, t, e, -, -, hw, heq⟩ |
    ⟨server, t₁, t₂, hlookup, -, -, -, hw₁, hw₂, heq⟩ :=
      State.connect_cases s.kernel caller id clientSlot serverSlot
  · simp only [heq]
    exact h
  · simp only [heq]
    have hnone : s.kernel.GrantsNone { s.kernel with table := t } :=
      State.GrantsNone.of_writes hw (by simp)
    exact h.grantsNone hnone
  · simp only [heq, hlookup]
    exact (h.grant hw₁).grant hw₂

/-- The id of a new process has had one process more. -/
theorem TagsMatch.enters {pid root : Nat} (h : TagsMatch t gen tag) (henters : t.Enters t' pid root)
    (hunnamed : ∀ q slot, t.capAt q slot ≠ some (.proc pid)) :
    TagsMatch t' (Function.update gen pid (gen pid + 1)) tag := by
  intro p slot q hcap
  rw [henters.caps] at hcap
  have hne : q ≠ pid := by
    intro heq
    rw [heq] at hcap
    exact hunnamed p slot hcap
  rw [Function.update_of_ne hne, henters.roots, if_neg hne]
  exact h p slot q hcap

/-! ## Whole runs -/

/-- What is kept along runs that create under unnamed ids. -/
def Inv (s : Tagged) : Prop := s.kernel.Sound ∧ TagsMatch s.kernel.table s.gen s.tag

theorem Inv.create {r : Except Unit Nat} (h : s.Inv) (hcall : s.kernel.create b = some (r, k'))
    (hunnamed : CreatesUnnamed b s .create) :
    TagsMatch k'.table (s.recount b .create) s.tag := by
  unfold recount
  obtain ⟨m, rfl, rfl, -⟩ | ⟨root, m, -, hlive, rfl, rfl⟩ := State.create_cases hcall
  · simp only [hcall]
    exact h.2
  · simp only [hcall]
    exact h.2.enters (h.1.table.enter hlive) (hunnamed _ _ rfl hcall)

theorem Inv.step (h : s.Inv) (hstep : s.step b op = some s') (hunnamed : CreatesUnnamed b s op) :
    s'.Inv := by
  obtain ⟨k, hk, rfl⟩ := Option.map_eq_some_iff.mp hstep
  refine ⟨h.1.step hk, ?_⟩
  -- Every operation but four grants nothing and leaves the history as it is.
  have hother : s.kernel.GrantsNone k → TagsMatch k.table s.gen s.tag := h.2.grantsNone
  cases op with
  | create =>
    obtain ⟨r, hcall⟩ := Outcome.discard_eq_some hk
    exact h.create hcall hunnamed
  | destroy pid => exact hother (State.grantsNone_destroy h.1 hk)
  | grantCap pid slot target =>
    cases hk
    exact h.2.grantCap pid slot target
  | grantPage pid slot =>
    obtain ⟨m, rfl, -⟩ | ⟨paddr, m, id, pages, t, -, -, -, -, -, hw, rfl⟩ :=
      State.grantPage_cases hk
    · exact hother (State.GrantsNone.of_table rfl)
    · exact hother (State.GrantsNone.of_writes hw (by simp))
  | shmMap caller aSlot bSlot len =>
    obtain ⟨r, hcall⟩ := Outcome.discard_eq_some hk
    exact hother (State.grantsNone_mmapShare hcall)
  | capRevoke caller slot =>
    obtain ⟨r, hcall⟩ := Outcome.discard_eq_some hk
    exact hother (State.grantsNone_capRevoke h.1 hcall)
  | capDup caller src dst =>
    cases hk
    exact h.2.capDuplicate caller src dst
  | serviceConnect caller id clientSlot serverSlot =>
    cases hk
    exact h.2.connect caller id clientSlot serverSlot
  | memGrant caller srcSlot peerSlot dstSlot =>
    obtain ⟨r, hcall⟩ := Outcome.discard_eq_some hk
    exact hother (State.grantsNone_memGrant hcall)
  | memMap caller slot va =>
    obtain ⟨r, hcall⟩ := Outcome.discard_eq_some hk
    obtain ⟨m, rfl, -⟩ | ⟨id, rec, root, m, -, -, -, -, -, -, -, -, rfl⟩ := State.memMap_cases hcall
    · exact hother (State.GrantsNone.of_table rfl)
    · exact hother (State.GrantsNone.of_table rfl)
  | load | serviceRegister | mapDevice | store =>
    obtain ⟨m, services, devices, rfl⟩ := State.step_aside rfl hk
    exact hother (State.GrantsNone.of_table rfl)

/-- A slot that names the id of a new process has the tag of an earlier one. -/
theorem Inv.not_sameIncarnation (h : s.Inv) (hstep : s.step b op = some s')
    (hbad : ¬ CreatesUnnamed b s op) : ¬ s'.SameIncarnation := by
  obtain ⟨k, hk, rfl⟩ := Option.map_eq_some_iff.mp hstep
  intro hsame
  refine hbad fun pid k₁ hop hcall q slot hcap => ?_
  subst hop
  obtain ⟨r, hcall'⟩ := Outcome.discard_eq_some hk
  obtain ⟨rfl, rfl⟩ := Prod.mk.inj (Option.some.inj (hcall.symm.trans hcall'))
  obtain ⟨m, -, heq, -⟩ | ⟨root, m, -, hlive, heq, rfl⟩ := State.create_cases hcall
  · cases heq
  obtain rfl := Except.ok.inj heq
  have henters : s.kernel.table.Enters (s.kernel.table.enter root).2
      (s.kernel.table.enter root).1 root := h.1.table.enter hlive
  have hcap' : (s.kernel.table.enter root).2.capAt q slot = _ := henters.caps ▸ hcap
  have hroot : (s.kernel.table.enter root).2.pidRoot (s.kernel.table.enter root).1 ≠ none := by
    rw [henters.roots, if_pos rfl]
    simp
  have htag := hsame q slot _ hcap' hroot
  have hle := (h.2 q slot _ hcap).1
  simp only [recount, retag, hcall, Function.update_self] at htag
  omega

/-- A capability for a process never becomes one for a later process with the same id exactly in
the runs in which `create` only hands out ids that no slot names. -/
theorem always_sameIncarnation_iff (b : Board) (mem : Usage) (ops : List KernelOp) :
    Machine.Always (step b) (start mem) ops SameIncarnation ↔
      Machine.Each (step b) (start mem) ops (CreatesUnnamed b) := by
  have hstart : Inv (start mem) := by
    refine ⟨State.sound_boot mem, fun pid slot q hcap => ?_⟩
    rw [ProcessTable.capAt_of_dead rfl] at hcap
    cases hcap
  refine Machine.always_iff_each hstart ?_ ?_ ?_
  · intro s hinv pid slot q hcap hroot
    exact (hinv.2 pid slot q hcap).2 hroot
  · intro s op s' hinv hstep hunnamed
    exact hinv.step hstep hunnamed
  · intro s op s' hinv hstep hbad
    exact hinv.not_sameIncarnation hstep hbad

set_option maxRecDepth 100000 in
/-- Process 0 connects to process 1, which is destroyed, and the next process gets its id. -/
theorem not_sameIncarnation_reuse :
    ¬ Machine.Always (step smallBoard) (start smallMem)
      [.create, .create, .serviceRegister 1 1, .serviceConnect 0 1 0 0, .destroy 1, .create]
      SameIncarnation := by
  intro halways
  have heval : (Machine.run (step smallBoard) (start smallMem)
      [.create, .create, .serviceRegister 1 1, .serviceConnect 0 1 0 0, .destroy 1, .create]).map
        (fun s => (s.kernel.table.capAt 0 0, (s.kernel.table.pidRoot 1).isSome, s.tag 0 0,
          s.gen 1)) =
      some (some (.proc 1), true, 1, 2) := by decide +kernel
  obtain ⟨s, hrun, hs⟩ := Option.map_eq_some_iff.mp heval
  simp only [Prod.mk.injEq] at hs
  obtain ⟨hcap, hlive, htag, hgen⟩ := hs
  have hroot : s.kernel.table.pidRoot 1 ≠ none := Option.isSome_iff_ne_none.mp hlive
  have hsame := halways _ [] s (List.append_nil _).symm hrun 0 0 1 hcap hroot
  rw [htag, hgen] at hsame
  cases hsame

end Tagged

end Ignium.Kernel
