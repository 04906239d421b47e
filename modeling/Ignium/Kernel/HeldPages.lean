import Ignium.Kernel.UseAfterFree

/-!
# Registry and page tables agree for held pages

Where a page is mapped is written down twice: in the record of the page and in the page table of
its owner. `HeldLaw` says that the two agree for every page that a slot of a live process names.
Records can be orphaned when a slot is overwritten, and ids, processes and physical pages are used
again, but none of this reaches a record that a slot names: `always_heldLaw` holds for all runs
without shared pages.

The discipline of `Ledger.Good` has most of it. It is kept by operations that overwrite no slot of
a live shared page, and without `shm_map` there is none (`Unshared`).
-/

namespace Ignium.Kernel

open Mem Mmu

/-- The operation shares a page. -/
def KernelOp.Shares : KernelOp → Prop
  | .shmMap _ _ _ _ => True
  | _ => False

namespace State

variable {k k' : State} {b : Board} {op : KernelOp} {range : Nat → Bool} {base count : Nat}

/-- What is true of a page that a slot of a live process names. -/
structure Held (k : State) (pid : Nat) (rec : PageRecord) : Prop where
  owner : rec.owner = pid
  page : k.mem.HasPage rec.paddr
  mapped : ∀ va, rec.mapVa = some va → va % pageSize = 0 ∧ k.UserMaps pid va rec.paddr ∧
    ∀ pid' va', k.UserMaps pid' va' rec.paddr → pid' = pid ∧ vpn va' = vpn va
  unmapped : rec.mapVa = none → ∀ pid' va', ¬ k.UserMaps pid' va' rec.paddr

/-- The record of every page that a slot of a live process names is live, and it is right about
the page. -/
def HeldLaw (k : State) : Prop :=
  ∀ pid slot id, k.table.capTarget pid slot = .ok (.page id) →
    ∃ rec, k.pageRecord id = some rec ∧ k.Held pid rec

/-! ## Runs without shared pages -/

/-- No shared page is live, and pages are recorded at addresses of pages. -/
structure Unshared (k : State) : Prop where
  shm : ∀ id, k.sharedPage id = none
  aligned : ∀ id rec va, k.pageRecord id = some rec → rec.mapVa = some va → va % pageSize = 0

namespace Unshared

section

variable (h : k.Unshared)
include h

theorem same (hshm : k'.shm = k.shm) (hpages : k'.pages = k.pages) :
    k'.Unshared where
  shm id := by
    rw [sharedPage, hshm]
    exact h.shm id
  aligned id rec va hrec := by
    rw [pageRecord, hpages] at hrec
    exact h.aligned id rec va hrec

/-- One record is written. -/
theorem putPage {id : Nat} {rec rec' : PageRecord} (hshm : k'.shm = k.shm)
    (hpages : k'.pages = k.pages.put id rec') (hrec : k.pageRecord id = some rec)
    (hid : rec'.id = rec.id) (hva : ∀ va, rec'.mapVa = some va → va % pageSize = 0) :
    k'.Unshared where
  shm other := by
    rw [sharedPage, hshm]
    exact h.shm other
  aligned other r va hr hmap := by
    rw [pageRecord, hpages, get_putPage hrec hid] at hr
    split at hr
    · cases hr
      exact hva va hmap
    · exact h.aligned other r va hr hmap

theorem pagesRevoked {ids : List Nat} (hpages : PagesRevoked k k' ids) :
    k'.Unshared where
  shm id := by
    rw [sharedPage, hpages.shm]
    exact h.shm id
  aligned id rec va hrec hmap := by
    rw [hpages.records] at hrec
    split at hrec
    · cases hrec
    · exact h.aligned id rec va hrec hmap

theorem revoked {ids : List Nat} (hrevoked : Revoked k k' ids) :
    k'.Unshared where
  shm id := by
    rw [hrevoked.records, h.shm]
    exact ite_self none
  aligned id rec va hrec := by
    rw [pageRecord, hrevoked.pages] at hrec
    exact h.aligned id rec va hrec

theorem capRevoke {caller slot : Nat} {r : Except CapError Unit} (hk : k.Sound)
    (hcall : k.capRevoke caller slot = some (r, k')) : k'.Unshared := by
  obtain ⟨-, rfl⟩ | ⟨id, r', -, hrevoke⟩ | ⟨q, -, rfl⟩ | ⟨id, r', k₁, -, hrevoke, hend⟩ :=
    capRevoke_cases hcall
  · exact h
  · exact h.revoked (revoked_shmRevoke hk hrevoke)
  · exact h.same rfl rfl
  · have h₁ := h.pagesRevoked (pagesRevoked_pagesRevoke hk hrevoke)
    obtain ⟨-, rfl⟩ | ⟨-, rfl⟩ := hend
    · exact h₁
    · exact h₁.same rfl rfl

theorem destroy {pid : Nat} (hk : k.Sound) (hstep : k.destroy pid = some k') :
    k'.Unshared := by
  obtain ⟨-, rfl⟩ | ⟨p, k₁, k₂, root, table, m, -, -, -, h₁, h₂, -, -, rfl⟩ :=
    destroy_cases hk hstep
  · exact h
  · exact ((h.revoked h₁).pagesRevoked h₂).same rfl rfl

theorem grantPage {pid slot : Nat} (hk : k.Sound)
    (hstep : k.grantPage pid slot = some k') : k'.Unshared := by
  obtain ⟨m, rfl, -⟩ | ⟨paddr, m, id, pages, t, -, -, -, -, henter, -, rfl⟩ := grantPage_cases hstep
  · exact h.same rfl rfl
  · obtain ⟨-, hnew, hother⟩ := hk.pages.entered (fun _ => rfl) henter
    refine ⟨h.shm, fun other rec va hrec hmap => ?_⟩
    change pages.get PageRecord.id other = some rec at hrec
    by_cases hid : other = id
    · rw [hid, hnew] at hrec
      cases hrec
      cases hmap
    · rw [hother other hid] at hrec
      exact h.aligned other rec va hrec hmap

theorem step (hk : k.Sound) (hop : ¬ op.Shares) (hstep : k.step b op = some k') :
    k'.Unshared := by
  cases op with
  | create =>
    obtain ⟨r, hcall⟩ := Outcome.discard_eq_some hstep
    obtain ⟨m, rfl, -⟩ | ⟨root, m, -, -, -, rfl⟩ := create_cases hcall
    · exact h.same rfl rfl
    · exact h.same rfl rfl
  | destroy pid => exact h.destroy hk hstep
  | grantCap pid slot target =>
    cases hstep
    exact h.same rfl rfl
  | grantPage pid slot => exact h.grantPage hk hstep
  | shmMap => exact absurd trivial hop
  | capRevoke caller slot =>
    obtain ⟨r, hcall⟩ := Outcome.discard_eq_some hstep
    exact h.capRevoke hk hcall
  | capDup caller src dst =>
    cases hstep
    exact h.same rfl rfl
  | serviceConnect caller id clientSlot serverSlot =>
    cases hstep
    obtain ⟨e, heq⟩ | ⟨server, t, e, -, -, -, heq⟩ | ⟨server, t₁, t₂, -, -, -, -, -, -, heq⟩ :=
      connect_cases k caller id clientSlot serverSlot
    · rw [heq]
      exact h
    · rw [heq]
      exact h.same rfl rfl
    · rw [heq]
      exact h.same rfl rfl
  | memGrant caller srcSlot peerSlot dstSlot =>
    obtain ⟨r, hcall⟩ := Outcome.discard_eq_some hstep
    obtain ⟨rfl, -⟩ | ⟨id, peer, rec, m, t₁, -, -, -, -, -, hrec, -, -, -, rfl⟩ := memGrant_cases hcall
    · exact h
    · refine h.putPage rfl rfl hrec rfl fun va hmap => ?_
      cases hmap
  | memMap caller slot va =>
    obtain ⟨r, hcall⟩ := Outcome.discard_eq_some hstep
    obtain ⟨m, rfl, -⟩ | ⟨id, rec, root, m, hva, -, -, hrec, -, -, -, -, rfl⟩ := memMap_cases hcall
    · exact h.same rfl rfl
    · refine h.putPage rfl rfl hrec rfl fun va' hmap => ?_
      cases hmap
      exact hva
  | load | serviceRegister | mapDevice | store =>
    obtain ⟨m, services, devices, rfl⟩ := step_aside rfl hstep
    exact h.same rfl rfl

/-- Nothing that is recorded can be overwritten. -/
theorem keepsRecorded : KeepsRecorded k op := by
  intro _ q s id sp _ hsp
  rw [h.shm id] at hsp
  cases hsp

end

end Unshared

/-- What is kept along runs without shared pages. -/
structure Separate (range : Nat → Bool) (k : State) : Prop where
  orderly : Orderly .free range k
  unshared : k.Unshared

theorem Separate.step (h : Separate range k) (hout : range b.uartBase = false)
    (hlt : b.uartBase < 2 ^ 56) (hop : ¬ op.Shares) (hstep : k.step b op = some k') :
    Separate range k' :=
  ⟨h.orderly.step hout hlt permits_free h.unshared.keepsRecorded hstep,
    h.unshared.step h.orderly.sound hop hstep⟩

/-- The law follows from the discipline. -/
theorem Separate.heldLaw (h : Separate range k) : k.HeldLaw := by
  obtain ⟨⟨-, -, V, ⟨place, hsees⟩, hgood, -⟩, hunshared⟩ := h
  have hmaps : ∀ {pid va page}, k.UserMaps pid va page ↔ (k.ledger .free).Maps V pid va page :=
    userMaps_iff ⟨place, hsees⟩ hgood
  intro pid slot id htarget
  have hcap := ProcessTable.capTarget_eq_ok.mp htarget
  obtain ⟨rec, hrec, howner⟩ := hgood.live hcap
  have hholds : (k.ledger .free).HoldsPage pid id rec := ⟨⟨slot, hcap⟩, hrec⟩
  obtain ⟨hdata, honly⟩ := (hgood.at_ rec.paddr).owned hholds rfl
  refine ⟨rec, hrec, howner, (hsees.data.mp hdata).1, fun va hva => ?_, fun hnone pid' va' hm => ?_⟩
  · refine ⟨hunshared.aligned id rec va hrec hva, hmaps.mpr (hgood.placed hholds hva),
      fun pid' va' hm => ?_⟩
    obtain ⟨hpid, va'', hva'', hvpn⟩ := honly (hmaps.mp hm)
    rw [hva] at hva''
    cases hva''
    exact ⟨hpid, hvpn⟩
  · obtain ⟨-, va'', hva'', -⟩ := honly (hmaps.mp hm)
    rw [hnone] at hva''
    cases hva''

/-- In every run of the kernel without shared pages, from boot on, the registry of pages and the
page tables agree about every page that a slot of a live process names. -/
theorem always_heldLaw (h : Fits b base count) (ram : Nat → Nat) (reserved : List (Nat × Nat))
    (ops : List KernelOp) (hops : ∀ op ∈ ops, ¬ op.Shares) :
    Machine.Always (step b) (boot (Usage.start ram base count reserved)) ops HeldLaw := by
  have hboot : Separate (Usage.start ram base count reserved).pageInRange
      (boot (Usage.start ram base count reserved)) := by
    refine ⟨orderly_boot (h.sees ram reserved), fun _ => rfl, fun id rec va hrec => ?_⟩
    cases hrec
  have heach : Machine.Each (step b) (boot (Usage.start ram base count reserved)) ops
      fun _ op => ¬ op.Shares := fun first op rest _ _ hsplit _ _ => hops op (by simp [hsplit])
  have halways := Machine.always_of_each hboot (fun k op k' hinv hstep hop =>
    hinv.step h.uart_out h.uartSmall hop hstep) heach
  exact fun first rest k hsplit hrun => (halways first rest k hsplit hrun).heldLaw

/-- A process maps a page and hands it over to a service, which maps it. -/
def handOver : List KernelOp :=
  [.create, .create, .serviceRegister 1 1, .serviceConnect 0 1 0 1, .grantPage 0 2,
    .memMap 0 2 0x10000, .memGrant 0 2 0 2, .memMap 1 2 0x20000]

set_option maxRecDepth 100000 in
theorem always_heldLaw_handOver :
    Fits smallBoard 0x80300000 32 ∧ (∀ op ∈ handOver, ¬ op.Shares) ∧
    ((Machine.run (step smallBoard) (boot smallMem) handOver).map fun k =>
      (k.table.capAt 1 2, (k.pageRecord 0).map PageRecord.mapVa)) =
        some (some (.page 0), some (some 0x20000)) ∧
    Machine.Always (step smallBoard) (boot smallMem) handOver HeldLaw := by
  have hfits : Fits smallBoard 0x80300000 32 := by
    refine ⟨⟨?_, ?_, ?_⟩, ?_, ?_⟩ <;> decide
  have hops : ∀ op ∈ handOver, ¬ op.Shares := by simp [handOver, KernelOp.Shares]
  exact ⟨hfits, hops, by decide +kernel, always_heldLaw hfits _ _ _ hops⟩

end State

end Ignium.Kernel
