import Ignium.Kernel.Loading
import Ignium.Kernel.PageCaps

/-!
# User mappings outlive no page

`MapLaw` says what user code relies on: a page that it can reach is allocated, and only the two
owners of a shared page reach the same page. Every call keeps it as long as no call overwrites a
slot that a live shared page records (`KeepsRecorded`): the record of such a page is revoked
through that slot when its owner goes. `always_mapLaw` carries this through all runs, and
`not_mapLaw_dup` is a run in which one owner copies another capability over the slot and goes.
Sharing a page overwrites slots as well, but none that is recorded: the peer has nothing mapped at
`shmVa`.
-/

namespace Ignium.Kernel

open Mem Mmu

/-- The region of the allocator may lie where it does, and the page of the device is no page of
the region. -/
structure Fits (b : Board) (base count : Nat) : Prop extends Region base count where
  uartSmall : b.uartBase < 2 ^ 56
  uartOut : b.uartBase < base ∨ base + count * pageSize ≤ b.uartBase

/-- The page of the device is not in the range of the allocator. -/
theorem Fits.uart_out {b : Board} {base count : Nat} (h : Fits b base count) {ram : Nat → Nat}
    {reserved : List (Nat × Nat)} :
    (Usage.start ram base count reserved).pageInRange b.uartBase = false := by
  have huart := h.uartOut
  simp only [h.pageInRange, Bool.and_eq_false_iff, decide_eq_false_iff_not]
  omega

/-- The operations that write a slot with a capability for a process, or copy one. -/
def KernelOp.Grants : KernelOp → Prop
  | .grantCap _ _ _ => True
  | .capDup _ _ _ => True
  | .serviceConnect _ _ _ _ => True
  | _ => False

instance : (op : KernelOp) → Decidable op.Grants
  | .grantCap _ _ _ | .capDup _ _ _ | .serviceConnect _ _ _ _ => isTrue trivial
  | .create | .destroy _ | .grantPage _ _ | .load _ _ _ | .shmMap _ _ _ _ | .capRevoke _ _
  | .serviceRegister _ _ | .mapDevice _ _ _ | .memGrant _ _ _ _ | .memMap _ _ _
  | .store _ _ _ => isFalse id

/-- The user addresses that an operation asks to map. -/
def KernelOp.vaddrs : KernelOp → List Nat
  | .load _ info _ => info.pages
  | .shmMap _ _ _ _ => [shmVa]
  | .mapDevice _ _ va => [va]
  | .memMap _ _ va => [va]
  | _ => []

/-- No page is fixed, and pages may hold anything. -/
def Policy.free : Policy := ⟨fun _ => False, fun _ => 0, fun h => h.elim, fun _ _ _ => True⟩

namespace State

variable {k k' : State} {b : Board} {op : KernelOp} {range : Nat → Bool} {pol : Policy}
  {base count : Nat}

/-- A page of the region that user code can reach is allocated, and two processes reach the same
page only if it is a live shared page of which they are the recorded owners. -/
structure MapLaw (k : State) : Prop where
  held : ∀ pid va page, k.UserMaps pid va page → k.mem.pageInRange page = true → k.mem.HasPage page
  shared : ∀ pid va pid' va' page, k.UserMaps pid va page → k.UserMaps pid' va' page → pid ≠ pid' →
    ∃ id sp, k.sharedPage id = some sp ∧ sp.paddr = page ∧ vpn va = vpn shmVa ∧
      vpn va' = vpn shmVa ∧
      ((pid = sp.first.1 ∧ pid' = sp.second.1) ∨ (pid = sp.second.1 ∧ pid' = sp.first.1))

/-- A grant overwrites no slot that a live shared page records. -/
def KeepsRecorded (k : State) (op : KernelOp) : Prop :=
  op.Grants → ∀ q s id sp, (q, s) ∈ k.overwritten op → k.sharedPage id = some sp →
    (q, s) ≠ sp.first ∧ (q, s) ≠ sp.second

/-- It is enough to look at all records, dead ones included. -/
theorem keepsRecorded_of_slots (h : op.Grants → ∀ slot ∈ k.overwritten op, ∀ sp ∈ k.shm.slots,
    slot ≠ sp.first ∧ slot ≠ sp.second) : KeepsRecorded k op := by
  intro hgrants q s id sp hq hsp
  exact h hgrants (q, s) hq sp (List.mem_of_getElem? (Registry.get_eq_some.mp hsp).1)

/-- A policy permits an operation: fixed pages have the leaves of the kernel, which leaves no hole
where the operation asks for a page, and what the operation writes is allowed. -/
structure Permits (b : Board) (pol : Policy) (k : State) (op : KernelOp) : Prop where
  kernel : ∀ {n}, pol.fixed n → pol.kernel n = b.kernelMap n
  mapped : ∀ va ∈ op.vaddrs, pol.fixed (vpn va) → pol.kernel (vpn va) ≠ 0
  taken : ∀ pid slot, op = .grantPage pid slot → ∀ page m,
    k.mem.allocPages 0 = some (some page, m) → ∀ x, Usage.InPage page x → pol.allows page x (m.read x)
  cleared : ∀ p x, ¬ k.Uses p → pol.allows p x 0
  loaded : ∀ pid info args, op = .load pid info args → ∀ p x v, ¬ k.Uses p → pol.allows p x v
  stored : ∀ pid va value, op = .store pid va value → ∀ p, k.UserMaps pid va p →
    k.mem.pageInRange p = true → ∀ x v, pol.allows p x v

/-- The law follows from the discipline. -/
theorem mapLaw_of_inOrder (h : InOrder range k.mem (k.ledger pol)) : MapLaw k := by
  obtain ⟨V, ⟨place, hsees⟩, hgood, rfl⟩ := h
  have hmaps : ∀ {pid va page}, k.UserMaps pid va page → (k.ledger pol).Maps V pid va page :=
    (userMaps_iff ⟨place, hsees⟩ hgood).mp
  refine ⟨fun pid va page hm hrange => ?_, fun pid va pid' va' page hm hm' hne => ?_⟩
  · rw [hsees.range] at hrange
    exact (hsees.data.mp ((hgood.at_ page).mapped (hmaps hm) hrange)).1
  · have hpage := hgood.at_ page
    rcases hrange : V.inRange page with _ | _
    · -- Only the process that claimed the device maps a page outside of the region.
      obtain ⟨claimVa, hclaim⟩ := hpage.device (hmaps hm) hrange
      obtain ⟨claimVa', hclaim'⟩ := hpage.device (hmaps hm') hrange
      rw [hclaim] at hclaim'
      cases hclaim'
      exact absurd rfl hne
    · rcases hpage.once (hmaps hm) (hmaps hm') hrange with ⟨heq, -⟩ | ⟨id, sp, hsp, hp⟩
      · exact absurd heq hne
      · obtain ⟨-, honly⟩ := hpage.shared hsp hp
        obtain ⟨hva, hpid⟩ := honly (hmaps hm)
        obtain ⟨hva', hpid'⟩ := honly (hmaps hm')
        refine ⟨id, sp, hsp, hp, hva, hva', ?_⟩
        rcases hpid with rfl | rfl
        · rcases hpid' with rfl | rfl
          · exact absurd rfl hne
          · exact .inl ⟨rfl, rfl⟩
        · rcases hpid' with rfl | rfl
          · exact .inr ⟨rfl, rfl⟩
          · exact absurd rfl hne

/-- A call that only writes slots keeps the discipline if it leaves the recorded ones alone. -/
theorem inOrder_of_stamped (h : InOrder range k.mem (k.ledger pol)) (hstamped : Stamped k k' op)
    (hids : k.revokedIds op = []) (hgrants : op.Grants) (hkeeps : KeepsRecorded k op) (hmem : k'.mem = k.mem)
    (hroots : k'.table.pidRoot = k.table.pidRoot) (hshm : k'.shm = k.shm)
    (hdevices : k'.devices = k.devices) : InOrder range k'.mem (k'.ledger pol) := by
  obtain ⟨V, hshows, hgood, hrange⟩ := h
  obtain ⟨hstamps, hpages⟩ := hstamped
  have hiff : ∀ q s, k.Overwrites op q s ↔ (q, s) ∈ k.overwritten op := overwrites_iff rfl hids
  have hkept : ∀ {q s}, (q, s) ∉ k.overwritten op → k'.table.capAt q s = k.table.capAt q s :=
    fun hq => hstamps.kept _ _ fun hwritten => hq ((hiff _ _).mp hwritten)
  rw [hmem]
  refine ⟨V, hshows, hgood.recap hroots ?_ ?_ (congrFun hdevices _) rfl (fun {id sp} hsp => ?_) ?_,
    hrange⟩
  · funext id
    exact congrArg (Registry.get SharedPage.id · id) hshm
  · funext id
    exact congrArg (Registry.get PageRecord.id · id) hpages
  · obtain ⟨hf, hs⟩ := hgood.slots hsp
    refine ⟨(hkept fun hwritten => ?_).trans hf, (hkept fun hwritten => ?_).trans hs⟩
    · exact (hkeeps hgrants _ _ id sp hwritten hsp).1 rfl
    · exact (hkeeps hgrants _ _ id sp hwritten hsp).2 rfl
  · intro q s id hcap
    by_cases hwritten : (q, s) ∈ k.overwritten op
    · exact absurd hcap (hstamps.caps q s id ((hiff q s).mpr hwritten))
    · exact (hkept hwritten).symm.trans hcap

/-- What is kept along runs that keep the recorded slots. -/
structure Orderly (pol : Policy) (range : Nat → Bool) (k : State) : Prop where
  sound : k.Sound
  served : k.Served
  inOrder : InOrder range k.mem (k.ledger pol)

theorem inOrder_step (h : Orderly pol range k) (hout : range b.uartBase = false)
    (hlt : b.uartBase < 2 ^ 56) (hpermits : Permits b pol k op) (hkeeps : KeepsRecorded k op)
    (hstep : k.step b op = some k') : InOrder range k'.mem (k'.ledger pol) := by
  obtain ⟨hsound, hserved, h⟩ := h
  cases op with
  | create =>
    obtain ⟨r, hcall⟩ := Outcome.discard_eq_some hstep
    exact create_inOrder h hsound hpermits.kernel hcall
  | destroy pid => exact destroy_inOrder h hsound hstep
  | grantCap pid slot target =>
    cases hstep
    have hroots : (k.table.grantCap pid slot target).2.pidRoot = k.table.pidRoot := by
      unfold ProcessTable.grantCap
      obtain ⟨e, heq, -⟩ | ⟨t, heq, -, hw⟩ :=
        ProcessTable.grantTypedCap_cases k.table pid slot (.proc target)
      · rw [heq]
      · rw [heq]
        exact hw.roots
    exact inOrder_of_stamped h (stamped_grantCap k pid slot target) rfl trivial hkeeps rfl hroots rfl rfl
  | grantPage pid slot => exact grantPage_inOrder h hsound (hpermits.taken pid slot rfl) hstep
  | load pid info args =>
    obtain ⟨r, hcall⟩ := Outcome.discard_eq_some hstep
    obtain ⟨V, hshows, hgood, rfl⟩ := h
    obtain ⟨V', hshows', hgood', hrange, -⟩ :=
      load_good hshows hgood hpermits.mapped (hpermits.loaded pid info args rfl) hcall
    exact ⟨V', hshows', hgood', hrange⟩
  | shmMap caller aSlot bSlot len =>
    obtain ⟨r, hcall⟩ := Outcome.discard_eq_some hstep
    exact mmapShare_inOrder h hsound (hpermits.mapped shmVa (.head _)) hpermits.cleared hcall
  | capRevoke caller slot =>
    obtain ⟨r, hcall⟩ := Outcome.discard_eq_some hstep
    exact capRevoke_inOrder h hsound hcall
  | capDup caller src dst =>
    cases hstep
    have hstamped := stamped_capDuplicate k caller src dst
    obtain ⟨e, heq⟩ | ⟨t, cap, heq, -, -, -, hw⟩ :=
      ProcessTable.capDuplicate_cases k.table caller src dst
    · simp only [capDuplicate, heq]
      exact h
    · simp only [capDuplicate, heq] at hstamped ⊢
      exact inOrder_of_stamped h hstamped rfl trivial hkeeps rfl hw.roots rfl rfl
  | serviceRegister caller id =>
    cases hstep
    obtain ⟨services, heq⟩ := registerService_eq k caller id
    rw [heq]
    exact h
  | serviceConnect caller id clientSlot serverSlot =>
    cases hstep
    have hstamped := stamped_connect hserved caller id clientSlot serverSlot
    obtain ⟨e, heq⟩ | ⟨server, t, e, -, -, hw, heq⟩ | ⟨server, t₁, t₂, -, -, -, -, hw₁, hw₂, heq⟩ :=
      connect_cases k caller id clientSlot serverSlot
    · rw [heq]
      exact h
    · rw [heq] at hstamped ⊢
      exact inOrder_of_stamped h hstamped rfl trivial hkeeps rfl hw.roots rfl rfl
    · rw [heq] at hstamped ⊢
      exact inOrder_of_stamped h hstamped rfl trivial hkeeps rfl (hw₂.roots.trans hw₁.roots) rfl rfl
  | mapDevice caller devId va =>
    obtain ⟨r, hcall⟩ := Outcome.discard_eq_some hstep
    exact deviceMap_inOrder h (hpermits.mapped va (.head _)) hout hlt hcall
  | memGrant caller srcSlot peerSlot dstSlot =>
    obtain ⟨r, hcall⟩ := Outcome.discard_eq_some hstep
    exact memGrant_inOrder h hcall
  | memMap caller slot va =>
    obtain ⟨r, hcall⟩ := Outcome.discard_eq_some hstep
    exact memMap_inOrder h (hpermits.mapped va (.head _)) hcall
  | store pid va value =>
    cases hstep
    exact store_inOrder h va value (hpermits.stored pid va value rfl)

/-- Nothing is mapped before the first process is created. -/
theorem orderly_boot {mem : Usage} (hsees : Sees mem (fun _ => none) (View.bare mem)) :
    Orderly pol mem.pageInRange (boot mem) := by
  have hcaps : ∀ q s, ((boot mem).ledger pol).caps q s = none :=
    fun q s => ProcessTable.capAt_of_dead rfl
  have hunmapped : ∀ p, ((boot mem).ledger pol).Unmapped (View.bare mem) p := by
    rintro p pid va ⟨root, hroot, -⟩
    cases hroot
  have hfree : ∀ p, ((boot mem).ledger pol).Unclaimed p := by
    refine fun p => ⟨fun id sp hsp => ?_, fun q id rec hh => ?_⟩
    · cases hsp
    · cases hh.2
  refine ⟨sound_boot mem, fun slot entry hentry => ?_, _, ⟨_, hsees⟩, ⟨fun hr => ?_, fun hr => ?_,
    fun hsp => ?_, fun {q s id} hcap => ?_, fun {q s _ _ id} hcap => ?_,
    fun p => Ledger.at_of_unmapped (hunmapped p) (hfree p), fun hsp => ?_, fun hh => ?_,
    fun hr => ?_⟩, rfl⟩
  · cases hentry
  · cases hr
  · cases hr
  · cases hsp
  · rw [hcaps] at hcap
    cases hcap
  · rw [hcaps] at hcap
    cases hcap
  · cases hsp
  · cases hh.2
  · cases hr

/-- A step keeps all of it. -/
theorem Orderly.step (h : Orderly pol range k) (hout : range b.uartBase = false)
    (hlt : b.uartBase < 2 ^ 56) (hpermits : Permits b pol k op) (hkeeps : KeepsRecorded k op)
    (hstep : k.step b op = some k') : Orderly pol range k' :=
  ⟨h.sound.step hstep, h.served.step h.sound hstep, inOrder_step h hout hlt hpermits hkeeps hstep⟩

/-- The free policy permits everything. -/
theorem permits_free : Permits b .free k op where
  kernel h := h.elim
  mapped _ _ h := h.elim
  taken _ _ _ _ _ _ _ _ := trivial
  cleared _ _ _ := trivial
  loaded _ _ _ _ _ _ _ _ := trivial
  stored _ _ _ _ _ _ _ _ _ := trivial

/-- In every run in which no operation overwrites a slot that a live shared page records, user code
reaches only allocated pages, and no two processes reach the same page unless they share it. -/
theorem always_mapLaw (h : Fits b base count) (ram : Nat → Nat) (reserved : List (Nat × Nat))
    (ops : List KernelOp)
    (hkeeps : Machine.Each (step b) (boot (Usage.start ram base count reserved)) ops
      KeepsRecorded) :
    Machine.Always (step b) (boot (Usage.start ram base count reserved)) ops MapLaw := by
  have hboot : Orderly .free _ (boot (Usage.start ram base count reserved)) :=
    orderly_boot (h.sees ram reserved)
  have halways := Machine.always_of_each hboot (fun k op k' hinv hstep hcond =>
    hinv.step h.uart_out h.uartSmall permits_free hcond hstep) hkeeps
  intro first rest k hops hrun
  exact mapLaw_of_inOrder (halways first rest k hops hrun).inOrder

set_option maxRecDepth 100000 in
/-- Two processes connect and share a page. Nothing is shared yet when the slots are written. -/
theorem each_keepsRecorded_share :
    Machine.Each (step smallBoard) (boot smallMem)
      [.create, .create, .serviceRegister 1 1, .serviceConnect 0 1 0 1, .shmMap 0 0 0 4096]
      KeepsRecorded := by
  have hmeets : Machine.meets (step smallBoard)
      (fun k op => decide (op.Grants → ∀ slot ∈ k.overwritten op, ∀ sp ∈ k.shm.slots,
        slot ≠ sp.first ∧ slot ≠ sp.second)) (boot smallMem)
      [.create, .create, .serviceRegister 1 1, .serviceConnect 0 1 0 1] = true := by
    decide +kernel
  have heach : Machine.Each (step smallBoard) (boot smallMem)
      [.create, .create, .serviceRegister 1 1, .serviceConnect 0 1 0 1] KeepsRecorded :=
    Machine.each_of_meets (fun _ _ h => keepsRecorded_of_slots (of_decide_eq_true h)) hmeets
  exact heach.snoc (.shmMap 0 0 0 4096) fun _ hgrants => False.elim hgrants

/-- Two processes share a page and one of them goes. -/
theorem always_mapLaw_share :
    Fits smallBoard 0x80300000 32 ∧ Machine.Always (step smallBoard) (boot smallMem)
      [.create, .create, .serviceRegister 1 1, .serviceConnect 0 1 0 1, .shmMap 0 0 0 4096,
        .destroy 1] MapLaw := by
  have hfits : Fits smallBoard 0x80300000 32 := by
    refine ⟨⟨?_, ?_, ?_⟩, ?_, ?_⟩ <;> decide
  exact ⟨hfits, always_mapLaw hfits _ _ _
    (each_keepsRecorded_share.snoc (.destroy 1) fun _ hgrants => False.elim hgrants)⟩

set_option maxRecDepth 100000 in
/-- Process 1 overwrites its capability for the page it shares with process 0 and goes. The page is
released, and process 0 still maps it. -/
theorem not_mapLaw_dup :
    ¬ Machine.Always (step smallBoard) (boot smallMem)
      [.create, .create, .serviceRegister 1 1, .serviceConnect 0 1 0 1, .shmMap 0 0 0 4096,
        .capDup 1 1 0, .destroy 1] MapLaw := by
  intro halways
  have heval : (Machine.run (step smallBoard) (boot smallMem)
      [.create, .create, .serviceRegister 1 1, .serviceConnect 0 1 0 1, .shmMap 0 0 0 4096,
        .capDup 1 1 0, .destroy 1]).map (fun k => (k.table.pidRoot 0).map fun root =>
          let entry := leafPte k.mem root shmVa
          (decide (User entry), k.mem.pageInRange (ptePaddr entry),
            k.mem.live.all fun block => k.mem.allocator.blockAddr block.idx != ptePaddr entry)) =
      some (some (true, true, true)) := by decide +kernel
  obtain ⟨k, hrun, hk⟩ := Option.map_eq_some_iff.mp heval
  obtain ⟨root, hroot, heq⟩ := Option.map_eq_some_iff.mp hk
  obtain ⟨huser, hrest⟩ := Prod.mk.inj heq
  obtain ⟨hrange, hall⟩ := Prod.mk.inj hrest
  have hmaps : k.UserMaps 0 shmVa (ptePaddr (leafPte k.mem root shmVa)) :=
    ⟨root, hroot, of_decide_eq_true huser, rfl⟩
  obtain ⟨i, hpage, hlive⟩ :=
    (halways _ [] k (List.append_nil _).symm hrun).held 0 shmVa _ hmaps hrange
  have hne := List.all_eq_true.mp hall _ hlive
  rw [hpage] at hne
  simp at hne

end State

end Ignium.Kernel
