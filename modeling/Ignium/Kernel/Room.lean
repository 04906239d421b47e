import Ignium.Kernel.Effects
import Ignium.Mem.Count

/-!
# Registries that are not full

`pages::alloc` and `shm_map` refuse with `-ENOMEM` when the table behind them has reached its
capacity. The table never shrinks: a revoked record stays in it until its index is used again, so
its length is the largest number of records that were ever live together. `each_enomemLaw` says
that the refusal is right, that is, as many records are live as the registry may have or no page is
free, in every run that asks for no record while the table has reached its capacity and a revoked
index waits in the queue. `not_enomemLaw` is a run that does ask.
-/

namespace Ignium.Kernel

open Mem Mmu Blocks

namespace State

variable {k k' : State} {b : Board} {id pid slot : Nat}

/-! ## When the calls are refused -/

/-- `alloc` is refused when no page is free or the table has reached its capacity. -/
theorem pagesAlloc_refused {owner e : Nat} (h : k.pagesAlloc owner = some (.error e, k')) :
    NoFreePage k.mem ∨ maxPages ≤ k.pages.slots.length := by
  unfold pagesAlloc at h
  rcases halloc : k.mem.allocPages 0 with _ | ⟨_ | paddr, m⟩
  · rw [halloc] at h
    cases h
  · exact .inl (noFreePage_of_allocPages halloc)
  · rw [halloc] at h
    dsimp only at h
    split at h
    · next hfull => exact .inr hfull
    · cases h

/-- Of the errors of `mapShared`, `-ENOMEM` is for memory and for the registry. -/
theorem mapShared_enomem {m m' : Usage} {rootA rootB : Nat} {full : Bool}
    (h : mapShared m rootA rootB full = some (.error sysErrEnomem, m')) :
    NoFreePage m ∨ full = true := by
  have hother : ∀ work : Option Usage,
      (Outcome.failAfter work sysErrEinval : Outcome Usage Nat Nat) ≠
        some (.error sysErrEnomem, m') := by
    intro work hwork
    have herror : sysErrEnomem = sysErrEinval :=
      Except.error.inj (Outcome.failAfter_eq_some hwork).2
    exact absurd herror (by decide)
  unfold mapShared at h
  rcases halloc : m.allocPagesZeroed 0 with _ | ⟨_ | paddr, m₁⟩
  · rw [halloc] at h
    cases h
  · exact .inl (noFreePage_of_allocPagesZeroed halloc)
  rw [halloc] at h
  dsimp only at h
  rcases hfirst : mapUserPage m₁ rootA shmVa paddr mapFlags with _ | ⟨_ | _, m₂⟩
  · rw [hfirst] at h
    cases h
  · rw [hfirst] at h
    exact absurd h (hother _)
  rw [hfirst] at h
  dsimp only at h
  rcases hsecond : mapUserPage m₂ rootB shmVa paddr mapFlags with _ | ⟨_ | _, m₃⟩
  · rw [hsecond] at h
    cases h
  · rw [hsecond] at h
    exact absurd h (hother _)
  rw [hsecond] at h
  dsimp only at h
  cases full with
  | true => exact .inr rfl
  | false => cases h

/-- `shm_map` returns `-ENOMEM` when no page is free or the table has reached its capacity. -/
theorem mmapShare_enomem {caller aSlot bSlot len : Nat}
    (h : k.mmapShare caller aSlot bSlot len = some (.error sysErrEnomem, k')) :
    NoFreePage k.mem ∨ maxShms ≤ k.shm.slots.length := by
  have hother : ∀ e : Nat, e ≠ sysErrEnomem →
      (some (.error e, k) : Outcome State Nat Nat) ≠ some (.error sysErrEnomem, k') := by
    intro e hne heq
    exact hne (Except.error.inj (congrArg Prod.fst (Option.some.inj heq)))
  unfold mmapShare at h
  split at h
  · exact absurd h (hother _ (by decide))
  rcases hcap : k.table.capTarget caller aSlot with e | (peer | id | id)
  · rw [hcap] at h
    refine absurd h (hother _ ?_)
    cases e <;> decide
  · rw [hcap] at h
    dsimp only at h
    split at h
    · exact absurd h (hother _ (by decide))
    next hslot =>
    rcases hpeer : k.table.pidRoot peer with _ | rootB
    · rw [hpeer] at h
      exact absurd h (hother _ (by decide))
    rcases hcaller : k.table.pidRoot caller with _ | rootA
    · rw [hpeer, hcaller] at h
      exact absurd h (hother _ (by decide))
    rw [hpeer, hcaller] at h
    dsimp only at h
    rcases hmap : mapShared k.mem rootA rootB (decide (k.shm.slots.length ≥ maxShms)) with
      _ | ⟨e | paddr, m⟩
    · rw [hmap] at h
      cases h
    · rw [hmap] at h
      obtain rfl : e = sysErrEnomem := Except.error.inj (congrArg Prod.fst (Option.some.inj h))
      exact (mapShared_enomem hmap).imp_right of_decide_eq_true
    · -- The page is mapped and both slots are there, so the call does not fail any more.
      rw [hmap] at h
      dsimp only at h
      rcases henter : k.shm.enter (fun id => ⟨id, paddr, (caller, aSlot), (peer, bSlot)⟩) with
        ⟨id, shm⟩
      have haSlot := ProcessTable.slot_lt_of_capAt (ProcessTable.capTarget_eq_ok.mp hcap)
      obtain ⟨t₁, t₂, ht₁, ht₂, -, -⟩ :=
        grantShmCap_both id hcaller hpeer haSlot (Nat.lt_of_not_ge hslot)
      simp only [henter, ht₁, ht₂] at h
      cases h
  · rw [hcap] at h
    exact absurd h (hother _ (by decide))
  · rw [hcap] at h
    exact absurd h (hother _ (by decide))

/-! ## The registries as a machine -/

/-- An operation of the kernel, or a direct call of a function on the registries. -/
inductive RoomOp where
  | kernel (op : KernelOp)
  | pagesAlloc (owner : Nat)
  | pagesRevoke (id : Nat)
  | shmRevoke (id : Nat)
  deriving DecidableEq

/-- One operation. -/
def roomStep (b : Board) (k : State) : RoomOp → Option State
  | .kernel op => k.step b op
  | .pagesAlloc owner => (k.pagesAlloc owner).discard
  | .pagesRevoke id => (k.pagesRevoke id).discard
  | .shmRevoke id => (k.shmRevoke id).discard

/-- The number of live page records. -/
def livePages (k : State) : Nat := (k.pages.live PageRecord.id).length

/-- The number of live shared pages. -/
def liveShms (k : State) : Nat := (k.shm.live SharedPage.id).length

/-- A call returns `-ENOMEM` only if its registry is full of live records or no page is free. -/
def EnomemLaw (k : State) : RoomOp → Prop
  | .pagesAlloc owner => ∀ k', k.pagesAlloc owner = some (.error sysErrEnomem, k') →
      k.livePages = maxPages ∨ NoFreePage k.mem
  | .kernel (.shmMap caller aSlot bSlot len) =>
    ∀ k', k.mmapShare caller aSlot bSlot len = some (.error sysErrEnomem, k') →
      k.liveShms = maxShms ∨ NoFreePage k.mem
  | _ => True

/-- No index waits in the queue of a table that has reached its capacity. -/
def HasRoom (k : State) : RoomOp → Prop
  | .pagesAlloc _ => k.pages.slots.length < maxPages ∨ k.pages.free = []
  | .kernel (.shmMap _ _ _ _) => k.shm.slots.length < maxShms ∨ k.shm.free = []
  | _ => True

instance (k : State) (op : RoomOp) : Decidable (k.HasRoom op) := by
  unfold HasRoom
  split <;> infer_instance

/-- A table of the largest length without free indices is full of live records. -/
theorem length_live_of_full {R : Type} {ident : R → Nat} {t : Registry R} {bound : Nat}
    (h : Registry.Sound ident t) (hlength : t.slots.length ≤ bound) (hfull : bound ≤ t.slots.length)
    (hroom : t.slots.length < bound ∨ t.free = []) : (t.live ident).length = bound := by
  have hlive := h.length_live
  rcases hroom with hlt | hnil
  · omega
  · rw [hnil, List.length_nil] at hlive
    omega

theorem Sound.enomemLaw {op : RoomOp} (h : k.Sound) (hroom : k.HasRoom op) : k.EnomemLaw op := by
  unfold EnomemLaw
  split
  · intro k' hcall
    rcases pagesAlloc_refused hcall with hnone | hfull
    · exact .inr hnone
    · exact .inl (length_live_of_full h.pages h.pagesLength hfull hroom)
  · intro k' hcall
    rcases mmapShare_enomem hcall with hnone | hfull
    · exact .inr hnone
    · exact .inl (length_live_of_full h.shm h.shmLength hfull hroom)
  · trivial

theorem Sound.pagesAlloc {owner : Nat} {r : Except Nat Nat} (h : k.Sound)
    (hcall : k.pagesAlloc owner = some (r, k')) : k'.Sound := by
  unfold State.pagesAlloc at hcall
  rcases halloc : k.mem.allocPages 0 with _ | ⟨_ | paddr, m⟩
  · rw [halloc] at hcall
    cases hcall
  · rw [halloc] at hcall
    cases hcall
    exact h.withMem m
  · rw [halloc] at hcall
    dsimp only at hcall
    split at hcall
    · obtain ⟨hfree, -⟩ := Outcome.failAfter_eq_some hcall
      obtain ⟨m', -, rfl⟩ := Option.map_eq_some_iff.mp hfree
      exact h.withMem m'
    · next hroom =>
      cases hcall
      exact ⟨h.table, h.shm, h.shmLength, h.pages.enter fun _ => rfl,
        Registry.length_enter_le h.pagesLength fun _ => Nat.lt_of_not_ge hroom⟩

theorem Sound.roomStep {op : RoomOp} (h : k.Sound) (hstep : k.roomStep b op = some k') :
    k'.Sound := by
  cases op with
  | kernel op => exact h.step hstep
  | pagesAlloc owner =>
    obtain ⟨r, hcall⟩ := Outcome.discard_eq_some hstep
    exact h.pagesAlloc hcall
  | pagesRevoke id =>
    obtain ⟨r, hcall⟩ := Outcome.discard_eq_some hstep
    exact (pagesRevoked_pagesRevoke h hcall).sound
  | shmRevoke id =>
    obtain ⟨r, hcall⟩ := Outcome.discard_eq_some hstep
    exact (revoked_shmRevoke h hcall).sound

/-- In a run that asks for a record only while the table is below its capacity or no revoked index
waits, `-ENOMEM` means that the registry is full of live records or that no page is free. -/
theorem each_enomemLaw (b : Board) (mem : Usage) (ops : List RoomOp)
    (hroom : Machine.Each (roomStep b) (boot mem) ops HasRoom) :
    Machine.Each (roomStep b) (boot mem) ops EnomemLaw := by
  have hsound : Machine.Always (roomStep b) (boot mem) ops Sound :=
    Machine.always_of_step (sound_boot mem) fun _ _ _ h hstep => h.roomStep hstep
  intro first op rest k k' hops hrun hstep
  exact (hsound first (op :: rest) k hops hrun).enomemLaw
    (hroom first op rest k k' hops hrun hstep)

set_option maxRecDepth 100000 in
/-- In a region of two pages the third record is refused, also after one was revoked. -/
theorem each_enomemLaw_pages :
    Machine.Each (roomStep smallBoard) (boot (Usage.start (fun _ => 0) 0x80300000 2 []))
        [.pagesAlloc 0, .pagesAlloc 0, .pagesRevoke 0, .pagesAlloc 0, .pagesAlloc 0] EnomemLaw ∧
      (Machine.run (roomStep smallBoard) (boot (Usage.start (fun _ => 0) 0x80300000 2 []))
        [.pagesAlloc 0, .pagesAlloc 0, .pagesRevoke 0, .pagesAlloc 0]).map
          (fun k => (k.pagesAlloc 0).map Prod.fst) = some (some (.error sysErrEnomem)) := by
  refine ⟨each_enomemLaw smallBoard _ _ ?_, by decide +kernel⟩
  have hmeets : Machine.meets (roomStep smallBoard) (fun k op => decide (HasRoom k op))
      (boot (Usage.start (fun _ => 0) 0x80300000 2 []))
      [.pagesAlloc 0, .pagesAlloc 0, .pagesRevoke 0, .pagesAlloc 0, .pagesAlloc 0] = true := by
    decide +kernel
  exact Machine.each_of_meets (fun _ _ => of_decide_eq_true) hmeets

/-- A region of 96 pages, all free. -/
def mem96 : Usage := Usage.start (fun _ => 0) 0x80300000 96 []

set_option maxRecDepth 100000 in
/-- After 64 records one is revoked, and the next one is refused with 63 live records and free
pages. -/
theorem not_enomemLaw :
    ¬ Machine.Each (roomStep smallBoard) (boot mem96)
      (List.replicate 64 (.pagesAlloc 0) ++ [.pagesRevoke 0, .pagesAlloc 0]) EnomemLaw := by
  intro heach
  have heval : (Machine.run (roomStep smallBoard) (boot mem96)
      (List.replicate 64 (.pagesAlloc 0) ++ [.pagesRevoke 0])).map
        (fun k => (k.livePages, (k.pagesAlloc 0).map Prod.fst, k.mem.allocator.freeLists 5,
          k.mem.allocator.next 32)) =
      some (63, some (.error sysErrEnomem), 32, freeNone) := by
    decide +kernel
  obtain ⟨k, hrun, hk⟩ := Option.map_eq_some_iff.mp heval
  obtain ⟨hlive, hk⟩ := Prod.mk.inj hk
  obtain ⟨hcall, hk⟩ := Prod.mk.inj hk
  obtain ⟨hhead, hnext⟩ := Prod.mk.inj hk
  obtain ⟨⟨r, k'⟩, hcall, hr⟩ := Option.map_eq_some_iff.mp hcall
  obtain rfl : r = .error sysErrEnomem := hr
  have hstep : k.roomStep smallBoard (.pagesAlloc 0) = some k' := by
    rw [State.roomStep, hcall]
    rfl
  have hlaw : k.EnomemLaw (.pagesAlloc 0) :=
    heach _ _ [] k k' (by rw [List.append_assoc]; rfl) hrun hstep
  rcases hlaw k' hcall with hfull | hnone
  · rw [hlive] at hfull
    exact absurd hfull (by decide)
  · -- The second half of the region is a free block of order 5.
    refine hnone 32 ⟨⟨32, 5⟩, ⟨by decide, [32], ⟨hhead, by decide, hnext⟩, by decide⟩, ?_⟩
    exact Block.idx_mem ⟨32, 5⟩

end State

end Ignium.Kernel
