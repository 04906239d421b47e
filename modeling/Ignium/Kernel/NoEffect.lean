import Ignium.Kernel.UseAfterFree
import Ignium.Mmu.Levels

/-!
# System calls that fail

A system call that returns an error leaves everything as it was but for empty page tables: the
capabilities, the registries, the translation of every address of every process, and the pages that
are held and are no tables. `refusal_unaffected` has this for every state whose tables are held,
whose services are run by living processes, and in which no page is a table on two levels.

The last condition is needed. A table that a failing call leaves behind is linked by an entry of its
parent, and where that parent is also a level-0 table the entry is a leaf (`not_unaffected_loop`).
Nothing in a call looks for this: it is for the rest of the kernel to keep the tables of different
levels apart, as it does in the runs of `Ignium.Kernel.UseAfterFree` (`Orderly.backed`).
-/

namespace Ignium.Kernel

open Mem Mmu
open Spaces (TableAt)

namespace State

/-- The root of a process. -/
def IsRoot (k : State) (root : Nat) : Prop := ∃ pid, k.table.pidRoot pid = some root

/-- The allocator is in order, the page tables and the pages that processes have mapped are held,
and the processes registered for services are alive. -/
structure Backed (k : State) : Prop where
  sound : k.mem.Sound
  small : k.mem.allocator.base + k.mem.allocator.realCount * pageSize ≤ 2 ^ 56
  tables : ∀ page, IsTableOf k.mem k.IsRoot page → k.mem.Taken page
  mapped : ∀ pid va page, k.UserMaps pid va page → k.mem.pageInRange page = true →
    k.mem.Taken page
  served : k.Served

/-- No page is a table on two levels. -/
def OneLevel (k : State) : Prop :=
  ∀ r r' path path' page, k.IsRoot r → k.IsRoot r' → TableAt k.mem r path page →
    TableAt k.mem r' path' page → path.length = path'.length

/-- The state after a system call that returns an error. -/
def refusal (b : Board) (k : State) : KernelOp → Option State
  | .shmMap caller aSlot bSlot len => (k.mmapShare caller aSlot bSlot len).failed
  | .memGrant caller srcSlot peerSlot dstSlot => (k.memGrant caller srcSlot peerSlot dstSlot).failed
  | .memMap caller slot va => (k.memMap caller slot va).failed
  | .mapDevice caller devId va => (k.deviceMap b caller devId va).failed
  | .serviceRegister caller id => Outcome.failed (some (k.registerService caller id))
  | .serviceConnect caller id clientSlot serverSlot =>
    Outcome.failed (some (k.connect caller id clientSlot serverSlot))
  | .capDup caller src dst => Outcome.failed (some (k.capDuplicate caller src dst))
  | _ => none

/-- What a call that fails leaves alone: the processes with their capabilities, the registries, the
translation of every address, and the pages that are held and are no tables. -/
structure Unaffected (k k' : State) : Prop where
  table : k'.table = k.table
  shm : k'.shm = k.shm
  pages : k'.pages = k.pages
  services : k'.services = k.services
  devices : k'.devices = k.devices
  leaves : ∀ root, k.IsRoot root → ∀ va, leafPte k'.mem root va = leafPte k.mem root va
  taken : ∀ page, (k'.mem.Taken page ∧ ¬ IsTableOf k'.mem k'.IsRoot page) ↔
    (k.mem.Taken page ∧ ¬ IsTableOf k.mem k.IsRoot page)

variable {b : Board} {k k' : State} {op : KernelOp}

theorem Unaffected.refl (k : State) : k.Unaffected k :=
  ⟨rfl, rfl, rfl, rfl, rfl, fun _ _ _ => rfl, fun _ => Iff.rfl⟩

theorem Backed.leveled (h : k.Backed) (hlevel : k.OneLevel) : Leveled k.mem k.IsRoot :=
  ⟨h.sound, h.small, fun hr htable => h.tables _ ⟨_, hr, _, htable⟩,
    fun hr hr' htable htable' => hlevel _ _ _ _ _ hr hr' htable htable'⟩

/-- A call that only changes the memory and undoes what it did there. -/
theorem unaffected_withMem {m : Usage} {slots : Nat → Nat → Prop} {pages : Nat → Prop}
    (h : Extends k.IsRoot k.mem m slots pages) (hslots : ∀ table i, ¬ slots table i)
    (hpages : ∀ page, ¬ pages page) : k.Unaffected (k.withMem m) := by
  obtain ⟨hleaves, htaken⟩ := h.done hslots hpages
  exact ⟨rfl, rfl, rfl, rfl, rfl, hleaves, htaken⟩

/-- Sharing a page that fails is undone. -/
theorem unaffected_mapShared {m : Usage} {rootA rootB e : Nat} {full : Bool}
    (h : Leveled k.mem k.IsRoot) (hA : k.IsRoot rootA) (hB : k.IsRoot rootB)
    (hmap : mapShared k.mem rootA rootB full = some (.error e, m)) :
    k.Unaffected (k.withMem m) := by
  unfold mapShared at hmap
  obtain hnone | ⟨page, m₁, hsome, htakes, -⟩ := h.sound.allocPagesZeroed
  · simp only [hnone] at hmap
    cases hmap
    exact .refl k
  simp only [hsome] at hmap
  have h₁ := (Extends.refl h).take htakes
  have hpage : page = page ∨ False := .inl rfl
  rcases hmapA : mapUserPage m₁ rootA shmVa page mapFlags with _ | ⟨rA, m₂⟩
  · simp [hmapA] at hmap
  obtain ⟨-, ⟨rfl, h₂⟩ | ⟨rfl, lowA, hendA, h₂⟩⟩ := h₁.mapUserPage hA hmapA
  · simp only [hmapA] at hmap
    obtain ⟨hfreed, -⟩ := Outcome.failAfter_eq_some hmap
    obtain ⟨r, hfree⟩ := Outcome.discard_eq_some hfreed
    have h₃ := h₂.give hpage hfree
    exact unaffected_withMem h₃ (by simp) (by simp)
  simp only [hmapA] at hmap
  rcases hmapB : mapUserPage m₂ rootB shmVa page mapFlags with _ | ⟨rB, m₃⟩
  · simp [hmapB] at hmap
  obtain ⟨hmono, ⟨rfl, h₃⟩ | ⟨rfl, lowB, hendB, h₃⟩⟩ := h₂.mapUserPage hB hmapB
  · simp only [hmapB] at hmap
    obtain ⟨hundone, -⟩ := Outcome.failAfter_eq_some hmap
    obtain ⟨m₄, hunmapA, hfreed⟩ := Option.bind_eq_some_iff.mp hundone
    obtain ⟨r, hunmap⟩ := Outcome.discard_eq_some hunmapA
    obtain ⟨r', hfree⟩ := Outcome.discard_eq_some hfreed
    obtain ⟨-, h₄⟩ := h₃.unmap4k hA ⟨hmono hA hendA.1, rfl⟩ (.inl ⟨rfl, rfl⟩) hunmap
    exact unaffected_withMem (h₄.give hpage hfree) (by simp) (by simp)
  · simp only [hmapB] at hmap
    split at hmap
    · obtain ⟨hundone, -⟩ := Outcome.failAfter_eq_some hmap
      obtain ⟨m₄, hunmapA, hrest⟩ := Option.bind_eq_some_iff.mp hundone
      obtain ⟨m₅, hunmapB, hfreed⟩ := Option.bind_eq_some_iff.mp hrest
      obtain ⟨r, hunmap⟩ := Outcome.discard_eq_some hunmapA
      obtain ⟨r', hunmap'⟩ := Outcome.discard_eq_some hunmapB
      obtain ⟨r'', hfree⟩ := Outcome.discard_eq_some hfreed
      obtain ⟨hmono', h₄⟩ := h₃.unmap4k hA ⟨hmono hA hendA.1, rfl⟩ (.inr (.inl ⟨rfl, rfl⟩)) hunmap
      by_cases hsame : lowB = lowA
      · -- The two entries are one, and it is unset already.
        subst hsame
        have hzero : leafPte m₄ rootB shmVa = 0 :=
          (h₄.leaves hB (by simp)).trans (h₃.unset hB (.inl ⟨rfl, rfl⟩) hendB)
        rw [unmap4k, if_pos hzero] at hunmap'
        cases hunmap'
        exact unaffected_withMem (h₄.give hpage hfree) (by simp) (by simp)
      · obtain ⟨-, h₅⟩ := h₄.unmap4k hB ⟨hmono' hB hendB.1, rfl⟩
          ⟨fun heq => hsame heq.1, .inl ⟨rfl, rfl⟩⟩ hunmap'
        refine unaffected_withMem (h₅.give hpage hfree) ?_ (by simp)
        rintro table i ⟨hneB, hneA, hslotB | hslotA | hnone⟩
        · exact hneB hslotB
        · exact hneA hslotA
        · exact hnone
    · cases hmap

theorem unaffected_mmapShare {caller aSlot bSlot len e : Nat} (h : Leveled k.mem k.IsRoot)
    (hcall : k.mmapShare caller aSlot bSlot len = some (.error e, k')) : k.Unaffected k' := by
  obtain ⟨m, rfl, rfl | ⟨peer, rootA, rootB, full, e', hpeer, hcaller, hmap⟩, -⟩ |
    ⟨_, _, _, _, _, _, _, _, _, _, _, _, _, _, _, _, _, _, hok, -⟩ := mmapShare_cases hcall
  · exact .refl k
  · exact unaffected_mapShared h ⟨_, hcaller⟩ ⟨_, hpeer⟩ hmap
  · cases hok

theorem unaffected_memGrant {caller srcSlot peerSlot dstSlot e : Nat}
    (hcall : k.memGrant caller srcSlot peerSlot dstSlot = some (.error e, k')) :
    k.Unaffected k' := by
  obtain ⟨rfl, -⟩ | ⟨_, _, _, _, _, _, _, _, _, _, _, _, _, hok, -⟩ := memGrant_cases hcall
  · exact .refl _
  · cases hok

theorem unaffected_memMap {caller slot va e : Nat} (h : Leveled k.mem k.IsRoot)
    (hcall : k.memMap caller slot va = some (.error e, k')) : k.Unaffected k' := by
  obtain ⟨m, rfl, rfl | ⟨root, paddr, hroot, hmap⟩⟩ | ⟨_, _, _, _, _, _, _, _, _, _, _, hok, -⟩ :=
    memMap_cases hcall
  · exact .refl k
  · obtain ⟨-, ⟨-, h'⟩ | ⟨hok, -⟩⟩ := (Extends.refl h).mapUserPage ⟨_, hroot⟩ hmap
    · exact unaffected_withMem h' (by simp) (by simp)
    · cases hok
  · cases hok

theorem unaffected_deviceMap {caller devId va e : Nat} (h : Leveled k.mem k.IsRoot)
    (hcall : k.deviceMap b caller devId va = some (.error e, k')) : k.Unaffected k' := by
  obtain ⟨m, rfl, rfl | ⟨root, hroot, hmap⟩⟩ | ⟨_, _, _, _, _, _, _, hok, -⟩ :=
    deviceMap_cases hcall
  · exact .refl k
  · unfold mapDevicePage at hmap
    split at hmap
    · cases hmap
      exact .refl k
    · obtain ⟨-, ⟨-, h'⟩ | ⟨hok, -⟩⟩ := (Extends.refl h).mapUserLeaf ⟨_, hroot⟩ hmap
      · exact unaffected_withMem h' (by simp) (by simp)
      · cases hok
  · cases hok

theorem unaffected_registerService {caller id e : Nat}
    (hcall : k.registerService caller id = (.error e, k')) : k.Unaffected k' := by
  unfold registerService registerLocked at hcall
  split at hcall
  · cases hcall
    exact .refl k
  split at hcall
  · cases hcall
    exact .refl k
  dsimp only at hcall
  split at hcall
  · cases hcall
    exact .refl k
  · cases hcall

theorem unaffected_connect {caller id clientSlot serverSlot e : Nat} (h : k.Served)
    (hcall : k.connect caller id clientSlot serverSlot = (.error e, k')) : k.Unaffected k' := by
  obtain ⟨e', heq⟩ | ⟨server, t, e', hlookup, hdead, -⟩ | ⟨_, _, _, _, _, _, _, _, _, heq⟩ :=
    connect_cases k caller id clientSlot serverSlot
  · cases hcall.symm.trans heq
    exact .refl k
  · exact absurd hdead (h.lookup hlookup)
  · cases hcall.symm.trans heq

theorem unaffected_capDuplicate {caller src dst : Nat} {e : CapError}
    (hcall : k.capDuplicate caller src dst = (.error e, k')) : k.Unaffected k' := by
  unfold capDuplicate at hcall
  obtain ⟨e', heq⟩ | ⟨t, cap, heq, -⟩ := ProcessTable.capDuplicate_cases k.table caller src dst
  · rw [heq] at hcall
    cases hcall
    exact .refl k
  · rw [heq] at hcall
    cases hcall

/-- A system call that fails has no effect but for empty page tables. -/
theorem refusal_unaffected (h : k.Backed) (hlevel : k.OneLevel)
    (hcall : k.refusal b op = some k') : k.Unaffected k' := by
  have hleveled := h.leveled hlevel
  cases op with
  | shmMap caller aSlot bSlot len =>
    obtain ⟨e, hcall⟩ := Outcome.failed_eq_some hcall
    exact unaffected_mmapShare hleveled hcall
  | memGrant caller srcSlot peerSlot dstSlot =>
    obtain ⟨e, hcall⟩ := Outcome.failed_eq_some hcall
    exact unaffected_memGrant hcall
  | memMap caller slot va =>
    obtain ⟨e, hcall⟩ := Outcome.failed_eq_some hcall
    exact unaffected_memMap hleveled hcall
  | mapDevice caller devId va =>
    obtain ⟨e, hcall⟩ := Outcome.failed_eq_some hcall
    exact unaffected_deviceMap hleveled hcall
  | serviceRegister caller id =>
    obtain ⟨e, hcall⟩ := Outcome.failed_eq_some hcall
    exact unaffected_registerService (Option.some.inj hcall)
  | serviceConnect caller id clientSlot serverSlot =>
    obtain ⟨e, hcall⟩ := Outcome.failed_eq_some hcall
    exact unaffected_connect h.served (Option.some.inj hcall)
  | capDup caller src dst =>
    obtain ⟨e, hcall⟩ := Outcome.failed_eq_some hcall
    exact unaffected_capDuplicate (Option.some.inj hcall)
  | _ => cases hcall

/-! ## The states of runs -/

/-- The states that runs reach without overwriting the slots of shared pages are such states. -/
theorem Orderly.backed {pol : Policy} {range : Nat → Bool} (h : Orderly pol range k) :
    k.Backed ∧ k.OneLevel := by
  obtain ⟨-, hserved, hinOrder⟩ := h
  have hlaw := mapLaw_of_inOrder hinOrder
  obtain ⟨V, ⟨place, hsees⟩, hgood, -⟩ := hinOrder
  have hplace : ∀ {r path page}, k.IsRoot r → TableAt k.mem r path page →
      place page = some ⟨r, path⟩ := by
    rintro r path page ⟨pid, hr⟩ htable
    exact Spaces.place_of_tableAt (s := ⟨k.mem, []⟩) hsees (hgood.root hr) htable
  refine ⟨⟨hsees.sound, hsees.small, ?_, ?_, hserved⟩, ?_⟩
  · rintro page ⟨r, hr, path, htable⟩
    exact (hsees.tables.held (hplace hr htable)).taken
  · intro pid va page hmaps hrange
    exact (hlaw.held pid va page hmaps hrange).taken
  · intro r r' path path' page hr hr' htable htable'
    cases (hplace hr htable).symm.trans (hplace hr' htable')
    rfl

/-- A process and a page for it, which leaves one page of six. -/
def crowd : List KernelOp := [.create, .grantPage 0 0]

theorem crowd_orderly (hrun : Machine.run (step smallBoard)
      (boot (Usage.start (fun _ => 0) 0x80300000 6 [])) crowd = some k) :
    Orderly .free (Usage.start (fun _ => 0) 0x80300000 6 []).pageInRange k := by
  have hfits : Fits smallBoard 0x80300000 6 := by
    refine ⟨⟨?_, ?_, ?_⟩, ?_, ?_⟩ <;> decide
  have hgrants : ∀ op ∈ crowd, ¬ op.Grants := by
    simp [crowd, KernelOp.Grants]
  refine Machine.always_of_each (orderly_boot (hfits.sees _ _)) (fun k op k' hinv hstep hcond =>
    hinv.step hfits.uart_out hfits.uartSmall permits_free hcond hstep)
    (fun first op rest k k' hops _ _ => ?_) crowd [] k (List.append_nil _).symm hrun
  exact fun hgrant => absurd hgrant (hgrants op (by simp [hops]))

set_option maxRecDepth 100000 in
/-- Mapping the page fails when one of the two tables it needs is made. -/
theorem refusal_unaffected_crowd :
    ∃ k k', Machine.run (step smallBoard) (boot (Usage.start (fun _ => 0) 0x80300000 6 [])) crowd =
        some k ∧ k.Backed ∧ k.OneLevel ∧ k.refusal smallBoard (.memMap 0 0 0x50000000) = some k' ∧
      k'.mem.live.length = k.mem.live.length + 1 ∧ k.Unaffected k' := by
  have heval : (Machine.run (step smallBoard) (boot (Usage.start (fun _ => 0) 0x80300000 6 []))
      crowd).bind (fun k => (k.refusal smallBoard (.memMap 0 0 0x50000000)).map fun k' =>
        (k.mem.live.length, k'.mem.live.length)) = some (5, 6) := by
    decide +kernel
  obtain ⟨k, hrun, hk⟩ := Option.bind_eq_some_iff.mp heval
  obtain ⟨k', hcall, heq⟩ := Option.map_eq_some_iff.mp hk
  obtain ⟨hbefore, hafter⟩ := Prod.mk.inj heq
  obtain ⟨hbacked, hlevel⟩ := (crowd_orderly hrun).backed
  exact ⟨k, k', hrun, hbacked, hlevel, hcall, by omega, refusal_unaffected hbacked hlevel hcall⟩

/-- The root of a process is the root of an entry of the table. -/
theorem IsRoot.mem {root : Nat} (h : k.IsRoot root) : root ∈ k.table.slots.map Process.root := by
  obtain ⟨pid, hroot⟩ := h
  obtain ⟨p, hget, rfl⟩ := Option.map_eq_some_iff.mp hroot
  exact List.mem_map_of_mem (List.mem_of_getElem? (Option.filter_eq_some_iff.mp hget).1)

/-- The state in which the root of the process is its own level-0 table as well. -/
def loopRoot (k : State) : State :=
  k.withMem (pteWrite k.mem 0x80305000 5 (pte 0x80304000 pteV))

/-- The tables of that process, with their levels. -/
def loopTables : List (Nat × Nat) :=
  [(0x80304000, 0), (0x80300000, 1), (0x80305000, 1), (0x80301000, 2), (0x80304000, 2)]

/-- What evaluation finds in that state and after the call. -/
def Loops (k k' : State) : Prop :=
  Closed k.mem loopTables ∧ (∀ t ∈ loopTables, k.mem.IsLive t.1) ∧
    (∀ t ∈ loopTables, ∀ i < 512, ¬ User (pteRead k.mem t.1 i)) ∧
    k.table.slots.map Process.root = [0x80304000] ∧ k.table.pidRoot 0 = some 0x80304000 ∧
    leafPte k'.mem 0x80304000 0x80A01000 ≠ leafPte k.mem 0x80304000 0x80A01000

instance (k k' : State) : Decidable (Loops k k') := inferInstanceAs (Decidable (_ ∧ _))

set_option maxRecDepth 100000 in
/-- The root of a process is a level-0 table as well. The entry by which a call that fails leaves a
new table in the root is then a leaf. -/
theorem not_unaffected_loop :
    ∃ k k' : State, k.Backed ∧ k.refusal smallBoard (.memMap 0 0 0x50000000) = some k' ∧
      ¬ k.Unaffected k' := by
  have heval : (Machine.run (step smallBoard) (boot (Usage.start (fun _ => 0) 0x80300000 6 []))
      crowd).bind (fun k => (k.loopRoot.refusal smallBoard (.memMap 0 0 0x50000000)).map fun k' =>
        decide (Loops k.loopRoot k')) = some true := by
    decide +kernel
  obtain ⟨k, hrun, hk⟩ := Option.bind_eq_some_iff.mp heval
  obtain ⟨k', hcall, hloops⟩ := Option.map_eq_some_iff.mp hk
  obtain ⟨hclosed, hlive, huser, hroots, hroot, hleaf⟩ := of_decide_eq_true hloops
  obtain ⟨hbacked, -⟩ := (crowd_orderly hrun).backed
  have htaken : ∀ t ∈ loopTables, k.mem.Taken t.1 := by
    intro t ht
    obtain ⟨block, hblock, heq⟩ := hlive t ht
    exact ⟨block.idx, heq.symm, block, hblock, Blocks.Block.idx_mem _⟩
  have htable : ∀ {r path page}, k.loopRoot.IsRoot r → TableAt k.loopRoot.mem r path page →
      (page, path.length) ∈ loopTables := by
    intro r path page hr hat
    have hmem := hr.mem
    rw [hroots, List.mem_singleton] at hmem
    subst hmem
    exact hclosed.mem (by decide) hat
  refine ⟨k.loopRoot, k', ⟨?_, hbacked.small, ?_, ?_, hbacked.served⟩, hcall, fun h => ?_⟩
  · exact hbacked.sound.writeTaken (htaken (0x80305000, 1) (by decide)) (inPage_entry (by decide))
  · rintro page ⟨r, hr, path, hat⟩
    exact htaken _ (htable hr hat)
  · rintro pid va page ⟨root, hpid, hleafUser, -⟩ -
    rcases leafPte_entry k.loopRoot.mem root va with hzero | ⟨path, table, i, hat, hi, hentry⟩
    · rw [hzero] at hleafUser
      exact absurd hleafUser not_user_zero
    · rw [hentry] at hleafUser
      exact absurd hleafUser (huser _ (htable ⟨pid, hpid⟩ hat) i hi)
  · exact hleaf (h.leaves _ ⟨0, hroot⟩ _)

end State

end Ignium.Kernel
