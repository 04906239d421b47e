import Ignium.Kernel.Machine
import Ignium.Kernel.Slots

/-!
# What the calls do

One lemma for each call of the kernel: a completed call either leaves everything but the memory as
it was, or changes the process table and the registries in the listed way. `State.Sound` collects
what keeps ids apart, and every operation keeps it (`Sound.step`). `Revoked` says what revoking
shared pages does to the slots of all processes.
-/

namespace Ignium.Kernel.State

open Mem Mmu

variable {k k' k₁ : State} {b : Board} {id pid slot : Nat}

/-- The tables hand out ids of dead records only, and none outgrows its limit. -/
structure Sound (k : State) : Prop where
  table : k.table.Sound
  shm : Registry.Sound SharedPage.id k.shm
  shmLength : k.shm.slots.length ≤ maxShms
  pages : Registry.Sound PageRecord.id k.pages
  pagesLength : k.pages.slots.length ≤ maxPages

theorem sound_boot (mem : Usage) : (boot mem).Sound where
  table := ⟨Registry.sound_empty, Nat.zero_le _⟩
  shm := Registry.sound_empty
  shmLength := Nat.zero_le _
  pages := Registry.sound_empty
  pagesLength := Nat.zero_le _

theorem Sound.withMem (h : k.Sound) (m : Usage) : (k.withMem m).Sound :=
  ⟨h.table, h.shm, h.shmLength, h.pages, h.pagesLength⟩

theorem Sound.ne_noId_of_sharedPage {sp : SharedPage} (h : k.Sound)
    (hsp : k.sharedPage id = some sp) : noId ≠ id := by
  have hlt := Registry.lt_of_get hsp
  have hmax := h.shmLength
  unfold noId maxShms at *
  omega

theorem Sound.ne_noId_of_pageRecord {rec : PageRecord} (h : k.Sound)
    (hrec : k.pageRecord id = some rec) : noId ≠ id := by
  have hlt := Registry.lt_of_get hrec
  have hmax := h.pagesLength
  unfold noId maxPages at *
  omega

/-! ## Revoking shared pages -/

/-- The slot is recorded for one of the live shared pages among `ids`. -/
def Recorded (k : State) (ids : List Nat) (q s : Nat) : Prop :=
  ∃ id ∈ ids, ∃ sp, k.sharedPage id = some sp ∧ ((q, s) = sp.first ∨ (q, s) = sp.second)

/-- Going from `k` to `k'` revoked the shared pages `ids`: their records are dead and the slots
recorded for them are empty. -/
structure Revoked (k k' : State) (ids : List Nat) : Prop where
  sound : k'.Sound
  records : ∀ id, k'.sharedPage id = if id ∈ ids then none else k.sharedPage id
  roots : k'.table.pidRoot = k.table.pidRoot
  cleared : ∀ q s, k.Recorded ids q s → k'.table.capAt q s = none
  kept : ∀ q s, ¬ k.Recorded ids q s → k'.table.capAt q s = k.table.capAt q s
  pages : k'.pages = k.pages
  services : k'.services = k.services
  devices : k'.devices = k.devices

theorem Revoked.nil (h : k.Sound) : Revoked k k [] where
  sound := h
  records id := by simp
  roots := rfl
  cleared q s hrec := by
    obtain ⟨id, hid, -⟩ := hrec
    simp at hid
  kept q s hrec := rfl
  pages := rfl
  services := rfl
  devices := rfl

theorem Revoked.cons {ids : List Nat} (h₁ : Revoked k k₁ [id]) (h₂ : Revoked k₁ k' ids) :
    Revoked k k' (id :: ids) := by
  have hfirst : ∀ q s, k.Recorded [id] q s → k'.table.capAt q s = none := by
    intro q s hrec
    by_cases hrec₁ : k₁.Recorded ids q s
    · exact h₂.cleared q s hrec₁
    · rw [h₂.kept q s hrec₁, h₁.cleared q s hrec]
  refine ⟨h₂.sound, fun other => ?_, h₂.roots.trans h₁.roots, fun q s hrec => ?_,
    fun q s hrec => ?_, h₂.pages.trans h₁.pages, h₂.services.trans h₁.services,
    h₂.devices.trans h₁.devices⟩
  · rw [h₂.records, h₁.records]
    by_cases hother : other ∈ ids <;> by_cases hid : other = id <;> simp [hother, hid]
  · obtain ⟨other, hmem, sp, hsp, hslot⟩ := hrec
    by_cases hid : other = id
    · exact hfirst q s ⟨id, by simp, sp, by rw [← hid, hsp], hslot⟩
    · have hids : other ∈ ids := by simpa [hid] using hmem
      refine h₂.cleared q s ⟨other, hids, sp, ?_, hslot⟩
      rw [h₁.records, if_neg (by simpa using hid), hsp]
  · have hrec₁ : ¬ k₁.Recorded ids q s := by
      rintro ⟨other, hmem, sp, hsp, hslot⟩
      rw [h₁.records] at hsp
      split at hsp
      · cases hsp
      · exact hrec ⟨other, by simp [hmem], sp, hsp, hslot⟩
    have hrec₀ : ¬ k.Recorded [id] q s := by
      rintro ⟨other, hmem, sp, hsp, hslot⟩
      exact hrec ⟨other, by simp [List.mem_singleton.mp hmem], sp, hsp, hslot⟩
    rw [h₂.kept q s hrec₁, h₁.kept q s hrec₀]

theorem shmRelease_eq {owner : Nat × Nat} (h : k.shmRelease owner = some k') :
    ∃ m, k' = { k with mem := m, table := (k.table.clearCap owner.1 owner.2).2 } := by
  obtain ⟨m, -, rfl⟩ := Option.map_eq_some_iff.mp h
  exact ⟨m, rfl⟩

/-- Revoking one shared page, whether or not its page could be released. -/
theorem revoked_shmRevoke {r : Except Unit Unit} (hk : k.Sound)
    (h : k.shmRevoke id = some (r, k')) : Revoked k k' [id] := by
  unfold shmRevoke at h
  rcases hsp : k.sharedPage id with _ | sp
  · rw [hsp] at h
    cases h
    refine ⟨hk, fun other => ?_, rfl, fun q s hrec => ?_, fun q s hrec => rfl, rfl, rfl, rfl⟩
    · by_cases hid : other = id <;> simp [hid, hsp]
    · obtain ⟨other, hmem, sp, hsp', -⟩ := hrec
      rw [List.mem_singleton.mp hmem, hsp] at hsp'
      cases hsp'
  · simp only [hsp, Option.bind_eq_some_iff, Option.map_eq_some_iff] at h
    obtain ⟨k₁, h₁, k₂, h₂, ⟨r', m⟩, -, ⟨⟩⟩ := h
    obtain ⟨m₁, rfl⟩ := shmRelease_eq h₁
    obtain ⟨m₂, rfl⟩ := shmRelease_eq h₂
    have hid := hk.ne_noId_of_sharedPage hsp
    have hw₁ := ProcessTable.writes_clearCap k.table sp.first.1 sp.first.2
    have hw₂ := ProcessTable.writes_clearCap (k.table.clearCap sp.first.1 sp.first.2).2
      sp.second.1 sp.second.2
    have hrecorded : ∀ q s, k.Recorded [id] q s ↔ (q, s) = sp.first ∨ (q, s) = sp.second := by
      intro q s
      constructor
      · rintro ⟨other, hmem, sp', hsp', hslot⟩
        rw [List.mem_singleton.mp hmem, hsp] at hsp'
        cases hsp'
        exact hslot
      · intro hslot
        exact ⟨id, by simp, sp, hsp, hslot⟩
    refine ⟨⟨hw₂.sound (hw₁.sound hk.table), ?_, ?_, hk.pages, hk.pagesLength⟩, fun other => ?_,
      hw₂.roots.trans hw₁.roots, fun q s hrec => ?_, fun q s hrec => ?_, rfl, rfl, rfl⟩
    · refine hk.shm.retire ?_ hid
      rw [show k.shm.get SharedPage.id id = some sp from hsp]
      rfl
    · simpa [withMem, Registry.retire] using hk.shmLength
    · by_cases hother : other = id
      · rw [if_pos (by simpa using hother), hother]
        exact Registry.get_retire_self hid
      · rw [if_neg (by simpa using hother)]
        exact Registry.get_retire_of_ne hother
    · rw [hrecorded, Prod.ext_iff, Prod.ext_iff] at hrec
      refine (hw₂.caps q s).trans ?_
      split
      · rfl
      · next hsecond => exact (hw₁.caps q s).trans (if_pos (hrec.resolve_right hsecond))
    · rw [hrecorded, Prod.ext_iff, Prod.ext_iff, not_or] at hrec
      refine (hw₂.caps q s).trans ?_
      rw [if_neg hrec.2]
      exact (hw₁.caps q s).trans (if_neg hrec.1)

/-- Revoking shared pages one after the other. -/
theorem revoked_foldlM {ids : List Nat} (hk : k.Sound)
    (h : ids.foldlM (fun (k : State) id => (k.shmRevoke id).discard) k = some k') :
    Revoked k k' ids := by
  induction ids generalizing k with
  | nil =>
    cases h
    exact Revoked.nil hk
  | cons id ids ih =>
    simp only [List.foldlM_cons, bind, Option.bind_eq_some_iff] at h
    obtain ⟨k₁, hfirst, hrest⟩ := h
    obtain ⟨r, hrevoke⟩ := Outcome.discard_eq_some hfirst
    have hone := revoked_shmRevoke hk hrevoke
    exact hone.cons (ih hone.sound hrest)

/-! ## Revoking pages -/

/-- A page is revoked unless its record is dead. -/
theorem pagesRevoke_cases {r : Except Unit Unit} (h : k.pagesRevoke id = some (r, k')) :
    (k.pageRecord id = none ∧ k' = k ∧ r = .error ()) ∨
    ∃ rec m m', k.pageRecord id = some rec ∧ k.unmapFrom rec.owner rec.mapVa = some m ∧
      m.freePages rec.paddr = some (r, m') ∧
      k' = { k with
        mem := m'
        pages := k.pages.retire id { rec with id := noId, mapVa := none } } := by
  unfold pagesRevoke at h
  rcases hrec : k.pageRecord id with _ | rec
  · rw [hrec] at h
    cases h
    exact .inl ⟨rfl, rfl, rfl⟩
  · simp only [hrec, Option.bind_eq_some_iff, Option.map_eq_some_iff] at h
    obtain ⟨m, hm, ⟨r', m'⟩, hfree, ⟨⟩⟩ := h
    exact .inr ⟨rec, m, m', rfl, hm, hfree, rfl⟩

/-- Going from `k` to `k'` revoked the pages `ids`. Their capabilities stay. -/
structure PagesRevoked (k k' : State) (ids : List Nat) : Prop where
  sound : k'.Sound
  records : ∀ id, k'.pageRecord id = if id ∈ ids then none else k.pageRecord id
  table : k'.table = k.table
  shm : k'.shm = k.shm
  services : k'.services = k.services
  devices : k'.devices = k.devices

theorem pagesRevoked_pagesRevoke {r : Except Unit Unit} (hk : k.Sound)
    (h : k.pagesRevoke id = some (r, k')) : PagesRevoked k k' [id] := by
  obtain ⟨hdead, rfl, -⟩ | ⟨rec, m, m', hrec, -, -, rfl⟩ := pagesRevoke_cases h
  · refine ⟨hk, fun other => ?_, rfl, rfl, rfl, rfl⟩
    by_cases hid : other = id <;> simp [hid, hdead]
  · have hid := hk.ne_noId_of_pageRecord hrec
    refine ⟨⟨hk.table, hk.shm, hk.shmLength, ?_, ?_⟩, fun other => ?_, rfl, rfl, rfl, rfl⟩
    · refine hk.pages.retire ?_ hid
      rw [show k.pages.get PageRecord.id id = some rec from hrec]
      rfl
    · simpa [Registry.retire] using hk.pagesLength
    · by_cases hother : other = id
      · rw [if_pos (by simpa using hother), hother]
        exact Registry.get_retire_self hid
      · rw [if_neg (by simpa using hother)]
        exact Registry.get_retire_of_ne hother

/-- Revoking pages one after the other. -/
theorem pagesRevoked_foldlM {ids : List Nat} (hk : k.Sound)
    (h : ids.foldlM (fun (k : State) id => (k.pagesRevoke id).discard) k = some k') :
    PagesRevoked k k' ids := by
  induction ids generalizing k with
  | nil =>
    cases h
    exact ⟨hk, fun id => by simp, rfl, rfl, rfl, rfl⟩
  | cons id ids ih =>
    simp only [List.foldlM_cons, bind, Option.bind_eq_some_iff] at h
    obtain ⟨k₁, hfirst, hrest⟩ := h
    obtain ⟨r, hrevoke⟩ := Outcome.discard_eq_some hfirst
    have h₁ := pagesRevoked_pagesRevoke hk hrevoke
    have h₂ := ih h₁.sound hrest
    refine ⟨h₂.sound, fun other => ?_, h₂.table.trans h₁.table, h₂.shm.trans h₁.shm,
      h₂.services.trans h₁.services, h₂.devices.trans h₁.devices⟩
    rw [h₂.records, h₁.records]
    by_cases hother : other ∈ ids <;> by_cases hid : other = id <;> simp [hother, hid]

/-! ## Creating and destroying processes -/

/-- Only the memory can change when `create` fails. -/
theorem create_cases {r : Except Unit Nat} (h : k.create b = some (r, k')) :
    (∃ m, k' = k.withMem m ∧ r = .error () ∧
      (m = k.mem ∨ createUserRoot b k.mem = some (.error (), m))) ∨
    ∃ root m, createUserRoot b k.mem = some (.ok root, m) ∧ k.table.liveCount < maxProcesses ∧
      r = .ok (k.table.enter root).1 ∧
      k' = { k with mem := m, table := (k.table.enter root).2 } := by
  unfold create at h
  split at h
  · cases h
    exact .inl ⟨k.mem, rfl, rfl, .inl rfl⟩
  · next hlive =>
    rcases hroot : createUserRoot b k.mem with _ | ⟨_ | root, m⟩
    · rw [hroot] at h
      cases h
    · rw [hroot] at h
      cases h
      exact .inl ⟨m, rfl, rfl, .inr rfl⟩
    · rw [hroot] at h
      cases h
      exact .inr ⟨root, m, rfl, Nat.lt_of_not_ge hlive, rfl, rfl⟩

/-- The shared page that a slot names. -/
def shmName : Option Cap → Option Nat
  | some (.shm id) => some id
  | _ => none

/-- The page that a slot names. -/
def pageName : Option Cap → Option Nat
  | some (.page id) => some id
  | _ => none

/-- The ids that the capabilities of a process name. -/
theorem mem_slots {p : Process} {id : Nat} (name : Option Cap → Option Nat)
    (hname : name none = none) (hp : k.table.get pid = some p) :
    id ∈ (List.finRange maxCaps).filterMap (fun slot => name (p.caps slot)) ↔
      ∃ slot, name (k.table.capAt pid slot) = some id := by
  rw [List.mem_filterMap]
  constructor
  · rintro ⟨slot, -, hslot⟩
    refine ⟨slot, ?_⟩
    rwa [ProcessTable.capAt_of_get hp slot.isLt]
  · rintro ⟨slot, hslot⟩
    rcases hcap : k.table.capAt pid slot with _ | cap
    · rw [hcap, hname] at hslot
      cases hslot
    · have hlt := ProcessTable.slot_lt_of_capAt hcap
      rw [ProcessTable.capAt_of_get hp hlt] at hslot
      exact ⟨⟨slot, hlt⟩, List.mem_finRange _, hslot⟩

theorem mem_shmIds {p : Process} {id : Nat} (hp : k.table.get pid = some p) :
    id ∈ shmIds p ↔ ∃ slot, k.table.capAt pid slot = some (.shm id) := by
  refine (mem_slots shmName rfl hp).trans (exists_congr fun slot => ?_)
  rcases k.table.capAt pid slot with _ | (q | id' | id') <;> simp [shmName]

theorem mem_pageIds {p : Process} {id : Nat} (hp : k.table.get pid = some p) :
    id ∈ pageIds p ↔ ∃ slot, k.table.capAt pid slot = some (.page id) := by
  refine (mem_slots pageName rfl hp).trans (exists_congr fun slot => ?_)
  rcases k.table.capAt pid slot with _ | (q | id' | id') <;> simp [pageName]

/-- Destroying a live process revokes the shared pages and the pages in its slots and then takes
it out of the table. -/
theorem destroy_cases (hk : k.Sound) (h : k.destroy pid = some k') :
    (k.table.get pid = none ∧ k' = k) ∨
    ∃ p k₁ k₂ root table m, k.table.get pid = some p ∧
      (shmIds p).foldlM (fun (k : State) id => (k.shmRevoke id).discard) k = some k₁ ∧
      (pageIds p).foldlM (fun (k : State) id => (k.pagesRevoke id).discard) k₁ = some k₂ ∧
      Revoked k k₁ (shmIds p) ∧ PagesRevoked k₁ k₂ (pageIds p) ∧
      k₂.table.retire pid = some (root, table) ∧ destroyRoot k₂.mem root = some m ∧
      k' = (({ k₂ with table := table }.releaseAll pid).unregisterAll pid).withMem m := by
  unfold destroy revokeAll at h
  rcases hget : k.table.get pid with _ | p
  · rw [hget] at h
    cases h
    exact .inl ⟨rfl, rfl⟩
  · simp only [hget, Option.bind_eq_some_iff] at h
    obtain ⟨k₂, ⟨k₁, hshm, hpages⟩, hlast⟩ := h
    have h₁ := revoked_foldlM hk hshm
    have h₂ := pagesRevoked_foldlM h₁.sound hpages
    rcases hretire : k₂.table.retire pid with _ | ⟨root, table⟩
    · -- The process is still in the table, since revoking takes none out.
      have hdead : k₂.table.pidRoot pid = none := by
        rw [ProcessTable.pidRoot_eq_none]
        exact Option.map_eq_none_iff.mp hretire
      rw [h₂.table, h₁.roots, ProcessTable.pidRoot_eq_none, hget] at hdead
      cases hdead
    · simp only [hretire] at hlast
      obtain ⟨m, hm, rfl⟩ := Option.map_eq_some_iff.mp hlast
      exact .inr ⟨p, k₁, k₂, root, table, m, rfl, hshm, hpages, h₁, h₂, hretire, hm, rfl⟩

/-! ## System calls on capabilities -/

/-- Giving up a capability revokes what it stands for. -/
theorem capRevoke_cases {r : Except CapError Unit} (h : k.capRevoke pid slot = some (r, k')) :
    (k.table.capAt pid slot = none ∧ k' = k) ∨
    (∃ id r', k.table.capAt pid slot = some (.shm id) ∧ k.shmRevoke id = some (r', k')) ∨
    (∃ q, k.table.capAt pid slot = some (.proc q) ∧
      k' = { k with table := (k.table.clearCap pid slot).2 }) ∨
    ∃ id r' k₁, k.table.capAt pid slot = some (.page id) ∧ k.pagesRevoke id = some (r', k₁) ∧
      ((r' = .error () ∧ k' = k₁) ∨
        (r' = .ok () ∧ k' = { k₁ with table := (k₁.table.clearCap pid slot).2 })) := by
  unfold capRevoke at h
  split at h
  · next hslot =>
    cases h
    exact .inl ⟨by rw [ProcessTable.capAt, dif_neg (Nat.not_lt.mpr hslot)], rfl⟩
  · rcases hcap : k.table.capTarget pid slot with e | (q | id | id)
    · rw [hcap] at h
      cases h
      exact .inl ⟨ProcessTable.capAt_of_capTarget_error hcap, rfl⟩
    · rw [hcap] at h
      cases h
      exact .inr (.inr (.inl ⟨q, ProcessTable.capTarget_eq_ok.mp hcap, rfl⟩))
    · rw [hcap] at h
      refine .inr (.inl ⟨id, ?_⟩)
      rcases hrevoke : k.shmRevoke id with _ | ⟨_ | _, k₁⟩
      · simp [hrevoke] at h
      · simp only [hrevoke] at h
        cases h
        exact ⟨_, ProcessTable.capTarget_eq_ok.mp hcap, rfl⟩
      · simp only [hrevoke] at h
        cases h
        exact ⟨_, ProcessTable.capTarget_eq_ok.mp hcap, rfl⟩
    · rw [hcap] at h
      refine .inr (.inr (.inr ⟨id, ?_⟩))
      rcases hrevoke : k.pagesRevoke id with _ | ⟨_ | _, k₁⟩
      · simp [hrevoke] at h
      · simp only [hrevoke] at h
        cases h
        exact ⟨_, _, ProcessTable.capTarget_eq_ok.mp hcap, rfl, .inl ⟨rfl, rfl⟩⟩
      · simp only [hrevoke] at h
        cases h
        exact ⟨_, _, ProcessTable.capTarget_eq_ok.mp hcap, rfl, .inr ⟨rfl, rfl⟩⟩

/-- A full registry takes no shared page. -/
theorem mapShared_not_full {m m' : Usage} {rootA rootB paddr : Nat} {full : Bool}
    (h : mapShared m rootA rootB full = some (.ok paddr, m')) : full = false := by
  unfold mapShared at h
  cases full with
  | false => rfl
  | true =>
    exfalso
    split at h
    · cases h
    · cases h
    · split at h
      · cases h
      · obtain ⟨-, ⟨⟩⟩ := Outcome.failAfter_eq_some h
      · split at h
        · cases h
        · obtain ⟨-, ⟨⟩⟩ := Outcome.failAfter_eq_some h
        · rw [if_pos rfl] at h
          obtain ⟨-, ⟨⟩⟩ := Outcome.failAfter_eq_some h

/-- A call that returns at once is one that changes at most the memory. -/
theorem refused {ε α : Type} {r r' : Except ε α} {P : Usage → Prop}
    (h : some (r', k) = some (r, k')) : ∃ m, k' = k.withMem m ∧ (m = k.mem ∨ P m) := by
  cases h
  exact ⟨k.mem, rfl, .inl rfl⟩

theorem refused_error {ε α : Type} {r : Except ε α} {e : ε} {P : Usage → Prop}
    (h : some (.error e, k) = some (r, k')) :
    ∃ m, k' = k.withMem m ∧ (m = k.mem ∨ P m) ∧ ∃ e, r = .error e := by
  cases h
  exact ⟨k.mem, rfl, .inl rfl, e, rfl⟩

/-- Where both processes are alive and both slots exist, neither grant of a shared page fails. -/
theorem grantShmCap_both (id : Nat) {t : ProcessTable} {caller peer aSlot bSlot rootA rootB : Nat}
    (hcaller : t.pidRoot caller = some rootA) (hpeer : t.pidRoot peer = some rootB)
    (haSlot : aSlot < maxCaps) (hbSlot : bSlot < maxCaps) :
    ∃ t₁ t₂, t.grantShmCap caller aSlot id = (.ok (), t₁) ∧
      t₁.grantShmCap peer bSlot id = (.ok (), t₂) ∧
      t.Writes t₁ caller aSlot (some (.shm id)) ∧ t₁.Writes t₂ peer bSlot (some (.shm id)) := by
  unfold ProcessTable.grantShmCap
  obtain ⟨e, -, hdead | hout⟩ | ⟨t₁, ht₁, -, hw₁⟩ := t.grantTypedCap_cases caller aSlot (.shm id)
  · rw [hcaller] at hdead
    cases hdead
  · exact absurd haSlot (Nat.not_lt.mpr hout)
  obtain ⟨e, -, hdead | hout⟩ | ⟨t₂, ht₂, -, hw₂⟩ := t₁.grantTypedCap_cases peer bSlot (.shm id)
  · rw [hw₁.roots, hpeer] at hdead
    cases hdead
  · exact absurd hbSlot (Nat.not_lt.mpr hout)
  exact ⟨t₁, t₂, ht₁, ht₂, hw₁, hw₂⟩

/-- Sharing a page only changes the memory when it fails. Otherwise it enters a record and writes
the two slots that the record names. -/
theorem mmapShare_cases {caller aSlot bSlot len : Nat} {r : Except Nat Nat}
    (h : k.mmapShare caller aSlot bSlot len = some (r, k')) :
    (∃ m, k' = k.withMem m ∧ (m = k.mem ∨ ∃ peer rootA rootB full e,
      k.table.pidRoot peer = some rootB ∧ k.table.pidRoot caller = some rootA ∧
      mapShared k.mem rootA rootB full = some (.error e, m)) ∧ ∃ e, r = .error e) ∨
    ∃ peer rootA rootB paddr m id shm t₁ t₂,
      k.table.capAt caller aSlot = some (.proc peer) ∧ bSlot < maxCaps ∧
      k.table.pidRoot peer = some rootB ∧ k.table.pidRoot caller = some rootA ∧
      k.shm.slots.length < maxShms ∧ mapShared k.mem rootA rootB false = some (.ok paddr, m) ∧
      k.shm.enter (fun id => ⟨id, paddr, (caller, aSlot), (peer, bSlot)⟩) = (id, shm) ∧
      k.table.Writes t₁ caller aSlot (some (.shm id)) ∧ t₁.Writes t₂ peer bSlot (some (.shm id)) ∧
      r = .ok id ∧ k' = { k with mem := m, shm := shm, table := t₂ } := by
  unfold mmapShare at h
  split at h
  · exact .inl (refused_error h)
  rcases hcap : k.table.capTarget caller aSlot with e | (peer | id | id)
  · exact .inl (refused_error (by simpa only [hcap] using h))
  · simp only [hcap] at h
    split at h
    · exact .inl (refused_error h)
    next hslot =>
    rcases hpeer : k.table.pidRoot peer with _ | rootB
    · exact .inl (refused_error (by simpa only [hpeer] using h))
    rcases hcaller : k.table.pidRoot caller with _ | rootA
    · exact .inl (refused_error (by simpa only [hpeer, hcaller] using h))
    simp only [hpeer, hcaller] at h
    rcases hmap : mapShared k.mem rootA rootB (decide (k.shm.slots.length ≥ maxShms)) with
      _ | ⟨e | paddr, m⟩
    · simp [hmap] at h
    · simp only [hmap] at h
      cases h
      exact .inl ⟨m, rfl, .inr ⟨peer, rootA, rootB, _, e, hpeer, rfl, hmap⟩, e, rfl⟩
    · have hfull := mapShared_not_full hmap
      have hcapAt := ProcessTable.capTarget_eq_ok.mp hcap
      simp only [hmap] at h
      rw [hfull] at hmap
      rcases henter : k.shm.enter (fun id => ⟨id, paddr, (caller, aSlot), (peer, bSlot)⟩) with
        ⟨id, shm⟩
      obtain ⟨t₁, t₂, ht₁, ht₂, hw₁, hw₂⟩ := grantShmCap_both id hcaller hpeer
        (ProcessTable.slot_lt_of_capAt hcapAt) (Nat.lt_of_not_ge hslot)
      simp only [henter, ht₁, ht₂] at h
      cases h
      exact .inr ⟨peer, rootA, rootB, paddr, m, id, shm, t₁, t₂, hcapAt, Nat.lt_of_not_ge hslot,
        hpeer, rfl, by simpa using hfull, hmap, henter, hw₁, hw₂, rfl, rfl⟩
  · exact .inl (refused_error (by simpa only [hcap] using h))
  · exact .inl (refused_error (by simpa only [hcap] using h))

/-- A page is handed over unless its record is dead. -/
theorem pagesGrant_cases {toPid : Nat} {r : Except Unit Unit}
    (h : k.pagesGrant id toPid = some (r, k')) :
    (k' = k ∧ r = .error ()) ∨
    ∃ rec m, k.pageRecord id = some rec ∧ k.unmapFrom rec.owner rec.mapVa = some m ∧ r = .ok () ∧
      k' = { k with
        mem := m
        pages := k.pages.put id { rec with owner := toPid, mapVa := none } } := by
  unfold pagesGrant at h
  rcases hrec : k.pageRecord id with _ | rec
  · rw [hrec] at h
    cases h
    exact .inl ⟨rfl, rfl⟩
  · simp only [hrec, Option.map_eq_some_iff] at h
    obtain ⟨m, hm, ⟨⟩⟩ := h
    exact .inr ⟨rec, m, rfl, hm, rfl, rfl⟩

/-- A page capability moves when the record is live, the receiver is alive and its slot empty. -/
theorem memGrant_cases {caller srcSlot peerSlot dstSlot : Nat} {r : Except Nat Unit}
    (h : k.memGrant caller srcSlot peerSlot dstSlot = some (r, k')) :
    (k' = k ∧ r ≠ .ok ()) ∨
    ∃ id peer rec m t₁, k.table.capAt caller srcSlot = some (.page id) ∧
      k.table.capAt caller peerSlot = some (.proc peer) ∧ k.table.pidRoot peer ≠ none ∧
      dstSlot < maxCaps ∧ k.table.capAt peer dstSlot = none ∧ k.pageRecord id = some rec ∧
      k.unmapFrom rec.owner rec.mapVa = some m ∧
      k.table.Writes t₁ peer dstSlot (some (.page id)) ∧ r = .ok () ∧
      k' = { k with
        mem := m
        pages := k.pages.put id { rec with owner := peer, mapVa := none }
        table := (t₁.clearCap caller srcSlot).2 } := by
  have hsame : ∀ e, some (.error e, k) = some (r, k') → k' = k ∧ r ≠ .ok () := by
    intro e heq
    cases heq
    exact ⟨rfl, by simp⟩
  unfold memGrant at h
  rcases hsrc : k.table.capTarget caller srcSlot with e | (q | q | id)
  · exact .inl (hsame _ (by simpa only [hsrc] using h))
  · exact .inl (hsame _ (by simpa only [hsrc] using h))
  · exact .inl (hsame _ (by simpa only [hsrc] using h))
  simp only [hsrc] at h
  rcases hpeer : k.table.capTarget caller peerSlot with e | (peer | q | q)
  · exact .inl (hsame _ (by simpa only [hpeer] using h))
  · simp only [hpeer] at h
    split at h
    · exact .inl (hsame _ h)
    next hlive =>
    split at h
    · exact .inl (hsame _ h)
    next hslot =>
    split at h
    · exact .inl (hsame _ h)
    · exact .inl (hsame _ h)
    next hdst =>
    split at h
    · cases h
    · next k₁ hgrant =>
      obtain ⟨rfl, -⟩ | ⟨_, _, _, _, heq, _⟩ := pagesGrant_cases hgrant
      · exact .inl (hsame _ h)
      · cases heq
    · next k₁ hgrant =>
      obtain ⟨-, heq⟩ | ⟨rec, m, hrec, hm, -, rfl⟩ := pagesGrant_cases hgrant
      · cases heq
      -- The receiver is alive and the slot exists, so the grant does not fail.
      obtain ⟨e, -, hdead | hout⟩ | ⟨t₁, ht₁, -, hw₁⟩ :=
        ProcessTable.grantTypedCap_cases k.table peer dstSlot (.page id)
      · exact absurd hdead hlive
      · exact absurd hout hslot
      simp only [ht₁] at h
      cases h
      exact .inr ⟨id, peer, rec, m, t₁, ProcessTable.capTarget_eq_ok.mp hsrc,
        ProcessTable.capTarget_eq_ok.mp hpeer, hlive, Nat.lt_of_not_ge hslot,
        ProcessTable.capAt_of_capTarget_error hdst, hrec, hm, hw₁, rfl, rfl⟩
  · exact .inl (hsame _ (by simpa only [hpeer] using h))
  · exact .inl (hsame _ (by simpa only [hpeer] using h))

/-- Mapping a page only changes the memory when it fails. Otherwise the record notes where. -/
theorem memMap_cases {caller va : Nat} {r : Except Nat Unit}
    (h : k.memMap caller slot va = some (r, k')) :
    (∃ m, k' = k.withMem m ∧ (m = k.mem ∨ ∃ root paddr, k.table.pidRoot caller = some root ∧
      mapUserPage k.mem root va paddr mapFlags = some (.error (), m))) ∨
    ∃ id rec root m, va % pageSize = 0 ∧ va < userVaLimit ∧
      k.table.capAt caller slot = some (.page id) ∧ k.pageRecord id = some rec ∧
      rec.mapVa = none ∧ k.table.pidRoot caller = some root ∧
      mapUserPage k.mem root va rec.paddr mapFlags = some (.ok (), m) ∧ r = .ok () ∧
      k' = { k with mem := m, pages := k.pages.put id { rec with mapVa := some va } } := by
  unfold memMap at h
  split at h
  · exact .inl (refused h)
  next hva =>
  rw [not_or, not_not, Nat.not_le] at hva
  rcases hcap : k.table.capTarget caller slot with e | (q | q | id)
  · exact .inl (refused (by simpa only [hcap] using h))
  · exact .inl (refused (by simpa only [hcap] using h))
  · exact .inl (refused (by simpa only [hcap] using h))
  simp only [hcap] at h
  split at h
  · exact .inl (refused h)
  next hunmapped =>
  rcases hrec : k.pageRecord id with _ | rec
  · exact .inl (refused (by simpa only [hrec] using h))
  have hmapVa : rec.mapVa = none := by simpa [pageIsMapped, hrec] using hunmapped
  rcases hroot : k.table.pidRoot caller with _ | root
  · exact .inl (refused (by simpa only [hrec, hroot] using h))
  simp only [hrec, hroot] at h
  rcases hmap : mapUserPage k.mem root va rec.paddr mapFlags with _ | ⟨_ | _, m⟩
  · simp [hmap] at h
  · simp only [hmap] at h
    cases h
    exact .inl ⟨m, rfl, .inr ⟨root, rec.paddr, rfl, hmap⟩⟩
  · have hrec' : (k.withMem m).pageRecord id = some rec := hrec
    simp only [hmap, pagesMap, hrec', hmapVa, Option.isSome_none, Bool.false_eq_true,
      if_false] at h
    cases h
    exact .inr ⟨id, rec, root, m, hva.1, hva.2, ProcessTable.capTarget_eq_ok.mp hcap, hrec,
      hmapVa, rfl, hmap, rfl, rfl⟩

/-- Connecting to a service writes both slots. A service whose process is gone costs the caller
the contents of its slot. -/
theorem connect_cases (k : State) (caller id clientSlot serverSlot : Nat) :
    (∃ e, k.connect caller id clientSlot serverSlot = (.error e, k)) ∨
    (∃ server t e, k.lookup id = some server ∧ k.table.pidRoot server = none ∧
      k.table.Writes t caller clientSlot none ∧
      k.connect caller id clientSlot serverSlot = (.error e, { k with table := t })) ∨
    ∃ server t₁ t₂, k.lookup id = some server ∧ server ≠ caller ∧ clientSlot < maxCaps ∧
      serverSlot < maxCaps ∧ k.table.Writes t₁ caller clientSlot (some (.proc server)) ∧
      t₁.Writes t₂ server serverSlot (some (.proc caller)) ∧
      k.connect caller id clientSlot serverSlot = (.ok (), { k with table := t₂ }) := by
  unfold connect
  rcases k.lookup id with _ | server
  · exact .inl ⟨_, rfl⟩
  dsimp only
  by_cases hself : server = caller
  · exact .inl ⟨_, by rw [if_pos hself]⟩
  rw [if_neg hself]
  by_cases hslots : clientSlot ≥ maxCaps ∨ serverSlot ≥ maxCaps
  · exact .inl ⟨_, by rw [if_pos hslots]⟩
  rw [if_neg hslots]
  rw [not_or, Nat.not_le, Nat.not_le] at hslots
  unfold ProcessTable.grantCap
  obtain ⟨e, ht₁, -⟩ | ⟨t₁, ht₁, -, hw₁⟩ :=
    ProcessTable.grantTypedCap_cases k.table caller clientSlot (.proc server)
  · exact .inl ⟨_, by rw [ht₁]⟩
  rw [ht₁]
  dsimp only
  obtain ⟨e, ht₂, hdead | hout⟩ | ⟨t₂, ht₂, -, hw₂⟩ :=
    ProcessTable.grantTypedCap_cases t₁ server serverSlot (.proc caller)
  · refine .inr (.inl ⟨server, _, _, rfl, ?_, hw₁.again (t₁.writes_clearCap _ _), by rw [ht₂]⟩)
    rw [← hw₁.roots, hdead]
  · exact absurd hslots.2 (Nat.not_lt.mpr hout)
  · exact .inr (.inr ⟨server, t₁, t₂, rfl, hself, hslots.1, hslots.2, hw₁, hw₂, by rw [ht₂]⟩)

/-! ## Devices and pages handed out at boot -/

/-- A device is claimed by the first process that maps it. -/
theorem deviceMap_cases {caller devId va : Nat} {r : Except Nat Unit}
    (h : k.deviceMap b caller devId va = some (r, k')) :
    (∃ m, k' = k.withMem m ∧ (m = k.mem ∨ ∃ root, k.table.pidRoot caller = some root ∧
      mapDevicePage k.mem root va b.uartBase mapFlags = some (.error (), m))) ∨
    ∃ root m, va < userVaLimit ∧ va % 4096 = 0 ∧ k.table.pidRoot caller = some root ∧
      k.devices ⟨0, by decide⟩ = none ∧
      mapDevicePage k.mem root va b.uartBase mapFlags = some (.ok (), m) ∧ r = .ok () ∧
      k' = { k with
        mem := m
        devices := Function.update k.devices ⟨0, by decide⟩ (some (caller, va)) } := by
  unfold deviceMap at h
  by_cases hdev : devId = 0
  · subst hdev
    rw [dif_pos rfl] at h
    dsimp only at h
    split at h
    · exact .inl (refused h)
    next hva =>
    simp only [not_or, not_not, Nat.not_le] at hva
    rcases hroot : k.table.pidRoot caller with _ | root
    · exact .inl (refused (by simpa only [hroot] using h))
    simp only [hroot] at h
    rcases hclaim : k.devices ⟨0, by decide⟩ with _ | ⟨owner, ownerVa⟩
    · simp only [hclaim] at h
      rcases hmap : mapDevicePage k.mem root va b.uartBase mapFlags with _ | ⟨_ | _, m⟩
      · simp [hmap] at h
      · simp only [hmap] at h
        cases h
        exact .inl ⟨m, rfl, .inr ⟨root, rfl, hmap⟩⟩
      · simp only [hmap] at h
        cases h
        exact .inr ⟨root, m, hva.1, hva.2.1, rfl, rfl, hmap, rfl, rfl⟩
    · simp only [hclaim] at h
      split at h
      · exact .inl (refused h)
      · split at h
        · exact .inl (refused h)
        · exact .inl (refused h)
  · rw [dif_neg hdev] at h
    exact .inl (refused h)

/-- Boot code fills an empty slot of a live process with a page, if there is one. -/
theorem grantPage_cases (h : k.grantPage pid slot = some k') :
    (∃ m, k' = k.withMem m ∧ (m = k.mem ∨ k.mem.allocPages 0 = some (none, m) ∨
      ∃ paddr m₁, k.mem.allocPages 0 = some (some paddr, m₁) ∧
        (m₁.freePages paddr).discard = some m)) ∨
    ∃ paddr m id pages t, k.table.capAt pid slot = none ∧ k.table.pidRoot pid ≠ none ∧
      k.mem.allocPages 0 = some (some paddr, m) ∧ k.pages.slots.length < maxPages ∧
      k.pages.enter (fun id => ⟨id, paddr, pid, none⟩) = (id, pages) ∧
      k.table.Writes t pid slot (some (.page id)) ∧
      k' = { k with mem := m, pages := pages, table := t } := by
  unfold grantPage at h
  split at h
  · next hempty =>
    obtain ⟨hslot, hlive, hnone⟩ := hempty
    obtain ⟨⟨r, k₁⟩, halloc, heq⟩ := Option.map_eq_some_iff.mp h
    unfold pagesAlloc at halloc
    rcases hmem : k.mem.allocPages 0 with _ | ⟨_ | paddr, m⟩
    · simp [hmem] at halloc
    · simp only [hmem] at halloc
      cases halloc
      cases heq
      exact .inl ⟨m, rfl, .inr (.inl rfl)⟩
    simp only [hmem] at halloc
    split at halloc
    · obtain ⟨hfree, rfl⟩ := Outcome.failAfter_eq_some halloc
      obtain ⟨m', hm', rfl⟩ := Option.map_eq_some_iff.mp hfree
      cases heq
      exact .inl ⟨m', rfl, .inr (.inr ⟨paddr, m, rfl, hm'⟩)⟩
    next hroom =>
    rcases henter : k.pages.enter (fun id => ⟨id, paddr, pid, none⟩) with ⟨id, pages⟩
    simp only [henter] at halloc
    cases halloc
    obtain ⟨p, hp⟩ := Option.isSome_iff_exists.mp hlive
    have hroot : k.table.pidRoot pid ≠ none := by
      rw [ne_eq, ProcessTable.pidRoot_eq_none, hp]
      simp
    obtain ⟨e, -, hdead | hout⟩ | ⟨t, ht, -, hw⟩ :=
      ProcessTable.grantTypedCap_cases k.table pid slot (.page id)
    · exact absurd hdead hroot
    · exact absurd hslot (Nat.not_lt.mpr hout)
    simp only [ht] at heq
    exact .inr ⟨paddr, m, id, pages, t, ProcessTable.capAt_of_capTarget_error hnone, hroot, rfl,
      Nat.lt_of_not_ge hroom, henter, hw, heq.symm⟩
  · cases h
    exact .inl ⟨k.mem, rfl, .inl rfl⟩

theorem load_eq {info : ElfInfo} {args : List (List UInt8)} {r : Except ElfError LoadedElf}
    (h : k.load pid info args = some (r, k')) : ∃ m, k' = k.withMem m := by
  unfold load at h
  split at h
  · cases h
    exact ⟨k.mem, rfl⟩
  · obtain ⟨⟨r', m⟩, -, ⟨⟩⟩ := Option.map_eq_some_iff.mp h
    exact ⟨m, rfl⟩

theorem store_eq (k : State) (pid va value : Nat) : ∃ m, k.store pid va value = k.withMem m := by
  unfold store
  split
  · exact ⟨k.mem, rfl⟩
  · dsimp only
    split
    · exact ⟨_, rfl⟩
    · exact ⟨k.mem, rfl⟩

theorem registerService_eq (k : State) (pid id : Nat) :
    ∃ services, (k.registerService pid id).2 = { k with services := services } := by
  unfold registerService registerLocked
  split
  · exact ⟨k.services, rfl⟩
  · split
    · exact ⟨k.services, rfl⟩
    · dsimp only
      split
      · exact ⟨k.services, rfl⟩
      · exact ⟨_, rfl⟩

/-! ## Every operation -/

theorem Sound.withTable {t : ProcessTable} (h : k.Sound) (ht : t.Sound) :
    ({ k with table := t } : State).Sound :=
  ⟨ht, h.shm, h.shmLength, h.pages, h.pagesLength⟩

theorem Sound.putPage {rec : PageRecord} {r : PageRecord} (h : k.Sound)
    (hrec : k.pageRecord id = some rec) (hid : r.id = rec.id) :
    ({ k with pages := k.pages.put id r } : State).Sound := by
  refine ⟨h.table, h.shm, h.shmLength, h.pages.put ?_ (hid.trans (Registry.ident_of_get hrec)), ?_⟩
  · rw [show k.pages.get PageRecord.id id = some rec from hrec]
    rfl
  · simpa [Registry.put] using h.pagesLength

/-- Overwriting a live page record changes one lookup. -/
theorem get_putPage {rec r : PageRecord} (hrec : k.pageRecord id = some rec) (hid : r.id = rec.id)
    (other : Nat) : (k.pages.put id r).get PageRecord.id other =
      if other = id then some r else k.pageRecord other := by
  have hident : r.id = id := hid.trans (Registry.ident_of_get hrec)
  split
  · next heq =>
    rw [heq]
    exact Registry.get_put_self (Registry.lt_of_get hrec) hident
  · next hother => exact Registry.get_put_of_ne hother

theorem Sound.destroy (h : k.Sound) (hstep : k.destroy pid = some k') : k'.Sound := by
  obtain ⟨-, rfl⟩ | ⟨p, k₁, k₂, root, table, m, -, -, -, -, h₂, hretire, -, rfl⟩ :=
    destroy_cases h hstep
  · exact h
  · exact ⟨(h₂.sound.table.retire hretire).2.sound, h₂.sound.shm, h₂.sound.shmLength,
      h₂.sound.pages, h₂.sound.pagesLength⟩

theorem Sound.capRevoke {r : Except CapError Unit} (h : k.Sound)
    (hstep : k.capRevoke pid slot = some (r, k')) : k'.Sound := by
  obtain ⟨-, rfl⟩ | ⟨id, r', -, hrevoke⟩ | ⟨q, -, rfl⟩ | ⟨id, r', k₁, -, hrevoke, hend⟩ :=
    capRevoke_cases hstep
  · exact h
  · exact (revoked_shmRevoke h hrevoke).sound
  · exact h.withTable ((k.table.writes_clearCap pid slot).sound h.table)
  · have h₁ := (pagesRevoked_pagesRevoke h hrevoke).sound
    obtain ⟨-, rfl⟩ | ⟨-, rfl⟩ := hend
    · exact h₁
    · exact h₁.withTable ((k₁.table.writes_clearCap pid slot).sound h₁.table)

theorem Sound.mmapShare {caller aSlot bSlot len : Nat} {r : Except Nat Nat} (h : k.Sound)
    (hstep : k.mmapShare caller aSlot bSlot len = some (r, k')) : k'.Sound := by
  obtain ⟨m, rfl, -⟩ | ⟨peer, rootA, rootB, paddr, m, id, shm, t₁, t₂, -, -, -, -, hroom, -, henter,
    hw₁, hw₂, -, rfl⟩ := mmapShare_cases hstep
  · exact h.withMem m
  · obtain rfl : shm = _ := (congrArg Prod.snd henter).symm
    exact ⟨hw₂.sound (hw₁.sound h.table), h.shm.enter fun _ => rfl,
      Registry.length_enter_le h.shmLength fun _ => hroom, h.pages, h.pagesLength⟩

theorem Sound.grantPage (h : k.Sound) (hstep : k.grantPage pid slot = some k') : k'.Sound := by
  obtain ⟨m, rfl, -⟩ | ⟨paddr, m, id, pages, t, -, -, -, hroom, henter, hw, rfl⟩ :=
    grantPage_cases hstep
  · exact h.withMem m
  · obtain rfl : pages = _ := (congrArg Prod.snd henter).symm
    exact ⟨hw.sound h.table, h.shm, h.shmLength, h.pages.enter fun _ => rfl,
      Registry.length_enter_le h.pagesLength fun _ => hroom⟩

theorem Sound.memGrant {caller srcSlot peerSlot dstSlot : Nat} {r : Except Nat Unit} (h : k.Sound)
    (hstep : k.memGrant caller srcSlot peerSlot dstSlot = some (r, k')) : k'.Sound := by
  obtain ⟨rfl, -⟩ | ⟨id, peer, rec, m, t₁, -, -, -, -, -, hrec, -, hw, -, rfl⟩ := memGrant_cases hstep
  · exact h
  · have htable := (t₁.writes_clearCap caller srcSlot).sound (hw.sound h.table)
    have hput := h.putPage (r := { rec with owner := peer, mapVa := none }) hrec rfl
    exact (hput.withTable htable).withMem m

theorem Sound.connect (h : k.Sound) (caller id clientSlot serverSlot : Nat) :
    (k.connect caller id clientSlot serverSlot).2.Sound := by
  obtain ⟨e, heq⟩ | ⟨server, t, e, -, -, hw, heq⟩ | ⟨server, t₁, t₂, -, -, -, -, hw₁, hw₂, heq⟩ :=
    connect_cases k caller id clientSlot serverSlot
  · rw [heq]
    exact h
  · rw [heq]
    exact h.withTable (hw.sound h.table)
  · rw [heq]
    exact h.withTable (hw₂.sound (hw₁.sound h.table))

/-- The operations that touch neither capabilities nor records of pages and regions. -/
def aside : KernelOp → Bool
  | .load .. | .serviceRegister .. | .mapDevice .. | .store .. => true
  | _ => false

theorem step_aside {op : KernelOp} (hop : aside op = true) (hstep : k.step b op = some k') :
    ∃ m services devices, k' = { k with mem := m, services := services, devices := devices } := by
  cases op with
  | load =>
    obtain ⟨r, hcall⟩ := Outcome.discard_eq_some hstep
    obtain ⟨m, rfl⟩ := load_eq hcall
    exact ⟨m, _, _, rfl⟩
  | serviceRegister caller id =>
    cases hstep
    obtain ⟨services, heq⟩ := registerService_eq k caller id
    exact ⟨_, services, _, heq⟩
  | mapDevice =>
    obtain ⟨r, hcall⟩ := Outcome.discard_eq_some hstep
    obtain ⟨m, rfl, -⟩ | ⟨root, m, -, -, -, -, -, -, rfl⟩ := deviceMap_cases hcall
    · exact ⟨m, _, _, rfl⟩
    · exact ⟨m, _, _, rfl⟩
  | store pid va value =>
    cases hstep
    obtain ⟨m, heq⟩ := store_eq k pid va value
    exact ⟨m, _, _, heq⟩
  | _ => cases hop

/-- Every operation keeps ids apart. -/
theorem Sound.step {op : KernelOp} (h : k.Sound) (hstep : k.step b op = some k') : k'.Sound := by
  cases op with
  | create =>
    obtain ⟨r, hcall⟩ := Outcome.discard_eq_some hstep
    obtain ⟨m, rfl, -⟩ | ⟨root, m, -, hlive, -, rfl⟩ := create_cases hcall
    · exact h.withMem m
    · exact (h.withTable (h.table.enter hlive).sound).withMem m
  | destroy pid => exact h.destroy hstep
  | grantCap pid slot target =>
    cases hstep
    unfold ProcessTable.grantCap
    obtain ⟨e, heq, -⟩ | ⟨t, heq, -, hw⟩ :=
      ProcessTable.grantTypedCap_cases k.table pid slot (.proc target)
    · rw [heq]
      exact h
    · rw [heq]
      exact h.withTable (hw.sound h.table)
  | grantPage pid slot => exact h.grantPage hstep
  | shmMap caller aSlot bSlot len =>
    obtain ⟨r, hcall⟩ := Outcome.discard_eq_some hstep
    exact h.mmapShare hcall
  | capRevoke caller slot =>
    obtain ⟨r, hcall⟩ := Outcome.discard_eq_some hstep
    exact h.capRevoke hcall
  | capDup caller src dst =>
    cases hstep
    unfold capDuplicate
    obtain ⟨e, heq⟩ | ⟨t, cap, heq, -, -, -, hw⟩ :=
      ProcessTable.capDuplicate_cases k.table caller src dst
    · rw [heq]
      exact h
    · rw [heq]
      exact h.withTable (hw.sound h.table)
  | serviceConnect caller id clientSlot serverSlot =>
    cases hstep
    exact h.connect caller id clientSlot serverSlot
  | memGrant caller srcSlot peerSlot dstSlot =>
    obtain ⟨r, hcall⟩ := Outcome.discard_eq_some hstep
    exact h.memGrant hcall
  | memMap caller slot va =>
    obtain ⟨r, hcall⟩ := Outcome.discard_eq_some hstep
    obtain ⟨m, rfl, -⟩ | ⟨id, rec, root, m, -, -, -, hrec, -, -, -, -, rfl⟩ := memMap_cases hcall
    · exact h.withMem m
    · have hput := h.putPage (r := { rec with mapVa := some va }) hrec rfl
      exact hput.withMem m
  | load | serviceRegister | mapDevice | store =>
    obtain ⟨m, services, devices, rfl⟩ := step_aside rfl hstep
    exact ⟨h.table, h.shm, h.shmLength, h.pages, h.pagesLength⟩

/-- Destroying a process ends no other one. -/
theorem destroy_lives {q : Nat} (hk : k.Sound) (hstep : k.destroy pid = some k') (hne : q ≠ pid)
    (hlive : k.table.pidRoot q ≠ none) : k'.table.pidRoot q ≠ none := by
  obtain ⟨-, rfl⟩ | ⟨p, k₁, k₂, root, table, m, -, -, -, h₁, h₂, hretire, -, rfl⟩ :=
    destroy_cases hk hstep
  · exact hlive
  change table.pidRoot q ≠ none
  rw [(h₂.sound.table.retire hretire).2.roots, if_neg hne, h₂.table, h₁.roots]
  exact hlive

/-! ## Services -/

/-- The processes that are registered for a service are alive. -/
def Served (k : State) : Prop :=
  ∀ slot entry, k.services slot = some entry → k.table.pidRoot entry.pid ≠ none

theorem Served.mono (h : k.Served) (hservices : k'.services = k.services)
    (hroots : ∀ q, k.table.pidRoot q ≠ none → k'.table.pidRoot q ≠ none) : k'.Served := by
  intro slot entry hentry
  rw [hservices] at hentry
  exact hroots _ (h slot entry hentry)

theorem Served.lookup {server : Nat} (h : k.Served) (hlookup : k.lookup id = some server) :
    k.table.pidRoot server ≠ none := by
  unfold State.lookup at hlookup
  split at hlookup
  · obtain ⟨entry, hentry, rfl⟩ := Option.map_eq_some_iff.mp hlookup
    exact h _ entry (Option.filter_eq_some_iff.mp hentry).1
  · cases hlookup

theorem Served.register (h : k.Served) (pid id : Nat) : (k.registerService pid id).2.Served := by
  unfold registerService registerLocked
  split
  · exact h
  · next hlive =>
    split
    · exact h
    · dsimp only
      split
      · exact h
      · intro slot entry hentry
        dsimp only at hentry
        by_cases hslot : slot = ⟨id, by omega⟩
        · rw [hslot, Function.update_self] at hentry
          cases hentry
          intro hdead
          rw [ProcessTable.pidRoot_eq_none] at hdead
          exact hlive (by rw [hdead]; rfl)
        · rw [Function.update_of_ne hslot] at hentry
          exact h slot entry hentry

theorem Served.destroy (h : k.Served) (hk : k.Sound) (hstep : k.destroy pid = some k') :
    k'.Served := by
  intro slot entry hentry
  have hold : k.services slot = some entry ∧ (k.table.get pid = none ∨ entry.pid ≠ pid) := by
    obtain ⟨hdead, rfl⟩ | ⟨p, k₁, k₂, root, table, m, -, -, -, h₁, h₂, -, -, rfl⟩ :=
      destroy_cases hk hstep
    · exact ⟨hentry, .inl hdead⟩
    · obtain ⟨hentry, hne⟩ := Option.filter_eq_some_iff.mp hentry
      change k₂.services slot = some entry at hentry
      rw [h₂.services, h₁.services] at hentry
      exact ⟨hentry, .inr (by simpa using hne)⟩
  have hlive := h slot entry hold.1
  refine destroy_lives hk hstep (fun heq => ?_) hlive
  rcases hold.2 with hdead | hne
  · exact hlive (by rw [heq, ProcessTable.pidRoot_eq_none, hdead])
  · exact hne heq

/-- Going from `k` to `k'` registered no service, claimed no device and ended no process. -/
structure Lives (k k' : State) : Prop where
  services : k'.services = k.services
  devices : k'.devices = k.devices
  roots : ∀ q, k.table.pidRoot q ≠ none → k'.table.pidRoot q ≠ none

/-- An operation that neither destroys a process nor registers a service nor maps a device leaves
services and devices alone and ends no process. -/
theorem step_lives {op : KernelOp} (hk : k.Sound) (hstep : k.step b op = some k') :
    Lives k k' ∨ (∃ pid, op = .destroy pid) ∨ (∃ pid id, op = .serviceRegister pid id) ∨
      ∃ pid devId va, op = .mapDevice pid devId va := by
  -- Every operation but two has the processes it had before.
  have hsame : k'.services = k.services → k'.devices = k.devices →
      k'.table.pidRoot = k.table.pidRoot → Lives k k' :=
    fun hservices hdevices hroots => ⟨hservices, hdevices, fun q hq => by rwa [hroots]⟩
  cases op with
  | create =>
    obtain ⟨r, hcall⟩ := Outcome.discard_eq_some hstep
    obtain ⟨m, rfl, -⟩ | ⟨root, m, -, hlive, -, rfl⟩ := create_cases hcall
    · exact .inl (hsame rfl rfl rfl)
    · refine .inl ⟨rfl, rfl, fun q hq => ?_⟩
      change (k.table.enter root).2.pidRoot q ≠ none
      rw [(hk.table.enter hlive).roots]
      split
      · simp
      · exact hq
  | destroy pid => exact .inr (.inl ⟨pid, rfl⟩)
  | grantCap pid slot target =>
    cases hstep
    unfold ProcessTable.grantCap at hsame ⊢
    obtain ⟨e, heq, -⟩ | ⟨t, heq, -, hw⟩ :=
      ProcessTable.grantTypedCap_cases k.table pid slot (.proc target)
    · exact .inl (hsame rfl rfl (by rw [heq]))
    · exact .inl (hsame rfl rfl (by rw [heq]; exact hw.roots))
  | grantPage pid slot =>
    obtain ⟨m, rfl, -⟩ | ⟨paddr, m, id, pages, t, -, -, -, -, -, hw, rfl⟩ := grantPage_cases hstep
    · exact .inl (hsame rfl rfl rfl)
    · exact .inl (hsame rfl rfl hw.roots)
  | load pid info args =>
    obtain ⟨r, hcall⟩ := Outcome.discard_eq_some hstep
    obtain ⟨m, rfl⟩ := load_eq hcall
    exact .inl (hsame rfl rfl rfl)
  | shmMap caller aSlot bSlot len =>
    obtain ⟨r, hcall⟩ := Outcome.discard_eq_some hstep
    obtain ⟨m, rfl, -⟩ | ⟨peer, rootA, rootB, paddr, m, id, shm, t₁, t₂, -, -, -, -, -, -, -, hw₁,
      hw₂, -, rfl⟩ := mmapShare_cases hcall
    · exact .inl (hsame rfl rfl rfl)
    · exact .inl (hsame rfl rfl (hw₂.roots.trans hw₁.roots))
  | capRevoke caller slot =>
    obtain ⟨r, hcall⟩ := Outcome.discard_eq_some hstep
    obtain ⟨-, rfl⟩ | ⟨id, r', -, hrevoke⟩ | ⟨q, -, rfl⟩ | ⟨id, r', k₁, -, hrevoke, hend⟩ :=
      capRevoke_cases hcall
    · exact .inl (hsame rfl rfl rfl)
    · have hone := revoked_shmRevoke hk hrevoke
      exact .inl (hsame hone.services hone.devices hone.roots)
    · exact .inl (hsame rfl rfl (k.table.writes_clearCap caller slot).roots)
    · have hone := pagesRevoked_pagesRevoke hk hrevoke
      obtain ⟨-, rfl⟩ | ⟨-, rfl⟩ := hend
      · exact .inl (hsame hone.services hone.devices (by rw [hone.table]))
      · exact .inl (hsame hone.services hone.devices
          ((k₁.table.writes_clearCap caller slot).roots.trans (by rw [hone.table])))
  | capDup caller src dst =>
    cases hstep
    unfold capDuplicate at hsame ⊢
    obtain ⟨e, heq⟩ | ⟨t, cap, heq, -, -, -, hw⟩ :=
      ProcessTable.capDuplicate_cases k.table caller src dst
    · exact .inl (hsame rfl rfl (by rw [heq]))
    · exact .inl (hsame rfl rfl (by rw [heq]; exact hw.roots))
  | serviceRegister caller id => exact .inr (.inr (.inl ⟨caller, id, rfl⟩))
  | serviceConnect caller id clientSlot serverSlot =>
    cases hstep
    obtain ⟨e, heq⟩ | ⟨server, t, e, -, -, hw, heq⟩ |
      ⟨server, t₁, t₂, -, -, -, -, hw₁, hw₂, heq⟩ :=
        connect_cases k caller id clientSlot serverSlot
    · exact .inl (hsame (by rw [heq]) (by rw [heq]) (by rw [heq]))
    · exact .inl (hsame (by rw [heq]) (by rw [heq]) (by rw [heq]; exact hw.roots))
    · exact .inl (hsame (by rw [heq]) (by rw [heq]) (by rw [heq]; exact hw₂.roots.trans hw₁.roots))
  | mapDevice caller devId va => exact .inr (.inr (.inr ⟨caller, devId, va, rfl⟩))
  | memGrant caller srcSlot peerSlot dstSlot =>
    obtain ⟨r, hcall⟩ := Outcome.discard_eq_some hstep
    obtain ⟨rfl, -⟩ | ⟨id, peer, rec, m, t₁, -, -, -, -, -, -, -, hw, -, rfl⟩ := memGrant_cases hcall
    · exact .inl (hsame rfl rfl rfl)
    · exact .inl (hsame rfl rfl ((t₁.writes_clearCap caller srcSlot).roots.trans hw.roots))
  | memMap caller slot va =>
    obtain ⟨r, hcall⟩ := Outcome.discard_eq_some hstep
    obtain ⟨m, rfl, -⟩ | ⟨id, rec, root, m, -, -, -, -, -, -, -, -, rfl⟩ := memMap_cases hcall
    · exact .inl (hsame rfl rfl rfl)
    · exact .inl (hsame rfl rfl rfl)
  | store pid va value =>
    cases hstep
    obtain ⟨m, heq⟩ := store_eq k pid va value
    exact .inl (hsame (by rw [heq]; rfl) (by rw [heq]; rfl) (by rw [heq]; rfl))

/-- Mapping a device leaves services and processes alone. -/
theorem mapDevice_lives {caller devId va : Nat} (hstep : k.step b (.mapDevice caller devId va) = some k') :
    k'.services = k.services ∧ k'.table = k.table := by
  obtain ⟨r, hcall⟩ := Outcome.discard_eq_some hstep
  obtain ⟨m, rfl, -⟩ | ⟨root, m, -, -, -, -, -, -, rfl⟩ := deviceMap_cases hcall
  · exact ⟨rfl, rfl⟩
  · exact ⟨rfl, rfl⟩

/-- Every operation keeps registered processes alive. -/
theorem Served.step {op : KernelOp} (h : k.Served) (hk : k.Sound)
    (hstep : k.step b op = some k') : k'.Served := by
  obtain hlives | ⟨pid, rfl⟩ | ⟨pid, id, rfl⟩ | ⟨caller, devId, va, rfl⟩ := step_lives hk hstep
  · exact h.mono hlives.services hlives.roots
  · exact h.destroy hk hstep
  · cases hstep
    exact h.register pid id
  · obtain ⟨hservices, htable⟩ := mapDevice_lives hstep
    exact h.mono hservices fun q hq => by rwa [htable]

end Ignium.Kernel.State
