import Ignium.Kernel.Effects
import Ignium.Kernel.Ledger

/-!
# The kernel keeps the ownership of pages

The calls of the kernel keep the discipline of `Ledger.Good`: `InOrder` says that the memory
implements some address spaces with which the records are in order, and each call keeps it. Calls
that fail may leave other address spaces behind, but none that user code could tell apart. The one
thing a call must not do is to overwrite a slot that a live shared page records: such a page would
no longer be revoked when its owner goes (`mmapShare_inOrder` asks for it).
-/

namespace Ignium.Mmu

open Mem

/-- The memory implements the address spaces, with its tables somewhere. -/
def Shows (m : Usage) (V : View) : Prop := ∃ place, Sees m place V

namespace Shows

variable {m m' : Usage} {V : View} {root va page flags : Nat}

section

variable (h : Shows m V)
include h

theorem inRange_of_data (hdata : V.data page) : V.inRange page = true := by
  obtain ⟨place, h⟩ := h
  rw [← h.range]
  exact (h.data.mp hdata).1.pageInRange h.sound

theorem ptePaddr_of_data (hdata : V.data page) (hflags : flags < 2 ^ ptePpnShift) :
    ptePaddr (pte page flags) = page := by
  obtain ⟨place, h⟩ := h
  exact h.ptePaddr_pte (h.data.mp hdata).1 hflags

theorem allocPages {r : Option Nat} (halloc : m.allocPages 0 = some (r, m')) :
    (r = none ∧ m' = m) ∨
      ∃ page, r = some page ∧ Shows m' (V.addData page m'.read) ∧ ¬ V.data page := by
  obtain ⟨place, h⟩ := h
  rcases h.sound.allocPages with hnone | ⟨page, t, hsome, htakes⟩
  · rw [hnone] at halloc
    cases halloc
    exact .inl ⟨rfl, rfl⟩
  · rw [hsome] at halloc
    cases halloc
    obtain ⟨h', hfresh, -⟩ := h.take htakes
    exact .inr ⟨page, rfl, ⟨place, h'⟩, hfresh⟩

theorem allocPagesZeroed {r : Option Nat} (halloc : m.allocPagesZeroed 0 = some (r, m')) :
    (r = none ∧ m' = m) ∨
      ∃ page, r = some page ∧ Shows m' (V.addData page fun _ => 0) ∧ ¬ V.data page := by
  obtain ⟨place, h⟩ := h
  rcases h.sound.allocPagesZeroed with hnone | ⟨page, t, hsome, htakes, hzero⟩
  · rw [hnone] at halloc
    cases halloc
    exact .inl ⟨rfl, rfl⟩
  · rw [hsome] at halloc
    cases halloc
    obtain ⟨h', hfresh, -⟩ := h.take htakes
    exact .inr ⟨page, rfl, ⟨place, h'.addData_congr hzero⟩, hfresh⟩

theorem freePages {r : Except Unit Unit} (hdata : V.data page)
    (hfree : m.freePages page = some (r, m')) : r = .ok () ∧ Shows m' (V.dropData page) := by
  obtain ⟨place, h⟩ := h
  obtain ⟨t, hdone, h'⟩ := h.give hdata
  rw [hdone] at hfree
  cases hfree
  exact ⟨rfl, place, h'⟩

theorem unmap4k (hroot : V.root root) (hunmap : (Mmu.unmap4k m root va).discard = some m') :
    ∃ V', Shows m' V' ∧ V.Loses V' fun r n => r = root ∧ n = vpn va := by
  obtain ⟨place, h⟩ := h
  obtain ⟨V', h', hloses, -⟩ := h.unmap4k_discard hroot hunmap
  exact ⟨V', ⟨place, h'⟩, hloses⟩

theorem unmapUser (hroot : V.root root) (huser : User (V.leaf root (vpn va)))
    (hunmap : (Mmu.unmap4k m root va).discard = some m') :
    Shows m' (V.setLeaf root (vpn va) 0) := by
  obtain ⟨place, h⟩ := h
  obtain ⟨V', h', -, heq, -⟩ := h.unmap4k_discard hroot hunmap
  exact ⟨place, heq huser ▸ h'⟩

theorem mapUserLeaf {paddr : Nat} {r : Except Unit Unit} (hroot : V.root root)
    (hflags : Valid flags) (hmap : Mmu.mapUserLeaf m root va paddr flags = some (r, m')) :
    (r = .error () ∧ Shows m' V) ∨
      (r = .ok () ∧ V.leaf root (vpn va) = 0 ∧
        Shows m' (V.setLeaf root (vpn va) (pte paddr (flags ||| pteU)))) := by
  obtain ⟨place, h⟩ := h
  obtain ⟨m₁, place', ⟨herror, h'⟩ | ⟨hok, hzero, h'⟩⟩ := h.mapUserLeaf hroot hflags
  · rw [herror] at hmap
    cases hmap
    exact .inl ⟨rfl, place', h'⟩
  · rw [hok] at hmap
    cases hmap
    exact .inr ⟨rfl, hzero, place', h'⟩

theorem mapUserPage {paddr : Nat} {r : Except Unit Unit} (hroot : V.root root)
    (hflags : Valid flags) (hmap : Mmu.mapUserPage m root va paddr flags = some (r, m')) :
    (r = .error () ∧ Shows m' V) ∨
      (r = .ok () ∧ V.leaf root (vpn va) = 0 ∧
        Shows m' (V.setLeaf root (vpn va) (pte paddr (flags ||| pteU)))) := by
  unfold Mmu.mapUserPage at hmap
  split at hmap
  · cases hmap
    exact .inl ⟨rfl, h⟩
  split at hmap
  · cases hmap
    exact .inl ⟨rfl, h⟩
  split at hmap
  · cases hmap
    exact .inl ⟨rfl, h⟩
  exact h.mapUserLeaf hroot hflags hmap

theorem mapDevicePage {paddr : Nat} {r : Except Unit Unit} (hroot : V.root root)
    (hflags : Valid flags) (hmap : Mmu.mapDevicePage m root va paddr flags = some (r, m')) :
    (r = .error () ∧ Shows m' V) ∨
      (r = .ok () ∧ paddr % 4096 = 0 ∧ V.leaf root (vpn va) = 0 ∧
        Shows m' (V.setLeaf root (vpn va) (pte paddr (flags ||| pteU)))) := by
  unfold Mmu.mapDevicePage at hmap
  split at hmap
  · cases hmap
    exact .inl ⟨rfl, h⟩
  · next hcheck =>
    rw [not_or, not_not] at hcheck
    rcases h.mapUserLeaf hroot hflags hmap with herror | ⟨hok, hzero, h'⟩
    · exact .inl herror
    · exact .inr ⟨hok, hcheck.2, hzero, h'⟩

end

end Shows

end Ignium.Mmu

namespace Ignium.Kernel

open Mem Mmu

/-- The memory implements address spaces with which the records are in order. -/
def InOrder (range : Nat → Bool) (m : Usage) (L : Ledger) : Prop :=
  ∃ V, Shows m V ∧ L.Good V ∧ V.inRange = range

namespace State

variable {k k' : State} {b : Board} {range : Nat → Bool} {L L' : Ledger} {V : View} {pol : Policy}
variable {id pid slot : Nat}

/-- The records of the kernel that decide about pages. -/
def ledger (k : State) (pol : Policy) : Ledger where
  caps := k.table.capAt
  roots := k.table.pidRoot
  shm := k.sharedPage
  pages := k.pageRecord
  claim := k.devices ⟨0, by decide⟩
  policy := pol

/-- A live process has a page mapped for user code. -/
def UserMaps (k : State) (pid va page : Nat) : Prop :=
  ∃ root, k.table.pidRoot pid = some root ∧ User (leafPte k.mem root va) ∧
    ptePaddr (leafPte k.mem root va) = page

/-- A page of the allocator is mapped for user code, or a process has a capability for it. -/
def Uses (k : State) (p : Nat) : Prop :=
  (k.mem.pageInRange p = true ∧ ∃ pid va, k.UserMaps pid va p) ∨
    ∃ q s id rec, k.table.capAt q s = some (.page id) ∧ k.pageRecord id = some rec ∧ rec.paddr = p

theorem userMaps_iff {va p : Nat} (hshows : Shows k.mem V) (hgood : (k.ledger pol).Good V) :
    k.UserMaps pid va p ↔ (k.ledger pol).Maps V pid va p := by
  obtain ⟨place, hsees⟩ := hshows
  unfold UserMaps Ledger.Maps
  refine exists_congr fun root => and_congr_right fun hroot => ?_
  rw [hsees.leaves (hgood.root hroot)]

theorem uses_iff {p : Nat} (hshows : Shows k.mem V) (hgood : (k.ledger pol).Good V) :
    k.Uses p ↔ (k.ledger pol).Used V p := by
  have hrange : k.mem.pageInRange = V.inRange := by
    obtain ⟨place, hsees⟩ := hshows
    exact hsees.range
  unfold Uses Ledger.Used
  rw [hrange]
  refine or_congr (and_congr_right fun _ => ?_) ?_
  · exact exists_congr fun pid => exists_congr fun va => userMaps_iff hshows hgood
  · constructor
    · rintro ⟨q, s, id, rec, hcap, hrec, hp⟩
      exact ⟨q, id, rec, ⟨⟨s, hcap⟩, hrec⟩, hp⟩
    · rintro ⟨q, id, rec, ⟨⟨s, hcap⟩, hrec⟩, hp⟩
      exact ⟨q, s, id, rec, hcap, hrec, hp⟩

/-! ## Unmapping -/

/-- Take a page out of the address space of a process, if the process is there. -/
def unmapAt (m : Usage) (root : Option Nat) (va : Nat) : Option Usage :=
  match root with
  | some root => (unmap4k m root va).discard
  | none => some m

theorem unmapAt_sees {m m' : Usage} {root : Option Nat} {va : Nat} {place : Nat → Option Place}
    (h : Sees m place V) (hroot : ∀ r, root = some r → V.root r)
    (hunmap : unmapAt m root va = some m') :
    ∃ V', Sees m' place V' ∧ (V.Loses V' fun r n => root = some r ∧ n = vpn va) ∧
      m.KeepsPages m' := by
  rcases root with _ | root
  · cases hunmap
    exact ⟨V, h, .refl V (fun r n hplace => nomatch hplace.1), .refl m⟩
  · obtain ⟨V', h', hloses, -, hkeeps⟩ := h.unmap4k_discard (hroot root rfl) hunmap
    refine ⟨V', h', hloses.congr fun r n => ?_, hkeeps⟩
    rw [Option.some.injEq, eq_comm]

theorem unmapAt_loses {m m' : Usage} {root : Option Nat} {va : Nat} (h : Shows m V)
    (hroot : ∀ r, root = some r → V.root r) (hunmap : unmapAt m root va = some m') :
    ∃ V', Shows m' V' ∧ V.Loses V' fun r n => root = some r ∧ n = vpn va := by
  obtain ⟨place, h⟩ := h
  obtain ⟨V', h', hloses, -⟩ := unmapAt_sees h hroot hunmap
  exact ⟨V', ⟨place, h'⟩, hloses⟩

theorem unmapFrom_eq (k : State) (owner : Nat) (mapVa : Option Nat) :
    k.unmapFrom owner mapVa = mapVa.elim (some k.mem) (unmapAt k.mem (k.table.pidRoot owner)) := by
  unfold unmapFrom unmapAt
  rcases mapVa with _ | va
  · rfl
  · rcases k.table.pidRoot owner with _ | root <;> rfl

/-! ## Revoking -/

/-- The memory after a shared page is revoked. -/
theorem shmRevoke_mem {r : Except Unit Unit} {sp : SharedPage} (hsp : k.sharedPage id = some sp)
    (h : k.shmRevoke id = some (r, k')) :
    ∃ m₁ m₂, unmapAt k.mem (k.table.pidRoot sp.first.1) shmVa = some m₁ ∧
      unmapAt m₁ (k.table.pidRoot sp.second.1) shmVa = some m₂ ∧
      m₂.freePages sp.paddr = some (r, k'.mem) := by
  unfold shmRevoke at h
  simp only [hsp, Option.bind_eq_some_iff, Option.map_eq_some_iff] at h
  obtain ⟨k₁, h₁, k₂, h₂, ⟨r', m⟩, hfree, ⟨⟩⟩ := h
  obtain ⟨m₁, hm₁, rfl⟩ := Option.map_eq_some_iff.mp h₁
  obtain ⟨m₂, hm₂, rfl⟩ := Option.map_eq_some_iff.mp h₂
  refine ⟨m₁, m₂, ?_, ?_, hfree⟩
  · rw [← hm₁]
    unfold unmapAt
    rcases k.table.pidRoot sp.first.1 with _ | root <;> rfl
  · have hroots := (k.table.writes_clearCap sp.first.1 sp.first.2).roots
    rw [← hm₂, ← hroots]
    unfold unmapAt
    rcases (k.table.clearCap sp.first.1 sp.first.2).2.pidRoot sp.second.1 with _ | root <;> rfl

theorem shmRevoke_inOrder {r : Except Unit Unit} (h : InOrder range k.mem (k.ledger pol)) (hk : k.Sound)
    (hstep : k.shmRevoke id = some (r, k')) : InOrder range k'.mem (k'.ledger pol) := by
  rcases hsp : k.sharedPage id with _ | sp
  · unfold shmRevoke at hstep
    rw [hsp] at hstep
    cases hstep
    exact h
  obtain ⟨V, hshows, hgood, rfl⟩ := h
  obtain ⟨m₁, m₂, hm₁, hm₂, hfree⟩ := shmRevoke_mem hsp hstep
  have hrevoked := revoked_shmRevoke hk hstep
  obtain ⟨V₁, hshows₁, hloses₁⟩ := unmapAt_loses hshows (fun r hr => hgood.root hr) hm₁
  have hroots₁ : ∀ r, k.table.pidRoot sp.second.1 = some r → V₁.root r := by
    intro r hr
    rw [hloses₁.roots]
    exact hgood.root hr
  obtain ⟨V₂, hshows₂, hloses₂⟩ := unmapAt_loses hshows₁ hroots₁ hm₂
  have hloses : V.Loses V₂ fun r n => n = vpn shmVa ∧
      (k.table.pidRoot sp.first.1 = some r ∨ k.table.pidRoot sp.second.1 = some r) :=
    (hloses₁.trans hloses₂).congr fun r n => by tauto
  obtain ⟨hdata, -⟩ := (hgood.at_ sp.paddr).shared hsp rfl
  have hrecorded : ∀ q s, k.Recorded [id] q s ↔ (q, s) = sp.first ∨ (q, s) = sp.second := by
    intro q s
    simp [Recorded, hsp]
  have hcaps : ∀ {q s c}, (k'.ledger pol).caps q s = some c → (k.ledger pol).caps q s = some c := by
    intro q s c hc
    by_cases hrec : k.Recorded [id] q s
    · rw [show (k'.ledger pol).caps q s = none from hrevoked.cleared q s hrec] at hc
      cases hc
    · exact (hrevoked.kept q s hrec).symm.trans hc
  have hrecords : ∀ x, (k'.ledger pol).shm x = if x = id then none else (k.ledger pol).shm x := by
    intro x
    refine (hrevoked.records x).trans ?_
    simp [ledger]
  have hpages : (k'.ledger pol).pages = (k.ledger pol).pages := by
    funext x
    exact congrArg (Registry.get PageRecord.id · x) hrevoked.pages
  obtain ⟨hgood', hunmapped, hunclaimed⟩ := hgood.dropShm hsp hloses hrevoked.roots hrecords hpages
    (congrFun hrevoked.devices _) rfl
    (fun q s hf hs => hrevoked.kept q s ((hrecorded q s).not.mpr (not_or.mpr ⟨hf, hs⟩))) hcaps
  obtain ⟨-, hshows'⟩ := hshows₂.freePages (by rw [hloses.data]; exact hdata) hfree
  exact ⟨_, hshows', hgood'.dropData hunmapped hunclaimed, hloses.range⟩

/-- A page is taken out of the address space of its owner. -/
theorem unmapFrom_loses {q s : Nat} {rec : PageRecord} {m : Usage} (h : Shows k.mem V)
    (hgood : L.Good V) (hroots : L.roots = k.table.pidRoot)
    (hcap : L.caps q s = some (.page id)) (hrec : L.pages id = some rec)
    (hunmap : k.unmapFrom rec.owner rec.mapVa = some m) :
    ∃ V', Shows m V' ∧
      V.Loses V' fun r n => L.roots q = some r ∧ ∃ va, rec.mapVa = some va ∧ n = vpn va := by
  obtain ⟨rec', hrec', howner⟩ := hgood.live hcap
  obtain rfl := Option.some.inj (hrec.symm.trans hrec')
  rw [unmapFrom_eq, ← hroots, howner] at hunmap
  rcases hva : rec.mapVa with _ | va
  · rw [hva] at hunmap
    cases hunmap
    refine ⟨V, h, .refl V ?_⟩
    rintro r n ⟨-, va, hva, -⟩
    cases hva
  · rw [hva] at hunmap
    obtain ⟨V', h', hloses⟩ := unmapAt_loses h (fun r hr => hgood.root hr) hunmap
    refine ⟨V', h', hloses.congr fun r n => and_congr_right fun _ => ?_⟩
    simp

/-- Revoking a page that a slot names releases it. -/
theorem revokePage_inOrder {q s : Nat} {rec : PageRecord} {r : Except Unit Unit} {m m' : Usage}
    (h : InOrder range k.mem L) (hroots : L.roots = k.table.pidRoot)
    (hcap : L.caps q s = some (.page id)) (hrec : L.pages id = some rec)
    (hunmap : k.unmapFrom rec.owner rec.mapVa = some m)
    (hfree : m.freePages rec.paddr = some (r, m')) (hroots' : L'.roots = L.roots)
    (hshm : L'.shm = L.shm) (hpages : ∀ x, L'.pages x = if x = id then none else L.pages x)
    (hclaim : L'.claim = L.claim) (hpolicy : L'.policy = L.policy)
    (hcaps : ∀ q' s', L'.caps q' s' = if q' = q ∧ s' = s then none else L.caps q' s') :
    r = .ok () ∧ InOrder range m' L' := by
  obtain ⟨V, hshows, hgood, rfl⟩ := h
  obtain ⟨V₁, hshows₁, hloses⟩ := unmapFrom_loses hshows hgood hroots hcap hrec hunmap
  obtain ⟨hdata, -⟩ := (hgood.at_ rec.paddr).owned ⟨⟨s, hcap⟩, hrec⟩ rfl
  obtain ⟨hgood', hunmapped, hunclaimed⟩ :=
    hgood.dropPage hcap hrec hloses hroots' hshm hpages hclaim hpolicy hcaps
  obtain ⟨hok, hshows'⟩ := hshows₁.freePages (by rw [hloses.data]; exact hdata) hfree
  exact ⟨hok, _, hshows', hgood'.dropData hunmapped hunclaimed, hloses.range⟩

theorem get_retirePage {rec : PageRecord} (hk : k.Sound) (hrec : k.pageRecord id = some rec)
    (x : Nat) : (k.pages.retire id { rec with id := noId, mapVa := none }).get PageRecord.id x =
      if x = id then none else k.pageRecord x := by
  split
  · next heq =>
    rw [heq]
    exact Registry.get_retire_self (hk.ne_noId_of_pageRecord hrec)
  · next hne => exact Registry.get_retire_of_ne hne

theorem capRevoke_inOrder {r : Except CapError Unit} (h : InOrder range k.mem (k.ledger pol))
    (hk : k.Sound) (hstep : k.capRevoke pid slot = some (r, k')) :
    InOrder range k'.mem (k'.ledger pol) := by
  obtain ⟨-, rfl⟩ | ⟨id, r', -, hrevoke⟩ | ⟨q, hcap, rfl⟩ | ⟨id, r', k₁, hcap, hrevoke, hend⟩ :=
    capRevoke_cases hstep
  · exact h
  · exact shmRevoke_inOrder h hk hrevoke
  · obtain ⟨V, hshows, hgood, hrange⟩ := h
    have hw := k.table.writes_clearCap pid slot
    refine ⟨V, hshows, hgood.recap hw.roots rfl rfl rfl rfl (fun {id sp} hsp => ?_) ?_,
      hrange⟩
    · -- The slot held a capability for a process, so that no shared page records it.
      obtain ⟨hf, hs⟩ := hgood.slots hsp
      have hkept : ∀ q' s', k.table.capAt q' s' = some (.shm id) →
          (k.table.clearCap pid slot).2.capAt q' s' = some (.shm id) := by
        intro q' s' hq'
        rw [hw.caps, if_neg, hq']
        rintro ⟨rfl, rfl⟩
        rw [hcap] at hq'
        cases hq'
      exact ⟨hkept _ _ hf, hkept _ _ hs⟩
    · intro q' s' id hq'
      have hq'' : (k.table.clearCap pid slot).2.capAt q' s' = some (.page id) := hq'
      rw [hw.caps] at hq''
      split at hq''
      · cases hq''
      · exact hq''
  · obtain ⟨hdead, -⟩ | ⟨rec, m, m', hrec, hunmap, hfree, rfl⟩ := pagesRevoke_cases hrevoke
    · obtain ⟨V, -, hgood, -⟩ := h
      obtain ⟨rec, hrec, -⟩ := hgood.live hcap
      cases hdead.symm.trans hrec
    have hw := k.table.writes_clearCap pid slot
    have hdone : r' = .ok () ∧ InOrder range m' (({ k with
        pages := k.pages.retire id { rec with id := noId, mapVa := none }
        table := (k.table.clearCap pid slot).2 } : State).ledger pol) :=
      revokePage_inOrder h rfl hcap hrec hunmap hfree hw.roots rfl (get_retirePage hk hrec) rfl rfl
        hw.caps
    obtain ⟨rfl, -⟩ | ⟨-, rfl⟩ := hend
    · cases hdone.1
    · exact hdone.2

/-! ## Destroying a process -/

/-- A capability for a page that is already revoked does not count. -/
def standing (k : State) : Option Cap → Option Cap
  | some (.page id) => (k.pageRecord id).map fun _ => .page id
  | cap => cap

/-- The records while the pages of a process are being revoked: of its capabilities for pages only
those that stand count. -/
def stripped (k : State) (pol : Policy) (pid : Nat) : Ledger :=
  { k.ledger pol with
    caps := fun q s => if q = pid then k.standing (k.table.capAt q s) else k.table.capAt q s }

theorem standing_eq {cap : Option Cap} (h : ∀ id, cap = some (.page id) → k.pageRecord id ≠ none) :
    k.standing cap = cap := by
  unfold standing
  split
  · next id =>
    obtain ⟨rec, hrec⟩ := Option.ne_none_iff_exists'.mp (h id rfl)
    rw [hrec]
    rfl
  · rfl

theorem standing_congr {cap : Option Cap}
    (h : ∀ id, cap = some (.page id) → k'.pageRecord id = k.pageRecord id) :
    k'.standing cap = k.standing cap := by
  unfold standing
  split
  · next id => rw [h id rfl]
  · rfl

theorem stripped_caps_page {s : Nat} {rec : PageRecord}
    (hcap : k.table.capAt pid s = some (.page id)) (hrec : k.pageRecord id = some rec) :
    (k.stripped pol pid).caps pid s = some (.page id) := by
  simp [stripped, standing, hcap, hrec]

/-- At first nothing is revoked. -/
theorem stripped_eq (hlive : ∀ q s id, k.table.capAt q s = some (.page id) →
    k.pageRecord id ≠ none) : k.stripped pol pid = (k.ledger pol) := by
  have hcaps : (k.stripped pol pid).caps = (k.ledger pol).caps := by
    funext q s
    dsimp only [stripped]
    split
    · exact standing_eq fun id hcap => hlive q s id hcap
    · rfl
  exact congrArg (fun caps => ({ k.ledger pol with caps := caps } : Ledger)) hcaps

/-- One page of the process is revoked. -/
theorem pagesRevoke_stripped {s : Nat} {r : Except Unit Unit}
    (h : InOrder range k.mem (k.stripped pol pid)) (hk : k.Sound)
    (hcap : k.table.capAt pid s = some (.page id)) (hstep : k.pagesRevoke id = some (r, k')) :
    InOrder range k'.mem (k'.stripped pol pid) := by
  obtain ⟨-, rfl, -⟩ | ⟨rec, m, m', hrec, hunmap, hfree, hk'⟩ := pagesRevoke_cases hstep
  · exact h
  have hslot : (k.stripped pol pid).caps pid s = some (.page id) := stripped_caps_page hcap hrec
  have htable : k'.table = k.table := by rw [hk']
  have hrecord : ∀ x, k'.pageRecord x = if x = id then none else k.pageRecord x := by
    intro x
    rw [hk']
    exact get_retirePage hk hrec x
  have hcaps : ∀ q' s', (k'.stripped pol pid).caps q' s' =
      if q' = pid ∧ s' = s then none else (k.stripped pol pid).caps q' s' := by
    intro q' s'
    obtain ⟨V, -, hgood, -⟩ := h
    dsimp only [stripped]
    rw [htable]
    by_cases hq : q' = pid
    · subst hq
      rw [if_pos rfl, if_pos rfl]
      by_cases hs : s' = s
      · rw [hs, hcap, if_pos ⟨rfl, rfl⟩]
        simp [standing, hrecord]
      · -- The revoked page has no other slot.
        rw [if_neg fun heq => hs heq.2]
        refine standing_congr fun x hx => ?_
        rw [hrecord, if_neg]
        rintro rfl
        exact hs (hgood.unique (stripped_caps_page hx hrec) hslot).2
    · rw [if_neg hq, if_neg hq, if_neg fun heq => hq heq.1]
  have hdone : r = .ok () ∧ InOrder range m' (k'.stripped pol pid) := by
    refine revokePage_inOrder h rfl hslot hrec hunmap hfree ?_ ?_ hrecord ?_ rfl hcaps
    · exact congrArg ProcessTable.pidRoot htable
    · rw [hk']
      rfl
    · rw [hk']
      rfl
  rw [hk'] at hdone ⊢
  exact hdone.2

theorem pagesRevoke_foldlM_stripped {ids : List Nat}
    (h : InOrder range k.mem (k.stripped pol pid)) (hk : k.Sound)
    (hids : ∀ id ∈ ids, ∃ s, k.table.capAt pid s = some (.page id))
    (hstep : ids.foldlM (fun (k : State) id => (k.pagesRevoke id).discard) k = some k') :
    InOrder range k'.mem (k'.stripped pol pid) := by
  induction ids generalizing k with
  | nil =>
    cases hstep
    exact h
  | cons id ids ih =>
    simp only [List.foldlM_cons, bind, Option.bind_eq_some_iff] at hstep
    obtain ⟨k₁, hfirst, hrest⟩ := hstep
    obtain ⟨r, hrevoke⟩ := Outcome.discard_eq_some hfirst
    obtain ⟨s, hs⟩ := hids id (by simp)
    have hone := pagesRevoked_pagesRevoke hk hrevoke
    refine ih (pagesRevoke_stripped h hk hs hrevoke) hone.sound (fun x hx => ?_) hrest
    obtain ⟨s', hs'⟩ := hids x (by simp [hx])
    exact ⟨s', by rw [hone.table, hs']⟩

theorem shmRevoke_foldlM_inOrder {ids : List Nat} (h : InOrder range k.mem (k.ledger pol)) (hk : k.Sound)
    (hstep : ids.foldlM (fun (k : State) id => (k.shmRevoke id).discard) k = some k') :
    InOrder range k'.mem (k'.ledger pol) := by
  refine (List.foldlM_induction (P := fun k => k.Sound ∧ InOrder range k.mem (k.ledger pol)) hstep
    ⟨hk, h⟩ fun k₁ id k₂ _ hinv hone => ?_).2
  obtain ⟨r, hrevoke⟩ := Outcome.discard_eq_some hone
  exact ⟨(revoked_shmRevoke hinv.1 hrevoke).sound, shmRevoke_inOrder hinv.2 hinv.1 hrevoke⟩

/-- The tables of a process that shares no page go, with the pages that it maps. -/
theorem destroyRoot_inOrder {root : Nat} {m m' : Usage} (h : InOrder range m L)
    (hroot : L.roots pid = some root)
    (halone : ∀ {id sp}, L.shm id = some sp → pid ≠ sp.first.1 ∧ pid ≠ sp.second.1)
    (hdestroy : destroyRoot m root = some m')
    (hcaps : ∀ q s, L'.caps q s = if q = pid then none else L.caps q s)
    (hroots : ∀ q, L'.roots q = if q = pid then none else L.roots q)
    (hshm : L'.shm = L.shm) (hpages : L'.pages = L.pages)
    (hclaim : L'.claim = L.claim.filter fun c => c.1 ≠ pid) (hpolicy : L'.policy = L.policy) :
    InOrder range m' L' := by
  obtain ⟨V, ⟨place, hsees⟩, hgood, rfl⟩ := h
  have hmaps : ∀ vaddr p, V.MapsPage root (vpn vaddr) p →
      L.Maps V pid vaddr p ∧ V.inRange p = true := by
    rintro vaddr p ⟨huser, hrange, rfl⟩
    exact ⟨⟨root, hroot, huser, rfl⟩, hrange⟩
  have hdata : ∀ vaddr p, V.MapsPage root (vpn vaddr) p → V.data p := by
    intro vaddr p hm
    obtain ⟨hm, hrange⟩ := hmaps vaddr p hm
    exact (hgood.at_ p).mapped hm hrange
  obtain ⟨m₁, hdone, hsees'⟩ := hsees.destroyRoot (hgood.root hroot) hdata
    fun vaddr vaddr' p hm hm' => by
      obtain ⟨hm, hrange⟩ := hmaps vaddr p hm
      obtain ⟨hm', -⟩ := hmaps vaddr' p hm'
      rcases (hgood.at_ p).once hm hm' hrange with ⟨-, hvpn⟩ | ⟨id, sp, hsp, hp⟩
      · exact hvpn
      · obtain ⟨-, honly⟩ := (hgood.at_ p).shared hsp hp
        exact (honly hm).1.trans (honly hm').1.symm
  rw [hdone] at hdestroy
  cases hdestroy
  exact ⟨_, ⟨_, hsees'⟩, hgood.dropProcess hroot halone hcaps hroots hshm hpages hclaim hpolicy,
    rfl⟩

theorem destroy_inOrder (h : InOrder range k.mem (k.ledger pol)) (hk : k.Sound)
    (hstep : k.destroy pid = some k') : InOrder range k'.mem (k'.ledger pol) := by
  obtain ⟨-, rfl⟩ | ⟨p, k₁, k₂, root, table, m, hp, hshm, hpages, hr₁, hr₂, hretire, hroot, rfl⟩ :=
    destroy_cases hk hstep
  · exact h
  have hinj : ∀ {id sp}, k.sharedPage id = some sp →
      k.table.capAt sp.first.1 sp.first.2 = some (.shm id) ∧
        k.table.capAt sp.second.1 sp.second.2 = some (.shm id) := by
    obtain ⟨V, -, hgood, -⟩ := h
    exact fun hsp => hgood.slots hsp
  have h₁ := shmRevoke_foldlM_inOrder h hk hshm
  -- The slots with pages are not those that shared pages record.
  have hkept : ∀ {q s id}, k.table.capAt q s = some (.page id) →
      k₁.table.capAt q s = some (.page id) := by
    intro q s id hcap
    rw [hr₁.kept q s, hcap]
    rintro ⟨x, -, sp, hsp, heq⟩
    obtain ⟨hf, hs⟩ := hinj hsp
    rcases heq with heq | heq
    · rw [← heq, hcap] at hf
      cases hf
    · rw [← heq, hcap] at hs
      cases hs
  have h₂ : InOrder range k₂.mem (k₂.stripped pol pid) := by
    refine pagesRevoke_foldlM_stripped ?_ hr₁.sound (fun id hid => ?_) hpages
    · rwa [stripped_eq]
      intro q s id hcap hdead
      obtain ⟨V, -, hgood, -⟩ := h₁
      obtain ⟨rec, hrec, -⟩ := hgood.live hcap
      cases hdead.symm.trans hrec
    · obtain ⟨s, hcap⟩ := (mem_pageIds hp).mp hid
      exact ⟨s, hkept hcap⟩
  obtain ⟨hlive, hretires⟩ := hr₂.sound.table.retire hretire
  refine destroyRoot_inOrder h₂ hlive (fun {id sp} hsp => ?_) hroot (fun q s => ?_) hretires.roots
    rfl rfl rfl rfl
  · -- A shared page of the process is named in one of its slots, and so it is revoked.
    have hsp₁ : k₁.sharedPage id = some sp := by
      rw [← hsp]
      exact congrArg (Registry.get SharedPage.id · id) hr₂.shm.symm
    rw [hr₁.records] at hsp₁
    split at hsp₁
    · cases hsp₁
    · next hid =>
      rw [mem_shmIds hp, not_exists] at hid
      obtain ⟨hf, hs⟩ := hinj hsp₁
      refine ⟨?_, ?_⟩
      · rintro rfl
        exact hid _ hf
      · rintro rfl
        exact hid _ hs
  · refine (hretires.caps q s).trans ?_
    by_cases hq : q = pid
    · rw [if_pos hq, if_pos hq]
    · rw [if_neg hq, if_neg hq]
      exact (if_neg hq).symm

/-! ## Pages that get a record -/

/-- A record that is replaced is one that goes and one that comes. -/
theorem get_putPage_without {q s : Nat} {rec r : PageRecord} (hrec : k.pageRecord id = some rec)
    (hid : r.id = rec.id) (x : Nat) : (k.pages.put id r).get PageRecord.id x =
      if x = id then some r else ((k.ledger pol).without q s id).pages x := by
  rw [get_putPage hrec hid]
  by_cases hx : x = id
  · rw [if_pos hx, if_pos hx]
  · rw [if_neg hx, if_neg hx]
    exact (if_neg hx).symm

/-- Where a leaf is unset, nothing of the kernel is mapped. A page that is fixed as unmapped is the
one exception. -/
theorem not_fixed_of_zero {root va : Nat} (hgood : (k.ledger pol).Good V)
    (hfixed : pol.fixed (vpn va) → pol.kernel (vpn va) ≠ 0) (hroot : k.table.pidRoot pid = some root)
    (hzero : V.leaf root (vpn va) = 0) : ¬ pol.fixed (vpn va) := by
  intro hva
  exact hfixed hva ((hgood.fixed hroot hva).symm.trans hzero)

theorem memGrant_inOrder {caller srcSlot peerSlot dstSlot : Nat} {r : Except Nat Unit}
    (h : InOrder range k.mem (k.ledger pol))
    (hstep : k.memGrant caller srcSlot peerSlot dstSlot = some (r, k')) :
    InOrder range k'.mem (k'.ledger pol) := by
  obtain ⟨rfl, -⟩ | ⟨id, peer, rec, m, t₁, hsrc, -, -, -, hdst, hrec, hunmap, hw₁, -, rfl⟩ :=
    memGrant_cases hstep
  · exact h
  obtain ⟨V, hshows, hgood, rfl⟩ := h
  obtain ⟨V', hshows', hloses⟩ := unmapFrom_loses hshows hgood rfl hsrc hrec hunmap
  have hheld : (k.ledger pol).HoldsPage caller id rec := ⟨⟨srcSlot, hsrc⟩, hrec⟩
  have hwords := fun {x} => hgood.words_of_holds (x := x) hheld
  obtain ⟨hdata, -⟩ := (hgood.at_ rec.paddr).owned hheld rfl
  rw [← hloses.data] at hdata
  -- The page is taken from the one process and given to the other.
  obtain ⟨hwithout, hunmapped, hfree⟩ := hgood.without hsrc hrec hloses
  refine ⟨V', hshows', ?_, hloses.range⟩
  have hw₂ := t₁.writes_clearCap caller srcSlot
  refine hwithout.addPage peer dstSlot id { rec with owner := peer, mapVa := none } ?_ (if_pos rfl)
    rfl hdata (hshows'.inRange_of_data hdata) (fun hm => absurd hm (hunmapped _ _))
    (fun va hva => by cases hva) hfree (fun hx => ?_) (hw₂.roots.trans hw₁.roots) rfl (fun x => ?_)
    rfl rfl fun q s => ?_
  · exact ite_eq_left_iff.mpr fun _ => hdst
  · rw [hloses.word]
    exact hwords hx
  · exact get_putPage_without (r := { rec with owner := peer, mapVa := none }) hrec rfl x
  · refine (hw₂.caps q s).trans ?_
    rw [hw₁.caps]
    dsimp only [Ledger.without]
    by_cases hq : q = peer ∧ s = dstSlot
    · -- The slot that is filled was empty, so it is not the one that is emptied.
      rw [if_pos hq, if_pos hq, if_neg]
      rintro ⟨rfl, rfl⟩
      rw [← hq.1, ← hq.2, hsrc] at hdst
      cases hdst
    · rw [if_neg hq, if_neg hq]
      rfl

theorem memMap_inOrder {caller va : Nat} {r : Except Nat Unit}
    (h : InOrder range k.mem (k.ledger pol)) (hfixed : pol.fixed (vpn va) → pol.kernel (vpn va) ≠ 0)
    (hstep : k.memMap caller slot va = some (r, k')) : InOrder range k'.mem (k'.ledger pol) := by
  obtain ⟨V, hshows, hgood, rfl⟩ := h
  obtain ⟨m, rfl, rfl | ⟨root, paddr, hroot, hmap⟩⟩ |
    ⟨id, rec, root, m, -, -, hcap, hrec, hmapVa, hroot, hmap, -, rfl⟩ := memMap_cases hstep
  · exact ⟨V, hshows, hgood, rfl⟩
  · obtain ⟨-, hshows'⟩ | ⟨heq, -⟩ := hshows.mapUserPage (hgood.root hroot) (by decide) hmap
    · exact ⟨V, hshows', hgood, rfl⟩
    · cases heq
  obtain ⟨heq, -⟩ | ⟨-, hzero, hshows'⟩ := hshows.mapUserPage (hgood.root hroot) (by decide) hmap
  · cases heq
  have hva : ¬ pol.fixed (vpn va) := not_fixed_of_zero hgood hfixed hroot hzero
  have hheld : (k.ledger pol).HoldsPage caller id rec := ⟨⟨slot, hcap⟩, hrec⟩
  have hwords := fun {x} => hgood.words_of_holds (x := x) hheld
  obtain ⟨hdata, -⟩ := (hgood.at_ rec.paddr).owned hheld rfl
  have hrange := hshows.inRange_of_data hdata
  have hloses : V.Loses V fun r n => (k.ledger pol).roots caller = some r ∧
      ∃ va, rec.mapVa = some va ∧ n = vpn va := by
    refine .refl V ?_
    rintro r n ⟨-, va', hva', -⟩
    rw [hmapVa] at hva'
    cases hva'
  obtain ⟨hwithout, hunmapped, hfree⟩ := hgood.without hcap hrec hloses
  have hentry : ptePaddr (pte rec.paddr (mapFlags ||| pteU)) = rec.paddr :=
    hshows.ptePaddr_of_data hdata (by decide)
  have huser : User (pte rec.paddr (mapFlags ||| pteU)) := user_pte.mpr (by decide)
  have hmapped : ((k.ledger pol).without caller slot id).Good
      (V.setLeaf root (vpn va) (pte rec.paddr (mapFlags ||| pteU))) :=
    hwithout.setLeaf hroot hzero hva hentry hdata hrange hunmapped hfree hwords
  refine ⟨_, hshows', ?_, rfl⟩
  refine hmapped.addPage caller slot id { rec with mapVa := some va } (if_pos ⟨rfl, rfl⟩)
    (if_pos rfl) ?_ hdata hrange (fun hm => ?_) (fun va' hva' => ?_) hfree hwords rfl rfl
    (fun x => ?_) rfl rfl fun q s => ?_
  · obtain ⟨rec', hrec', howner⟩ := hgood.live hcap
    obtain rfl := Option.some.inj (hrec.symm.trans hrec')
    exact howner
  · rcases Ledger.maps_setLeaf hwithout hroot hm with ⟨hpid, hva, -⟩ | hm
    · exact ⟨hpid, va, rfl, hva⟩
    · exact absurd hm (hunmapped _ _)
  · cases hva'
    have hself : ((k.ledger pol).without caller slot id).Maps
        (V.setLeaf root (vpn va) (pte rec.paddr (mapFlags ||| pteU))) caller va
        (ptePaddr (pte rec.paddr (mapFlags ||| pteU))) := Ledger.maps_setLeaf_self hroot huser
    rwa [hentry] at hself
  · exact get_putPage_without (r := { rec with mapVa := some va }) hrec rfl x
  · by_cases hq : q = caller ∧ s = slot
    · rw [if_pos hq, hq.1, hq.2]
      exact hcap
    · rw [if_neg hq]
      exact (if_neg hq).symm

/-- A fresh page is mapped nowhere, and no record names it. -/
theorem fresh_page {page : Nat} {words : Nat → Nat} {m : Usage}
    (hshows : Shows m (V.addData page words)) (hgood : L.Good V) (hfresh : ¬ V.data page) :
    L.Unmapped (V.addData page words) page ∧ L.Unclaimed page ∧ V.inRange page = true := by
  have hrange : V.inRange page = true := hshows.inRange_of_data (.inl rfl)
  obtain ⟨hunmapped, hfree⟩ := hgood.fresh hfresh hrange
  exact ⟨hunmapped, hfree, hrange⟩

/-- A page that is not used after all is given back. -/
theorem giveBack_inOrder {page : Nat} {m m' : Usage} (hshows : Shows m V) (hgood : L.Good V)
    (hdata : V.data page) (hunmapped : L.Unmapped V page) (hfree : L.Unclaimed page)
    (hgive : (m.freePages page).discard = some m') : InOrder V.inRange m' L := by
  obtain ⟨r, hgive⟩ := Outcome.discard_eq_some hgive
  obtain ⟨-, hshows'⟩ := hshows.freePages hdata hgive
  exact ⟨_, hshows', hgood.dropData hunmapped hfree, rfl⟩

theorem grantPage_inOrder (h : InOrder range k.mem (k.ledger pol)) (hk : k.Sound)
    (hwords : ∀ page m, k.mem.allocPages 0 = some (some page, m) → ∀ x, Usage.InPage page x →
      pol.allows page x (m.read x))
    (hstep : k.grantPage pid slot = some k') : InOrder range k'.mem (k'.ledger pol) := by
  obtain ⟨V, hshows, hgood, rfl⟩ := h
  obtain ⟨m, rfl, rfl | halloc | ⟨paddr, m₁, halloc, hgive⟩⟩ |
    ⟨paddr, m, id, pages, t, hempty, -, halloc, hroom, henter, hw, rfl⟩ := grantPage_cases hstep
  · exact ⟨V, hshows, hgood, rfl⟩
  · obtain ⟨-, rfl⟩ | ⟨page, heq, -⟩ := hshows.allocPages halloc
    · exact ⟨V, hshows, hgood, rfl⟩
    · cases heq
  · obtain ⟨heq, -⟩ | ⟨page, heq, hshows', hfresh⟩ := hshows.allocPages halloc
    · cases heq
    cases heq
    obtain ⟨hunmapped, hfree, -⟩ := fresh_page hshows' hgood hfresh
    have hdone : InOrder (V.addData paddr m₁.read).inRange m (k.ledger pol) :=
      giveBack_inOrder hshows' (hgood.addData hfresh) (.inl rfl) hunmapped hfree hgive
    exact hdone
  · obtain ⟨heq, -⟩ | ⟨page, heq, hshows', hfresh⟩ := hshows.allocPages halloc
    · cases heq
    cases heq
    obtain ⟨hunmapped, hfree, hrange⟩ := fresh_page hshows' hgood hfresh
    obtain ⟨hdead, hself, hother⟩ := hk.pages.entered (fun _ => rfl) henter
    refine ⟨_, hshows', ?_, rfl⟩
    refine (hgood.addData hfresh).addPage pid slot id ⟨id, paddr, pid, none⟩ hempty hdead rfl
      (.inl rfl) hrange (fun hm => absurd hm (hunmapped _ _)) (fun va hva => by cases hva) hfree
      (fun {x} hx => ?_) hw.roots rfl (fun x => ?_) rfl rfl hw.caps
    · change pol.allows paddr x (Function.update V.word paddr m.read paddr x)
      rw [Function.update_self]
      exact hwords paddr m halloc x hx
    · by_cases hx : x = id
      · rw [if_pos hx, hx]
        exact hself
      · rw [if_neg hx]
        exact hother x hx

/-! ## Sharing a page -/

/-- A page that is mapped for two processes, or none when a step fails. -/
theorem mapShared_good {pidA pidB rootA rootB : Nat} {full : Bool} {r : Except Nat Nat}
    {m m' : Usage} (hshows : Shows m V) (hgood : L.Good V) (hA : L.roots pidA = some rootA)
    (hB : L.roots pidB = some rootB) (hmap : mapShared m rootA rootB full = some (r, m')) :
    ((∃ e, r = .error e) ∧ InOrder V.inRange m' L) ∨
      ∃ page, r = .ok page ∧ ¬ V.data page ∧ rootA ≠ rootB ∧ V.leaf rootA (vpn shmVa) = 0 ∧
        V.leaf rootB (vpn shmVa) = 0 ∧
        Shows m' (((V.addData page fun _ => 0).setLeaf rootA (vpn shmVa)
          (pte page (mapFlags ||| pteU))).setLeaf rootB (vpn shmVa) (pte page (mapFlags ||| pteU))) := by
  unfold mapShared at hmap
  rcases halloc : m.allocPagesZeroed 0 with _ | ⟨_ | page, m₁⟩
  · simp [halloc] at hmap
  · simp only [halloc] at hmap
    cases hmap
    obtain ⟨-, rfl⟩ | ⟨page, heq, -⟩ := hshows.allocPagesZeroed halloc
    · exact .inl ⟨⟨_, rfl⟩, V, hshows, hgood, rfl⟩
    · cases heq
  obtain ⟨heq, -⟩ | ⟨page', heq, hshows₁, hfresh⟩ := hshows.allocPagesZeroed halloc
  · cases heq
  cases heq
  simp only [halloc] at hmap
  obtain ⟨hunmapped, hfree, -⟩ := fresh_page hshows₁ hgood hfresh
  have hgood₁ : L.Good (V.addData page fun _ => 0) := hgood.addData hfresh
  have huser : User (pte page (mapFlags ||| pteU)) := user_pte.mpr (by decide)
  -- When all leaves are undone the page is held, mapped nowhere and named nowhere.
  have hgive : ∀ {m₂ V₂}, Shows m₂ V₂ → { V₂ with leaf := V.leaf } = V.addData page (fun _ => 0) →
      V₂.leaf = V.leaf → (m₂.freePages page).discard = some m' → InOrder V.inRange m' L := by
    intro m₂ V₂ hshows₂ heq hleaf hfreed
    rw [← hleaf] at heq
    obtain rfl : V₂ = V.addData page fun _ => 0 := heq
    have hdone : InOrder (V.addData page fun _ => 0).inRange m' L :=
      giveBack_inOrder hshows₂ hgood₁ (.inl rfl) hunmapped hfree hfreed
    exact hdone
  rcases hmapA : mapUserPage m₁ rootA shmVa page mapFlags with _ | ⟨_ | _, m₂⟩
  · simp [hmapA] at hmap
  · simp only [hmapA] at hmap
    obtain ⟨hfreed, rfl⟩ := Outcome.failAfter_eq_some hmap
    obtain ⟨-, hshows₂⟩ | ⟨heq, -⟩ := hshows₁.mapUserPage (hgood.root hA) (by decide) hmapA
    · exact .inl ⟨⟨_, rfl⟩, hgive hshows₂ rfl rfl hfreed⟩
    · cases heq
  obtain ⟨heq, -⟩ | ⟨-, hzeroA, hshows₂⟩ := hshows₁.mapUserPage (hgood.root hA) (by decide) hmapA
  · cases heq
  change V.leaf rootA (vpn shmVa) = 0 at hzeroA
  simp only [hmapA] at hmap
  rcases hmapB : mapUserPage m₂ rootB shmVa page mapFlags with _ | ⟨_ | _, m₃⟩
  · simp [hmapB] at hmap
  · simp only [hmapB] at hmap
    obtain ⟨hundone, rfl⟩ := Outcome.failAfter_eq_some hmap
    obtain ⟨m₄, hunmapA, hfreed⟩ := Option.bind_eq_some_iff.mp hundone
    obtain ⟨-, hshows₃⟩ | ⟨heq, -⟩ := hshows₂.mapUserPage (hgood.root hB) (by decide) hmapB
    · have hshows₄ := hshows₃.unmapUser (hgood.root hA) (by rwa [View.leaf_setLeaf_self]) hunmapA
      refine .inl ⟨⟨_, rfl⟩, hgive hshows₄ rfl ?_ hfreed⟩
      exact View.leaf_undo hzeroA
    · cases heq
  obtain ⟨heq, -⟩ | ⟨-, hzeroB, hshows₃⟩ := hshows₂.mapUserPage (hgood.root hB) (by decide) hmapB
  · cases heq
  have hne : rootA ≠ rootB := by
    rintro rfl
    rw [View.leaf_setLeaf_self] at hzeroB
    rw [hzeroB] at huser
    exact not_user_zero huser
  rw [View.leaf_setLeaf_of_ne hne.symm] at hzeroB
  change V.leaf rootB (vpn shmVa) = 0 at hzeroB
  simp only [hmapB] at hmap
  split at hmap
  · obtain ⟨hundone, rfl⟩ := Outcome.failAfter_eq_some hmap
    obtain ⟨m₄, hunmapA, hrest⟩ := Option.bind_eq_some_iff.mp hundone
    obtain ⟨m₅, hunmapB, hfreed⟩ := Option.bind_eq_some_iff.mp hrest
    have hshows₄ := hshows₃.unmapUser (hgood.root hA)
      (by rwa [View.leaf_setLeaf_of_ne hne, View.leaf_setLeaf_self]) hunmapA
    have hshows₅ := hshows₄.unmapUser (hgood.root hB)
      (by rwa [View.leaf_setLeaf_of_ne hne.symm, View.leaf_setLeaf_self]) hunmapB
    refine .inl ⟨⟨_, rfl⟩, hgive hshows₅ rfl ?_ hfreed⟩
    funext r n
    dsimp only [View.setLeaf]
    by_cases hatB : r = rootB ∧ n = vpn shmVa
    · rw [if_pos hatB, hatB.1, hatB.2, hzeroB]
    · by_cases hatA : r = rootA ∧ n = vpn shmVa
      · rw [if_neg hatB, if_pos hatA, hatA.1, hatA.2, hzeroA]
      · rw [if_neg hatB, if_neg hatA, if_neg hatB, if_neg hatA]
        rfl
  · cases hmap
    exact .inr ⟨page, rfl, hfresh, hne, hzeroA, hzeroB, hshows₃⟩

section

variable (h : InOrder range k.mem (k.ledger pol))
include h

/-- Sharing keeps the discipline. The slot of the caller is not recorded for another shared page,
since it held the capability for the peer, and neither is a slot of the peer, for which nothing was
mapped at `shmVa`. -/
theorem mmapShare_inOrder {caller aSlot bSlot len : Nat} {r : Except Nat Nat} (hk : k.Sound)
    (hfixed : pol.fixed (vpn shmVa) → pol.kernel (vpn shmVa) ≠ 0)
    (hwords : ∀ p x, ¬ k.Uses p → pol.allows p x 0)
    (hstep : k.mmapShare caller aSlot bSlot len = some (r, k')) :
    InOrder range k'.mem (k'.ledger pol) := by
  obtain ⟨V, hshows, hgood, rfl⟩ := h
  obtain ⟨m, rfl, rfl | ⟨peer, rootA, rootB, full, e, hpeer, hcaller, hmap⟩, -⟩ |
    ⟨peer, rootA, rootB, paddr, m, id, shm, t₁, t₂, hcap, -, hpeer, hcaller, -, hmap, henter, hw₁,
      hw₂, rfl, rfl⟩ := mmapShare_cases hstep
  · exact ⟨V, hshows, hgood, rfl⟩
  · obtain ⟨-, hdone⟩ | ⟨page, heq, -⟩ := mapShared_good hshows hgood hcaller hpeer hmap
    · exact hdone
    · cases heq
  obtain ⟨⟨e, heq⟩, -⟩ | ⟨page, heq, hfresh, hne, hzeroA, hzeroB, hshows'⟩ :=
    mapShared_good hshows hgood hcaller hpeer hmap
  · cases heq
  cases heq
  have hrange : V.inRange paddr = true := hshows'.inRange_of_data (.inl rfl)
  obtain ⟨hunmapped, hfree⟩ := hgood.fresh hfresh hrange
  obtain ⟨hdead, hself, hother⟩ := hk.shm.entered (fun _ => rfl) henter
  have hva : ¬ pol.fixed (vpn shmVa) := not_fixed_of_zero hgood hfixed hcaller hzeroA
  have hidle : ∀ {p}, ¬ (k.ledger pol).Maps V peer shmVa p := by
    rintro p ⟨root, hroot, huser, -⟩
    cases hpeer.symm.trans hroot
    rw [hzeroB] at huser
    exact not_user_zero huser
  have hentry : ptePaddr (pte paddr (mapFlags ||| pteU)) = paddr :=
    hshows'.ptePaddr_of_data (.inl rfl) (by decide)
  refine ⟨_, hshows', ?_, rfl⟩
  refine (hgood.addData hfresh).share ⟨id, paddr, (caller, aSlot), (peer, bSlot)⟩ hcaller hpeer
    hzeroA ?_ hva (user_pte.mpr (by decide)) hentry (.inl rfl) hrange hunmapped hfree
    (fun {x} _ => ?_) hdead (fun {x sp} hsp => ?_) (hw₂.roots.trans hw₁.roots) (fun x => ?_) rfl rfl
    rfl fun q s => ?_
  · rwa [View.leaf_setLeaf_of_ne hne.symm]
  · change pol.allows paddr x (Function.update V.word paddr (fun _ => 0) paddr x)
    rw [Function.update_self]
    exact hwords paddr x fun hused => Ledger.not_used hunmapped hfree ((uses_iff hshows hgood).mp hused)
  · obtain ⟨hf, hs⟩ := hgood.slots hsp
    obtain ⟨hfirst, hsecond⟩ := hgood.shown hsp
    refine ⟨fun heq => ?_, fun heq => ?_, fun heq => ?_, fun heq => ?_⟩
    · rw [heq] at hf
      cases hcap.symm.trans hf
    · rw [heq] at hfirst
      exact hidle hfirst
    · rw [heq] at hs
      cases hcap.symm.trans hs
    · rw [heq] at hsecond
      exact hidle hsecond
  · by_cases hx : x = id
    · rw [if_pos hx, hx]
      exact hself
    · rw [if_neg hx]
      exact hother x hx
  · refine (hw₂.caps q s).trans ?_
    rw [hw₁.caps]
    simp only [Prod.mk.injEq]
    by_cases hB : q = peer ∧ s = bSlot
    · rw [if_pos hB, if_pos (.inr hB)]
    · rw [if_neg hB]
      by_cases hA : q = caller ∧ s = aSlot
      · rw [if_pos hA, if_pos (.inl hA)]
      · rw [if_neg hA, if_neg (not_or.mpr ⟨hA, hB⟩)]
        rfl

/-! ## Devices, processes and stores -/

theorem deviceMap_inOrder {caller devId va : Nat} {r : Except Nat Unit}
    (hfixed : pol.fixed (vpn va) → pol.kernel (vpn va) ≠ 0) (hout : range b.uartBase = false)
    (hlt : b.uartBase < 2 ^ 56) (hstep : k.deviceMap b caller devId va = some (r, k')) :
    InOrder range k'.mem (k'.ledger pol) := by
  obtain ⟨V, hshows, hgood, rfl⟩ := h
  obtain ⟨m, rfl, rfl | ⟨root, hroot, hmap⟩⟩ | ⟨root, m, -, -, hroot, hnone, hmap, -, rfl⟩ :=
    deviceMap_cases hstep
  · exact ⟨V, hshows, hgood, rfl⟩
  · obtain ⟨-, hshows'⟩ | ⟨heq, -⟩ := hshows.mapDevicePage (hgood.root hroot) (by decide) hmap
    · exact ⟨V, hshows', hgood, rfl⟩
    · cases heq
  obtain ⟨heq, -⟩ | ⟨-, haligned, hzero, hshows'⟩ :=
    hshows.mapDevicePage (hgood.root hroot) (by decide) hmap
  · cases heq
  refine ⟨_, hshows', ?_, rfl⟩
  refine hgood.claimDevice hroot hzero (not_fixed_of_zero hgood hfixed hroot hzero)
    (ptePaddr_pte haligned hlt (by decide)) hout (fun hdata => ?_) hnone rfl rfl rfl rfl ?_ rfl
  · rw [hshows.inRange_of_data hdata] at hout
    cases hout
  · simp [ledger]

theorem create_inOrder {r : Except Unit Nat} (hk : k.Sound)
    (hkernel : ∀ {n}, pol.fixed n → pol.kernel n = b.kernelMap n)
    (hstep : k.create b = some (r, k')) : InOrder range k'.mem (k'.ledger pol) := by
  obtain ⟨V, ⟨place, hsees⟩, hgood, rfl⟩ := h
  obtain ⟨m, rfl, -, rfl | hroot⟩ | ⟨root, m, hroot, hlive, -, rfl⟩ := create_cases hstep
  · exact ⟨V, ⟨place, hsees⟩, hgood, rfl⟩
  · obtain ⟨-, rfl⟩ | ⟨root, place', V', heq, -⟩ := hsees.createUserRoot hroot
    · exact ⟨V, ⟨place, hsees⟩, hgood, rfl⟩
    · cases heq
  obtain ⟨heq, -⟩ | ⟨root', place', V', heq, hnew, -, hsees', hgrows, hleaf⟩ := hsees.createUserRoot hroot
  · cases heq
  cases heq
  have henters : k.table.Enters (k.table.enter root).2 (k.table.enter root).1 root :=
    hk.table.enter hlive
  refine ⟨V', ⟨place', hsees'⟩, hgood.addProcess henters.fresh hnew hgrows (fun {n} hn => ?_)
    henters.caps henters.roots rfl rfl rfl rfl, hgrows.range⟩
  rw [hleaf]
  exact (hkernel hn).symm

theorem store_inOrder (va value : Nat)
    (hwords : ∀ p, k.UserMaps pid va p → k.mem.pageInRange p = true → ∀ x v, pol.allows p x v) :
    InOrder range (k.store pid va value).mem ((k.store pid va value).ledger pol) := by
  unfold store
  split
  · exact h
  · next root hroot =>
    dsimp only
    split
    · next hcheck =>
      obtain ⟨huser, -, hrange⟩ := hcheck
      obtain ⟨V, ⟨place, hsees⟩, hgood, rfl⟩ := h
      have hany := hwords _ ⟨root, hroot, huser, rfl⟩ hrange
      have hleaf := hsees.leaves (hgood.root hroot) va
      rw [hleaf] at huser hrange hany ⊢
      rw [hsees.range] at hrange
      have hdata := (hgood.at_ _).mapped ⟨root, hroot, huser, rfl⟩ hrange
      refine ⟨_, ⟨place, hsees.write hdata ?_⟩, hgood.setWord hany, rfl⟩
      unfold Usage.InPage pageSize
      omega
    · exact h

end

end State

end Ignium.Kernel
