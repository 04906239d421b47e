import Ignium.Kernel.Dangling

/-!
# Capabilities for pages

A page has one owner and one capability. `memGrant` and `capDuplicate` look at the slots they write
for this reason, while `connect`, `mmapShare`, `grantCap` and the revocation of a shared page write
slots without looking. `always_pageLaw_iff` says exactly which runs lose or strand a page.
-/

namespace Ignium.Kernel.State

open Mem Mmu

variable {k k' : State} {b : Board} {op : KernelOp}

/-- Every live page is named by one slot, of its owner, and no slot names a dead one. -/
structure PageLaw (k : State) : Prop where
  held : ∀ id rec, k.pageRecord id = some rec →
    ∃ slot, k.table.capAt rec.owner slot = some (.page id)
  unique : ∀ q s q' s' id, k.table.capAt q s = some (.page id) →
    k.table.capAt q' s' = some (.page id) → q = q' ∧ s = s'
  live : ∀ q s id, k.table.capAt q s = some (.page id) →
    ∃ rec, k.pageRecord id = some rec ∧ rec.owner = q

/-- The slots that a call writes without looking at what they hold. -/
def overwritten (k : State) : KernelOp → List (Nat × Nat)
  | .grantCap pid slot _ => [(pid, slot)]
  | .capDup pid src dst =>
    match (k.capDuplicate pid src dst).1 with
    | .ok _ => [(pid, dst)]
    | .error _ => []
  | .serviceConnect caller id clientSlot serverSlot =>
    match (k.connect caller id clientSlot serverSlot).1, k.lookup id with
    | .ok _, some server => [(caller, clientSlot), (server, serverSlot)]
    | _, _ => []
  | .shmMap caller aSlot bSlot len =>
    match k.mmapShare caller aSlot bSlot len, k.table.capAt caller aSlot with
    | some (.ok _, _), some (.proc peer) => [(caller, aSlot), (peer, bSlot)]
    | _, _ => []
  | _ => []

/-- An operation writes a slot without looking: a call does, or the revocation of a shared page
empties a slot that its record names. -/
def Overwrites (k : State) (op : KernelOp) (q s : Nat) : Prop :=
  (q, s) ∈ k.overwritten op ∨ (k.Recorded (k.revokedIds op) q s ∧ Survives op q)

/-- The page of a capability that is given up can be released. -/
def Releases (k : State) (op : KernelOp) : Prop :=
  ∀ caller slot id k', op = .capRevoke caller slot →
    k.table.capAt caller slot = some (.page id) → k.pagesRevoke id ≠ some (.error (), k')

/-- An operation overwrites no capability for a page, and releases the page it revokes. -/
def SparesPages (k : State) (op : KernelOp) : Prop :=
  (∀ q s id, k.Overwrites op q s → k.table.capAt q s ≠ some (.page id)) ∧ k.Releases op

/-! ## Operations that leave pages alone -/

/-- The same slots name the same pages, and the pages have the same owners. -/
structure SamePages (k k' : State) : Prop where
  caps : ∀ q s id, k'.table.capAt q s = some (.page id) ↔ k.table.capAt q s = some (.page id)
  owners : ∀ id, (k'.pageRecord id).map PageRecord.owner = (k.pageRecord id).map PageRecord.owner

theorem SamePages.of_capAt (hcaps : k'.table.capAt = k.table.capAt) (hpages : k'.pages = k.pages) :
    SamePages k k' := by
  refine ⟨fun q s id => ?_, fun id => ?_⟩
  · rw [hcaps]
  · rw [pageRecord, pageRecord, hpages]

theorem PageLaw.same (h : PageLaw k) (hsame : SamePages k k') : PageLaw k' := by
  -- A live record before has a live record after with the same owner, and the other way round.
  have howner : ∀ id rec, k'.pageRecord id = some rec →
      ∃ rec₀, k.pageRecord id = some rec₀ ∧ rec₀.owner = rec.owner := by
    intro id rec hrec
    have heq := hsame.owners id
    rw [hrec] at heq
    exact Option.map_eq_some_iff.mp heq.symm
  refine ⟨fun id rec hrec => ?_, fun q s q' s' id h₁ h₂ => ?_, fun q s id hcap => ?_⟩
  · obtain ⟨rec₀, hrec₀, heq⟩ := howner id rec hrec
    obtain ⟨slot, hslot⟩ := h.held id rec₀ hrec₀
    refine ⟨slot, (hsame.caps _ _ _).mpr ?_⟩
    rw [← heq, hslot]
  · exact h.unique q s q' s' id ((hsame.caps _ _ _).mp h₁) ((hsame.caps _ _ _).mp h₂)
  · obtain ⟨rec₀, hrec₀, rfl⟩ := h.live q s id ((hsame.caps _ _ _).mp hcap)
    have heq := hsame.owners id
    rw [hrec₀] at heq
    exact Option.map_eq_some_iff.mp heq

/-- A page whose only slot is overwritten is lost. -/
theorem PageLaw.lost {q s id : Nat} (h : PageLaw k) (hcap : k.table.capAt q s = some (.page id))
    (hrec : k'.pageRecord id = k.pageRecord id)
    (hcaps : ∀ q' s', k'.table.capAt q' s' = some (.page id) →
      k.table.capAt q' s' = some (.page id))
    (hgone : k'.table.capAt q s ≠ some (.page id)) : ¬ PageLaw k' := by
  intro hlaw
  obtain ⟨rec, hlive, -⟩ := h.live q s id hcap
  obtain ⟨slot, hslot⟩ := hlaw.held id rec (hrec.trans hlive)
  obtain ⟨rfl, rfl⟩ := h.unique q s rec.owner slot id hcap (hcaps _ _ hslot)
  exact hgone hslot

/-! ## Slots that are written without looking -/

/-- Going from `t` to `t'` wrote the slots in `written`, none with a capability for a page. -/
structure Stamps (t t' : ProcessTable) (written : Nat → Nat → Prop) : Prop where
  caps : ∀ q s id, written q s → t'.capAt q s ≠ some (.page id)
  kept : ∀ q s, ¬ written q s → t'.capAt q s = t.capAt q s

theorem Stamps.of_writes {t t' : ProcessTable} {pid slot : Nat} {cap : Option Cap}
    (hw : t.Writes t' pid slot cap) (hcap : ∀ id, cap ≠ some (.page id)) :
    Stamps t t' fun q s => q = pid ∧ s = slot := by
  refine ⟨fun q s id hwritten => ?_, fun q s hwritten => ?_⟩
  · rw [hw.caps, if_pos hwritten]
    exact hcap id
  · rw [hw.caps, if_neg hwritten]

theorem Stamps.or {t t₁ t' : ProcessTable} {w₁ w₂ : Nat → Nat → Prop} (h₁ : Stamps t t₁ w₁)
    (h₂ : Stamps t₁ t' w₂) : Stamps t t' fun q s => w₁ q s ∨ w₂ q s := by
  refine ⟨fun q s id hwritten => ?_, fun q s hwritten => ?_⟩
  · by_cases hsecond : w₂ q s
    · exact h₂.caps q s id hsecond
    · rw [h₂.kept q s hsecond]
      exact h₁.caps q s id (hwritten.resolve_right hsecond)
  · rw [not_or] at hwritten
    rw [h₂.kept q s hwritten.2, h₁.kept q s hwritten.1]

theorem Stamps.congr {t t' : ProcessTable} {w₁ w₂ : Nat → Nat → Prop} (h : Stamps t t' w₁)
    (hiff : ∀ q s, w₂ q s ↔ w₁ q s) : Stamps t t' w₂ :=
  ⟨fun q s id hw => h.caps q s id ((hiff q s).mp hw),
    fun q s hw => h.kept q s fun hw₁ => hw ((hiff q s).mpr hw₁)⟩

theorem Stamps.refl (t : ProcessTable) : Stamps t t fun _ _ => False :=
  ⟨fun _ _ _ h => h.elim, fun _ _ _ => rfl⟩

theorem SamePages.of_stamps {written : Nat → Nat → Prop}
    (h : Stamps k.table k'.table written) (hpages : k'.pages = k.pages)
    (hspared : ∀ q s id, written q s → k.table.capAt q s ≠ some (.page id)) : SamePages k k' := by
  refine ⟨fun q s id => ?_, fun id => ?_⟩
  · by_cases hwritten : written q s
    · exact ⟨fun hq => absurd hq (h.caps q s id hwritten),
        fun hq => absurd hq (hspared q s id hwritten)⟩
    · rw [h.kept q s hwritten]
  · rw [pageRecord, pageRecord, hpages]

theorem PageLaw.stamps {written : Nat → Nat → Prop} {q s id : Nat} (hlaw : PageLaw k)
    (h : Stamps k.table k'.table written) (hpages : k'.pages = k.pages) (hwritten : written q s)
    (hcap : k.table.capAt q s = some (.page id)) : ¬ PageLaw k' := by
  refine hlaw.lost hcap ?_ ?_ (h.caps q s id hwritten)
  · rw [pageRecord, pageRecord, hpages]
  · intro q' s' hcap'
    by_cases hwritten' : written q' s'
    · exact absurd hcap' (h.caps q' s' id hwritten')
    · rwa [← h.kept q' s' hwritten']

theorem Revoked.stamps {ids : List Nat} (h : Revoked k k' ids) :
    Stamps k.table k'.table (k.Recorded ids) := by
  refine ⟨fun q s id hrec => ?_, h.kept⟩
  rw [h.cleared q s hrec]
  simp

/-- An operation writes the slots that it overwrites, and nothing else of what pages depend on. -/
def Stamped (k k' : State) (op : KernelOp) : Prop :=
  Stamps k.table k'.table (k.Overwrites op) ∧ k'.pages = k.pages

theorem overwrites_iff {slots : List (Nat × Nat)} (hslots : k.overwritten op = slots)
    (hids : k.revokedIds op = []) (q s : Nat) : k.Overwrites op q s ↔ (q, s) ∈ slots := by
  unfold Overwrites
  rw [hslots, hids]
  have hnone := not_recorded_nil k q s
  tauto

theorem stamped_grantCap (k : State) (pid slot target : Nat) :
    Stamped k { k with table := (k.table.grantCap pid slot target).2 }
      (.grantCap pid slot target) := by
  have hslots : k.overwritten (.grantCap pid slot target) = [(pid, slot)] := rfl
  have hiff := overwrites_iff hslots rfl
  refine ⟨?_, rfl⟩
  unfold ProcessTable.grantCap
  obtain ⟨e, heq, hfail⟩ | ⟨t, heq, -, hw⟩ :=
    ProcessTable.grantTypedCap_cases k.table pid slot (.proc target)
  · -- The slot does not exist, so there is nothing in it.
    rw [heq]
    refine ⟨fun q s id hwritten => ?_, fun _ _ _ => rfl⟩
    obtain ⟨rfl, rfl⟩ : q = pid ∧ s = slot := by simpa [hiff] using hwritten
    have hnone : k.table.capAt q s = none := by
      rcases hfail with hdead | hout
      · exact ProcessTable.capAt_of_pidRoot hdead
      · rw [ProcessTable.capAt, dif_neg (Nat.not_lt.mpr hout)]
    change k.table.capAt q s ≠ _
    rw [hnone]
    simp
  · rw [heq]
    exact (Stamps.of_writes hw (by simp)).congr fun q s => by simp [hiff]

theorem stamped_capDuplicate (k : State) (pid src dst : Nat) :
    Stamped k (k.capDuplicate pid src dst).2 (.capDup pid src dst) := by
  obtain ⟨e, heq⟩ | ⟨t, cap, heq, -, -, hcap, hw⟩ :=
    ProcessTable.capDuplicate_cases k.table pid src dst
  · have hslots : k.overwritten (.capDup pid src dst) = [] := by
      simp [overwritten, capDuplicate, heq]
    have hiff := overwrites_iff hslots rfl
    simp only [capDuplicate, heq]
    exact ⟨(Stamps.refl k.table).congr fun q s => by simp [hiff], rfl⟩
  · have hslots : k.overwritten (.capDup pid src dst) = [(pid, dst)] := by
      simp [overwritten, capDuplicate, heq]
    have hiff := overwrites_iff hslots rfl
    simp only [capDuplicate, heq]
    exact ⟨(Stamps.of_writes hw (by simpa using hcap)).congr fun q s => by simp [hiff], rfl⟩

theorem stamped_connect (h : k.Served) (caller id clientSlot serverSlot : Nat) :
    Stamped k (k.connect caller id clientSlot serverSlot).2
      (.serviceConnect caller id clientSlot serverSlot) := by
  obtain ⟨e, heq⟩ | ⟨server, t, e, hlookup, hdead, -⟩ |
    ⟨server, t₁, t₂, hlookup, -, -, -, hw₁, hw₂, heq⟩ :=
      connect_cases k caller id clientSlot serverSlot
  · have hslots : k.overwritten (.serviceConnect caller id clientSlot serverSlot) = [] := by
      simp [overwritten, heq]
    have hiff := overwrites_iff hslots rfl
    rw [heq]
    exact ⟨(Stamps.refl k.table).congr fun q s => by simp [hiff], rfl⟩
  · exact absurd hdead (h.lookup hlookup)
  · have hslots : k.overwritten (.serviceConnect caller id clientSlot serverSlot) =
        [(caller, clientSlot), (server, serverSlot)] := by
      simp [overwritten, heq, hlookup]
    have hiff := overwrites_iff hslots rfl
    have hstamps := (Stamps.of_writes hw₁ (by simp)).or (Stamps.of_writes hw₂ (by simp))
    rw [heq]
    exact ⟨hstamps.congr fun q s => by simp [hiff], rfl⟩

theorem stamped_mmapShare {caller aSlot bSlot len : Nat} {r : Except Nat Nat}
    (h : k.mmapShare caller aSlot bSlot len = some (r, k')) :
    Stamped k k' (.shmMap caller aSlot bSlot len) := by
  obtain ⟨m, rfl, -, e, rfl⟩ | ⟨peer, rootA, rootB, paddr, m, id, shm, t₁, t₂, hcap, -, -, -, -, -,
    -, hw₁, hw₂, rfl, rfl⟩ := mmapShare_cases h
  · have hslots : k.overwritten (.shmMap caller aSlot bSlot len) = [] := by
      simp [overwritten, h]
    have hiff := overwrites_iff hslots rfl
    exact ⟨(Stamps.refl k.table).congr fun q s => by simp [hiff], rfl⟩
  · have hslots : k.overwritten (.shmMap caller aSlot bSlot len) =
        [(caller, aSlot), (peer, bSlot)] := by
      simp [overwritten, h, hcap]
    have hiff := overwrites_iff hslots rfl
    have hstamps := (Stamps.of_writes hw₁ (by simp)).or (Stamps.of_writes hw₂ (by simp))
    exact ⟨hstamps.congr fun q s => by simp [hiff], rfl⟩

theorem PageLaw.stamped (h : PageLaw k) (hstamped : Stamped k k' op) (hspares : SparesPages k op) :
    PageLaw k' :=
  h.same (SamePages.of_stamps hstamped.1 hstamped.2 hspares.1)

theorem PageLaw.not_of_stamped (h : PageLaw k) (hstamped : Stamped k k' op)
    (hreleases : k.Releases op) (hbad : ¬ SparesPages k op) : ¬ PageLaw k' := by
  intro hlaw
  refine hbad ⟨fun q s id hwritten hcap => ?_, hreleases⟩
  exact h.stamps hstamped.1 hstamped.2 hwritten hcap hlaw

/-! ## Operations on pages -/

/-- A record enters with the slot that names it. -/
theorem PageLaw.grantPage {pid slot : Nat} (h : PageLaw k) (hk : k.Sound)
    (hstep : k.grantPage pid slot = some k') : PageLaw k' := by
  obtain ⟨m, rfl, -⟩ | ⟨paddr, m, id, pages, t, hempty, -, -, -, henter, hw, rfl⟩ :=
    grantPage_cases hstep
  · exact h.same (SamePages.of_capAt rfl rfl)
  obtain ⟨hfresh, hnew, hother⟩ := hk.pages.entered (fun i => rfl) henter
  -- No slot names the fresh id yet, since its record was dead.
  have hunnamed : ∀ q s, k.table.capAt q s ≠ some (.page id) := by
    intro q s hcap
    obtain ⟨rec, hrec, -⟩ := h.live q s id hcap
    rw [pageRecord, hfresh] at hrec
    cases hrec
  have hold : ∀ {q s other}, t.capAt q s = some (.page other) →
      (q = pid ∧ s = slot ∧ other = id) ∨ k.table.capAt q s = some (.page other) := by
    intro q s other hcap
    obtain ⟨rfl, rfl, heq⟩ | hcap := capAt_of_writes hw hcap
    · cases heq
      exact .inl ⟨rfl, rfl, rfl⟩
    · exact .inr hcap
  refine ⟨fun other rec hrec => ?_, fun q s q' s' other h₁ h₂ => ?_, fun q s other hcap => ?_⟩
  · by_cases hid : other = id
    · subst hid
      obtain rfl := Option.some.inj (hnew.symm.trans hrec)
      exact ⟨slot, by rw [hw.caps, if_pos ⟨rfl, rfl⟩]⟩
    · obtain ⟨s, hs⟩ := h.held other rec ((hother other hid).symm.trans hrec)
      refine ⟨s, ?_⟩
      rw [hw.caps, if_neg, hs]
      rintro ⟨hq, rfl⟩
      rw [hq, hempty] at hs
      cases hs
  · obtain ⟨rfl, rfl, rfl⟩ | h₁ := hold h₁
    · obtain ⟨rfl, rfl, -⟩ | h₂ := hold h₂
      · exact ⟨rfl, rfl⟩
      · exact absurd h₂ (hunnamed q' s')
    · obtain ⟨rfl, rfl, rfl⟩ | h₂ := hold h₂
      · exact absurd h₁ (hunnamed q s)
      · exact h.unique q s q' s' other h₁ h₂
  · obtain ⟨rfl, rfl, rfl⟩ | hcap := hold hcap
    · exact ⟨_, hnew, rfl⟩
    · obtain ⟨rec, hrec, howner⟩ := h.live q s other hcap
      refine ⟨rec, (hother other ?_).trans hrec, howner⟩
      rintro rfl
      exact hunnamed q s hcap

/-- A capability moves together with the ownership. -/
theorem PageLaw.memGrant {caller srcSlot peerSlot dstSlot : Nat} {r : Except Nat Unit}
    (h : PageLaw k) (hstep : k.memGrant caller srcSlot peerSlot dstSlot = some (r, k')) :
    PageLaw k' := by
  obtain ⟨rfl, -⟩ | ⟨id, peer, rec, m, t₁, hsrc, -, -, -, hdst, hrec, -, hw, -, rfl⟩ := memGrant_cases hstep
  · exact h
  have hclear := t₁.writes_clearCap caller srcSlot
  have hne : ¬ (peer = caller ∧ dstSlot = srcSlot) := by
    rintro ⟨rfl, rfl⟩
    rw [hsrc] at hdst
    cases hdst
  have hcaps : ∀ q s other, (t₁.clearCap caller srcSlot).2.capAt q s = some (.page other) ↔
      (q = peer ∧ s = dstSlot ∧ other = id) ∨
        (other ≠ id ∧ k.table.capAt q s = some (.page other)) := by
    intro q s other
    rw [hclear.caps, hw.caps]
    by_cases hnew : q = peer ∧ s = dstSlot
    · obtain ⟨rfl, rfl⟩ := hnew
      rw [if_neg hne, if_pos ⟨rfl, rfl⟩]
      simp [hdst, eq_comm]
    · by_cases hold : q = caller ∧ s = srcSlot
      · obtain ⟨rfl, rfl⟩ := hold
        simp only [and_self, if_true, hsrc, Option.some.injEq, Cap.page.injEq, reduceCtorEq,
          false_iff]
        rintro (⟨hq, hs, -⟩ | ⟨hother, rfl⟩)
        · exact hnew ⟨hq, hs⟩
        · exact hother rfl
      · rw [if_neg hold, if_neg hnew]
        constructor
        · intro hcap
          refine .inr ⟨?_, hcap⟩
          rintro rfl
          exact hold (h.unique q s caller srcSlot other hcap hsrc)
        · rintro (⟨hq, hs, -⟩ | ⟨-, hcap⟩)
          · exact absurd ⟨hq, hs⟩ hnew
          · exact hcap
  have hput := get_putPage (r := { rec with owner := peer, mapVa := none }) hrec rfl
  refine ⟨fun other rec' hrec' => ?_, fun q s q' s' other h₁ h₂ => ?_, fun q s other hcap => ?_⟩
  · have hrec'' := (hput other).symm.trans hrec'
    split at hrec''
    · next heq =>
      cases hrec''
      exact ⟨dstSlot, (hcaps _ _ _).mpr (.inl ⟨rfl, rfl, heq⟩)⟩
    · next hother =>
      obtain ⟨s, hs⟩ := h.held other rec' hrec''
      exact ⟨s, (hcaps _ _ _).mpr (.inr ⟨hother, hs⟩)⟩
  · obtain ⟨rfl, rfl, rfl⟩ | ⟨hother, h₁⟩ := (hcaps q s other).mp h₁
    · obtain ⟨rfl, rfl, -⟩ | ⟨hother, -⟩ := (hcaps q' s' other).mp h₂
      · exact ⟨rfl, rfl⟩
      · exact absurd rfl hother
    · obtain ⟨-, -, heq⟩ | ⟨-, h₂⟩ := (hcaps q' s' other).mp h₂
      · exact absurd heq hother
      · exact h.unique q s q' s' other h₁ h₂
  · obtain ⟨rfl, rfl, rfl⟩ | ⟨hother, hcap⟩ := (hcaps q s other).mp hcap
    · exact ⟨_, (hput other).trans (if_pos rfl), rfl⟩
    · obtain ⟨rec', hrec', howner⟩ := h.live q s other hcap
      exact ⟨rec', (hput other).trans ((if_neg hother).trans hrec'), howner⟩

theorem samePages_memMap {caller slot va : Nat} {r : Except Nat Unit}
    (h : k.memMap caller slot va = some (r, k')) : SamePages k k' := by
  obtain ⟨m, rfl, -⟩ | ⟨id, rec, root, m, -, -, -, hrec, -, -, -, -, rfl⟩ := memMap_cases h
  · exact SamePages.of_capAt rfl rfl
  · refine ⟨fun q s other => Iff.rfl, fun other => ?_⟩
    have hput := get_putPage (r := { rec with mapVa := some va }) hrec rfl other
    rw [pageRecord, hput]
    split
    · next heq =>
      rw [heq, hrec]
      rfl
    · rfl

/-! ## Operations that revoke -/

/-- The slot and the record of a page that is given up go together. -/
theorem PageLaw.revokePage {k₁ : State} {pid slot id : Nat} (h : PageLaw k)
    (hcap : k.table.capAt pid slot = some (.page id)) (hrevoked : PagesRevoked k k₁ [id]) :
    PageLaw { k₁ with table := (k₁.table.clearCap pid slot).2 } := by
  have hclear := k₁.table.writes_clearCap pid slot
  rw [hrevoked.table] at hclear ⊢
  have hcaps : ∀ q s other, (k.table.clearCap pid slot).2.capAt q s = some (.page other) ↔
      other ≠ id ∧ k.table.capAt q s = some (.page other) := by
    intro q s other
    rw [hclear.caps]
    constructor
    · intro hq
      split at hq
      · cases hq
      · next hne =>
        refine ⟨?_, hq⟩
        rintro rfl
        exact hne (h.unique q s pid slot other hq hcap)
    · rintro ⟨hother, hq⟩
      rw [if_neg, hq]
      rintro ⟨rfl, rfl⟩
      rw [hcap] at hq
      cases hq
      exact hother rfl
  have hrecord : ∀ other, k₁.pageRecord other = if other = id then none else k.pageRecord other := by
    intro other
    rw [hrevoked.records]
    simp
  refine ⟨fun other rec hrec => ?_, fun q s q' s' other h₁ h₂ => ?_, fun q s other hq => ?_⟩
  · have hrec' := (hrecord other).symm.trans hrec
    split at hrec'
    · cases hrec'
    · next hother =>
      obtain ⟨s, hs⟩ := h.held other rec hrec'
      exact ⟨s, (hcaps _ _ _).mpr ⟨hother, hs⟩⟩
  · exact h.unique q s q' s' other ((hcaps _ _ _).mp h₁).2 ((hcaps _ _ _).mp h₂).2
  · obtain ⟨hother, hq⟩ := (hcaps _ _ _).mp hq
    obtain ⟨rec, hrec, howner⟩ := h.live q s other hq
    exact ⟨rec, (hrecord other).trans ((if_neg hother).trans hrec), howner⟩

/-- Giving up a capability keeps the law exactly when it spares pages. -/
theorem PageLaw.capRevoke_iff {caller slot : Nat} {r : Except CapError Unit} (h : PageLaw k)
    (hk : k.Sound) (hcall : k.capRevoke caller slot = some (r, k')) :
    PageLaw k' ↔ SparesPages k (.capRevoke caller slot) := by
  have hslots : k.overwritten (.capRevoke caller slot) = [] := rfl
  obtain ⟨hcap, rfl⟩ | ⟨id, r', hcap, hrevoke⟩ | ⟨q, hcap, rfl⟩ | ⟨id, r', k₁, hcap, hrevoke, hend⟩ :=
    capRevoke_cases hcall
  · have hiff := overwrites_iff hslots (by simp [revokedIds, hcap])
    refine ⟨fun _ => ⟨fun q s id hw => by simp [hiff] at hw, ?_⟩, fun _ => h⟩
    intro c s id k' heq hpage
    cases heq
    rw [hcap] at hpage
    cases hpage
  · have hids : k.revokedIds (.capRevoke caller slot) = [id] := by simp [revokedIds, hcap]
    have hone := revoked_shmRevoke hk hrevoke
    have hstamped : Stamped k k' (.capRevoke caller slot) := by
      refine ⟨hone.stamps.congr fun q s => ?_, hone.pages⟩
      unfold Overwrites
      rw [hids]
      simp [hslots, Survives]
    have hreleases : k.Releases (.capRevoke caller slot) := by
      intro c s id' k' heq hpage
      cases heq
      rw [hcap] at hpage
      cases hpage
    constructor
    · intro hlaw
      by_contra hbad
      exact h.not_of_stamped hstamped hreleases hbad hlaw
    · exact h.stamped hstamped
  · have hiff := overwrites_iff hslots (by simp [revokedIds, hcap])
    have hw := Stamps.of_writes (k.table.writes_clearCap caller slot) (by simp)
    refine ⟨fun _ => ⟨fun q s id hw => by simp [hiff] at hw, ?_⟩, fun _ => ?_⟩
    · intro c s id k' heq hpage
      cases heq
      rw [hcap] at hpage
      cases hpage
    · refine h.same (SamePages.of_stamps hw rfl ?_)
      rintro q' s id ⟨rfl, rfl⟩
      rw [hcap]
      simp
  · have hiff := overwrites_iff hslots (by simp [revokedIds, hcap])
    have hrevoked := pagesRevoked_pagesRevoke hk hrevoke
    obtain ⟨rfl, rfl⟩ | ⟨rfl, rfl⟩ := hend
    · -- The page could not be released: its record is dead and its slot still names it.
      refine ⟨fun hlaw => ?_, fun hspares => absurd hrevoke (hspares.2 _ _ _ _ rfl hcap)⟩
      have hstill : k'.table.capAt caller slot = some (.page id) := by rw [hrevoked.table, hcap]
      obtain ⟨rec, hrec, -⟩ := hlaw.live _ _ _ hstill
      rw [hrevoked.records, if_pos (by simp)] at hrec
      cases hrec
    · refine ⟨fun _ => ⟨fun q s id hw => by simp [hiff] at hw, ?_⟩,
        fun _ => h.revokePage hcap hrevoked⟩
      intro c s id' k'' heq hpage herror
      cases heq
      rw [hcap] at hpage
      cases hpage
      rw [hrevoke] at herror
      cases herror

/-- What destroying a live process does to slots and pages. -/
theorem destroy_pages {pid : Nat} {p : Process} (hk : k.Sound) (hp : k.table.get pid = some p)
    (hstep : k.destroy pid = some k') :
    (∀ q s, k.Recorded (shmIds p) q s ∨ q = pid → k'.table.capAt q s = none) ∧
      (∀ q s, ¬ k.Recorded (shmIds p) q s → q ≠ pid → k'.table.capAt q s = k.table.capAt q s) ∧
      ∀ id, k'.pageRecord id = if id ∈ pageIds p then none else k.pageRecord id := by
  obtain ⟨hdead, -⟩ | ⟨p', k₁, k₂, root, table, m, hp', -, -, h₁, h₂, hretire, -, rfl⟩ :=
    destroy_cases hk hstep
  · rw [hp] at hdead
    cases hdead
  obtain rfl := Option.some.inj (hp.symm.trans hp')
  have hgone := (h₂.sound.table.retire hretire).2
  have hcaps : ∀ q s, table.capAt q s = if q = pid then none else k₁.table.capAt q s := by
    intro q s
    rw [hgone.caps, h₂.table]
  refine ⟨fun q s hwritten => ?_, fun q s hrec hq => ?_, fun id => ?_⟩
  · refine (hcaps q s).trans ?_
    split
    · rfl
    · next hq => exact h₁.cleared q s (hwritten.resolve_right hq)
  · refine (hcaps q s).trans ?_
    rw [if_neg hq, h₁.kept q s hrec]
  · refine (h₂.records id).trans ?_
    rw [pageRecord, pageRecord, h₁.pages]

/-- Destroying a process keeps the law exactly when it spares the pages of the others. -/
theorem PageLaw.destroy_iff {pid : Nat} (h : PageLaw k) (hk : k.Sound)
    (hstep : k.destroy pid = some k') : PageLaw k' ↔ SparesPages k (.destroy pid) := by
  have hslots : k.overwritten (.destroy pid) = [] := rfl
  have hreleases : k.Releases (.destroy pid) := by
    intro c s id k' heq
    cases heq
  rcases hp : k.table.get pid with _ | p
  · obtain ⟨-, rfl⟩ | ⟨p, _, _, _, _, _, hp', -⟩ := destroy_cases hk hstep
    · have hiff := overwrites_iff hslots (by simp [revokedIds, hp])
      exact ⟨fun _ => ⟨fun q s id hw => by simp [hiff] at hw, hreleases⟩, fun _ => h⟩
    · rw [hp] at hp'
      cases hp'
  obtain ⟨hcleared, hkept, hrecord⟩ := destroy_pages hk hp hstep
  have hoverwrites : ∀ q s, k.Overwrites (.destroy pid) q s ↔
      k.Recorded (shmIds p) q s ∧ q ≠ pid := by
    intro q s
    simp [Overwrites, hslots, revokedIds, hp, Survives]
  have hcaps : ∀ q s id, k'.table.capAt q s = some (.page id) →
      k.table.capAt q s = some (.page id) ∧ q ≠ pid := by
    intro q s id hcap
    have hq : ¬ (k.Recorded (shmIds p) q s ∨ q = pid) := by
      intro hwritten
      rw [hcleared q s hwritten] at hcap
      cases hcap
    rw [not_or] at hq
    rw [hkept q s hq.1 hq.2] at hcap
    exact ⟨hcap, hq.2⟩
  -- A page that another process has is not among those that go.
  have hother : ∀ q s id, k.table.capAt q s = some (.page id) → q ≠ pid → id ∉ pageIds p := by
    intro q s id hcap hq hmem
    obtain ⟨slot, hslot⟩ := (mem_pageIds hp).mp hmem
    exact hq (h.unique q s pid slot id hcap hslot).1
  constructor
  · intro hlaw
    refine ⟨fun q s id hwritten hcap => ?_, hreleases⟩
    rw [hoverwrites] at hwritten
    refine h.lost hcap ?_ (fun q' s' hcap' => (hcaps q' s' id hcap').1) ?_ hlaw
    · rw [hrecord, if_neg (hother q s id hcap hwritten.2)]
    · rw [hcleared q s (.inl hwritten.1)]
      simp
  · intro hspares
    refine ⟨fun id rec hrec => ?_, fun q s q' s' id h₁ h₂ => ?_, fun q s id hcap => ?_⟩
    · rw [hrecord] at hrec
      split at hrec
      · cases hrec
      · next hid =>
        obtain ⟨slot, hslot⟩ := h.held id rec hrec
        have hq : rec.owner ≠ pid := by
          intro heq
          rw [heq] at hslot
          exact hid ((mem_pageIds hp).mpr ⟨slot, hslot⟩)
        refine ⟨slot, ?_⟩
        rw [hkept _ _ (fun hrec' => ?_) hq, hslot]
        exact hspares.1 _ _ id ((hoverwrites _ _).mpr ⟨hrec', hq⟩) hslot
    · exact h.unique q s q' s' id (hcaps _ _ _ h₁).1 (hcaps _ _ _ h₂).1
    · obtain ⟨hcap, hq⟩ := hcaps q s id hcap
      obtain ⟨rec, hrec, howner⟩ := h.live q s id hcap
      exact ⟨rec, by rw [hrecord, if_neg (hother q s id hcap hq), hrec], howner⟩

/-! ## Whole runs -/

/-- An operation that overwrites and revokes nothing spares pages. -/
theorem sparesPages_of_nil (hslots : k.overwritten op = []) (hids : k.revokedIds op = [])
    (hop : ∀ caller slot, op ≠ .capRevoke caller slot) : SparesPages k op := by
  refine ⟨fun q s id hwritten => ?_, fun caller slot id k' heq => absurd heq (hop caller slot)⟩
  rw [overwrites_iff hslots hids] at hwritten
  simp at hwritten

theorem PageLaw.iff_of_stamped (h : PageLaw k) (hstamped : Stamped k k' op)
    (hop : ∀ caller slot, op ≠ .capRevoke caller slot) : PageLaw k' ↔ SparesPages k op := by
  have hreleases : k.Releases op := fun caller slot id k' heq => absurd heq (hop caller slot)
  constructor
  · intro hlaw
    by_contra hbad
    exact h.not_of_stamped hstamped hreleases hbad hlaw
  · exact h.stamped hstamped

/-- One operation keeps the law exactly when it spares pages. -/
theorem PageLaw.step_iff (h : PageLaw k) (hk : k.Sound) (hserved : k.Served)
    (hstep : k.step b op = some k') : PageLaw k' ↔ SparesPages k op := by
  -- Most operations overwrite nothing, so that only the law is to be shown.
  have hquiet : k.overwritten op = [] → k.revokedIds op = [] →
      (∀ caller slot, op ≠ .capRevoke caller slot) → PageLaw k' →
      (PageLaw k' ↔ SparesPages k op) := fun hslots hids hop hlaw =>
    ⟨fun _ => sparesPages_of_nil hslots hids hop, fun _ => hlaw⟩
  cases op with
  | create =>
    obtain ⟨r, hcall⟩ := Outcome.discard_eq_some hstep
    refine hquiet rfl rfl (by simp) ?_
    obtain ⟨m, rfl, -⟩ | ⟨root, m, -, hlive, -, rfl⟩ := create_cases hcall
    · exact h.same (SamePages.of_capAt rfl rfl)
    · exact h.same (SamePages.of_capAt (hk.table.enter hlive).caps rfl)
  | destroy pid => exact h.destroy_iff hk hstep
  | grantCap pid slot target =>
    cases hstep
    exact h.iff_of_stamped (stamped_grantCap k pid slot target) (by simp)
  | grantPage pid slot => exact hquiet rfl rfl (by simp) (h.grantPage hk hstep)
  | shmMap caller aSlot bSlot len =>
    obtain ⟨r, hcall⟩ := Outcome.discard_eq_some hstep
    exact h.iff_of_stamped (stamped_mmapShare hcall) (by simp)
  | capRevoke caller slot =>
    obtain ⟨r, hcall⟩ := Outcome.discard_eq_some hstep
    exact h.capRevoke_iff hk hcall
  | capDup caller src dst =>
    cases hstep
    exact h.iff_of_stamped (stamped_capDuplicate k caller src dst) (by simp)
  | serviceConnect caller id clientSlot serverSlot =>
    cases hstep
    exact h.iff_of_stamped (stamped_connect hserved caller id clientSlot serverSlot) (by simp)
  | memGrant caller srcSlot peerSlot dstSlot =>
    obtain ⟨r, hcall⟩ := Outcome.discard_eq_some hstep
    exact hquiet rfl rfl (by simp) (h.memGrant hcall)
  | memMap caller slot va =>
    obtain ⟨r, hcall⟩ := Outcome.discard_eq_some hstep
    exact hquiet rfl rfl (by simp) (h.same (samePages_memMap hcall))
  | load | serviceRegister | mapDevice | store =>
    obtain ⟨m, services, devices, rfl⟩ := step_aside rfl hstep
    exact hquiet rfl rfl (by simp) (h.same (SamePages.of_capAt rfl rfl))

/-- What is kept along runs that spare pages. -/
def PageInv (k : State) : Prop := k.Sound ∧ k.Served ∧ PageLaw k

/-- Every page has one capability in a slot of its owner exactly in the runs in which no operation
overwrites a capability for a page, and every page that is given up can be released. -/
theorem always_pageLaw_iff (b : Board) (mem : Usage) (ops : List KernelOp) :
    Machine.Always (step b) (boot mem) ops PageLaw ↔
      Machine.Each (step b) (boot mem) ops SparesPages := by
  have hcaps : ∀ q s cap, (boot mem).table.capAt q s ≠ some cap := by
    intro q s cap hcap
    rw [ProcessTable.capAt_of_dead rfl] at hcap
    cases hcap
  have hlaw : PageLaw (boot mem) := by
    refine ⟨fun id rec hrec => ?_, fun q s q' s' id hcap => absurd hcap (hcaps q s _),
      fun q s id hcap => absurd hcap (hcaps q s _)⟩
    cases hrec
  have hserved : (boot mem).Served := by
    intro slot entry hentry
    cases hentry
  have hboot : PageInv (boot mem) := ⟨sound_boot mem, hserved, hlaw⟩
  refine Machine.always_iff_each hboot (fun k hinv => hinv.2.2) ?_ ?_
  · intro k op k' hinv hstep hspares
    exact ⟨hinv.1.step hstep, hinv.2.1.step hinv.1 hstep,
      (hinv.2.2.step_iff hinv.1 hinv.2.1 hstep).mpr hspares⟩
  · intro k op k' hinv hstep hbad hlaw
    exact hbad ((hinv.2.2.step_iff hinv.1 hinv.2.1 hstep).mp hlaw)

set_option maxRecDepth 100000 in
/-- Connecting to a service overwrites the only capability of a page. -/
theorem not_pageLaw_connect :
    ¬ Machine.Always (step smallBoard) (boot smallMem)
      [.create, .create, .serviceRegister 1 1, .grantPage 0 0, .serviceConnect 0 1 0 0]
      PageLaw := by
  intro halways
  have heval : (Machine.run (step smallBoard) (boot smallMem)
      [.create, .create, .serviceRegister 1 1, .grantPage 0 0, .serviceConnect 0 1 0 0]).map
        (fun k => ((k.pageRecord 0).map PageRecord.owner,
          (List.range maxCaps).map (k.table.capAt 0))) =
      some (some 0, some (.proc 1) :: List.replicate 7 none) := by decide +kernel
  obtain ⟨k, hrun, hk⟩ := Option.map_eq_some_iff.mp heval
  obtain ⟨howner, hslots⟩ := Prod.mk.inj hk
  obtain ⟨rec, hrec, hzero⟩ := Option.map_eq_some_iff.mp howner
  obtain ⟨slot, hcap⟩ := (halways _ [] k (List.append_nil _).symm hrun).held 0 rec hrec
  rw [hzero] at hcap
  have hmem : some (.page 0) ∈ (List.range maxCaps).map (k.table.capAt 0) :=
    List.mem_map.mpr ⟨slot, List.mem_range.mpr (ProcessTable.slot_lt_of_capAt hcap), hcap⟩
  rw [hslots] at hmem
  simp at hmem

end Ignium.Kernel.State
