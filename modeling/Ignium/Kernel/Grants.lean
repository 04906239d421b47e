import Ignium.Kernel.Machine
import Ignium.Kernel.Effects
import Ignium.Lib.Interleave

/-!
# Concurrent grants

`mem_grant` checks the source slot, the peer and the target slot in sections of their own before it
moves the ownership, writes the target slot and clears the source slot in three more. Here any
number of these calls run at once, on any harts, and their sections interleave.

Two overlaps lose or double a page: two calls with one target slot both find it empty and the
second one overwrites what the first one wrote (`not_grantLaw_overwrite`), and two calls with one
source slot both move its page. `Separate` excludes them section by section. `always_grantLaw` says
that in the remaining interleavings every page that one slot held is held by one slot of its
recorded owner once all calls have returned, and `State.memGrant_alone` that a call which runs alone
does what `memGrant` does.
-/

namespace Ignium.Kernel

open Mem Mmu Interleave

/-- The next section of a call of `mem_grant`, with what the call knows by then. -/
inductive GrantStage where
  | readSource
  | readPeer (id : Nat)
  | checkPeer (id peer : Nat)
  | checkSlot (id peer : Nat)
  | moveOwner (id peer : Nat)
  | writeSlot (id peer : Nat)
  | undoOwner (id : Nat)
  | clearSource (id peer : Nat)
  | done (result : Except Nat Unit)

/-- A call has returned. -/
def GrantStage.isDone : GrantStage → Bool
  | .done _ => true
  | _ => false

/-- The arguments of a call. -/
structure GrantArgs where
  caller : Nat
  srcSlot : Nat
  peerSlot : Nat
  dstSlot : Nat
  deriving DecidableEq, Repr

/-- A call: its arguments and where it is. -/
structure GrantCall extends GrantArgs where
  stage : GrantStage

namespace GrantCall

/-- A call before its first section. -/
def enter (args : GrantArgs) : GrantCall := ⟨args, .readSource⟩

/-- The next section of a call: where the call goes, and what it does to the kernel. -/
def act (c : GrantCall) (k : State) : Option (GrantStage × State) :=
  match c.stage with
  | .readSource =>
    match k.table.capTarget c.caller c.srcSlot with
    | .ok (.page id) => some (.readPeer id, k)
    | .ok _ => some (.done (.error (capErrno .wrongType)), k)
    | .error e => some (.done (.error (capErrno e)), k)
  | .readPeer id =>
    match k.table.capTarget c.caller c.peerSlot with
    | .ok (.proc peer) => some (.checkPeer id peer, k)
    | .ok _ => some (.done (.error (capErrno .wrongType)), k)
    | .error e => some (.done (.error (capErrno e)), k)
  | .checkPeer id peer =>
    if k.table.pidRoot peer = none then some (.done (.error sysErrEacces), k)
    else some (.checkSlot id peer, k)
  | .checkSlot id peer =>
    if c.dstSlot ≥ maxCaps then some (.done (.error sysErrEinval), k)
    else
      match k.table.capTarget peer c.dstSlot with
      | .ok _ => some (.done (.error sysErrEexist), k)
      | .error .invalidSlot => some (.done (.error sysErrEinval), k)
      | .error _ => some (.moveOwner id peer, k)
  | .moveOwner id peer =>
    match k.pagesGrant id peer with
    | none => none
    | some (.error _, k) => some (.done (.error sysErrEnoent), k)
    | some (.ok _, k) => some (.writeSlot id peer, k)
  | .writeSlot id peer =>
    match k.table.grantTypedCap peer c.dstSlot (.page id) with
    | (.error _, _) => some (.undoOwner id, k)
    | (.ok _, table) => some (.clearSource id peer, { k with table := table })
  | .undoOwner id =>
    (k.pagesGrant id c.caller).discard.map fun k => (.done (.error sysErrEexist), k)
  | .clearSource _ _ =>
    some (.done (.ok ()), { k with table := (k.table.clearCap c.caller c.srcSlot).2 })
  | .done _ => none

/-- Run the next section. -/
def next (c : GrantCall) (k : State) : Option (GrantCall × State) :=
  (c.act k).map fun r => ({ c with stage := r.1 }, r.2)

/-- The call has moved the ownership and is not done. -/
def Moving (c : GrantCall) : Prop :=
  match c.stage with
  | .writeSlot _ _ => True
  | .undoOwner _ => True
  | .clearSource _ _ => True
  | _ => False

instance (c : GrantCall) : Decidable c.Moving :=
  match c with
  | ⟨_, .writeSlot _ _⟩ => isTrue trivial
  | ⟨_, .undoOwner _⟩ => isTrue trivial
  | ⟨_, .clearSource _ _⟩ => isTrue trivial
  | ⟨_, .readSource⟩ => isFalse fun h => h
  | ⟨_, .readPeer _⟩ => isFalse fun h => h
  | ⟨_, .checkPeer _ _⟩ => isFalse fun h => h
  | ⟨_, .checkSlot _ _⟩ => isFalse fun h => h
  | ⟨_, .moveOwner _ _⟩ => isFalse fun h => h
  | ⟨_, .done _⟩ => isFalse fun h => h

/-- Two calls have the same source slot. -/
def SameSource (c d : GrantCall) : Prop := c.caller = d.caller ∧ c.srcSlot = d.srcSlot

instance (c d : GrantCall) : Decidable (c.SameSource d) := inferInstanceAs (Decidable (_ ∧ _))

end GrantCall

/-- The kernel and the calls in progress. -/
abbrev Grants := Pool State GrantCall

namespace Grants

/-- One step: a call begins or runs its next section. -/
def step (p : Grants) (op : PoolOp GrantArgs) : Option Grants :=
  Interleave.step GrantCall.enter GrantCall.next p op

/-- No call has begun. -/
def start (k : State) : Grants := ⟨k, []⟩

/-! ## The property -/

end Grants

/-- One slot holds the page, and it is a slot of the recorded owner. -/
def State.OwnedOnce (k : State) (id : Nat) : Prop :=
  ∃ rec slot, k.pageRecord id = some rec ∧
    ∀ q s, k.table.capAt q s = some (.page id) ↔ q = rec.owner ∧ s = slot

namespace Grants

/-- All calls have returned. -/
def Settled (p : Grants) : Prop := ∀ i c, p.At i c → ∃ r, c.stage = .done r

/-- Nothing is lost: once all calls have returned, the pages that were held once are. -/
def GrantLaw (k : State) (p : Grants) : Prop :=
  p.Settled → ∀ id, k.OwnedOnce id → p.shared.OwnedOnce id

/-- One slot was written. -/
def Puts (p p' : Grants) (q s : Nat) (cap : Option Cap) : Prop :=
  ∀ q' s', p'.shared.table.capAt q' s' =
    if q' = q ∧ s' = s then cap else p.shared.table.capAt q' s'

/-- What a call does on its way to success: it puts the page of its source slot into its target
slot, which was empty, and then it empties its source slot, which still held the page. -/
structure MovesOwn (p : Grants) (op : PoolOp GrantArgs) (p' : Grants) : Prop where
  write : ∀ i c id peer, op = .advance i → p.At i c → c.stage = .writeSlot id peer →
    p.shared.table.capAt c.caller c.srcSlot = some (.page id) ∧
      p.shared.table.capAt peer c.dstSlot = none ∧ Puts p p' peer c.dstSlot (some (.page id))
  clear : ∀ i c id peer, op = .advance i → p.At i c → c.stage = .clearSource id peer →
    p.shared.table.capAt c.caller c.srcSlot = some (.page id) ∧ Puts p p' c.caller c.srcSlot none
  before : ∀ i c c' id peer, op = .advance i → p.At i c → p'.At i c' →
    c'.stage = .clearSource id peer → c.stage = .writeSlot id peer
  last : ∀ i c c', op = .advance i → p.At i c → p'.At i c' → c'.stage = .done (.ok ()) →
    ∃ id peer, c.stage = .clearSource id peer

/-- A call moves the ownership while its source slot holds the page and no other call is moving
the page of that slot, and it writes its target slot while the slot is empty. -/
def Separate (p : Grants) : PoolOp GrantArgs → Prop
  | .start _ => True
  | .advance i => ∀ c, p.At i c →
      match c.stage with
      | .moveOwner id _ => p.shared.table.capAt c.caller c.srcSlot = some (.page id) ∧
          ∀ j d, p.At j d → d.Moving → ¬ d.SameSource c
      | .writeSlot _ peer => p.shared.table.capAt peer c.dstSlot = none
      | _ => True

end Grants

/-! ## Sections -/

namespace GrantCall

variable {c : GrantCall} {k k' : State} {stage : GrantStage} {id peer : Nat}

/-- What a call relies on between its sections. -/
def Placed (c : GrantCall) (k : State) : Prop :=
  match c.stage with
  | .checkSlot _ peer => k.table.pidRoot peer ≠ none
  | .moveOwner _ peer => k.table.pidRoot peer ≠ none ∧ c.dstSlot < maxCaps
  | .writeSlot id peer => k.table.pidRoot peer ≠ none ∧ c.dstSlot < maxCaps ∧
      k.table.capAt c.caller c.srcSlot = some (.page id)
  | .clearSource id _ => k.table.capAt c.caller c.srcSlot = some (.page id)
  | .undoOwner _ => False
  | _ => True

/-- The source slot of a call that moves a page holds one. -/
theorem Placed.source (h : c.Placed k) (hmoving : c.Moving) :
    ∃ id, k.table.capAt c.caller c.srcSlot = some (.page id) := by
  obtain ⟨args, st⟩ := c
  cases st with
  | writeSlot id peer => exact ⟨id, h.2.2⟩
  | clearSource id peer => exact ⟨id, h⟩
  | undoOwner id => exact h.elim
  | readSource => exact hmoving.elim
  | readPeer id => exact hmoving.elim
  | checkPeer id peer => exact hmoving.elim
  | checkSlot id peer => exact hmoving.elim
  | moveOwner id peer => exact hmoving.elim
  | done r => exact hmoving.elim

/-- The sections of a call that is in order: it reads, or it moves the ownership, writes the target
slot or clears the source slot. -/
inductive Acts (c : GrantCall) (k : State) : GrantStage → State → Prop where
  | reads {stage : GrantStage} (hbefore : ¬ c.Moving)
      (hafter : ¬ ({ c with stage := stage } : GrantCall).Moving)
      (hplaced : ({ c with stage := stage } : GrantCall).Placed k)
      (hopen : stage ≠ .done (.ok ())) : Acts c k stage k
  | moves {id peer : Nat} {rec : PageRecord} {m : Usage} (hstage : c.stage = .moveOwner id peer)
      (hrec : k.pageRecord id = some rec) :
      Acts c k (.writeSlot id peer)
        { k with mem := m, pages := k.pages.put id { rec with owner := peer, mapVa := none } }
  | writes {id peer : Nat} {t : ProcessTable} (hstage : c.stage = .writeSlot id peer)
      (hwrites : k.table.Writes t peer c.dstSlot (some (.page id))) :
      Acts c k (.clearSource id peer) { k with table := t }
  | clears {id peer : Nat} (hstage : c.stage = .clearSource id peer) :
      Acts c k (.done (.ok ())) { k with table := (k.table.clearCap c.caller c.srcSlot).2 }

/-- A call that fails before it has moved anything. -/
theorem Acts.fails {e : Nat} (hbefore : ¬ c.Moving) : c.Acts k (.done (.error e)) k :=
  .reads hbefore (by simp [Moving]) (by simp [Placed]) (by simp)

theorem acts_of_act (hplaced : c.Placed k) (h : c.act k = some (stage, k')) :
    c.Acts k stage k' := by
  obtain ⟨args, st⟩ := c
  cases st with
  | readSource =>
    have hbefore : ¬ (⟨args, .readSource⟩ : GrantCall).Moving := fun h => h
    simp only [act] at h
    split at h <;> cases h
    · exact .reads hbefore (by simp [Moving]) (by simp [Placed]) (by simp)
    · exact .fails hbefore
    · exact .fails hbefore
  | readPeer id =>
    have hbefore : ¬ (⟨args, .readPeer id⟩ : GrantCall).Moving := fun h => h
    simp only [act] at h
    split at h <;> cases h
    · exact .reads hbefore (by simp [Moving]) (by simp [Placed]) (by simp)
    · exact .fails hbefore
    · exact .fails hbefore
  | checkPeer id peer =>
    have hbefore : ¬ (⟨args, .checkPeer id peer⟩ : GrantCall).Moving := fun h => h
    simp only [act] at h
    split at h
    · cases h
      exact .fails hbefore
    · next hlive =>
      cases h
      exact .reads hbefore (by simp [Moving]) hlive (by simp)
  | checkSlot id peer =>
    have hbefore : ¬ (⟨args, .checkSlot id peer⟩ : GrantCall).Moving := fun h => h
    simp only [act] at h
    split at h
    · cases h
      exact .fails hbefore
    · next hslot =>
      split at h <;> cases h
      · exact .fails hbefore
      · exact .fails hbefore
      · exact .reads hbefore (by simp [Moving]) ⟨hplaced, Nat.lt_of_not_ge hslot⟩ (by simp)
  | moveOwner id peer =>
    have hbefore : ¬ (⟨args, .moveOwner id peer⟩ : GrantCall).Moving := fun h => h
    simp only [act] at h
    split at h
    · cases h
    · next k₁ hgrant =>
      cases h
      obtain ⟨rfl, -⟩ | ⟨_, _, _, _, heq, _⟩ := State.pagesGrant_cases hgrant
      · exact .fails hbefore
      · cases heq
    · next k₁ hgrant =>
      cases h
      obtain ⟨-, heq⟩ | ⟨rec, m, hrec, hm, -, rfl⟩ := State.pagesGrant_cases hgrant
      · cases heq
      · exact .moves rfl hrec
  | writeSlot id peer =>
    obtain ⟨hlive, hslot, -⟩ := hplaced
    obtain ⟨e, -, hdead | hout⟩ | ⟨t, ht, -, hwrites⟩ :=
      ProcessTable.grantTypedCap_cases k.table peer args.dstSlot (.page id)
    · exact absurd hdead hlive
    · exact absurd hslot (Nat.not_lt.mpr hout)
    · simp only [act, ht] at h
      cases h
      exact .writes rfl hwrites
  | undoOwner id => exact hplaced.elim
  | clearSource id peer =>
    cases h
    exact .clears rfl
  | done r => cases h

end GrantCall

/-! ## A call that runs alone -/

/-- A call that no other call interferes with returns `r` and leaves the kernel as `k'`. -/
def GrantCall.Alone (c : GrantCall) (k : State) (r : Except Nat Unit) (k' : State) : Prop :=
  ∃ n, Machine.run Grants.step ⟨k, [c]⟩ (List.replicate n (.advance 0)) =
    some ⟨k', [{ c with stage := .done r }]⟩

namespace GrantCall

variable {c : GrantCall} {k k' k₁ : State} {stage : GrantStage} {r : Except Nat Unit}

theorem alone_done (hstage : c.stage = .done r) : c.Alone k r k := by
  refine ⟨0, ?_⟩
  rw [← hstage]
  rfl

theorem alone_of_act (hact : c.act k = some (stage, k₁))
    (hrest : ({ c with stage := stage } : GrantCall).Alone k₁ r k') : c.Alone k r k' := by
  obtain ⟨n, hrun⟩ := hrest
  refine ⟨n + 1, ?_⟩
  have hstep : Grants.step ⟨k, [c]⟩ (.advance 0) = some ⟨k₁, [{ c with stage := stage }]⟩ := by
    simp [Grants.step, Interleave.step, next, hact]
  rw [List.replicate_succ, Machine.run_cons, hstep]
  exact hrun

/-- A last section. -/
theorem alone_last (hact : c.act k = some (.done r, k')) : c.Alone k r k' :=
  alone_of_act hact (alone_done rfl)

/-- The sections of a call that runs alone do what `memGrant` does. -/
theorem alone_memGrant {args : GrantArgs}
    (h : k.memGrant args.caller args.srcSlot args.peerSlot args.dstSlot = some (r, k')) :
    (enter args).Alone k r k' := by
  unfold State.memGrant at h
  -- The cases follow the sections: each one fails at once or hands over to the next.
  split at h
  · next e hsrc =>
    cases h
    exact alone_last (by simp [act, enter, hsrc])
  · next q hsrc =>
    cases h
    exact alone_last (by simp [act, enter, hsrc])
  · next q hsrc =>
    cases h
    exact alone_last (by simp [act, enter, hsrc])
  next id hsrc =>
  have hread : (enter args).act k = some (.readPeer id, k) := by
    simp [act, enter, hsrc]
  refine alone_of_act hread ?_
  split at h
  · next e hpeer =>
    cases h
    exact alone_last (by simp [act, enter, hpeer])
  · next q hpeer =>
    cases h
    exact alone_last (by simp [act, enter, hpeer])
  · next q hpeer =>
    cases h
    exact alone_last (by simp [act, enter, hpeer])
  next peer hpeer =>
  have hfind : (⟨args, .readPeer id⟩ : GrantCall).act k = some (.checkPeer id peer, k) := by
    simp [act, hpeer]
  refine alone_of_act hfind ?_
  split at h
  · next hdead =>
    cases h
    exact alone_last (by simp [act, hdead])
  next hlive =>
  have hcheck : (⟨args, .checkPeer id peer⟩ : GrantCall).act k = some (.checkSlot id peer, k) := by
    simp [act, hlive]
  refine alone_of_act hcheck ?_
  split at h
  · next hslot =>
    cases h
    exact alone_last (by simp [act, enter, hslot])
  next hslot =>
  split at h
  · next cap hdst =>
    cases h
    exact alone_last (by simp [act, enter, hslot, hdst])
  · next hdst =>
    cases h
    exact alone_last (by simp [act, enter, hslot, hdst])
  next e hvalid hdst =>
  have hempty : (⟨args, .checkSlot id peer⟩ : GrantCall).act k = some (.moveOwner id peer, k) := by
    simp only [act, if_neg hslot, hdst]
  refine alone_of_act hempty ?_
  split at h
  · cases h
  · next k₁ hgrant =>
    cases h
    exact alone_last (by simp [act, hgrant])
  next k₁ hgrant =>
  have hmove : (⟨args, .moveOwner id peer⟩ : GrantCall).act k = some (.writeSlot id peer, k₁) := by
    simp [act, hgrant]
  refine alone_of_act hmove ?_
  split at h
  · next e' t hwrite =>
    have hfail : (⟨args, .writeSlot id peer⟩ : GrantCall).act k₁ = some (.undoOwner id, k₁) := by
      simp [act, hwrite]
    refine alone_of_act hfail (alone_last ?_)
    obtain ⟨hundo, rfl⟩ := Outcome.failAfter_eq_some h
    simp [act, enter, hundo]
  · next t hwrite =>
    cases h
    have hdone : (⟨args, .writeSlot id peer⟩ : GrantCall).act k₁ =
        some (.clearSource id peer, { k₁ with table := t }) := by
      simp [act, hwrite]
    exact alone_of_act hdone (alone_last (by simp [act, enter]))

/-- A page goes from process 0 to process 1. -/
theorem alone_memGrant_page : ∃ k r k', k.memGrant 0 0 1 0 = some (r, k') ∧ r.isOk ∧
    (enter ⟨0, 0, 1, 0⟩).Alone k r k' := by
  obtain ⟨k, -, hok⟩ : ∃ k, Machine.run (State.step smallBoard) (boot smallMem)
      [.create, .create, .grantPage 0 0, .grantCap 0 1 1] = some k ∧
        (k.memGrant 0 0 1 0).map (fun p => p.1.isOk) = some true :=
    Option.map_eq_some_iff.mp (by decide +kernel)
  obtain ⟨⟨r, k'⟩, hcall, hr⟩ := Option.map_eq_some_iff.mp hok
  exact ⟨k, r, k', hcall, hr, alone_memGrant hcall⟩

end GrantCall

/-! ## The invariant -/

namespace Grants

variable {k : State} {p p' : Grants} {op : PoolOp GrantArgs} {i j id q s : Nat}
  {c d : GrantCall} {stage : GrantStage}

/-- A slot still holds a page that its call has put into another slot. -/
def Leaving (p : Grants) (id q s : Nat) : Prop :=
  ∃ i c peer, p.At i c ∧ c.stage = .clearSource id peer ∧ c.caller = q ∧ c.srcSlot = s

/-- Where a page is: in one slot, and in the slots that calls are about to empty. The recorded
owner is the process of that slot, or the peer of the call that is moving the page from there. -/
structure Tracks (p : Grants) (id q slot : Nat) (rec : PageRecord) : Prop where
  record : p.shared.pageRecord id = some rec
  holders : ∀ q' s', p.shared.table.capAt q' s' = some (.page id) ↔
    (q' = q ∧ s' = slot) ∨ p.Leaving id q' s'
  stays : ¬ p.Leaving id q slot
  peer : ∀ i c peer, p.At i c → c.stage = .writeSlot id peer → rec.owner = peer
  owner : (∀ i c peer, p.At i c → c.stage ≠ .writeSlot id peer) → rec.owner = q

/-- The calls are in order, no two of them move the page of one slot, and every page that was held
once is accounted for. -/
structure GrantInv (k : State) (p : Grants) : Prop where
  placed : ∀ i c, p.At i c → c.Placed p.shared
  apart : ∀ i j c d, p.At i c → p.At j d → c.Moving → d.Moving → c.SameSource d → i = j
  tracked : ∀ id, k.OwnedOnce id → ∃ q slot rec, p.Tracks id q slot rec

theorem moving_of_write {peer : Nat} (h : c.stage = .writeSlot id peer) : c.Moving := by
  rw [GrantCall.Moving, h]
  trivial

theorem moving_of_clear {peer : Nat} (h : c.stage = .clearSource id peer) : c.Moving := by
  rw [GrantCall.Moving, h]
  trivial

theorem leaving_congr
    (hclear : ∀ j d peer, d.stage = .clearSource id peer → (p'.At j d ↔ p.At j d)) (q s : Nat) :
    p'.Leaving id q s ↔ p.Leaving id q s :=
  exists_congr fun j => exists_congr fun d => exists_congr fun peer =>
    ⟨fun ⟨hd, hstage, hsource⟩ => ⟨(hclear j d peer hstage).mp hd, hstage, hsource⟩,
      fun ⟨hd, hstage, hsource⟩ => ⟨(hclear j d peer hstage).mpr hd, hstage, hsource⟩⟩

/-- A page is where it was if its record, the slots that hold it and the calls that move it are as
they were. -/
theorem Tracks.congr {slot : Nat} {rec : PageRecord} (h : p.Tracks id q slot rec)
    (hrecord : p'.shared.pageRecord id = p.shared.pageRecord id)
    (hcaps : ∀ q s, p'.shared.table.capAt q s = some (.page id) ↔
      p.shared.table.capAt q s = some (.page id))
    (hwrite : ∀ j d peer, d.stage = .writeSlot id peer → (p'.At j d ↔ p.At j d))
    (hclear : ∀ j d peer, d.stage = .clearSource id peer → (p'.At j d ↔ p.At j d)) :
    p'.Tracks id q slot rec := by
  have hleaving : ∀ q s, p'.Leaving id q s ↔ p.Leaving id q s := leaving_congr hclear
  refine ⟨hrecord.trans h.record, fun q' s' => ?_, fun hleave => h.stays ((hleaving q slot).mp hleave),
    fun j d peer hd hstage => h.peer j d peer ((hwrite j d peer hstage).mp hd) hstage,
    fun hnone => h.owner fun j d peer hd hstage =>
      hnone j d peer ((hwrite j d peer hstage).mpr hd) hstage⟩
  rw [hcaps, h.holders, hleaving]

/-- Nothing changes as long as the kernel and the calls that move pages stay. -/
theorem GrantInv.quiet (h : GrantInv k p) (hshared : p'.shared = p.shared)
    (hmoving : ∀ j d, d.Moving → (p'.At j d ↔ p.At j d))
    (hplaced : ∀ j d, p'.At j d → d.Placed p.shared) : GrantInv k p' := by
  refine ⟨hshared ▸ hplaced, fun i j c d hc hd hmc hmd hsame => ?_, fun id hid => ?_⟩
  · exact h.apart i j c d ((hmoving i c hmc).mp hc) ((hmoving j d hmd).mp hd) hmc hmd hsame
  · obtain ⟨q, slot, rec, htracks⟩ := h.tracked id hid
    exact ⟨q, slot, rec, htracks.congr (by rw [hshared]) (fun q s => by rw [hshared])
      (fun j d peer hstage => hmoving j d (moving_of_write hstage))
      fun j d peer hstage => hmoving j d (moving_of_clear hstage)⟩

/-- A call that begins has done nothing. -/
theorem GrantInv.begins (h : GrantInv k p) (args : GrantArgs) :
    GrantInv k ⟨p.shared, p.calls ++ [GrantCall.enter args]⟩ := by
  refine h.quiet rfl (fun j d hd => ⟨fun hat => ?_, fun hat => at_begin.mpr (.inl hat)⟩)
    fun j d hat => ?_
  · rcases at_begin.mp hat with hat | ⟨-, rfl⟩
    · exact hat
    · exact hd.elim
  · rcases at_begin.mp hat with hat | ⟨-, rfl⟩
    · exact h.placed j d hat
    · trivial

/-- A call that reads changes nothing but its own stage. -/
theorem GrantInv.reads (h : GrantInv k p) (hadv : Advances p p' i c { c with stage := stage })
    (hshared : p'.shared = p.shared) (hbefore : ¬ c.Moving)
    (hafter : ¬ ({ c with stage := stage } : GrantCall).Moving)
    (hplaced : ({ c with stage := stage } : GrantCall).Placed p.shared) : GrantInv k p' := by
  refine h.quiet hshared (fun j d hd => hadv.at_iff ?_ ?_) fun j d hat => ?_
  · rintro rfl
    exact hbefore hd
  · rintro rfl
    exact hafter hd
  · rcases hadv.after.mp hat with ⟨-, rfl⟩ | ⟨-, hat⟩
    · exact hplaced
    · exact h.placed j d hat

/-- The slot that a call moves a page from is the one where the page stays, unless another call is
about to empty it. -/
theorem Tracks.source_eq {slot : Nat} {rec : PageRecord} (h : p.Tracks id q slot rec)
    (hcap : p.shared.table.capAt c.caller c.srcSlot = some (.page id))
    (halone : ∀ j d peer, p.At j d → d.stage = .clearSource id peer → ¬ d.SameSource c) :
    c.caller = q ∧ c.srcSlot = slot := by
  refine ((h.holders _ _).mp hcap).resolve_right ?_
  rintro ⟨j, d, peer, hd, hstage, hcaller, hslot⟩
  exact halone j d peer hd hstage ⟨hcaller, hslot⟩

/-- A call that is about to write has its page where the page stays. -/
theorem GrantInv.source_eq {slot peer : Nat} {rec : PageRecord} (h : GrantInv k p)
    (htracks : p.Tracks id q slot rec) (hc : p.At i c) (hstage : c.stage = .writeSlot id peer) :
    c.caller = q ∧ c.srcSlot = slot := by
  have hplaced := h.placed i c hc
  rw [GrantCall.Placed, hstage] at hplaced
  refine htracks.source_eq hplaced.2.2 fun j d peer' hd hstage' hsame => ?_
  obtain rfl := h.apart j i d c hd hc (moving_of_clear hstage') (moving_of_write hstage) hsame
  rw [hc.unique hd, hstage] at hstage'
  cases hstage'

/-- Moving the ownership of the page of a slot that no other call moves. -/
theorem GrantInv.moves {peer : Nat} {rec : PageRecord} (h : GrantInv k p)
    (hadv : Advances p p' i c { c with stage := .writeSlot id peer })
    (hstage : c.stage = .moveOwner id peer) (htable : p'.shared.table = p.shared.table)
    (hrecords : ∀ other, p'.shared.pageRecord other =
      if other = id then some { rec with owner := peer, mapVa := none } else p.shared.pageRecord other)
    (hcap : p.shared.table.capAt c.caller c.srcSlot = some (.page id))
    (halone : ∀ j d, p.At j d → d.Moving → ¬ d.SameSource c) : GrantInv k p' := by
  have hplaced := h.placed i c hadv.before
  rw [GrantCall.Placed, hstage] at hplaced
  refine ⟨fun j d hd => ?_, fun j j' d d' hd hd' hm hm' hsame => ?_, fun id' hid => ?_⟩
  · rw [GrantCall.Placed, htable]
    rcases hadv.after.mp hd with ⟨-, rfl⟩ | ⟨-, hd⟩
    · exact ⟨hplaced.1, hplaced.2, hcap⟩
    · exact h.placed j d hd
  · rcases hadv.after.mp hd with ⟨hj, rfl⟩ | ⟨-, hold⟩ <;>
      rcases hadv.after.mp hd' with ⟨hj', rfl⟩ | ⟨-, hold'⟩
    · rw [hj, hj']
    · exact absurd ⟨hsame.1.symm, hsame.2.symm⟩ (halone j' d' hold' hm')
    · exact absurd hsame (halone j d hold hm)
    · exact h.apart j j' d d' hold hold' hm hm' hsame
  · obtain ⟨q, slot, rec', htracks⟩ := h.tracked id' hid
    have hclear : ∀ j d peer', d.stage = .clearSource id' peer' → (p'.At j d ↔ p.At j d) := by
      intro j d peer' hd
      refine hadv.at_iff ?_ ?_
      · rintro rfl
        rw [hstage] at hd
        cases hd
      · rintro rfl
        cases hd
    by_cases hsame : id' = id
    · subst hsame
      obtain ⟨hq, hslot⟩ := htracks.source_eq hcap fun j d _ hd hdstage =>
        halone j d hd (moving_of_clear hdstage)
      have hleaving : ∀ q s, p'.Leaving id' q s ↔ p.Leaving id' q s := leaving_congr hclear
      refine ⟨q, slot, _, (hrecords id').trans (if_pos rfl), fun q' s' => ?_, fun hleave =>
        htracks.stays ((hleaving q slot).mp hleave), fun j d peer' hd hdstage => ?_, fun hnone => ?_⟩
      · rw [htable, htracks.holders, hleaving]
      · rcases hadv.after.mp hd with ⟨-, rfl⟩ | ⟨-, hold⟩
        · cases hdstage
          rfl
        · -- A second call that moves the page would have the same source slot.
          obtain ⟨hq', hslot'⟩ := h.source_eq htracks hold hdstage
          exact absurd ⟨hq'.trans hq.symm, hslot'.trans hslot.symm⟩
            (halone j d hold (moving_of_write hdstage))
      · exact absurd rfl (hnone i _ peer (hadv.after.mpr (.inl ⟨rfl, rfl⟩)))
    · refine ⟨q, slot, rec', htracks.congr ((hrecords id').trans (if_neg hsame))
        (fun q s => by rw [htable]) (fun j d peer' hd => hadv.at_iff ?_ ?_) hclear⟩
      · rintro rfl
        rw [hstage] at hd
        cases hd
      · rintro rfl
        cases hd
        exact hsame rfl

/-- What a call relies on survives a write to a slot that is not its source. -/
theorem placed_of_writes {t : ProcessTable} {cap : Option Cap} (h : d.Placed p.shared)
    (hwrites : p.shared.table.Writes t q s cap) (htable : p'.shared.table = t)
    (hne : d.Moving → ¬ (d.caller = q ∧ d.srcSlot = s)) : d.Placed p'.shared := by
  obtain ⟨args, st⟩ := d
  cases st with
  | writeSlot id peer =>
    obtain ⟨hlive, hslot, hcap⟩ := h
    refine ⟨?_, hslot, ?_⟩
    · rwa [htable, hwrites.roots]
    · rw [htable, hwrites.caps, if_neg (hne trivial), hcap]
  | clearSource id peer =>
    change _ = _
    rw [htable, hwrites.caps, if_neg (hne trivial)]
    exact h
  | checkSlot id peer =>
    change _ ≠ _
    rw [htable, hwrites.roots]
    exact h
  | moveOwner id peer =>
    refine ⟨?_, h.2⟩
    rw [htable, hwrites.roots]
    exact h.1
  | undoOwner id => exact h
  | readSource => trivial
  | readPeer id => trivial
  | checkPeer id peer => trivial
  | done r => trivial

/-- The source slots stay apart while a moving call goes on. -/
theorem GrantInv.apart_of_advances (h : GrantInv k p)
    (hadv : Advances p p' i c { c with stage := stage }) (hmoving : c.Moving) :
    ∀ j j' d d', p'.At j d → p'.At j' d' → d.Moving → d'.Moving → d.SameSource d' → j = j' := by
  -- Going back, the call has the same arguments and was moving as well.
  have hback : ∀ j d, p'.At j d → d.Moving → ∃ d₀, p.At j d₀ ∧ d₀.Moving ∧
      d₀.toGrantArgs = d.toGrantArgs := by
    intro j d hd hm
    rcases hadv.after.mp hd with ⟨rfl, rfl⟩ | ⟨-, hold⟩
    · exact ⟨c, hadv.before, hmoving, rfl⟩
    · exact ⟨d, hold, hm, rfl⟩
  intro j j' d d' hd hd' hm hm' hsame
  obtain ⟨d₀, hd₀, hm₀, hargs⟩ := hback j d hd hm
  obtain ⟨d₀', hd₀', hm₀', hargs'⟩ := hback j' d' hd' hm'
  refine h.apart j j' d₀ d₀' hd₀ hd₀' hm₀ hm₀' ?_
  rw [GrantCall.SameSource, hargs, hargs']
  exact hsame

/-- Writing the page of a call into its empty target slot. -/
theorem GrantInv.writes {peer : Nat} {t : ProcessTable} (h : GrantInv k p)
    (hadv : Advances p p' i c { c with stage := .clearSource id peer })
    (hstage : c.stage = .writeSlot id peer)
    (hwrites : p.shared.table.Writes t peer c.dstSlot (some (.page id)))
    (htable : p'.shared.table = t) (hpages : p'.shared.pages = p.shared.pages)
    (hempty : p.shared.table.capAt peer c.dstSlot = none) : GrantInv k p' := by
  have hmoving : c.Moving := moving_of_write hstage
  have hsource : p.shared.table.capAt c.caller c.srcSlot = some (.page id) := by
    have hplaced := h.placed i c hadv.before
    rw [GrantCall.Placed, hstage] at hplaced
    exact hplaced.2.2
  have hcaps : ∀ q s, p'.shared.table.capAt q s =
      if q = peer ∧ s = c.dstSlot then some (.page id) else p.shared.table.capAt q s := by
    rw [htable]
    exact hwrites.caps
  have hne : ¬ (c.caller = peer ∧ c.srcSlot = c.dstSlot) := by
    rintro ⟨hq, hs⟩
    rw [hq, hs, hempty] at hsource
    cases hsource
  have hrecords : ∀ id, p'.shared.pageRecord id = p.shared.pageRecord id := by
    intro id
    rw [State.pageRecord, State.pageRecord, hpages]
  refine ⟨fun j d hd => ?_, h.apart_of_advances hadv hmoving, fun id' hid => ?_⟩
  · rcases hadv.after.mp hd with ⟨-, rfl⟩ | ⟨-, hold⟩
    · change _ = _
      rw [hcaps, if_neg hne, hsource]
    · refine placed_of_writes (h.placed j d hold) hwrites htable fun hm => ?_
      rintro ⟨hq, hs⟩
      obtain ⟨other, hother⟩ := (h.placed j d hold).source hm
      rw [hq, hs, hempty] at hother
      cases hother
  · obtain ⟨q, slot, rec, htracks⟩ := h.tracked id' hid
    have hwrite : ∀ j d peer', d.stage = .writeSlot id' peer' → d ≠ c → (p'.At j d ↔ p.At j d) := by
      intro j d peer' hd hdc
      refine hadv.at_iff hdc ?_
      rintro rfl
      cases hd
    by_cases hsame : id' = id
    · subst hsame
      obtain ⟨rfl, rfl⟩ := h.source_eq htracks hadv.before hstage
      have hleaving : ∀ q s, p'.Leaving id' q s ↔
          (q = c.caller ∧ s = c.srcSlot) ∨ p.Leaving id' q s := by
        intro q s
        constructor
        · rintro ⟨j, d, peer', hd, hdstage, hq, hs⟩
          rcases hadv.after.mp hd with ⟨-, rfl⟩ | ⟨-, hold⟩
          · exact .inl ⟨hq.symm, hs.symm⟩
          · exact .inr ⟨j, d, peer', hold, hdstage, hq, hs⟩
        · rintro (⟨rfl, rfl⟩ | ⟨j, d, peer', hd, hdstage, hq, hs⟩)
          · exact ⟨i, _, peer, hadv.after.mpr (.inl ⟨rfl, rfl⟩), rfl, rfl, rfl⟩
          · refine ⟨j, d, peer', hadv.after.mpr (.inr ⟨?_, hd⟩), hdstage, hq, hs⟩
            rintro rfl
            rw [hadv.before.unique hd, hstage] at hdstage
            cases hdstage
      have hold : ¬ p.Leaving id' peer c.dstSlot := by
        intro hleave
        rw [(htracks.holders _ _).mpr (.inr hleave)] at hempty
        cases hempty
      refine ⟨peer, c.dstSlot, rec, (hrecords id').trans htracks.record, fun q' s' => ?_, ?_,
        fun j d peer' hd hdstage => ?_, fun _ => htracks.peer i c peer hadv.before hstage⟩
      · rw [hcaps, hleaving]
        split
        · next hnew => simp [hnew]
        · next hnew => rw [htracks.holders]; simp [hnew]
      · rw [hleaving]
        rintro (⟨hq, hs⟩ | hleave)
        · exact hne ⟨hq.symm, hs.symm⟩
        · exact hold hleave
      · rcases hadv.after.mp hd with ⟨-, rfl⟩ | ⟨-, hold⟩
        · cases hdstage
        · exact htracks.peer j d peer' hold hdstage
    · refine ⟨q, slot, rec, htracks.congr (hrecords id') (fun q s => ?_)
        (fun j d peer' hd => hwrite j d peer' hd ?_) fun j d peer' hd => hadv.at_iff ?_ ?_⟩
      · rw [hcaps]
        split
        · next hnew => simp [hnew, hempty, Ne.symm hsame]
        · rfl
      · rintro rfl
        rw [hstage] at hd
        cases hd
        exact hsame rfl
      · rintro rfl
        rw [hstage] at hd
        cases hd
      · rintro rfl
        cases hd
        exact hsame rfl

/-- Emptying the source slot of a call. -/
theorem GrantInv.clears {peer : Nat} (h : GrantInv k p)
    (hadv : Advances p p' i c { c with stage := .done (.ok ()) })
    (hstage : c.stage = .clearSource id peer)
    (hwrites : p.shared.table.Writes p'.shared.table c.caller c.srcSlot none)
    (hpages : p'.shared.pages = p.shared.pages) : GrantInv k p' := by
  have hmoving : c.Moving := moving_of_clear hstage
  have hsource : p.shared.table.capAt c.caller c.srcSlot = some (.page id) := by
    have hplaced := h.placed i c hadv.before
    rwa [GrantCall.Placed, hstage] at hplaced
  have hrecords : ∀ id, p'.shared.pageRecord id = p.shared.pageRecord id := by
    intro id
    rw [State.pageRecord, State.pageRecord, hpages]
  have hself : p.Leaving id c.caller c.srcSlot := ⟨i, c, peer, hadv.before, hstage, rfl, rfl⟩
  refine ⟨fun j d hd => ?_, h.apart_of_advances hadv hmoving, fun id' hid => ?_⟩
  · rcases hadv.after.mp hd with ⟨-, rfl⟩ | ⟨hj, hold⟩
    · trivial
    · exact placed_of_writes (h.placed j d hold) hwrites rfl fun hm hsame =>
        hj (h.apart j i d c hold hadv.before hm hmoving hsame)
  · obtain ⟨q, slot, rec, htracks⟩ := h.tracked id' hid
    have hwrite : ∀ j d peer', d.stage = .writeSlot id' peer' → (p'.At j d ↔ p.At j d) := by
      intro j d peer' hd
      refine hadv.at_iff ?_ ?_
      · rintro rfl
        rw [hstage] at hd
        cases hd
      · rintro rfl
        cases hd
    by_cases hsame : id' = id
    · subst hsame
      have hleaving : ∀ q s, p'.Leaving id' q s ↔
          ¬ (q = c.caller ∧ s = c.srcSlot) ∧ p.Leaving id' q s := by
        intro q s
        constructor
        · rintro ⟨j, d, peer', hd, hdstage, rfl, rfl⟩
          rcases hadv.after.mp hd with ⟨-, rfl⟩ | ⟨hj, hold⟩
          · cases hdstage
          · exact ⟨fun hsource' => hj (h.apart j i d c hold hadv.before (moving_of_clear hdstage) hmoving
              hsource'), j, d, peer', hold, hdstage, rfl, rfl⟩
        · rintro ⟨hne, j, d, peer', hd, hdstage, rfl, rfl⟩
          refine ⟨j, d, peer', hadv.after.mpr (.inr ⟨?_, hd⟩), hdstage, rfl, rfl⟩
          rintro rfl
          obtain rfl := hadv.before.unique hd
          exact hne ⟨rfl, rfl⟩
      have hstays : ¬ (q = c.caller ∧ slot = c.srcSlot) := by
        rintro ⟨rfl, rfl⟩
        exact htracks.stays hself
      refine ⟨q, slot, rec, (hrecords id').trans htracks.record, fun q' s' => ?_, fun hleave =>
        htracks.stays ((hleaving q slot).mp hleave).2, fun j d peer' hd hdstage =>
        htracks.peer j d peer' ((hwrite j d peer' hdstage).mp hd) hdstage, fun hnone =>
        htracks.owner fun j d peer' hd hdstage =>
          hnone j d peer' ((hwrite j d peer' hdstage).mpr hd) hdstage⟩
      rw [hwrites.caps, hleaving]
      split
      · next hgone =>
        simp only [hgone, and_self, not_true_eq_false, false_and, or_false, reduceCtorEq, false_iff]
        exact fun hq => hstays ⟨hq.1.symm, hq.2.symm⟩
      · next hkept => rw [htracks.holders]; simp [hkept]
    · refine ⟨q, slot, rec, htracks.congr (hrecords id') (fun q s => ?_) hwrite
        fun j d peer' hd => hadv.at_iff ?_ ?_⟩
      · rw [hwrites.caps]
        split
        · next hgone => simp [hgone, hsource, Ne.symm hsame]
        · rfl
      · rintro rfl
        rw [hstage] at hd
        cases hd
        exact hsame rfl
      · rintro rfl
        cases hd

/-! ## Every interleaving -/

theorem grantInv_start (k : State) : GrantInv k (start k) := by
  refine ⟨fun i c hc => (by cases hc), fun i j c d hc => (by cases hc), fun id hid => ?_⟩
  obtain ⟨rec, slot, hrec, hcaps⟩ := hid
  have hnone : ∀ q s, ¬ (start k).Leaving id q s := by
    rintro q s ⟨i, c, peer, hc, -⟩
    cases hc
  refine ⟨rec.owner, slot, rec, hrec, fun q s => ?_, hnone _ _, fun i c peer hc => (by cases hc),
    fun _ => rfl⟩
  simp only [hnone, or_false]
  exact hcaps q s

/-- What a section does, said of the call that runs it. -/
theorem movesOwn_of_advances (hadv : Advances p p' i c { c with stage := stage })
    (hwrite : ∀ id peer, c.stage = .writeSlot id peer →
      p.shared.table.capAt c.caller c.srcSlot = some (.page id) ∧
        p.shared.table.capAt peer c.dstSlot = none ∧ Puts p p' peer c.dstSlot (some (.page id)))
    (hclear : ∀ id peer, c.stage = .clearSource id peer →
      p.shared.table.capAt c.caller c.srcSlot = some (.page id) ∧ Puts p p' c.caller c.srcSlot none)
    (hbefore : ∀ id peer, stage = .clearSource id peer → c.stage = .writeSlot id peer)
    (hlast : stage = .done (.ok ()) → ∃ id peer, c.stage = .clearSource id peer) :
    p.MovesOwn (.advance i) p' := by
  have hstage : ∀ {d}, p'.At i d → d.stage = stage := by
    intro d hd
    rcases hadv.after.mp hd with ⟨-, rfl⟩ | ⟨hne, -⟩
    · rfl
    · exact absurd rfl hne
  refine ⟨fun j d id peer hj hd hs => ?_, fun j d id peer hj hd hs => ?_,
    fun j d d' id peer hj hd hd' hs => ?_, fun j d d' hj hd hd' hs => ?_⟩ <;> cases hj <;>
    obtain rfl := hadv.before.unique hd
  · exact hwrite id peer hs
  · exact hclear id peer hs
  · exact hbefore id peer ((hstage hd').symm.trans hs)
  · exact hlast ((hstage hd').symm.trans hs)

theorem GrantInv.step (h : GrantInv k p) (hstep : p.step op = some p') (hop : p.Separate op) :
    GrantInv k p' ∧ p.MovesOwn op p' := by
  obtain ⟨args, rfl, rfl⟩ | ⟨i, c, c', shared, rfl, hc, hnext, rfl⟩ := Interleave.step_cases hstep
  · exact ⟨h.begins args, ⟨fun _ _ _ _ heq => (by cases heq), fun _ _ _ _ heq => (by cases heq),
      fun _ _ _ _ _ heq => (by cases heq), fun _ _ _ heq => (by cases heq)⟩⟩
  obtain ⟨⟨stage, shared'⟩, hact, ⟨⟩⟩ := Option.map_eq_some_iff.mp hnext
  have hadv := advances_set hc { c with stage := stage } shared'
  have hcond := hop c hc
  have hplaced := h.placed i c hc
  cases GrantCall.acts_of_act hplaced hact with
  | reads hbefore hafter hnow hopen =>
    refine ⟨h.reads hadv rfl hbefore hafter hnow, movesOwn_of_advances hadv (fun id peer hs => ?_)
      (fun id peer hs => ?_) (fun id peer hs => ?_) fun hs => absurd hs hopen⟩
    · exact absurd (moving_of_write hs) hbefore
    · exact absurd (moving_of_clear hs) hbefore
    · exact absurd (moving_of_clear hs) hafter
  | moves hstage hrec =>
    rw [hstage] at hcond
    refine ⟨h.moves hadv hstage rfl (State.get_putPage hrec rfl) hcond.1 hcond.2,
      movesOwn_of_advances hadv ?_ ?_ ?_ ?_⟩ <;> simp [hstage]
  | writes hstage hwrites =>
    rw [GrantCall.Placed, hstage] at hplaced
    rw [hstage] at hcond
    refine ⟨h.writes hadv hstage hwrites rfl rfl hcond, movesOwn_of_advances hadv
      (fun id peer hs => ?_) (fun id peer hs => ?_) (fun id peer hs => ?_) fun hs => ?_⟩
    · obtain ⟨rfl, rfl⟩ := GrantStage.writeSlot.inj (hstage.symm.trans hs)
      exact ⟨hplaced.2.2, hcond, hwrites.caps⟩
    · cases hstage.symm.trans hs
    · cases hs
      exact hstage
    · cases hs
  | clears hstage =>
    rw [GrantCall.Placed, hstage] at hplaced
    have hwrites := p.shared.table.writes_clearCap c.caller c.srcSlot
    refine ⟨h.clears hadv hstage hwrites rfl, movesOwn_of_advances hadv (fun id peer hs => ?_)
      (fun id peer hs => ?_) (fun id peer hs => ?_) fun _ => ⟨_, _, hstage⟩⟩
    · cases hstage.symm.trans hs
    · obtain ⟨rfl, rfl⟩ := GrantStage.clearSource.inj (hstage.symm.trans hs)
      exact ⟨hplaced, hwrites.caps⟩
    · cases hs

/-- With all calls returned, no call moves a page. -/
theorem GrantInv.grantLaw (h : GrantInv k p) : p.GrantLaw k := by
  intro hsettled id hid
  obtain ⟨q, slot, rec, htracks⟩ := h.tracked id hid
  have hnone : ∀ q s, ¬ p.Leaving id q s := by
    rintro q s ⟨i, c, peer, hc, hstage, -⟩
    obtain ⟨r, hdone⟩ := hsettled i c hc
    rw [hdone] at hstage
    cases hstage
  obtain rfl : rec.owner = q := by
    refine htracks.owner fun i c peer hc hstage => ?_
    obtain ⟨r, hdone⟩ := hsettled i c hc
    rw [hdone] at hstage
    cases hstage
  refine ⟨rec, slot, htracks.record, fun q s => ?_⟩
  rw [htracks.holders]
  simp [hnone]


/-- In every interleaving whose sections keep to the condition, nothing is lost and every call that
succeeds moves its own page into its own slot. -/
theorem always_grantLaw (k : State) (ops : List (PoolOp GrantArgs))
    (hops : Machine.Each step (start k) ops Separate) :
    Machine.Always step (start k) ops (GrantLaw k) ∧ Machine.Steps step (start k) ops MovesOwn := by
  have halways : Machine.Always step (start k) ops (GrantInv k) :=
    Machine.always_of_each (grantInv_start k) (fun _ _ _ hp hstep hop => (hp.step hstep hop).1) hops
  constructor
  · intro first rest p hsplit hrun
    exact (halways first rest p hsplit hrun).grantLaw
  · intro first op rest p p' hsplit hrun hstep
    exact ((halways first _ p hsplit hrun).step hstep (hops first op rest p p' hsplit hrun hstep)).2

/-! ## Evaluating the conditions -/

instance (k : State) (id : Nat) : Decidable (k.OwnedOnce id) :=
  decidable_of_iff (∃ rec ∈ k.pageRecord id, rec.owner < k.table.slots.length ∧
      ∃ slot < maxCaps, ∀ q < k.table.slots.length, ∀ s < maxCaps,
        (k.table.capAt q s = some (.page id) ↔ q = rec.owner ∧ s = slot)) (by
    constructor
    · rintro ⟨rec, hrec, howner, slot, hslot, hcaps⟩
      refine ⟨rec, slot, hrec, fun q s => ⟨fun hcap => ?_, ?_⟩⟩
      · obtain ⟨proc, hproc⟩ := ProcessTable.get_of_capAt hcap
        exact (hcaps q (ProcessTable.lt_of_get hproc) s (ProcessTable.slot_lt_of_capAt hcap)).mp hcap
      · rintro ⟨rfl, rfl⟩
        exact (hcaps _ howner _ hslot).mpr ⟨rfl, rfl⟩
    · rintro ⟨rec, slot, hrec, hcaps⟩
      have hcap := (hcaps rec.owner slot).mpr ⟨rfl, rfl⟩
      obtain ⟨proc, hproc⟩ := ProcessTable.get_of_capAt hcap
      exact ⟨rec, hrec, ProcessTable.lt_of_get hproc, slot, ProcessTable.slot_lt_of_capAt hcap,
        fun q _ s _ => hcaps q s⟩)

instance (p : Grants) : Decidable p.Settled :=
  decidable_of_iff (∀ c ∈ p.calls, GrantStage.isDone c.stage = true) (by
    have hdone : ∀ st : GrantStage, GrantStage.isDone st = true ↔ ∃ r, st = .done r := by
      intro st
      cases st <;> simp [GrantStage.isDone]
    constructor
    · intro hall i c hc
      exact (hdone _).mp (hall c (List.mem_of_getElem? hc))
    · intro hall c hc
      obtain ⟨i, hi⟩ := List.mem_iff_getElem?.mp hc
      exact (hdone _).mpr (hall i c hi))

/-- The condition, evaluated. -/
def separate (p : Grants) : PoolOp GrantArgs → Bool
  | .start _ => true
  | .advance i =>
    match p.calls[i]? with
    | none => true
    | some c =>
      match c.stage with
      | .moveOwner id _ => p.shared.table.capAt c.caller c.srcSlot = some (.page id) &&
          p.calls.all fun d => !(d.Moving && d.SameSource c)
      | .writeSlot _ peer => p.shared.table.capAt peer c.dstSlot = none
      | _ => true

theorem separate_of_check (h : p.separate op = true) : p.Separate op := by
  cases op with
  | start args => trivial
  | advance i =>
    intro c hc
    have hcall : p.calls[i]? = some c := hc
    simp only [separate, hcall] at h
    obtain ⟨args, st⟩ := c
    cases st with
    | moveOwner id peer =>
      simp only [Bool.and_eq_true, decide_eq_true_eq, List.all_eq_true, Bool.not_eq_true',
        Bool.and_eq_false_iff, decide_eq_false_iff_not] at h
      refine ⟨h.1, fun j d hd hmoving hsame => ?_⟩
      rcases h.2 d (List.mem_of_getElem? hd) with hidle | hother
      · exact hidle hmoving
      · exact hother hsame
    | writeSlot id peer => exact of_decide_eq_true h
    | readSource => trivial
    | readPeer id => trivial
    | checkPeer id peer => trivial
    | checkSlot id peer => trivial
    | undoOwner id => trivial
    | clearSource id peer => trivial
    | done r => trivial

/-- Two pages on their way to two slots of a third process. -/
theorem always_grantLaw_two :
    ∃ k, Machine.run (State.step smallBoard) (boot smallMem)
        [.create, .create, .create, .grantPage 0 0, .grantPage 1 0, .grantCap 0 1 2,
          .grantCap 1 1 2] = some k ∧
      Machine.Always step (start k)
        [.start ⟨0, 0, 1, 0⟩, .start ⟨1, 0, 1, 1⟩, .advance 0, .advance 0, .advance 0, .advance 0,
          .advance 1, .advance 1, .advance 1, .advance 1, .advance 0, .advance 0, .advance 1,
          .advance 1, .advance 0, .advance 1] (GrantLaw k) := by
  obtain ⟨k, hk, hmeets⟩ : ∃ k, Machine.run (State.step smallBoard) (boot smallMem)
      [.create, .create, .create, .grantPage 0 0, .grantPage 1 0, .grantCap 0 1 2,
        .grantCap 1 1 2] = some k ∧ Machine.meets step separate (start k)
      [.start ⟨0, 0, 1, 0⟩, .start ⟨1, 0, 1, 1⟩, .advance 0, .advance 0, .advance 0, .advance 0,
        .advance 1, .advance 1, .advance 1, .advance 1, .advance 0, .advance 0, .advance 1,
        .advance 1, .advance 0, .advance 1] = true :=
    Option.map_eq_some_iff.mp (by decide +kernel)
  exact ⟨k, hk, (always_grantLaw k _ (Machine.each_of_meets (fun _ _ => separate_of_check) hmeets)).1⟩

/-- Two pages are granted to one slot of a third process, and both calls find the slot empty. -/
theorem not_grantLaw_overwrite :
    ∃ k, Machine.run (State.step smallBoard) (boot smallMem)
        [.create, .create, .create, .grantPage 0 0, .grantPage 1 0, .grantCap 0 1 2,
          .grantCap 1 1 2] = some k ∧
      ¬ Machine.Always step (start k)
        [.start ⟨0, 0, 1, 0⟩, .start ⟨1, 0, 1, 0⟩, .advance 0, .advance 0, .advance 0, .advance 0,
          .advance 1, .advance 1, .advance 1, .advance 1, .advance 0, .advance 0, .advance 0,
          .advance 1, .advance 1, .advance 1] (GrantLaw k) := by
  obtain ⟨k, hk, heval⟩ : ∃ k, Machine.run (State.step smallBoard) (boot smallMem)
      [.create, .create, .create, .grantPage 0 0, .grantPage 1 0, .grantCap 0 1 2,
        .grantCap 1 1 2] = some k ∧
      (decide (k.OwnedOnce 0), (Machine.run step (start k)
        [.start ⟨0, 0, 1, 0⟩, .start ⟨1, 0, 1, 0⟩, .advance 0, .advance 0, .advance 0, .advance 0,
          .advance 1, .advance 1, .advance 1, .advance 1, .advance 0, .advance 0, .advance 0,
          .advance 1, .advance 1, .advance 1]).map
        fun p => (decide p.Settled, decide (p.shared.OwnedOnce 0))) = (true, some (true, false)) :=
    Option.map_eq_some_iff.mp (by decide +kernel)
  refine ⟨k, hk, fun halways => ?_⟩
  obtain ⟨hbefore, hrun⟩ := Prod.mk.inj heval
  obtain ⟨p, hp, hafter⟩ := Option.map_eq_some_iff.mp hrun
  obtain ⟨hsettled, hlost⟩ := Prod.mk.inj hafter
  have hlaw := halways _ [] p (List.append_nil _).symm hp
  exact of_decide_eq_false hlost (hlaw (of_decide_eq_true hsettled) 0 (of_decide_eq_true hbefore))

end Grants

end Ignium.Kernel
