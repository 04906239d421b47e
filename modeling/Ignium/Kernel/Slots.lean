import Ignium.Kernel.Process
import Ignium.Lib.Registry

/-!
# What the process table shows

The other parts of the kernel see two things in the process table: the root of every live process
(`pidRoot`) and the capability in every slot (`capAt`). Every function on the table changes these
in one place: `Writes` for the functions on slots, `Sound.enter` for a new process, `Sound.retire`
for a process that goes.
-/

namespace Ignium.Kernel.ProcessTable

variable {t t' : ProcessTable} {p : Process} {pid slot q s : Nat} {cap : Cap}

/-- The capability in a slot of a live process. -/
def capAt (t : ProcessTable) (pid slot : Nat) : Option Cap :=
  if h : slot < maxCaps then (t.get pid).bind fun p => p.caps ⟨slot, h⟩ else none

/-- The table as a registry of processes. -/
def registry (t : ProcessTable) : Registry Process := ⟨t.slots, t.free⟩

/-- Free slots are those of dead processes, and the table does not outgrow its limit. -/
structure Sound (t : ProcessTable) : Prop where
  registry : Registry.Sound Process.id t.registry
  length : t.slots.length ≤ maxProcesses

theorem get_registry : t.registry.get Process.id pid = t.get pid := rfl

theorem lt_of_get (h : t.get pid = some p) : pid < t.slots.length :=
  Registry.lt_of_get (t := t.registry) h

theorem id_of_get (h : t.get pid = some p) : p.id = pid :=
  Registry.ident_of_get (t := t.registry) h

theorem capAt_of_get (h : t.get pid = some p) (hslot : slot < maxCaps) :
    t.capAt pid slot = p.caps ⟨slot, hslot⟩ := by
  rw [capAt, dif_pos hslot, h]
  rfl

theorem slot_lt_of_capAt (h : t.capAt pid slot = some cap) : slot < maxCaps := by
  by_contra hslot
  rw [capAt, dif_neg hslot] at h
  cases h

/-- Only live processes have capabilities. -/
theorem get_of_capAt (h : t.capAt pid slot = some cap) : ∃ p, t.get pid = some p := by
  rw [capAt, dif_pos (slot_lt_of_capAt h)] at h
  obtain ⟨p, hp, -⟩ := Option.bind_eq_some_iff.mp h
  exact ⟨p, hp⟩

theorem capAt_of_dead (h : t.get pid = none) : t.capAt pid slot = none := by
  unfold capAt
  split
  · rw [h]
    rfl
  · rfl

theorem pidRoot_eq_none : t.pidRoot pid = none ↔ t.get pid = none := by
  rw [pidRoot, Option.map_eq_none_iff]

theorem capAt_of_pidRoot (h : t.pidRoot pid = none) : t.capAt pid slot = none :=
  capAt_of_dead (pidRoot_eq_none.mp h)

/-- `capTarget` reads the slot. -/
theorem capTarget_eq_ok : t.capTarget pid slot = .ok cap ↔ t.capAt pid slot = some cap := by
  unfold capTarget capAt
  by_cases hslot : slot < maxCaps
  · rw [dif_pos hslot, dif_pos hslot]
    rcases t.get pid with _ | p
    · simp
    · rcases hcap : p.caps ⟨slot, hslot⟩ with _ | c <;> simp [hcap]
  · rw [dif_neg hslot, dif_neg hslot]
    simp

theorem capAt_of_capTarget_error {e : CapError} (h : t.capTarget pid slot = .error e) :
    t.capAt pid slot = none := by
  rcases hcap : t.capAt pid slot with _ | cap
  · rfl
  · rw [capTarget_eq_ok.mpr hcap] at h
    cases h

/-! ## Writing a slot -/

/-- Going from `t` to `t'` wrote one slot. -/
structure Writes (t t' : ProcessTable) (pid slot : Nat) (cap : Option Cap) : Prop where
  roots : t'.pidRoot = t.pidRoot
  caps : ∀ q s, t'.capAt q s = if q = pid ∧ s = slot then cap else t.capAt q s
  sound : t.Sound → t'.Sound

theorem get_setCaps {caps : Caps} (h : t.get pid = some p) :
    (t.setCaps pid p caps).get q = if q = pid then some { p with caps := caps } else t.get q := by
  by_cases hq : q = pid
  · subst hq
    rw [if_pos rfl]
    have hid : p.id = q := id_of_get h
    exact Registry.get_put_self (t := t.registry) (lt_of_get h) hid
  · rw [if_neg hq]
    exact Registry.get_put_of_ne (t := t.registry) hq

theorem writes_setCaps {cap : Option Cap} (h : t.get pid = some p) (hslot : slot < maxCaps) :
    Writes t (t.setCaps pid p (Function.update p.caps ⟨slot, hslot⟩ cap)) pid slot cap := by
  refine ⟨?_, fun q s => ?_, fun hsound => ⟨?_, ?_⟩⟩
  · funext q
    rw [pidRoot, pidRoot, get_setCaps h]
    by_cases hq : q = pid
    · subst hq
      rw [if_pos rfl, h]
      rfl
    · rw [if_neg hq]
  · by_cases hs : s < maxCaps
    · rw [capAt, capAt, dif_pos hs, dif_pos hs, get_setCaps h]
      by_cases hq : q = pid
      · subst hq
        rw [if_pos rfl, h]
        by_cases hsame : s = slot
        · subst hsame
          simp
        · simp [hsame]
      · simp [hq]
    · rw [capAt, capAt, dif_neg hs, dif_neg hs, if_neg]
      rintro ⟨-, rfl⟩
      exact hs hslot
  · have hid : p.id = pid := id_of_get h
    exact hsound.registry.put (by rw [get_registry, h]; rfl) hid
  · simpa [setCaps] using hsound.length

/-- `grantTypedCap` fails, or it writes the slot of a live process. -/
theorem grantTypedCap_cases (t : ProcessTable) (pid slot : Nat) (cap : Cap) :
    (∃ e, t.grantTypedCap pid slot cap = (.error e, t) ∧
      (t.pidRoot pid = none ∨ maxCaps ≤ slot)) ∨
    ∃ t', t.grantTypedCap pid slot cap = (.ok (), t') ∧ slot < maxCaps ∧
      Writes t t' pid slot (some cap) := by
  unfold grantTypedCap
  by_cases hslot : slot < maxCaps
  · rw [dif_pos hslot]
    rcases hget : t.get pid with _ | p
    · exact .inl ⟨_, rfl, .inl (pidRoot_eq_none.mpr hget)⟩
    · exact .inr ⟨_, rfl, hslot, writes_setCaps hget hslot⟩
  · rw [dif_neg hslot]
    exact .inl ⟨_, rfl, .inr (Nat.le_of_not_lt hslot)⟩

/-- `clearCap` leaves the slot empty. -/
theorem writes_clearCap (t : ProcessTable) (pid slot : Nat) :
    Writes t (t.clearCap pid slot).2 pid slot none := by
  have hsame : t.capAt pid slot = none → Writes t t pid slot none := by
    intro hnone
    refine ⟨rfl, fun q s => ?_, id⟩
    split
    · next heq => rw [heq.1, heq.2, hnone]
    · rfl
  unfold clearCap
  by_cases hslot : slot < maxCaps
  · rw [dif_pos hslot]
    rcases hget : t.get pid with _ | p
    · exact hsame (capAt_of_dead hget)
    · exact writes_setCaps hget hslot
  · rw [dif_neg hslot]
    exact hsame (by rw [capAt, dif_neg hslot])

/-- `capDuplicate` fails, or it copies a capability that is not one for a page. -/
theorem capDuplicate_cases (t : ProcessTable) (pid src dst : Nat) :
    (∃ e, t.capDuplicate pid src dst = (.error e, t)) ∨
    ∃ t' cap, t.capDuplicate pid src dst = (.ok (), t') ∧ t.capAt pid src = some cap ∧
      dst < maxCaps ∧ (∀ id, cap ≠ .page id) ∧ Writes t t' pid dst (some cap) := by
  unfold capDuplicate
  by_cases hslots : src < maxCaps ∧ dst < maxCaps
  · rw [dif_pos hslots]
    rcases hget : t.get pid with _ | p
    · exact .inl ⟨_, rfl⟩
    · have hsrc := capAt_of_get hget hslots.1
      dsimp only
      rcases hcap : p.caps ⟨src, hslots.1⟩ with _ | (target | id | id)
      · exact .inl ⟨_, rfl⟩
      · exact .inr ⟨_, _, rfl, hsrc.trans hcap, hslots.2, by simp, writes_setCaps hget hslots.2⟩
      · exact .inr ⟨_, _, rfl, hsrc.trans hcap, hslots.2, by simp, writes_setCaps hget hslots.2⟩
      · exact .inl ⟨_, rfl⟩
  · rw [dif_neg hslots]
    exact .inl ⟨_, rfl⟩

/-- Writing a slot twice is writing it once. -/
theorem Writes.again {t₁ : ProcessTable} {c₁ c₂ : Option Cap} (h₁ : Writes t t₁ pid slot c₁)
    (h₂ : Writes t₁ t' pid slot c₂) : Writes t t' pid slot c₂ := by
  refine ⟨h₂.roots.trans h₁.roots, fun q s => ?_, fun h => h₂.sound (h₁.sound h)⟩
  rw [h₂.caps]
  split
  · rfl
  · next hne => rw [h₁.caps, if_neg hne]

/-! ## Processes that come and go -/

/-- Going from `t` to `t'` gave a free id to a new process, which has no capabilities. -/
structure Enters (t t' : ProcessTable) (pid root : Nat) : Prop where
  fresh : t.pidRoot pid = none
  roots : ∀ q, t'.pidRoot q = if q = pid then some root else t.pidRoot q
  caps : t'.capAt = t.capAt
  sound : t'.Sound

/-- Going from `t` to `t'` took out a process and its capabilities. -/
structure Retires (t t' : ProcessTable) (pid : Nat) : Prop where
  roots : ∀ q, t'.pidRoot q = if q = pid then none else t.pidRoot q
  caps : ∀ q s, t'.capAt q s = if q = pid then none else t.capAt q s
  sound : t'.Sound

/-- A new process with an empty capability table. -/
def blank (root idx : Nat) : Process := ⟨idx, root, fun _ => none⟩

theorem enter_eq (t : ProcessTable) (root : Nat) :
    (t.enter root).1 = (t.registry.enter (blank root)).1 ∧
      (t.enter root).2.registry = (t.registry.enter (blank root)).2 := by
  rcases t with ⟨slots, _ | ⟨idx, rest⟩⟩ <;> exact ⟨rfl, rfl⟩

theorem Sound.enter {root : Nat} (h : t.Sound) (hlive : t.liveCount < maxProcesses) :
    Enters t (t.enter root).2 (t.enter root).1 root := by
  obtain ⟨hpid, htable⟩ := enter_eq t root
  have hfresh : t.get (t.enter root).1 = none := by
    rw [hpid]
    exact h.registry.get_enter
  have hget : ∀ q, (t.enter root).2.get q =
      if q = (t.enter root).1 then some (blank root (t.enter root).1) else t.get q := by
    intro q
    rw [← get_registry, htable, hpid]
    split
    · next heq =>
      rw [heq]
      exact h.registry.get_entered fun i => rfl
    · next hne => exact Registry.get_enter_of_ne hne
  refine ⟨pidRoot_eq_none.mpr hfresh, fun q => ?_, ?_, ?_, ?_⟩
  · rw [pidRoot, hget]
    split
    · rfl
    · rfl
  · funext q s
    by_cases hq : q = (t.enter root).1
    · rw [hq, capAt_of_dead hfresh, capAt, hget, if_pos rfl]
      split
      · rfl
      · rfl
    · rw [capAt, capAt, hget, if_neg hq]
  · rw [htable]
    exact h.registry.enter fun i => rfl
  · have hlength : _ → (t.registry.enter (blank root)).2.slots.length ≤ maxProcesses :=
      Registry.length_enter_le h.length
    rw [← htable] at hlength
    refine hlength fun hnil => ?_
    have hnone : t.free.length = 0 := by
      rw [show t.free = [] from hnil]
      rfl
    unfold liveCount at hlive
    change t.slots.length < maxProcesses
    omega

theorem Sound.retire {root : Nat} (h : t.Sound) (hretire : t.retire pid = some (root, t')) :
    t.pidRoot pid = some root ∧ Retires t t' pid := by
  unfold ProcessTable.retire at hretire
  obtain ⟨p, hp, heq⟩ := Option.map_eq_some_iff.mp hretire
  obtain ⟨rfl, rfl⟩ := Prod.mk.inj heq
  have hid : noId ≠ pid := by
    have hlt := lt_of_get hp
    have hmax := h.length
    unfold noId maxProcesses at *
    omega
  have hget : ∀ q, (⟨t.slots.set pid ⟨noId, p.root, fun _ => none⟩, t.free ++ [pid]⟩ :
      ProcessTable).get q = if q = pid then none else t.get q := by
    intro q
    split
    · next heq =>
      rw [heq]
      exact Registry.get_retire_self (t := t.registry) hid
    · next hne => exact Registry.get_retire_of_ne (t := t.registry) hne
  refine ⟨by rw [pidRoot, hp]; rfl, fun q => ?_, fun q s => ?_, ?_, ?_⟩
  · rw [pidRoot, hget]
    split <;> rfl
  · split
    · next heq => rw [capAt_of_dead (by rw [hget, if_pos heq])]
    · next hne => rw [capAt, capAt, hget, if_neg hne]
  · refine Registry.Sound.retire (t := t.registry) h.registry ?_ hid
    rw [get_registry, hp]
    rfl
  · simpa using h.length

end Ignium.Kernel.ProcessTable
