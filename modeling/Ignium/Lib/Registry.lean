import Mathlib.Data.List.Nodup

/-!
# Registries that recycle their indices

A table of records where the id of a live record is its index. Retiring a record overwrites its id
and queues the index, and a new record takes the index that has been queued for longest before the
table grows. `Registry.Sound` says that the indices of the dead records are queued, each once; then
entering a record changes one lookup, at an index that was dead (`Sound.get_enter`,
`Sound.get_entered`), and the queue is as long as there are dead records (`Sound.length_live`).
-/

/-- Records in order of their indices, and the indices that are free. -/
structure Registry (R : Type*) where
  slots : List R
  free : List Nat
  deriving DecidableEq

namespace Registry

variable {R : Type*} (ident : R → Nat)

/-- The live record with an id. -/
def get (t : Registry R) (id : Nat) : Option R := t.slots[id]?.filter fun r => ident r = id

/-- Overwrite a record. -/
def put (t : Registry R) (id : Nat) (r : R) : Registry R := { t with slots := t.slots.set id r }

/-- Enter a new record at a free index, or at the end. -/
def enter (t : Registry R) (make : Nat → R) : Nat × Registry R :=
  match t.free with
  | id :: rest => (id, ⟨t.slots.set id (make id), rest⟩)
  | [] => (t.slots.length, ⟨t.slots ++ [make t.slots.length], []⟩)

/-- Overwrite a record by a dead one and queue its index. -/
def retire (t : Registry R) (id : Nat) (dead : R) : Registry R :=
  ⟨t.slots.set id dead, t.free ++ [id]⟩

/-- The ids of the live records. -/
def live (t : Registry R) : List Nat :=
  (List.range t.slots.length).filter fun id => (t.get ident id).isSome

/-- The queued indices are those of the dead records, and none is queued twice. -/
structure Sound (t : Registry R) : Prop where
  nodup : t.free.Nodup
  dead : ∀ id ∈ t.free, id < t.slots.length ∧ t.get ident id = none
  queued : ∀ id, id < t.slots.length → t.get ident id = none → id ∈ t.free

variable {ident} {t : Registry R} {id other : Nat} {r dead : R} {make : Nat → R}

theorem sound_empty : Sound ident (⟨[], []⟩ : Registry R) := ⟨List.nodup_nil, by simp, by simp⟩

theorem get_eq_some : t.get ident id = some r ↔ t.slots[id]? = some r ∧ ident r = id := by
  rw [get, Option.filter_eq_some_iff]
  simp

theorem lt_of_get (h : t.get ident id = some r) : id < t.slots.length :=
  (List.getElem?_eq_some_iff.mp (get_eq_some.mp h).1).1

theorem ident_of_get (h : t.get ident id = some r) : ident r = id := (get_eq_some.mp h).2

theorem get_of_length_le (h : t.slots.length ≤ id) : t.get ident id = none := by
  rw [get, List.getElem?_eq_none h]
  rfl

theorem mem_live : id ∈ t.live ident ↔ (t.get ident id).isSome := by
  rw [live, List.mem_filter, List.mem_range, and_iff_right_iff_imp]
  intro hlive
  obtain ⟨r, hr⟩ := Option.isSome_iff_exists.mp hlive
  exact lt_of_get hr

theorem length_live_le : (t.live ident).length ≤ t.slots.length := by
  calc (t.live ident).length ≤ (List.range t.slots.length).length := List.length_filter_le _ _
    _ = t.slots.length := List.length_range

/-- Every index is that of a live record or queued. -/
theorem Sound.length_live (h : Sound ident t) :
    (t.live ident).length + t.free.length = t.slots.length := by
  have hfree : t.free.Perm
      ((List.range t.slots.length).filter fun id => !(t.get ident id).isSome) := by
    refine (List.perm_ext_iff_of_nodup h.nodup (List.nodup_range.filter _)).mpr fun id => ?_
    rw [List.mem_filter, List.mem_range, Bool.not_eq_true', Option.isSome_eq_false_iff,
      Option.isNone_iff_eq_none]
    exact ⟨h.dead id, fun hid => h.queued id hid.1 hid.2⟩
  calc (t.live ident).length + t.free.length
    _ = (List.range t.slots.length).length := by
        rw [hfree.length_eq, live, ← List.length_eq_length_filter_add]
    _ = t.slots.length := List.length_range

theorem get_put_of_ne (hne : other ≠ id) : (t.put id r).get ident other = t.get ident other := by
  rw [get, put, List.getElem?_set_ne hne.symm, get]

theorem get_put_self (hlt : id < t.slots.length) (hident : ident r = id) :
    (t.put id r).get ident id = some r := by
  rw [get, put, List.getElem?_set_self hlt]
  simp [Option.filter, hident]

theorem get_put_dead (hident : ident r ≠ id) : (t.put id r).get ident id = none := by
  rw [get, put]
  by_cases hlt : id < t.slots.length
  · rw [List.getElem?_set_self hlt]
    simp [Option.filter, hident]
  · rw [List.getElem?_eq_none (by simpa using hlt)]
    rfl

theorem get_retire_of_ne (hne : other ≠ id) :
    (t.retire id dead).get ident other = t.get ident other := get_put_of_ne hne

theorem get_retire_self (hident : ident dead ≠ id) : (t.retire id dead).get ident id = none :=
  get_put_dead hident

/-- Overwriting a live record by a live one keeps the queue sound. -/
theorem Sound.put (h : Sound ident t) (hlive : (t.get ident id).isSome) (hident : ident r = id) :
    Sound ident (t.put id r) := by
  obtain ⟨old, hold⟩ := Option.isSome_iff_exists.mp hlive
  refine ⟨h.nodup, fun i hi => ?_, fun i hlt hdead => ?_⟩
  · obtain ⟨hlt, hdead⟩ := h.dead i hi
    have hne : i ≠ id := by
      rintro rfl
      rw [hdead] at hold
      cases hold
    exact ⟨by simpa [Registry.put] using hlt, by rw [get_put_of_ne hne, hdead]⟩
  · have hne : i ≠ id := by
      rintro rfl
      rw [get_put_self (lt_of_get hold) hident] at hdead
      cases hdead
    rw [get_put_of_ne hne] at hdead
    exact h.queued i (by simpa [Registry.put] using hlt) hdead

/-- Retiring a live record keeps the queue sound. -/
theorem Sound.retire (h : Sound ident t) (hlive : (t.get ident id).isSome)
    (hident : ident dead ≠ id) : Sound ident (t.retire id dead) := by
  obtain ⟨r, hr⟩ := Option.isSome_iff_exists.mp hlive
  have hnew : id ∉ t.free := by
    intro hmem
    rw [(h.dead id hmem).2] at hr
    cases hr
  refine ⟨?_, fun i hi => ?_, fun i hlt hdead => ?_⟩
  · rw [Registry.retire, List.nodup_append]
    refine ⟨h.nodup, List.nodup_singleton id, fun i hi j hj heq => hnew ?_⟩
    rw [← List.mem_singleton.mp hj, ← heq]
    exact hi
  · rcases List.mem_append.mp hi with hi | hi
    · obtain ⟨hlt, hdead⟩ := h.dead i hi
      have hne : i ≠ id := fun heq => hnew (heq ▸ hi)
      exact ⟨by simpa [Registry.retire] using hlt, by rw [get_retire_of_ne hne, hdead]⟩
    · obtain rfl := List.mem_singleton.mp hi
      exact ⟨by simpa [Registry.retire] using lt_of_get hr, get_retire_self hident⟩
  · by_cases hi : i = id
    · exact List.mem_append_right _ (List.mem_singleton.mpr hi)
    · rw [get_retire_of_ne hi] at hdead
      exact List.mem_append_left _ (h.queued i (by simpa [Registry.retire] using hlt) hdead)

/-- The index of a new record was dead. -/
theorem Sound.get_enter (h : Sound ident t) : t.get ident (t.enter make).1 = none := by
  unfold enter
  split
  · next id rest hfree => exact (h.dead id (by simp [hfree])).2
  · exact get_of_length_le (Nat.le_refl _)

/-- Entering a record changes no other lookup. -/
theorem get_enter_of_ne (hne : other ≠ (t.enter make).1) :
    (t.enter make).2.get ident other = t.get ident other := by
  unfold enter at *
  split at *
  · exact get_put_of_ne hne
  · have hget : (t.slots ++ [make t.slots.length])[other]? = t.slots[other]? := by
      rcases Nat.lt_or_gt_of_ne hne with hlt | hgt
      · exact List.getElem?_append_left hlt
      · have hlong : t.slots.length + 1 ≤ other := hgt
        rw [List.getElem?_eq_none (by simpa using hlong), List.getElem?_eq_none (by omega)]
    unfold get
    rw [hget]

/-- A new record is found at its index. -/
theorem Sound.get_entered (h : Sound ident t) (hmake : ∀ i, ident (make i) = i) :
    (t.enter make).2.get ident (t.enter make).1 = some (make (t.enter make).1) := by
  unfold enter
  split
  · next id rest hfree => exact get_put_self (h.dead id (by simp [hfree])).1 (hmake id)
  · rw [get_eq_some]
    exact ⟨List.getElem?_concat_length, hmake _⟩

/-- Entering a record keeps the queue sound. -/
theorem Sound.enter (h : Sound ident t) (hmake : ∀ i, ident (make i) = i) :
    Sound ident (t.enter make).2 := by
  have hentered := h.get_entered hmake
  -- An index that is dead afterwards was dead before, and it is not the one that was taken.
  have hold : ∀ i, (t.enter make).2.get ident i = none →
      i ≠ (t.enter make).1 ∧ t.get ident i = none := by
    intro i hdead
    have hne : i ≠ (t.enter make).1 := by
      rintro rfl
      rw [hentered] at hdead
      cases hdead
    exact ⟨hne, by rwa [get_enter_of_ne hne] at hdead⟩
  unfold Registry.enter at hold ⊢
  split at hold
  · next id rest hfree =>
    obtain ⟨hnot, hnodup⟩ := List.nodup_cons.mp (hfree ▸ h.nodup)
    refine ⟨hnodup, fun i hi => ?_, fun i hlt hdead => ?_⟩
    · obtain ⟨hlt, hdead⟩ := h.dead i (by simp [hfree, hi])
      have hne : i ≠ id := fun heq => hnot (heq ▸ hi)
      refine ⟨by simpa using hlt, ?_⟩
      exact (get_put_of_ne (t := t) hne).trans hdead
    · obtain ⟨hne, hdead⟩ := hold i hdead
      have hi : i ∈ t.free := h.queued i (by simpa using hlt) hdead
      rw [hfree] at hi
      exact (List.mem_cons.mp hi).resolve_left hne
  · next hfree =>
    refine ⟨List.nodup_nil, by simp, fun i hlt hdead => ?_⟩
    obtain ⟨hne, hdead⟩ := hold i hdead
    have hlt : i < t.slots.length := by
      rw [List.length_append, List.length_singleton] at hlt
      dsimp only at hne
      omega
    exact hfree ▸ h.queued i hlt hdead

/-- All that entering a record does. -/
theorem Sound.entered {t' : Registry R} (h : Sound ident t) (hmake : ∀ i, ident (make i) = i)
    (henter : t.enter make = (id, t')) :
    t.get ident id = none ∧ t'.get ident id = some (make id) ∧
      ∀ other, other ≠ id → t'.get ident other = t.get ident other := by
  obtain rfl : (t.enter make).1 = id := congrArg Prod.fst henter
  obtain rfl : (t.enter make).2 = t' := congrArg Prod.snd henter
  exact ⟨h.get_enter, h.get_entered hmake, fun _ hne => get_enter_of_ne hne⟩

/-- The table grows by at most one record, and only when no index is free. -/
theorem length_enter_le {bound : Nat} (h : t.slots.length ≤ bound)
    (hfree : t.free = [] → t.slots.length < bound) : (t.enter make).2.slots.length ≤ bound := by
  unfold Registry.enter
  split
  · simpa using h
  · next hnil =>
    rw [List.length_append]
    exact hfree hnil

end Registry
