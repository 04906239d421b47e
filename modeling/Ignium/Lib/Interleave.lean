import Ignium.Lib.Machine

/-!
# Interleaved calls

Calls that run concurrently on a shared state. A call is a sequence of sections, each of them one
atomic step, and between two sections other calls may run theirs. What a call knows and where it is
in its code is its own state `L`: `next c s` runs the next section of a call in the state `c` on the
shared state `s`. A finished call has no next section and stays in the pool with its result.
`step_cases` says what a step of the pool is, and `at_begin` and `advances_set` say which calls are
there afterwards.
-/

namespace Interleave

/-- The shared state and the calls that have begun, in the order in which they began. -/
structure Pool (S L : Type*) where
  shared : S
  calls : List L

/-- A call begins, or one of the calls runs its next section. -/
inductive PoolOp (A : Type*) where
  | start (args : A)
  | advance (i : Nat)
  deriving DecidableEq, Repr

section Pool

variable {S L A : Type*}

/-- One step of the pool. -/
def step (enter : A → L) (next : L → S → Option (L × S)) (p : Pool S L) :
    PoolOp A → Option (Pool S L)
  | .start args => some { p with calls := p.calls ++ [enter args] }
  | .advance i =>
    match p.calls[i]? with
    | none => none
    | some c => (next c p.shared).map fun r => ⟨r.2, p.calls.set i r.1⟩

/-- The call that began as the `i`-th is in the state `c`. -/
def Pool.At (p : Pool S L) (i : Nat) (c : L) : Prop := p.calls[i]? = some c

variable {enter : A → L} {next : L → S → Option (L × S)} {p p' : Pool S L} {op : PoolOp A}
  {i j : Nat} {c c' d : L} {s : S}

theorem step_cases (h : step enter next p op = some p') :
    (∃ args, op = .start args ∧ p' = { p with calls := p.calls ++ [enter args] }) ∨
    ∃ i c c' s, op = .advance i ∧ p.At i c ∧ next c p.shared = some (c', s) ∧
      p' = ⟨s, p.calls.set i c'⟩ := by
  cases op with
  | start args =>
    cases h
    exact .inl ⟨args, rfl, rfl⟩
  | advance i =>
    simp only [step] at h
    split at h
    · cases h
    · next c hc =>
      obtain ⟨⟨c', s⟩, hnext, rfl⟩ := Option.map_eq_some_iff.mp h
      exact .inr ⟨i, c, c', s, rfl, hc, hnext, rfl⟩

theorem Pool.At.unique (h : p.At i c) (h' : p.At i d) : d = c := Option.some.inj (h'.symm.trans h)

/-- A call that begins comes last. -/
theorem at_begin : (⟨s, p.calls ++ [c]⟩ : Pool S L).At j d ↔
    p.At j d ∨ (j = p.calls.length ∧ d = c) := by
  unfold Pool.At
  rcases Nat.lt_trichotomy j p.calls.length with hlt | rfl | hgt
  · simp [List.getElem?_append_left hlt, Nat.ne_of_lt hlt]
  · simp [eq_comm]
  · have hbeyond : (p.calls ++ [c])[j]? = none := by
      rw [List.getElem?_eq_none_iff, List.length_append, List.length_singleton]
      exact Nat.succ_le_of_lt hgt
    simp [hbeyond, List.getElem?_eq_none (Nat.le_of_lt hgt), Nat.ne_of_gt hgt]

/-- The `i`-th call went from `c` to `c'`, and the other calls stayed where they were. -/
structure Advances (p p' : Pool S L) (i : Nat) (c c' : L) : Prop where
  before : p.At i c
  after : ∀ {j d}, p'.At j d ↔ (j = i ∧ d = c') ∨ (j ≠ i ∧ p.At j d)

/-- A section changes the state of its own call only. -/
theorem advances_set (h : p.At i c) (c' : L) (s : S) : Advances p ⟨s, p.calls.set i c'⟩ i c c' := by
  have hlt : i < p.calls.length := (List.getElem?_eq_some_iff.mp h).1
  refine ⟨h, fun {j d} => ?_⟩
  unfold Pool.At
  by_cases hj : j = i
  · subst hj
    simp [List.getElem?_set_self hlt, eq_comm]
  · simp [List.getElem?_set_ne (Ne.symm hj), hj]

/-- A call in a state that the section neither left nor reached is as it was. -/
theorem Advances.at_iff (h : Advances p p' i c c') (hc : d ≠ c) (hc' : d ≠ c') :
    p'.At j d ↔ p.At j d := by
  rw [h.after]
  constructor
  · rintro (⟨-, rfl⟩ | ⟨-, hat⟩)
    · exact absurd rfl hc'
    · exact hat
  · intro hat
    refine .inr ⟨?_, hat⟩
    rintro rfl
    exact hc (h.before.unique hat)

end Pool

end Interleave
