import Mathlib.Data.Option.Basic

/-!
# Fallible calls on a state

The calls of a program that returns error values: a call takes a state and either stops the
program, which is `none`, or returns a value or an error together with the next state.
`Outcome.andThen` is the early return on errors, `Outcome.expect` stops the program on an error,
`Outcome.discard` goes on in either case, and `foldlM_induction` is the loop rule.
-/

/-- The result of a fallible call: `none` when the program stops, otherwise the value or the
error and the next state. -/
abbrev Outcome (S ε α : Type*) := Option (Except ε α × S)

namespace Outcome

variable {S ε α β : Type*}

/-- Go on with the value, or return the error at once. -/
def andThen (x : Outcome S ε α) (f : α → S → Outcome S ε β) : Outcome S ε β :=
  match x with
  | none => none
  | some (.error e, s) => some (.error e, s)
  | some (.ok a, s) => f a s

/-- Stop the program on an error. -/
def expect (x : Outcome S ε α) : Option S :=
  match x with
  | some (.ok _, s) => some s
  | _ => none

/-- Go on whatever the call returned. -/
def discard (x : Outcome S ε α) : Option S := x.map Prod.snd

/-- The next state of a call that returns an error. -/
def failed (x : Outcome S ε α) : Option S :=
  match x with
  | some (.error _, s) => some s
  | _ => none

/-- Return an error once the work before it is done. -/
def failAfter (work : Option S) (e : ε) : Outcome S ε α := work.map fun s => (.error e, s)

variable {x : Outcome S ε α} {f : α → S → Outcome S ε β} {r : Except ε β} {a : α} {s t : S}

/-- A sequence ends with the error of its first call, or its first call returns a value and the
second one ends it. -/
theorem andThen_eq_some (h : x.andThen f = some (r, t)) :
    (∃ e, x = some (.error e, t) ∧ r = .error e) ∨
      ∃ a s, x = some (.ok a, s) ∧ f a s = some (r, t) := by
  rcases x with _ | ⟨e | a, s⟩
  · cases h
  · cases h
    exact .inl ⟨e, rfl, rfl⟩
  · exact .inr ⟨a, s, rfl, h⟩

@[simp] theorem andThen_ok : andThen (some (.ok a, s)) f = f a s := rfl

/-- `expect` goes on only after a success. -/
theorem expect_eq_some (h : x.expect = some t) : ∃ a, x = some (.ok a, t) := by
  rcases x with _ | ⟨e | a, s⟩
  · cases h
  · cases h
  · cases h
    exact ⟨a, rfl⟩

@[simp] theorem expect_ok : expect (some ((.ok a : Except ε α), s)) = some s := rfl

theorem discard_eq_some (h : x.discard = some t) : ∃ r, x = some (r, t) := by
  obtain ⟨⟨r, s⟩, hx, rfl⟩ := Option.map_eq_some_iff.mp h
  exact ⟨r, hx⟩

theorem failed_eq_some (h : x.failed = some t) : ∃ e, x = some (.error e, t) := by
  rcases x with _ | ⟨e | a, s⟩
  · cases h
  · cases h
    exact ⟨e, rfl⟩
  · cases h

theorem failAfter_eq_some {work : Option S} {e : ε} {r : Except ε α}
    (h : failAfter work e = some (r, t)) : work = some t ∧ r = .error e := by
  obtain ⟨s, hwork, ⟨⟩⟩ := Option.map_eq_some_iff.mp h
  exact ⟨hwork, rfl⟩

end Outcome

/-- The loop rule: what every completed round of a loop keeps holds after the loop. -/
theorem List.foldlM_induction {S β : Type*} {body : S → β → Option S} {P : S → Prop}
    {items : List β} {s t : S} (hrun : items.foldlM body s = some t) (hs : P s)
    (hbody : ∀ s x t, x ∈ items → P s → body s x = some t → P t) : P t := by
  induction items generalizing s with
  | nil =>
    cases hrun
    exact hs
  | cons x items ih =>
    simp only [List.foldlM_cons, bind, Option.bind_eq_some_iff] at hrun
    obtain ⟨middle, hfirst, hrest⟩ := hrun
    refine ih hrest (hbody s x middle (by simp) hs hfirst) fun s' y t' hy => ?_
    exact hbody s' y t' (by simp [hy])

/-- The loop rule for two loops over the same items: what every completed round keeps of the states
of both loops holds after them. -/
theorem List.foldlM_simulation {S T β : Type*} {body : S → β → Option S} {spec : T → β → T}
    {R : T → S → Prop} {items : List β} {s t : S} {u : T} (hrun : items.foldlM body s = some t)
    (hs : R u s) (hbody : ∀ u s x s', x ∈ items → R u s → body s x = some s' → R (spec u x) s') :
    R (items.foldl spec u) t := by
  induction items generalizing s u with
  | nil =>
    cases hrun
    exact hs
  | cons x items ih =>
    simp only [List.foldlM_cons, bind, Option.bind_eq_some_iff] at hrun
    obtain ⟨middle, hfirst, hrest⟩ := hrun
    refine ih hrest (hbody u s x middle (by simp) hs hfirst) fun u' s' y t' hy => ?_
    exact hbody u' s' y t' (by simp [hy])
