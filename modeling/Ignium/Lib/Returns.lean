import Mathlib.Data.Option.Basic

/-!
# Programs that return

A program that may stop without a result, because an access or a computation is not allowed, is an
`Option`. `Returns x Q` is its total correctness: it returns, and what it returns meets `Q`. The
rules follow the program, with `Returns.bind` for a sequence and `Returns.loop` for a loop, which
needs an invariant and a measure that every round decreases. A loop has a bound on its rounds and
stops without a result when it is reached: a loop that returns has ended by itself.
-/

/-- The program returns a result that meets a condition. -/
def Returns {α : Type*} (x : Option α) (Q : α → Prop) : Prop := ∃ a, x = some a ∧ Q a

/-- What a round of a loop does: go on or end the loop. -/
inductive Round (S R : Type) where
  | next (s : S)
  | done (r : R)

/-- What a condition on states and one on results say of a round. -/
def Round.Meets {S R : Type} (P : S → Prop) (Q : R → Prop) : Round S R → Prop
  | .next s => P s
  | .done r => Q r

/-- Repeat the rounds of a loop until one ends it, at most `fuel` times. -/
def Round.loop {S R : Type} (round : S → Option (Round S R)) : Nat → S → Option R
  | 0, _ => none
  | fuel + 1, s =>
    match round s with
    | none => none
    | some (.next s) => Round.loop round fuel s
    | some (.done r) => some r

/-- The states that the rounds of a loop start in. -/
def Round.visits {S R : Type} (round : S → Option (Round S R)) : Nat → S → List S
  | 0, _ => []
  | fuel + 1, s =>
    s :: match round s with
      | some (.next t) => Round.visits round fuel t
      | _ => []

namespace Returns

variable {α β : Type} {x : Option α} {f : α → Option β} {a : α} {P : α → Prop} {Q : β → Prop}

theorem ret (h : P a) : Returns (some a) P := ⟨a, rfl, h⟩

theorem bind (hx : Returns x P) (hf : ∀ a, P a → Returns (f a) Q) : Returns (x >>= f) Q := by
  obtain ⟨a, rfl, ha⟩ := hx
  exact hf a ha

theorem mono {P' : α → Prop} (hx : Returns x P) (hP : ∀ a, P a → P' a) : Returns x P' := by
  obtain ⟨a, rfl, ha⟩ := hx
  exact ⟨a, rfl, hP a ha⟩

theorem ite {c : Prop} [Decidable c] {y : Option α} (hx : c → Returns x P)
    (hy : ¬ c → Returns y P) : Returns (if c then x else y) P := by
  split
  · exact hx ‹_›
  · exact hy ‹_›

/-- What is returned is the result. -/
theorem self (hx : Returns x P) : Returns x fun a => x = some a ∧ P a := by
  obtain ⟨a, rfl, ha⟩ := hx
  exact ⟨a, rfl, rfl, ha⟩

/-- A loop returns if every round keeps the invariant and decreases the measure, or ends the loop
with a result that meets the condition. -/
theorem loop {S R : Type} {round : S → Option (Round S R)} {Inv : S → Prop} {Q : R → Prop}
    (measure : S → Nat)
    (hround : ∀ s, Inv s → Returns (round s) (Round.Meets (fun t => Inv t ∧ measure t < measure s) Q))
    {fuel : Nat} {s : S} (hs : Inv s) (hfuel : measure s < fuel) :
    Returns (Round.loop round fuel s) Q := by
  induction fuel generalizing s with
  | zero => exact absurd hfuel (Nat.not_lt_zero _)
  | succ fuel ih =>
    obtain ⟨result, hresult, hmeets⟩ := hround s hs
    unfold Round.loop
    rw [hresult]
    cases result with
    | next t => exact ih hmeets.1 (by have := hmeets.2; omega)
    | done r => exact ⟨r, rfl, hmeets⟩

end Returns
