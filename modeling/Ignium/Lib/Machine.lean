import Mathlib.Data.List.Induction

/-!
# Runs of a partial step function

A machine is a partial step function `step : S → O → Option S`: an operation either leads to
one next state or stops the machine. `run` executes a list of operations. `Always` says a
property holds in every state a run passes through and `Each` says a condition holds at every
completed step. `always_of_each` is the invariant rule, `steps_of_each` is its form for what single
steps do, and `always_iff_each` adds the converse for a condition whose failure breaks the property
at once. `run_of_reached` is the rule for machines that must not stop, and `each_of_meets` checks a
condition along a given run.
-/

namespace Machine

variable {S O : Type*}

/-- Execute the operations in order. The run stops at the first operation that has no next
state. -/
def run (step : S → O → Option S) : S → List O → Option S
  | s, [] => some s
  | s, o :: rest => step s o >>= fun t => run step t rest

variable {step : S → O → Option S} {s t u : S} {o : O} {first rest ops : List O}

@[simp] theorem run_nil : run step s [] = some s := rfl

@[simp] theorem run_cons : run step s (o :: rest) = (step s o >>= fun t => run step t rest) := rfl

/-- Running a concatenation is running the first part and then the second. -/
theorem run_append : run step s (first ++ rest) = (run step s first >>= fun t => run step t rest) := by
  induction first generalizing s with
  | nil => rfl
  | cons o first ih =>
    simp only [List.cons_append, run_cons]
    cases step s o with
    | none => rfl
    | some t => exact ih

/-- A run extended by one operation. -/
theorem run_snoc (h : run step s ops = some t) (hstep : step t o = some u) :
    run step s (ops ++ [o]) = some u := by
  rw [run_append, h]
  change (step t o >>= fun t => run step t []) = some u
  rw [hstep]
  rfl

/-- `Always step s ops P` says `P` holds in every state the run of `ops` from `s` passes
through, its first and last states included. -/
def Always (step : S → O → Option S) (s : S) (ops : List O) (P : S → Prop) : Prop :=
  ∀ first rest t, ops = first ++ rest → run step s first = some t → P t

/-- `Each step s ops C` says `C` holds of the state before and of the operation at every step
that the run of `ops` from `s` completes. -/
def Each (step : S → O → Option S) (s : S) (ops : List O) (C : S → O → Prop) : Prop :=
  ∀ first o rest t u, ops = first ++ o :: rest → run step s first = some t →
    step t o = some u → C t o

/-- `Steps step s ops R` says `R` holds of the operation and of the states before and after it at
every step that the run of `ops` from `s` completes. -/
def Steps (step : S → O → Option S) (s : S) (ops : List O) (R : S → O → S → Prop) : Prop :=
  ∀ first o rest t u, ops = first ++ o :: rest → run step s first = some t →
    step t o = some u → R t o u

variable {P Inv : S → Prop} {C : S → O → Prop} {R : S → O → S → Prop}

/-- Peeling the first step off `Each`. -/
theorem Each.tail (h : Each step s (o :: ops) C) (hstep : step s o = some t) :
    Each step t ops C := by
  intro first o' rest t' u hops hrun hlast
  refine h (o :: first) o' rest t' u (by rw [hops]; rfl) ?_ hlast
  simp [hstep, hrun]

/-- Adding a last step to `Each`. -/
theorem Each.snoc (h : Each step s ops C) (o : O) (hlast : ∀ t, C t o) :
    Each step s (ops ++ [o]) C := by
  intro first o' rest t u hops hrun hstep
  rcases List.eq_nil_or_concat rest with rfl | ⟨init, final, rfl⟩
  · obtain ⟨-, heq⟩ := List.append_inj' hops rfl
    obtain rfl : o = o' := by simpa using heq
    exact hlast t
  · have hops' : ops ++ [o] = (first ++ o' :: init) ++ [final] := by simpa using hops
    obtain ⟨hsame, -⟩ := List.append_inj' hops' rfl
    exact h first o' init t u hsame hrun hstep

/-- The invariant rule: what holds at the start and survives every completed step that meets
the condition holds all along a run whose steps all meet it. -/
theorem always_of_each (hinit : Inv s) (hstep : ∀ s o t, Inv s → step s o = some t → C s o → Inv t)
    (hops : Each step s ops C) : Always step s ops Inv := by
  intro first rest t hsplit hrun
  subst hsplit
  induction first generalizing s with
  | nil =>
    cases hrun
    exact hinit
  | cons o first ih =>
    simp only [run_cons, bind, Option.bind_eq_some_iff] at hrun
    obtain ⟨middle, hfirst, hrun⟩ := hrun
    have hcond : C s o := hops [] o (first ++ rest) s middle rfl rfl hfirst
    exact ih (hstep s o middle hinit hfirst hcond) hrun (hops.tail hfirst)

/-- What an invariant gives for the steps that meet the condition. -/
theorem steps_of_each (hinit : Inv s)
    (hstep : ∀ s o t, Inv s → step s o = some t → C s o → Inv t ∧ R s o t)
    (hops : Each step s ops C) : Steps step s ops R := by
  intro first o rest t u hsplit hrun hlast
  have hinv : Inv t := always_of_each hinit (fun s o t hs hst hc => (hstep s o t hs hst hc).1) hops
    first (o :: rest) t hsplit hrun
  exact (hstep t o u hinv hlast (hops first o rest t u hsplit hrun hlast)).2

/-- When the condition keeps the invariant, the invariant gives the property, and a completed
step that fails the condition leaves a state without the property, the property holds all
along a run exactly when every step of it meets the condition. -/
theorem always_iff_each (hinit : Inv s) (hprop : ∀ s, Inv s → P s)
    (hstep : ∀ s o t, Inv s → step s o = some t → C s o → Inv t)
    (hbad : ∀ s o t, Inv s → step s o = some t → ¬ C s o → ¬ P t) :
    Always step s ops P ↔ Each step s ops C := by
  constructor
  · intro halways
    -- The induction reads the run backwards: the steps before the last one meet the
    -- condition, so the invariant holds where the last one starts.
    induction ops using List.reverseRecOn with
    | nil =>
      intro first o rest t u hops
      simp at hops
    | append_singleton ops last ih =>
      have hprefix : Each step s ops C := ih fun first rest t hops hrun =>
        halways first (rest ++ [last]) t (by simp [hops]) hrun
      intro first o rest t u hops hrun hlast
      rcases List.eq_nil_or_concat rest with hnil | ⟨init, final, hrest⟩
      · subst hnil
        obtain ⟨rfl, hlast'⟩ := List.append_inj' hops rfl
        obtain rfl : last = o := by simpa using hlast'
        have hinv : Inv t := always_of_each hinit hstep hprefix ops [] t (by simp) hrun
        by_contra hcond
        exact hbad t last u hinv hlast hcond
          (halways (ops ++ [last]) [] u (by simp) (run_snoc hrun hlast))
      · subst hrest
        have hops' : ops ++ [last] = (first ++ o :: init) ++ [final] := by simpa using hops
        obtain ⟨hsame, -⟩ := List.append_inj' hops' rfl
        exact hprefix first o init t u hsame hrun hlast
  · intro heach first rest t hops hrun
    exact hprop t (always_of_each hinit hstep heach first rest t hops hrun)

/-- `Reached step s ops C` says `C` holds of the state before and of the operation wherever the
run of `ops` from `s` gets to an operation, whether or not the operation completes. -/
def Reached (step : S → O → Option S) (s : S) (ops : List O) (C : S → O → Prop) : Prop :=
  ∀ first o rest t, ops = first ++ o :: rest → run step s first = some t → C t o

theorem Reached.each (h : Reached step s ops C) : Each step s ops C :=
  fun first o rest t _ hops hrun _ => h first o rest t hops hrun

theorem reached_nil : Reached step s [] C := by
  intro first o rest t hops
  simp at hops

/-- `Reached` read along the run. -/
theorem reached_cons (hfirst : C s o) (hrest : ∀ t, step s o = some t → Reached step t ops C) :
    Reached step s (o :: ops) C := by
  intro first o' rest t hops hrun
  cases first with
  | nil =>
    cases hops
    cases hrun
    exact hfirst
  | cons x first =>
    obtain ⟨rfl, htail⟩ := List.cons.inj hops
    simp only [run_cons, bind, Option.bind_eq_some_iff] at hrun
    obtain ⟨middle, hstep, hrun⟩ := hrun
    exact hrest middle hstep first o' rest t htail hrun

/-- The rule for machines that must not stop: where the condition gives a next state and keeps
the invariant, a run that meets it at every operation reaches its end. -/
theorem run_of_reached (hinit : Inv s)
    (hstep : ∀ s o, Inv s → C s o → ∃ t, step s o = some t ∧ Inv t)
    (hops : Reached step s ops C) : ∃ t, run step s ops = some t ∧ Inv t := by
  induction ops generalizing s with
  | nil => exact ⟨s, rfl, hinit⟩
  | cons o ops ih =>
    obtain ⟨middle, hfirst, hinv⟩ := hstep s o hinit (hops [] o ops s rfl rfl)
    have hrest : Reached step middle ops C := fun first o' rest t hsplit hrun =>
      hops (o :: first) o' rest t (by rw [hsplit]; rfl) (by simp [hfirst, hrun])
    obtain ⟨t, hrun, ht⟩ := ih hinv hrest
    exact ⟨t, by simp [hfirst, hrun], ht⟩

/-- The Boolean form of `Each`, which executes the run and tests the condition on the way. -/
def meets (step : S → O → Option S) (test : S → O → Bool) : S → List O → Bool
  | _, [] => true
  | s, o :: rest =>
    match step s o with
    | none => true
    | some t => test s o && meets step test t rest

/-- A run that passes a test at every step meets the condition that the test decides. -/
theorem each_of_meets {test : S → O → Bool} (htest : ∀ s o, test s o = true → C s o)
    (hops : meets step test s ops = true) : Each step s ops C := by
  induction ops generalizing s with
  | nil =>
    intro first o rest t u hops
    simp at hops
  | cons o ops ih =>
    intro first o' rest t u hsplit hrun hlast
    cases first with
    | nil =>
      cases hsplit
      cases hrun
      simp only [meets, hlast, Bool.and_eq_true] at hops
      exact htest s o hops.1
    | cons x first =>
      obtain ⟨rfl, htail⟩ := List.cons.inj hsplit
      simp only [run_cons, bind, Option.bind_eq_some_iff] at hrun
      obtain ⟨middle, hstep, hrun⟩ := hrun
      simp only [meets, hstep, Bool.and_eq_true] at hops
      exact ih hops.2 first o' rest t u htail hrun hlast

/-- A property that every completed step keeps holds all along every run. -/
theorem always_of_step (hinit : Inv s) (hstep : ∀ s o t, Inv s → step s o = some t → Inv t) :
    Always step s ops Inv :=
  always_of_each (C := fun _ _ => True) hinit (fun s o t hs hstep' _ => hstep s o t hs hstep')
    (fun _ _ _ _ _ _ _ _ => trivial)

end Machine
