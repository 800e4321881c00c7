import Mathlib.Data.List.Basic

/-!
# `OnyxShell.Lib.Runs`: runs of a machine that can refuse an event

A machine is a step function into `Option`: `none` refuses the event. `run` takes a list of
events. `Always` speaks about every state of a run, and `EachStep` about every event that is
taken, in the state that takes it.

`always_iff_eachStep` is the rule for a safety property that one kind of step can break. An
invariant implies the property, a good step keeps the invariant, and a bad step breaks the
property. Then the property holds throughout a run exactly when all its steps are good.

`answers` is for a machine that takes every event and answers it. When a view of its states
takes each step to a step of another machine with the same answer, it does so with each run
(`answers_refine`).
-/

set_option autoImplicit false

namespace Runs

variable {σ ε : Type} (step : σ → ε → Option σ)

/-- The state behind the events. -/
def run (s : σ) : List ε → Option σ
  | [] => some s
  | e :: events => (step s e).bind fun s => run s events

/-- `P` holds in every state of the run. -/
def Always (P : σ → Prop) (s : σ) : List ε → Prop
  | [] => P s
  | e :: events => P s ∧ ∀ s', step s e = some s' → Always P s' events

/-- `Q` holds of every event of the run, in the state that takes it. -/
def EachStep (Q : σ → ε → Prop) (s : σ) : List ε → Prop
  | [] => True
  | e :: events => ∀ s', step s e = some s' → Q s e ∧ EachStep Q s' events

variable {step} {s s' : σ} {Inv P : σ → Prop} {Q : σ → ε → Prop}

/-- A run takes its first event, and then the others. -/
theorem run_cons {e : ε} {events : List ε} :
    run step s (e :: events) = some s' ↔ ∃ s₁, step s e = some s₁ ∧ run step s₁ events = some s' :=
  Option.bind_eq_some_iff

/-- What the steps of a run keep, the run keeps. -/
theorem run_invariant {events : List ε}
    (keep : ∀ s e s', e ∈ events → Inv s → step s e = some s' → Inv s')
    (hinv : Inv s) (hrun : run step s events = some s') : Inv s' := by
  induction events generalizing s with
  | nil =>
    cases hrun
    exact hinv
  | cons e events ih =>
    rcases run_cons.mp hrun with ⟨s₁, hstep, hrest⟩
    refine ih ?_ (keep s e s₁ List.mem_cons_self hinv hstep) hrest
    intro s e s' he
    exact keep s e s' (List.mem_cons_of_mem _ he)

/-- What holds always holds at the start. -/
theorem Always.head {events : List ε} (h : Always step P s events) : P s := by
  cases events with
  | nil => exact h
  | cons e events => exact h.1

/-- What holds always holds at the end, if the run gets there. -/
theorem Always.last {events : List ε} (h : Always step P s events)
    (hrun : run step s events = some s') : P s' := by
  induction events generalizing s with
  | nil =>
    cases hrun
    exact h
  | cons e events ih =>
    rcases run_cons.mp hrun with ⟨s₁, hstep, hrest⟩
    exact ih (h.2 s₁ hstep) hrest

/-- A safety property that holds throughout a run exactly when each of its steps is good. -/
theorem always_iff_eachStep (imp : ∀ s, Inv s → P s)
    (keep : ∀ s e s', Inv s → Q s e → step s e = some s' → Inv s')
    (breaks : ∀ s e s', Inv s → ¬ Q s e → step s e = some s' → ¬ P s')
    (hinv : Inv s) (events : List ε) : Always step P s events ↔ EachStep step Q s events := by
  induction events generalizing s with
  | nil =>
    constructor
    · intro _
      trivial
    · intro _
      exact imp s hinv
  | cons e events ih =>
    constructor
    · intro h s' hstep
      have hgood : Q s e := by
        by_contra hbad
        exact breaks s e s' hinv hbad hstep (h.2 s' hstep).head
      exact ⟨hgood, (ih (keep s e s' hinv hgood hstep)).mp (h.2 s' hstep)⟩
    · intro h
      refine ⟨imp s hinv, ?_⟩
      intro s' hstep
      rcases h s' hstep with ⟨hgood, hrest⟩
      exact (ih (keep s e s' hinv hgood hstep)).mpr hrest

/-! ### Machines that answer -/

variable {α τ : Type}

/-- The answers to the events, and the state behind them. -/
def answers (f : σ → ε → α × σ) (s : σ) : List ε → List α × σ
  | [] => ([], s)
  | e :: events =>
    let rest := answers f (f s e).2 events
    ((f s e).1 :: rest.1, rest.2)

/-- A view that each step respects, each run respects. -/
theorem answers_refine {f : σ → ε → α × σ} {g : τ → ε → α × τ} (view : σ → τ)
    (hstep : ∀ s e, ((f s e).1, view (f s e).2) = g (view s) e) (s : σ) (events : List ε) :
    ((answers f s events).1, view (answers f s events).2) = answers g (view s) events := by
  induction events generalizing s with
  | nil => rfl
  | cons e events ih =>
    have hrest := ih (f s e).2
    rw [answers, answers, ← hstep s e]
    simp only
    rw [← hrest]

end Runs
