import Mathlib.Data.List.Basic

/-!
# `OnyxShell.Lib.Loop`: while loops that may return or fail

The body of a loop on a state `σ` may fail (an index out of bounds), return a value from the
middle of the loop, or go on with a new state. `iterate` runs it for a number of turns.

`Rule` is the rule of total correctness for such a loop: an invariant under which the body does
not fail, and a measure that a turn makes smaller. Then no number of turns fails or breaks the
invariant (`Rule.iterate_safe`), and some number of them ends the loop (`Rule.ends`).
-/

set_option autoImplicit false

namespace Loop

variable {ρ σ : Type}

/-- What a turn comes to. -/
inductive Turn (ρ σ : Type)
  /-- `return r`. -/
  | ret (r : ρ)
  /-- The next turn. -/
  | next (s : σ)
deriving DecidableEq, Repr

/-- `while cond { body }`, for at most so many turns. `none` is a body that fails. -/
def iterate (cond : σ → Bool) (body : σ → Option (Turn ρ σ)) (s : σ) : Nat → Option (Turn ρ σ)
  | 0 => some (.next s)
  | k + 1 =>
    if cond s then
      match body s with
      | none => none
      | some (.ret r) => some (.ret r)
      | some (.next s') => iterate cond body s' k
    else some (.next s)

variable {cond : σ → Bool} {body : σ → Option (Turn ρ σ)} {Inv : σ → Prop} {m : σ → Nat} {s : σ}

/-- A loop whose condition fails is over. -/
theorem iterate_stop (h : cond s = false) (k : Nat) : iterate cond body s k = some (.next s) := by
  cases k with
  | zero => rfl
  | succ k => rw [iterate, if_neg (by rw [h]; exact Bool.false_ne_true)]

/-- A turn that returns ends the loop. -/
theorem iterate_ret {r : ρ} (h : cond s = true) (hbody : body s = some (.ret r)) (k : Nat) :
    iterate cond body s (k + 1) = some (.ret r) := by
  rw [iterate, if_pos h, hbody]

/-- A turn that goes on is followed by the rest of the loop, with one turn less to go. -/
theorem iterate_next {s' : σ} (h : cond s = true) (hbody : body s = some (.next s')) (k : Nat) :
    iterate cond body s (k + 1) = iterate cond body s' k := by
  rw [iterate, if_pos h, hbody]

/-- An invariant and a measure of the loop. -/
structure Rule (cond : σ → Bool) (body : σ → Option (Turn ρ σ)) (Inv : σ → Prop) (m : σ → Nat) :
    Prop where
  safe : ∀ s, Inv s → cond s = true → ∃ r, body s = some r
  keep : ∀ s s', Inv s → cond s = true → body s = some (.next s') → Inv s'
  drop : ∀ s s', Inv s → cond s = true → body s = some (.next s') → m s' < m s

namespace Rule

variable (h : Rule cond body Inv m)
include h

/-- No number of turns fails, and the invariant holds behind each. -/
theorem iterate_safe (hs : Inv s) (k : Nat) :
    ∃ r, iterate cond body s k = some r ∧ ∀ s', r = .next s' → Inv s' := by
  induction k generalizing s with
  | zero =>
    refine ⟨.next s, rfl, ?_⟩
    intro s' heq
    cases heq
    exact hs
  | succ k ih =>
    cases hcond : cond s with
    | false =>
      refine ⟨.next s, iterate_stop hcond _, ?_⟩
      intro s' heq
      cases heq
      exact hs
    | true =>
      rcases h.safe s hs hcond with ⟨r, hbody⟩
      cases r with
      | ret r => exact ⟨.ret r, iterate_ret hcond hbody k, fun s' heq => nomatch heq⟩
      | next s' =>
        rw [iterate_next hcond hbody]
        exact ih (h.keep s s' hs hcond hbody)

/-- Some number of turns ends the loop. -/
theorem ends (hs : Inv s) :
    ∃ k ≤ m s + 1, ∃ r, iterate cond body s k = some r ∧ ∀ s', r = .next s' → cond s' = false := by
  -- A turn that goes on is paid for by the measure, and one more turn may return.
  induction hm : m s using Nat.strongRecOn generalizing s with
  | ind n ih =>
    subst hm
    cases hcond : cond s with
    | false =>
      refine ⟨0, Nat.zero_le _, .next s, rfl, ?_⟩
      intro s' heq
      cases heq
      exact hcond
    | true =>
      rcases h.safe s hs hcond with ⟨r, hbody⟩
      cases r with
      | ret r =>
        exact ⟨1, Nat.succ_le_succ (Nat.zero_le _), .ret r, iterate_ret hcond hbody 0,
          fun s' heq => nomatch heq⟩
      | next s' =>
        have hdrop := h.drop s s' hs hcond hbody
        rcases ih (m s') hdrop (h.keep s s' hs hcond hbody) rfl with ⟨k, hk, r, hrun, hend⟩
        refine ⟨k + 1, by omega, r, ?_, hend⟩
        rw [iterate_next hcond hbody, hrun]

end Rule

end Loop
