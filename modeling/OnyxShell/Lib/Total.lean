import OnyxShell.Lib.Prog

/-!
# `OnyxShell.Lib.Total`: programs that come to an end

`Prog.twp` is `Prog.wp` with one more demand: the program returns, or is gone where it may be, and
it is never cut. A loop needs a number of turns that is enough, and its rule (`Routine.twp_loop`)
asks for a measure that every turn makes smaller. `twp_of_trace` and `twp_run` say what that means
for runs: as long as the other side answers as it may, the program has a next call or has come to its
end.

A loop that the other side can keep going has no such measure. `Monitor.within` looks at runs of so
many calls only, and there the calls that are left are one. `twp_within` takes what holds of all runs
over to these, and `twp_run_within` takes it back to a run that is short enough.
-/

set_option autoImplicit false

namespace Prog

variable {ι ο α β σ : Type}

/-- Every call is allowed, and the program returns where `Q` holds, or is gone where it may be. -/
def twp (M : Monitor ι ο σ) : Prog ι ο α → (α → σ → Prop) → σ → Prop
  | ret a, Q, s => Q a s
  | cut, _, _ => False
  | halt, _, s => M.gone s
  | call c k, Q, s => M.allows s c ∧ ∀ a, M.admits s c a → (k a).twp M Q (M.next s c a)

variable {M : Monitor ι ο σ} {s : σ}

/-- The rule for programs one after the other, by induction on the first. -/
theorem twp_bind (p : Prog ι ο α) (f : α → Prog ι ο β) (Q : β → σ → Prop) :
    (p.bind f).twp M Q s ↔ p.twp M (fun a s => (f a).twp M Q s) s := by
  induction p generalizing s with
  | ret a => rfl
  | cut => rfl
  | halt => rfl
  | call c k ih => exact and_congr_right fun _ => forall_congr' fun a => imp_congr_right fun _ => ih a

/-- A postcondition may be weakened. -/
theorem twp_mono {p : Prog ι ο α} {Q Q' : α → σ → Prop} (hp : p.twp M Q s)
    (hQ : ∀ a s, Q a s → Q' a s) : p.twp M Q' s := by
  induction p generalizing s with
  | ret a => exact hQ a s hp
  | cut => exact hp
  | halt => exact hp
  | call c k ih => exact ⟨hp.1, fun a ha => ih a (hp.2 a ha)⟩

/-- A run whose answers may come: its calls are allowed, and it has a next call, or it has returned
and `Q` holds, or it may be gone. -/
theorem twp_of_trace {p q : Prog ι ο α} {events : List (Event ι ο)} {Q : α → σ → Prop}
    (htrace : Trace p events q) (hp : p.twp M Q s) (hanswers : M.Answered s events) :
    M.Allowed s events ∧ q.twp M Q (M.after s events) := by
  induction htrace generalizing s with
  | nil p => exact ⟨trivial, hp⟩
  | cons rest ih =>
    have hrest := ih (hp.2 _ hanswers.1) hanswers.2
    exact ⟨⟨hp.1, hrest.1⟩, hrest.2⟩

/-- A program has a next call, has returned, or is gone where it may be. -/
theorem twp_cases {p : Prog ι ο α} {Q : α → σ → Prop} (h : p.twp M Q s) :
    (∃ c, p.nextCall = some c ∧ M.allows s c) ∨ (∃ a, p = ret a ∧ Q a s) ∨ p = halt ∧ M.gone s := by
  cases p with
  | ret a => exact Or.inr (Or.inl ⟨a, rfl, h⟩)
  | cut => exact h.elim
  | halt => exact Or.inr (Or.inr ⟨rfl, h⟩)
  | call c k => exact Or.inl ⟨c, rfl, h.1⟩

/-- A run whose answers may come goes on, or it has returned and `Q` holds, or it is gone. -/
theorem twp_run_cases {p q : Prog ι ο α} {events : List (Event ι ο)} {Q : α → σ → Prop}
    (htrace : Trace p events q) (hp : p.twp M Q s) (hanswers : M.Answered s events) :
    (∃ c, q.nextCall = some c) ∨ (∃ a, q = ret a ∧ Q a (M.after s events)) ∨
      q = halt ∧ M.gone (M.after s events) := by
  rcases twp_cases (twp_of_trace htrace hp hanswers).2 with ⟨c, hcall, -⟩ | hend
  · exact Or.inl ⟨c, hcall⟩
  · exact Or.inr hend

/-- The same where it may not be gone. -/
theorem twp_run {p q : Prog ι ο α} {events : List (Event ι ο)} {Q : α → σ → Prop}
    (htrace : Trace p events q) (hp : p.twp M Q s) (hanswers : M.Answered s events)
    (hgone : ¬ M.gone (M.after s events)) :
    (∃ c, q.nextCall = some c) ∨ ∃ a, q = ret a ∧ Q a (M.after s events) := by
  rcases twp_run_cases htrace hp hanswers with hcall | hreturned | ⟨-, hg⟩
  · exact Or.inl hcall
  · exact Or.inr hreturned
  · exact absurd hg hgone

/-! ### Runs of so many calls -/

namespace Monitor

variable (M : Monitor ι ο σ)

/-- The same monitor for runs of at most `n` calls. It counts the calls, and behind `n` of them no
answer comes any more. -/
def within (n : Nat) : Monitor ι ο (σ × Nat) where
  allows s c := M.allows s.1 c
  admits s c a := s.2 < n ∧ M.admits s.1 c a
  next s c a := (M.next s.1 c a, s.2 + 1)
  gone s := M.gone s.1

variable {M} {n : Nat}

/-- A run that is short enough has its answers in both. -/
theorem answered_within {events : List (Event ι ο)} (h : M.Answered s events) {k : Nat}
    (hn : k + events.length ≤ n) : (M.within n).Answered (s, k) events := by
  induction events generalizing s k with
  | nil => trivial
  | cons e events ih =>
    rw [List.length_cons] at hn
    exact ⟨⟨by omega, h.1⟩, ih h.2 (by omega)⟩

/-- The counter of `Monitor.within` has counted the events. -/
theorem after_within (n : Nat) (s : σ) (k : Nat) (events : List (Event ι ο)) :
    (M.within n).after (s, k) events = (M.after s events, k + events.length) := by
  induction events generalizing s k with
  | nil => rfl
  | cons e events ih =>
    refine (ih _ _).trans ?_
    rw [List.length_cons, Nat.add_right_comm, Nat.add_assoc]
    rfl

end Monitor

/-- What holds of all runs holds of those with so many calls, and no call is taken back. -/
theorem twp_within {p : Prog ι ο α} {Q : α → σ → Prop} (h : p.twp M Q s) (n k : Nat) :
    p.twp (M.within n) (fun a s' => Q a s'.1 ∧ k ≤ s'.2) (s, k) := by
  induction p generalizing s k with
  | ret a => exact ⟨h, Nat.le_refl k⟩
  | cut => exact h
  | halt => exact h
  | call c f ih =>
    refine ⟨h.1, fun a ha => twp_mono (ih a (h.2 a ha.2) (k + 1)) ?_⟩
    rintro b s' ⟨hQ, hk⟩
    exact ⟨hQ, Nat.le_of_succ_le hk⟩

/-- A run of at most `n` calls goes on, or it has returned and `Q` holds. -/
theorem twp_run_within {p q : Prog ι ο α} {events : List (Event ι ο)} {Q : α → σ × Nat → Prop}
    {n : Nat} (htrace : Trace p events q) (hp : p.twp (M.within n) Q (s, 0))
    (hanswers : M.Answered s events) (hn : events.length ≤ n) (hgone : ¬ M.gone (M.after s events)) :
    (∃ c, q.nextCall = some c) ∨ ∃ a, q = ret a ∧ Q a (M.after s events, events.length) := by
  have hafter : (M.within n).after (s, 0) events = (M.after s events, events.length) := by
    rw [Monitor.after_within, Nat.zero_add]
  have hanswers' : (M.within n).Answered (s, 0) events :=
    Monitor.answered_within hanswers (by omega)
  have hgone' : ¬ (M.within n).gone ((M.within n).after (s, 0) events) := by
    rw [hafter]
    exact hgone
  have hrun := twp_run htrace hp hanswers' hgone'
  rwa [hafter] at hrun

end Prog

namespace Routine

variable {γ ι ο α β σ : Type}

/-- `Prog.twp` with the memory. -/
def twp (M : Prog.Monitor ι ο σ) (x : Routine γ ι ο α) (Q : α → γ → σ → Prop) (g : γ) (s : σ) :
    Prop :=
  Prog.twp M (x g) (fun r s => Q r.1 r.2 s) s

variable {M : Prog.Monitor ι ο σ} {Q : α → γ → σ → Prop} {g : γ} {s : σ}

/-- A routine that has returned is at its postcondition. -/
@[simp] theorem twp_pure (a : α) : twp M (pure a) Q g s ↔ Q a g s := Iff.rfl

/-- The rule for routines one after the other. -/
@[simp] theorem twp_bind (x : Routine γ ι ο β) (f : β → Routine γ ι ο α) :
    twp M (x >>= f) Q g s ↔ twp M x (fun b g s => twp M (f b) Q g s) g s :=
  Prog.twp_bind (x g) _ _

/-- Reading the memory. -/
@[simp] theorem twp_get (Q : γ → γ → σ → Prop) :
    twp M (get : Routine γ ι ο γ) Q g s ↔ Q g g s :=
  Iff.rfl

/-- Changing the memory by a function. -/
@[simp] theorem twp_modify (f : γ → γ) (Q : PUnit → γ → σ → Prop) :
    twp M (modify f : Routine γ ι ο PUnit) Q g s ↔ Q ⟨⟩ (f g) s :=
  Iff.rfl

/-- Replacing the memory. -/
@[simp] theorem twp_set (g' : γ) (Q : PUnit → γ → σ → Prop) :
    twp M (set g' : Routine γ ι ο PUnit) Q g s ↔ Q ⟨⟩ g' s :=
  Iff.rfl

/-- A postcondition of a routine may be weakened. -/
theorem twp_mono {x : Routine γ ι ο α} {Q Q' : α → γ → σ → Prop} (hx : twp M x Q g s)
    (hQ : ∀ a g s, Q a g s → Q' a g s) : twp M x Q' g s :=
  Prog.twp_mono hx fun r s h => hQ r.1 r.2 s h

/-- `Prog.twp_within` with the memory. -/
theorem twp_within {x : Routine γ ι ο α} (h : twp M x Q g s) (n k : Nat) :
    twp (M.within n) x (fun a g' s' => Q a g' s'.1 ∧ k ≤ s'.2) g (s, k) :=
  Prog.twp_within h n k

/-- A loop whose turns keep `Inv` and make the measure smaller ends within so many turns. -/
theorem twp_loop {body : β → Routine γ ι ο (Loop.Turn α β)} (Inv : β → γ → σ → Prop)
    (measure : β → γ → σ → Nat)
    (turn : ∀ b g s, Inv b g s → twp M (body b)
      (fun t g' s' => match t with
        | .ret a => Q a g' s'
        | .next b' => Inv b' g' s' ∧ measure b' g' s' < measure b g s) g s)
    {b : β} (h : Inv b g s) {n : Nat} (hn : measure b g s < n) : twp M (loop body n b) Q g s := by
  induction n generalizing b g s with
  | zero => cases hn
  | succ n ih =>
    rw [loop, twp_bind]
    refine twp_mono (turn b g s h) ?_
    intro t g' s' ht
    cases t with
    | ret a => exact ht
    | next b' => exact ih ht.1 (Nat.lt_of_lt_of_le ht.2 (Nat.le_of_lt_succ hn))

end Routine
