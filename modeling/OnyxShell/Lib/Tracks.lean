import OnyxShell.Lib.Prog

/-!
# `OnyxShell.Lib.Tracks`: two programs side by side

`Prog.Tracks S p q` says that `q` makes the calls of `p`, whatever the answers are, and that the
results of both are related by `S`. It holds as far as `p` is followed: where `p` is cut, `q` may do
anything. So it says that a loop with more turns only goes on where the loop with fewer has been
cut, and, both ways round, that two programs make the same calls.

For a `Routine` the memories are related too. `Routine.Tracks R x x'` starts from memories that are
related by `R`, and ends with the same result in such memories. What `R` does not relate is what the
two routines do not look at.
-/

set_option autoImplicit false

namespace Prog

variable {ι ο α β α' β' : Type}

/-- `q` does what `p` does, as far as `p` is followed. -/
inductive Tracks (S : α → β → Prop) : Prog ι ο α → Prog ι ο β → Prop
  | ret {a : α} {b : β} (h : S a b) : Tracks S (.ret a) (.ret b)
  | cut (q : Prog ι ο β) : Tracks S .cut q
  | halt : Tracks S .halt .halt
  | call {c : ι} {k : ο → Prog ι ο α} {k' : ο → Prog ι ο β} (h : ∀ a, Tracks S (k a) (k' a)) :
    Tracks S (.call c k) (.call c k')

namespace Tracks

variable {S : α → β → Prop} {T : α' → β' → Prop} {p : Prog ι ο α} {q : Prog ι ο β}

/-- A program tracks itself, for any relation that holds between equal results. -/
theorem refl {S : α → α → Prop} (hS : ∀ a, S a a) (p : Prog ι ο α) : Tracks S p p := by
  induction p with
  | ret a => exact .ret (hS a)
  | cut => exact .cut _
  | halt => exact .halt
  | call c k ih => exact .call ih

/-- One program behind the other. -/
theorem bind {f : α → Prog ι ο α'} {f' : β → Prog ι ο β'} (h : Tracks S p q)
    (hf : ∀ a b, S a b → Tracks T (f a) (f' b)) : Tracks T (p.bind f) (q.bind f') := by
  induction h with
  | ret hab => exact hf _ _ hab
  | cut q => exact .cut _
  | halt => exact .halt
  | call _ ih => exact .call ih

/-- The relation between the results may be weakened. -/
theorem mono {S' : α → β → Prop} (h : Tracks S p q) (hS : ∀ a b, S a b → S' a b) :
    Tracks S' p q := by
  induction h with
  | ret hab => exact .ret (hS _ _ hab)
  | cut q => exact .cut q
  | halt => exact .halt
  | call _ ih => exact .call ih

/-- A run of the one is a run of the other. -/
theorem trace {events : List (Event ι ο)} {p' : Prog ι ο α} (h : Tracks S p q)
    (htrace : Trace p events p') : ∃ q', Trace q events q' ∧ Tracks S p' q' := by
  induction htrace generalizing q with
  | nil p => exact ⟨q, .nil q, h⟩
  | cons _ ih =>
    cases h with
    | call hk =>
      rcases ih (hk _) with ⟨q', htrace', hq'⟩
      exact ⟨q', .cons htrace', hq'⟩

/-- Programs that track each other with equal results are the same. -/
theorem antisymm {p q : Prog ι ο α} (h : Tracks Eq p q) (h' : Tracks Eq q p) : p = q := by
  induction h with
  | ret hab => rw [hab]
  | cut q =>
    cases h'
    rfl
  | halt => rfl
  | call _ ih =>
    cases h' with
    | call hk => exact congrArg (Prog.call _) (funext fun a => ih a (hk a))

end Tracks

end Prog

namespace Routine

variable {γ ι ο α β : Type}

/-- From related memories, `x'` does what `x` does, with the same result and related memories. -/
def Tracks (R : γ → γ → Prop) (x x' : Routine γ ι ο α) : Prop :=
  ∀ g g', R g g' → Prog.Tracks (fun r r' => r.1 = r'.1 ∧ R r.2 r'.2) (x g) (x' g')

namespace Tracks

variable {R : γ → γ → Prop}

/-- From the same memory every routine does the same. -/
theorem refl (x : Routine γ ι ο α) : Tracks Eq x x := by
  rintro g _ rfl
  exact .refl (fun _ => ⟨rfl, rfl⟩) _

/-- Returning the same. -/
theorem pure (a : α) : Tracks R (Pure.pure a : Routine γ ι ο α) (Pure.pure a) :=
  fun _ _ h => .ret ⟨rfl, h⟩

/-- Routines one after the other, if each of them tracks its counterpart. -/
theorem bind {x x' : Routine γ ι ο β} {f f' : β → Routine γ ι ο α} (hx : Tracks R x x')
    (hf : ∀ b, Tracks R (f b) (f' b)) : Tracks R (x >>= f) (x' >>= f') := by
  intro g g' h
  refine Prog.Tracks.bind (hx g g' h) ?_
  rintro ⟨b, g₁⟩ ⟨_, g₁'⟩ ⟨rfl, h₁⟩
  exact hf b g₁ g₁' h₁

/-- The same call. -/
theorem call (c : ι) : Tracks R (Routine.call c : Routine γ ι ο ο) (Routine.call c) :=
  fun _ _ h => .call fun _ => .ret ⟨rfl, h⟩

/-- Both processes end. -/
theorem halt : Tracks R (Routine.halt : Routine γ ι ο α) Routine.halt := fun _ _ _ => .halt

/-- Where the first run is cut off, the second may do anything. It is what a larger budget
needs. -/
theorem cut (x : Routine γ ι ο α) : Tracks R Routine.cut x := fun _ _ _ => .cut _

/-- What is read must not differ where the memories may. -/
theorem read {f f' : γ → Routine γ ι ο α}
    (hf : ∀ g g', R g g' → Prog.Tracks (fun r r' => r.1 = r'.1 ∧ R r.2 r'.2) (f g g) (f' g' g')) :
    Tracks R (get >>= f) (get >>= f') :=
  fun g g' h => hf g g' h

/-- Changes of the memory that keep the relation. -/
theorem change {f f' : γ → γ} (hf : ∀ g g', R g g' → R (f g) (f' g')) :
    Tracks R (modify f : Routine γ ι ο PUnit) (modify f') :=
  fun g g' h => .ret ⟨rfl, hf g g' h⟩

/-- A choice by the same condition. -/
theorem ite {c : Prop} [Decidable c] {x x' y y' : Routine γ ι ο α} (hx : Tracks R x x')
    (hy : Tracks R y y') : Tracks R (if c then x else y) (if c then x' else y') := by
  split
  · exact hx
  · exact hy

/-- A loop, with more turns on the one side. -/
theorem loop {body body' : β → Routine γ ι ο (Loop.Turn α β)} {n n' : Nat} (hn : n ≤ n')
    (hbody : ∀ b, Tracks R (body b) (body' b)) (b : β) :
    Tracks R (Routine.loop body n b) (Routine.loop body' n' b) := by
  induction n generalizing n' b with
  | zero => exact .cut _
  | succ n ih =>
    cases n' with
    | zero => cases hn
    | succ n' =>
      refine .bind (hbody b) fun t => ?_
      cases t with
      | ret a => exact .pure a
      | next b => exact ih (Nat.le_of_succ_le_succ hn) b

/-- A loop over the same list, by induction on it. -/
theorem forM {l : List β} {f f' : β → Routine γ ι ο PUnit} (hf : ∀ b, Tracks R (f b) (f' b)) :
    Tracks R (l.forM f) (l.forM f') := by
  induction l with
  | nil => exact .pure _
  | cons b l ih => exact .bind (hf b) fun _ => ih

end Tracks

end Routine
