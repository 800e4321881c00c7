import OnyxShell.Lib.Loop

/-!
# `OnyxShell.Lib.Prog`: programs that make calls

A program is a tree: it returns, or it makes a call and goes on with the answer, whatever that
is. `halt` is a program that is gone, and `cut` one that is not followed any further: a loop is
given a number of turns and ends in `cut` behind them. A `Routine` is a program with a memory.

A `Monitor` watches the calls and the answers of a run. It says which calls are allowed, which
answers the other side may give, and what it remembers of both. `wp M p Q s` is what has to hold
of `s` so that every call of `p` is allowed and `Q` holds where `p` returns. There is one rule
for each way to build a program (`wp_bind`, `Routine.wp_loop`, `Routine.wp_forM`), and
`wp_of_trace` says what `wp` is about: along every run that the other side answers as it
may, each call is allowed.
-/

set_option autoImplicit false

/-- A program with calls `ι`, answers `ο` and results `α`. -/
inductive Prog (ι ο α : Type) : Type
  | ret (a : α)
  /-- Not followed any further. -/
  | cut
  /-- The process is gone. -/
  | halt
  | call (c : ι) (k : ο → Prog ι ο α)

namespace Prog

variable {ι ο α β σ : Type}

/-- One program behind the other. -/
def bind : Prog ι ο α → (α → Prog ι ο β) → Prog ι ο β
  | ret a, f => f a
  | cut, _ => cut
  | halt, _ => halt
  | call c k, f => call c fun a => (k a).bind f

instance : Monad (Prog ι ο) where
  pure := ret
  bind := bind

/-- Returning behind a program changes nothing. -/
theorem bind_ret (p : Prog ι ο α) : p.bind ret = p := by
  induction p with
  | ret a => rfl
  | cut => rfl
  | halt => rfl
  | call c k ih => exact congrArg (call c) (funext ih)

/-- Programs one after the other may be put together in either way. -/
theorem bind_bind {γ : Type} (p : Prog ι ο α) (f : α → Prog ι ο β) (g : β → Prog ι ο γ) :
    (p.bind f).bind g = p.bind fun a => (f a).bind g := by
  induction p with
  | ret a => rfl
  | cut => rfl
  | halt => rfl
  | call c k ih => exact congrArg (call c) (funext ih)

instance : LawfulMonad (Prog ι ο) :=
  LawfulMonad.mk' _ bind_ret (fun _ _ => rfl) bind_bind

/-! ### Monitors -/

/-- What watches a run: the calls that are allowed, the answers that may come, what is remembered
of them, and where a program that should return may be gone instead. -/
structure Monitor (ι ο σ : Type) where
  allows : σ → ι → Prop
  admits : σ → ι → ο → Prop
  next : σ → ι → ο → σ
  gone : σ → Prop := fun _ => False

/-- Every call is allowed, and `Q` holds where the program returns. -/
def wp (M : Monitor ι ο σ) : Prog ι ο α → (α → σ → Prop) → σ → Prop
  | ret a, Q, s => Q a s
  | cut, _, _ => True
  | halt, _, _ => True
  | call c k, Q, s => M.allows s c ∧ ∀ a, M.admits s c a → (k a).wp M Q (M.next s c a)

variable {M : Monitor ι ο σ} {s : σ}

/-- One program behind the other. -/
theorem wp_bind (p : Prog ι ο α) (f : α → Prog ι ο β) (Q : β → σ → Prop) :
    (p.bind f).wp M Q s ↔ p.wp M (fun a s => (f a).wp M Q s) s := by
  induction p generalizing s with
  | ret a => rfl
  | cut => rfl
  | halt => rfl
  | call c k ih => exact and_congr_right fun _ => forall_congr' fun a => imp_congr_right fun _ => ih a

/-- Less has to hold for less. -/
theorem wp_mono {p : Prog ι ο α} {Q Q' : α → σ → Prop} (hp : p.wp M Q s)
    (hQ : ∀ a s, Q a s → Q' a s) : p.wp M Q' s := by
  induction p generalizing s with
  | ret a => exact hQ a s hp
  | cut => trivial
  | halt => trivial
  | call c k ih => exact ⟨hp.1, fun a ha => ih a (hp.2 a ha)⟩

/-! ### Runs -/

/-- A call with its answer. -/
abbrev Event (ι ο : Type) : Type := ι × ο

/-- `q` is what is left of `p` behind the events. -/
inductive Trace : Prog ι ο α → List (Event ι ο) → Prog ι ο α → Prop
  | nil (p : Prog ι ο α) : Trace p [] p
  | cons {c : ι} {k : ο → Prog ι ο α} {a : ο} {events : List (Event ι ο)} {q : Prog ι ο α}
      (rest : Trace (k a) events q) : Trace (call c k) ((c, a) :: events) q

/-- A run of one program behind another is still in the first, or it has come to the second. -/
theorem Trace.bind_cases {p : Prog ι ο α} {f : α → Prog ι ο β} {events : List (Event ι ο)}
    {q : Prog ι ο β} (h : Trace (p.bind f) events q) :
    (∃ p', Trace p events p' ∧ q = p'.bind f) ∨
      ∃ a front back, events = front ++ back ∧ Trace p front (ret a) ∧ Trace (f a) back q := by
  induction p generalizing events with
  | ret a => exact Or.inr ⟨a, [], events, rfl, .nil _, h⟩
  | cut =>
    cases h
    exact Or.inl ⟨cut, .nil _, rfl⟩
  | halt =>
    cases h
    exact Or.inl ⟨halt, .nil _, rfl⟩
  | call c k ih =>
    cases h with
    | nil => exact Or.inl ⟨call c k, .nil _, rfl⟩
    | cons rest =>
      rcases ih _ rest with ⟨p', htrace, hq⟩ | ⟨a, front, back, rfl, hfront, hback⟩
      · exact Or.inl ⟨p', .cons htrace, hq⟩
      · exact Or.inr ⟨a, _ :: front, back, rfl, .cons hfront, hback⟩

/-- What is left of `p` behind the events, if they are its calls. -/
def follow [DecidableEq ι] : Prog ι ο α → List (Event ι ο) → Option (Prog ι ο α)
  | p, [] => some p
  | call c k, e :: events => if c = e.1 then follow (k e.2) events else none
  | _, _ :: _ => none

/-- The call that is made next. -/
def nextCall : Prog ι ο α → Option ι
  | call c _ => some c
  | _ => none

/-- Following the events by computation gives a trace. It is how a run on a fixed input is
shown. -/
theorem trace_of_follow [DecidableEq ι] {p q : Prog ι ο α} {events : List (Event ι ο)}
    (h : p.follow events = some q) : Trace p events q := by
  induction events generalizing p with
  | nil =>
    cases p <;> (cases h; exact .nil _)
  | cons e events ih =>
    cases p with
    | call c k =>
      rw [follow] at h
      split at h
      · rename_i hc
        cases hc
        exact .cons (ih h)
      · cases h
    | _ => cases h

/-- The call behind the events, where a run can be computed. -/
theorem exists_trace [DecidableEq ι] {p : Prog ι ο α} {events : List (Event ι ο)} {c : ι}
    (h : (p.follow events).bind nextCall = some c) : ∃ k, Trace p events (call c k) := by
  rcases Option.bind_eq_some_iff.mp h with ⟨q, hq, hc⟩
  cases q with
  | call c' k =>
    cases hc
    exact ⟨k, trace_of_follow hq⟩
  | _ => cases hc

/-- The program has returned. -/
def returned : Prog ι ο α → Bool
  | ret _ => true
  | _ => false

/-- The same for a run to the end. -/
theorem exists_trace_ret [DecidableEq ι] {p : Prog ι ο α} {events : List (Event ι ο)}
    (h : (p.follow events).any returned = true) : ∃ a, Trace p events (ret a) := by
  rcases Option.any_eq_true _ _ |>.mp h with ⟨q, hq, hret⟩
  cases q with
  | ret a => exact ⟨a, trace_of_follow hq⟩
  | _ => cases hret

namespace Monitor

variable (M : Monitor ι ο σ)

/-- What the monitor remembers behind the events. -/
def after (s : σ) (events : List (Event ι ο)) : σ :=
  events.foldl (fun s e => M.next s e.1 e.2) s

/-- Each answer is one that may come. -/
def Answered (s : σ) : List (Event ι ο) → Prop
  | [] => True
  | e :: events => M.admits s e.1 e.2 ∧ Answered (M.next s e.1 e.2) events

instance decidableAnswered [∀ s c a, Decidable (M.admits s c a)] :
    ∀ (s : σ) (events : List (Event ι ο)), Decidable (M.Answered s events)
  | _, [] => isTrue trivial
  | s, e :: events =>
    have := decidableAnswered (M.next s e.1 e.2) events
    inferInstanceAs (Decidable (M.admits s e.1 e.2 ∧ M.Answered (M.next s e.1 e.2) events))

/-- Each call is allowed. -/
def Allowed (s : σ) : List (Event ι ο) → Prop
  | [] => True
  | e :: events => M.allows s e.1 ∧ Allowed (M.next s e.1 e.2) events

/-- The answers of two runs, one behind the other. -/
theorem answered_append {front back : List (Event ι ο)} :
    M.Answered s (front ++ back) ↔ M.Answered s front ∧ M.Answered (M.after s front) back := by
  induction front generalizing s with
  | nil => exact (and_iff_right trivial).symm
  | cons e front ih => exact (and_congr_right fun _ => ih).trans and_assoc.symm

end Monitor

/-- A run whose answers may come: its calls are allowed, and what is left satisfies its `wp`. -/
theorem wp_of_trace {p q : Prog ι ο α} {events : List (Event ι ο)} {Q : α → σ → Prop}
    (htrace : Trace p events q) (hp : p.wp M Q s) (hanswers : M.Answered s events) :
    M.Allowed s events ∧ q.wp M Q (M.after s events) := by
  induction htrace generalizing s with
  | nil p => exact ⟨trivial, hp⟩
  | cons rest ih =>
    have hrest := ih (hp.2 _ hanswers.1) hanswers.2
    exact ⟨⟨hp.1, hrest.1⟩, hrest.2⟩

end Prog

/-! ### Programs with a memory -/

/-- A program that reads and writes a memory `γ` between its calls. -/
abbrev Routine (γ ι ο α : Type) : Type := StateT γ (Prog ι ο) α

namespace Routine

variable {γ ι ο α β σ : Type}

/-- A call, with its answer as the result. -/
def call (c : ι) : Routine γ ι ο ο := fun g => .call c fun a => .ret (a, g)

/-- The process is gone. -/
def halt : Routine γ ι ο α := fun _ => .halt

/-- Not followed any further. -/
def cut : Routine γ ι ο α := fun _ => .cut

/-- `loop { body }`, for so many turns. -/
def loop (body : β → Routine γ ι ο (Loop.Turn α β)) : Nat → β → Routine γ ι ο α
  | 0, _ => cut
  | n + 1, b => do
    match ← body b with
    | .ret a => pure a
    | .next b => loop body n b

/-- `Prog.wp` with the memory. -/
def wp (M : Prog.Monitor ι ο σ) (x : Routine γ ι ο α) (Q : α → γ → σ → Prop) (g : γ) (s : σ) :
    Prop :=
  Prog.wp M (x g) (fun r s => Q r.1 r.2 s) s

variable {M : Prog.Monitor ι ο σ} {Q : α → γ → σ → Prop} {g : γ} {s : σ}

/-- A routine that has returned is at its postcondition. -/
@[simp] theorem wp_pure (a : α) : wp M (pure a) Q g s ↔ Q a g s := Iff.rfl

/-- The rule for routines one after the other: what holds between them is the precondition of the
second. -/
@[simp] theorem wp_bind (x : Routine γ ι ο β) (f : β → Routine γ ι ο α) :
    wp M (x >>= f) Q g s ↔ wp M x (fun b g s => wp M (f b) Q g s) g s :=
  Prog.wp_bind (x g) _ _

/-- Reading the memory. -/
@[simp] theorem wp_get (Q : γ → γ → σ → Prop) : wp M (get : Routine γ ι ο γ) Q g s ↔ Q g g s :=
  Iff.rfl

/-- Replacing the memory. -/
@[simp] theorem wp_set (g' : γ) (Q : PUnit → γ → σ → Prop) :
    wp M (set g' : Routine γ ι ο PUnit) Q g s ↔ Q ⟨⟩ g' s :=
  Iff.rfl

/-- Changing the memory by a function. -/
@[simp] theorem wp_modify (f : γ → γ) (Q : PUnit → γ → σ → Prop) :
    wp M (modify f : Routine γ ι ο PUnit) Q g s ↔ Q ⟨⟩ (f g) s :=
  Iff.rfl

/-- A process that ends has no postcondition to meet. -/
@[simp] theorem wp_halt : wp M halt Q g s := trivial

/-- A run that is cut off has none either. Total correctness, in another module, rules this
out. -/
@[simp] theorem wp_cut : wp M cut Q g s := trivial

/-- A postcondition may be weakened. -/
theorem wp_mono {x : Routine γ ι ο α} {Q Q' : α → γ → σ → Prop} (hx : wp M x Q g s)
    (hQ : ∀ a g s, Q a g s → Q' a g s) : wp M x Q' g s :=
  Prog.wp_mono hx fun r s h => hQ r.1 r.2 s h

/-- What one turn keeps or ends in, the loop keeps or ends in. -/
theorem wp_loop {body : β → Routine γ ι ο (Loop.Turn α β)} (Inv : β → γ → σ → Prop)
    (turn : ∀ b g s, Inv b g s → wp M (body b)
      (fun t g s => match t with | .ret a => Q a g s | .next b => Inv b g s) g s)
    {b : β} (h : Inv b g s) (n : Nat) : wp M (loop body n b) Q g s := by
  induction n generalizing b g s with
  | zero => trivial
  | succ n ih =>
    rw [loop, wp_bind]
    refine wp_mono (turn b g s h) ?_
    intro t g s ht
    cases t with
    | ret a => exact ht
    | next b => exact ih ht

/-- A loop over no elements. -/
@[simp] theorem wp_forM_nil (f : β → Routine γ ι ο PUnit) (Q : PUnit → γ → σ → Prop) :
    wp M (([] : List β).forM f) Q g s ↔ Q ⟨⟩ g s :=
  Iff.rfl

/-- A loop over a list: its first turn, and the rest. -/
theorem wp_forM_cons (b : β) (l : List β) (f : β → Routine γ ι ο PUnit)
    (Q : PUnit → γ → σ → Prop) :
    wp M ((b :: l).forM f) Q g s ↔ wp M (f b) (fun _ g s => wp M (l.forM f) Q g s) g s :=
  wp_bind (f b) fun _ => l.forM f

/-- Turns that need nothing but what is to hold behind them. -/
theorem wp_forM_pass {l : List β} {f : β → Routine γ ι ο PUnit}
    (turn : ∀ b ∈ l, ∀ Q g s, wp M (f b) Q g s ↔ Q ⟨⟩ g s) (Q : PUnit → γ → σ → Prop) :
    wp M (l.forM f) Q g s ↔ Q ⟨⟩ g s := by
  induction l with
  | nil => rfl
  | cons b l ih =>
    rw [wp_forM_cons, turn b List.mem_cons_self]
    exact ih fun b hb => turn b (List.mem_cons_of_mem _ hb)

/-- What one turn keeps, the turns over a list keep. -/
theorem wp_forM {l : List β} {f : β → Routine γ ι ο PUnit} (Inv : γ → σ → Prop)
    (turn : ∀ b ∈ l, ∀ g s, Inv g s → wp M (f b) (fun _ g s => Inv g s) g s) (h : Inv g s) :
    wp M (l.forM f) (fun _ g s => Inv g s) g s := by
  induction l generalizing g s with
  | nil => exact h
  | cons b l ih =>
    rw [wp_forM_cons]
    refine wp_mono (turn b List.mem_cons_self g s h) ?_
    intro _ g s hkept
    exact ih (fun b hb => turn b (List.mem_cons_of_mem _ hb)) hkept

end Routine
