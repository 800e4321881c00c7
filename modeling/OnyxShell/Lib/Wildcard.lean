import Mathlib.Data.List.Forall2

/-!
# `OnyxShell.Lib.Wildcard`: wildcard patterns

A wildcard pattern is a list of tokens: `one p` stands for a single symbol that satisfies
`p`, and `star` for any string. `Matches` is the language of a pattern.

A matcher with a single backtracking point tries the tokens behind the last star at one
place after the other, and never returns to an earlier star. Three lemmas say why that is
enough. `matches_star_iff` moves a star by one symbol. `matches_forget` drops a star when
the next one is reached: what lies between them matches, so the later star can make up for
every other choice of the earlier one. `matches_of_ones` settles the end of the string,
where no room is left to move the last star.

`MatchesLiteral c` is the language of a matcher that compares before it looks for a star: a
star that meets the symbol `c` takes it alone. There a star moved further on does not
always do more, but a path that is behind another in the pattern is never ahead of it in the
string. That is `matchesLiteral_forget`, which replaces `matches_forget`.

The symbols are of an arbitrary type.
-/

set_option autoImplicit false

namespace Wildcard

variable {α : Type}

/-- A token of a pattern. -/
inductive Token (α : Type)
  | star
  | one (p : α → Bool)

/-- The language of a pattern. -/
def Matches : List (Token α) → List α → Prop
  | [], w => w = []
  | .star :: ts, w => ∃ u v, w = u ++ v ∧ Matches ts v
  | .one p :: ts, w => ∃ a v, w = a :: v ∧ p a = true ∧ Matches ts v

/-- The empty pattern matches the empty word only. -/
theorem matches_nil {w : List α} : Matches [] w ↔ w = [] := Iff.rfl

/-- A token for one letter takes the first letter. -/
@[simp] theorem matches_one_cons {p : α → Bool} {ts : List (Token α)} {a : α} {v : List α} :
    Matches (.one p :: ts) (a :: v) ↔ p a = true ∧ Matches ts v := by
  constructor
  · rintro ⟨b, v', hw, hp, hv⟩
    cases hw
    exact ⟨hp, hv⟩
  · rintro ⟨hp, hv⟩
    exact ⟨a, v, rfl, hp, hv⟩

/-- A token for one letter does not match the empty word. -/
@[simp] theorem not_matches_one_nil {p : α → Bool} {ts : List (Token α)} :
    ¬ Matches (.one p :: ts) ([] : List α) := by
  rintro ⟨a, v, hw, -⟩
  cases hw

/-- A star that takes nothing. -/
theorem matches_star_of_matches {ts : List (Token α)} {w : List α} (h : Matches ts w) :
    Matches (.star :: ts) w := ⟨[], w, rfl, h⟩

/-- A star takes any further prefix. -/
theorem matches_star_append {ts : List (Token α)} {v : List α} (h : Matches (.star :: ts) v)
    (u : List α) : Matches (.star :: ts) (u ++ v) := by
  rcases h with ⟨u', v', rfl, hv⟩
  exact ⟨u ++ u', v', (List.append_assoc u u' v').symm, hv⟩

/-- A star takes nothing, or one symbol more. -/
theorem matches_star_iff {ts : List (Token α)} {a : α} {v : List α} :
    Matches (.star :: ts) (a :: v) ↔ Matches ts (a :: v) ∨ Matches (.star :: ts) v := by
  constructor
  · rintro ⟨u, w, huw, hw⟩
    cases u with
    | nil =>
      left
      rw [List.nil_append] at huw
      rwa [huw]
    | cons b u =>
      right
      cases huw
      exact ⟨u, w, rfl, hw⟩
  · rintro (h | h)
    · exact matches_star_of_matches h
    · exact matches_star_append h [a]

/-- Nothing is matched just by patterns of stars. -/
theorem matches_star_nil {ts : List (Token α)} :
    Matches (.star :: ts) ([] : List α) ↔ Matches ts [] := by
  constructor
  · rintro ⟨u, v, huv, hv⟩
    rcases List.append_eq_nil_iff.mp huv.symm with ⟨-, rfl⟩
    exact hv
  · exact matches_star_of_matches

/-- Symbols that satisfy a list of predicates one by one. -/
def Fits : List (α → Bool) → List α → Prop := List.Forall₂ fun p a => p a = true

/-- Tokens for single symbols take as many symbols as there are tokens. -/
theorem matches_ones {ps : List (α → Bool)} {ts : List (Token α)} {w : List α} :
    Matches (ps.map .one ++ ts) w ↔ ∃ u v, w = u ++ v ∧ Fits ps u ∧ Matches ts v := by
  induction ps generalizing w with
  | nil =>
    constructor
    · intro h
      exact ⟨[], w, rfl, List.Forall₂.nil, h⟩
    · rintro ⟨u, v, rfl, hu, hv⟩
      cases hu
      exact hv
  | cons p ps ih =>
    constructor
    · rintro ⟨a, v, rfl, hp, hv⟩
      rcases ih.mp hv with ⟨u, v', rfl, hu, hv'⟩
      exact ⟨a :: u, v', rfl, List.Forall₂.cons hp hu, hv'⟩
    · rintro ⟨u, v, rfl, hu, hv⟩
      cases hu with
      | cons hp hu => exact ⟨_, _, rfl, hp, ih.mpr ⟨_, _, rfl, hu, hv⟩⟩

/-- **Forgetting a star**: when the single symbols between two stars match what was read
since the first one, the second star alone decides the rest. -/
theorem matches_forget {ps : List (α → Bool)} {ts : List (Token α)} {u v : List α}
    (hu : Fits ps u) :
    Matches (.star :: (ps.map .one ++ .star :: ts)) (u ++ v) ↔ Matches (.star :: ts) v := by
  constructor
  · rintro ⟨x, y, hxy, hy⟩
    rcases matches_ones.mp hy with ⟨u', v', rfl, hu', hv'⟩
    -- The first star took `x`, so the second one starts at most `x.length` further.
    have hlen : u.length = u'.length := by rw [← hu.length_eq, hu'.length_eq]
    have hsplit : v = (x ++ u').drop u.length ++ v' := by
      have := congrArg (List.drop u.length) hxy
      rw [List.drop_left, ← List.append_assoc, List.drop_append_of_le_length (by simp; omega)] at this
      exact this
    rw [hsplit]
    exact matches_star_append hv' _
  · intro h
    exact matches_star_of_matches (matches_ones.mpr ⟨u, v, rfl, hu, h⟩)

/-- At the end of the string the last star has no room left to move. -/
theorem matches_of_ones {ps : List (α → Bool)} {ts : List (Token α)} {u : List α}
    (hu : Fits ps u) (h : Matches (.star :: (ps.map .one ++ ts)) u) : Matches ts [] := by
  rcases h with ⟨x, y, hxy, hy⟩
  rcases matches_ones.mp hy with ⟨u', v', rfl, hu', hv'⟩
  have hlen : u.length = u'.length := by rw [← hu.length_eq, hu'.length_eq]
  have hnil : v' = [] := by
    rw [← List.length_eq_zero_iff]
    have := congrArg List.length hxy
    rw [List.length_append, List.length_append] at this
    omega
  rwa [← hnil]

/-! ### Stars that meet their own symbol -/

/-- The language of a pattern whose stars take the symbol `c` alone when they meet it. -/
def MatchesLiteral (c : α) : List (Token α) → List α → Prop
  | [], w => w = []
  | .star :: ts, w =>
    (w.head? = some c ∧ MatchesLiteral c ts w.tail) ∨
      (w.head? ≠ some c ∧ ∃ k, MatchesLiteral c ts (w.drop k))
  | .one p :: ts, w => ∃ a v, w = a :: v ∧ p a = true ∧ MatchesLiteral c ts v

section Literal

variable {c : α} {ts : List (Token α)}

/-- A token for one letter takes the first letter in the literal reading as well. -/
theorem matchesLiteral_one_cons {p : α → Bool} {a : α} {v : List α} :
    MatchesLiteral c (.one p :: ts) (a :: v) ↔ p a = true ∧ MatchesLiteral c ts v := by
  constructor
  · rintro ⟨b, v', hw, hp, hv⟩
    cases hw
    exact ⟨hp, hv⟩
  · rintro ⟨hp, hv⟩
    exact ⟨a, v, rfl, hp, hv⟩

/-- A star that meets its symbol. -/
theorem matchesLiteral_star_self {v : List α} :
    MatchesLiteral c (.star :: ts) (c :: v) ↔ MatchesLiteral c ts v := by
  constructor
  · rintro (⟨-, h⟩ | ⟨h, -⟩)
    · exact h
    · exact absurd rfl h
  · intro h
    exact Or.inl ⟨rfl, h⟩

/-- A star that meets something else, or the end. -/
theorem matchesLiteral_star_of_ne {w : List α} (hw : w.head? ≠ some c) :
    MatchesLiteral c (.star :: ts) w ↔ ∃ k, MatchesLiteral c ts (w.drop k) := by
  constructor
  · rintro (⟨h, -⟩ | ⟨-, h⟩)
    · exact absurd h hw
    · exact h
  · intro h
    exact Or.inr ⟨hw, h⟩

/-- A star in either role leaves some rest of the string. -/
theorem exists_drop_of_matchesLiteral_star {w : List α} (h : MatchesLiteral c (.star :: ts) w) :
    ∃ k, MatchesLiteral c ts (w.drop k) := by
  rcases h with ⟨-, h⟩ | ⟨-, h⟩
  · exact ⟨1, by rwa [List.drop_one]⟩
  · exact h

/-- The stars have less freedom than in `Matches`. -/
theorem matches_of_matchesLiteral {w : List α} (h : MatchesLiteral c ts w) : Matches ts w := by
  induction ts generalizing w with
  | nil => exact h
  | cons t ts ih =>
    cases t with
    | star =>
      rcases exists_drop_of_matchesLiteral_star h with ⟨k, hk⟩
      exact ⟨w.take k, w.drop k, (List.take_append_drop k w).symm, ih hk⟩
    | one p =>
      rcases h with ⟨a, v, hw, hp, hv⟩
      exact ⟨a, v, hw, hp, ih hv⟩

/-- At the end of the string the two languages agree. -/
theorem matchesLiteral_nil_iff : MatchesLiteral c ts [] ↔ Matches ts [] := by
  constructor
  · exact matches_of_matchesLiteral
  · intro h
    induction ts with
    | nil => rfl
    | cons t ts ih =>
      cases t with
      | star => exact Or.inr ⟨by simp, 0, ih (matches_star_nil.mp h)⟩
      | one p => exact absurd h not_matches_one_nil

/-- One more star at the end loses nothing. -/
theorem matchesLiteral_concat_star {w : List α} (h : MatchesLiteral c ts w) :
    MatchesLiteral c (ts ++ [.star]) w := by
  induction ts generalizing w with
  | nil =>
    cases h
    exact Or.inr ⟨by simp, 0, rfl⟩
  | cons t ts ih =>
    cases t with
    | star =>
      rcases h with ⟨hw, h⟩ | ⟨hw, k, h⟩
      · exact Or.inl ⟨hw, ih h⟩
      · exact Or.inr ⟨hw, k, ih h⟩
    | one p =>
      rcases h with ⟨a, v, hw, hp, hv⟩
      exact ⟨a, v, hw, hp, ih hv⟩

/-- Tokens that take a symbol each, the stars among them their own one. -/
def FitsLiteral (c : α) : List (Token α) → List α → Prop :=
  List.Forall₂ fun t a => match t with
    | .star => a = c
    | .one p => p a = true

/-- Tokens that took a symbol each from `w` on leave, on any later path through them, some
rest of what follows `w`. -/
theorem exists_drop_of_fitsLiteral {us : List (Token α)} {w v : List α} (hus : FitsLiteral c us w)
    {j : Nat} (h : MatchesLiteral c (us ++ ts) ((w ++ v).drop j)) :
    ∃ k, MatchesLiteral c ts (v.drop k) := by
  induction hus generalizing j with
  | nil => exact ⟨j, h⟩
  | @cons t a us w hta hus ih =>
    cases j with
    | zero =>
      -- The same path: the token takes the same symbol again.
      cases t with
      | one p => exact ih (j := 0) (matchesLiteral_one_cons.mp h).2
      | star =>
        cases hta
        exact ih (j := 0) (matchesLiteral_star_self.mp h)
    | succ j =>
      -- A path that is ahead by `j + 1` stays ahead by `j` at least.
      have hstep : MatchesLiteral c (t :: (us ++ ts)) ((w ++ v).drop j) := h
      cases t with
      | one p =>
        rcases hstep with ⟨b, v', hw, -, hv⟩
        have hdrop : v' = (w ++ v).drop (j + 1) := by
          rw [← List.drop_drop, hw]
          rfl
        rw [hdrop] at hv
        exact ih hv
      | star =>
        rcases exists_drop_of_matchesLiteral_star hstep with ⟨k, hk⟩
        rw [List.drop_drop] at hk
        exact ih hk

/-- **Forgetting a star**: when the tokens behind it took what was read since then, a star
that is reached now makes up for every further place of the earlier one. -/
theorem matchesLiteral_forget {us : List (Token α)} {w v : List α} (hus : FitsLiteral c us w)
    (hv : v.head? ≠ some c) {j : Nat}
    (h : MatchesLiteral c (us ++ .star :: ts) ((w ++ v).drop j)) :
    MatchesLiteral c (.star :: ts) v := by
  rcases exists_drop_of_fitsLiteral hus h with ⟨k, hk⟩
  rcases exists_drop_of_matchesLiteral_star hk with ⟨k', hk'⟩
  rw [List.drop_drop] at hk'
  exact (matchesLiteral_star_of_ne hv).mpr ⟨k + k', hk'⟩

end Literal

end Wildcard
