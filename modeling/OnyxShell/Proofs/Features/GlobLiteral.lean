import OnyxShell.Proofs.Features.Glob

/-!
# `OnyxShell.Proofs.Features.GlobLiteral`: the names the matcher accepts

`globMatch_iff` gives the names that `glob_match` accepts, stars in them included. The
matcher compares the byte of the pattern with the byte of the name before it looks for a
star, so a `*` of the pattern that meets a `*` of the name takes that byte and nothing else.

The invariant is `Exact`. What is left to match decides the name, or, with a star to return
to, what is left together with the places the star has still to be tried at. When a later
star is reached these places are given up, and `Wildcard.matchesLiteral_forget` says why
nothing is lost.

`globMatch_complete_iff` compares with the language of the pattern.
-/

set_option autoImplicit false

namespace OnyxShell

open Wildcard (MatchesLiteral FitsLiteral)

/-- The rest of the pattern from `i` on takes the rest of the name from `k` on. -/
def LiteralFrom (pattern name : Bytes) (i k : Nat) : Prop :=
  MatchesLiteral '*'.toUInt8 (globTokens (pattern.drop i)) (name.drop k)

/-- The state of the loop decides whether the name is accepted. -/
structure Exact {pattern name : Bytes} (s : GlobState pattern name) : Prop where
  rest : s.starPi = none → (InLiteralLanguage pattern name ↔ LiteralFrom pattern name s.pi s.ni)
  star : ∀ sp ∈ s.starPi, (InLiteralLanguage pattern name ↔ LiteralFrom pattern name s.pi s.ni ∨
    ∃ k, s.starNi < k ∧ LiteralFrom pattern name (sp + 1) k)
  since : ∀ sp ∈ s.starPi, ∃ us, globTokens (pattern.drop (sp + 1))
      = us ++ globTokens (pattern.drop s.pi) ∧
    FitsLiteral '*'.toUInt8 us ((name.drop s.starNi).take (s.ni - s.starNi))

/-- A token for a byte of the name takes it. -/
def Takes (t : Wildcard.Token UInt8) (b : UInt8) : Prop :=
  (∃ p, t = .one p ∧ p b = true) ∨ (t = .star ∧ b = '*'.toUInt8)

/-- A token that takes the next byte leaves the rest to match. -/
theorem literalFrom_advance {pattern name : Bytes} {i k next : Nat} {t : Wildcard.Token UInt8}
    (h : k < name.length)
    (htokens : globTokens (pattern.drop i) = t :: globTokens (pattern.drop next))
    (ht : Takes t name[k]) :
    LiteralFrom pattern name i k ↔ LiteralFrom pattern name next (k + 1) := by
  rw [LiteralFrom, htokens, drop_name h]
  rcases ht with ⟨p, rfl, hp⟩ | ⟨rfl, hname⟩
  · rw [Wildcard.matchesLiteral_one_cons]
    exact and_iff_right hp
  · rw [hname]
    exact Wildcard.matchesLiteral_star_self

/-- With one more byte read, one more token fits. -/
theorem fitsLiteral_succ {pattern name : Bytes} {s : GlobState pattern name} (h : s.ni < name.length)
    {us : List (Wildcard.Token UInt8)} {t : Wildcard.Token UInt8}
    (hfits : FitsLiteral '*'.toUInt8 us ((name.drop s.starNi).take (s.ni - s.starNi)))
    (ht : Takes t name[s.ni]) :
    FitsLiteral '*'.toUInt8 (us ++ [t]) ((name.drop s.starNi).take (s.ni + 1 - s.starNi)) := by
  have hone : FitsLiteral '*'.toUInt8 [t] [name[s.ni]] := by
    refine List.Forall₂.cons ?_ List.Forall₂.nil
    rcases ht with ⟨p, rfl, hp⟩ | ⟨rfl, hname⟩
    · exact hp
    · exact hname
  rw [take_succ_since s h]
  exact List.rel_append hfits hone

/-- A star that does not meet itself may start at any place from here on. -/
theorem literalFrom_star {pattern name : Bytes} {i k : Nat} (h : k < name.length)
    (htokens : globTokens (pattern.drop i) = .star :: globTokens (pattern.drop (i + 1)))
    (hname : name[k] ≠ '*'.toUInt8) :
    LiteralFrom pattern name i k ↔ LiteralFrom pattern name (i + 1) k ∨
      ∃ k', k < k' ∧ LiteralFrom pattern name (i + 1) k' := by
  have hhead : (name.drop k).head? ≠ some '*'.toUInt8 := by
    rw [drop_name h]
    intro heq
    exact hname (Option.some.inj heq)
  rw [LiteralFrom, htokens, Wildcard.matchesLiteral_star_of_ne hhead]
  constructor
  · rintro ⟨j, hj⟩
    rw [List.drop_drop] at hj
    cases j with
    | zero => exact Or.inl hj
    | succ j => exact Or.inr ⟨k + (j + 1), by omega, hj⟩
  · rintro (h0 | ⟨k', hlt, hk'⟩)
    · exact ⟨0, h0⟩
    · refine ⟨k' - k, ?_⟩
      rwa [List.drop_drop, Nat.add_sub_cancel' (Nat.le_of_lt hlt)]

/-- The places an earlier star has still to be tried at add nothing once a later star is
reached. -/
theorem literalFrom_of_later {pattern name : Bytes} {s : GlobState pattern name} {sp : Nat}
    (hexact : Exact s) (hsp : sp ∈ s.starPi) {ts : List (Wildcard.Token UInt8)}
    (htokens : globTokens (pattern.drop s.pi) = .star :: ts)
    (hhead : (name.drop s.ni).head? ≠ some '*'.toUInt8) {k : Nat} (hlt : s.starNi < k)
    (hk : LiteralFrom pattern name (sp + 1) k) : LiteralFrom pattern name s.pi s.ni := by
  rcases hexact.since sp hsp with ⟨us, hus, hfits⟩
  have hdrop : name.drop k
      = ((name.drop s.starNi).take (s.ni - s.starNi) ++ name.drop s.ni).drop (k - s.starNi) := by
    rw [← drop_starNi s, List.drop_drop, Nat.add_sub_cancel' (Nat.le_of_lt hlt)]
  rw [LiteralFrom, hus, htokens, hdrop] at hk
  rw [LiteralFrom, htokens]
  exact Wildcard.matchesLiteral_forget hfits hhead hk

/-- A rest that does not match is not taken in the narrower sense either. -/
theorem not_literalFrom {pattern name : Bytes} {s : GlobState pattern name}
    (h : ¬ RestMatches s) : ¬ LiteralFrom pattern name s.pi s.ni := by
  intro hl
  exact h (Wildcard.matches_of_matchesLiteral hl)

/-- A token that takes the byte keeps exactness. -/
theorem exact_advance {pattern name : Bytes} {s : GlobState pattern name} (h : s.ni < name.length)
    (hexact : Exact s) {next : Nat} {t : Wildcard.Token UInt8} {hlt : s.pi < next}
    {hle : next ≤ pattern.length}
    (htokens : globTokens (pattern.drop s.pi) = t :: globTokens (pattern.drop next))
    (ht : Takes t name[s.ni]) : Exact (s.advance h next hlt hle) := by
  have hrest := literalFrom_advance h htokens ht
  constructor
  case rest =>
    intro hnone
    exact (hexact.rest hnone).trans hrest
  case star =>
    intro sp hsp
    exact (hexact.star sp hsp).trans (or_congr_left hrest)
  case since =>
    intro sp hsp
    rcases hexact.since sp hsp with ⟨us, hus, hfits⟩
    refine ⟨us ++ [t], ?_, fitsLiteral_succ h hfits ht⟩
    rw [hus, htokens, List.append_assoc]
    rfl

/-- At a star, the rest decides alone: the places of an earlier star are given up. -/
theorem Exact.iff_literalFrom {pattern name : Bytes} {s : GlobState pattern name} (hexact : Exact s)
    {ts : List (Wildcard.Token UInt8)} (htokens : globTokens (pattern.drop s.pi) = .star :: ts)
    (hhead : (name.drop s.ni).head? ≠ some '*'.toUInt8) :
    InLiteralLanguage pattern name ↔ LiteralFrom pattern name s.pi s.ni := by
  cases hstar : s.starPi with
  | none => exact hexact.rest hstar
  | some sp =>
    refine (hexact.star sp hstar).trans (or_iff_left_of_imp ?_)
    rintro ⟨k, hlt, hk⟩
    exact literalFrom_of_later hexact hstar htokens hhead hlt hk

/-- A star that becomes the one to return to keeps exactness. -/
theorem exact_atStar {pattern name : Bytes} {s : GlobState pattern name} (h : s.ni < name.length)
    (hexact : Exact s) {hp : s.pi < pattern.length}
    (htokens : globTokens (pattern.drop s.pi) = .star :: globTokens (pattern.drop (s.pi + 1)))
    (hname : name[s.ni] ≠ '*'.toUInt8) : Exact (s.atStar hp) := by
  have hhead : (name.drop s.ni).head? ≠ some '*'.toUInt8 := by
    rw [drop_name h]
    intro heq
    exact hname (Option.some.inj heq)
  constructor
  case rest =>
    intro hnone
    cases hnone
  case star =>
    intro sp hsp
    cases hsp
    exact (hexact.iff_literalFrom htokens hhead).trans (literalFrom_star h htokens hname)
  case since =>
    intro sp hsp
    cases hsp
    refine ⟨[], rfl, ?_⟩
    show FitsLiteral '*'.toUInt8 [] ((name.drop s.ni).take (s.ni - s.ni))
    rw [Nat.sub_self]
    exact List.Forall₂.nil

/-- A return to the last star, from where nothing matches, keeps exactness. -/
theorem exact_backtrack {pattern name : Bytes} {s s' : GlobState pattern name}
    {h : s.ni < name.length} (hs : s.backtrack h = some s') (hexact : Exact s)
    (hmiss : ¬ RestMatches s) : Exact s' := by
  rcases backtrack_eq hs with ⟨sp, hsp, hsp', hpi, hni, hstar⟩
  constructor
  case rest =>
    intro hnone
    rw [hsp'] at hnone
    cases hnone
  case star =>
    intro sp' h'
    rw [hsp'] at h'
    cases h'
    rw [hpi, hni, hstar, hexact.star sp hsp, or_iff_right (not_literalFrom hmiss)]
    -- The next place, or one behind it.
    constructor
    · rintro ⟨k, hlt, hk⟩
      rcases Nat.eq_or_lt_of_le (Nat.succ_le_of_lt hlt) with rfl | hlt'
      · exact Or.inl hk
      · exact Or.inr ⟨k, hlt', hk⟩
    · rintro (hk | ⟨k, hlt, hk⟩)
      · exact ⟨s.starNi + 1, Nat.lt_succ_self _, hk⟩
      · exact ⟨k, Nat.lt_of_succ_lt hlt, hk⟩
  case since =>
    intro sp' h'
    rw [hsp'] at h'
    cases h'
    refine ⟨[], by rw [hpi]; rfl, ?_⟩
    rw [hni, hstar, Nat.sub_self]
    exact List.Forall₂.nil

/-- **A turn keeps exactness.** -/
theorem exact_globStep {pattern name : Bytes} {s s' : GlobState pattern name}
    {h : s.ni < name.length} (hs : globStep s h = some s') (hexact : Exact s) : Exact s' := by
  rcases globStep_cases s h with ⟨t, next, hlt, hle, htokens, heq, ht⟩ |
    ⟨hp, htokens, heq, hname⟩ | ⟨heq, hmiss⟩
  · rw [heq] at hs
    cases hs
    exact exact_advance h hexact htokens ht
  · rw [heq] at hs
    cases hs
    exact exact_atStar h hexact htokens hname
  · rw [heq] at hs
    exact exact_backtrack hs hexact hmiss

/-- The loop keeps exactness. It gives up only on a name that is not accepted. -/
theorem exact_globLoop {pattern name : Bytes} {s : GlobState pattern name} (hexact : Exact s) :
    match globLoop s with
    | none => ¬ InLiteralLanguage pattern name
    | some s' => Exact s' := by
  have hrule := globLoop_rule (fun _ _ _ h hstep => exact_globStep hstep h)
    (fun s h hstar hmiss hl => not_literalFrom hmiss ((h.rest hstar).mp hl)) hexact
  cases hloop : globLoop s with
  | none =>
    rw [hloop] at hrule
    exact hrule
  | some s' =>
    rw [hloop] at hrule
    exact hrule.1

/-- At the end of the name the rest of the pattern decides alone. -/
theorem Exact.end_iff {pattern name : Bytes} {s : GlobState pattern name} (hexact : Exact s)
    (hend : s.ni = name.length) :
    InLiteralLanguage pattern name ↔ Wildcard.Matches (globTokens (pattern.drop s.pi)) [] := by
  have hrest : LiteralFrom pattern name s.pi s.ni
      ↔ Wildcard.Matches (globTokens (pattern.drop s.pi)) [] := by
    rw [LiteralFrom, hend, List.drop_length]
    exact Wildcard.matchesLiteral_nil_iff
  cases hstar : s.starPi with
  | none => exact (hexact.rest hstar).trans hrest
  | some sp =>
    refine ((hexact.star sp hstar).trans (or_iff_left_of_imp ?_)).trans hrest
    rintro ⟨k, hlt, hk⟩
    rcases hexact.since sp hstar with ⟨us, hus, hfits⟩
    -- The name is used up by the tokens since the star, so no later place does better.
    rw [LiteralFrom, hus] at hk
    have hdrop : name.drop k
        = ((name.drop s.starNi).take (s.ni - s.starNi) ++ []).drop (k - s.starNi) := by
      rw [List.append_nil, hend, List.take_of_length_le (List.length_drop ▸ Nat.le_refl _),
        List.drop_drop, Nat.add_sub_cancel' (Nat.le_of_lt hlt)]
    rw [hdrop] at hk
    rcases Wildcard.exists_drop_of_fitsLiteral hfits hk with ⟨j, hj⟩
    rw [LiteralFrom, hend, List.drop_length]
    rwa [List.drop_nil] at hj

/-- **The names the matcher accepts.** -/
theorem globMatch_iff (pattern name : Bytes) :
    globMatch pattern name = true ↔ InLiteralLanguage pattern name := by
  have hstart : Exact (GlobState.start pattern name) :=
    ⟨fun _ => Iff.rfl, by simp [GlobState.start], by simp [GlobState.start]⟩
  have hloop := exact_globLoop hstart
  rw [globMatch]
  cases hs : globLoop (GlobState.start pattern name) with
  | none =>
    rw [hs] at hloop
    exact iff_of_false (by simp) hloop
  | some s =>
    rw [hs] at hloop
    have hend := (sound_globLoop hs ⟨id, by simp [GlobState.start]⟩).2
    rw [Exact.end_iff hloop hend, ← stars_iff s.pi_le]
    exact beq_iff_eq

/-! ### Patterns with a star at the end -/

/-- A star behind a pattern is one more token. -/
theorem globTokens_concat_star (pattern : Bytes) :
    globTokens (pattern ++ bytes "*") = globTokens pattern ++ [.star] := by
  have hstar : ']'.toUInt8 ∉ bytes "*" := by decide
  fun_induction globTokens pattern with
  | case1 =>
    rw [List.nil_append, show bytes "*" = ['*'.toUInt8] from rfl, globTokens, if_pos rfl, globTokens]
    rfl
  | case2 rest ih => rw [List.cons_append, globTokens, if_pos rfl, ih, List.cons_append]
  | case3 rest h ih => rw [List.cons_append, globTokens, if_neg h, if_pos rfl, ih, List.cons_append]
  | case4 b rest h1 h2 h3 ih =>
    -- The class is closed before the star.
    have hclose : b = '['.toUInt8 ∧ ']'.toUInt8 ∈ rest ++ bytes "*" :=
      ⟨h3.1, List.mem_append_left _ h3.2⟩
    obtain ⟨cls, tail, rfl, hcls⟩ := List.eq_append_cons_of_mem h3.2
    have hmember : ∀ x ∈ cls, (x != ']'.toUInt8) = true := by
      intro x hx
      rw [bne_iff_ne]
      rintro rfl
      exact hcls hx
    have hstop : ∀ bs : Bytes, (']'.toUInt8 :: bs).takeWhile (· != ']'.toUInt8) = [] := fun bs => rfl
    have hrest : ∀ bs : Bytes, ((']'.toUInt8 :: bs).dropWhile (· != ']'.toUInt8)).tail = bs := fun bs => rfl
    rw [List.dropWhile_append_of_pos hmember, hrest] at ih
    rw [List.cons_append, globTokens, if_neg h1, if_neg h2, if_pos hclose, List.append_assoc,
      List.cons_append, List.takeWhile_append_of_pos hmember, List.takeWhile_append_of_pos hmember,
      hstop, hstop, List.dropWhile_append_of_pos hmember, List.dropWhile_append_of_pos hmember, hrest,
      hrest, ih, List.cons_append]
  | case5 b rest h1 h2 h3 ih =>
    have hopen : ¬ (b = '['.toUInt8 ∧ ']'.toUInt8 ∈ rest ++ bytes "*") := by
      rintro ⟨hb, hmem⟩
      rcases List.mem_append.mp hmem with hmem | hmem
      · exact h3 ⟨hb, hmem⟩
      · exact hstar hmem
    rw [List.cons_append, globTokens, if_neg h1, if_neg h2, if_neg hopen, ih, List.cons_append]

/-- The pattern `*` is a star. -/
theorem globTokens_single_star : globTokens (bytes "*") = [.star] := by
  rw [← List.nil_append (bytes "*"), globTokens_concat_star, globTokens]
  rfl

/-- The names that `*` accepts: those that do not begin with a `*`, and `*` itself. -/
theorem globMatch_star_iff (name : Bytes) :
    globMatch (bytes "*") name = true ↔ (name.head? = some '*'.toUInt8 → name = bytes "*") := by
  rw [globMatch_iff, InLiteralLanguage, globTokens_single_star]
  constructor
  · rintro (⟨-, htail⟩ | ⟨hne, -⟩) hhead
    · cases name with
      | nil => cases hhead
      | cons b rest =>
        obtain rfl : b = '*'.toUInt8 := Option.some.inj hhead
        exact congrArg _ htail
    · exact absurd hhead hne
  · intro h
    by_cases hhead : name.head? = some '*'.toUInt8
    · rw [h hhead]
      exact Or.inl ⟨rfl, rfl⟩
    · exact Or.inr ⟨hhead, name.length, List.drop_length⟩

/-! ### The language of the pattern -/

/-- **Where the matcher is complete**: on the names of the language that match with each star that
meets a `*` of the name taking that byte alone. A star at the end of a pattern never takes a name
away, and `*` alone misses the names that begin with a `*`. The three parts are read off
`globMatch_iff`, which gives the language of the code exactly: a `*` of the name is compared with
the star of the pattern before the star is taken for a wildcard. -/
theorem globMatch_complete_iff (pattern name : Bytes) :
    ((InLanguage pattern name → globMatch pattern name = true) ↔
      (InLanguage pattern name → InLiteralLanguage pattern name)) ∧
    (globMatch (bytes "*") name = true ↔ (name.head? = some '*'.toUInt8 → name = bytes "*")) ∧
    (globMatch pattern name = true → globMatch (pattern ++ bytes "*") name = true) := by
  refine ⟨imp_congr_right fun _ => globMatch_iff pattern name, globMatch_star_iff name, ?_⟩
  intro h
  rw [globMatch_iff, InLiteralLanguage] at h
  rw [globMatch_iff, InLiteralLanguage, globTokens_concat_star]
  exact Wildcard.matchesLiteral_concat_star h

/-- `*` does not match `*x`. -/
theorem not_globMatch_complete_star :
    ¬ ∀ pattern name, InLanguage pattern name → globMatch pattern name = true := by
  intro h
  have hlang : InLanguage (bytes "*") (bytes "*x") := by
    rw [InLanguage, globTokens_single_star]
    exact ⟨bytes "*x", [], rfl, rfl⟩
  exact absurd (h _ _ hlang) (by decide +kernel)

end OnyxShell
