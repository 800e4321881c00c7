import OnyxShell.Features.Service.GlobLanguage

/-!
# `OnyxShell.Proofs.Features.Glob`: the matcher and the language

`globMatch_language` relates the iterative matcher to the language of the pattern.
`globStep_cases` says what a turn of the loop does in terms of tokens. On it rest two
invariants. `Sound` says that what is left to match is enough for the whole name.
`Complete` says that it is also necessary, with the tokens since the last star matching
what was read since then. The second one needs a name without `*`: the matcher compares
a star of the pattern with the byte of the name first, and takes an equal one literally.
-/

set_option autoImplicit false

namespace OnyxShell

open Scan (scanWhile)
open Wildcard (Matches Fits)

/-! ### Tokens at an index -/

/-- The groups of a class, one step of the loop. -/
theorem inClass_cons {a c : UInt8} {rest : Bytes}
    (h : ∀ d b tail, rest = d :: b :: tail → d ≠ '-'.toUInt8) :
    inClass (a :: rest) c = (c == a || inClass rest c) := by
  -- A single byte is a range of its own.
  have hself : (decide (a ≤ c) && decide (c ≤ a)) = (c == a) := by
    rw [Bool.eq_iff_iff]
    simp only [Bool.and_eq_true, decide_eq_true_eq, beq_iff_eq]
    constructor
    · rintro ⟨h1, h2⟩
      exact UInt8.le_antisymm h2 h1
    · rintro rfl
      exact ⟨UInt8.le_refl _, UInt8.le_refl _⟩
  unfold inClass
  rcases rest with _ | ⟨d, _ | ⟨b, tail⟩⟩
  · simp [classGroups, hself]
  · simp [classGroups, hself]
  · rw [classGroups, if_neg (h d b tail rfl), List.any_cons, hself]

/-- A class from index `i` on does not begin with a range when no `-` with a byte behind it
follows. -/
theorem no_range {cls : Bytes} {i : Nat}
    (h : ∀ hlt : i + 2 < cls.length, cls.get ⟨i + 1, Nat.lt_of_succ_lt hlt⟩ ≠ '-'.toUInt8) :
    ∀ d b tail, cls.drop (i + 1) = d :: b :: tail → d ≠ '-'.toUInt8 := by
  intro d b tail hrest
  have hlt : i + 2 < cls.length := by
    have hlen := congrArg List.length hrest
    simp only [List.length_drop, List.length_cons] at hlen
    omega
  rw [List.drop_eq_getElem_cons (by omega)] at hrest
  rw [← (List.cons.inj hrest).1]
  exact h hlt

/-- The class loop of the matcher computes membership in the class. -/
theorem classLoop_eq (cls : Bytes) (c : UInt8) (i : Nat) :
    classLoop cls c i = inClass (cls.drop i) c := by
  fun_induction classLoop cls c i with
  | case1 i h hdash hin =>
    -- A range `a-b` that takes the byte, and then one that does not.
    rw [List.drop_eq_getElem_cons (by omega), List.drop_eq_getElem_cons (by omega),
      List.drop_eq_getElem_cons (by omega), inClass, classGroups, if_pos hdash]
    simp [hin]
  | case2 i h hdash hin ih =>
    rw [ih, List.drop_eq_getElem_cons (i := i) (by omega),
      List.drop_eq_getElem_cons (i := i + 1) (by omega),
      List.drop_eq_getElem_cons (i := i + 1 + 1) (by omega), inClass, inClass, classGroups,
      if_pos hdash, List.any_cons]
    have hout : (decide (cls[i] ≤ c) && decide (c ≤ cls[i + 2])) = false := by
      simpa using hin
    rw [hout, Bool.false_or]
  | case3 i h hdash heq =>
    -- A single byte with room for a range behind it, but no `-`.
    rw [List.drop_eq_getElem_cons (by omega), inClass_cons (no_range fun _ => hdash)]
    simp [heq]
  | case4 i h hdash hne ih =>
    rw [ih, List.drop_eq_getElem_cons (i := i) (by omega), inClass_cons (no_range fun _ => hdash)]
    simp [hne]
  | case5 i h h' heq =>
    -- One of the last two bytes of the class.
    rw [List.drop_eq_getElem_cons (by omega), inClass_cons (no_range fun hlt => absurd hlt h)]
    simp [heq]
  | case6 i h h' hne ih =>
    rw [ih, List.drop_eq_getElem_cons (i := i) (by omega),
      inClass_cons (no_range fun hlt => absurd hlt h)]
    simp [hne]
  | case7 i h h' =>
    rw [List.drop_eq_nil_of_le (by omega)]
    rfl

/-- The tokens behind a star. -/
theorem globTokens_star {pattern : Bytes} {i : Nat} (h : i < pattern.length)
    (hp : pattern[i] = '*'.toUInt8) :
    globTokens (pattern.drop i) = .star :: globTokens (pattern.drop (i + 1)) := by
  rw [List.drop_eq_getElem_cons h, globTokens, if_pos hp]

/-- The class that a `[` opens is closed. -/
theorem stop_lt_iff {pattern : Bytes} {i : Nat} :
    scanWhile (· != ']'.toUInt8) pattern i < pattern.length ↔ ']'.toUInt8 ∈ pattern.drop i := by
  rw [Scan.scanWhile_lt_length]
  constructor
  · rintro ⟨x, hx, heq⟩
    rw [bne_eq_false_iff_eq] at heq
    exact heq ▸ hx
  · intro h
    exact ⟨_, h, by simp⟩

/-- The tokens from a byte on that is no star, when it stands for one byte of the name. -/
theorem globTokens_one {pattern : Bytes} {i : Nat} (h : i < pattern.length)
    (hstar : pattern[i] ≠ '*'.toUInt8)
    (hclass : pattern[i] = '['.toUInt8 →
      ¬ scanWhile (· != ']'.toUInt8) pattern (i + 1) < pattern.length) :
    globTokens (pattern.drop i)
      = .one (fun b => pattern[i] == '?'.toUInt8 || b == pattern[i]) ::
        globTokens (pattern.drop (i + 1)) := by
  rw [List.drop_eq_getElem_cons h, globTokens, if_neg hstar]
  by_cases hany : pattern[i] = '?'.toUInt8
  · simp [hany]
  · have hopen : ¬ (pattern[i] = '['.toUInt8 ∧ ']'.toUInt8 ∈ pattern.drop (i + 1)) := fun hcls =>
      hclass hcls.1 (stop_lt_iff.mpr hcls.2)
    rw [if_neg hany, if_neg hopen, beq_eq_false_iff_ne.mpr hany]
    simp only [Bool.false_or]

/-- The tokens from a class on. -/
theorem globTokens_class {pattern : Bytes} {i : Nat} (h : i < pattern.length)
    (hp : pattern[i] = '['.toUInt8)
    (hstop : scanWhile (· != ']'.toUInt8) pattern (i + 1) < pattern.length) :
    globTokens (pattern.drop i)
      = .one (inClass ((pattern.drop (i + 1)).take
          (scanWhile (· != ']'.toUInt8) pattern (i + 1) - (i + 1)))) ::
        globTokens (pattern.drop (scanWhile (· != ']'.toUInt8) pattern (i + 1) + 1)) := by
  have hstar : pattern[i] ≠ '*'.toUInt8 := by
    rw [hp]
    decide
  have hany : pattern[i] ≠ '?'.toUInt8 := by
    rw [hp]
    decide
  rw [List.drop_eq_getElem_cons h, globTokens, if_neg hstar, if_neg hany,
    if_pos ⟨hp, stop_lt_iff.mp hstop⟩, Scan.take_scanWhile, ← Scan.drop_scanWhile, List.tail_drop]

/-! ### One turn of the loop -/

/-- The byte of the name at an index, and what follows. -/
theorem drop_name {name : Bytes} {i : Nat} (h : i < name.length) :
    name.drop i = name[i] :: name.drop (i + 1) := List.drop_eq_getElem_cons h

/-- A turn at a `[` takes it for a byte of the name, as a class or as itself, or goes back. -/
theorem globStep_bracket {pattern name : Bytes} (s : GlobState pattern name)
    (h : s.ni < name.length) (hp : s.pi < pattern.length) (hcls : pattern[s.pi] = '['.toUInt8) :
    (∃ p next hlt hle, globTokens (pattern.drop s.pi) = .one p :: globTokens (pattern.drop next) ∧
      globStep s h = some (s.advance h next hlt hle) ∧ p name[s.ni] = true) ∨
    (globStep s h = s.backtrack h ∧
      ¬ Matches (globTokens (pattern.drop s.pi)) (name.drop s.ni)) := by
  rw [globStep, dif_pos hp, if_pos (Or.inr (Or.inr hcls)), if_pos hcls]
  by_cases hstop : scanWhile (· != ']'.toUInt8) pattern (s.pi + 1) < pattern.length
  · -- A class.
    have htokens := globTokens_class hp hcls hstop
    simp only [dif_pos hstop, classLoop_eq, List.drop_zero]
    split
    · rename_i hin
      have hle := Scan.le_scanWhile (· != ']'.toUInt8) pattern (s.pi + 1)
      exact Or.inl ⟨_, _, by omega, hstop, htokens, rfl, hin⟩
    · rename_i hout
      refine Or.inr ⟨rfl, ?_⟩
      rw [htokens, drop_name h, Wildcard.matches_one_cons]
      intro hm
      exact hout hm.1
  · -- A `[` that stands for itself.
    have htokens := globTokens_one hp (by rw [hcls]; decide) fun _ => hstop
    simp only [dif_neg hstop]
    by_cases hname : name[s.ni] = '['.toUInt8
    · rw [if_neg (not_not.mpr hname)]
      exact Or.inl ⟨_, _, Nat.lt_succ_self _, hp, htokens, rfl, by simp [hname, hcls]⟩
    · rw [if_pos hname]
      refine Or.inr ⟨rfl, ?_⟩
      have hany : ('['.toUInt8 == '?'.toUInt8) = false := by decide
      rw [htokens, drop_name h, Wildcard.matches_one_cons, hcls, hany, Bool.false_or,
        beq_iff_eq]
      intro hm
      exact hname hm.1

/-- A turn of the loop takes a token for a byte of the name, or meets a star, or finds that
the rest of the pattern does not match and goes back. A star that meets a star of the name
is taken for it. -/
theorem globStep_cases {pattern name : Bytes} (s : GlobState pattern name)
    (h : s.ni < name.length) :
    (∃ t next hlt hle, globTokens (pattern.drop s.pi) = t :: globTokens (pattern.drop next) ∧
      globStep s h = some (s.advance h next hlt hle) ∧
      ((∃ p, t = .one p ∧ p name[s.ni] = true) ∨ (t = .star ∧ name[s.ni] = '*'.toUInt8))) ∨
    (∃ hp, globTokens (pattern.drop s.pi) = .star :: globTokens (pattern.drop (s.pi + 1)) ∧
      globStep s h = some (s.atStar hp) ∧ name[s.ni] ≠ '*'.toUInt8) ∨
    (globStep s h = s.backtrack h ∧
      ¬ Matches (globTokens (pattern.drop s.pi)) (name.drop s.ni)) := by
  by_cases hp : s.pi < pattern.length
  · by_cases hcls : pattern[s.pi] = '['.toUInt8
    · rcases globStep_bracket s h hp hcls with ⟨p, next, hlt, hle, htokens, heq, hin⟩ | hback
      · exact Or.inl ⟨_, next, hlt, hle, htokens, heq, Or.inl ⟨p, rfl, hin⟩⟩
      · exact Or.inr (Or.inr hback)
    · rw [globStep, dif_pos hp]
      by_cases hone : pattern[s.pi] = '?'.toUInt8 ∨ pattern[s.pi] = name[s.ni] ∨
          pattern[s.pi] = '['.toUInt8
      · rw [if_pos hone, if_neg hcls]
        by_cases hstar : pattern[s.pi] = '*'.toUInt8
        · -- A star of the pattern and a star of the name.
          have hname : name[s.ni] = '*'.toUInt8 := by
            rw [hstar] at hone
            rcases hone with hone | hone | hone
            · exact absurd hone (by decide)
            · exact hone.symm
            · exact absurd hone (by decide)
          exact Or.inl ⟨_, _, Nat.lt_succ_self _, hp, globTokens_star hp hstar, rfl,
            Or.inr ⟨rfl, hname⟩⟩
        · -- A `?`, or a byte that stands for itself and equals the one of the name.
          refine Or.inl ⟨_, _, Nat.lt_succ_self _, hp, globTokens_one hp hstar fun h => absurd h hcls, rfl,
            Or.inl ⟨_, rfl, ?_⟩⟩
          rcases hone with hone | hone | hone
          · simp [hone]
          · simp [hone]
          · exact absurd hone hcls
      · rw [if_neg hone]
        simp only [not_or] at hone
        rcases hone with ⟨hany, hne, -⟩
        by_cases hstar : pattern[s.pi] = '*'.toUInt8
        · rw [if_pos hstar]
          exact Or.inr (Or.inl ⟨hp, globTokens_star hp hstar, rfl,
            fun hname => hne (hstar.trans hname.symm)⟩)
        · rw [if_neg hstar]
          refine Or.inr (Or.inr ⟨rfl, ?_⟩)
          -- A byte that stands for itself and differs from the one of the name.
          rw [globTokens_one hp hstar fun h => absurd h hcls, drop_name h, Wildcard.matches_one_cons]
          intro hm
          simp only [Bool.or_eq_true, beq_iff_eq] at hm
          rcases hm.1 with hm | hm
          · exact hany hm
          · exact hne hm.symm
  · rw [globStep, dif_neg hp]
    refine Or.inr (Or.inr ⟨rfl, ?_⟩)
    -- The pattern is used up and the name is not.
    rw [List.drop_eq_nil_of_le (Nat.le_of_not_lt hp), globTokens, Wildcard.matches_nil, drop_name h]
    exact List.cons_ne_nil _ _

/-- The state a turn goes back to, when there is a star. -/
theorem backtrack_eq {pattern name : Bytes} {s s' : GlobState pattern name}
    {h : s.ni < name.length} (hs : s.backtrack h = some s') :
    ∃ sp, s.starPi = some sp ∧ s'.starPi = some sp ∧ s'.pi = sp + 1 ∧ s'.ni = s.starNi + 1 ∧
      s'.starNi = s.starNi + 1 := by
  rw [GlobState.backtrack] at hs
  split at hs
  · cases hs
  · rename_i sp hsp
    cases hs
    exact ⟨sp, hsp, rfl, rfl, rfl, rfl⟩

/-- There is no way back only where no star has been seen. -/
theorem backtrack_none {pattern name : Bytes} {s : GlobState pattern name}
    {h : s.ni < name.length} (hs : s.backtrack h = none) : s.starPi = none := by
  rw [GlobState.backtrack] at hs
  split at hs
  · assumption
  · cases hs

/-- A turn that gives up has no star, and the rest does not match. -/
theorem globStep_none {pattern name : Bytes} {s : GlobState pattern name} {h : s.ni < name.length}
    (hs : globStep s h = none) :
    s.starPi = none ∧ ¬ Matches (globTokens (pattern.drop s.pi)) (name.drop s.ni) := by
  rcases globStep_cases s h with ⟨t, next, hlt, hle, -, heq, -⟩ | ⟨hp, -, heq, -⟩ | ⟨heq, hmiss⟩
  · rw [heq] at hs
    cases hs
  · rw [heq] at hs
    cases hs
  · rw [heq] at hs
    exact ⟨backtrack_none hs, hmiss⟩

/-- The rule of the main loop: what every turn keeps holds at the end of the name, and what
follows where a turn gives up is true when the loop does. -/
theorem globLoop_rule {pattern name : Bytes} {Inv : GlobState pattern name → Prop} {gaveUp : Prop}
    (keep : ∀ (s s' : GlobState pattern name) (h : s.ni < name.length),
      Inv s → globStep s h = some s' → Inv s')
    (stop : ∀ s : GlobState pattern name, Inv s → s.starPi = none →
      ¬ Matches (globTokens (pattern.drop s.pi)) (name.drop s.ni) → gaveUp)
    {s : GlobState pattern name} (hs : Inv s) :
    match globLoop s with
    | none => gaveUp
    | some s' => Inv s' ∧ s'.ni = name.length := by
  fun_induction globLoop s with
  | case1 s h hnone =>
    rcases globStep_none hnone with ⟨hstar, hmiss⟩
    exact stop s hs hstar hmiss
  | case2 s h s1 hstep ih => exact ih (keep s s1 h hs hstep)
  | case3 s h => exact ⟨hs, Nat.le_antisymm s.ni_le (Nat.le_of_not_lt h)⟩

/-- The star to return to matches what is left from the place it is tried at. -/
def StarMatches (pattern name : Bytes) (sp starNi : Nat) : Prop :=
  Matches (.star :: globTokens (pattern.drop (sp + 1))) (name.drop starNi)

/-- The rest of the pattern matches the rest of the name. -/
def RestMatches {pattern name : Bytes} (s : GlobState pattern name) : Prop :=
  Matches (globTokens (pattern.drop s.pi)) (name.drop s.ni)

/-- A star at the place before takes one byte more. -/
theorem starMatches_of_succ {pattern name : Bytes} {sp i : Nat} (hi : i < name.length)
    (h : StarMatches pattern name sp (i + 1)) : StarMatches pattern name sp i := by
  rw [StarMatches]
  rw [drop_name hi]
  exact Wildcard.matches_star_append h [name[i]]

/-! ### Soundness -/

/-- What is left to match is enough for the whole name. It is the invariant of the loop for what
the matcher accepts: if the rest of the pattern matches the rest of the name, the whole pattern
matches the whole name. -/
structure Sound {pattern name : Bytes} (s : GlobState pattern name) : Prop where
  rest : RestMatches s → InLanguage pattern name
  star : ∀ sp ∈ s.starPi, StarMatches pattern name sp s.starNi → InLanguage pattern name

/-- A turn keeps soundness. -/
theorem sound_globStep {pattern name : Bytes} {s s' : GlobState pattern name}
    {h : s.ni < name.length} (hs : globStep s h = some s') (hsound : Sound s) : Sound s' := by
  rcases globStep_cases s h with ⟨t, next, hlt, hle, htokens, heq, ht⟩ | ⟨hp, htokens, heq, -⟩ |
    ⟨heq, -⟩
  · rw [heq] at hs
    cases hs
    refine ⟨?_, hsound.star⟩
    intro hrest
    refine hsound.rest ?_
    show Matches (globTokens (pattern.drop s.pi)) (name.drop s.ni)
    rw [htokens, drop_name h]
    -- What matched the rest matches it with the byte in front.
    rcases ht with ⟨p, rfl, hp⟩ | ⟨rfl, -⟩
    · exact Wildcard.matches_one_cons.mpr ⟨hp, hrest⟩
    · exact Wildcard.matches_star_append (Wildcard.matches_star_of_matches hrest) [name[s.ni]]
  · rw [heq] at hs
    cases hs
    -- The star becomes the one to return to, and takes nothing at first.
    have hstar : Matches (.star :: globTokens (pattern.drop (s.pi + 1))) (name.drop s.ni) →
        InLanguage pattern name := fun hm => hsound.rest (by rw [RestMatches, htokens]; exact hm)
    constructor
    case rest =>
      intro hrest
      exact hstar (Wildcard.matches_star_of_matches hrest)
    case star =>
      intro sp hsp hm
      cases hsp
      exact hstar hm
  · rw [heq] at hs
    rcases backtrack_eq hs with ⟨sp, hsp, hsp', hpi, hni, hstar⟩
    have hlt : s.starNi < name.length := Nat.lt_of_le_of_lt s.starNi_le h
    -- One byte more for the star.
    have hback : StarMatches pattern name sp (s.starNi + 1) → InLanguage pattern name :=
      fun hm => hsound.star sp hsp (starMatches_of_succ hlt hm)
    constructor
    case rest =>
      intro hrest
      rw [RestMatches, hpi, hni] at hrest
      exact hback (Wildcard.matches_star_of_matches hrest)
    case star =>
      intro sp' hsp'' hm
      rw [hsp'] at hsp''
      cases hsp''
      rw [hstar] at hm
      exact hback hm

/-- The loop keeps soundness, and ends at the end of the name. -/
theorem sound_globLoop {pattern name : Bytes} {s s' : GlobState pattern name}
    (hs : globLoop s = some s') (hsound : Sound s) : Sound s' ∧ s'.ni = name.length := by
  have hrule := @globLoop_rule pattern name Sound True (fun _ _ _ h hstep => sound_globStep hstep h)
    (fun _ _ _ _ => trivial) s hsound
  rw [hs] at hrule
  exact hrule

/-- At the end of the name only stars may be left. -/
theorem stars_iff {pattern : Bytes} {i : Nat} (hi : i ≤ pattern.length) :
    scanWhile (· == '*'.toUInt8) pattern i = pattern.length ↔
      Matches (globTokens (pattern.drop i)) [] := by
  fun_induction scanWhile (· == '*'.toUInt8) pattern i with
  | case1 i h hp ih =>
    rw [ih h, globTokens_star h (by simpa using hp), Wildcard.matches_star_nil]
  | case2 i h hp =>
    refine iff_of_false (by omega) ?_
    have hstar : pattern[i] ≠ '*'.toUInt8 := by simpa using hp
    by_cases hcls : pattern[i] = '['.toUInt8 ∧
        scanWhile (· != ']'.toUInt8) pattern (i + 1) < pattern.length
    · rw [globTokens_class h hcls.1 hcls.2]
      exact Wildcard.not_matches_one_nil
    · rw [globTokens_one h hstar fun hb hstop => hcls ⟨hb, hstop⟩]
      exact Wildcard.not_matches_one_nil
  | case3 i h =>
    rw [List.drop_eq_nil_of_le (Nat.le_of_not_lt h), globTokens]
    exact iff_of_true (by omega) rfl

/-! ### Completeness -/

/-- What is left to match is necessary for the whole name. With a star to return to, the
tokens since then stand for one byte each, and match the bytes read since then. -/
structure Complete {pattern name : Bytes} (s : GlobState pattern name) : Prop where
  rest : s.starPi = none → InLanguage pattern name → RestMatches s
  star : ∀ sp ∈ s.starPi, InLanguage pattern name → StarMatches pattern name sp s.starNi
  since : ∀ sp ∈ s.starPi, ∃ ps, globTokens (pattern.drop (sp + 1))
      = ps.map .one ++ globTokens (pattern.drop s.pi) ∧
    Fits ps ((name.drop s.starNi).take (s.ni - s.starNi))

/-- The bytes from the last star on, split where the matcher is. -/
theorem drop_starNi {pattern name : Bytes} (s : GlobState pattern name) :
    name.drop s.starNi = (name.drop s.starNi).take (s.ni - s.starNi) ++ name.drop s.ni := by
  have hdrop : name.drop s.ni = (name.drop s.starNi).drop (s.ni - s.starNi) := by
    rw [List.drop_drop, Nat.add_sub_cancel' s.starNi_le]
  rw [hdrop, List.take_append_drop]

/-- The bytes from the last star on, with one more read. -/
theorem take_succ_since {pattern name : Bytes} (s : GlobState pattern name) (h : s.ni < name.length) :
    (name.drop s.starNi).take (s.ni + 1 - s.starNi)
      = (name.drop s.starNi).take (s.ni - s.starNi) ++ [name[s.ni]] := by
  have hle := s.starNi_le
  have hlen : s.ni - s.starNi < (name.drop s.starNi).length := by
    rw [List.length_drop]
    omega
  have hget : (name.drop s.starNi)[s.ni - s.starNi] = name[s.ni] := by
    rw [List.getElem_drop]
    congr 1
    omega
  rw [show s.ni + 1 - s.starNi = (s.ni - s.starNi) + 1 by omega, List.take_succ_eq_append_getElem hlen,
    hget]

/-- With one more byte read, one more token fits. -/
theorem fits_succ {pattern name : Bytes} {s : GlobState pattern name} (h : s.ni < name.length)
    {ps : List (UInt8 → Bool)} {p : UInt8 → Bool}
    (hfits : Fits ps ((name.drop s.starNi).take (s.ni - s.starNi))) (hp : p name[s.ni] = true) :
    Fits (ps ++ [p]) ((name.drop s.starNi).take (s.ni + 1 - s.starNi)) := by
  rw [take_succ_since s h]
  exact List.rel_append hfits (List.Forall₂.cons hp List.Forall₂.nil)

/-- With a star to return to, a rest that does not match rules out the place it is tried
at. -/
theorem starMatches_succ {pattern name : Bytes} {s : GlobState pattern name} {sp : Nat}
    (h : s.ni < name.length) (hcomplete : Complete s) (hsp : sp ∈ s.starPi)
    (hrest : ¬ RestMatches s) (hm : StarMatches pattern name sp s.starNi) :
    StarMatches pattern name sp (s.starNi + 1) := by
  rcases hcomplete.since sp hsp with ⟨ps, htokens, hfits⟩
  unfold StarMatches at hm ⊢
  rw [drop_name (Nat.lt_of_le_of_lt s.starNi_le h), Wildcard.matches_star_iff,
    ← drop_name (Nat.lt_of_le_of_lt s.starNi_le h)] at hm
  -- If the star took nothing here, the tokens since then would match the bytes up to where
  -- the matcher is, and the rest what follows.
  refine hm.resolve_left fun hm => hrest ?_
  rw [htokens, drop_starNi s] at hm
  rcases Wildcard.matches_ones.mp hm with ⟨u, v, huv, hu, hv⟩
  have hlen : ((name.drop s.starNi).take (s.ni - s.starNi)).length = u.length := by
    rw [← hfits.length_eq, hu.length_eq]
  rw [RestMatches, (List.append_inj huv hlen).2]
  exact hv

/-- Taking a token for a byte of the name keeps completeness. -/
theorem Complete.advance {pattern name : Bytes} {s : GlobState pattern name}
    (hcomplete : Complete s) (h : s.ni < name.length) {next : Nat} (hlt : s.pi < next)
    (hle : next ≤ pattern.length) {p : UInt8 → Bool}
    (htokens : globTokens (pattern.drop s.pi) = .one p :: globTokens (pattern.drop next))
    (hp : p name[s.ni] = true) : Complete (s.advance h next hlt hle) := by
  constructor
  case rest =>
    intro hnone hl
    have hm := hcomplete.rest hnone hl
    rw [RestMatches, htokens, drop_name h, Wildcard.matches_one_cons] at hm
    exact hm.2
  case star => exact hcomplete.star
  case since =>
    intro sp hsp
    rcases hcomplete.since sp hsp with ⟨ps, hps, hfits⟩
    refine ⟨ps ++ [p], ?_, fits_succ h hfits hp⟩
    rw [hps, htokens, List.map_append, List.append_assoc]
    rfl

/-- A star keeps completeness. -/
theorem Complete.atStar {pattern name : Bytes} {s : GlobState pattern name}
    (hcomplete : Complete s) (hp : s.pi < pattern.length)
    (htokens : globTokens (pattern.drop s.pi) = .star :: globTokens (pattern.drop (s.pi + 1))) :
    Complete (s.atStar hp) := by
  constructor
  case rest => intro hnone; cases hnone
  case star =>
    intro sp hsp hl
    cases hsp
    show Matches (.star :: globTokens (pattern.drop (s.pi + 1))) (name.drop s.ni)
    rw [← htokens]
    cases hstar : s.starPi with
    | none => exact hcomplete.rest hstar hl
    | some sp =>
      -- The star before this one is forgotten.
      rcases hcomplete.since sp hstar with ⟨ps, hps, hfits⟩
      have hm := hcomplete.star sp hstar hl
      rw [StarMatches] at hm
      rw [hps, htokens, drop_starNi s, Wildcard.matches_forget hfits] at hm
      rwa [htokens]
  case since =>
    intro sp hsp
    cases hsp
    refine ⟨[], rfl, ?_⟩
    show Fits [] ((name.drop s.ni).take (s.ni - s.ni))
    rw [Nat.sub_self]
    exact List.Forall₂.nil

/-- Going back keeps completeness, where the rest of the pattern does not match. -/
theorem Complete.backtrack {pattern name : Bytes} {s s' : GlobState pattern name}
    (hcomplete : Complete s) {h : s.ni < name.length} (hs : s.backtrack h = some s')
    (hmiss : ¬ RestMatches s) : Complete s' := by
  rcases backtrack_eq hs with ⟨sp, hsp, hsp', hpi, hni, hstar⟩
  constructor
  case rest =>
    intro hnone
    rw [hsp'] at hnone
    cases hnone
  case star =>
    intro sp' h' hl
    rw [hsp'] at h'
    cases h'
    rw [hstar]
    exact starMatches_succ h hcomplete hsp hmiss (hcomplete.star sp hsp hl)
  case since =>
    intro sp' h'
    rw [hsp'] at h'
    cases h'
    refine ⟨[], by rw [hpi]; rfl, ?_⟩
    rw [hni, hstar, Nat.sub_self]
    exact List.Forall₂.nil

/-- A turn keeps completeness, on a name without stars. -/
theorem complete_globStep {pattern name : Bytes} (hname : '*'.toUInt8 ∉ name)
    {s s' : GlobState pattern name} {h : s.ni < name.length} (hs : globStep s h = some s')
    (hcomplete : Complete s) : Complete s' := by
  rcases globStep_cases s h with ⟨t, next, hlt, hle, htokens, heq, ht⟩ | ⟨hp, htokens, heq, -⟩ |
    ⟨heq, hmiss⟩
  · rw [heq] at hs
    cases hs
    rcases ht with ⟨p, rfl, hp⟩ | ⟨-, hstar⟩
    · exact hcomplete.advance h hlt hle htokens hp
    · exact absurd (hstar ▸ List.getElem_mem h) hname
  · rw [heq] at hs
    cases hs
    exact hcomplete.atStar hp htokens
  · rw [heq] at hs
    exact hcomplete.backtrack hs hmiss

/-- The loop keeps completeness. It gives up only on a name outside the language. -/
theorem complete_globLoop {pattern name : Bytes} (hname : '*'.toUInt8 ∉ name)
    {s : GlobState pattern name} (hcomplete : Complete s) :
    match globLoop s with
    | none => ¬ InLanguage pattern name
    | some s' => Complete s' := by
  have hrule := globLoop_rule (fun _ _ _ h hstep => complete_globStep hname hstep h)
    (fun s h hstar hmiss hl => hmiss (h.rest hstar hl)) hcomplete
  cases hloop : globLoop s with
  | none =>
    rw [hloop] at hrule
    exact hrule
  | some s' =>
    rw [hloop] at hrule
    exact hrule.1

/-- At the end of the name, a name in the language leaves stars only. -/
theorem Complete.stars {pattern name : Bytes} {s : GlobState pattern name} (hcomplete : Complete s)
    (hend : s.ni = name.length) (hl : InLanguage pattern name) :
    Matches (globTokens (pattern.drop s.pi)) [] := by
  cases hstar : s.starPi with
  | none =>
    have hm := hcomplete.rest hstar hl
    rwa [RestMatches, hend, List.drop_length] at hm
  | some sp =>
    -- The tokens since the star have used up the name.
    rcases hcomplete.since sp hstar with ⟨ps, hps, hfits⟩
    have hm := hcomplete.star sp hstar hl
    rw [List.take_of_length_le (by rw [List.length_drop]; omega)] at hfits
    rw [StarMatches, hps] at hm
    exact Wildcard.matches_of_ones hfits hm

/-- **The matcher and the language**: a name that `glob_match` accepts is in the language of the
pattern, and a name without `*` in the language is accepted. Both parts follow the loop with an
invariant: `Sound` says what the rest of the pattern has to match for the name to be in the
language, and `Complete` that going back to the last star is enough. -/
theorem globMatch_language (pattern name : Bytes) :
    (globMatch pattern name = true → InLanguage pattern name) ∧
      ('*'.toUInt8 ∉ name → InLanguage pattern name → globMatch pattern name = true) := by
  constructor
  · intro h
    rw [globMatch] at h
    split at h
    · cases h
    · -- The name is used up, and what is left of the pattern is stars.
      rename_i s hs
      have hstart : Sound (GlobState.start pattern name) := ⟨id, by simp [GlobState.start]⟩
      rcases sound_globLoop hs hstart with ⟨hsound, hend⟩
      refine hsound.rest ?_
      rw [RestMatches, hend, List.drop_length]
      exact (stars_iff s.pi_le).mp (by simpa using h)
  · intro hname hl
    have hstart : Complete (GlobState.start pattern name) :=
      ⟨fun _ hl => hl, by simp [GlobState.start], by simp [GlobState.start]⟩
    have hloop := complete_globLoop hname hstart
    rw [globMatch]
    cases hs : globLoop (GlobState.start pattern name) with
    | none =>
      rw [hs] at hloop
      exact absurd hl hloop
    | some s =>
      rw [hs] at hloop
      have hend := (sound_globLoop hs ⟨id, by simp [GlobState.start]⟩).2
      have hstars := (stars_iff s.pi_le).mpr (Complete.stars hloop hend hl)
      show (scanWhile (· == '*'.toUInt8) pattern s.pi == pattern.length) = true
      rw [beq_iff_eq]
      exact hstars

end OnyxShell
