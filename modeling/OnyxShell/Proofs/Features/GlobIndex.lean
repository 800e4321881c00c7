import OnyxShell.Features.Service.GlobIndex
import OnyxShell.Proofs.Features.Glob

/-!
# `OnyxShell.Proofs.Features.GlobIndex`: the matcher stays in bounds and ends

A turn on plain indices does what `globStep` does on the state that carries its bounds
(`globTurn_vars`). So no check fails, and the bounds and the measure of `GlobState` are those
of the plain loop. `StarMarked` is what they do not say: the star to return to is a `*`.

The rule for loops with a measure is in `OnyxShell.Lib.Loop`. It gives both results, that no turn
fails and that the turns come to an end.
-/

set_option autoImplicit false

namespace OnyxShell

open Loop (Turn)
open Scan (scanWhile le_scanWhile checkedScan_eq slice_eq)

/-- A range needs a dash and a byte behind it. Where both are within the class, the indices of the
code are in bounds. -/
theorem rangeAt_of_lt {cls : Bytes} {i : Nat} {dash : UInt8} (h : i + 2 < cls.length)
    (hdash : (cls)[i + 1]? = some dash) : rangeAt cls i = some (decide (dash = '-'.toUInt8)) := by
  rw [rangeAt, if_pos h, hdash]
  rfl

/-- Too close to the end of the class there is no range, and no index is read. -/
theorem rangeAt_of_le {cls : Bytes} {i : Nat} (h : ¬ i + 2 < cls.length) :
    rangeAt cls i = some false := if_neg h

/-- A turn of the class loop, at an index that is in the class. -/
theorem classScan_of_lt {cls : Bytes} {c : UInt8} {i : Nat} {range : Bool} (h : i < cls.length)
    (hrange : rangeAt cls i = some range) :
    classScan cls c i =
      if range then
        if cls[i] ≤ c then
          (cls)[i + 2]?.bind fun last => if c ≤ last then some true else classScan cls c (i + 3)
        else classScan cls c (i + 3)
      else if c = cls[i] then some true
      else classScan cls c (i + 1) := by
  rw [classScan, dif_pos h, hrange, List.getElem?_eq_getElem h]
  rfl

/-- The class loop looks at the length before every access. -/
theorem classScan_eq (cls : Bytes) (c : UInt8) (i : Nat) :
    classScan cls c i = some (classLoop cls c i) := by
  -- `classLoop` tests `i + 2` before `i`, so a turn has its cases in another order there.
  fun_induction classLoop cls c i with
  | case1 i h hdash hin =>
    have hrange := rangeAt_of_lt h (List.getElem?_eq_getElem (Nat.lt_of_succ_lt h))
    rw [decide_eq_true hdash] at hrange
    rw [classScan_of_lt (by omega) hrange, if_pos rfl, if_pos hin.1, List.getElem?_eq_getElem h,
      Option.bind_some, if_pos hin.2]
  | case2 i h hdash hout ih =>
    have hrange := rangeAt_of_lt h (List.getElem?_eq_getElem (Nat.lt_of_succ_lt h))
    rw [decide_eq_true hdash] at hrange
    rw [classScan_of_lt (by omega) hrange, if_pos rfl, List.getElem?_eq_getElem h,
      Option.bind_some, ih]
    split
    next hlow => rw [if_neg fun hhigh => hout ⟨hlow, hhigh⟩]
    next => rfl
  | case3 i h hdash heq =>
    have hrange := rangeAt_of_lt h (List.getElem?_eq_getElem (Nat.lt_of_succ_lt h))
    rw [decide_eq_false hdash] at hrange
    rw [classScan_of_lt (by omega) hrange, if_neg Bool.false_ne_true, if_pos heq]
  | case4 i h hdash hne ih =>
    have hrange := rangeAt_of_lt h (List.getElem?_eq_getElem (Nat.lt_of_succ_lt h))
    rw [decide_eq_false hdash] at hrange
    rw [classScan_of_lt (by omega) hrange, if_neg Bool.false_ne_true, if_neg hne, ih]
  | case5 i h h' heq =>
    rw [classScan_of_lt h' (rangeAt_of_le h), if_neg Bool.false_ne_true, if_pos heq]
  | case6 i h h' hne ih =>
    rw [classScan_of_lt h' (rangeAt_of_le h), if_neg Bool.false_ne_true, if_neg hne, ih]
  | case7 i h h' => rw [classScan, dif_neg h']

namespace GlobState

variable {pattern name : Bytes}

/-- The variables of a state. -/
def vars (s : GlobState pattern name) : GlobVars := ⟨s.pi, s.ni, s.starPi, s.starNi⟩

/-- The pattern index of the bare loop variables. -/
@[simp] theorem vars_pi (s : GlobState pattern name) : s.vars.pi = s.pi := rfl

/-- The name index of the bare loop variables. -/
@[simp] theorem vars_ni (s : GlobState pattern name) : s.vars.ni = s.ni := rfl

/-- What a turn comes to. `none` is `return false`. -/
def turn : Option (GlobState pattern name) → Turn Bool GlobVars
  | none => .ret false
  | some s => .next s.vars

/-- Falling back to the last star is the same step with and without the bounds in the type. -/
theorem fallBack_vars (s : GlobState pattern name) (h : s.ni < name.length) :
    s.vars.fallBack = turn (s.backtrack h) := by
  rw [GlobVars.fallBack, backtrack]
  split
  next spi hspi =>
    split
    next hnone => exact absurd (hspi.symm.trans hnone) (Option.some_ne_none spi)
    next sp hsp =>
      have heq : spi = sp := Option.some.inj (hspi.symm.trans hsp)
      rw [heq]
      rfl
  next hnone =>
    split
    next => rfl
    next sp hsp => exact absurd (hsp.symm.trans hnone) (Option.some_ne_none sp)

/-- Whether a byte is taken is decided by reads that are in bounds. -/
theorem takesByte_vars (s : GlobState pattern name) (h : s.ni < name.length)
    (hp : s.pi < pattern.length) :
    s.vars.takesByte pattern name = some (decide (pattern[s.pi] = '?'.toUInt8 ∨
      pattern[s.pi] = name[s.ni] ∨ pattern[s.pi] = '['.toUInt8)) := by
  rw [GlobVars.takesByte, vars_pi, vars_ni, if_pos hp, List.getElem?_eq_getElem hp,
    List.getElem?_eq_getElem h]
  show (if pattern[s.pi] = '?'.toUInt8 then some true else some _) = _
  by_cases hany : pattern[s.pi] = '?'.toUInt8
  · rw [if_pos hany, decide_eq_true (Or.inl hany)]
  · rw [if_neg hany]
    simp only [hany, false_or]

/-- The branch for a `[`. -/
theorem bracketTurn_vars (s : GlobState pattern name) (h : s.ni < name.length)
    (hp : s.pi < pattern.length)
    (hone : pattern[s.pi] = '?'.toUInt8 ∨ pattern[s.pi] = name[s.ni] ∨ pattern[s.pi] = '['.toUInt8)
    (hcls : pattern[s.pi] = '['.toUInt8) :
    bracketTurn pattern name s.vars = some (turn (globStep s h)) := by
  have hle := le_scanWhile (· != ']'.toUInt8) pattern (s.pi + 1)
  rw [bracketTurn, vars_pi, vars_ni, checkedScan_eq, globStep, dif_pos hp, if_pos hone, if_pos hcls,
    List.getElem?_eq_getElem h]
  show (if scanWhile (· != ']'.toUInt8) pattern (s.pi + 1) ≥ pattern.length then _ else _) = _
  by_cases hstop : scanWhile (· != ']'.toUInt8) pattern (s.pi + 1) < pattern.length
  · rw [if_neg (Nat.not_le.mpr hstop)]
    show ((Scan.slice pattern (s.pi + 1) _).bind fun cls => _) = _
    -- The slice of the class ends at the `]`, which is in the pattern.
    rw [slice_eq hle (Nat.le_of_lt hstop)]
    show ((classScan _ name[s.ni] 0).bind fun found => _) = _
    rw [classScan_eq]
    simp only [dif_pos hstop, Option.bind_some]
    split
    next hout =>
      rw [if_neg (by simpa using hout), fallBack_vars s h]
    next hin =>
      rw [if_pos (by simpa using hin)]
      rfl
  · rw [if_pos (Nat.le_of_not_lt hstop)]
    simp only [dif_neg hstop]
    show (if name[s.ni] ≠ '['.toUInt8 then _ else _) = _
    split
    next hne => rw [fallBack_vars s h]
    next heq => rfl

/-- **A turn on plain indices does what `globStep` does.** No check fails. -/
theorem globTurn_vars (s : GlobState pattern name) (h : s.ni < name.length) :
    globTurn pattern name s.vars = some (turn (globStep s h)) := by
  rw [globTurn]
  by_cases hp : s.pi < pattern.length
  · rw [takesByte_vars s h hp, Option.bind_eq_bind, Option.bind_some, vars_pi,
      List.getElem?_eq_getElem hp]
    by_cases hone : pattern[s.pi] = '?'.toUInt8 ∨ pattern[s.pi] = name[s.ni] ∨
        pattern[s.pi] = '['.toUInt8
    · rw [decide_eq_true hone, if_pos rfl]
      show (if pattern[s.pi] = '['.toUInt8 then _ else _) = _
      by_cases hcls : pattern[s.pi] = '['.toUInt8
      · rw [if_pos hcls, bracketTurn_vars s h hp hone hcls]
      · rw [if_neg hcls, globStep, dif_pos hp, if_pos hone, if_neg hcls]
        rfl
    · rw [decide_eq_false hone, if_neg Bool.false_ne_true, GlobVars.atStar, vars_pi, if_pos hp,
        List.getElem?_eq_getElem hp, globStep, dif_pos hp, if_neg hone]
      show (if decide (pattern[s.pi] = '*'.toUInt8) = true then _ else _) = _
      by_cases hstar : pattern[s.pi] = '*'.toUInt8
      · rw [if_pos (decide_eq_true hstar), if_pos hstar]
        rfl
      · rw [if_neg (by simpa using hstar), if_neg hstar, fallBack_vars s h]
  · -- The pattern is used up, and nothing of it is read.
    rw [GlobVars.takesByte, vars_pi, if_neg hp, GlobVars.atStar, vars_pi, if_neg hp, globStep,
      dif_neg hp, ← fallBack_vars s h]
    rfl

/-- The star to return to is a `*` of the pattern. -/
def StarMarked (s : GlobState pattern name) : Prop :=
  ∀ spi ∈ s.starPi, (pattern)[spi]? = some '*'.toUInt8

/-- A turn keeps the star to return to, or takes the one it has met. -/
theorem StarMarked.globStep {s s' : GlobState pattern name} {h : s.ni < name.length}
    (hmarked : s.StarMarked) (hs : globStep s h = some s') : s'.StarMarked := by
  intro spi hspi
  rcases globStep_some hs with ⟨next, hlt, hle, rfl⟩ | ⟨hp, hstar, rfl⟩ | hback
  · exact hmarked spi hspi
  · cases hspi
    exact hstar
  · rcases backtrack_eq hback with ⟨sp, hold, hnew, -⟩
    rw [hnew, ← hold] at hspi
    exact hmarked spi hspi

end GlobState

/-! ### The loop -/

/-- The bounds of the variables. -/
structure GlobVars.InBounds (pattern name : Bytes) (v : GlobVars) : Prop where
  pi_le : v.pi ≤ pattern.length
  ni_le : v.ni ≤ name.length
  starNi_le : v.starNi ≤ v.ni
  star : ∀ spi ∈ v.starPi, spi < v.pi ∧ (pattern)[spi]? = some '*'.toUInt8

/-- The places left for the last star, then the rest of the pattern. -/
def GlobVars.measure (pattern name : Bytes) (v : GlobVars) : Nat :=
  (name.length - v.starNi) * (pattern.length + 1) + (pattern.length - v.pi)

variable {pattern name : Bytes}

/-- Variables in bounds are those of a state. -/
theorem GlobVars.InBounds.exists_state {v : GlobVars} (h : v.InBounds pattern name) :
    ∃ s : GlobState pattern name, s.vars = v ∧ s.StarMarked :=
  ⟨⟨v.pi, v.ni, v.starPi, v.starNi, h.pi_le, h.ni_le, h.starNi_le, fun spi hspi => (h.star spi hspi).1⟩,
    rfl, fun spi hspi => (h.star spi hspi).2⟩

/-- A state with its bounds in the type has bare variables that are in bounds. -/
theorem GlobState.inBounds {s : GlobState pattern name} (h : s.StarMarked) :
    s.vars.InBounds pattern name :=
  ⟨s.pi_le, s.ni_le, s.starNi_le, fun spi hspi => ⟨s.starPi_lt spi hspi, h spi hspi⟩⟩

/-- At the start both indices are zero, and no star has been seen. -/
theorem GlobVars.inBounds_start : GlobVars.start.InBounds pattern name :=
  ⟨Nat.zero_le _, Nat.zero_le _, Nat.le_refl _, fun spi hspi => absurd hspi (Option.not_mem_none spi)⟩

/-- A turn that goes on is one of `globStep`. -/
theorem globTurn_next {v v' : GlobVars} (hv : v.InBounds pattern name)
    (hcond : globCond name v = true)
    (hturn : globTurn pattern name v = some (.next v')) :
    v'.InBounds pattern name ∧ v'.measure pattern name < v.measure pattern name := by
  rcases hv.exists_state with ⟨s, rfl, hmarked⟩
  have hni : s.ni < name.length := of_decide_eq_true hcond
  rw [GlobState.globTurn_vars s hni] at hturn
  cases hstep : globStep s hni with
  | none =>
    rw [hstep] at hturn
    cases hturn
  | some s' =>
    rw [hstep] at hturn
    cases hturn
    exact ⟨GlobState.inBounds (hmarked.globStep hstep), GlobState.measure_globStep hstep⟩

/-- The rule of the main loop. -/
theorem globRule (pattern name : Bytes) :
    Loop.Rule (globCond name) (globTurn pattern name) (GlobVars.InBounds pattern name)
      (GlobVars.measure pattern name) where
  safe v hv hcond := by
    rcases hv.exists_state with ⟨s, rfl, -⟩
    exact ⟨_, GlobState.globTurn_vars s (of_decide_eq_true hcond)⟩
  keep v v' hv hcond hturn := (globTurn_next hv hcond hturn).1
  drop v v' hv hcond hturn := (globTurn_next hv hcond hturn).2

/-- **The matching loop stays in bounds and ends.** However many turns it has made, no index was
out of its slice and the variables are in bounds; and it has returned or is at the end of the name
before it has made more turns than the measure allows. This is about the bare indices of the code,
before any bound is put into a type. The measure counts the places in the name that the last star
may still reach, and the bytes of the pattern behind it. -/
theorem glob_loop_in_bounds_and_ends (pattern name : Bytes) :
    (∀ k, ∃ turn, globTurns pattern name k = some turn ∧
      ∀ v, turn = .next v → v.InBounds pattern name) ∧
    ∃ k ≤ name.length * (pattern.length + 1) + pattern.length + 1,
      ∃ turn, globTurns pattern name k = some turn ∧
        ((∃ r, turn = .ret r) ∨ ∃ v, turn = .next v ∧ v.ni = name.length) := by
  have hrule := globRule pattern name
  constructor
  · intro k
    exact hrule.iterate_safe GlobVars.inBounds_start k
  · rcases hrule.ends GlobVars.inBounds_start with ⟨k, hk, turn, hturn, hend⟩
    refine ⟨k, hk, turn, hturn, ?_⟩
    cases turn with
    | ret r => exact Or.inl ⟨r, rfl⟩
    | next v =>
      -- The loop has stopped at its condition, and `ni` is in bounds.
      rcases hrule.iterate_safe GlobVars.inBounds_start k with ⟨turn, hturn', hbounds⟩
      have heq : turn = .next v := Option.some.inj (hturn'.symm.trans hturn)
      have hle := (hbounds v heq).ni_le
      have hge : ¬ v.ni < name.length := of_decide_eq_false (hend v rfl)
      exact Or.inr ⟨v, rfl, Nat.le_antisymm hle (Nat.le_of_not_lt hge)⟩

/-- The plain loop comes to where `globLoop` comes to. -/
theorem GlobState.iterate_globLoop (s : GlobState pattern name) :
    ∃ k, Loop.iterate (globCond name) (globTurn pattern name) s.vars k
      = some (turn (globLoop s)) := by
  fun_induction globLoop s with
  | case1 s h hstep =>
    have hcond : globCond name s.vars = true := decide_eq_true h
    have hturn := globTurn_vars s h
    rw [hstep] at hturn
    exact ⟨1, Loop.iterate_ret hcond hturn 0⟩
  | case2 s h s' hstep ih =>
    have hcond : globCond name s.vars = true := decide_eq_true h
    have hturn := globTurn_vars s h
    rw [hstep] at hturn
    rcases ih with ⟨k, hk⟩
    exact ⟨k + 1, (Loop.iterate_next hcond hturn k).trans hk⟩
  | case3 s h => exact ⟨0, rfl⟩

/-- **The matcher on plain indices gives what `globMatch` gives.** -/
theorem globTurns_globMatch (pattern name : Bytes) :
    ∃ k, (globTurns pattern name k).bind (globResult pattern) = some (globMatch pattern name) := by
  rcases GlobState.iterate_globLoop (GlobState.start pattern name) with ⟨k, hk⟩
  refine ⟨k, ?_⟩
  have hturns : globTurns pattern name k = some (GlobState.turn (globLoop (.start pattern name))) :=
    hk
  rw [hturns, Option.bind_some, globMatch]
  cases globLoop (GlobState.start pattern name) with
  | none => rfl
  | some s =>
    rw [GlobState.turn, globResult, checkedScan_eq]
    rfl

end OnyxShell
