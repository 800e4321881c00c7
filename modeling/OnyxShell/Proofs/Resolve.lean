import OnyxShell.Proofs.PathNormal

/-!
# `OnyxShell.Proofs.Resolve`: which file an input of `resolve` names

The working directory and the input are joined in a buffer (`appendWithSlash_eq_joined`),
and `normalize` then reads the steps of both. `resolve_eq_absolute` compares a relative
input with the absolute path it stands for, and `resolve_keeps_file_iff` says which inputs
still name their file when `getcwd` fails.
-/

set_option autoImplicit false

namespace OnyxShell

open LexicalPath

/-- The input without one `./` at its start. -/
def withoutDotSlash (input : Bytes) : Bytes :=
  if input.take 2 = bytes "./" then input.drop 2 else input

/-- The `/` between a working directory and an input, unless the directory ends with it. -/
def joint (cwd : Bytes) : Bytes := if cwd.getLast? = some '/'.toUInt8 then [] else bytes "/"

/-- The buffer takes the joined path up to 255 bytes. -/
theorem appendWithSlash_eq_joined {cwd : Bytes} (hne : cwd ≠ []) (more : Bytes) :
    appendWithSlash cwd more =
      if cwd.length + (joint cwd).length + more.length ≤ 255 then
        some (cwd ++ joint cwd ++ more)
      else none := by
  have hpos : cwd.length > 0 := List.length_pos_iff.mpr hne
  rw [appendWithSlash, joint]
  by_cases hlast : cwd.getLast? = some '/'.toUInt8
  · -- One test, for the input.
    rw [if_neg (fun h => h.2 hlast), if_pos hlast, List.length_nil, Nat.add_zero,
      List.append_nil]
    show (if cwd.length + more.length ≥ PATH_MAX then none else some (cwd ++ more)) = _
    by_cases hfit : cwd.length + more.length ≥ PATH_MAX
    · rw [if_pos hfit, if_neg (Nat.not_le.mpr hfit)]
    · rw [if_neg hfit, if_pos (Nat.le_of_lt_succ (Nat.lt_of_not_le hfit))]
  · -- Two tests, for the separator and for the input. The second one is the stronger.
    rw [if_pos ⟨hpos, hlast⟩, if_neg hlast]
    by_cases hfull : cwd.length ≥ PATH_MAX - 1
    · rw [if_pos hfull, if_neg]
      · rfl
      · have hfull : cwd.length ≥ 255 := hfull
        show ¬cwd.length + 1 + more.length ≤ 255
        omega
    · rw [if_neg hfull]
      show (if (cwd ++ bytes "/").length + more.length ≥ PATH_MAX then none
        else some (cwd ++ bytes "/" ++ more)) = _
      have hlen : (cwd ++ bytes "/").length = cwd.length + (bytes "/").length :=
        List.length_append
      rw [hlen]
      by_cases hfit : cwd.length + (bytes "/").length + more.length ≥ PATH_MAX
      · rw [if_pos hfit, if_neg (Nat.not_le.mpr hfit)]
      · rw [if_neg hfit, if_pos (Nat.le_of_lt_succ (Nat.lt_of_not_le hfit))]

/-- The steps behind a working directory. -/
theorem pathSteps_joint (cwd more : Bytes) :
    pathSteps (cwd ++ joint cwd ++ more) = pathSteps cwd ++ pathSteps more := by
  rw [joint]
  by_cases hlast : cwd.getLast? = some '/'.toUInt8
  · rw [if_pos hlast, List.append_nil]
    rcases List.getLast?_eq_some_iff.mp hlast with ⟨init, rfl⟩
    have hassoc : init ++ ['/'.toUInt8] ++ more = init ++ '/'.toUInt8 :: more := by simp
    rw [hassoc, pathSteps, pathSteps, pathSteps, steps_append_sep, steps_append_sep,
      steps_run List.not_mem_nil, if_pos (Or.inl rfl), List.append_nil]
  · rw [if_neg hlast]
    have hassoc : cwd ++ bytes "/" ++ more = cwd ++ '/'.toUInt8 :: more := by
      rw [List.append_assoc]
      rfl
    rw [hassoc, pathSteps, pathSteps, pathSteps, steps_append_sep]

/-- A `./` at the start is no step. -/
theorem pathSteps_withoutDotSlash (input : Bytes) :
    pathSteps (withoutDotSlash input) = pathSteps input := by
  rw [withoutDotSlash]
  split
  · rename_i h
    have hdot : '/'.toUInt8 ∉ ['.'.toUInt8] := by decide
    conv_rhs => rw [eq_of_dotSlash h, pathSteps, steps_append_sep, steps_run hdot]
    rfl
  · rfl

/-- What `resolve` makes of a relative input in a working directory of up to 254 bytes. -/
theorem resolve_eq_joined {cwd input : Bytes} (hcwd : cwd.head? = some '/'.toUInt8)
    (hlen : cwd.length ≤ 254) (hne : input ≠ []) (hrel : input.head? ≠ some '/'.toUInt8) :
    resolve (some cwd) input =
      if cwd.length + (joint cwd).length + (withoutDotSlash input).length ≤ 255 then
        normalize (cwd ++ joint cwd ++ withoutDotSlash input)
      else none := by
  have hcwdne : cwd ≠ [] := by
    rintro rfl
    cases hcwd
  have hshort : ¬cwd.length > PATH_MAX - 2 := Nat.not_lt.mpr hlen
  rw [resolve_relative hcwd hne hrel, if_neg hshort,
    show (if input.take 2 = bytes "./" then input.drop 2 else input) = withoutDotSlash input
      from rfl, appendWithSlash_eq_joined hcwdne]
  split
  · rfl
  · rfl

/-- **A relative input is resolved as the absolute path it stands for**: exactly when the working
directory, the `/` and the input without a `./` at its start have at most 255 bytes, and then with
the bytes that `resolve` gives for the directory, a `/` and the input. The right side of the
second part is resolved from the root, where `getcwd` is not asked. Both sides take the same
steps, since a `./` and a second `/` are no steps. -/
theorem resolve_eq_absolute (cwd input : Bytes) (getcwd : Option Bytes)
    (hcwd : cwd.head? = some '/'.toUInt8) (hlen : cwd.length ≤ 254) (hne : input ≠ [])
    (hrel : input.head? ≠ some '/'.toUInt8) :
    ((resolve (some cwd) input).isSome = true ↔
      cwd.length + (if cwd.getLast? = some '/'.toUInt8 then 0 else 1) +
        (withoutDotSlash input).length ≤ 255) ∧
    ((resolve (some cwd) input).isSome = true →
      resolve (some cwd) input = resolve getcwd (cwd ++ bytes "/" ++ input)) := by
  have hjoint : (joint cwd).length = if cwd.getLast? = some '/'.toUInt8 then 0 else 1 := by
    rw [joint]
    split
    · rfl
    · rfl
  have hhead : ∀ more : Bytes, (cwd ++ more).head? = some '/'.toUInt8 := by
    intro more
    rw [List.head?_append, hcwd]
    rfl
  rw [resolve_eq_joined hcwd hlen hne hrel, ← hjoint]
  by_cases hfit : cwd.length + (joint cwd).length + (withoutDotSlash input).length ≤ 255
  · rw [if_pos hfit, List.append_assoc]
    have hshort : (cwd ++ (joint cwd ++ withoutDotSlash input)).length < PATH_MAX := by
      rw [List.length_append, List.length_append]
      exact Nat.lt_succ_of_le (by omega)
    constructor
    · exact ⟨fun _ => hfit, fun _ => normalize_isSome (hhead _) hshort⟩
    · intro _
      -- Both paths take the same steps from the root.
      have hassoc : cwd ++ bytes "/" ++ input = cwd ++ '/'.toUInt8 :: input := by
        rw [List.append_assoc]
        rfl
      rw [resolve_absolute getcwd (by rw [List.append_assoc]; exact hhead _),
        normalize_eq_foldlM (hhead _), normalize_eq_foldlM (by rw [hassoc]; exact hhead _),
        ← List.append_assoc, pathSteps_joint, pathSteps_withoutDotSlash, hassoc, pathSteps,
        pathSteps, pathSteps, steps_append_sep]
  · rw [if_neg hfit]
    constructor
    · exact ⟨fun h => Bool.noConfusion h, fun h => absurd h hfit⟩
    · exact fun h => Bool.noConfusion h

/-- `./../b` in `/a` leads where `/a/./../b` does. -/
theorem resolve_eq_absolute_dots :
    resolve (some (bytes "/a")) (bytes "./../b") = resolve none (bytes "/a/./../b") :=
  (resolve_eq_absolute (bytes "/a") (bytes "./../b") none rfl (by decide) (by decide)
    (by decide)).2 (by decide +kernel)

/-- Whether `resolve` falls back to `/`: an error of `getcwd`, or a result that is not an
absolute path. -/
def getcwdFails (getcwd : Option Bytes) : Bool :=
  match getcwd with
  | none => true
  | some cwd => cwd.head? != some '/'.toUInt8

/-- The working directory, taken as the root when `getcwd` fails. -/
def workingDirectory (getcwd : Option Bytes) : List Bytes :=
  match getcwd with
  | none => []
  | some cwd => if cwd.head? = some '/'.toUInt8 then locate cwd else []

/-- The file that a relative input names. -/
def namedFile (getcwd : Option Bytes) (input : Bytes) : List Bytes :=
  walk '/'.toUInt8 '.'.toUInt8 (workingDirectory getcwd) input

/-- A path that `resolve` gives for a relative input has the components of the file that
the input names. -/
def KeepsFile (getcwd : Option Bytes) (input : Bytes) : Prop :=
  ∀ out, resolve getcwd input = some out → components '/'.toUInt8 out = namedFile getcwd input

/-- The components of a spelling are the names of the directory. -/
theorem Rendered.components {out : Bytes} {dir : List Bytes} (h : Rendered out dir) :
    components '/'.toUInt8 out = dir := components_of_renders h.names h.renders

/-- The empty input does not resolve. -/
theorem resolve_nil (getcwd : Option Bytes) : resolve getcwd [] = none := rfl

/-- A failing `getcwd` makes every relative input `/`. -/
theorem resolve_of_getcwdFails {getcwd : Option Bytes} {input : Bytes}
    (hfail : getcwdFails getcwd = true) (hne : input ≠ [])
    (hrel : input.head? ≠ some '/'.toUInt8) : resolve getcwd input = some (bytes "/") := by
  have hlen : ¬ input.length = 0 := fun h => hne (List.length_eq_zero_iff.mp h)
  have hcopy : copyAbs (bytes "/") = some (bytes "/") := by decide
  rcases getcwd with _ | cwd
  · rw [resolve, if_neg hlen, if_neg hrel]
    exact hcopy
  · rw [getcwdFails, bne_iff_ne] at hfail
    rw [resolve, if_neg hlen, if_neg hrel, if_pos hfail]
    exact hcopy

/-- A working directory that `getcwd` gives is the one that the input leads on from. -/
theorem components_resolve {cwd input out : Bytes} (hcwd : cwd.head? = some '/'.toUInt8)
    (hne : input ≠ []) (hrel : input.head? ≠ some '/'.toUInt8)
    (h : resolve (some cwd) input = some out) :
    components '/'.toUInt8 out = walk '/'.toUInt8 '.'.toUInt8 (locate cwd) input := by
  by_cases hlen : cwd.length ≤ 254
  · rw [resolve_eq_joined hcwd hlen hne hrel] at h
    split at h
    · rw [(rendered_normalize h).components, locate_eq_foldl, pathSteps_joint,
        pathSteps_withoutDotSlash, List.foldl_append, ← locate_eq_foldl]
      exact walk_eq_steps.symm
    · cases h
  · have hlong : cwd.length > PATH_MAX - 2 := Nat.lt_of_not_le hlen
    rw [resolve_relative hcwd hne hrel, if_pos hlong] at h
    cases h

/-- **Which inputs a failing `getcwd` redirects**: a relative input is resolved to the file it
names if and only if `getcwd` gives an absolute path or the input leads nowhere from the root. Two
inputs that are resolved to the files they name never share a path. A failing `getcwd`, or one
that answers with a path that is not absolute, makes `resolve` give the root and drop the
input. -/
theorem resolve_keeps_file_iff (getcwd : Option Bytes) (input : Bytes)
    (hrel : input.head? ≠ some '/'.toUInt8) :
    (KeepsFile getcwd input ↔
      (getcwdFails getcwd = true → walk '/'.toUInt8 '.'.toUInt8 [] input = [])) ∧
    ∀ input', KeepsFile getcwd input → KeepsFile getcwd input' →
      namedFile getcwd input ≠ namedFile getcwd input' →
      ∀ out, resolve getcwd input = some out → resolve getcwd input' ≠ some out := by
  constructor
  · by_cases hne : input = []
    · -- An empty input is refused and leads nowhere.
      subst hne
      refine ⟨fun _ _ => walk_nil, fun _ out h => ?_⟩
      rw [resolve_nil] at h
      cases h
    · rcases hfail : getcwdFails getcwd with _ | _
      · -- `getcwd` gives an absolute path, and both sides hold.
        refine ⟨fun _ h => Bool.noConfusion h, fun _ out h => ?_⟩
        rcases getcwd with _ | cwd
        · cases hfail
        · have hcwd : cwd.head? = some '/'.toUInt8 := by
            rwa [getcwdFails, bne_eq_false_iff_eq] at hfail
          rw [namedFile, workingDirectory, if_pos hcwd]
          exact components_resolve hcwd hne hrel h
      · -- `resolve` gives the root then, and nothing of the input is left.
        have hroot : workingDirectory getcwd = [] := by
          rcases getcwd with _ | cwd
          · rfl
          · rw [getcwdFails, bne_iff_ne] at hfail
            rw [workingDirectory, if_neg hfail]
        have hresolve := resolve_of_getcwdFails hfail hne hrel
        have hcomponents := rendered_root.components
        rw [KeepsFile, namedFile, hroot, hresolve]
        constructor
        · intro hkeeps _
          rw [← hkeeps _ rfl, hcomponents]
        · intro hwalk out hout
          cases hout
          rw [hwalk rfl, hcomponents]
  · -- One path cannot be that of two files.
    intro input' hkeeps hkeeps' hdiffer out hout hout'
    exact hdiffer ((hkeeps out hout).symm.trans (hkeeps' out hout'))

/-- `a/..` keeps its file without a working directory. -/
theorem resolve_keeps_file_iff_parent : KeepsFile none (bytes "a/..") :=
  (resolve_keeps_file_iff none (bytes "a/..") (by decide)).1.mpr fun _ => by decide

/-- Without a working directory, `a` and `b` are both `/`. -/
theorem not_keepsFile_getcwd_error :
    resolve none (bytes "a") = some (bytes "/") ∧ resolve none (bytes "b") = some (bytes "/") ∧
    ¬KeepsFile none (bytes "a") ∧
    namedFile none (bytes "a") ≠ namedFile none (bytes "b") := by
  refine ⟨by decide, by decide, ?_, by decide⟩
  intro h
  exact absurd (h _ (show resolve none (bytes "a") = some (bytes "/") by decide)) (by decide)

end OnyxShell
