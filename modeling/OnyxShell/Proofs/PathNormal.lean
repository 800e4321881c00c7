import OnyxShell.Proofs.Path

/-!
# `OnyxShell.Proofs.PathNormal`: which text `normalize` gives

`normalize` reads the steps of a path, one after the other (`normalize_eq_foldlM`), so two
paths with the same steps have the same result. The text is the spelling of the directory,
with a `/` behind it when the last step was a `..` (`normalize_eq`).

`normalize_canonical_iff` says for which paths the result is canonical.
-/

set_option autoImplicit false

namespace OnyxShell

open LexicalPath
open Scan (scanWhile)

/-- The steps of a path. -/
def pathSteps (path : Bytes) : List Bytes := steps '/'.toUInt8 '.'.toUInt8 path

/-- The spelling of a directory without a `/` at its end, which only the root needs. -/
def plainText (dir : List Bytes) : Bytes :=
  if dir = [] then bytes "/" else spell '/'.toUInt8 dir

/-- Whether the last step of a path is a `..` that ends below the root. -/
def endsInPop (path : Bytes) : Bool :=
  (pathSteps path).getLast? == some (bytes "..") && !(locate path).isEmpty

/-- Where a path leads comes from its steps alone. -/
theorem locate_eq_foldl (path : Bytes) :
    locate path = (pathSteps path).foldl (enter '.'.toUInt8) [] := walk_eq_steps

/-- An empty component and a `.` leave the output as it is. -/
theorem onComponent_stay {out comp : Bytes} (h : comp = [] ∨ comp = ['.'.toUInt8]) :
    onComponent out comp = some out := by
  rw [onComponent, if_pos]
  rcases h with rfl | rfl
  · exact Or.inl rfl
  · exact Or.inr rfl

/-- One component in front of the steps of the rest of a path. -/
theorem foldlM_componentAt (path out : Bytes) (i : Nat) :
    (pathSteps (path.drop i)).foldlM onComponent out =
      (onComponent out (componentAt path i)).bind
        ((pathSteps (path.drop (nextComponent path i))).foldlM onComponent) := by
  have hrun := slash_notMem_componentAt path i
  have hfirst : (pathSteps (componentAt path i)).foldlM onComponent out =
      onComponent out (componentAt path i) := by
    rw [pathSteps, steps_run hrun]
    by_cases hstay : componentAt path i = [] ∨ componentAt path i = ['.'.toUInt8]
    · rw [if_pos hstay, onComponent_stay hstay]
      rfl
    · rw [if_neg hstay, List.foldlM_cons]
      exact bind_pure _
  rcases drop_componentAt path i with ⟨hdrop, -⟩ | ⟨hdrop, hend⟩
  · rw [hdrop, pathSteps, steps_append_sep, List.foldlM_append, ← hfirst]
    rfl
  · rw [hdrop, List.drop_eq_nil_of_le hend, hfirst]
    rw [show (pathSteps []).foldlM onComponent = some from rfl, Option.bind_fun_some]

/-- The loop of `normalize` reads the steps from its index on. -/
theorem normalizeLoop_eq_foldlM (path : Bytes) (i : Nat) (out : Bytes) :
    normalizeLoop path i out = (pathSteps (path.drop i)).foldlM onComponent out := by
  fun_induction normalizeLoop path i out with
  | case1 i out hi stop hnone =>
    have hcomp : onComponent out (componentAt path i) = none := hnone
    rw [foldlM_componentAt, hcomp]
    rfl
  | case2 i out hi stop next hnext ih =>
    have hcomp : onComponent out (componentAt path i) = some next := hnext
    rw [foldlM_componentAt, hcomp, ih]
    rfl
  | case3 i out hi =>
    rw [List.drop_eq_nil_of_le (Nat.le_of_not_lt hi)]
    rfl

/-- **`normalize` reads the steps of an absolute path**, and nothing else of it. -/
theorem normalize_eq_foldlM {path : Bytes} (habs : path.head? = some '/'.toUInt8) :
    normalize path = (pathSteps path).foldlM onComponent (bytes "/") := by
  rw [normalize_eq_loop habs, normalizeLoop_eq_foldlM, List.drop_one]
  have hcons := List.cons_head?_tail habs
  rw [← hcons, List.tail_cons, pathSteps, pathSteps, steps_cons_sep]

/-- What a step leaves: behind a `..` the directory with a `/`, and otherwise the longer
directory without. -/
theorem onComponent_step {out out' step : Bytes} {dir : List Bytes} (h : Rendered out dir)
    (hmove : ¬(step = [] ∨ step = ['.'.toUInt8])) (hout : onComponent out step = some out') :
    out' = if step = bytes ".." then spell '/'.toUInt8 dir.dropLast ++ ['/'.toUInt8]
      else spell '/'.toUInt8 (dir ++ [step]) := by
  have hstay : ¬(step.length = 0 ∨ step = bytes ".") := by
    rw [List.length_eq_zero_iff]
    exact hmove
  rw [onComponent, if_neg hstay] at hout
  by_cases hup : step = bytes ".."
  · rw [if_pos hup] at hout ⊢
    cases hout
    exact popComponent_eq h
  · rw [if_neg hup, appendWithSlash_eq h] at hout
    rw [if_neg hup, spell_concat]
    split at hout
    · cases hout
    · cases hout
      rfl

/-- The steps of a path take the text to the directory they lead to. -/
theorem rendered_foldlM {path : List Bytes} {out out' : Bytes} {dir : List Bytes}
    (h : Rendered out dir) (hpath : ∀ step ∈ path, '/'.toUInt8 ∉ step)
    (hout : path.foldlM onComponent out = some out') :
    Rendered out' (path.foldl (enter '.'.toUInt8) dir) := by
  induction path generalizing out dir with
  | nil =>
    cases hout
    exact h
  | cons step rest ih =>
    rw [List.foldlM_cons] at hout
    rcases Option.bind_eq_some_iff.mp hout with ⟨next, hnext, hrest⟩
    exact ih (rendered_onComponent h (hpath step List.mem_cons_self) hnext)
      (fun other hother => hpath other (List.mem_cons_of_mem _ hother)) hrest

/-- A component keeps the text in the buffer. -/
theorem length_lt_onComponent {out out' comp : Bytes} {dir : List Bytes} (h : Rendered out dir)
    (hlen : out.length < PATH_MAX) (hout : onComponent out comp = some out') :
    out'.length < PATH_MAX := by
  rw [onComponent] at hout
  split at hout
  · cases hout
    exact hlen
  · split at hout
    · cases hout
      -- A pop never makes the text longer.
      have hpop : (popComponent out).length ≤ out.length := by
        rw [popComponent_eq h, List.length_append, List.length_singleton]
        rcases List.eq_nil_or_concat dir with rfl | ⟨d, c, rfl⟩
        · exact List.length_pos_of_mem (List.mem_of_mem_head? h.head?)
        · rw [List.concat_eq_append] at h ⊢
          rw [List.dropLast_concat]
          have hspell : (spell '/'.toUInt8 (d ++ [c])).length
              = (spell '/'.toUInt8 d ++ '/'.toUInt8 :: c).length := congrArg List.length spell_concat
          rw [List.length_append, List.length_cons] at hspell
          rcases h.renders with rfl | ⟨-, rfl⟩
          · rw [List.length_append]
            omega
          · omega
      omega
    · rw [appendWithSlash_eq h] at hout
      split at hout
      · cases hout
      · rename_i hfull
        cases hout
        rw [List.length_append, List.length_cons]
        omega

/-- The steps of a path keep the text in the buffer. -/
theorem length_lt_foldlM {path : List Bytes} {out out' : Bytes} {dir : List Bytes}
    (h : Rendered out dir) (hlen : out.length < PATH_MAX)
    (hpath : ∀ step ∈ path, '/'.toUInt8 ∉ step)
    (hout : path.foldlM onComponent out = some out') : out'.length < PATH_MAX := by
  induction path generalizing out dir with
  | nil =>
    cases hout
    exact hlen
  | cons step rest ih =>
    rw [List.foldlM_cons] at hout
    rcases Option.bind_eq_some_iff.mp hout with ⟨next, hnext, hrest⟩
    exact ih (rendered_onComponent h (hpath step List.mem_cons_self) hnext)
      (length_lt_onComponent h hlen hnext)
      (fun other hother => hpath other (List.mem_cons_of_mem _ hother)) hrest

/-- A normalised path fits in the buffer, with the zero byte behind it. -/
theorem length_lt_normalize {path out : Bytes} (h : normalize path = some out) :
    out.length < PATH_MAX := by
  rw [normalize_eq_foldlM (head?_of_normalize h)] at h
  exact length_lt_foldlM rendered_root (by decide) (fun _ => sep_notMem_of_mem_steps) h

/-- What `resolve` gives fits its buffer. -/
theorem length_lt_resolve {getcwd : Option Bytes} {input out : Bytes}
    (h : resolve getcwd input = some out) : out.length < PATH_MAX := by
  have hroot : ∀ {out}, copyAbs (bytes "/") = some out → out.length < PATH_MAX := by
    intro out h
    cases h
    decide
  rw [resolve.eq_def] at h
  split at h
  · cases h
  · split at h
    · exact length_lt_normalize h
    · split at h
      · exact hroot h
      · split at h
        · exact hroot h
        · simp only at h
          split at h
          · cases h
          · rcases Option.bind_eq_some_iff.mp h with ⟨joined, -, hout⟩
            exact length_lt_normalize hout

/-- **The text of a normalised path**: the directory it leads to, with a `/` behind it if
the last step was a `..`. -/
theorem normalize_eq {path out : Bytes} (h : normalize path = some out) :
    out = if endsInPop path then spell '/'.toUInt8 (locate path) ++ ['/'.toUInt8]
      else plainText (locate path) := by
  rw [normalize_eq_foldlM (head?_of_normalize h)] at h
  have hsep : ∀ step ∈ pathSteps path, '/'.toUInt8 ∉ step :=
    fun step hstep => sep_notMem_of_mem_steps hstep
  rcases List.eq_nil_or_concat (pathSteps path) with hnil | ⟨init, step, hlast⟩
  · rw [hnil] at h
    cases h
    rw [endsInPop, locate_eq_foldl, hnil]
    rfl
  · rw [List.concat_eq_append] at hlast
    have hmove : ¬(step = [] ∨ step = ['.'.toUInt8]) := by
      have hmem : step ∈ pathSteps path := by
        rw [hlast]
        exact List.mem_append_right _ List.mem_cons_self
      simpa using (List.mem_filter.mp hmem).2
    have hlocate : locate path =
        enter '.'.toUInt8 (init.foldl (enter '.'.toUInt8) []) step := by
      rw [locate_eq_foldl, hlast, List.foldl_append]
      rfl
    rw [hlast, List.foldlM_append] at h
    rcases Option.bind_eq_some_iff.mp h with ⟨mid, hmid, hstep⟩
    rw [List.foldlM_cons] at hstep
    have hstep : onComponent mid step = some out := by
      rw [← hstep]
      exact (Option.bind_fun_some _).symm
    have hrendered := rendered_foldlM rendered_root
      (fun c hc => hsep c (hlast ▸ List.mem_append_left _ hc)) hmid
    rw [onComponent_step hrendered hmove hstep, endsInPop, hlast, List.getLast?_concat, hlocate,
      enter, if_neg hmove]
    by_cases hup : step = bytes ".."
    · have hdots : step = ['.'.toUInt8, '.'.toUInt8] := hup
      rw [if_pos hup, if_pos hdots, hup, beq_self_eq_true, Bool.true_and]
      -- A directory above the root is the root, where the `/` has to stand.
      rcases hparent : (init.foldl (enter '.'.toUInt8) []).dropLast with _ | ⟨name, names⟩
      · rfl
      · rfl
    · have hdots : step ≠ ['.'.toUInt8, '.'.toUInt8] := hup
      have hbeq : (some step == some (bytes "..")) = false := by
        rw [beq_eq_false_iff_ne]
        exact fun heq => hup (Option.some.inj heq)
      rw [if_neg hup, if_neg hdots, hbeq, Bool.false_and]
      show _ = plainText _
      rw [plainText, if_neg (by simp)]

/-- The steps of a normalised text are the names of its directory. -/
theorem pathSteps_normalize {path out : Bytes} (h : normalize path = some out) :
    pathSteps out = locate path := by
  have hrendered := rendered_normalize h
  rw [pathSteps]
  rcases hrendered.renders with hslash | ⟨-, hplain⟩
  · rw [hslash, steps_append_sep, steps_spell hrendered.names, steps_run List.not_mem_nil,
      if_pos (Or.inl rfl), List.append_nil]
  · rw [hplain, steps_spell hrendered.names]

/-- A path that has been normalized does not end in `..`. -/
theorem endsInPop_normalize {path out : Bytes} (h : normalize path = some out) :
    endsInPop out = false := by
  rw [endsInPop, pathSteps_normalize h, Bool.and_eq_false_iff]
  left
  rw [beq_eq_false_iff_ne]
  intro hlast
  exact ((rendered_normalize h).names _ (List.mem_of_getLast? hlast)).ne_dots rfl

/-- A normalised text is normalised to the directory without a `/` at its end. -/
theorem normalize_normalize {path out : Bytes} (h : normalize path = some out) :
    normalize out = some (plainText (locate path)) := by
  have hlen : out.length < PATH_MAX := length_lt_normalize h
  rcases Option.isSome_iff_exists.mp (normalize_isSome (rendered_normalize h).head? hlen) with
    ⟨text, htext⟩
  rw [htext, normalize_eq htext, endsInPop_normalize h, locate_normalize h]
  rfl

/-- Two spellings of one directory differ in the `/` at the end. -/
theorem spell_ne_plainText {dir : List Bytes} (h : dir ≠ []) :
    spell '/'.toUInt8 dir ++ ['/'.toUInt8] ≠ plainText dir := by
  rw [plainText, if_neg h]
  intro heq
  have hlen := congrArg List.length heq
  rw [List.length_append, List.length_singleton] at hlen
  omega

/-- A path of this kind does not lead to the root. -/
theorem locate_ne_nil_of_endsInPop {path : Bytes} (h : endsInPop path = true) :
    locate path ≠ [] := by
  rw [endsInPop, Bool.and_eq_true] at h
  intro hnil
  rw [hnil] at h
  cases h.2

/-- Two results for one directory are the same exactly when both or neither have the `/`. -/
theorem out_eq_iff {path path' out out' : Bytes} (h : normalize path = some out)
    (h' : normalize path' = some out') (hlocate : locate path = locate path') :
    out = out' ↔ endsInPop path = endsInPop path' := by
  rw [normalize_eq h, normalize_eq h', hlocate]
  rcases hpop : endsInPop path with _ | _ <;> rcases hpop' : endsInPop path' with _ | _
  · exact ⟨fun _ => rfl, fun _ => rfl⟩
  · have hne := spell_ne_plainText (locate_ne_nil_of_endsInPop hpop')
    exact ⟨fun heq => absurd heq.symm hne, fun hfalse => Bool.noConfusion hfalse⟩
  · have hne := spell_ne_plainText (hlocate ▸ locate_ne_nil_of_endsInPop hpop)
    exact ⟨fun heq => absurd heq hne, fun hfalse => Bool.noConfusion hfalse⟩
  · exact ⟨fun _ => rfl, fun _ => rfl⟩

/-- **When normal forms are canonical**: the result of a path is its own normal form exactly when
the path does not end in a pop below the root, and two paths that lead to one directory have one
result exactly when both or neither of them end so. A pop leaves the `/` behind the component
above, so that `/a/b/..` becomes `/a/`. The result is thus determined by the directory and by
`endsInPop` (`out_eq_iff`), and both parts follow from that. -/
theorem normalize_canonical_iff {path path' out out' : Bytes} (h : normalize path = some out)
    (h' : normalize path' = some out') :
    (normalize out = some out ↔ endsInPop path = false) ∧
      (locate path = locate path' → (out = out' ↔ endsInPop path = endsInPop path')) := by
  constructor
  · have htwice := normalize_normalize h
    rw [htwice, Option.some.injEq, out_eq_iff htwice h (locate_normalize h), endsInPop_normalize h]
    exact eq_comm
  · exact out_eq_iff h h'

/-- Two spellings of one directory have one normal form here. -/
theorem normalize_canonical_iff_plain :
    normalize (bytes "/a/./b") = some (bytes "/a/b") ∧
    normalize (bytes "/a/b") = some (bytes "/a/b") := by
  have h : normalize (bytes "/a/./b") = some (bytes "/a/b") := by decide +kernel
  exact ⟨h, (normalize_canonical_iff h h).1.mpr (by decide)⟩

/-- `/a/b/..` becomes `/a/`, which is neither its own normal form nor the one of `/a`. -/
theorem not_canonical_parent :
    normalize (bytes "/a/b/..") = some (bytes "/a/") ∧
    normalize (bytes "/a/") ≠ some (bytes "/a/") ∧
    locate (bytes "/a/b/..") = locate (bytes "/a") ∧
    normalize (bytes "/a") = some (bytes "/a") := by
  decide +kernel

end OnyxShell
