import Mathlib.Data.List.Induction

/-!
# `OnyxShell.Lib.LexicalPath`: paths read component by component

A path is a list with separators, and a directory is the list of the names that lead to it
from the root. `walk` reads the components of a path from left to right: an empty one and
`dot` stay where they are, `dot dot` goes up, and every other one goes down.

`walk_append_sep` is the rule for a path that is joined from two, and `Renders` says when
a path is a spelling of a directory: `walk_of_renders` reads it back, and
`components_of_renders` finds its names between the separators.

Nothing here mentions a program: the separator and the dot are arbitrary.
-/

set_option autoImplicit false

namespace LexicalPath

variable {α : Type} [DecidableEq α] (sep dot : α)

/-- A component that names an entry of a directory. -/
structure IsName (c : List α) : Prop where
  ne_nil : c ≠ []
  ne_dot : c ≠ [dot]
  ne_dots : c ≠ [dot, dot]
  sep_notMem : sep ∉ c

/-- The directory that a component leads to from `dir`. -/
def enter (dir : List (List α)) (c : List α) : List (List α) :=
  if c = [] ∨ c = [dot] then dir
  else if c = [dot, dot] then dir.dropLast
  else dir ++ [c]

/-- The directory that a path leads to from `dir`. -/
def walk (dir : List (List α)) (path : List α) : List (List α) :=
  (path.splitOn sep).foldl (enter dot) dir

/-- The path of a directory without a separator at its end. -/
def spell (dir : List (List α)) : List α := dir.flatMap fun c => sep :: c

/-- The components of a path that lead somewhere else: neither empty nor `dot`. -/
def steps (path : List α) : List (List α) :=
  (path.splitOn sep).filter fun c => !decide (c = [] ∨ c = [dot])

/-- The components of a path that are not empty. -/
def components (path : List α) : List (List α) := (path.splitOn sep).filter fun c => c != []

/-- A spelling of a directory: with a separator at its end, which the root needs, or
without it. -/
def Renders (path : List α) (dir : List (List α)) : Prop :=
  path = spell sep dir ++ [sep] ∨ dir ≠ [] ∧ path = spell sep dir

section
variable {sep dot : α} {dir : List (List α)} {c path rest : List α}

/-- An empty component stays in the directory. -/
theorem enter_nil : enter dot dir [] = dir := if_pos (Or.inl rfl)

/-- A name goes down by one. -/
theorem enter_name (h : IsName sep dot c) : enter dot dir c = dir ++ [c] := by
  rw [enter, if_neg, if_neg h.ne_dots]
  rintro (hnil | hdot)
  · exact h.ne_nil hnil
  · exact h.ne_dot hdot

/-- A path without a separator is one component. -/
theorem walk_run (h : sep ∉ path) : walk sep dot dir path = enter dot dir path := by
  rw [walk, List.splitOn_eq_singleton h]
  rfl

/-- The empty path stays in the directory. -/
theorem walk_nil : walk sep dot dir [] = dir := by
  rw [walk_run List.not_mem_nil, enter_nil]

/-- A path that goes on behind a separator leads on from where its first part leads. -/
theorem walk_append_sep :
    walk sep dot dir (path ++ sep :: rest) = walk sep dot (walk sep dot dir path) rest := by
  rw [walk, List.splitOn_append_cons_self, List.foldl_append]
  rfl

/-- A separator at the start changes nothing. -/
theorem walk_cons_sep : walk sep dot dir (sep :: rest) = walk sep dot dir rest := by
  have h : walk sep dot dir ([] ++ sep :: rest) = _ := walk_append_sep
  rwa [walk_nil] at h

/-- A separator at the end leads nowhere else. -/
theorem walk_concat_sep : walk sep dot dir (path ++ [sep]) = walk sep dot dir path := by
  rw [walk_append_sep, walk_nil]

/-- A separator between two parts that already has one before it changes nothing. -/
theorem walk_append_of_concat_sep :
    walk sep dot dir ((path ++ [sep]) ++ rest) = walk sep dot (walk sep dot dir (path ++ [sep])) rest := by
  rw [walk_concat_sep, List.append_assoc, List.singleton_append, walk_append_sep]

omit [DecidableEq α] in
/-- The path of a directory one level down. -/
theorem spell_concat : spell sep (dir ++ [c]) = spell sep dir ++ sep :: c := by
  simp [spell]

/-- Reading a spelled directory goes down by its names. -/
theorem walk_spell {top : List (List α)} (hdir : ∀ n ∈ dir, IsName sep dot n) :
    walk sep dot top (spell sep dir) = top ++ dir := by
  induction dir using List.reverseRecOn with
  | nil => rw [List.append_nil]; exact walk_nil
  | append_singleton d c ih =>
    have hc := hdir c (by simp)
    rw [spell_concat, walk_append_sep, ih fun n hn => hdir n (List.mem_append_left _ hn),
      walk_run hc.sep_notMem, enter_name hc, List.append_assoc]

/-- A path leads where its steps lead. -/
theorem walk_eq_steps : walk sep dot dir path = (steps sep dot path).foldl (enter dot) dir := by
  rw [walk, steps]
  induction path.splitOn sep generalizing dir with
  | nil => rfl
  | cons c cs ih =>
    rw [List.foldl_cons, ih]
    by_cases hstay : c = [] ∨ c = [dot]
    · rw [List.filter_cons_of_neg (by simp [hstay]), enter, if_pos hstay]
    · rw [List.filter_cons_of_pos (by simp [hstay]), List.foldl_cons]

/-- The steps of two paths with a separator between. -/
theorem steps_append_sep :
    steps sep dot (path ++ sep :: rest) = steps sep dot path ++ steps sep dot rest := by
  rw [steps, List.splitOn_append_cons_self, List.filter_append]
  rfl

/-- A path without a separator is one step, or none. -/
theorem steps_run (h : sep ∉ path) :
    steps sep dot path = if path = [] ∨ path = [dot] then [] else [path] := by
  rw [steps, List.splitOn_eq_singleton h]
  by_cases hstay : path = [] ∨ path = [dot]
  · rw [if_pos hstay, List.filter_cons_of_neg (by simp [hstay]), List.filter_nil]
  · rw [if_neg hstay, List.filter_cons_of_pos (by simp [hstay]), List.filter_nil]

/-- A separator at the start is no step. -/
theorem steps_cons_sep : steps sep dot (sep :: rest) = steps sep dot rest := by
  have h : steps sep dot ([] ++ sep :: rest) = _ := steps_append_sep
  rwa [steps_run List.not_mem_nil, if_pos (Or.inl rfl)] at h

/-- No separator stands in a component. -/
theorem sep_notMem_of_mem_splitOn (h : c ∈ path.splitOn sep) : sep ∉ c := by
  induction path generalizing c with
  | nil =>
    rw [List.splitOn_nil, List.mem_singleton] at h
    rw [h]
    exact List.not_mem_nil
  | cons x rest ih =>
    rw [List.splitOn_cons_eq_if_modifyHead] at h
    by_cases hx : x = sep
    · rw [if_pos (beq_iff_eq.mpr hx)] at h
      rcases List.mem_cons.mp h with rfl | h
      · exact List.not_mem_nil
      · exact ih h
    · rw [if_neg (fun hbeq => hx (beq_iff_eq.mp hbeq))] at h
      rcases hsplit : rest.splitOn sep with _ | ⟨first, others⟩
      · exact absurd hsplit (List.splitOn_ne_nil sep rest)
      · rw [hsplit] at ih h
        rw [List.modifyHead_cons] at h
        rcases List.mem_cons.mp h with rfl | h
        · intro hmem
          rcases List.mem_cons.mp hmem with heq | hmem
          · exact hx heq.symm
          · exact ih List.mem_cons_self hmem
        · exact ih (List.mem_cons_of_mem _ h)

/-- No step has a separator in it. -/
theorem sep_notMem_of_mem_steps (h : c ∈ steps sep dot path) : sep ∉ c :=
  sep_notMem_of_mem_splitOn (List.mem_filter.mp h).1

/-- The steps of a spelled directory are its names. -/
theorem steps_spell (hdir : ∀ n ∈ dir, IsName sep dot n) :
    steps sep dot (spell sep dir) = dir := by
  induction dir using List.reverseRecOn with
  | nil => rw [spell, List.flatMap_nil, steps_run List.not_mem_nil, if_pos (Or.inl rfl)]
  | append_singleton d c ih =>
    have hc := hdir c (by simp)
    rw [spell_concat, steps_append_sep, ih fun n hn => hdir n (List.mem_append_left _ hn),
      steps_run hc.sep_notMem, if_neg]
    rintro (hnil | hdot)
    · exact hc.ne_nil hnil
    · exact hc.ne_dot hdot

/-- A path without a separator is one component, or none. -/
theorem components_run (h : sep ∉ path) :
    components sep path = if path = [] then [] else [path] := by
  rw [components, List.splitOn_eq_singleton h]
  by_cases hnil : path = []
  · rw [if_pos hnil, List.filter_cons_of_neg (by simp [hnil]), List.filter_nil]
  · rw [if_neg hnil, List.filter_cons_of_pos (by simp [hnil]), List.filter_nil]

/-- The components of two paths with a separator between. -/
theorem components_append_sep :
    components sep (path ++ sep :: rest) = components sep path ++ components sep rest := by
  rw [components, List.splitOn_append_cons_self, List.filter_append]
  rfl

/-- A separator at the end adds no component. -/
theorem components_concat_sep : components sep (path ++ [sep]) = components sep path := by
  rw [components_append_sep, components_run List.not_mem_nil, if_pos rfl, List.append_nil]

/-- The components of a spelled directory are its names. -/
theorem components_spell (hdir : ∀ n ∈ dir, IsName sep dot n) :
    components sep (spell sep dir) = dir := by
  induction dir using List.reverseRecOn with
  | nil => rw [spell, List.flatMap_nil, components_run List.not_mem_nil, if_pos rfl]
  | append_singleton d c ih =>
    have hc := hdir c (by simp)
    rw [spell_concat, components_append_sep, ih fun n hn => hdir n (List.mem_append_left _ hn),
      components_run hc.sep_notMem, if_neg hc.ne_nil]

/-- **The components of a spelling of a directory are its names**. -/
theorem components_of_renders (hdir : ∀ n ∈ dir, IsName sep dot n) (h : Renders sep path dir) :
    components sep path = dir := by
  rcases h with rfl | ⟨-, rfl⟩
  · rw [components_concat_sep, components_spell hdir]
  · rw [components_spell hdir]

/-- **A spelling of a directory leads to it**. -/
theorem walk_of_renders (hdir : ∀ n ∈ dir, IsName sep dot n) (h : Renders sep path dir) :
    walk sep dot [] path = dir := by
  rcases h with rfl | ⟨-, rfl⟩
  · rw [walk_concat_sep, walk_spell hdir, List.nil_append]
  · rw [walk_spell hdir, List.nil_append]

end

end LexicalPath
