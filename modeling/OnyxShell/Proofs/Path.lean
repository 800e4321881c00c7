import OnyxShell.FileSystem

/-!
# `OnyxShell.Proofs.Path`: where a normalised path leads

The text that `normalize` writes is at every turn a spelling of the directory that the
components read so far lead to (`rendered_normalizeLoop`): `popComponent` takes the last
name away and leaves a `/` at the end, and `appendWithSlash` adds a name. So the result
leads where the input leads (`locate_normalize`), and a relative input of `resolve` leads
from the working directory on (`locate_resolve_relative`).

The text is never longer than what has been read, so `normalize` gives a path for every
absolute input that fits (`normalize_isSome`).
-/

set_option autoImplicit false

namespace OnyxShell

open LexicalPath
open Scan (scanWhile le_scanWhile scanWhile_stop scanWhile_le_length take_scanWhile drop_scanWhile
  scanWhile_eq_takeWhile)

/-- A text of `normalize`: a spelling of a directory with names on the way. The names on the way
are neither empty nor `.` or `..`, so that the text leads to the directory in any reading. -/
structure Rendered (out : Bytes) (dir : List Bytes) : Prop where
  names : ∀ c ∈ dir, IsName '/'.toUInt8 '.'.toUInt8 c
  renders : Renders '/'.toUInt8 out dir

/-- A spelling of a directory leads to it. -/
theorem Rendered.locate {out : Bytes} {dir : List Bytes} (h : Rendered out dir) :
    locate out = dir := walk_of_renders h.names h.renders

/-- `/` is a spelling of the root. -/
theorem rendered_root : Rendered (bytes "/") [] := ⟨by simp, Or.inl rfl⟩

/-- Going back to the last `/`. -/
theorem backToSlash_append (path comp : Bytes) (h : '/'.toUInt8 ∉ comp) :
    backToSlash (path ++ '/'.toUInt8 :: comp) = path ++ ['/'.toUInt8] := by
  induction comp using List.reverseRecOn with
  | nil =>
    rw [backToSlash, if_neg]
    rintro ⟨-, hne⟩
    exact hne (by simp)
  | append_singleton comp b ih =>
    have hb : b ≠ '/'.toUInt8 := by
      rintro rfl
      exact h (by simp)
    have hassoc : path ++ '/'.toUInt8 :: (comp ++ [b]) = (path ++ '/'.toUInt8 :: comp) ++ [b] := by
      simp
    rw [hassoc, backToSlash, if_pos]
    · rw [List.dropLast_concat]
      exact ih fun hmem => h (List.mem_append_left _ hmem)
    · constructor
      · rw [List.length_append, List.length_append, List.length_cons, List.length_singleton]
        omega
      · rw [List.getLast?_concat]
        exact fun heq => hb (Option.some.inj heq)

/-- A `..` takes the last name away and leaves a `/`. -/
theorem popComponent_eq {out : Bytes} {dir : List Bytes} (h : Rendered out dir) :
    popComponent out = spell '/'.toUInt8 dir.dropLast ++ ['/'.toUInt8] := by
  induction dir using List.reverseRecOn with
  | nil =>
    rcases h.renders with rfl | ⟨hne, -⟩
    · rfl
    · exact absurd rfl hne
  | append_singleton dir c _ =>
    have hc := h.names c (by simp)
    have hpos : 0 < c.length := List.length_pos_iff.mpr hc.ne_nil
    rw [List.dropLast_concat]
    rcases h.renders with rfl | ⟨-, rfl⟩
    · -- The `/` at the end goes first.
      rw [popComponent, if_pos (by simp [spell_concat]; omega), List.dropLast_concat, spell_concat]
      exact backToSlash_append _ _ hc.sep_notMem
    · -- The last byte of the name goes first.
      rw [spell_concat]
      rcases List.eq_nil_or_concat c with hnil | ⟨init, b, rfl⟩
      · exact absurd hnil hc.ne_nil
      · have hassoc : spell '/'.toUInt8 dir ++ '/'.toUInt8 :: (init ++ [b])
            = (spell '/'.toUInt8 dir ++ '/'.toUInt8 :: init) ++ [b] := by simp
        rw [List.concat_eq_append] at hc ⊢
        rw [hassoc, popComponent, if_pos (by simp; omega), List.dropLast_concat]
        exact backToSlash_append _ _ fun hmem =>
          hc.sep_notMem (List.mem_append_left _ hmem)

/-- Popping a component leaves a spelling of the directory above. -/
theorem rendered_popComponent {out : Bytes} {dir : List Bytes} (h : Rendered out dir) :
    Rendered (popComponent out) dir.dropLast :=
  ⟨fun c hc => h.names c ((List.dropLast_sublist dir).mem hc), Or.inl (popComponent_eq h)⟩

/-- No `/` stands at the end of a name. -/
theorem getLast?_spell_concat (dir : List Bytes) {c : Bytes}
    (hc : IsName '/'.toUInt8 '.'.toUInt8 c) :
    (spell '/'.toUInt8 (dir ++ [c])).getLast? ≠ some '/'.toUInt8 := by
  rcases List.eq_nil_or_concat c with hnil | ⟨init, b, rfl⟩
  · exact absurd hnil hc.ne_nil
  · rw [List.concat_eq_append] at hc ⊢
    have hassoc : spell '/'.toUInt8 (dir ++ [init ++ [b]])
        = (spell '/'.toUInt8 dir ++ '/'.toUInt8 :: init) ++ [b] := by simp [spell_concat]
    rw [hassoc, List.getLast?_concat]
    intro heq
    apply hc.sep_notMem
    rw [← Option.some.inj heq]
    simp

/-- What is appended to a spelling of a directory stands behind one `/`. -/
theorem appendWithSlash_eq {out : Bytes} {dir : List Bytes} (h : Rendered out dir)
    (more : Bytes) :
    appendWithSlash out more =
      if (spell '/'.toUInt8 dir).length + 1 + more.length ≥ PATH_MAX then none
      else some (spell '/'.toUInt8 dir ++ '/'.toUInt8 :: more) := by
  rcases h.renders with rfl | ⟨hne, rfl⟩
  · rw [appendWithSlash, if_neg (by simp)]
    show (if (spell '/'.toUInt8 dir ++ ['/'.toUInt8]).length + more.length ≥ PATH_MAX then none
      else some ((spell '/'.toUInt8 dir ++ ['/'.toUInt8]) ++ more)) = _
    rw [List.length_append, List.append_assoc]
    rfl
  · rcases List.eq_nil_or_concat dir with hnil | ⟨d, c, rfl⟩
    · exact absurd hnil hne
    · rw [List.concat_eq_append] at h ⊢
      have hlast := getLast?_spell_concat d (h.names c (by simp))
      have hpos : 0 < (spell '/'.toUInt8 (d ++ [c])).length := by
        rw [spell_concat, List.length_append, List.length_cons]
        omega
      generalize spell '/'.toUInt8 (d ++ [c]) = text at hlast hpos ⊢
      rw [appendWithSlash, if_pos ⟨hpos, hlast⟩]
      split
      · rename_i hfull
        rw [if_pos (by omega)]
        rfl
      · show (if (text ++ ['/'.toUInt8]).length + more.length ≥ PATH_MAX then none
          else some ((text ++ ['/'.toUInt8]) ++ more)) = _
        rw [List.length_append, List.append_assoc]
        rfl

/-- A component of the path takes the text to a spelling of the directory it leads to. -/
theorem rendered_onComponent {out out' comp : Bytes} {dir : List Bytes} (h : Rendered out dir)
    (hcomp : '/'.toUInt8 ∉ comp) (hout : onComponent out comp = some out') :
    Rendered out' (enter '.'.toUInt8 dir comp) := by
  have hdot : bytes "." = ['.'.toUInt8] := rfl
  have hdots : bytes ".." = ['.'.toUInt8, '.'.toUInt8] := rfl
  simp only [onComponent, List.length_eq_zero_iff, hdot, hdots] at hout
  rw [enter]
  -- An empty component or `.`, then `..`, then a name.
  split at hout
  · rename_i hstay
    cases hout
    rw [if_pos hstay]
    exact h
  · rename_i hstay
    rw [if_neg hstay]
    split at hout
    · rename_i hup
      cases hout
      rw [if_pos hup]
      exact rendered_popComponent h
    · rename_i hup
      rw [if_neg hup]
      rw [appendWithSlash_eq h] at hout
      split at hout
      · cases hout
      · cases hout
        have hname : IsName '/'.toUInt8 '.'.toUInt8 comp :=
          ⟨fun hnil => hstay (Or.inl hnil), fun hdot => hstay (Or.inr hdot), hup, hcomp⟩
        constructor
        case names =>
          intro c hc
          rcases List.mem_append.mp hc with hc | hc
          · exact h.names c hc
          · rw [List.mem_singleton.mp hc]
            exact hname
        case renders => exact Or.inr ⟨by simp, spell_concat.symm⟩

/-- The component at an index: the bytes up to the next `/`. -/
def componentAt (path : Bytes) (i : Nat) : Bytes :=
  Span.of path (i, scanWhile (· != '/'.toUInt8) path i - i)

/-- The index behind that component and its `/`. -/
def nextComponent (path : Bytes) (i : Nat) : Nat :=
  afterComponent path (scanWhile (· != '/'.toUInt8) path i)

/-- The component at an index goes up to the next `/`. -/
theorem componentAt_eq (path : Bytes) (i : Nat) :
    componentAt path i = (path.drop i).takeWhile (· != '/'.toUInt8) := take_scanWhile _ path i

/-- A component has no `/` in it. -/
theorem slash_notMem_componentAt (path : Bytes) (i : Nat) : '/'.toUInt8 ∉ componentAt path i := by
  rw [componentAt_eq]
  intro hmem
  have h := List.mem_takeWhile_imp hmem
  simp at h

/-- The path from an index on: a component, and behind a `/` the path from the next one on,
or nothing. -/
theorem drop_componentAt (path : Bytes) (i : Nat) :
    path.drop i = componentAt path i ++ '/'.toUInt8 :: path.drop (nextComponent path i) ∧
        nextComponent path i = i + (componentAt path i).length + 1 ∨
      path.drop i = componentAt path i ∧ path.length ≤ nextComponent path i := by
  have hsplit := List.takeWhile_append_dropWhile (p := (· != '/'.toUInt8)) (l := path.drop i)
  rw [← componentAt_eq, ← drop_scanWhile] at hsplit
  have hlen : scanWhile (· != '/'.toUInt8) path i = i + (componentAt path i).length := by
    rw [scanWhile_eq_takeWhile, componentAt_eq]
  rw [nextComponent, afterComponent]
  rcases Nat.lt_or_ge (scanWhile (· != '/'.toUInt8) path i) path.length with hlt | hge
  · have hget := List.getElem?_eq_getElem hlt
    have hstop := scanWhile_stop _ path i _ hget
    rw [bne_eq_false_iff_eq] at hstop
    rw [hstop] at hget
    rw [List.drop_eq_getElem_cons hlt, hstop] at hsplit
    rw [if_pos hget]
    exact Or.inl ⟨hsplit.symm, by omega⟩
  · rw [List.drop_eq_nil_of_le hge, List.append_nil] at hsplit
    rw [if_neg (by rw [List.getElem?_eq_none hge]; simp)]
    exact Or.inr ⟨hsplit.symm, hge⟩

/-- A path leads where its first component and then the rest of it lead. -/
theorem walk_drop (path : Bytes) (i : Nat) (dir : List Bytes) :
    walk '/'.toUInt8 '.'.toUInt8 dir (path.drop i) =
      walk '/'.toUInt8 '.'.toUInt8 (enter '.'.toUInt8 dir (componentAt path i))
        (path.drop (nextComponent path i)) := by
  have hrun := slash_notMem_componentAt path i
  rcases drop_componentAt path i with ⟨hdrop, -⟩ | ⟨hdrop, hend⟩
  · rw [hdrop, walk_append_sep, walk_run hrun]
  · rw [hdrop, walk_run hrun, List.drop_eq_nil_of_le hend, walk_nil]

/-- The loop of `normalize` ends in a spelling of the directory the path leads to. -/
theorem rendered_normalizeLoop {path out out' : Bytes} {i : Nat} {dir : List Bytes}
    (h : Rendered out dir) (hout : normalizeLoop path i out = some out') :
    Rendered out' (walk '/'.toUInt8 '.'.toUInt8 dir (path.drop i)) := by
  fun_induction normalizeLoop path i out generalizing dir with
  | case1 i out hi stop => cases hout
  | case2 i out hi stop next hnext =>
    rename_i ih
    rw [walk_drop path i]
    exact ih (rendered_onComponent h (slash_notMem_componentAt path i) hnext) hout
  | case3 i out hi =>
    cases hout
    rw [List.drop_eq_nil_of_le (Nat.le_of_not_lt hi), walk_nil]
    exact h

/-- A component makes the text longer by itself and a `/` at most. -/
theorem length_spell_enter (dir : List Bytes) (comp : Bytes) :
    (spell '/'.toUInt8 (enter '.'.toUInt8 dir comp)).length
      ≤ (spell '/'.toUInt8 dir).length + 1 + comp.length := by
  rw [enter]
  split
  · omega
  · split
    · rcases List.eq_nil_or_concat dir with rfl | ⟨d, c, rfl⟩
      · exact Nat.zero_le _
      · rw [List.concat_eq_append, List.dropLast_concat, spell_concat, List.length_append]
        omega
    · rw [spell_concat, List.length_append, List.length_cons]
      omega

/-- A component is read as long as the text with it fits. -/
theorem onComponent_isSome {out comp : Bytes} {dir : List Bytes} (h : Rendered out dir)
    (hfit : (spell '/'.toUInt8 dir).length + 1 + comp.length < PATH_MAX) :
    (onComponent out comp).isSome = true := by
  rw [onComponent]
  split
  · rfl
  · split
    · rfl
    · rw [appendWithSlash_eq h, if_neg (by omega)]
      rfl

/-- A text is as long as its directory takes, and a `/` longer at most. -/
theorem Rendered.length_le {out : Bytes} {dir : List Bytes} (h : Rendered out dir) :
    out.length ≤ (spell '/'.toUInt8 dir).length + 1 := by
  rcases h.renders with rfl | ⟨-, rfl⟩
  · rw [List.length_append, List.length_singleton]
  · exact Nat.le_succ _

/-- What a component makes of the text fits in front of the end of the component. -/
theorem length_onComponent {out out' comp : Bytes} {dir : List Bytes} (h : Rendered out dir)
    (hout : onComponent out comp = some out') :
    out'.length ≤ (spell '/'.toUInt8 dir).length + 1 + comp.length := by
  rw [onComponent] at hout
  split at hout
  · cases hout
    exact Nat.le_trans h.length_le (Nat.le_add_right _ _)
  · split at hout
    · cases hout
      rw [popComponent_eq h, List.length_append, List.length_singleton]
      have hpop : (spell '/'.toUInt8 dir.dropLast).length ≤ (spell '/'.toUInt8 dir).length := by
        rcases List.eq_nil_or_concat dir with rfl | ⟨d, c, rfl⟩
        · exact Nat.le_refl _
        · rw [List.concat_eq_append, List.dropLast_concat, spell_concat, List.length_append]
          exact Nat.le_add_right _ _
      omega
    · rw [appendWithSlash_eq h] at hout
      split at hout
      · cases hout
      · cases hout
        rw [List.length_append, List.length_cons]
        omega

/-- The end of a component is in the path. -/
theorem length_componentAt {path : Bytes} {i : Nat} (h : i < path.length) :
    i + (componentAt path i).length ≤ path.length := by
  rw [componentAt_eq]
  have hle := (List.takeWhile_prefix (· != '/'.toUInt8) (l := path.drop i)).length_le
  rw [List.length_drop] at hle
  omega

/-- While there is more to read, the text with a `/` is not longer than what has been
read. -/
theorem length_nextComponent {path : Bytes} {i : Nat} {dir : List Bytes}
    (hread : (spell '/'.toUInt8 dir).length + 1 ≤ i) (hmore : nextComponent path i < path.length) :
    (spell '/'.toUInt8 (enter '.'.toUInt8 dir (componentAt path i))).length + 1
      ≤ nextComponent path i := by
  have hspell := length_spell_enter dir (componentAt path i)
  rcases drop_componentAt path i with ⟨-, hindex⟩ | ⟨-, hend⟩
  · omega
  · exact absurd hmore (Nat.not_lt.mpr hend)

/-- The loop of `normalize` never writes more than it reads. -/
theorem length_normalizeLoop {path out out' : Bytes} {i : Nat} {dir : List Bytes}
    (h : Rendered out dir) (hlen : out.length ≤ path.length)
    (hread : i < path.length → (spell '/'.toUInt8 dir).length + 1 ≤ i)
    (hout : normalizeLoop path i out = some out') : out'.length ≤ path.length := by
  fun_induction normalizeLoop path i out generalizing dir with
  | case1 i out hi stop => cases hout
  | case2 i out hi stop next hnext =>
    rename_i ih
    have hread := hread hi
    apply ih (rendered_onComponent h (slash_notMem_componentAt path i) hnext)
    case hlen =>
      have hstep : next.length ≤ _ + (componentAt path i).length := length_onComponent h hnext
      have hcomp := length_componentAt hi
      omega
    case hread => exact length_nextComponent hread
    case hout => exact hout
  | case3 i out hi =>
    cases hout
    exact hlen

/-- The loop of `normalize` reads a path that fits to its end: the text with a `/` is
never longer than what has been read. -/
theorem normalizeLoop_isSome {path out : Bytes} {i : Nat} {dir : List Bytes}
    (hlen : path.length < PATH_MAX) (h : Rendered out dir)
    (hread : i < path.length → (spell '/'.toUInt8 dir).length + 1 ≤ i) :
    (normalizeLoop path i out).isSome = true := by
  fun_induction normalizeLoop path i out generalizing dir with
  | case1 i out hi stop =>
    rename_i hnone
    have hread := hread hi
    have hcomp := length_componentAt hi
    have hsome : (onComponent out (componentAt path i)).isSome = true :=
      onComponent_isSome h (by omega)
    rw [componentAt, hnone] at hsome
    cases hsome
  | case2 i out hi stop next hnext =>
    rename_i ih
    apply ih (rendered_onComponent h (slash_notMem_componentAt path i) hnext)
    exact length_nextComponent (hread hi)
  | case3 i out hi => rfl

/-- A text starts with a `/`. -/
theorem Rendered.head? {out : Bytes} {dir : List Bytes} (h : Rendered out dir) :
    out.head? = some '/'.toUInt8 := by
  rcases dir with _ | ⟨c, dir⟩
  · rcases h.renders with rfl | ⟨hne, -⟩
    · rfl
    · exact absurd rfl hne
  · rcases h.renders with rfl | ⟨-, rfl⟩
    · rfl
    · rfl

/-- `normalize` is its loop behind the first `/`: the text is never empty, so the check
behind the loop changes nothing. -/
theorem normalize_eq_loop {path : Bytes} (habs : path.head? = some '/'.toUInt8) :
    normalize path = normalizeLoop path 1 (bytes "/") := by
  have hne : path.length ≠ 0 := by
    intro h
    rw [List.length_eq_zero_iff.mp h] at habs
    cases habs
  rw [normalize, if_neg (by rintro (h | h) <;> contradiction)]
  rcases hloop : normalizeLoop path 1 (bytes "/") with _ | text
  · rfl
  · have hhead := (rendered_normalizeLoop rendered_root hloop).head?
    show some (if text.length = 0 then bytes "/" else text) = some text
    rw [if_neg]
    intro h
    rw [List.length_eq_zero_iff.mp h] at hhead
    cases hhead

/-- Only an absolute path is normalised. -/
theorem head?_of_normalize {path out : Bytes} (h : normalize path = some out) :
    path.head? = some '/'.toUInt8 := by
  by_contra hrel
  rw [normalize, if_pos (Or.inr hrel)] at h
  cases h

/-- **A normalised path leads where the path leads**, and it is a spelling of that
directory. -/
theorem rendered_normalize {path out : Bytes} (h : normalize path = some out) :
    Rendered out (locate path) := by
  have habs := head?_of_normalize h
  rw [normalize_eq_loop habs] at h
  have hrendered := rendered_normalizeLoop rendered_root h
  rw [List.drop_one] at hrendered
  rw [← List.cons_head?_tail habs, OnyxShell.locate, walk_cons_sep]
  exact hrendered

/-- A normalised path is not longer than the path. -/
theorem length_normalize {path out : Bytes} (h : normalize path = some out) :
    out.length ≤ path.length := by
  have habs := head?_of_normalize h
  have hpos : 0 < path.length := by
    rcases path with _ | ⟨b, rest⟩
    · cases habs
    · exact Nat.zero_lt_succ _
  rw [normalize_eq_loop habs] at h
  exact length_normalizeLoop rendered_root hpos (fun _ => Nat.le_refl 1) h

/-- Normalizing does not change where a path leads. -/
theorem locate_normalize {path out : Bytes} (h : normalize path = some out) :
    locate out = locate path := (rendered_normalize h).locate

/-- Every absolute path that fits is normalised. -/
theorem normalize_isSome {path : Bytes} (habs : path.head? = some '/'.toUInt8)
    (hlen : path.length < PATH_MAX) : (normalize path).isSome = true := by
  rw [normalize_eq_loop habs]
  exact normalizeLoop_isSome hlen rendered_root fun _ => Nat.le_refl 1

/-- An absolute path is normalized, and the working directory not looked at. -/
theorem resolve_absolute (cwd : Option Bytes) {input : Bytes}
    (h : input.head? = some '/'.toUInt8) : resolve cwd input = normalize input := by
  rw [resolve.eq_def, if_neg, if_pos h]
  intro hnil
  rw [List.length_eq_zero_iff.mp hnil] at h
  cases h

/-- What `resolve` makes of a relative input. -/
theorem resolve_relative {cwd input : Bytes} (hcwd : cwd.head? = some '/'.toUInt8)
    (hne : input ≠ []) (hrel : input.head? ≠ some '/'.toUInt8) :
    resolve (some cwd) input =
      if cwd.length > PATH_MAX - 2 then none
      else (appendWithSlash cwd
        (if input.take 2 = bytes "./" then input.drop 2 else input)).bind normalize := by
  have hlen : ¬ input.length = 0 := fun h => hne (List.length_eq_zero_iff.mp h)
  have habs : ¬ cwd.head? ≠ some '/'.toUInt8 := fun h => h hcwd
  rw [resolve, if_neg hlen, if_neg hrel, if_neg habs]

/-- A `./` at the start of an input stands in front of the rest. -/
theorem eq_of_dotSlash {input : Bytes} (h : input.take 2 = bytes "./") :
    input = ['.'.toUInt8] ++ '/'.toUInt8 :: input.drop 2 := by
  rw [← List.take_append_drop 2 input, h]
  simp [bytes]

/-- `./` at the start of a path leads nowhere. -/
theorem walk_strip (dir : List Bytes) (input : Bytes) :
    walk '/'.toUInt8 '.'.toUInt8 dir
        (if input.take 2 = bytes "./" then input.drop 2 else input)
      = walk '/'.toUInt8 '.'.toUInt8 dir input := by
  split
  · rename_i h
    have hdot : '/'.toUInt8 ∉ ['.'.toUInt8] := by decide
    conv_rhs => rw [eq_of_dotSlash h, walk_append_sep, walk_run hdot]
    rw [enter, if_pos (Or.inr rfl)]
  · rfl

end OnyxShell
