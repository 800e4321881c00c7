import OnyxShell.PathBuf
import OnyxShell.Proofs.Path

/-!
# `OnyxShell.Proofs.PathBuf`: the buffer of `normalize` holds its text

Each operation on the buffer is the operation of the same name on the text in it
(`text_backToSlash`, `text_onComponent`), and so is the loop (`text_normalizeLoop`). With
what is known about the text, `normalize_buffer_correct` says which path `normalize` leaves
in the buffer, and where it ends.
-/

set_option autoImplicit false

namespace OnyxShell

open LexicalPath
open Scan (scanWhile scanWhile_le_length)

/-- What copying into the buffer leaves at each index. -/
theorem getElem?_copyAt (out : PathBytes) (dst : Nat) (src : Bytes) {i : Nat} (h : i < PATH_MAX) :
    (copyAt out dst src).toList[i]? =
      if dst ≤ i ∧ i < dst + src.length then (src)[i - dst]? else out.toList[i]? := by
  have hlen : i < out.toList.length := by rw [Vector.length_toList]; exact h
  have hget : (copyAt out dst src).toList[i]? =
      some (if dst ≤ i then ((src)[i - dst]?).getD out.toList[i] else out.toList[i]) := by
    rw [List.getElem?_eq_getElem (by rw [Vector.length_toList]; exact h), Vector.getElem_toList,
      copyAt, Vector.getElem_mapIdx, Vector.getElem_toList]
  rw [hget]
  by_cases hdst : dst ≤ i
  · rw [if_pos hdst]
    by_cases hsrc : i < dst + src.length
    · rw [if_pos ⟨hdst, hsrc⟩, List.getElem?_eq_getElem (by omega), Option.getD_some]
    · rw [if_neg (fun h => hsrc h.2), List.getElem?_eq_none (by omega), Option.getD_none,
        List.getElem?_eq_getElem hlen]
  · rw [if_neg hdst, if_neg (fun h => hdst h.1), List.getElem?_eq_getElem hlen]

namespace PathBuf

/-- The text is as long as `olen` says. -/
theorem length_text (b : PathBuf) : b.text.length = b.olen := by
  rw [text, List.length_take, Vector.length_toList]
  exact Nat.min_eq_left (Nat.le_of_lt b.olen_lt)

/-- The text is the buffer up to `olen`. -/
theorem getElem?_text (b : PathBuf) (i : Nat) :
    b.text[i]? = if i < b.olen then b.out.toList[i]? else none := by
  rw [text, List.getElem?_take]

/-- The test for a `/` at the end looks at the last byte of the text. -/
theorem slashAtEnd_iff {b : PathBuf} (h : b.olen > 0) :
    b.slashAtEnd = false ↔ b.text.getLast? ≠ some '/'.toUInt8 := by
  have hlast : b.text.getLast? = b.out.toList[b.olen - 1]? := by
    rw [List.getLast?_eq_getElem?, length_text, getElem?_text, if_pos (by omega)]
  rw [slashAtEnd, hlast, beq_eq_false_iff_ne]

/-- Shrinking takes the last byte. -/
theorem text_shrink (b : PathBuf) : b.shrink.text = b.text.dropLast := by
  rw [List.dropLast_eq_take, length_text, text, text, List.take_take]
  rw [Nat.min_eq_left (Nat.sub_le b.olen 1)]
  rfl

/-- Going back to the last `/`, in the buffer and in the text. -/
theorem text_backToSlash (b : PathBuf) : b.backToSlash.text = OnyxShell.backToSlash b.text := by
  fun_induction backToSlash b with
  | case1 b h ih =>
    rw [ih, text_shrink]
    rw [OnyxShell.backToSlash.eq_def b.text, if_pos]
    rw [length_text]
    exact ⟨h.1, (slashAtEnd_iff (Nat.lt_trans Nat.zero_lt_one h.1)).mp h.2⟩
  | case2 b h =>
    rw [OnyxShell.backToSlash.eq_def b.text, if_neg]
    rw [length_text]
    rintro ⟨hlen, hlast⟩
    exact h ⟨hlen, (slashAtEnd_iff (Nat.lt_trans Nat.zero_lt_one hlen)).mpr hlast⟩

/-- Popping a component, in the buffer and in the text. -/
theorem text_popComponent (b : PathBuf) :
    b.popComponent.text = OnyxShell.popComponent b.text := by
  rw [popComponent, OnyxShell.popComponent, length_text]
  by_cases h : b.olen > 1
  · rw [if_pos h, if_pos h, text_backToSlash, text_shrink]
  · rw [if_neg h, if_neg h]

/-- Bytes that are written behind the text stand behind the text. -/
theorem text_eq_append {b b' : PathBuf} {more : Bytes} (holen : b'.olen = b.olen + more.length)
    (hout : ∀ i < b'.olen, b'.out.toList[i]? =
      if b.olen ≤ i then (more)[i - b.olen]? else b.out.toList[i]?) :
    b'.text = b.text ++ more := by
  apply List.ext_getElem?
  intro i
  rw [getElem?_text]
  by_cases hlt : i < b'.olen
  · rw [if_pos hlt, hout i hlt]
    by_cases hold : b.olen ≤ i
    · rw [if_pos hold, List.getElem?_append_right (by rw [length_text]; exact hold), length_text]
    · rw [if_neg hold, List.getElem?_append_left (by rw [length_text]; omega), getElem?_text,
        if_pos (by omega)]
  · rw [if_neg hlt, List.getElem?_eq_none]
    rw [List.length_append, length_text]
    omega

/-- The `/` and the component go behind the text. -/
theorem text_append (b : PathBuf) (comp : Bytes) :
    ((b.separate.bind fun b => b.append comp).toOption).map text =
      appendWithSlash b.text comp := by
  -- The component alone, behind whatever text there is.
  have hstep : ∀ b : PathBuf, ((b.append comp).toOption).map text =
      if b.text.length + comp.length ≥ PATH_MAX then none else some (b.text ++ comp) := by
    intro b
    rw [append, length_text]
    by_cases hfull : b.olen + comp.length ≥ PATH_MAX
    · rw [dif_pos hfull, if_pos hfull]
      rfl
    · rw [dif_neg hfull, if_neg hfull]
      have hlt := b.olen_lt
      apply congrArg some
      apply text_eq_append rfl
      intro i hi
      have hi : i < b.olen + comp.length := hi
      show (copyAt b.out b.olen comp).toList[i]? = _
      rw [getElem?_copyAt b.out b.olen comp (by omega)]
      by_cases hold : b.olen ≤ i
      · rw [if_pos ⟨hold, hi⟩, if_pos hold]
      · rw [if_neg (fun h => hold h.1), if_neg hold]
  rw [separate, appendWithSlash, length_text]
  by_cases hsep : b.olen > 0 ∧ b.slashAtEnd = false
  · rw [if_pos hsep, if_pos ⟨hsep.1, (slashAtEnd_iff hsep.1).mp hsep.2⟩]
    by_cases hfull : b.olen ≥ PATH_MAX - 1
    · rw [dif_pos hfull, if_pos hfull]
      rfl
    · rw [dif_neg hfull, if_neg hfull]
      have hlt := b.olen_lt
      -- The separator is one byte more of text, and the component follows it.
      refine (hstep _).trans ?_
      rw [@text_eq_append b _ (bytes "/") rfl]
      · rfl
      · intro i hi
        have hi : i < b.olen + 1 := hi
        show (b.out.set b.olen '/'.toUInt8 b.olen_lt).toList[i]? = _
        rw [Vector.toList_set, List.getElem?_set, Vector.length_toList]
        by_cases hold : b.olen ≤ i
        · have heq : b.olen = i := by omega
          rw [if_pos heq, if_pos b.olen_lt, if_pos hold, ← heq, Nat.sub_self]
          rfl
        · rw [if_neg (by omega), if_neg hold]
  · rw [if_neg hsep, if_neg]
    · exact hstep b
    · rintro ⟨hpos, hlast⟩
      exact hsep ⟨hpos, (slashAtEnd_iff hpos).mpr hlast⟩

/-- A component changes the buffer as it changes the text. -/
theorem text_onComponent (b : PathBuf) (comp : Bytes) :
    ((b.onComponent comp).toOption).map text = OnyxShell.onComponent b.text comp := by
  rw [onComponent, OnyxShell.onComponent]
  by_cases hstay : comp.length = 0 ∨ comp = bytes "."
  · rw [if_pos hstay, if_pos hstay]
    rfl
  · rw [if_neg hstay, if_neg hstay]
    by_cases hup : comp = bytes ".."
    · rw [if_pos hup, if_pos hup]
      exact congrArg some (text_popComponent b)
    · rw [if_neg hup, if_neg hup, text_append]

/-- One turn of the loop over a list. -/
theorem normalizeLoop_step {path : Bytes} {i : Nat} (hi : i < path.length) (text : Bytes) :
    OnyxShell.normalizeLoop path i text =
      (OnyxShell.onComponent text
        (Span.of path (i, scanWhile (· != '/'.toUInt8) path i - i))).bind
        (OnyxShell.normalizeLoop path
          (afterComponent path (scanWhile (· != '/'.toUInt8) path i))) := by
  rw [OnyxShell.normalizeLoop, dif_pos hi]
  simp only
  cases OnyxShell.onComponent text (Span.of path (i, scanWhile (· != '/'.toUInt8) path i - i)) with
  | none => rfl
  | some out => rfl

/-- The loop on the buffer is the loop on the text. -/
theorem text_normalizeLoop (path : Bytes) (i : Nat) (b : PathBuf) :
    ((normalizeLoop path i b).toOption).map text = OnyxShell.normalizeLoop path i b.text := by
  fun_induction normalizeLoop path i b with
  | case1 i b hi stop out herr =>
    have hstep := text_onComponent b (Span.of path (i, stop - i))
    rw [herr] at hstep
    rw [normalizeLoop_step hi]
    show none = (OnyxShell.onComponent b.text (Span.of path (i, stop - i))).bind _
    rw [← hstep]
    rfl
  | case2 i b hi stop next hnext ih =>
    have hstep := text_onComponent b (Span.of path (i, stop - i))
    rw [hnext] at hstep
    rw [ih, normalizeLoop_step hi]
    show _ = (OnyxShell.onComponent b.text (Span.of path (i, stop - i))).bind _
    rw [← hstep]
    rfl
  | case3 i b hi =>
    rw [OnyxShell.normalizeLoop, dif_neg hi]
    rfl

/-- What `normalize` returns and leaves in its buffer: 0 where it gives no path, and
otherwise the length of the path that stands in front of a zero byte. -/
theorem normalize_eq_text (path : Bytes) (out : PathBytes) :
    match OnyxShell.normalize path with
    | none => (normalize path out).1 = 0
    | some text => (normalize path out).1 = text.length ∧ text.length < PATH_MAX ∧
        (normalize path out).2.toList.take text.length = text ∧
        (normalize path out).2.toList[text.length]? = some 0 := by
  by_cases habs : path.head? = some '/'.toUInt8
  · have hne : path.length ≠ 0 := by
      intro h
      rw [List.length_eq_zero_iff.mp h] at habs
      cases habs
    have htext := text_normalizeLoop path 1
      ⟨out.set 0 '/'.toUInt8 zero_lt_PATH_MAX, 1, one_lt_PATH_MAX⟩
    -- The loop starts with the root, whatever the buffer held before.
    have hroot : text ⟨out.set 0 '/'.toUInt8 zero_lt_PATH_MAX, 1, one_lt_PATH_MAX⟩ =
        bytes "/" := by
      apply List.ext_getElem (length_text _)
      intro i hi hi'
      have hi : i = 0 := by
        rw [length_text] at hi
        exact Nat.lt_one_iff.mp hi
      subst hi
      simp only [text, Vector.toList_set, List.getElem_take, List.getElem_set_self]
      rfl
    rw [hroot, ← normalize_eq_loop habs] at htext
    have hrel : ¬(path.length = 0 ∨ path.head? ≠ some '/'.toUInt8) := by
      rintro (h | h) <;> contradiction
    rcases hloop : normalizeLoop path 1
        ⟨out.set 0 '/'.toUInt8 zero_lt_PATH_MAX, 1, one_lt_PATH_MAX⟩ with out' | b
    · rw [hloop] at htext
      rw [← htext, normalize, if_neg hrel, hloop]
      rfl
    · rw [hloop] at htext
      have hfinish : normalize path out = b.finish := by
        rw [normalize, if_neg hrel, hloop]
      have hsome : OnyxShell.normalize path = some b.text := htext.symm
      have holen : b.olen ≠ 0 := by
        have hhead := (rendered_normalize hsome).head?
        rw [← length_text]
        intro h
        rw [List.length_eq_zero_iff.mp h] at hhead
        cases hhead
      rw [hsome, hfinish, finish, if_neg holen]
      show b.olen = b.text.length ∧ b.text.length < PATH_MAX ∧
        (b.out.set b.olen 0 b.olen_lt).toList.take b.text.length = b.text ∧
        (b.out.set b.olen 0 b.olen_lt).toList[b.text.length]? = some 0
      rw [length_text, Vector.toList_set, List.take_set_of_le (Nat.le_refl _)]
      refine ⟨rfl, b.olen_lt, rfl, ?_⟩
      rw [List.getElem?_set_self]
      rw [Vector.length_toList]
      exact b.olen_lt
  · have hnone : OnyxShell.normalize path = none := by
      rw [OnyxShell.normalize, if_pos (Or.inr habs)]
    rw [hnone, normalize, if_pos (Or.inr habs)]

end PathBuf

/-- **`normalize` keeps to its buffer and to the components of the path**: for an absolute
path of any length, a length that it returns is at most 255 and at most that of the path,
the byte behind it is zero, the path starts with a `/`, and its components are the names
that the path leads to. It gives a path for every input of up to 255 bytes. -/
theorem normalize_buffer_correct (path : Bytes) (out : PathBytes)
    (habs : path.head? = some '/'.toUInt8) :
    (0 < (PathBuf.normalize path out).1 →
      1 ≤ (PathBuf.normalize path out).1 ∧ (PathBuf.normalize path out).1 ≤ 255 ∧
      (PathBuf.normalize path out).1 ≤ path.length ∧
      (PathBuf.normalize path out).2.toList[(PathBuf.normalize path out).1]? = some 0 ∧
      (PathBuf.normalize path out).2.toList[0]? = some '/'.toUInt8 ∧
      components '/'.toUInt8
          ((PathBuf.normalize path out).2.toList.take (PathBuf.normalize path out).1) =
        locate path ∧
      ∀ comp ∈ components '/'.toUInt8
          ((PathBuf.normalize path out).2.toList.take (PathBuf.normalize path out).1),
        comp ≠ bytes "." ∧ comp ≠ bytes "..") ∧
    (path.length ≤ 255 → 0 < (PathBuf.normalize path out).1) := by
  have htext := PathBuf.normalize_eq_text path out
  rcases hnorm : normalize path with _ | text
  · -- The length is 0, which only a path that is too long has.
    rw [hnorm] at htext
    have hzero : (PathBuf.normalize path out).1 = 0 := htext
    constructor
    · intro hpos
      rw [hzero] at hpos
      cases hpos
    · intro hlen
      have hsome := normalize_isSome habs (Nat.lt_succ_of_le hlen)
      rw [hnorm] at hsome
      cases hsome
  · rw [hnorm] at htext
    rcases htext with ⟨hlen, hlt, htake, hzero⟩
    have hrendered := rendered_normalize hnorm
    have hpos : 0 < text.length := by
      rcases text with _ | ⟨b, text⟩
      · cases hrendered.head?
      · exact Nat.zero_lt_succ _
    have hcomponents : components '/'.toUInt8 text = locate path :=
      components_of_renders hrendered.names hrendered.renders
    rw [hlen, htake, hcomponents]
    constructor
    · intro _
      refine ⟨hpos, Nat.le_of_lt_succ hlt, length_normalize hnorm, hzero, ?_, rfl, ?_⟩
      · -- The first byte of the buffer is the first byte of the text.
        have hfirst := List.getElem?_take_of_lt (l := (PathBuf.normalize path out).2.toList) hpos
        rw [htake] at hfirst
        rw [← hfirst, ← List.head?_eq_getElem?]
        exact hrendered.head?
      · intro comp hcomp
        have hname := hrendered.names comp hcomp
        exact ⟨hname.ne_dot, hname.ne_dots⟩
    · exact fun _ => hpos

/-- A path with `.` and `..` in it, into a buffer that is full of something else. -/
theorem normalize_buffer_correct_pop :
    components '/'.toUInt8
        ((PathBuf.normalize (bytes "/a/b/../c/./d") (Vector.replicate PATH_MAX 7)).2.toList.take
          (PathBuf.normalize (bytes "/a/b/../c/./d") (Vector.replicate PATH_MAX 7)).1) =
      [bytes "a", bytes "c", bytes "d"] := by
  have h := normalize_buffer_correct (bytes "/a/b/../c/./d") (Vector.replicate PATH_MAX 7) rfl
  exact (h.1 (h.2 (by decide))).2.2.2.2.2.1.trans (by decide)

end OnyxShell
