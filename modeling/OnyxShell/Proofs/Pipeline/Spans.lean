import Mathlib.Data.List.Forall2
import Mathlib.Data.List.Pairwise
import OnyxShell.Pipeline.Spans
import OnyxShell.Proofs.Pipeline.Operators

/-!
# `OnyxShell.Proofs.Pipeline.Spans`: the spans of a parsed line are well formed

The tokens of a line lie one behind the other (`pairwise_lexFrom`), and each word is a longest
run of word bytes (`isRun_of_mem_lexFrom`). The second needs an invariant of the lexer: it
starts every token at a break, where no run goes on from the byte before.

`parse` keeps some of the words, in their order (`spans_parse_sublist`), and the bounds of its
arrays hold behind every token (`Reading.fits_step`).
-/

set_option autoImplicit false

namespace OnyxShell

open Scan (scanWhile le_scanWhile lt_scanWhile scanWhile_le_length IsRun Break)

variable {α : Type}

/-! ### The tokens of a line -/

/-- The span of a token: its word or its target. -/
def Token.spans : Token α → List α
  | .pipe => []
  | .word s => [s]
  | .redirect _ s => [s]

/-- The word of a token is its span. A redirection has a span and is no word. -/
theorem Token.words_sub_spans (t : Token α) : ∀ s ∈ t.words, s ∈ t.spans := by
  intro s hs
  rcases t with _ | a | ⟨out, a⟩
  · cases hs
  · exact hs
  · cases hs

/-- A token ends inside the line, where its span ends. -/
theorem tokenAt_span {line : Bytes} {j k : Nat} {t : Token Span}
    (h : tokenAt line j = some (t, k)) :
    k ≤ line.length ∧ ∀ s ∈ t.spans, j ≤ s.1 ∧ s.1 + s.2 = k := by
  rcases tokenAt_cases h with ⟨hpipe, rfl, rfl⟩ | ⟨b, start, hb, -, rfl, rfl, rfl⟩ |
    ⟨b, hb, -, -, rfl, rfl⟩
  · exact ⟨(List.getElem?_eq_some_iff.mp hpipe).1, fun s hs => absurd hs List.not_mem_nil⟩
  · have hj := (List.getElem?_eq_some_iff.mp hb).1
    have h1 := le_scanWhile isWhitespace line (j + 1)
    have h2 := le_scanWhile isWordByte line (scanWhile isWhitespace line (j + 1))
    refine ⟨scanWhile_le_length _ _ _ (scanWhile_le_length _ _ _ hj), ?_⟩
    intro s hs
    obtain rfl := List.mem_singleton.mp hs
    exact ⟨by omega, Nat.add_sub_cancel' h2⟩
  · have hj := (List.getElem?_eq_some_iff.mp hb).1
    refine ⟨scanWhile_le_length _ _ _ (Nat.le_of_lt hj), ?_⟩
    intro s hs
    obtain rfl := List.mem_singleton.mp hs
    exact ⟨Nat.le_refl j, Nat.add_sub_cancel' (le_scanWhile _ _ _)⟩

/-- The tokens from an index on lie behind it and inside the line. -/
theorem bounds_of_mem_lexFrom (line : Bytes) (i : Nat) :
    ∀ t ∈ lexFrom line i, ∀ s ∈ t.spans, i ≤ s.1 ∧ s.1 + s.2 ≤ line.length := by
  fun_induction lexFrom line i with
  | case1 i h => exact fun t ht => absurd ht List.not_mem_nil
  | case2 i t k h ih =>
    have hskip := le_scanWhile isWhitespace line i
    have hlt := lt_of_tokenAt h
    rcases tokenAt_span h with ⟨hk, hspan⟩
    intro u hu s hs
    rcases List.mem_cons.mp hu with rfl | hu
    · have := hspan s hs
      omega
    · have := ih u hu s hs
      omega

/-- The tokens lie one behind the other. -/
theorem pairwise_lexFrom (line : Bytes) (i : Nat) :
    (lexFrom line i).Pairwise fun t u => ∀ s ∈ t.spans, ∀ s' ∈ u.spans, Span.Before s s' := by
  fun_induction lexFrom line i with
  | case1 i h => exact List.Pairwise.nil
  | case2 i t k h ih =>
    refine List.Pairwise.cons ?_ ih
    intro u hu s hs s' hs'
    have hend := ((tokenAt_span h).2 s hs).2
    have hstart := (bounds_of_mem_lexFrom line k u hu s' hs').1
    rw [Span.Before, hend]
    exact hstart

/-- Whitespace ends a word. -/
theorem not_isWordByte_of_whitespace {b : UInt8} (h : isWhitespace b = true) :
    isWordByte b = false := by
  rw [isWordByte, h]
  rfl

/-- Behind a token no word goes on. -/
theorem break_tokenAt {line : Bytes} {j k : Nat} {t : Token Span}
    (h : tokenAt line j = some (t, k)) : Break isWordByte line k := by
  rcases tokenAt_cases h with ⟨hpipe, -, rfl⟩ | ⟨b, start, -, -, -, rfl, -⟩ | ⟨b, -, -, -, rfl, -⟩
  · exact Scan.break_succ hpipe (by decide)
  · exact Scan.break_scanWhile isWordByte line start
  · exact Scan.break_scanWhile isWordByte line j

/-- From a break on, every word is a longest run. -/
theorem isRun_of_mem_lexFrom {line : Bytes} {i : Nat} (hbreak : Break isWordByte line i)
    {s : Span} (hs : .word s ∈ lexFrom line i) : IsRun isWordByte line s.1 s.2 := by
  fun_induction lexFrom line i with
  | case1 i h => cases hs
  | case2 i t k h ih =>
    rcases List.mem_cons.mp hs with rfl | hs
    · -- Whitespace is skipped, so the token starts at a break too.
      have hstart := hbreak.scanWhile (q := isWhitespace) fun _ => not_isWordByte_of_whitespace
      rcases tokenAt_cases h with ⟨-, ht, -⟩ | ⟨b, start, -, -, -, -, ht⟩ |
        ⟨b, hb, hpipe, -, hstop, ht⟩
      · cases ht
      · cases ht
      · cases ht
        have hword : isWordByte b = true := by
          have hws := Scan.scanWhile_stop isWhitespace line i b hb
          rw [isWordByte, hws]
          simpa using hpipe
        rw [← hstop]
        exact Scan.isRun_scanWhile hb hword hstart
    · exact ih (break_tokenAt h) hs

/-- The words of a line are in their order. -/
theorem pairwise_words_lex (line : Bytes) : (words (lex line)).Pairwise Span.Before := by
  rw [words, List.pairwise_flatMap]
  constructor
  · intro t _
    rcases t with _ | s | ⟨out, s⟩
    · exact List.Pairwise.nil
    · exact List.pairwise_singleton _ s
    · exact List.Pairwise.nil
  · refine (pairwise_lexFrom line 0).imp ?_
    intro t u htu s hs s' hs'
    exact htu s (t.words_sub_spans s hs) s' (u.words_sub_spans s' hs')

/-- One of two tokens ends before the other begins. -/
def Token.Beside (t u : Token Span) : Prop :=
  (∀ s ∈ t.spans, ∀ s' ∈ u.spans, Span.Before s s') ∨
    ∀ s ∈ u.spans, ∀ s' ∈ t.spans, Span.Before s s'

instance : Std.Symm Token.Beside := ⟨fun _ _ h => h.symm⟩

/-- A target and a word of the line are one behind the other. -/
theorem beside_of_mem_lex {line : Bytes} {out : Bool} {f s : Span}
    (hf : .redirect out f ∈ lex line) (hs : .word s ∈ lex line) :
    Span.Before f s ∨ Span.Before s f := by
  -- A relation that is symmetric holds of any two different tokens, whatever their order.
  have hbeside : (lex line).Pairwise Token.Beside := (pairwise_lexFrom line 0).imp Or.inl
  have hpair := hbeside.forall hf hs fun h => by cases h
  exact hpair.imp (fun h => h f List.mem_cons_self s List.mem_cons_self)
    fun h => h s List.mem_cons_self f List.mem_cons_self

/-- Spans of which one is before the other do not overlap. -/
theorem Span.Before.apart {s t : Span} (h : Span.Before s t ∨ Span.Before t s) : Span.Apart s t := by
  intro k hs hs' ht ht'
  rcases h with h | h
  · rw [Span.Before] at h
    omega
  · rw [Span.Before] at h
    omega

/-! ### What the parser keeps of them -/

namespace Reading

/-- One token adds its word or nothing. -/
theorem spans_step (r : Reading α) (t : Token α) :
    ∃ kept, kept.Sublist t.words ∧ (r.step t).spans = r.spans ++ kept := by
  rcases t with _ | a | ⟨out, a⟩
  case pipe =>
    refine ⟨[], List.Sublist.refl _, ?_⟩
    rw [step, spans_close, List.append_nil]
  case word =>
    rw [step, ← (spans_openSegment_closeFull r).1]
    rcases r.closeFull.openSegment with ⟨done, _ | args, o, i⟩
    · refine ⟨[], List.nil_sublist _, ?_⟩
      rw [List.append_nil]
      rfl
    · refine ⟨[a], List.Sublist.refl _, ?_⟩
      show done.flatten ++ (args ++ [a]) = (done.flatten ++ args) ++ [a]
      rw [List.append_assoc]
  case redirect =>
    refine ⟨[], List.Sublist.refl _, ?_⟩
    rw [step, ← (spans_openSegment_closeFull r).1, List.append_nil]
    rcases r.closeFull.openSegment with ⟨done, _ | args, o, i⟩
    · rfl
    · rcases out
      · rfl
      · rfl

/-- A run of tokens adds some of its words, in their order. -/
theorem spans_foldl (ts : List (Token α)) (r : Reading α) :
    ∃ kept, kept.Sublist (OnyxShell.words ts) ∧ (ts.foldl step r).spans = r.spans ++ kept := by
  induction ts generalizing r with
  | nil => exact ⟨[], List.Sublist.refl _, (List.append_nil _).symm⟩
  | cons t rest ih =>
    rcases spans_step r t with ⟨first, hfirst, hstep⟩
    rcases ih (r.step t) with ⟨kept, hkept, hfold⟩
    refine ⟨first ++ kept, ?_, ?_⟩
    · rw [words_cons]
      exact hfirst.append hkept
    · rw [List.foldl_cons, hfold, hstep, List.append_assoc]

/-- The counts are within the bounds of the parser's arrays. -/
structure Fits (r : Reading α) : Prop where
  segments : r.done.length + r.current.toList.length ≤ MAX_SEGMENTS
  args : ∀ seg ∈ r.done ++ r.current.toList, seg.length ≤ MAX_ARGS_PER

/-- The reading begins with one segment, which is within the bounds of the arrays. -/
theorem fits_start (a : α) : (start a).Fits :=
  ⟨Nat.zero_le _, fun _ h => absurd h List.not_mem_nil⟩

/-- Closing the last segment keeps the bounds. -/
theorem Fits.close {r : Reading α} (h : r.Fits) : r.close.Fits := by
  rcases r with ⟨done, _ | args, o, i⟩
  · exact h
  · constructor
    · show (done ++ [args]).length + 0 ≤ MAX_SEGMENTS
      rw [List.length_append]
      exact h.segments
    · intro seg hseg
      refine h.args seg ?_
      rwa [current_close, Option.toList_none, List.append_nil] at hseg

/-- Making room keeps the bounds, and an open segment is not full behind it. -/
theorem Fits.room {r : Reading α} (h : r.Fits) :
    r.closeFull.openSegment.Fits ∧
      ∀ args, r.closeFull.openSegment.current = some args → args.length < MAX_ARGS_PER := by
  have hfull : r.closeFull.Fits ∧ ∀ args, r.closeFull.current = some args →
      args.length < MAX_ARGS_PER := by
    rcases r with ⟨done, _ | args, o, i⟩
    · exact ⟨h, fun _ hnone => by cases hnone⟩
    · rw [closeFull]
      by_cases hroom : args.length < MAX_ARGS_PER
      · simp only [hroom, if_true]
        exact ⟨h, fun _ heq => Option.some.inj heq ▸ hroom⟩
      · simp only [hroom, if_false]
        exact ⟨h.close, fun _ hnone => by cases hnone⟩
  generalize r.closeFull = r' at hfull
  -- Only a reading without an open segment opens one, and it is empty.
  rcases r' with ⟨done, _ | args, o, i⟩
  · rw [openSegment]
    by_cases hmore : done.length < MAX_SEGMENTS
    · simp only [hmore, if_true]
      refine ⟨⟨hmore, ?_⟩, ?_⟩
      · intro seg hseg
        rcases List.mem_append.mp hseg with hseg | hseg
        · exact hfull.1.args seg (List.mem_append_left _ hseg)
        · obtain rfl := List.mem_singleton.mp hseg
          exact Nat.zero_le _
      · intro args heq
        cases heq
        exact Nat.zero_lt_succ _
    · simp only [hmore, if_false]
      exact hfull
  · exact hfull

/-- One token keeps the bounds. -/
theorem fits_step {r : Reading α} (h : r.Fits) (t : Token α) : (r.step t).Fits := by
  rcases t with _ | a | ⟨out, a⟩
  case pipe => exact h.close
  case word =>
    rw [step]
    rcases h.room with ⟨hfits, hroom⟩
    generalize r.closeFull.openSegment = r' at hfits hroom
    rcases r' with ⟨done, _ | args, o, i⟩
    · exact hfits
    · refine ⟨hfits.segments, ?_⟩
      intro seg hseg
      rcases List.mem_append.mp hseg with hseg | hseg
      · exact hfits.args seg (List.mem_append_left _ hseg)
      · obtain rfl := List.mem_singleton.mp hseg
        rw [List.length_append]
        exact hroom args rfl
  case redirect =>
    rw [step]
    have hfits := h.room.1
    generalize r.closeFull.openSegment = r' at hfits
    rcases r' with ⟨done, _ | args, o, i⟩
    · exact hfits
    · rcases out
      · exact ⟨hfits.segments, hfits.args⟩
      · exact ⟨hfits.segments, hfits.args⟩

/-- A run of tokens keeps the bounds. -/
theorem fits_foldl (ts : List (Token α)) {r : Reading α} (h : r.Fits) : (ts.foldl step r).Fits := by
  induction ts generalizing r with
  | nil => exact h
  | cons t rest ih => exact ih (fits_step h t)

end Reading

/-- Taking the mark out makes the last segment shorter, and no other. -/
theorem unmark_forall₂ (line : Bytes) (segs : List Segment) :
    List.Forall₂ List.Sublist (unmark line segs) segs := by
  rcases List.eq_nil_or_concat segs with rfl | ⟨segs, last, rfl⟩
  · exact List.Forall₂.nil
  · rw [List.concat_eq_append, unmark_append]
    refine List.rel_append (List.forall₂_same.mpr fun seg _ => List.Sublist.refl seg) ?_
    refine List.Forall₂.cons ?_ List.Forall₂.nil
    split
    · exact List.dropLast_sublist last
    · exact List.Sublist.refl last

/-- Shorter segments have fewer words. -/
theorem flatten_sublist_of_forall₂ {segs segs' : List (List α)}
    (h : List.Forall₂ List.Sublist segs segs') : segs.flatten.Sublist segs'.flatten := by
  induction h with
  | nil => exact List.Sublist.refl _
  | cons hseg _ ih => exact hseg.append ih

/-- The segments of a line, before the mark is taken out. -/
theorem forall₂_segments_parse (line : Bytes) :
    List.Forall₂ List.Sublist (parse line).segments (readLine line).close.done := by
  rw [parse_eq, segments_markBackground]
  exact unmark_forall₂ line _

/-- The arguments of a line are some of its words, in their order. -/
theorem spans_parse_sublist (line : Bytes) :
    (parse line).segments.flatten.Sublist (words (lex line)) := by
  have hclose : (readLine line).close.done.flatten = (readLine line).spans := by
    rw [← Reading.spans_close, Reading.spans, Reading.current_close]
    exact (List.append_nil _).symm
  rcases Reading.spans_foldl (lex line) (Reading.start (0, 0)) with ⟨kept, hkept, hfold⟩
  rw [show (readLine line).spans = kept from hfold] at hclose
  exact (hclose ▸ flatten_sublist_of_forall₂ (forall₂_segments_parse line)).trans hkept

/-- A redirection of a line is one of its targets, or stands for none. -/
theorem file_parse (line : Bytes) {f : Span}
    (hf : f ∈ [(parse line).stdoutFile, (parse line).stdinFile]) :
    f = (0, 0) ∨ ∃ out, .redirect out f ∈ lex line := by
  have hread : ∃ out, f = (readLine line).target out := by
    rw [parse_eq] at hf
    have hmark := files_markBackground line (readLine line).finish
    rw [hmark.1, hmark.2] at hf
    rcases List.mem_cons.mp hf with rfl | hf
    · exact ⟨true, Reading.target_close (readLine line) true⟩
    · obtain rfl := List.mem_singleton.mp hf
      exact ⟨false, Reading.target_close (readLine line) false⟩
  rcases hread with ⟨out, rfl⟩
  rcases Reading.target_foldl (lex line) (Reading.start (0, 0)) out with
    hstart | ⟨before, a, after, hlex, -, heq, -⟩
  · left
    rw [readLine, hstart]
    rcases out
    · rfl
    · rfl
  · right
    refine ⟨out, ?_⟩
    rw [readLine, heq, hlex]
    exact List.mem_append_right _ List.mem_cons_self

/-- **The spans that `parse` returns are well formed**, for every line. The spans of the segments
are a sublist of the words of the line, which are in order and do not overlap; the bounds of the
arrays are an invariant of the fold over the tokens. Taking out the mark only shortens a
segment. -/
theorem wellFormed_parse (line : Bytes) : (parse line).WellFormed line := by
  have hshorter := forall₂_segments_parse line
  have hsub := spans_parse_sublist line
  have hfits := (Reading.fits_foldl (lex line) (Reading.fits_start (0, 0))).close
  rw [← readLine] at hfits
  have hword : ∀ s ∈ (parse line).segments.flatten, .word s ∈ lex line :=
    fun s hs => mem_words.mp (hsub.mem hs)
  have hrun : ∀ s ∈ (parse line).segments.flatten, IsRun isWordByte line s.1 s.2 :=
    fun s hs => isRun_of_mem_lexFrom (Scan.break_zero isWordByte line) (hword s hs)
  have hfiles : ∀ f ∈ [(parse line).stdoutFile, (parse line).stdinFile],
      f.1 + f.2 ≤ line.length := by
    intro f hf
    rcases file_parse line hf with rfl | ⟨out, hmem⟩
    · exact Nat.zero_le _
    · exact (bounds_of_mem_lexFrom line 0 _ hmem f List.mem_cons_self).2
  refine ⟨?_, ?_, hrun, (pairwise_words_lex line).sublist hsub, hfiles, ?_, ?_⟩
  -- The two counts are those before the mark is taken out.
  · rw [hshorter.length_eq]
    exact Nat.le_trans (Nat.le_add_right _ _) hfits.segments
  · intro seg hseg
    rcases List.mem_iff_getElem?.mp hseg with ⟨n, hn⟩
    have hlen := (List.getElem?_eq_some_iff.mp hn).1
    have hlen' : n < (readLine line).close.done.length := hshorter.length_eq ▸ hlen
    have hle := (hshorter.get hlen hlen').length_le
    rw [← (List.getElem?_eq_some_iff.mp hn).2]
    exact Nat.le_trans hle
      (hfits.args _ (List.mem_append_left _ (List.get_mem _ ⟨n, hlen'⟩)))
  · intro f hf s hs
    rcases file_parse line hf with rfl | ⟨out, hmem⟩
    · intro k _ hk
      exact absurd hk (Nat.not_lt_zero k)
    · exact Span.Before.apart (beside_of_mem_lex hmem (hword s hs))
  · -- The slices: the arguments, the first of each segment, and the redirections.
    intro b hb
    rcases List.mem_append.mp hb with hb | hb
    · rcases List.mem_append.mp hb with hb | hb
      · rcases List.mem_map.mp hb with ⟨s, hs, rfl⟩
        have := (hrun s hs).inside
        exact ⟨Nat.le_add_right _ _, by omega⟩
      · rcases List.mem_map.mp hb with ⟨s, hs, rfl⟩
        rcases List.mem_filterMap.mp hs with ⟨seg, hseg, hhead⟩
        have hmem := List.mem_flatten.mpr ⟨seg, hseg, List.mem_of_mem_head? hhead⟩
        exact ⟨Nat.le_add_right _ _, (hrun s hmem).inside⟩
    · rcases List.mem_map.mp hb with ⟨f, hf, rfl⟩
      have := hfiles f hf
      exact ⟨Nat.le_add_right _ _, by omega⟩

end OnyxShell
