import OnyxShell.Pipeline.Spelling
import OnyxShell.Proofs.Pipeline.RoundTrip

/-!
# `OnyxShell.Proofs.Pipeline.Spelling`: the parser reads what the text spells

`spelling_parse`: the pipeline that `parse` finds in a text is the one the text spells.
The automaton does not look at its words, so it may read the bytes of the tokens in place
of their spans. What is left is that a redirection span with a length is not empty.

So two texts with the same spelling are the same pipeline, wherever their words stand, which is
what the comparison of evaluators needs.
-/

set_option autoImplicit false

namespace OnyxShell

open Scan (scanWhile le_scanWhile)

/-! ### Redirection spans -/

/-- A span that has a length holds bytes. -/
def Span.InLine (line : Bytes) (s : Span) : Prop := s.2 > 0 → Span.of line s ≠ []

/-- The two redirections of a reading are spans of the line. -/
def Reading.InLine (line : Bytes) (r : Reading Span) : Prop :=
  r.stdoutFile.InLine line ∧ r.stdinFile.InLine line

/-- A redirection token has its target in the line. -/
theorem inLine_tokenAt {line : Bytes} {j k : Nat} {out : Bool} {s : Span}
    (h : tokenAt line j = some (.redirect out s, k)) : s.InLine line := by
  rcases tokenAt_cases h with ⟨-, ht, -⟩ | ⟨b, start, -, -, rfl, rfl, ht⟩ | ⟨b, -, -, -, -, ht⟩
  · cases ht
  · cases ht
    intro hpos hnil
    have hle : line.length ≤ scanWhile isWhitespace line (j + 1) := by
      have hlen := congrArg List.length hnil
      simp only [Span.of, List.length_take, List.length_drop, List.length_nil] at hlen
      simp only at hpos
      omega
    -- Behind the end of the line a scan does not move.
    rw [Scan.scanWhile_of_length_le isWordByte line _ hle] at hpos
    simp at hpos
  · cases ht

/-- Every target that the tokeniser reports is within the line. -/
theorem inLine_lexFrom (line : Bytes) (i : Nat) :
    ∀ out s, Token.redirect out s ∈ lexFrom line i → Span.InLine line s := by
  fun_induction lexFrom line i with
  | case1 i h =>
    intro out s hs
    cases hs
  | case2 i t k h ih =>
    intro out s hs
    rcases List.mem_cons.mp hs with rfl | hs
    · exact inLine_tokenAt h
    · exact ih out s hs

namespace Reading

/-- Closing the last segment does not touch the targets. -/
theorem inLine_close {line : Bytes} {r : Reading Span} (h : r.InLine line) :
    r.close.InLine line := by
  rw [close]
  split <;> exact h

/-- Opening the next segment does not touch the targets. -/
theorem inLine_opened {line : Bytes} {r : Reading Span} (h : r.InLine line) :
    r.closeFull.openSegment.InLine line := by
  have hfull : r.closeFull.InLine line := by
    rw [closeFull]
    split
    · exact h
    · split
      · exact h
      · exact inLine_close h
  rw [openSegment]
  split
  · exact hfull
  · split <;> exact hfull

/-- A token of the line keeps the redirections in the line. -/
theorem inLine_step {line : Bytes} {r : Reading Span} {t : Token Span} (h : r.InLine line)
    (ht : ∀ out s, t = .redirect out s → s.InLine line) : (r.step t).InLine line := by
  cases t with
  | pipe => exact inLine_close h
  | word a =>
    show (r.closeFull.openSegment.addWord a).InLine line
    rw [addWord]
    split <;> exact inLine_opened h
  | redirect out a =>
    have hopen := inLine_opened h
    have ha := ht out a rfl
    show (r.closeFull.openSegment.addRedirect out a).InLine line
    rw [addRedirect]
    split
    · exact hopen
    · cases out with
      | true => exact ⟨ha, hopen.2⟩
      | false => exact ⟨hopen.1, ha⟩

/-- A target is either one from before or one of the tokens, by induction on these. -/
theorem inLine_foldl {line : Bytes} {ts : List (Token Span)} {r : Reading Span} (h : r.InLine line)
    (hts : ∀ out s, Token.redirect out s ∈ ts → s.InLine line) :
    (ts.foldl step r).InLine line := by
  induction ts generalizing r with
  | nil => exact h
  | cons t ts ih =>
    refine ih (inLine_step h fun out s ht => ?_) fun out s hs => hts out s (List.mem_cons_of_mem _ hs)
    exact hts out s (ht ▸ List.mem_cons_self)

end Reading

/-- Together: the targets of a parsed line are within it. -/
theorem inLine_readLine (line : Bytes) : (readLine line).close.InLine line := by
  have hstart : (Reading.start ((0, 0) : Span)).InLine line :=
    ⟨fun h => absurd h (Nat.lt_irrefl 0), fun h => absurd h (Nat.lt_irrefl 0)⟩
  exact Reading.inLine_close (Reading.inLine_foldl hstart (inLine_lexFrom line 0))

/-! ### The spelling -/

/-- The target of a span of the line is the target of its bytes. -/
theorem redirectTarget_eq {line : Bytes} {s : Span} (h : s.InLine line) :
    redirectTarget line s = targetOf (Span.of line s) := by
  have hcut : (line.drop s.1).take (min s.2 255) = (Span.of line s).take 255 := by
    rw [Span.of, List.take_take, Nat.min_comm]
  unfold redirectTarget targetOf redirectPath
  rw [hcut]
  rcases Nat.eq_zero_or_pos s.2 with h0 | hpos
  · -- No target, or an operator without a word: the span is empty on both sides.
    have hnil : Span.of line s = [] := by rw [Span.of, h0, List.take_zero]
    rw [if_neg (by omega), if_pos hnil]
  · rw [if_pos hpos, if_neg (h hpos)]

/-- The arguments of a segment are the bytes of its spans, cut to 63. -/
theorem segToArgs_eq (line : Bytes) (seg : Segment) :
    segToArgs line seg = (seg.map (Span.of line)).map (·.take 63) := by
  rw [segToArgs]
  rw [List.map_map]
  refine List.map_congr_left fun s _ => ?_
  show (line.drop s.1).take (min s.2 63) = (Span.of line s).take 63
  rw [Span.of, List.take_take, Nat.min_comm]

/-- Taking out the background mark is the same on spans and on their bytes. -/
theorem markBackground_spelling (line : Bytes) (p : Pipeline) (hbg : p.background = false) :
    (markBackground line p).spelling line
      = ⟨(takeMark (p.segments.map (·.map (Span.of line)))).1.map (·.map (·.take 63)),
          redirectTarget line p.stdoutFile, redirectTarget line p.stdinFile,
          (takeMark (p.segments.map (·.map (Span.of line)))).2⟩ := by
  have hargs : ∀ segs : List Segment,
      segs.map (segToArgs line) = (segs.map (·.map (Span.of line))).map (·.map (·.take 63)) := by
    intro segs
    rw [List.map_map]
    exact List.map_congr_left fun seg _ => segToArgs_eq line seg
  unfold markBackground takeMark Pipeline.spelling
  rw [List.getLast?_map]
  cases hlast : p.segments.getLast? with
  | none => simp only [Option.map_none, hargs, hbg]
  | some last =>
    simp only [Option.map_some, List.getLast?_map]
    cases ha : last.getLast? with
    | none => simp only [Option.map_none, hargs, hbg, reduceCtorEq, if_false]
    | some a =>
      simp only [Option.map_some, Option.some.injEq]
      split
      · simp only [hargs, List.map_append, List.map_dropLast, List.map_cons, List.map_nil]
      · simp only [hargs, hbg]

/-- **The parser reads what the text spells.** -/
theorem spelling_parse (text : Bytes) : (parse text).spelling text = textSpelling text := by
  -- Reading commutes with taking the bytes of each span.
  have hmap : (readLine text).map (Span.of text)
      = (tokensOf text).foldl Reading.step (Reading.start []) := by
    rw [readLine, Reading.foldl_map]
    rfl
  have hin := inLine_readLine text
  rw [parse_eq, markBackground_spelling text _ rfl, textSpelling, ← hmap, Reading.spelling,
    ← Reading.map_close]
  simp only [Reading.finish, Reading.map, redirectTarget_eq hin.1, redirectTarget_eq hin.2]

end OnyxShell
