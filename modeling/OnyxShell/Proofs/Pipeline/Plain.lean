import OnyxShell.Proofs.Pipeline.Exec
import OnyxShell.Proofs.Pipeline.Spelling
import OnyxShell.Proofs.Words

/-!
# `OnyxShell.Proofs.Pipeline.Plain`: lines without an operator

A line without an operator, of at most 16 words, is one segment with these words, where a
final `&` is the background mark (`parse_plain`). `plainArgs` are the arguments that are
left, and `execute_plain` is what becomes of them.

The lexer and the tokeniser find the same words here (`sameTokens_of_noOperator`), which is the
one place where the two meet.
-/

set_option autoImplicit false

namespace OnyxShell

variable {σ : Type} {line : Bytes}

/-- The words without a final `&`. -/
def plainArgs (words : List Bytes) : List Bytes :=
  if words.getLast? = some ampersand then words.dropLast else words

/-- The reading of a line whose tokens are known. -/
theorem readLine_of_lex {ts : List (Token Bytes)}
    (h : (lex line).map (Token.map (Span.read line)) = ts.map (Token.map measured)) :
    (readLine line).map (Span.read line)
      = (ts.foldl Reading.step (Reading.start [])).map measured := by
  rw [readLine, Reading.foldl_map, h, Reading.foldl_map]
  rfl

/-- The reading of a line without an operator has its words in one segment. -/
theorem readLine_wordSpans (hop : NoOperator line) (hlen : (lineWords line).length ≤ MAX_ARGS_PER) :
    (readLine line).finish =
      ⟨if wordSpans line 0 = [] then [] else [wordSpans line 0], (0, 0), (0, 0), false⟩ := by
  rw [readLine, lex, lexFrom_eq_wordSpans hop]
  by_cases hnil : wordSpans line 0 = []
  · rw [hnil]
    rfl
  · rw [if_neg hnil, Reading.start,
      Reading.foldl_segment (by decide) hnil (by rw [length_wordSpans]; exact hlen)]
    rfl

/-- A mark at the end of the only segment. -/
theorem markBackground_singleton (line : Bytes) (init : List Span) (last o i : Span) :
    markBackground line ⟨[init ++ [last]], o, i, false⟩ =
      if Span.of line last = ampersand then ⟨[init], o, i, true⟩
      else ⟨[init ++ [last]], o, i, false⟩ := by
  simp [markBackground]

/-- **The two tokenizers agree** on a line without an operator, of at most 16 words. Without an
operator the parser reads one segment, whose words are those that `tokenize` finds, and what it
does behind that is to take out the mark. -/
theorem sameTokens_of_noOperator (hop : NoOperator line) (hlen : (lineWords line).length ≤ 16) :
    SameTokens line := by
  have htokenize : tokenize line = wordSpans line 0 := by
    rw [tokenize_eq_wordSpans, List.take_of_length_le (by rw [length_wordSpans]; exact hlen)]
  have hread := readLine_wordSpans hop hlen
  refine ⟨?_, ?_, ?_, ?_⟩
  · intro s
    rw [htokenize, mem_wordSpans (Scan.break_zero _ line)]
    exact ⟨fun h => h.2, fun h => ⟨Nat.zero_le _, h⟩⟩
  · rw [htokenize]
    exact pairwise_wordSpans line 0
  · intro hnil
    rw [parse_eq, hread, ← htokenize, if_pos hnil]
    rfl
  · intro init last hsplit
    rw [parse_eq, hread, ← htokenize, hsplit, if_neg (by simp)]
    exact markBackground_singleton line init last (0, 0) (0, 0)

/-- Sixteen words and a blank behind them. -/
theorem sameTokens_sixteen_words : SameTokens (bytes "a b c d e f g h i j k l m n o & ") :=
  sameTokens_of_noOperator (by unfold NoOperator; decide +kernel) (by decide +kernel)

/-- **What `parse` makes of a line without an operator**: nothing of no word, and else one
segment without redirections. -/
theorem parse_plain (hop : NoOperator line) (hlen : (lineWords line).length ≤ MAX_ARGS_PER) :
    (parse line).stdoutFile.2 = 0 ∧ (parse line).stdinFile.2 = 0 ∧
      (lineWords line = [] ∧ (parse line).segments = [] ∧ (parse line).background = false ∨
        lineWords line ≠ [] ∧ ∃ seg, (parse line).segments = [seg] ∧
          seg.map (Span.of line) = plainArgs (lineWords line) ∧
          (parse line).background = decide ((lineWords line).getLast? = some ampersand)) := by
  have hwords := of_wordSpans line
  rw [parse_eq, readLine_wordSpans hop hlen]
  rcases List.eq_nil_or_concat (wordSpans line 0) with hnil | ⟨init, last, hspans⟩
  · rw [hnil] at hwords ⊢
    exact ⟨rfl, rfl, Or.inl ⟨hwords.symm, rfl, rfl⟩⟩
  · rw [List.concat_eq_append] at hspans
    rw [hspans, List.map_append, List.map_singleton] at hwords
    rw [hspans, if_neg (by simp), markBackground_singleton, plainArgs, ← hwords,
      List.getLast?_concat, List.dropLast_concat]
    by_cases hmark : Span.of line last = ampersand
    · -- The mark is taken out of the segment.
      rw [if_pos hmark, if_pos (congrArg some hmark)]
      refine ⟨rfl, rfl, Or.inr ⟨by simp, init, rfl, rfl, ?_⟩⟩
      exact (decide_eq_true (congrArg some hmark)).symm
    · have hlast : some (Span.of line last) ≠ some ampersand := fun h => hmark (Option.some.inj h)
      rw [if_neg hmark, if_neg hlast]
      refine ⟨rfl, rfl, Or.inr ⟨by simp, init ++ [last], rfl, ?_, (decide_eq_false hlast).symm⟩⟩
      rw [List.map_append, List.map_singleton]

/-- Words that fit their rows are the arguments. -/
theorem segToArgs_of_fit {seg : Segment} {args : List Bytes} (h : seg.map (Span.of line) = args)
    (hfit : ∀ w ∈ args, w.length ≤ 63) : segToArgs line seg = args := by
  rw [segToArgs_eq, h, ← List.map_id args, List.map_map]
  exact List.map_congr_left fun w hw => List.take_of_length_le (hfit w hw)

/-- The arguments are words of the line, so that a bound on the words is one on the arguments. -/
theorem length_le_of_mem_plainArgs {words : List Bytes} (hfit : ∀ w ∈ words, w.length ≤ 63) :
    ∀ w ∈ plainArgs words, w.length ≤ 63 := by
  intro w hw
  rw [plainArgs] at hw
  split at hw
  · exact hfit w ((List.dropLast_sublist words).mem hw)
  · exact hfit w hw

/-- The argument lists of the one segment, when the words fit their rows. -/
theorem argLists_plain (hop : NoOperator line) (hlen : (lineWords line).length ≤ MAX_ARGS_PER)
    (hfit : ∀ w ∈ lineWords line, w.length ≤ 63) :
    (Action.pipeline line (parse line)).argLists =
      if plainArgs (lineWords line) = [] then [] else [plainArgs (lineWords line)] := by
  rcases (parse_plain hop hlen).2.2 with ⟨hnil, hsegs, -⟩ | ⟨-, seg, hsegs, hmap, -⟩
  · rw [Action.argLists, Pipeline.commands, hsegs, hnil]
    rfl
  · have hargs := segToArgs_of_fit hmap (length_le_of_mem_plainArgs hfit)
    rw [Action.argLists, Pipeline.commands, hsegs]
    by_cases hseg : seg = []
    · rw [hseg, List.map_nil] at hmap
      rw [hseg, ← hmap]
      rfl
    · have hne : plainArgs (lineWords line) ≠ [] := by
        rw [← hmap]
        exact fun h => hseg (List.map_eq_nil_iff.mp h)
      rw [if_neg hne, List.filter_cons_of_pos (by simpa using hseg), List.filter_nil,
        List.map_singleton, hargs]

/-- No segment, and nothing to do but to collect ended children. -/
theorem execute_nil (commands : Commands σ) (answers : Answers) {p : Pipeline}
    (hsegs : p.segments = []) (hout : p.stdoutFile.2 = 0) (hinp : p.stdinFile.2 = 0)
    (hbg : p.background = false) (s : Shell σ) :
    execute commands answers line p s = some s.jobReap := by
  rcases p with ⟨segs, out, inp, bg⟩
  cases hsegs
  cases hbg
  have ho : ¬ out.2 > 0 := by
    intro h
    exact Nat.ne_of_gt h hout
  have hi : ¬ inp.2 > 0 := by
    intro h
    exact Nat.ne_of_gt h hinp
  show executeRedirected commands answers line ⟨[], out, inp, false⟩ s.jobReap = _
  simp only [executeRedirected, openStdout, openStdin, if_neg ho, if_neg hi]
  rfl

/-- **What `execute` makes of a line without an operator**: nothing of no argument, a child
in the background for a final `&`, and else a command in the shell. -/
theorem execute_plain (hop : NoOperator line) (hlen : (lineWords line).length ≤ MAX_ARGS_PER)
    (hfit : ∀ w ∈ lineWords line, w.length ≤ 63) (commands : Commands σ) (answers : Answers)
    (s : Shell σ) :
    execute commands answers line (parse line) s =
      if plainArgs (lineWords line) = [] then some s.jobReap
      else if (lineWords line).getLast? = some ampersand then
        match s.jobReap.fork answers with
        | (.error e, s) => some (s.report (.errno (bytes "fork") e))
        | (.ok pid, s) => some ((s.start ⟨pid, s.fds, plainArgs (lineWords line)⟩).jobAdd pid)
      else dispatch commands (plainArgs (lineWords line)) s := by
  rcases parse_plain hop hlen with ⟨hout, hinp, ⟨hnil, hsegs, hbg⟩ | ⟨-, seg, hsegs, hmap, hbg⟩⟩
  · rw [execute_nil commands answers hsegs hout hinp hbg, hnil]
    rfl
  · have hargs := segToArgs_of_fit hmap (length_le_of_mem_plainArgs hfit)
    have hseg : seg.length = 0 ↔ plainArgs (lineWords line) = [] := by
      rw [← hmap, List.map_eq_nil_iff, List.length_eq_zero_iff]
    have hplain : execute commands answers line (parse line) s
        = executePlain commands answers line seg (parse line).background s.jobReap := by
      unfold execute
      rw [hsegs]
      exact if_pos ⟨hout, hinp⟩
    rw [hplain, executePlain, hargs, hbg]
    by_cases hargsNil : plainArgs (lineWords line) = []
    · rw [if_pos (hseg.mpr hargsNil), if_pos hargsNil]
    · rw [if_neg (fun h => hargsNil (hseg.mp h)), if_neg hargsNil]
      by_cases hmark : (lineWords line).getLast? = some ampersand
      · rw [if_pos hmark]
        exact if_pos (decide_eq_true hmark)
      · rw [if_neg hmark]
        exact if_neg (by rw [decide_eq_false hmark]; decide)

end OnyxShell
