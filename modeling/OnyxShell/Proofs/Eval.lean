import OnyxShell.Proofs.Commands.Script
import OnyxShell.Proofs.Pipeline.Arguments

/-!
# `OnyxShell.Proofs.Eval`: what becomes of the words of a line

A line without expansions and operators reaches `commands::dispatch` as its first 16 words,
each cut to 127 bytes (`action_evalLine_plain`). The parser takes the same words, up to a
final `&` (`parse_plain`), and the executor cuts each to 63 bytes.

`argLists_wordLine_iff` says for which lines the words arrive whole, and
`sameAsPipeline_iff` for which lines the two paths agree.
-/

set_option autoImplicit false

namespace OnyxShell

section
variable {line : Bytes}

/-- A plain line has none of the bytes that mean something to the shell. -/
theorem PlainLine.notMem (h : PlainLine line) {b : UInt8} (hb : b ∈ bytes "|<>!$~*?[") :
    b ∉ line := fun hmem => (h b hmem).2 hb

/-- A part of a plain line is plain. -/
theorem PlainLine.take (h : PlainLine line) (n : Nat) : PlainLine (line.take n) :=
  fun b hb => h b (List.mem_of_mem_take hb)

/-- A plain line has no operator, and so takes the way of words. -/
theorem PlainLine.noOperator (h : PlainLine line) : NoOperator line := by
  intro b hb
  have hne := (h b hb).2
  refine ⟨?_, ?_, ?_⟩
  all_goals
    rintro rfl
    exact hne (by decide)

/-- The test of the prompt for an operator fails. -/
theorem PlainLine.hasOp (h : PlainLine line) : hasOp line = false := by
  rw [OnyxShell.hasOp, List.any_eq_false]
  intro b hb
  have hop := h.noOperator b hb
  simp [hop.1, hop.2.1, hop.2.2]

/-- A plain line is its own expansion. -/
theorem PlainLine.expand (h : PlainLine line) (env : Env) :
    expand env line = line.take VEC_CAP := by
  have htilde : (expandTilde env line).items = line.take VEC_CAP := by
    apply Vec.items_run_of_find_none id
    · intro i
      exact if_neg fun hi => h.notMem (by decide) (List.mem_of_getElem? hi.1)
    · intro s a
      rfl
  have hvars : ∀ s : Bytes, PlainLine s → (expandVars env s).items = s.take VEC_CAP := by
    intro s hs
    apply Vec.items_run_of_find_none id
    · intro i
      exact if_neg fun hi => hs.notMem (by decide) (List.mem_of_getElem? hi)
    · intro s a
      rfl
  rw [OnyxShell.expand, htilde, hvars _ (h.take _), List.take_take, Nat.min_self]

/-- The words of a plain line do not expand. -/
theorem PlainLine.globExpand (h : PlainLine line) (listing : Listing) (tok : Span) :
    (globExpand listing (Span.of line tok)).items = [(Span.of line tok).take 127] := by
  have hglob : hasGlob (Span.of line tok) = false := by
    rw [hasGlob, List.any_eq_false]
    intro b hb
    have hne := (h b (List.mem_of_mem_drop (List.mem_of_mem_take hb))).2
    have hspecial : b ≠ '*'.toUInt8 ∧ b ≠ '?'.toUInt8 ∧ b ≠ '['.toUInt8 := by
      refine ⟨?_, ?_, ?_⟩
      all_goals
        rintro rfl
        exact hne (by decide)
    simp [hspecial]
  rw [OnyxShell.globExpand, if_neg (by rw [hglob]; decide)]
  rfl

/-- The arguments that the words of a plain line become. -/
theorem PlainLine.expandArgs (h : PlainLine line) (listing : Listing) :
    expandArgs listing line = ((lineWords line).take MAX_TOKENS).map (·.take 127) := by
  have hwords := tokenize_words line
  have hcount : (tokenize line).length ≤ 32 := by
    have hlen := congrArg List.length hwords
    rw [List.length_map, List.length_take] at hlen
    have : MAX_TOKENS = 16 := rfl
    omega
  have hexpansions :
      (tokenize line).flatMap (fun tok => (OnyxShell.globExpand listing (Span.of line tok)).items)
        = (tokenize line).map fun tok => (Span.of line tok).take 127 := by
    rw [List.map_eq_flatMap]
    exact List.flatMap_congr fun tok _ => h.globExpand listing tok
  have hcut : ∀ tok,
      (cString ((Span.of line tok).take 127)).take 127 = (Span.of line tok).take 127 := by
    intro tok
    rw [cString_eq_self, List.take_take, Nat.min_self]
    intro h0
    exact (h 0 (List.mem_of_mem_drop (List.mem_of_mem_take (List.mem_of_mem_take h0)))).1 rfl
  rw [OnyxShell.expandArgs, hexpansions, List.take_of_length_le (by simpa using hcount),
    List.map_map, ← hwords, List.map_map]
  exact List.map_congr_left fun tok _ => hcut tok

/-- What a plain line comes to: its first 16 words, each cut to 127 bytes. -/
theorem PlainLine.runWords (h : PlainLine line) (listing : Listing) :
    runWords listing line =
      if lineWords line = [] then .nothing
      else .dispatch (((lineWords line).take MAX_TOKENS).map (·.take 127)) := by
  have hcount : (tokenize line).length = 0 ↔ lineWords line = [] := by
    have hlen := congrArg List.length (tokenize_eq line)
    rw [List.length_map, List.length_map, List.length_take] at hlen
    rw [hlen, ← List.length_eq_zero_iff]
    have : MAX_TOKENS = 16 := rfl
    omega
  rw [OnyxShell.runWords, h.expandArgs]
  by_cases hnil : lineWords line = []
  · rw [if_pos (hcount.mpr hnil), if_pos hnil]
  · rw [if_neg (fun hz => hnil (hcount.mp hz)), if_neg hnil]

/-- What the interactive evaluator makes of a plain line: the history step cuts it to 256
bytes. -/
theorem PlainLine.action (h : PlainLine line) (env : Env) (listing : Listing) (hist : History) :
    (evalLine env listing hist line).action =
      if lineWords (line.take VEC_CAP) = [] then .nothing
      else .dispatch (((lineWords (line.take VEC_CAP)).take MAX_TOKENS).map (·.take 127)) := by
  have hcopy := items_historyExpand_of_not_mem (h.notMem (by decide)) hist
  have htake := h.take VEC_CAP
  rw [← htake.runWords listing, evalLine]
  split
  · rename_i hnil
    rw [hnil, List.take_nil, runWords_nil]
  · show (evalText env listing hist (historyExpand hist line).1.items _).action = _
    rw [hcopy, evalText]
    split
    · rename_i hnil
      rw [hnil, runWords_nil]
    · rw [if_neg (by rw [htake.hasOp]; decide), htake.expand, List.take_take, Nat.min_self]
      simp only
      split
      · rename_i hnil
        rw [hnil, runWords_nil]
      · rfl

end

/-! ### The two paths -/

/-- Words that fit are passed on whole by the interactive evaluator. -/
theorem take_words {words : List Bytes} (hcount : words.length ≤ MAX_TOKENS)
    (hfit : ∀ w ∈ words, w.length ≤ 127) : (words.take MAX_TOKENS).map (·.take 127) = words := by
  rw [List.take_of_length_le hcount]
  conv_rhs => rw [← List.map_id words]
  exact List.map_congr_left fun w hw => List.take_of_length_le (hfit w hw)

/-- What the interactive evaluator does with the words of a line. -/
def wordsAction (words : List Bytes) : Action := if words = [] then .nothing else .dispatch words

/-- The action of a plain line whose words fit. -/
theorem PlainLine.action_of_fit {line : Bytes} (h : PlainLine line)
    (hcount : (lineWords line).length ≤ MAX_TOKENS) (hfit : ∀ w ∈ lineWords line, w.length ≤ 63)
    (env : Env) (listing : Listing) (hist : History) :
    (evalLine env listing hist line).action = wordsAction (lineWords (line.take VEC_CAP)) := by
  rcases lineWords_take line VEC_CAP with ⟨hle, hprefix⟩
  rw [h.action, take_words (Nat.le_trans hle hcount), wordsAction]
  intro w hw
  rcases hprefix w hw with ⟨v, hv, hpre⟩
  have := hpre.length_le
  have := hfit v hv
  omega

/-- Idle commands start no child. -/
theorem forked_dispatch_idle {args : List Bytes} {s s' : Shell Unit}
    (h : dispatch Commands.idle args s = some s') : s'.forked = s.forked := by
  unfold dispatch at h
  rcases args with _ | ⟨cmd, rest⟩
  · cases h
    exact s.forked_jobReap
  · simp only at h
    split at h
    · cases h
    · split at h
      · cases h
        exact s.forked_jobReap
      · cases h
        exact s.forked_jobReap

/-- The words of a line start no child. -/
theorem forked_wordsAction {words : List Bytes} {s : Shell Unit}
    (h : ((wordsAction words).perform Commands.idle (fun _ => none) (Shell.init ())).map
      Shell.jobReap = some s) : s.forked = [] := by
  rcases Option.map_eq_some_iff.mp h with ⟨s', hs', rfl⟩
  rw [Shell.forked_jobReap]
  rw [wordsAction] at hs'
  split at hs'
  · cases hs'
    rfl
  · exact forked_dispatch_idle hs'

/-- Without a final mark, the lists handed on are those of the words. -/
theorem eq_of_argLists_wordsAction {front words : List Bytes}
    (hmark : words.getLast? ≠ some ampersand)
    (h : (wordsAction front).argLists = if plainArgs words = [] then [] else [plainArgs words]) :
    front = words := by
  rw [plainArgs, if_neg hmark, wordsAction] at h
  by_cases hfront : front = []
  · rw [if_pos hfront] at h
    by_cases hwords : words = []
    · rw [hfront, hwords]
    · rw [if_neg hwords] at h
      cases h
  · rw [if_neg hfront] at h
    by_cases hwords : words = []
    · rw [if_pos hwords] at h
      cases h
    · rw [if_neg hwords] at h
      exact List.singleton_inj.mp h

/-- A line whose mark leaves nothing is the mark. -/
theorem eq_ampersand_of_plainArgs {words : List Bytes} (hmark : words.getLast? = some ampersand)
    (h : plainArgs words = []) : words = [ampersand] := by
  rw [plainArgs, if_pos hmark] at h
  rcases List.eq_nil_or_concat words with rfl | ⟨init, last, hwords⟩
  · cases hmark
  · rw [List.concat_eq_append] at hwords
    rw [hwords, List.dropLast_concat] at h
    rw [hwords, List.getLast?_concat] at hmark
    rw [hwords, h, Option.some.inj hmark]
    rfl

/-- **Where the plain path agrees with the pipeline path**: on the lines whose words stand in the
first 256 bytes, the last one not being `&`. The path of the prompt that takes words does not know
the mark of a background job, and it reads the line through the buffer of the history step. The
two disjuncts are the lines for which neither of these shows. -/
theorem sameAsPipeline_iff (env : Env) (listing : Listing) (h : History) (line : Bytes)
    (hplain : PlainLine line) (hcount : (lineWords line).length ≤ 16)
    (hfit : ∀ w ∈ lineWords line, w.length ≤ 63) :
    SameAsPipeline env listing h line ↔
      lineWords (line.take 256) = lineWords line ∧
          (lineWords line).getLast? ≠ some ampersand ∨
        lineWords (line.take 256) = [] ∧ lineWords line = [ampersand] := by
  have hop := hplain.noOperator
  have haction : (evalLine env listing h line).action = wordsAction (lineWords (line.take 256)) :=
    hplain.action_of_fit hcount hfit env listing h
  rw [SameAsPipeline, argLists_plain hop hcount hfit, haction]
  simp only [execute_plain hop hcount hfit]
  generalize lineWords line = words at *
  generalize lineWords (line.take 256) = front at *
  constructor
  · rintro ⟨hsame, hlists⟩
    by_cases hmark : words.getLast? = some ampersand
    · -- The pipeline path has taken the mark out.
      right
      by_cases hargs : plainArgs words = []
      · rw [if_pos hargs, wordsAction] at hlists
        refine ⟨?_, eq_ampersand_of_plainArgs hmark hargs⟩
        by_contra hfront
        rw [if_neg hfront] at hlists
        cases hlists
      · -- It starts a child, and the other path does not.
        have hrun := hsame Unit Commands.idle (fun _ => none) (Shell.init ())
        rw [if_neg hargs, if_pos hmark] at hrun
        have hforked := forked_wordsAction hrun
        cases hforked
    · exact Or.inl ⟨eq_of_argLists_wordsAction hmark hlists, hmark⟩
  · rintro (⟨rfl, hmark⟩ | ⟨rfl, rfl⟩)
    · -- The same words on both paths, with or without a command.
      have hargs : plainArgs front = front := if_neg hmark
      rw [hargs, wordsAction]
      by_cases hfront : front = []
      · simp only [if_pos hfront]
        exact ⟨fun _ _ _ _ => rfl, rfl⟩
      · simp only [if_neg hfront, if_neg hmark]
        exact ⟨fun _ _ _ _ => rfl, rfl⟩
    · exact ⟨fun _ _ _ _ => rfl, rfl⟩

/-- `echo a`: one command in the shell, on both paths. -/
theorem sameAsPipeline_echo_a :
    SameAsPipeline Env.init (fun _ => []) History.init (bytes "echo a") :=
  (sameAsPipeline_iff Env.init (fun _ => []) History.init (bytes "echo a")
    (by decide +kernel) (by decide +kernel) (by decide +kernel)).mpr
    (Or.inl ⟨by decide +kernel, by decide +kernel⟩)

/-- `sleep &`: the prompt passes the mark on as an argument. -/
theorem not_sameAsPipeline_sleep_mark :
    PlainLine (bytes "sleep &") ∧ lineWords (bytes "sleep &") = [bytes "sleep", bytes "&"] ∧
      ¬ SameAsPipeline Env.init (fun _ => []) History.init (bytes "sleep &") := by
  refine ⟨by decide +kernel, by decide +kernel, ?_⟩
  rintro ⟨-, hlists⟩
  revert hlists
  decide +kernel

/-! ### The words of a command -/

section
variable {ws : List Bytes}

/-- Words joined by single spaces, as the first one and what stands behind it. -/
theorem intercalate_cons (w : Bytes) (ws : List Bytes) :
    [' '.toUInt8].intercalate (w :: ws) = w ++ ws.flatMap fun v => ' '.toUInt8 :: v := by
  induction ws generalizing w with
  | nil => simp
  | cons v ws ih => rw [List.intercalate_cons_cons, ih, List.flatMap_cons]; simp

/-- Words that are passed on are separated by nothing but their spaces. -/
theorem lineWords_wordLine (hwords : ∀ w ∈ ws, IsPlainWord w) :
    lineWords (wordLine ws none) = ws := by
  rw [wordLine, List.append_nil]
  exact lineWords_intercalate fun w hw => ⟨(hwords w hw).1, (hwords w hw).2.2⟩

/-- A line of plain words is a plain line. -/
theorem plainLine_wordLine (hwords : ∀ w ∈ ws, IsPlainWord w) : PlainLine (wordLine ws none) := by
  rw [wordLine, List.append_nil]
  rcases ws with _ | ⟨w, ws⟩
  · intro b hb
    cases hb
  · rw [intercalate_cons]
    intro b hb
    rcases List.mem_append.mp hb with hb | hb
    · exact (hwords w List.mem_cons_self).2.1 b hb
    · rcases List.mem_flatMap.mp hb with ⟨v, hv, hb⟩
      rcases List.mem_cons.mp hb with rfl | hb
      · exact ⟨by decide, by decide⟩
      · exact (hwords v (List.mem_cons_of_mem _ hv)).2.1 b hb

/-- A plain word can be read back by the parser. -/
theorem IsPlainWord.isWord {w : Bytes} (h : IsPlainWord w) : IsWord w := by
  have hop := h.2.1.noOperator
  refine ⟨h.1, ?_, ?_⟩
  · intro b hb
    simp [isWordByte, h.2.2 b hb, (hop b hb).1]
  · intro b hb hcases
    have hmem := List.mem_of_mem_head? hb
    exact hcases.elim (hop b hmem).2.2 (hop b hmem).2.1

/-- The tokens of words with a redirection behind them. -/
def redirectTokens (ws : List Bytes) (target : Bytes) : List (Token Bytes) :=
  ws.map Token.word ++ [.redirect true target]

/-- Words are rendered with a blank before each. -/
theorem renderTail_words (ws : List Bytes) (ts : List (Token Bytes)) :
    renderTail (fun _ => (0, 0)) (ws.map Token.word ++ ts)
      = (ws.flatMap fun v => ' '.toUInt8 :: v) ++ renderTail (fun _ => (0, 0)) ts := by
  induction ws with
  | nil => rfl
  | cons w ws ih =>
    show spaces 0 ++ (w ++ renderTail (fun _ => (0, 0)) (ws.map Token.word ++ ts)) = _
    rw [ih, List.flatMap_cons]
    simp [spaces]

/-- The line of a command with a redirection is a rendering of its tokens. -/
theorem wordLine_eq_render (hws : ws ≠ []) (target : Bytes) :
    wordLine ws (some target) = renderTokens (fun _ => (0, 0)) (redirectTokens ws target) := by
  rcases ws with _ | ⟨w, ws⟩
  · exact absurd rfl hws
  · show [' '.toUInt8].intercalate (w :: ws) ++ (bytes " > " ++ target)
      = w ++ renderTail (fun _ => (0, 0)) (ws.map Token.word ++ [.redirect true target])
    rw [intercalate_cons, renderTail_words, List.append_assoc]
    simp [renderTail, Token.render, spaces, bytes]

/-- The argument lists of a command with a redirection, when it has room for its words. -/
theorem filter_segments_redirectTokens (hws : ws ≠ []) (hlen : ws.length ≤ MAX_ARGS_PER)
    (target : Bytes) :
    ((redirectTokens ws target).foldl Reading.step (Reading.start [])).segments.filter (· ≠ [])
      = [ws] := by
  rw [redirectTokens, List.foldl_append, Reading.start,
    Reading.foldl_segment (by decide) hws hlen, List.foldl_cons, List.foldl_nil]
  by_cases hroom : ws.length < MAX_ARGS_PER
  · rw [Reading.step_redirect hroom]
    show [ws].filter (· ≠ []) = [ws]
    rw [List.filter_cons_of_pos (by simpa using hws), List.filter_nil]
  · -- The array is full, and the redirection opens a segment without arguments.
    rw [Reading.step_close_full hroom]
    have hopen : Reading.step (Reading.close ⟨[], some ws, [], []⟩) (.redirect true target)
        = ⟨[ws], some [], target, []⟩ := rfl
    rw [hopen]
    show [ws, []].filter (· ≠ []) = [ws]
    rw [List.filter_cons_of_pos (by simpa using hws), List.filter_cons_of_neg (by simp),
      List.filter_nil]

/-- Some segment gets a word. -/
theorem exists_segment_redirectTokens (hws : ws ≠ []) (target : Bytes) :
    ∃ seg ∈ ((redirectTokens ws target).foldl Reading.step (Reading.start [])).segments,
      seg ≠ [] := by
  rcases ws with _ | ⟨w, ws⟩
  · exact absurd rfl hws
  · rw [redirectTokens, List.map_cons, List.cons_append, List.foldl_cons]
    apply Reading.foldl_nonempty
    exact ⟨[w], List.mem_cons_self, List.cons_ne_nil _ _⟩

/-- Without a redirection the words arrive when there are at most 16, of at most 127
bytes. -/
theorem argLists_words_iff (env : Env) (listing : Listing) (h : History) (hws : ws ≠ [])
    (hwords : ∀ w ∈ ws, IsPlainWord w) (hlen : (wordLine ws none).length ≤ 255) :
    (∀ args ∈ (evalLine env listing h (wordLine ws none)).action.argLists, args = ws) ↔
      ws.length ≤ 16 ∧ ∀ w ∈ ws, w.length ≤ 127 := by
  have hline : (wordLine ws none).take VEC_CAP = wordLine ws none :=
    List.take_of_length_le (Nat.le_trans hlen (by decide))
  have haction := (plainLine_wordLine hwords).action env listing h
  rw [hline, lineWords_wordLine hwords, if_neg hws] at haction
  have hlists : (evalLine env listing h (wordLine ws none)).action.argLists
      = [(ws.take MAX_TOKENS).map (·.take 127)] := by
    rw [haction]
    rfl
  rw [hlists, List.forall_mem_singleton]
  constructor
  · intro heq
    have hcount := congrArg List.length heq
    rw [List.length_map, List.length_take] at hcount
    have h16 : ws.length ≤ MAX_TOKENS := by omega
    refine ⟨h16, ?_⟩
    intro w hw
    rw [← heq] at hw
    rcases List.mem_map.mp hw with ⟨v, -, rfl⟩
    exact List.length_take_le _ _
  · rintro ⟨hcount, hfit⟩
    exact take_words hcount hfit

/-- The words of a plain command and the target behind them are tokens that the parser reads
back. -/
theorem clean_redirectTokens {target : Bytes} (hwords : ∀ w ∈ ws, IsPlainWord w)
    (htarget : IsPlainWord target) : ∀ t ∈ redirectTokens ws target, t.IsClean := by
  intro t ht
  rcases List.mem_append.mp ht with ht | ht
  · rcases List.mem_map.mp ht with ⟨w, hw, rfl⟩
    exact (hwords w hw).isWord
  · rw [List.mem_singleton.mp ht]
    exact htarget.isWord

/-- A line with a redirection goes to the parser as it stands. -/
theorem action_wordLine_redirect (env : Env) (listing : Listing) (h : History) {target : Bytes}
    (hwords : ∀ w ∈ ws, IsPlainWord w) (htarget : IsPlainWord target)
    (hlen : (wordLine ws (some target)).length ≤ 255) :
    (evalLine env listing h (wordLine ws (some target))).action
      = .pipeline (wordLine ws (some target)) (parse (wordLine ws (some target))) := by
  have hbang : '!'.toUInt8 ∉ wordLine ws (some target) := by
    intro hmem
    rcases List.mem_append.mp hmem with hmem | hmem
    · exact (plainLine_wordLine hwords).notMem (by decide) (List.mem_append_left _ hmem)
    · rcases List.mem_append.mp hmem with hmem | hmem
      · exact absurd hmem (by decide)
      · exact htarget.2.1.notMem (by decide) hmem
  have hop : hasOp (wordLine ws (some target)) = true := by
    rw [hasOp, List.any_eq_true]
    refine ⟨'>'.toUInt8, ?_, by decide⟩
    exact List.mem_append_right _ (List.mem_append_left _ (by decide))
  have hline : (wordLine ws (some target)).take (LINE_MAX - 1) = wordLine ws (some target) :=
    List.take_of_length_le hlen
  rw [action_evalLine env listing h hbang (Nat.le_trans hlen (by decide)), hop, if_pos rfl,
    runPipeline, hline]

/-- With a redirection the words arrive when there are at most 16, of at most 63 bytes. -/
theorem argLists_redirect_iff (env : Env) (listing : Listing) (h : History) (target : Bytes)
    (hws : ws ≠ []) (hwords : ∀ w ∈ ws, IsPlainWord w ∧ w ≠ ampersand)
    (htarget : IsPlainWord target) (hlen : (wordLine ws (some target)).length ≤ 255) :
    (∀ args ∈ (evalLine env listing h (wordLine ws (some target))).action.argLists, args = ws) ↔
      ws.length ≤ 16 ∧ ∀ w ∈ ws, w.length ≤ 63 := by
  have hplain : ∀ w ∈ ws, IsPlainWord w := fun w hw => (hwords w hw).1
  rw [action_wordLine_redirect env listing h hplain htarget hlen]
  -- What the parser reads, in bytes.
  have hread := argBytes_finish
    (@lex_renderTokens (fun _ => (0, 0)) _ (clean_redirectTokens hplain htarget))
  rw [← wordLine_eq_render hws] at hread
  have hholds : Reading.Holds (· ∈ ws)
      ((redirectTokens ws target).foldl Reading.step (Reading.start [])).segments := by
    apply Reading.foldl_holds
    · intro seg hseg
      cases hseg
    · intro w hw
      rcases List.mem_append.mp hw with hw | hw
      · rcases List.mem_map.mp hw with ⟨v, hv, heq⟩
        cases heq
        exact hv
      · cases List.mem_singleton.mp hw
  have hlists := argLists_of_segments hread fun seg hseg hmark =>
    (hwords _ ((hholds seg hseg).2 _ hmark)).2 rfl
  constructor
  · intro hall
    -- Some list is handed on, and no list is over the bounds.
    have hsome : ∃ args, args ∈ (Action.pipeline (wordLine ws (some target))
        (parse (wordLine ws (some target)))).argLists := by
      rcases exists_segment_redirectTokens hws target with ⟨seg, hseg, hne⟩
      rw [hlists]
      exact ⟨_, List.mem_map_of_mem (List.mem_filter.mpr ⟨hseg, by simpa using hne⟩)⟩
    rcases hsome with ⟨args, hargs⟩
    have hbound := length_le_of_mem_argLists hargs
    rw [hall args hargs] at hbound
    exact hbound
  · rintro ⟨hcount, hfit⟩
    rw [hlists, filter_segments_redirectTokens hws hcount]
    rw [List.map_singleton, List.forall_mem_singleton]
    conv_rhs => rw [← List.map_id ws]
    exact List.map_congr_left fun w hw => List.take_of_length_le (hfit w hw)

/-- **Where the words of a command arrive whole**: there are at most 16 of them, and each has at
most 127 bytes, or 63 beside a redirection. The two bounds on a word belong to the two paths of a
line: the vector of a glob entry without a redirection, the row of an argument with one. Without a
bound a word is cut and the command runs all the same. -/
theorem argLists_wordLine_iff (env : Env) (listing : Listing) (h : History) (ws : List Bytes)
    (target : Option Bytes) (hws : ws ≠ []) (hwords : ∀ w ∈ ws, IsPlainWord w ∧ w ≠ ampersand)
    (htarget : ∀ t ∈ target, IsPlainWord t) (hlen : (wordLine ws target).length ≤ 255) :
    (∀ args ∈ (evalLine env listing h (wordLine ws target)).action.argLists, args = ws) ↔
      ws.length ≤ 16 ∧ ∀ w ∈ ws, w.length ≤ if target.isSome then 63 else 127 := by
  cases target with
  | none => exact argLists_words_iff env listing h hws (fun w hw => (hwords w hw).1) hlen
  | some t => exact argLists_redirect_iff env listing h t hws hwords (htarget t rfl) hlen

/-- `rm a > f`: the command gets its two words. -/
theorem argLists_rm_a_f :
    (evalLine Env.init (fun _ => []) History.init (bytes "rm a > f")).action.argLists.all
      (fun args => decide (args = [bytes "rm", bytes "a"])) = true := by
  rw [List.all_eq_true]
  intro args hargs
  apply decide_eq_true
  exact (argLists_wordLine_iff Env.init (fun _ => []) History.init [bytes "rm", bytes "a"]
    (some (bytes "f")) (by decide +kernel) (by decide +kernel) (by decide +kernel)
    (by decide +kernel)).mpr ⟨by decide +kernel, by decide +kernel⟩ args hargs

/-- `rm` of a name of 64 bytes, redirected, gets the first 63 bytes of the name. -/
theorem not_argLists_long_name :
    ¬ ∀ (ws : List Bytes) (target : Option Bytes), ws ≠ [] →
      (∀ w ∈ ws, IsPlainWord w ∧ w ≠ ampersand) → (∀ t ∈ target, IsPlainWord t) →
      (wordLine ws target).length ≤ 255 →
      ∀ args ∈ (evalLine Env.init (fun _ => []) History.init (wordLine ws target)).action.argLists,
        args = ws := by
  intro h
  have hcut := h [bytes "rm", List.replicate 64 'a'.toUInt8] (some (bytes "f")) (by decide +kernel)
    (by decide +kernel) (by decide +kernel) (by decide +kernel)
    [bytes "rm", List.replicate 63 'a'.toUInt8] (by decide +kernel)
  exact absurd hcut (by decide +kernel)

end

end OnyxShell
