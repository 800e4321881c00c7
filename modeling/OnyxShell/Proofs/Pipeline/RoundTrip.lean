import OnyxShell.Pipeline.Render
import OnyxShell.Proofs.Pipeline.Parse

/-!
# `OnyxShell.Proofs.Pipeline.RoundTrip`: parsing a rendered command line

`parse_render` is the round trip. It goes over tokens: `lex_renderTokens` reads the
tokens back from a rendering, with their bytes in place of their spans, and
`foldl_commandLine` runs the automaton over them. `foldl_map` connects the two, because
the automaton never looks at what a word is.
-/

set_option autoImplicit false

namespace OnyxShell

open Scan (scanWhile le_scanWhile scanWhile_append)

variable {α β : Type}

/-! ### Spans and bytes -/

namespace Reading

/-- The reading over spans and the reading over their bytes take the same steps. This is so of the
last close. -/
theorem map_close (f : α → β) (r : Reading α) : r.close.map f = (r.map f).close := by
  unfold close map
  cases h : r.current <;> simp [h]

/-- The close of a full segment. -/
theorem map_closeFull (f : α → β) (r : Reading α) : r.closeFull.map f = (r.map f).closeFull := by
  cases h : r.current with
  | none => simp [closeFull, map, h]
  | some args =>
    by_cases hlt : args.length < MAX_ARGS_PER
    · simp [closeFull, map, h, hlt]
    · simp [closeFull, close, map, h, hlt]

/-- The opening of a segment. -/
theorem map_openSegment (f : α → β) (r : Reading α) :
    r.openSegment.map f = (r.map f).openSegment := by
  unfold openSegment
  cases h : r.current with
  | some args => simp [map, h]
  | none =>
    simp only [map, h, Option.map_none, List.length_map]
    split <;> simp [h]

/-- The automaton does not look at the words. -/
theorem map_step (f : α → β) (r : Reading α) (t : Token α) :
    (r.step t).map f = (r.map f).step (t.map f) := by
  cases t with
  | pipe => exact map_close f r
  | word a =>
    simp only [step, Token.map, ← map_closeFull, ← map_openSegment]
    unfold addWord
    cases h : r.closeFull.openSegment.current <;> simp [map, h]
  | redirect out a =>
    simp only [step, Token.map, ← map_closeFull, ← map_openSegment]
    unfold addRedirect
    cases h : r.closeFull.openSegment.current <;> cases out <;> simp [map, h]

/-- All steps, by induction on the tokens. It lets the round trip be shown over bytes, where no
position occurs. -/
theorem foldl_map (f : α → β) (r : Reading α) (ts : List (Token α)) :
    (ts.foldl step r).map f = (ts.map (Token.map f)).foldl step (r.map f) := by
  induction ts generalizing r with
  | nil => rfl
  | cons t ts ih => rw [List.foldl_cons, ih, map_step, List.map_cons, List.foldl_cons]

end Reading

/-! ### Reading a rendering -/

/-- What may follow a token: nothing, or a space. -/
def StartsBlank (tail : Bytes) : Prop := ∀ b, tail.head? = some b → b = ' '.toUInt8

/-- What follows a token in a rendering is empty or begins with a blank, so that a word ends
there. -/
theorem startsBlank_renderTail (gaps : Nat → Nat × Nat) (ts : List (Token Bytes)) :
    StartsBlank (renderTail gaps ts) := by
  cases ts with
  | nil => simp [StartsBlank, renderTail]
  | cons t ts => simp [StartsBlank, renderTail, spaces, List.replicate_succ]

/-- The bytes of a word that can be read back. -/
def IsWord (w : Bytes) : Prop :=
  w ≠ [] ∧ (∀ b ∈ w, isWordByte b = true) ∧
    ∀ b, w.head? = some b → ¬ (b = '>'.toUInt8 ∨ b = '<'.toUInt8)

/-- A token whose word, if any, can be read back. -/
def Token.IsClean : Token Bytes → Prop
  | .pipe => True
  | .word w => IsWord w
  | .redirect _ w => IsWord w

/-- The scan over a word stops at its end. -/
theorem scanWhile_word {pre w tail : Bytes} (hw : IsWord w) (ht : StartsBlank tail) :
    scanWhile isWordByte (pre ++ w ++ tail) pre.length = pre.length + w.length :=
  scanWhile_append _ _ _ _ hw.2.1 fun b hb => by rw [ht b hb]; rfl

/-- The scan over spaces stops at the next byte. -/
theorem scanWhile_spaces {pre post : Bytes} (n : Nat)
    (h : ∀ b, post.head? = some b → isWhitespace b = false) :
    scanWhile isWhitespace (pre ++ List.replicate n ' '.toUInt8 ++ post) pre.length
      = pre.length + n := by
  have := scanWhile_append isWhitespace pre (List.replicate n ' '.toUInt8) post
    (fun b hb => by rw [List.eq_of_mem_replicate hb]; rfl) h
  rwa [List.length_replicate] at this

/-- The first byte of a word is not whitespace. -/
theorem IsWord.head {w post : Bytes} (hw : IsWord w) {b : UInt8} (hb : (w ++ post).head? = some b) :
    b ∈ w ∧ isWhitespace b = false ∧ b ≠ '|'.toUInt8 ∧ ¬ (b = '>'.toUInt8 ∨ b = '<'.toUInt8) := by
  obtain ⟨c, w, rfl⟩ : ∃ c w', w = c :: w' := List.exists_cons_of_ne_nil hw.1
  obtain rfl : c = b := by simpa using hb
  have h1 := hw.2.1 c (by simp)
  simp only [isWordByte, Bool.and_eq_true, Bool.not_eq_true', bne_iff_ne] at h1
  exact ⟨by simp, h1.1, h1.2, hw.2.2 c rfl⟩

/-- A rendered token does not begin with whitespace. -/
theorem head_render {t : Token Bytes} (ht : t.IsClean) {gap : Nat} {tail : Bytes} {b : UInt8}
    (hb : (t.render gap ++ tail).head? = some b) : isWhitespace b = false := by
  cases t with
  | pipe =>
    cases hb
    rfl
  | word w => exact (IsWord.head ht hb).2.1
  | redirect out w =>
    obtain rfl : (if out then '>'.toUInt8 else '<'.toUInt8) = b := by simpa [Token.render] using hb
    cases out <;> rfl

/-- What a span of the line stands for: its bytes, and how many there are. -/
def Span.read (line : Bytes) (s : Span) : Bytes × Nat := (Span.of line s, s.2)

/-- A word with its length. -/
def measured (w : Bytes) : Bytes × Nat := (w, w.length)

/-- A word between two parts of a line is read back by its span. -/
theorem read_of_append (pre w post : Bytes) :
    Span.read (pre ++ w ++ post) (pre.length, w.length) = measured w := by
  simp [Span.read, Span.of, measured]

/-- One rendered token is read back. -/
theorem tokenAt_render (pre : Bytes) {tail : Bytes} {t : Token Bytes} (ht : t.IsClean) (gap : Nat)
    (htail : StartsBlank tail) :
    ∃ t', tokenAt (pre ++ t.render gap ++ tail) pre.length
        = some (t', pre.length + (t.render gap).length) ∧
      t'.map (Span.read (pre ++ t.render gap ++ tail)) = t.map measured := by
  have hhead : (pre ++ t.render gap ++ tail)[pre.length]? = (t.render gap ++ tail).head? := by
    rw [List.append_assoc, List.getElem?_append_right (Nat.le_refl _), Nat.sub_self,
      List.head?_eq_getElem?]
  cases t with
  | pipe => exact ⟨.pipe, tokenAt_pipe hhead, rfl⟩
  | word w =>
    obtain ⟨b, hb⟩ : ∃ b, (w ++ tail).head? = some b := by
      obtain ⟨c, w', rfl⟩ := List.exists_cons_of_ne_nil ht.1
      exact ⟨c, rfl⟩
    obtain ⟨-, -, hpipe, hop⟩ := IsWord.head ht hb
    refine ⟨_, tokenAt_word (hhead.trans hb) hpipe hop (scanWhile_word ht htail), ?_⟩
    rw [Token.map, Nat.add_sub_cancel_left, Token.render, read_of_append]
    rfl
  | redirect out w =>
    have hop : (if out then '>'.toUInt8 else '<'.toUInt8) = '>'.toUInt8 ∨
        (if out then '>'.toUInt8 else '<'.toUInt8) = '<'.toUInt8 := by cases out <;> simp
    have hdir : decide ((if out then '>'.toUInt8 else '<'.toUInt8) = '>'.toUInt8) = out := by
      cases out <;> decide
    -- The line as the operator, the spaces behind it, the target, and the rest.
    generalize hb : (if out then '>'.toUInt8 else '<'.toUInt8) = b at hop hdir
    have hline : pre ++ Token.render gap (.redirect out w) ++ tail
        = (pre ++ [b]) ++ spaces gap ++ (w ++ tail) := by simp [Token.render, hb]
    have hline' : pre ++ Token.render gap (.redirect out w) ++ tail
        = (pre ++ [b] ++ spaces gap) ++ w ++ tail := by simp [Token.render, hb]
    have hlen : (pre ++ [b] ++ spaces gap).length = (pre ++ [b]).length + (gap + 1) := by
      rw [List.length_append, spaces, List.length_replicate]
    have hstart : scanWhile isWhitespace (pre ++ Token.render gap (.redirect out w) ++ tail)
        (pre.length + 1) = (pre ++ [b] ++ spaces gap).length := by
      rw [hline, hlen, ← scanWhile_spaces (gap + 1) fun c hc => (IsWord.head ht hc).2.1,
        List.length_append, List.length_singleton, spaces]
    have hstop : scanWhile isWordByte (pre ++ Token.render gap (.redirect out w) ++ tail)
        (pre ++ [b] ++ spaces gap).length = (pre ++ [b] ++ spaces gap).length + w.length := by
      rw [hline']
      exact scanWhile_word ht htail
    have hend : pre.length + (Token.render gap (.redirect out w)).length
        = (pre ++ [b] ++ spaces gap).length + w.length := by
      rw [hlen, Token.render, hb]
      simp [spaces]
      omega
    refine ⟨.redirect out ((pre ++ [b] ++ spaces gap).length, w.length), ?_, ?_⟩
    · rw [tokenAt_redirect (hhead.trans (by simp [Token.render, hb])) hop hstart hstop, hdir, hend,
        Nat.add_sub_cancel_left]
    · rw [Token.map, hline', read_of_append]
      rfl

/-- The tokens of a rendering, from behind any prefix on, are the tokens rendered. -/
theorem lexFrom_renderTail {pre : Bytes} {gaps : Nat → Nat × Nat} {ts : List (Token Bytes)}
    (hts : ∀ t ∈ ts, t.IsClean) :
    (lexFrom (pre ++ renderTail gaps ts) pre.length).map
        (Token.map (Span.read (pre ++ renderTail gaps ts)))
      = ts.map (Token.map measured) := by
  induction ts generalizing pre gaps with
  | nil =>
    rw [lexFrom_of_length_le (by simp [renderTail])]
    rfl
  | cons t ts ih =>
    simp only [renderTail]
    have hline : pre ++ (spaces (gaps 0).1 ++ (t.render (gaps 0).2 ++
          renderTail (fun n => gaps (n + 1)) ts))
        = (pre ++ spaces (gaps 0).1) ++ t.render (gaps 0).2 ++
          renderTail (fun n => gaps (n + 1)) ts := by simp
    rw [hline]
    obtain ⟨t', htok, hread⟩ := tokenAt_render (pre ++ spaces (gaps 0).1)
      (hts t List.mem_cons_self) (gaps 0).2 (startsBlank_renderTail (fun n => gaps (n + 1)) ts)
    have hskip : scanWhile isWhitespace ((pre ++ spaces (gaps 0).1) ++ t.render (gaps 0).2 ++
        renderTail (fun n => gaps (n + 1)) ts) pre.length = (pre ++ spaces (gaps 0).1).length := by
      rw [List.append_assoc, spaces, scanWhile_spaces, List.length_append, List.length_replicate]
      intro b hb
      exact head_render (hts t List.mem_cons_self) hb
    rw [lexFrom_cons (by rw [hskip]; exact htok), List.map_cons, List.map_cons, hread,
      ← List.length_append, ih fun u hu => hts u (List.mem_cons_of_mem _ hu)]

/-- The tokens of a rendered line. -/
theorem lex_renderTokens {gaps : Nat → Nat × Nat} {ts : List (Token Bytes)}
    (hts : ∀ t ∈ ts, t.IsClean) :
    (lex (renderTokens gaps ts)).map (Token.map (Span.read (renderTokens gaps ts)))
      = ts.map (Token.map measured) := by
  cases ts with
  | nil =>
    rw [lex, lexFrom_of_length_le (by simp [renderTokens])]
    rfl
  | cons t ts =>
    obtain ⟨t', htok, hread⟩ := tokenAt_render [] (hts t List.mem_cons_self) (gaps 0).2
      (startsBlank_renderTail (fun n => gaps (n + 1)) ts)
    simp only [List.nil_append, List.length_nil, Nat.zero_add] at htok hread
    have hskip : scanWhile isWhitespace (t.render (gaps 0).2 ++
        renderTail (fun n => gaps (n + 1)) ts) 0 = 0 :=
      Scan.scanWhile_of_not _ _ _ fun b hb =>
        head_render (hts t List.mem_cons_self) (by rwa [List.head?_eq_getElem?])
    rw [lex, renderTokens, lexFrom_cons (by rw [hskip]; exact htok), List.map_cons, List.map_cons,
      hread, lexFrom_renderTail fun u hu => hts u (List.mem_cons_of_mem _ hu)]

/-! ### Running the automaton over a command line -/

/-- The words of a command line can be read back. -/
theorem Word.isWord (w : Word) : IsWord w.bytes := ⟨w.ne_nil, w.word_bytes, w.not_operator⟩

/-- The mark of a background pipeline is a word like any other. -/
theorem isWord_ampersand : IsWord ampersand := by
  have hbytes : ampersand = ['&'.toUInt8] := rfl
  rw [hbytes]
  refine ⟨List.cons_ne_nil _ _, fun b hb => ?_, fun b hb => ?_⟩
  · rw [List.mem_singleton.mp hb]
    rfl
  · cases hb
    decide

/-- The words of segments are the only words among their tokens. -/
theorem isClean_segmentTokens {segs : List (List Bytes)} (h : ∀ ws ∈ segs, ∀ w ∈ ws, IsWord w) :
    ∀ t ∈ segmentTokens segs, t.IsClean := by
  fun_induction segmentTokens segs with
  | case1 => simp
  | case2 ws => simpa [Token.IsClean] using h
  | case3 ws rest _ ih =>
    intro t ht
    rcases List.mem_append.mp ht with ht | ht
    · obtain ⟨w, hw, rfl⟩ := List.mem_map.mp ht
      exact h ws List.mem_cons_self w hw
    · rcases List.mem_cons.mp ht with rfl | ht
      · trivial
      · exact ih (fun ws' h' => h ws' (List.mem_cons_of_mem _ h')) t ht

/-- The tokens behind the words are ones that the parser reads back: the targets are words, and
the mark is one. -/
theorem isClean_suffixTokens {out inp : Option Word} {bg : Bool} :
    ∀ t ∈ suffixTokens out inp bg, t.IsClean := by
  cases out <;> cases inp <;> cases bg <;>
    simp [suffixTokens, Token.IsClean, Word.isWord, isWord_ampersand]

/-- The tokens of a command line can be read back. -/
theorem CommandLine.isClean_tokens (c : CommandLine) : ∀ t ∈ c.tokens, t.IsClean := by
  intro t ht
  rcases List.mem_append.mp ht with ht | ht
  · refine isClean_segmentTokens (fun ws hws w hw => ?_) t ht
    obtain ⟨ws', -, rfl⟩ := List.mem_map.mp hws
    obtain ⟨w', -, rfl⟩ := List.mem_map.mp hw
    exact w'.isWord
  · exact isClean_suffixTokens t ht

namespace Reading

/-- Words go to the open segment as long as it has room. -/
theorem foldl_words {done : List (List α)} {args ws : List α} {o i : α}
    (h : args.length + ws.length ≤ MAX_ARGS_PER) :
    (ws.map Token.word).foldl step ⟨done, some args, o, i⟩ = ⟨done, some (args ++ ws), o, i⟩ := by
  induction ws generalizing args with
  | nil => simp
  | cons w ws ih =>
    rw [List.length_cons] at h
    rw [List.map_cons, List.foldl_cons, step_word (by omega), ih (by simp; omega)]
    simp

/-- The words of a segment open it. -/
theorem foldl_segment {done : List (List α)} {ws : List α} {o i : α}
    (hdone : done.length < MAX_SEGMENTS) (hne : ws ≠ []) (hlen : ws.length ≤ MAX_ARGS_PER) :
    (ws.map Token.word).foldl step ⟨done, none, o, i⟩ = ⟨done, some ws, o, i⟩ := by
  have hopen : (ws.map Token.word).foldl step ⟨done, none, o, i⟩
      = (ws.map Token.word).foldl step ⟨done, some [], o, i⟩ := by
    obtain ⟨w, ws, rfl⟩ := List.exists_cons_of_ne_nil hne
    rw [List.map_cons, List.foldl_cons, List.foldl_cons, step_open hdone (by simp)]
  rw [hopen, foldl_words (by simpa using hlen), List.nil_append]

/-- The segments of a command line are read one by one, and the last one stays open. -/
theorem foldl_segmentTokens {done init : List (List α)} {last : List α} {o i : α}
    (hlen : done.length + (init.length + 1) ≤ MAX_SEGMENTS) (hne : ∀ ws ∈ init ++ [last], ws ≠ [])
    (hle : ∀ ws ∈ init ++ [last], ws.length ≤ MAX_ARGS_PER) :
    (segmentTokens (init ++ [last])).foldl step ⟨done, none, o, i⟩
      = ⟨done ++ init, some last, o, i⟩ := by
  induction init generalizing done with
  | nil =>
    rw [List.nil_append, List.append_nil, segmentTokens]
    exact foldl_segment (by simp at hlen; omega) (hne _ (by simp)) (hle _ (by simp))
  | cons ws init ih =>
    rw [List.length_cons] at hlen
    have htokens : segmentTokens (ws :: init ++ [last])
        = ws.map .word ++ .pipe :: segmentTokens (init ++ [last]) := by
      cases init <;> rfl
    have hclose : step ⟨done, some ws, o, i⟩ .pipe = ⟨done ++ [ws], none, o, i⟩ := rfl
    rw [htokens, List.foldl_append, foldl_segment (by omega) (hne _ (by simp)) (hle _ (by simp)),
      List.foldl_cons, hclose, ih (by simp; omega), List.append_assoc, List.singleton_append]
    · intro ws' h
      exact hne ws' (by simp at h ⊢; tauto)
    · intro ws' h
      exact hle ws' (by simp at h ⊢; tauto)

/-- What follows the words sets the redirections, and the mark is one more word. -/
theorem foldl_suffixTokens {done : List (List Bytes)} {last : List Bytes} {out inp : Option Word}
    {bg : Bool} (h : out.isSome ∨ inp.isSome ∨ bg = true → last.length < MAX_ARGS_PER) :
    (suffixTokens out inp bg).foldl step ⟨done, some last, [], []⟩
      = ⟨done, some (last ++ if bg then [ampersand] else []), targetBytes out, targetBytes inp⟩ := by
  cases out <;> cases inp <;> cases bg <;>
    simp_all [suffixTokens, step_redirect, step_word, targetBytes]

end Reading

/-- The reading of a command line's tokens. -/
theorem foldl_commandLine (c : CommandLine) : ∃ init last,
    c.segments.map (·.map Word.bytes) = init ++ [last] ∧ last.getLast? ≠ some ampersand ∧
      c.tokens.foldl Reading.step (Reading.start [])
        = ⟨init, some (last ++ if c.background then [ampersand] else []), targetBytes c.out,
            targetBytes c.inp⟩ := by
  obtain ⟨init, last, hsegs⟩ : ∃ init last, c.segments = init ++ [last] :=
    ⟨_, _, (List.dropLast_append_getLast c.segments_ne_nil).symm⟩
  have hlen := c.segments_le
  rw [hsegs, List.length_append, List.length_singleton] at hlen
  refine ⟨init.map (·.map Word.bytes), last.map Word.bytes, by simp [hsegs], ?_, ?_⟩
  · intro h
    rw [List.getLast?_map, Option.map_eq_some_iff] at h
    obtain ⟨w, hw, hbytes⟩ := h
    exact c.last_ne_mark last w (by simp [hsegs]) hw hbytes
  · -- The segments, then the redirections and the mark behind the last of them.
    have hwords : ∀ ws ∈ init.map (·.map Word.bytes) ++ [last.map Word.bytes],
        ∃ ws' ∈ c.segments, ws = ws'.map Word.bytes := by
      intro ws h
      have hmap : init.map (·.map Word.bytes) ++ [last.map Word.bytes]
          = c.segments.map (·.map Word.bytes) := by simp [hsegs]
      rw [hmap, List.mem_map] at h
      obtain ⟨ws', hmem, hws⟩ := h
      exact ⟨ws', hmem, hws.symm⟩
    rw [CommandLine.tokens, hsegs, List.map_append, List.map_singleton, List.foldl_append,
      Reading.start, Reading.foldl_segmentTokens (by simpa using hlen), List.nil_append,
      Reading.foldl_suffixTokens]
    · intro h
      simpa using c.room h last (by simp [hsegs])
    · intro ws h
      obtain ⟨ws', hmem, rfl⟩ := hwords ws h
      simpa using c.words_ne_nil ws' hmem
    · intro ws h
      obtain ⟨ws', hmem, rfl⟩ := hwords ws h
      simpa using c.words_le ws' hmem

/-! ### The background mark -/

/-- The argument bytes of a pipeline, segment by segment. -/
def Pipeline.argBytes (line : Bytes) (p : Pipeline) : List (List Bytes) :=
  p.segments.map (·.map (Span.of line))

/-- A last argument that is not the mark leaves the pipeline as it is. -/
theorem markBackground_of_ne {line : Bytes} {p : Pipeline} {init : List (List Bytes)}
    {last : List Bytes} (h : p.argBytes line = init ++ [last]) (hne : last.getLast? ≠ some ampersand) :
    markBackground line p = p := by
  obtain ⟨init', last', hsegs, -, hlast⟩ := List.map_eq_append_iff.mp h
  obtain ⟨seg, rfl, rfl⟩ := List.map_eq_singleton_iff.mp hlast
  rw [markBackground]
  simp only [hsegs, List.getLast?_append, List.getLast?_singleton, Option.some_or]
  cases hseg : seg.getLast? with
  | none => rfl
  | some a =>
    rw [List.getLast?_map, hseg] at hne
    exact if_neg fun h => hne (by simp [h])

/-- A last argument that is the mark is taken out. -/
theorem markBackground_of_eq {line : Bytes} {p : Pipeline} {init : List (List Bytes)}
    {last : List Bytes} (h : p.argBytes line = init ++ [last ++ [ampersand]]) :
    (markBackground line p).argBytes line = init ++ [last] ∧
      (markBackground line p).background = true ∧
      (markBackground line p).stdoutFile = p.stdoutFile ∧
      (markBackground line p).stdinFile = p.stdinFile := by
  obtain ⟨init', last', hsegs, rfl, hlast⟩ := List.map_eq_append_iff.mp h
  obtain ⟨seg, rfl, hseg⟩ := List.map_eq_singleton_iff.mp hlast
  obtain ⟨args, mark, rfl, rfl, hmark⟩ := List.map_eq_append_iff.mp hseg
  obtain ⟨a, rfl, ha⟩ := List.map_eq_singleton_iff.mp hmark
  rw [markBackground]
  simp [hsegs, ha, Pipeline.argBytes]

/-- The argument bytes of a finished reading whose last segment is still open. -/
theorem argBytes_of_map {line : Bytes} {r : Reading Span} {init : List (List Bytes)}
    {last : List Bytes} {o i : Bytes}
    (h : r.map (Span.read line) = (⟨init, some last, o, i⟩ : Reading Bytes).map measured) :
    r.current.isSome ∧ r.finish.argBytes line = init ++ [last] := by
  -- Only the bytes matter here, not the lengths.
  have hdone := congrArg (List.map (List.map Prod.fst)) (congrArg Reading.done h)
  have hcurrent := congrArg (Option.map (List.map Prod.fst)) (congrArg Reading.current h)
  cases hc : r.current with
  | none => simp [Reading.map, hc] at hcurrent
  | some args =>
    simp [Reading.map, hc, Function.comp_def, Span.read, measured] at hcurrent hdone
    refine ⟨rfl, ?_⟩
    simpa [Reading.finish, Reading.close, hc, Pipeline.argBytes] using ⟨hdone, hcurrent⟩

/-- **The round trip**: a command line within the bounds, written with any spaces, is parsed into
its own segments, targets and background mark. The bounds of the parser's arrays are fields of
`CommandLine`, so that nothing else is assumed. The tokens of the rendering are those of the
command line (`lex_renderTokens`), and as the parser is a fold over tokens, the spaces are gone
from there on. -/
theorem parse_render (c : CommandLine) (gaps : Nat → Nat × Nat) :
    (parse (c.render gaps)).argBytes (c.render gaps) = c.segments.map (·.map Word.bytes) ∧
      (Span.of (c.render gaps) (parse (c.render gaps)).stdoutFile = targetBytes c.out ∧
        (parse (c.render gaps)).stdoutFile.2 = (targetBytes c.out).length) ∧
      (Span.of (c.render gaps) (parse (c.render gaps)).stdinFile = targetBytes c.inp ∧
        (parse (c.render gaps)).stdinFile.2 = (targetBytes c.inp).length) ∧
      (parse (c.render gaps)).background = c.background := by
  obtain ⟨init, last, hsegs, hlast, hfold⟩ := foldl_commandLine c
  -- The reading of the line, with spans replaced by what they stand for.
  have hread : (readLine (c.render gaps)).map (Span.read (c.render gaps))
      = (c.tokens.foldl Reading.step (Reading.start [])).map measured := by
    rw [readLine, Reading.foldl_map, CommandLine.render, lex_renderTokens (c.isClean_tokens),
      Reading.foldl_map]
    rfl
  rw [hfold] at hread
  obtain ⟨hsome, hbytes⟩ := argBytes_of_map hread
  obtain ⟨args, hcurrent⟩ := Option.isSome_iff_exists.mp hsome
  have hout := congrArg Reading.stdoutFile hread
  have hinp := congrArg Reading.stdinFile hread
  simp only [Reading.map, Span.read, measured, Prod.mk.injEq] at hout hinp
  have hkeep : (readLine (c.render gaps)).finish.stdoutFile = (readLine (c.render gaps)).stdoutFile ∧
      (readLine (c.render gaps)).finish.stdinFile = (readLine (c.render gaps)).stdinFile := by
    simp [Reading.finish, Reading.close, hcurrent]
  rw [parse_eq, hsegs]
  cases hbg : c.background with
  | false =>
    rw [hbg, if_neg (by simp), List.append_nil] at hbytes
    rw [markBackground_of_ne hbytes hlast, hkeep.1, hkeep.2]
    exact ⟨hbytes, hout, hinp, rfl⟩
  | true =>
    rw [hbg, if_pos rfl] at hbytes
    obtain ⟨hmark, hset, ho, hi⟩ := markBackground_of_eq hbytes
    rw [ho, hi, hkeep.1, hkeep.2]
    exact ⟨hmark, hout, hinp, hset⟩

/-- `cat a | wc > b &`. -/
def catLine : CommandLine where
  segments := [[.ofBytes (bytes "cat") (by decide), .ofBytes (bytes "a") (by decide)],
    [.ofBytes (bytes "wc") (by decide)]]
  out := some (.ofBytes (bytes "b") (by decide))
  inp := none
  background := true
  segments_ne_nil := nofun
  segments_le := by decide
  words_ne_nil := by simp
  words_le := by simp [MAX_ARGS_PER]
  room := by simp [MAX_ARGS_PER]
  last_ne_mark := by
    rintro ws w hws hw
    cases hws
    cases hw
    decide

/-- `cat a | wc > b &` is read back: two segments with their words, the output target and the
mark. -/
theorem parse_render_cat :
    (parse (bytes "cat a | wc > b &")).argBytes (bytes "cat a | wc > b &")
        = [[bytes "cat", bytes "a"], [bytes "wc"]] ∧
      Span.of (bytes "cat a | wc > b &") (parse (bytes "cat a | wc > b &")).stdoutFile = bytes "b" ∧
      (parse (bytes "cat a | wc > b &")).background = true := by
  have hline : catLine.render (fun _ => (0, 0)) = bytes "cat a | wc > b &" := by decide +kernel
  have hround := parse_render catLine fun _ => (0, 0)
  rw [hline] at hround
  exact ⟨hround.1, hround.2.1.1, hround.2.2.2⟩

end OnyxShell
