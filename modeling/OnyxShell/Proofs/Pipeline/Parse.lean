import OnyxShell.Pipeline.Tokens

/-!
# `OnyxShell.Proofs.Pipeline.Parse`: the parser is the token automaton

`parse_eq` is the bridge between the index loops of the source and the tokens of the
line: `parse` reads the tokens one after the other with `Reading.step`. It holds for
every line, so a fact about `parse` is a fact about a fold over tokens.

The two loops are the two lemmas under it. `parseSegment_read` says that the segment
loop, started where a segment is open, leaves the rest of the line to be read with the
segment complete. `parseLoop_read` chains it over the segments.
-/

set_option autoImplicit false

namespace OnyxShell

open Scan (scanWhile le_scanWhile lt_scanWhile scanWhile_scanWhile)

/-! ### Lexing -/

/-- The first token from `i` on, and the tokens behind it. -/
theorem lexFrom_eq (line : Bytes) (i : Nat) :
    lexFrom line i = match tokenAt line (scanWhile isWhitespace line i) with
      | none => []
      | some (t, k) => t :: lexFrom line k := by
  rw [lexFrom]
  split <;> simp_all

/-- Where no token follows the whitespace, the tokeniser is done. -/
theorem lexFrom_nil {line : Bytes} {i : Nat}
    (h : tokenAt line (scanWhile isWhitespace line i) = none) : lexFrom line i = [] := by
  rw [lexFrom_eq, h]

/-- A token and what the tokeniser makes of the rest. With `lexFrom_nil` it is the tokeniser's
loop, one turn at a time. -/
theorem lexFrom_cons {line : Bytes} {i k : Nat} {t : Token Span}
    (h : tokenAt line (scanWhile isWhitespace line i) = some (t, k)) :
    lexFrom line i = t :: lexFrom line k := by
  rw [lexFrom_eq, h]

/-- At the end of the line there is no token. -/
theorem tokenAt_end {line : Bytes} {j : Nat} (h : (line)[j]? = none) : tokenAt line j = none := by
  simp only [tokenAt, h]

/-- A pipe is one byte. -/
theorem tokenAt_pipe {line : Bytes} {j : Nat} (h : (line)[j]? = some '|'.toUInt8) :
    tokenAt line j = some (.pipe, j + 1) := by
  simp only [tokenAt, h, if_true]

/-- A redirection operator and its target, which may be empty. -/
theorem tokenAt_redirect {line : Bytes} {j start stop : Nat} {b : UInt8} (h : (line)[j]? = some b)
    (hop : b = '>'.toUInt8 ∨ b = '<'.toUInt8)
    (hstart : scanWhile isWhitespace line (j + 1) = start)
    (hstop : scanWhile isWordByte line start = stop) :
    tokenAt line j = some (.redirect (b = '>'.toUInt8) (start, stop - start), stop) := by
  have hne : b ≠ '|'.toUInt8 := by rcases hop with rfl | rfl <;> decide
  simp only [tokenAt, h, if_neg hne, if_pos hop, hstart, hstop]

/-- A byte that is no operator begins a word, which goes up to the next byte that is not a
word's. -/
theorem tokenAt_word {line : Bytes} {j stop : Nat} {b : UInt8} (h : (line)[j]? = some b)
    (hne : b ≠ '|'.toUInt8) (hop : ¬ (b = '>'.toUInt8 ∨ b = '<'.toUInt8))
    (hstop : scanWhile isWordByte line j = stop) :
    tokenAt line j = some (.word (j, stop - j), stop) := by
  simp only [tokenAt, h, if_neg hne, if_neg hop, hstop]

/-- At every byte of the line begins a token. -/
theorem tokenAt_isSome {line : Bytes} {j : Nat} {b : UInt8} (h : (line)[j]? = some b) :
    ∃ t k, tokenAt line j = some (t, k) := by
  by_cases hpipe : b = '|'.toUInt8
  · exact ⟨_, _, tokenAt_pipe (hpipe ▸ h)⟩
  · by_cases hop : b = '>'.toUInt8 ∨ b = '<'.toUInt8
    · exact ⟨_, _, tokenAt_redirect h hop rfl rfl⟩
    · exact ⟨_, _, tokenAt_word h hpipe hop rfl⟩

/-- What begins at an index: a pipe, a redirection or a word. -/
theorem tokenAt_cases {line : Bytes} {j k : Nat} {t : Token Span}
    (h : tokenAt line j = some (t, k)) :
    (line)[j]? = some '|'.toUInt8 ∧ t = .pipe ∧ k = j + 1 ∨
    (∃ b start, (line)[j]? = some b ∧ (b = '>'.toUInt8 ∨ b = '<'.toUInt8) ∧
      scanWhile isWhitespace line (j + 1) = start ∧ scanWhile isWordByte line start = k ∧
      t = .redirect (b = '>'.toUInt8) (start, k - start)) ∨
    ∃ b, (line)[j]? = some b ∧ b ≠ '|'.toUInt8 ∧ ¬(b = '>'.toUInt8 ∨ b = '<'.toUInt8) ∧
      scanWhile isWordByte line j = k ∧ t = .word (j, k - j) := by
  rw [tokenAt] at h
  split at h
  · cases h
  · rename_i b hb
    split at h
    · rename_i hpipe
      cases h
      exact Or.inl ⟨hpipe ▸ hb, rfl, rfl⟩
    · rename_i hpipe
      split at h
      · rename_i hop
        cases h
        exact Or.inr (Or.inl ⟨b, _, hb, hop, rfl, rfl, rfl⟩)
      · rename_i hop
        cases h
        exact Or.inr (Or.inr ⟨b, hb, hpipe, hop, rfl, rfl⟩)

/-- Lexing does not depend on leading whitespace. -/
@[simp] theorem lexFrom_scanWhile (line : Bytes) (i : Nat) :
    lexFrom line (scanWhile isWhitespace line i) = lexFrom line i := by
  rw [lexFrom_eq, lexFrom_eq line i, scanWhile_scanWhile]

/-- A pipe is a token of its own. -/
theorem lexFrom_pipe {line : Bytes} {i : Nat} (h : (line)[i]? = some '|'.toUInt8) :
    lexFrom line i = .pipe :: lexFrom line (i + 1) := by
  have hstay : scanWhile isWhitespace line i = i :=
    Scan.scanWhile_of_not _ _ _ fun x hx => by
      rw [h] at hx
      cases hx
      rfl
  exact lexFrom_cons (by rw [hstay]; exact tokenAt_pipe h)

/-- Behind the end of the line there is no token. -/
theorem lexFrom_of_length_le {line : Bytes} {i : Nat} (h : line.length ≤ i) :
    lexFrom line i = [] :=
  lexFrom_nil (tokenAt_end (by
    rw [Scan.scanWhile_of_length_le _ _ _ h]
    exact List.getElem?_eq_none h))

/-! ### The automaton -/

namespace Reading

variable {α : Type}

/-- Closing twice is closing once. -/
@[simp] theorem close_close (r : Reading α) : r.close.close = r.close := by
  unfold close
  cases h : r.current <;> simp [h]

/-- A word goes to an open segment that has room. -/
theorem step_word {done : List (List α)} {args : List α} {o i : α}
    (h : args.length < MAX_ARGS_PER) (s : α) :
    step ⟨done, some args, o, i⟩ (.word s) = ⟨done, some (args ++ [s]), o, i⟩ := by
  simp [step, closeFull, h, openSegment, addWord]

/-- A redirection replaces the file of its direction. -/
theorem step_redirect {done : List (List α)} {args : List α} {o i : α}
    (h : args.length < MAX_ARGS_PER) (out : Bool) (s : α) :
    step ⟨done, some args, o, i⟩ (.redirect out s)
      = ⟨done, some args, if out then s else o, if out then i else s⟩ := by
  cases out <;> simp [step, closeFull, h, openSegment, addRedirect]

/-- A full segment is closed by whatever token comes next. -/
theorem step_close_full {done : List (List α)} {args : List α} {o i : α}
    (h : ¬ args.length < MAX_ARGS_PER) (t : Token α) :
    step ⟨done, some args, o, i⟩ t = step (close ⟨done, some args, o, i⟩) t := by
  cases t <;> simp [step, closeFull, close, h]

/-- Reading on from an open segment that is full, or at a pipe, or at the end, is reading
on from the closed one. -/
theorem foldl_close {done : List Segment} {args : List Span} {o i : Span} (ts : List (Token Span))
    (h : ts = [] ∨ (∃ rest, ts = .pipe :: rest) ∨ ¬ args.length < MAX_ARGS_PER) :
    (ts.foldl step ⟨done, some args, o, i⟩).finish
      = (ts.foldl step ⟨done ++ [args], none, o, i⟩).finish := by
  cases ts with
  | nil => rfl
  | cons t rest =>
    rw [List.foldl_cons, List.foldl_cons]
    rcases h with h | ⟨rest', h⟩ | h
    · cases h
    · cases h
      rfl
    · rw [step_close_full h]
      rfl

/-- Where a segment may be opened, the first word or redirection opens it. -/
theorem step_open {done : List (List α)} {o i : α} (h : done.length < MAX_SEGMENTS)
    {t : Token α} (ht : t ≠ .pipe) :
    step ⟨done, none, o, i⟩ t = step ⟨done, some [], o, i⟩ t := by
  cases t with
  | pipe => exact absurd rfl ht
  | word s => simp [step, closeFull, openSegment, h, MAX_ARGS_PER]
  | redirect out s => simp [step, closeFull, openSegment, h, MAX_ARGS_PER]

/-- With all segments complete, the rest of the line is ignored. -/
theorem foldl_full {done : List (List α)} {o i : α} (h : ¬ done.length < MAX_SEGMENTS)
    (ts : List (Token α)) : ts.foldl step ⟨done, none, o, i⟩ = ⟨done, none, o, i⟩ := by
  induction ts with
  | nil => rfl
  | cons t rest ih =>
    rw [List.foldl_cons, show step ⟨done, none, o, i⟩ t = ⟨done, none, o, i⟩ from ?_, ih]
    cases t <;> simp [step, closeFull, openSegment, close, addWord, addRedirect, h]

end Reading

/-! ### The loops -/

/-- The segment loop: from an open segment on, the line reads as the loop's result with
the segment complete, followed by what the loop has left. -/
theorem parseSegment_read (line : Bytes) (i : Nat) (args : List Span) (o inp : Span)
    (done : List Segment) :
    ((lexFrom line i).foldl Reading.step ⟨done, some args, o, inp⟩).finish
      = ((lexFrom line (parseSegment line i args o inp).i).foldl Reading.step
          ⟨done ++ [(parseSegment line i args o inp).args], none,
            (parseSegment line i args o inp).stdoutFile,
            (parseSegment line i args o inp).stdinFile⟩).finish := by
  fun_induction parseSegment line i args o inp with
  | case1 i args o inp h j hj =>
    -- The end of the line.
    rw [lexFrom_scanWhile, lexFrom_nil (tokenAt_end hj)]
    rfl
  | case2 i args o inp h j hj =>
    rw [lexFrom_scanWhile]
    exact Reading.foldl_close _ (Or.inr (Or.inl ⟨_, lexFrom_cons (tokenAt_pipe hj)⟩))
  | case3 i args o inp h j start stop hj hne hop ih =>
    rw [← ih, lexFrom_cons (tokenAt_redirect hj hop rfl rfl), List.foldl_cons,
      Reading.step_redirect h.2.2]
    rfl
  | case4 i args o inp h j b hj hne hop start stop hgt ih =>
    rw [← ih, lexFrom_cons (tokenAt_redirect hj hop rfl rfl), List.foldl_cons,
      Reading.step_redirect h.2.2, decide_eq_false hgt]
    rfl
  | case5 i args o inp h j b hj hne hop stop ih =>
    rw [← ih, lexFrom_cons (tokenAt_word hj hne hop rfl), List.foldl_cons,
      Reading.step_word h.2.2]
  | case6 i args o inp h =>
    -- The loop does not run: no byte left, a pipe, or a full argument array.
    apply Reading.foldl_close
    by_cases hlen : i < line.length
    · by_cases hp : (line)[i]? = some '|'.toUInt8
      · exact Or.inr (Or.inl ⟨_, lexFrom_pipe hp⟩)
      · exact Or.inr (Or.inr fun hlt => h ⟨hlen, hp, hlt⟩)
    · exact Or.inl (lexFrom_of_length_le (by omega))

/-- Between two segments, whitespace and pipes read as nothing. -/
theorem foldl_separators (line : Bytes) (i : Nat) (done : List Segment) (o inp : Span) :
    (lexFrom line (scanWhile isSeparator line i)).foldl Reading.step ⟨done, none, o, inp⟩
      = (lexFrom line i).foldl Reading.step ⟨done, none, o, inp⟩ := by
  fun_induction scanWhile isSeparator line i with
  | case1 i h hp ih =>
    have hi := List.getElem?_eq_getElem h
    rw [ih]
    by_cases hws : isWhitespace (line)[i]
    · rw [← lexFrom_scanWhile line i, Scan.scanWhile.eq_def isWhitespace line i, dif_pos h,
        if_pos hws, lexFrom_scanWhile]
    · have hpipe : (line)[i] = '|'.toUInt8 := by simpa [isSeparator, hws] using hp
      rw [hpipe] at hi
      rw [lexFrom_pipe hi]
      rfl
  | case2 i h hp => rfl
  | case3 i h => rfl

/-- The token behind skipped separators is a word or a redirection. -/
theorem lexFrom_isSeparator {line : Bytes} {i : Nat} (h : scanWhile isSeparator line i < line.length) :
    ∃ t k, lexFrom line (scanWhile isSeparator line i) = t :: lexFrom line k ∧
      t ≠ .pipe := by
  obtain ⟨b, hb⟩ : ∃ b, (line)[scanWhile isSeparator line i]? = some b :=
    ⟨_, List.getElem?_eq_getElem h⟩
  have hsep := Scan.scanWhile_stop isSeparator line i b hb
  simp only [isSeparator, Bool.or_eq_false_iff, beq_eq_false_iff_ne] at hsep
  have hstay := Scan.scanWhile_of_not isWhitespace line _ fun x hx => by
    rw [hb] at hx
    cases hx
    exact hsep.1
  by_cases hop : b = '>'.toUInt8 ∨ b = '<'.toUInt8
  · exact ⟨_, _, lexFrom_cons (by rw [hstay]; exact tokenAt_redirect hb hop rfl rfl), by simp⟩
  · exact ⟨_, _, lexFrom_cons (by rw [hstay]; exact tokenAt_word hb hsep.2 hop rfl), by simp⟩

/-- The outer loop: from index `i` and the pipeline read so far, the line reads as the
loop's result. -/
theorem parseLoop_read (line : Bytes) (i : Nat) (p : Pipeline) (hbg : p.background = false) :
    parseLoop line i p
      = ((lexFrom line i).foldl Reading.step ⟨p.segments, none, p.stdoutFile, p.stdinFile⟩).finish := by
  fun_induction parseLoop line i p with
  | case1 i p h j hj =>
    -- Only separators were left.
    rw [← foldl_separators, lexFrom_of_length_le hj]
    cases p
    cases hbg
    rfl
  | case2 i p h j hj s ih =>
    obtain ⟨t, k, ht, hpipe⟩ := lexFrom_isSeparator (Nat.lt_of_not_le hj)
    have hopen : (lexFrom line j).foldl Reading.step ⟨p.segments, none, p.stdoutFile, p.stdinFile⟩
        = (lexFrom line j).foldl Reading.step ⟨p.segments, some [], p.stdoutFile, p.stdinFile⟩ := by
      rw [ht, List.foldl_cons, List.foldl_cons, Reading.step_open h.2 hpipe]
    rw [← foldl_separators, hopen, parseSegment_read]
    exact ih hbg
  | case3 i p h =>
    by_cases hlen : i < line.length
    · rw [Reading.foldl_full fun hlt => h ⟨hlen, hlt⟩]
      cases p
      cases hbg
      rfl
    · rw [lexFrom_of_length_le (by omega)]
      cases p
      cases hbg
      rfl

/-- **The parser is the token automaton**: it reads the tokens of the line one by one, and
takes a final `&` out as the background mark. -/
theorem parse_eq (line : Bytes) : parse line = markBackground line (readLine line).finish := by
  rw [parse, parseLoop_read line 0 _ rfl]
  rfl

end OnyxShell
