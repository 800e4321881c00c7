import OnyxShell.Proofs.Pipeline.Parse

/-!
# `OnyxShell.Proofs.Pipeline.Stretch`: reading a line one `|`-free stretch at a time

A stretch is a run of tokens between two pipes. `IsStretch` states where one lies in
the line, and `exists_isStretch` cuts the tokens from an index into the first stretch
and the rest. `done_readStretch` says which segments one stretch adds: its words in
groups of `MAX_ARGS_PER` (`chunks`), as far as there is room.
-/

set_option autoImplicit false

namespace OnyxShell

open Scan (scanWhile le_scanWhile lt_scanWhile scanWhile_scanWhile)

variable {α : Type}

/-! ### Tokens and stretches -/

/-- The words of a token: one for a word, none for a redirection or a pipe. -/
def Token.words : Token α → List α
  | .word s => [s]
  | _ => []

/-- The argument words of a stretch, in order. -/
def words (ts : List (Token α)) : List α := ts.flatMap Token.words

/-- No tokens, no words. -/
@[simp] theorem words_nil : words ([] : List (Token α)) = [] := rfl

/-- The words of a token, and those of the rest. -/
@[simp] theorem words_cons (t : Token α) (ts : List (Token α)) :
    words (t :: ts) = t.words ++ words ts := by simp [words]

/-- Membership in `words` is membership of the word token. -/
theorem mem_words {s : α} {ts : List (Token α)} : s ∈ words ts ↔ Token.word s ∈ ts := by
  simp only [words, List.mem_flatMap]
  constructor
  · rintro ⟨t, ht, hs⟩
    cases t with
    | word s' =>
      obtain rfl : s = s' := by simpa [Token.words] using hs
      exact ht
    | pipe => simp [Token.words] at hs
    | redirect _ _ => simp [Token.words] at hs
  · intro h
    exact ⟨_, h, by simp [Token.words]⟩

/-- Fewer tokens have fewer words. -/
theorem words_sublist {ts us : List (Token α)} (h : ts.Sublist us) :
    (words ts).Sublist (words us) := by
  induction h with
  | slnil => exact List.Sublist.refl _
  | cons t _ ih => exact ih.trans (by simp)
  | cons_cons t _ ih => simpa using ih

/-- What one token is: a pipe, or a run of bytes without one. -/
theorem tokenAt_spec {line : Bytes} {j k : Nat} {t : Token Span} (h : tokenAt line j = some (t, k)) :
    (t = .pipe ∧ k = j + 1 ∧ (line)[j]? = some '|'.toUInt8) ∨
    (t ≠ .pipe ∧ j ≤ k ∧ (∀ n, j ≤ n → n < k → (line)[n]? ≠ some '|'.toUInt8) ∧
      ∀ s ∈ t.words, s = (j, k - j)) := by
  -- A word scan stops in front of a pipe.
  have hword : ∀ i n, i ≤ n → n < scanWhile isWordByte line i → (line)[n]? ≠ some '|'.toUInt8 := by
    intro i n hin hn hpipe
    have := Scan.scanWhile_sat isWordByte line i n _ hin hn hpipe
    simp [isWordByte] at this
  rcases tokenAt_cases h with ⟨hpipe, rfl, rfl⟩ | ⟨b, start, hb, hop, rfl, rfl, rfl⟩ |
    ⟨b, hb, -, -, rfl, rfl⟩
  · exact Or.inl ⟨rfl, rfl, hpipe⟩
  · right
    have h1 := le_scanWhile isWhitespace line (j + 1)
    have h2 := le_scanWhile isWordByte line (scanWhile isWhitespace line (j + 1))
    refine ⟨by simp, by omega, ?_, by simp [Token.words]⟩
    intro n hjn hn hpipe
    -- The operator byte, the whitespace behind it, or the target.
    rcases Nat.lt_trichotomy n j with hlt | rfl | hgt
    · omega
    · rw [hb] at hpipe
      cases hpipe
      exact absurd hop (by decide)
    · rcases Nat.lt_or_ge n (scanWhile isWhitespace line (j + 1)) with hw | hw
      · have := Scan.scanWhile_sat isWhitespace line (j + 1) n _ hgt hw hpipe
        exact absurd this (by decide)
      · exact hword _ n hw hn hpipe
  · exact Or.inr ⟨by simp, le_scanWhile _ _ _, hword j, by simp [Token.words]⟩

/-- The tokens `st` are the stretch of the line from index `i` to `stop`: no pipe, no pipe
byte, and every word inside. -/
structure IsStretch (line : Bytes) (i stop : Nat) (st : List (Token Span)) : Prop where
  le : i ≤ stop
  not_pipe : ∀ t ∈ st, t ≠ .pipe
  free : ∀ n, i ≤ n → n < stop → (line)[n]? ≠ some '|'.toUInt8
  inside : ∀ s ∈ words st, i ≤ s.1 ∧ s.1 + s.2 ≤ stop

/-- The tokens from an index on are a stretch, followed by nothing, or by a pipe and the
tokens behind it. -/
theorem exists_isStretch (line : Bytes) (i : Nat) :
    ∃ st stop, IsStretch line i stop st ∧
      (lexFrom line i = st ∨
        ((line)[stop]? = some '|'.toUInt8 ∧
          lexFrom line i = st ++ .pipe :: lexFrom line (stop + 1))) := by
  fun_induction lexFrom line i with
  | case1 i h =>
    refine ⟨[], i, ⟨Nat.le_refl _, by simp, fun n _ _ => by omega, by simp⟩, Or.inl rfl⟩
  | case2 i t k h ih =>
    have h0 := le_scanWhile isWhitespace line i
    -- The whitespace before the token holds no pipe.
    have hws : ∀ n, i ≤ n → n < scanWhile isWhitespace line i → (line)[n]? ≠ some '|'.toUInt8 := by
      intro n hin hn hpipe
      exact absurd (Scan.scanWhile_sat isWhitespace line i n _ hin hn hpipe) (by decide)
    rcases tokenAt_spec h with ⟨rfl, rfl, hpipe⟩ | ⟨hne, hjk, hfree, hwords⟩
    · exact ⟨[], _, ⟨h0, by simp, hws, by simp⟩, Or.inr ⟨hpipe, rfl⟩⟩
    · -- The token is put in front of the stretch that begins behind it.
      obtain ⟨st, stop, hst, hrest⟩ := ih
      have hle := hst.le
      refine ⟨t :: st, stop, ⟨by omega, ?_, ?_, ?_⟩, ?_⟩
      · simpa using ⟨hne, hst.not_pipe⟩
      · intro n hin hn
        rcases Nat.lt_or_ge n (scanWhile isWhitespace line i) with hlt | hge
        · exact hws n hin hlt
        · rcases Nat.lt_or_ge n k with hlt | hge'
          · exact hfree n hge hlt
          · exact hst.free n hge' hn
      · intro s hs
        rw [words_cons, List.mem_append] at hs
        rcases hs with hs | hs
        · rw [hwords s hs]
          exact ⟨h0, by simp only; omega⟩
        · have := hst.inside s hs
          omega
      · rcases hrest with hrest | ⟨hp, hrest⟩
        · exact Or.inl (by rw [hrest])
        · exact Or.inr ⟨hp, by rw [hrest]; rfl⟩

/-- Induction over the stretches of the line from index `i` on. -/
@[elab_as_elim]
theorem stretch_induction (line : Bytes) {motive : Nat → List (Token Span) → Prop}
    (last : ∀ i stop st, IsStretch line i stop st → motive i st)
    (more : ∀ i stop st, IsStretch line i stop st → (line)[stop]? = some '|'.toUInt8 →
      motive (stop + 1) (lexFrom line (stop + 1)) →
      motive i (st ++ .pipe :: lexFrom line (stop + 1)))
    (i : Nat) : motive i (lexFrom line i) := by
  -- Behind a pipe there is less of the line left.
  induction hn : line.length - i using Nat.strongRecOn generalizing i with
  | ind n ih =>
    obtain ⟨st, stop, hst, hlex | ⟨hpipe, hlex⟩⟩ := exists_isStretch line i
    · rw [hlex]
      exact last i stop st hst
    · have hstop : stop < line.length := (List.getElem?_eq_some_iff.mp hpipe).1
      have hle := hst.le
      rw [hlex]
      exact more i stop st hst hpipe (ih (line.length - (stop + 1)) (by omega) (stop + 1) rfl)

/-- The stretches of a token list: what lies between its pipes. -/
def stretches : List (Token α) → List (List (Token α))
  | [] => [[]]
  | .pipe :: ts => [] :: stretches ts
  | t :: ts => (stretches ts).modifyHead (t :: ·)

/-- Tokens without a pipe are one stretch. -/
theorem stretches_eq_singleton {st : List (Token α)} (h : ∀ t ∈ st, t ≠ .pipe) :
    stretches st = [st] := by
  induction st with
  | nil => rfl
  | cons t ts ih =>
    have ht := h t (by simp)
    cases t with
    | pipe => exact absurd rfl ht
    | word s => simp [stretches, ih fun t' h' => h t' (by simp [h'])]
    | redirect o s => simp [stretches, ih fun t' h' => h t' (by simp [h'])]

/-- A stretch ends at the first pipe. -/
theorem stretches_append {st : List (Token α)} (h : ∀ t ∈ st, t ≠ .pipe)
    (rest : List (Token α)) : stretches (st ++ .pipe :: rest) = st :: stretches rest := by
  induction st with
  | nil => rfl
  | cons t ts ih =>
    have ht := h t (by simp)
    have ih' := ih fun t' h' => h t' (by simp [h'])
    cases t with
    | pipe => exact absurd rfl ht
    | word s => simp [stretches, ih']
    | redirect o s => simp [stretches, ih']

/-! ### The segments of one stretch -/

/-- The words of a stretch in groups of `MAX_ARGS_PER`, the first one continuing `acc`.
Any token that meets a full group starts the next one, a redirection included. -/
def chunks : List α → List (Token α) → List (List α)
  | acc, [] => [acc]
  | acc, t :: ts =>
    if acc.length < MAX_ARGS_PER then chunks (acc ++ t.words) ts else acc :: chunks t.words ts

/-- Every chunk holds words of the stretch, or of what was there before. -/
theorem mem_chunks {acc : List α} {st : List (Token α)} {S : List α} (hS : S ∈ chunks acc st)
    {a : α} (ha : a ∈ S) : a ∈ acc ∨ a ∈ words st := by
  induction st generalizing acc with
  | nil =>
    obtain rfl : S = acc := by simpa [chunks] using hS
    exact Or.inl ha
  | cons t ts ih =>
    rw [words_cons, List.mem_append]
    rw [chunks] at hS
    split at hS
    · have := ih hS
      rw [List.mem_append] at this
      tauto
    · rcases List.mem_cons.mp hS with rfl | hS
      · exact Or.inl ha
      · exact Or.inr (ih hS)

/-- The first chunk holds the first `MAX_ARGS_PER` words. What follows, if anything, are the
chunks of a rest of the stretch that holds the other words. -/
theorem chunks_head (acc : List α) (st : List (Token α)) (h : acc.length ≤ MAX_ARGS_PER) :
    ∃ rest, chunks acc st = (acc ++ words st).take MAX_ARGS_PER :: rest ∧
      (rest = [] ∧ (acc ++ words st).length ≤ MAX_ARGS_PER ∨
        ∃ st', rest = chunks [] st' ∧ words st' = (acc ++ words st).drop MAX_ARGS_PER) := by
  induction st generalizing acc with
  | nil =>
    refine ⟨[], ?_, Or.inl ⟨rfl, by simpa using h⟩⟩
    rw [words_nil, List.append_nil, List.take_of_length_le h]
    rfl
  | cons t ts ih =>
    rw [chunks]
    split
    · rename_i hlt
      have hle : (acc ++ t.words).length ≤ MAX_ARGS_PER := by
        have : t.words.length ≤ 1 := by cases t <;> simp [Token.words]
        rw [List.length_append]
        omega
      simpa [List.append_assoc] using ih (acc ++ t.words) hle
    · -- The first chunk is full, and `t` goes to the second one.
      have hacc : acc.length = MAX_ARGS_PER := by omega
      refine ⟨chunks [] (t :: ts), ?_, Or.inr ⟨t :: ts, rfl, ?_⟩⟩
      · rw [List.take_append_of_le_length (by omega), List.take_of_length_le h]
        simp [chunks, MAX_ARGS_PER]
      · rw [← hacc, List.drop_left]

/-- The chunks of a stretch that fits one segment: its words, and an empty segment if a
redirection follows the `MAX_ARGS_PER`-th word. -/
theorem chunks_of_le (acc : List α) (st : List (Token α))
    (h : (acc ++ words st).length ≤ MAX_ARGS_PER) :
    chunks acc st = (acc ++ words st) ::
      if st ≠ [] ∧ (acc ++ words st.dropLast).length = MAX_ARGS_PER then [[]] else [] := by
  induction st generalizing acc with
  | nil => simp [chunks]
  | cons t ts ih =>
    rw [words_cons, ← List.append_assoc] at h
    rw [chunks]
    split
    · rename_i hlt
      rw [ih (acc ++ t.words) h, words_cons, List.append_assoc]
      congr 1
      -- With tokens behind `t`, the last token of both lists is the same.
      cases ts with
      | nil =>
        rw [if_neg (by simp), if_neg (by simp; omega)]
      | cons t' ts' => simp
    · have hzero : t.words = [] ∧ words ts = [] := by
        simp only [List.length_append] at h
        constructor <;> exact List.eq_nil_of_length_eq_zero (by omega)
      -- No words are left, so the tokens from `t` on are redirections in an empty chunk.
      have hrest := ih [] (by simp [hzero.2])
      have hdrop : words ts.dropLast = [] := by
        rw [List.eq_nil_iff_forall_not_mem]
        intro s hs
        have := mem_words.mpr (List.dropLast_subset ts (mem_words.mp hs))
        simp [hzero.2] at this
      have hacc : acc.length = MAX_ARGS_PER := by
        simp only [List.length_append] at h
        omega
      have hlast : words (t :: ts).dropLast = [] := by
        cases ts with
        | nil => rfl
        | cons t' ts' => rw [List.dropLast_cons_cons, words_cons, hzero.1, hdrop]; rfl
      rw [hzero.1, hrest, hzero.2, hdrop, hlast, words_cons, hzero.1, hzero.2]
      simp [hacc, MAX_ARGS_PER]

/-- What a stretch leaves behind: its tokens read, and the open segment closed. -/
def Reading.readStretch (r : Reading α) (st : List (Token α)) : Reading α := (st.foldl Reading.step r).close

/-- The segments a stretch adds when one of them is open already. -/
theorem Reading.done_foldl_open (st : List (Token α)) (hst : ∀ t ∈ st, t ≠ .pipe)
    (done : List (List α)) (acc : List α) (o i : α) (h : done.length < MAX_SEGMENTS) :
    (readStretch ⟨done, some acc, o, i⟩ st).done = (done ++ chunks acc st).take MAX_SEGMENTS := by
  -- `chunks` cuts where the reading closes a full segment, so both take the tokens one by one.
  induction st generalizing done acc o i with
  | nil =>
    simp only [readStretch, List.foldl_nil, close, chunks]
    rw [List.take_of_length_le (by rw [List.length_append]; exact h)]
  | cons t ts ih =>
    have ht := hst t (by simp)
    have hts : ∀ t ∈ ts, t ≠ .pipe := fun t' h' => hst t' (by simp [h'])
    by_cases hacc : acc.length < MAX_ARGS_PER
    · rw [chunks, if_pos hacc]
      cases t with
      | pipe => exact absurd rfl ht
      | word s =>
        rw [readStretch, List.foldl_cons, step_word hacc]
        exact ih hts done (acc ++ [s]) o i h
      | redirect out s =>
        rw [readStretch, List.foldl_cons, step_redirect hacc]
        rw [show acc ++ Token.words (.redirect out s) = acc from List.append_nil acc]
        exact ih hts done acc _ _ h
    · -- The open segment is full: the token closes it and opens the next, if there is room.
      rw [chunks, if_neg hacc, readStretch, List.foldl_cons, step_close_full hacc]
      show (readStretch (step ⟨done ++ [acc], none, o, i⟩ t) ts).done = _
      by_cases hroom : (done ++ [acc]).length < MAX_SEGMENTS
      · rw [step_open hroom ht]
        have happ : done ++ acc :: chunks t.words ts = (done ++ [acc]) ++ chunks t.words ts := by
          simp
        rw [happ]
        have hempty : ([] : List α).length < MAX_ARGS_PER := by simp [MAX_ARGS_PER]
        cases t with
        | pipe => exact absurd rfl ht
        | word s =>
          rw [step_word hempty]
          exact ih hts _ [s] o i hroom
        | redirect out s =>
          rw [step_redirect hempty]
          exact ih hts _ [] _ _ hroom
      · -- All segments are taken, and the rest of the stretch is not read.
        have hfull := foldl_full (o := o) (i := i) hroom (t :: ts)
        rw [List.foldl_cons] at hfull
        rw [readStretch, hfull]
        simp only [close]
        have hlen : (done ++ [acc]).length = MAX_SEGMENTS := by
          simp only [List.length_append, List.length_singleton] at hroom ⊢
          omega
        rw [show done ++ acc :: chunks t.words ts = (done ++ [acc]) ++ chunks t.words ts by simp,
          List.take_append_of_le_length (by omega), List.take_of_length_le (by omega)]

/-- The segments a stretch adds to a reading with no open segment: none if the stretch is
empty, else its chunks, as far as there is room. -/
theorem Reading.done_readStretch (st : List (Token α)) (hst : ∀ t ∈ st, t ≠ .pipe)
    (done : List (List α)) (o i : α) (h : done.length ≤ MAX_SEGMENTS) :
    (readStretch ⟨done, none, o, i⟩ st).done
      = if st = [] then done else (done ++ chunks [] st).take MAX_SEGMENTS := by
  cases st with
  | nil => rfl
  | cons t ts =>
    rw [if_neg (by simp)]
    by_cases hroom : done.length < MAX_SEGMENTS
    · rw [readStretch, List.foldl_cons, step_open hroom (hst t (by simp)), ← List.foldl_cons]
      exact done_foldl_open _ hst done [] o i hroom
    · rw [readStretch, foldl_full hroom, List.take_append_of_le_length (by omega),
        List.take_of_length_le h]
      rfl

/-! ### The segments of the rest of the line -/

/-- The segments of the reading `r` after the tokens `ts`. -/
def Reading.segmentsOf (r : Reading α) (ts : List (Token α)) : List (List α) :=
  (ts.foldl step r).close.done

/-- Reading a stretch leaves no open segment. -/
theorem Reading.readStretch_eq (r : Reading α) (st : List (Token α)) :
    ∃ o i, r.readStretch st = ⟨(r.readStretch st).done, none, o, i⟩ := by
  refine ⟨(r.readStretch st).stdoutFile, (r.readStretch st).stdinFile, ?_⟩
  have hcur : (r.readStretch st).current = none := by
    unfold readStretch close
    split <;> simp_all
  rw [← hcur]

/-- A stretch at the end of the line leaves its own segments. -/
theorem Reading.segmentsOf_last (r : Reading α) (st : List (Token α)) :
    r.segmentsOf st = (r.readStretch st).done := rfl

/-- A pipe closes the stretch before it. -/
theorem Reading.segmentsOf_append (r : Reading α) (st ts : List (Token α)) :
    r.segmentsOf (st ++ .pipe :: ts) = (r.readStretch st).segmentsOf ts := by
  simp [segmentsOf, readStretch, List.foldl_append, step]

/-- A stretch only adds segments, and adds none exactly when there is no room or it is
empty. -/
theorem Reading.done_readStretch_extends {line : Bytes} {i stop : Nat} {st : List (Token Span)}
    (hst : IsStretch line i stop st) (done : List Segment) (o inp : Span)
    (h : done.length ≤ MAX_SEGMENTS) :
    ∃ new, (readStretch ⟨done, none, o, inp⟩ st).done = done ++ new ∧
      (done ++ new).length ≤ MAX_SEGMENTS ∧
      (new = [] ↔ done.length = MAX_SEGMENTS ∨ st = []) := by
  rw [done_readStretch st hst.not_pipe done o inp h]
  by_cases hnil : st = []
  · exact ⟨[], by simp [hnil], by simpa using h, by simp [hnil]⟩
  · rw [if_neg hnil]
    obtain ⟨rest, hchunks, -⟩ := chunks_head [] st (by simp)
    -- What is new are the chunks that still have room.
    refine ⟨(chunks [] st).take (MAX_SEGMENTS - done.length), ?_, ?_, ?_⟩
    · rw [List.take_append, List.take_of_length_le h]
    · simp only [List.length_append, List.length_take]
      omega
    · rw [hchunks, List.take_eq_nil_iff]
      simp only [hnil, or_false, reduceCtorEq]
      omega

/-- The rest of the line only adds segments, and adds none exactly when there is no room or
nothing is left to read. -/
theorem Reading.segmentsOf_extends (line : Bytes) (i : Nat) (done : List Segment) (o inp : Span)
    (h : done.length ≤ MAX_SEGMENTS) :
    ∃ more, segmentsOf ⟨done, none, o, inp⟩ (lexFrom line i) = done ++ more ∧
      (done ++ more).length ≤ MAX_SEGMENTS ∧
      (more = [] ↔ done.length = MAX_SEGMENTS ∨ ∀ u ∈ stretches (lexFrom line i), u = []) := by
  induction i using stretch_induction line generalizing done o inp with
  | last i stop st hst =>
    rw [segmentsOf_last, stretches_eq_singleton hst.not_pipe]
    obtain ⟨new, hnew, hlen, hiff⟩ := done_readStretch_extends hst done o inp h
    exact ⟨new, hnew, hlen, by simpa using hiff⟩
  | more i stop st hst hpipe ih =>
    obtain ⟨new, hnew, hlen, hiff⟩ := done_readStretch_extends hst done o inp h
    obtain ⟨o', inp', heq⟩ := readStretch_eq ⟨done, none, o, inp⟩ st
    rw [segmentsOf_append, heq, hnew, stretches_append hst.not_pipe]
    obtain ⟨more, hmore, hlen', hiff'⟩ := ih (done ++ new) o' inp' hlen
    refine ⟨new ++ more, by rw [hmore, List.append_assoc], by rwa [← List.append_assoc], ?_⟩
    rw [List.append_eq_nil_iff, hiff, hiff', List.forall_mem_cons]
    -- Nothing new from the stretch and nothing from the rest, or no room for either.
    constructor
    · rintro ⟨hfull | hst, hrest⟩
      · exact Or.inl hfull
      · obtain rfl : new = [] := hiff.mpr (Or.inr hst)
        simpa [hst] using hrest
    · rintro (hfull | ⟨hst, hrest⟩)
      · obtain rfl : new = [] := hiff.mpr (Or.inl hfull)
        simp [hfull]
      · exact ⟨Or.inr hst, Or.inr hrest⟩

end OnyxShell
