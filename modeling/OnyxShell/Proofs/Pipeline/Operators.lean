import OnyxShell.Eval
import OnyxShell.Proofs.Pipeline.Separation

/-!
# `OnyxShell.Proofs.Pipeline.Operators`: operator bytes inside words

`has_op` sends a line to the pipeline path for every `|`, `<` or `>` in it. The scans of
`parse` stop a word at whitespace and at `|`, but not at `<` and `>`, so an operator that is
glued to a word, or that stands where a target is expected, becomes a part of the word.

`operatorFree_parse_iff` says for which lines this happens. The words that the parser keeps
are those read while there is room (`mem_spans_foldl`), and of the targets in one direction
it keeps the last (`target_foldl`).
-/

set_option autoImplicit false

namespace OnyxShell

open Scan (scanWhile le_scanWhile)

variable {α : Type}

/-! ### What the parser keeps -/

/-- The segments as numbers: how many are complete, and how many words the open one has. -/
structure Filling where
  complete : Nat
  words : Option Nat
deriving DecidableEq

namespace Filling

/-- A new segment behind `n` complete ones, if there is room for it. -/
def fresh (n : Nat) : Filling := ⟨n, if n < MAX_SEGMENTS then some 0 else none⟩

/-- Ready for a word or a redirection: an open segment that is full is complete, and where none is
open a new one is begun. -/
def ready (f : Filling) : Filling :=
  match f.words with
  | none => fresh f.complete
  | some w => if w < MAX_ARGS_PER then f else fresh (f.complete + 1)

/-- One token more. A pipe completes the open segment, and a word takes one of its places. -/
def count (f : Filling) : Token α → Filling
  | .pipe => if f.words.isSome then ⟨f.complete + 1, none⟩ else f
  | .word _ => ⟨f.ready.complete, f.ready.words.map (· + 1)⟩
  | .redirect _ _ => f.ready

end Filling

/-- Whether the parser still has room behind the tokens `ts`, by counting: an open segment that is not
full, or fewer than `MAX_SEGMENTS` complete ones. -/
def roomBehind (ts : List (Token Span)) : Bool :=
  (ts.foldl Filling.count ⟨0, none⟩).ready.words.isSome

/-- A word of the line that is read while there is room. -/
def KeptWord (line : Bytes) (s : Span) : Prop :=
  ∃ before after, lex line = before ++ .word s :: after ∧ roomBehind before = true

/-- A target that is read while there is room, and that no later one replaces. -/
def KeptTarget (line : Bytes) (out : Bool) (s : Span) : Prop :=
  ∃ before after, lex line = before ++ .redirect out s :: after ∧ roomBehind before = true ∧
    ∀ mid s' rest, after = mid ++ .redirect out s' :: rest →
      roomBehind (before ++ .redirect out s :: mid) = false

/-- A `<` or `>` of the line. -/
def RedirectionAt (line : Bytes) (k : Nat) : Prop :=
  (line)[k]? = some '<'.toUInt8 ∨ (line)[k]? = some '>'.toUInt8

/-- A `<` or `>` stands in the line from index `i` on, before `stop`. -/
def RedirectionIn (line : Bytes) (i stop : Nat) : Prop :=
  ∃ k, i ≤ k ∧ k < stop ∧ RedirectionAt line k

/-- In the words and targets that the parser keeps, no `<` or `>` stands behind the first
byte of a word or anywhere in a target. -/
def KeptApart (line : Bytes) : Prop :=
  (∀ s, KeptWord line s → ¬RedirectionIn line (s.1 + 1) (s.1 + s.2)) ∧
  ∀ out s, KeptTarget line out s → ¬RedirectionIn line s.1 (s.1 + s.2)

/-- The parser keeps every word and every target of the line: eight segments are enough for
it, and it has one target in each direction at most. -/
def KeepsAll (line : Bytes) : Prop :=
  (∀ s, .word s ∈ lex line → KeptWord line s) ∧
  ∀ out s, .redirect out s ∈ lex line → KeptTarget line out s

/-- The byte before index `k`, if any, is whitespace or a `|`. An operator in the middle of a run
of other bytes is part of a word for the parser. -/
def SeparatedBefore (line : Bytes) (k : Nat) : Prop :=
  ∀ n b, n + 1 = k → (line)[n]? = some b → isSeparator b = true

/-- Between index `k` and each `<` or `>` before it stands a byte other than whitespace. -/
def ClearBefore (line : Bytes) (k : Nat) : Prop :=
  ∀ j < k, RedirectionAt line j →
    ∃ n b, j < n ∧ n < k ∧ (line)[n]? = some b ∧ isWhitespace b = false

/-- Every `<` and `>` stands at the start of the line or behind whitespace or a `|`, and any
two of them have a byte other than whitespace between them. -/
def Spaced (line : Bytes) : Prop :=
  ∀ k, RedirectionAt line k → SeparatedBefore line k ∧ ClearBefore line k

/-- No operator byte stands in a span that the parser hands on. The spans are those of the words
and of the targets, which the executor cuts out of the line and hands on. -/
def OperatorFree (line : Bytes) (p : Pipeline) : Prop :=
  (∀ seg ∈ p.segments, ∀ s ∈ seg, hasOp (Span.of line s) = false) ∧
  hasOp (Span.of line p.stdoutFile) = false ∧ hasOp (Span.of line p.stdinFile) = false

namespace Reading

/-- The numbers of a reading. -/
def filling (r : Reading α) : Filling := ⟨r.done.length, r.current.map List.length⟩

/-- Whether a reading has a segment for the next word or redirection. -/
def takes (r : Reading α) : Bool := r.closeFull.openSegment.current.isSome

/-- Closing a full segment and opening the next, as it is counted. -/
theorem filling_openSegment_closeFull (r : Reading α) :
    r.closeFull.openSegment.filling = r.filling.ready := by
  have hopen : ∀ done : List (List α), ∀ o i : α,
      (⟨done, none, o, i⟩ : Reading α).openSegment.filling = Filling.fresh done.length := by
    intro done o i
    simp only [openSegment, Filling.fresh]
    split
    · rfl
    · rfl
  rcases r with ⟨done, _ | args, o, i⟩
  · exact hopen done o i
  · simp only [closeFull, filling, Filling.ready, Option.map_some]
    split
    · rfl
    · -- The full segment is complete, and the next one is begun.
      have hclose := hopen (done ++ [args]) o i
      rw [List.length_append, List.length_singleton] at hclose
      exact hclose

/-- A token changes the numbers as it is counted. -/
theorem filling_step (r : Reading α) (t : Token α) : (r.step t).filling = r.filling.count t := by
  cases t with
  | pipe =>
    rcases r with ⟨done, _ | args, o, i⟩
    · rfl
    · show Filling.mk (done ++ [args]).length none = _
      rw [List.length_append, List.length_singleton]
      rfl
  | word a =>
    rw [step, Filling.count, ← filling_openSegment_closeFull]
    rcases r.closeFull.openSegment with ⟨done, _ | args, o, i⟩
    · rfl
    · show Filling.mk done.length (some (args ++ [a]).length) = _
      rw [List.length_append, List.length_singleton]
      rfl
  | redirect out a =>
    rw [step, Filling.count, ← filling_openSegment_closeFull]
    rcases r.closeFull.openSegment with ⟨done, _ | args, o, i⟩
    · rfl
    · cases out with
      | true => rfl
      | false => rfl

/-- **The parser as a counter.** How full the reading is behind a list of tokens comes from
counting the tokens, by induction on the list. -/
theorem filling_foldl (ts : List (Token α)) (r : Reading α) :
    (ts.foldl step r).filling = ts.foldl Filling.count r.filling := by
  induction ts generalizing r with
  | nil => rfl
  | cons t ts ih => rw [List.foldl_cons, List.foldl_cons, ih, filling_step]

/-- **The parser has room as it is counted.** -/
theorem takes_foldl (ts : List (Token Span)) :
    (ts.foldl step (start (0, 0))).takes = roomBehind ts := by
  have hcurrent : ∀ r : Reading Span, r.filling.words.isSome = r.current.isSome :=
    fun r => Option.isSome_map
  rw [takes, ← hcurrent, filling_openSegment_closeFull, filling_foldl]
  rfl

/-- The words of the segments read so far. -/
def spans (r : Reading α) : List α := r.done.flatten ++ r.current.getD []

/-- The target of a direction. -/
def target (r : Reading α) (out : Bool) : α := if out then r.stdoutFile else r.stdinFile

/-- Closing the last segment keeps the spans that have been read. -/
theorem spans_close (r : Reading α) : r.close.spans = r.spans := by
  rcases r with ⟨done, _ | args, o, i⟩
  · rfl
  · show (done ++ [args]).flatten ++ [] = done.flatten ++ args
    rw [List.flatten_append, List.flatten_singleton, List.append_nil]

/-- Behind the close no segment is open. -/
theorem current_close (r : Reading α) : r.close.current = none := by
  rcases r with ⟨done, _ | args, o, i⟩
  · rfl
  · rfl

/-- Closing the last segment keeps the targets. -/
theorem target_close (r : Reading α) (out : Bool) : r.close.target out = r.target out := by
  rcases r with ⟨done, _ | args, o, i⟩
  · rfl
  · rfl

/-- Making room moves no word and no target. -/
theorem spans_openSegment_closeFull (r : Reading α) :
    r.closeFull.openSegment.spans = r.spans ∧
      ∀ out, r.closeFull.openSegment.target out = r.target out := by
  have hfull : r.closeFull.spans = r.spans ∧ ∀ out, r.closeFull.target out = r.target out := by
    rw [closeFull]
    split
    · exact ⟨rfl, fun _ => rfl⟩
    · split
      · exact ⟨rfl, fun _ => rfl⟩
      · exact ⟨spans_close r, target_close r⟩
  rw [← hfull.1]
  generalize r.closeFull = r' at hfull
  constructor
  · rw [openSegment]
    split
    · rfl
    · rename_i hnone
      split
      · rw [spans, spans, hnone]
        rfl
      · rfl
  · intro out
    rw [← hfull.2 out, openSegment]
    split
    · rfl
    · split
      · rfl
      · rfl

/-- One token adds its word if there is room. -/
theorem mem_spans_step (r : Reading α) (t : Token α) (s : α) :
    s ∈ (r.step t).spans ↔ s ∈ r.spans ∨ t = .word s ∧ r.takes = true := by
  rcases t with _ | a | ⟨out, a⟩
  case pipe =>
    rw [step, spans_close]
    exact ⟨Or.inl, fun h => h.resolve_right fun h => by cases h.1⟩
  case word =>
    rw [step, takes, ← (spans_openSegment_closeFull r).1]
    rcases r.closeFull.openSegment with ⟨done, _ | args, o, i⟩
    · exact ⟨Or.inl, fun h => h.resolve_right fun h => Bool.noConfusion h.2⟩
    · show s ∈ done.flatten ++ (args ++ [a]) ↔ s ∈ done.flatten ++ args ∨ Token.word a = .word s ∧ _
      rw [← List.append_assoc, List.mem_append, List.mem_singleton, Token.word.injEq]
      exact or_congr_right ⟨fun h => ⟨h.symm, rfl⟩, fun h => h.1.symm⟩
  case redirect =>
    rw [step, ← (spans_openSegment_closeFull r).1]
    have hadd : (r.closeFull.openSegment.addRedirect out a).spans =
        r.closeFull.openSegment.spans := by
      rw [addRedirect]
      split
      · rfl
      · split
        · rfl
        · rfl
    rw [hadd]
    exact ⟨Or.inl, fun h => h.resolve_right fun h => by cases h.1⟩

/-- The words behind a list of tokens are those read while there was room. -/
theorem mem_spans_foldl (ts : List (Token α)) (r : Reading α) (s : α) :
    s ∈ (ts.foldl step r).spans ↔
      s ∈ r.spans ∨
        ∃ before after, ts = before ++ .word s :: after ∧ (before.foldl step r).takes = true := by
  induction ts generalizing r with
  | nil =>
    exact ⟨Or.inl, fun h => h.resolve_right fun ⟨before, after, h, _⟩ => by simp at h⟩
  | cons t rest ih =>
    rw [List.foldl_cons, ih, mem_spans_step]
    constructor
    · rintro ((h | ⟨rfl, htakes⟩) | ⟨before, after, rfl, htakes⟩)
      · exact Or.inl h
      · exact Or.inr ⟨[], rest, rfl, htakes⟩
      · exact Or.inr ⟨t :: before, after, rfl, htakes⟩
    · rintro (h | ⟨before, after, h, htakes⟩)
      · exact Or.inl (Or.inl h)
      · rcases before with _ | ⟨first, before⟩
        · rcases List.cons.inj h with ⟨rfl, rfl⟩
          exact Or.inl (Or.inr ⟨rfl, htakes⟩)
        · rcases List.cons.inj h with ⟨rfl, rfl⟩
          exact Or.inr ⟨before, after, rfl, htakes⟩

/-- One token replaces the target of its direction if there is room. -/
theorem target_step (r : Reading α) (t : Token α) (out : Bool) :
    (∃ a, t = .redirect out a ∧ r.takes = true ∧ (r.step t).target out = a) ∨
    (∀ a, t = .redirect out a → r.takes = false) ∧ (r.step t).target out = r.target out := by
  rcases t with _ | a | ⟨out', a⟩
  case pipe => exact Or.inr ⟨fun _ h => (nomatch h), target_close r out⟩
  case word =>
    refine Or.inr ⟨fun _ h => (nomatch h), ?_⟩
    rw [step, ← (spans_openSegment_closeFull r).2 out]
    rcases r.closeFull.openSegment with ⟨done, _ | args, o, i⟩
    · rfl
    · rfl
  case redirect =>
    rw [step, takes, ← (spans_openSegment_closeFull r).2 out]
    rcases r.closeFull.openSegment with ⟨done, _ | args, o, i⟩
    · exact Or.inr ⟨fun _ _ => rfl, rfl⟩
    · by_cases hout : out' = out
      · subst hout
        refine Or.inl ⟨a, rfl, rfl, ?_⟩
        rcases out'
        · rfl
        · rfl
      · refine Or.inr ⟨fun b h => absurd (Token.redirect.inj h).1 hout, ?_⟩
        rcases out <;> rcases out' <;> first | rfl | exact absurd rfl hout

/-- Tokens with no room for a target of this direction leave the target as it is. -/
theorem target_foldl_of_full (ts : List (Token α)) (r : Reading α) (out : Bool)
    (h : ∀ before a after, ts = before ++ .redirect out a :: after →
      (before.foldl step r).takes = false) :
    (ts.foldl step r).target out = r.target out := by
  induction ts generalizing r with
  | nil => rfl
  | cons t rest ih =>
    rw [List.foldl_cons, ih]
    · rcases target_step r t out with ⟨a, rfl, htakes, -⟩ | ⟨-, hsame⟩
      · have hfull : r.takes = false := h [] a rest rfl
        rw [hfull] at htakes
        cases htakes
      · exact hsame
    · intro before a after heq
      exact h (t :: before) a after (by rw [heq]; rfl)

/-- The target behind a list of tokens is the one that was there, or the last one that was
read while there was room. -/
theorem target_foldl (ts : List (Token α)) (r : Reading α) (out : Bool) :
    (ts.foldl step r).target out = r.target out ∨
    ∃ before a after, ts = before ++ .redirect out a :: after ∧
      (before.foldl step r).takes = true ∧ (ts.foldl step r).target out = a ∧
      ∀ mid b rest, after = mid ++ .redirect out b :: rest →
        ((before ++ .redirect out a :: mid).foldl step r).takes = false := by
  induction ts using List.reverseRecOn with
  | nil => exact Or.inl rfl
  | append_singleton ts t ih =>
    rw [List.foldl_concat]
    rcases target_step (ts.foldl step r) t out with ⟨a, rfl, htakes, heq⟩ | ⟨hfull, hsame⟩
    · refine Or.inr ⟨ts, a, [], rfl, htakes, heq, ?_⟩
      intro mid b rest hnil
      simp at hnil
    · rw [hsame]
      rcases ih with ih | ⟨before, a, after, rfl, htakes, heq, hlast⟩
      · exact Or.inl ih
      · refine Or.inr ⟨before, a, after ++ [t], by simp, htakes, heq, ?_⟩
        intro mid b rest hsplit
        -- The later target is the new token, or one that was there before.
        rcases List.eq_nil_or_concat rest with rfl | ⟨init, last, rfl⟩
        · rcases List.append_inj' hsplit rfl with ⟨rfl, ht⟩
          exact hfull b (List.cons.inj ht).1
        · rw [List.concat_eq_append, ← List.cons_append, ← List.append_assoc] at hsplit
          exact hlast mid b init (List.append_inj' hsplit rfl).1

end Reading

/-! ### Operator bytes in spans -/

/-- An operator byte in a span of the line. -/
theorem hasOp_span {line : Bytes} {s : Span} :
    hasOp (Span.of line s) = true ↔
      ∃ k, s.1 ≤ k ∧ k < s.1 + s.2 ∧ ∃ b, (line)[k]? = some b ∧ hasOp [b] = true := by
  rw [hasOp, List.any_eq_true]
  constructor
  · rintro ⟨b, hmem, hop⟩
    rcases List.mem_iff_getElem?.mp hmem with ⟨k, hk⟩
    rw [Span.of, List.getElem?_take] at hk
    split at hk
    · rename_i hlt
      rw [List.getElem?_drop] at hk
      exact ⟨s.1 + k, Nat.le_add_right _ _, Nat.add_lt_add_left hlt _, b, hk,
        List.any_eq_true.mpr ⟨b, List.mem_singleton_self b, hop⟩⟩
    · cases hk
  · rintro ⟨k, hle, hlt, b, hk, hop⟩
    rcases List.any_eq_true.mp hop with ⟨b', hmem, hop⟩
    rw [List.mem_singleton.mp hmem] at hop
    refine ⟨b, List.mem_iff_getElem?.mpr ⟨k - s.1, ?_⟩, hop⟩
    rw [Span.of, List.getElem?_take, if_pos (by omega), List.getElem?_drop,
      Nat.add_sub_cancel' hle, hk]

/-- An operator byte is a pipe or a redirection. -/
theorem hasOp_singleton {b : UInt8} :
    hasOp [b] = true ↔ b = '|'.toUInt8 ∨ b = '<'.toUInt8 ∨ b = '>'.toUInt8 := by
  simp only [hasOp, List.any_cons, List.any_nil, Bool.or_false, Bool.or_eq_true, beq_iff_eq]
  constructor
  · rintro ((h | h) | h)
    · exact Or.inl h
    · exact Or.inr (Or.inr h)
    · exact Or.inr (Or.inl h)
  · rintro (h | h | h)
    · exact Or.inl (Or.inl h)
    · exact Or.inr h
    · exact Or.inl (Or.inr h)

/-- A token of the line is a token at some index. -/
theorem tokenAt_of_mem_lexFrom {line : Bytes} {i : Nat} {t : Token Span}
    (h : t ∈ lexFrom line i) : ∃ j k, tokenAt line j = some (t, k) := by
  fun_induction lexFrom line i with
  | case1 i hnone => cases h
  | case2 i t' k htok ih =>
    rcases List.mem_cons.mp h with rfl | h
    · exact ⟨_, k, htok⟩
    · exact ih h

/-- The bytes of a word or a target. -/
theorem isWordByte_of_scan {line : Bytes} {i stop k : Nat} {b : UInt8}
    (hstop : scanWhile isWordByte line i = stop) (hle : i ≤ k) (hlt : k < i + (stop - i))
    (hb : (line)[k]? = some b) : isWordByte b = true := by
  have hmove := le_scanWhile isWordByte line i
  exact Scan.scanWhile_sat isWordByte line i k b hle (by omega) hb

/-- A redirection is at `>` or `<`, and so not at a pipe. -/
theorem RedirectionAt.ne_pipe {line : Bytes} {k : Nat} (h : RedirectionAt line k) :
    (line)[k]? ≠ some '|'.toUInt8 := by
  rcases h with h | h <;> rw [h] <;> decide

/-- An operator byte among the bytes of words is a redirection. -/
theorem redirectionAt_iff {line : Bytes} {k : Nat}
    (hword : ∀ b, (line)[k]? = some b → isWordByte b = true) :
    (∃ b, (line)[k]? = some b ∧ hasOp [b] = true) ↔ RedirectionAt line k := by
  constructor
  · rintro ⟨b, hk, hop⟩
    have hword := hword b hk
    rw [RedirectionAt, hk]
    rcases hasOp_singleton.mp hop with rfl | rfl | rfl
    · exact absurd hword (by decide)
    · exact Or.inl rfl
    · exact Or.inr rfl
  · rintro (hk | hk)
    · exact ⟨_, hk, by decide⟩
    · exact ⟨_, hk, by decide⟩

/-- An operator byte in a scan over a word or a target is a redirection in it. -/
theorem hasOp_scan {line : Bytes} {start stop : Nat}
    (hstop : scanWhile isWordByte line start = stop) :
    hasOp (Span.of line (start, stop - start)) = true ↔
      RedirectionIn line start (start + (stop - start)) := by
  rw [hasOp_span]
  apply exists_congr
  intro k
  apply and_congr_right
  intro hle
  apply and_congr_right
  intro hlt
  exact redirectionAt_iff fun _ hk => isWordByte_of_scan hstop hle hlt hk

/-- An operator byte of a word is a redirection behind its first byte. -/
theorem hasOp_word {line : Bytes} {i : Nat} {s : Span} (h : .word s ∈ lexFrom line i) :
    hasOp (Span.of line s) = true ↔ RedirectionIn line (s.1 + 1) (s.1 + s.2) := by
  rcases tokenAt_of_mem_lexFrom h with ⟨j, stop, htok⟩
  rcases tokenAt_cases htok with ⟨-, ht, -⟩ | ⟨_, _, -, -, -, -, ht⟩ | ⟨b, hb, -, hfirst, hstop, ht⟩
  · cases ht
  · cases ht
  · cases ht
    rw [hasOp_scan hstop]
    constructor
    · rintro ⟨k, hle, hlt, hat⟩
      refine ⟨k, Nat.lt_of_le_of_ne hle ?_, hlt, hat⟩
      -- The first byte of a word is no operator.
      rintro rfl
      rw [RedirectionAt, hb] at hat
      rcases hat with hat | hat
      · exact hfirst (Or.inr (Option.some.inj hat))
      · exact hfirst (Or.inl (Option.some.inj hat))
    · rintro ⟨k, hle, hlt, hat⟩
      exact ⟨k, Nat.le_of_succ_le hle, hlt, hat⟩

/-- An operator byte of a target is a redirection anywhere in it. -/
theorem hasOp_redirect {line : Bytes} {i : Nat} {out : Bool} {s : Span}
    (h : .redirect out s ∈ lexFrom line i) :
    hasOp (Span.of line s) = true ↔ RedirectionIn line s.1 (s.1 + s.2) := by
  rcases tokenAt_of_mem_lexFrom h with ⟨j, stop, htok⟩
  rcases tokenAt_cases htok with ⟨-, ht, -⟩ | ⟨b, start, -, -, -, hstop, ht⟩ | ⟨_, -, -, -, -, ht⟩
  · cases ht
  · cases ht
    exact hasOp_scan hstop
  · cases ht

/-- Taking the background mark out takes no operator byte out. -/
theorem operatorFree_unmark (line : Bytes) (segs : List Segment) :
    (∀ seg ∈ unmark line segs, ∀ s ∈ seg, hasOp (Span.of line s) = false) ↔
      ∀ s ∈ segs.flatten, hasOp (Span.of line s) = false := by
  rw [← List.forall_mem_flatten]
  rcases List.eq_nil_or_concat segs with rfl | ⟨init, last, rfl⟩
  · exact Iff.rfl
  · rw [List.concat_eq_append, unmark_append, List.flatten_append, List.flatten_append,
      List.flatten_singleton, List.flatten_singleton]
    split
    · rename_i hmark
      rcases hmark with ⟨a, ha, hspan⟩
      rcases List.getLast?_eq_some_iff.mp ha with ⟨words, rfl⟩
      rw [List.dropLast_concat, ← List.append_assoc]
      refine Iff.trans ?_ List.forall_mem_append.symm
      constructor
      · intro h
        refine ⟨h, fun s hs => ?_⟩
        rw [List.mem_singleton.mp hs, hspan]
        decide
      · exact fun h => h.1
    · exact Iff.rfl

/-- Taking the background mark out leaves the targets. -/
theorem files_markBackground (line : Bytes) (p : Pipeline) :
    (markBackground line p).stdoutFile = p.stdoutFile ∧
      (markBackground line p).stdinFile = p.stdinFile := by
  rw [markBackground]
  split
  · exact ⟨rfl, rfl⟩
  · split
    · exact ⟨rfl, rfl⟩
    · split
      · exact ⟨rfl, rfl⟩
      · exact ⟨rfl, rfl⟩

/-- A word that is kept is a token of the line. -/
theorem KeptWord.mem_lex {line : Bytes} {s : Span} (h : KeptWord line s) : .word s ∈ lex line := by
  rcases h with ⟨before, after, hlex, -⟩
  rw [hlex]
  exact List.mem_append_right _ List.mem_cons_self

/-- A target that is kept is a token of the line. -/
theorem KeptTarget.mem_lex {line : Bytes} {out : Bool} {s : Span} (h : KeptTarget line out s) :
    .redirect out s ∈ lex line := by
  rcases h with ⟨before, after, hlex, -⟩
  rw [hlex]
  exact List.mem_append_right _ List.mem_cons_self

/-- The words of the segments are the ones that are kept. -/
theorem mem_segments_readLine {line : Bytes} {s : Span} :
    s ∈ (readLine line).finish.segments.flatten ↔ KeptWord line s := by
  have hclose : (readLine line).close.spans = (readLine line).finish.segments.flatten := by
    rw [Reading.spans, Reading.current_close]
    exact List.append_nil _
  rw [← hclose, Reading.spans_close, readLine, Reading.mem_spans_foldl]
  simp only [Reading.takes_foldl]
  exact ⟨fun h => h.resolve_left List.not_mem_nil, Or.inr⟩

/-- A target that is kept is left at the end: no later one is read. -/
theorem KeptTarget.target_eq {line : Bytes} {out : Bool} {s : Span} (h : KeptTarget line out s) :
    (readLine line).target out = s := by
  rcases h with ⟨before, after, hlex, hroom, hlast⟩
  rw [readLine, hlex, List.foldl_append, List.foldl_cons, Reading.target_foldl_of_full]
  · rcases Reading.target_step (before.foldl Reading.step (Reading.start (0, 0)))
      (.redirect out s) out with ⟨a, ha, -, heq⟩ | ⟨hfull, -⟩
    · rw [heq, (Token.redirect.inj ha).2]
    · have hnone := hfull s rfl
      rw [Reading.takes_foldl, hroom] at hnone
      cases hnone
  · intro mid b rest hsplit
    have hfull := hlast mid b rest hsplit
    rwa [← Reading.takes_foldl, List.foldl_append, List.foldl_cons] at hfull

/-- Operator bytes in the arguments of a pipeline. -/
theorem operatorFree_segments (line : Bytes) :
    (∀ seg ∈ (parse line).segments, ∀ s ∈ seg, hasOp (Span.of line s) = false) ↔
      ∀ s, KeptWord line s → ¬RedirectionIn line (s.1 + 1) (s.1 + s.2) := by
  rw [parse_eq, segments_markBackground, operatorFree_unmark]
  apply forall_congr'
  intro s
  rw [mem_segments_readLine]
  apply forall_congr'
  intro hkept
  rw [← hasOp_word hkept.mem_lex, Bool.not_eq_true]

/-- Operator bytes in the target of a direction. -/
theorem operatorFree_target (line : Bytes) (out : Bool) :
    hasOp (Span.of line ((readLine line).target out)) = false ↔
      ∀ s, KeptTarget line out s → ¬RedirectionIn line s.1 (s.1 + s.2) := by
  constructor
  · intro h s hkept
    rw [← hasOp_redirect hkept.mem_lex, Bool.not_eq_true, ← h, hkept.target_eq]
  · intro h
    rcases Reading.target_foldl (lex line) (Reading.start (0, 0)) out with
      hstart | ⟨before, s, after, hlex, hroom, heq, hlast⟩
    · rw [readLine, hstart]
      rcases out
      · rfl
      · rfl
    · rw [Reading.takes_foldl] at hroom
      simp only [Reading.takes_foldl] at hlast
      have hkept : KeptTarget line out s := ⟨before, after, hlex, hroom, hlast⟩
      rw [hkept.target_eq, ← Bool.not_eq_true, hasOp_redirect hkept.mem_lex]
      exact h s hkept

/-- **The operator bytes that `parse` leaves in its spans** are those behind the first byte
of a word it keeps, and those in a target it keeps. -/
theorem operatorFree_parse (line : Bytes) :
    OperatorFree line (parse line) ↔ KeptApart line := by
  have hfiles : (parse line).stdoutFile = (readLine line).target true ∧
      (parse line).stdinFile = (readLine line).target false := by
    rw [parse_eq]
    have hmark := files_markBackground line (readLine line).finish
    have hclose := Reading.target_close (readLine line)
    exact ⟨hmark.1.trans (hclose true), hmark.2.trans (hclose false)⟩
  rw [OperatorFree, operatorFree_segments, hfiles.1, hfiles.2, operatorFree_target,
    operatorFree_target, KeptApart, Bool.forall_bool, and_comm (b := ∀ s, KeptTarget line true s → _)]

/-! ### The condition on the bytes of the line -/

/-- A token without an operator byte in its word or target. -/
def Token.Apart (line : Bytes) : Token Span → Prop
  | .pipe => True
  | .word s => ¬RedirectionIn line (s.1 + 1) (s.1 + s.2)
  | .redirect _ s => ¬RedirectionIn line s.1 (s.1 + s.2)

/-- No operator stands in the whitespace that a scan passes. -/
theorem not_redirectionAt_of_blank {line : Bytes} {i stop k : Nat}
    (hstop : scanWhile isWhitespace line i = stop) (hle : i ≤ k) (hlt : k < stop) :
    ¬RedirectionAt line k := by
  rw [← hstop] at hlt
  rintro (hk | hk)
  · exact absurd (Scan.scanWhile_sat isWhitespace line i k _ hle hlt hk) (by decide)
  · exact absurd (Scan.scanWhile_sat isWhitespace line i k _ hle hlt hk) (by decide)

/-- No operator stands where the bytes of a word end. -/
theorem not_redirectionAt_of_wordEnd {line : Bytes} {i stop : Nat}
    (hstop : scanWhile isWordByte line i = stop) : ¬RedirectionAt line stop := by
  rw [← hstop]
  rintro (hk | hk)
  · exact absurd (Scan.scanWhile_stop isWordByte line i _ hk) (by decide)
  · exact absurd (Scan.scanWhile_stop isWordByte line i _ hk) (by decide)

/-- Operators that are spaced stand at the start of their tokens. -/
theorem apart_of_spaced {line : Bytes} (h : Spaced line) :
    ∀ t ∈ lex line, t.Apart line := by
  intro t ht
  rcases tokenAt_of_mem_lexFrom ht with ⟨j, stop, htok⟩
  -- Behind a byte of a word there is no operator.
  have hinside : ∀ i k, scanWhile isWordByte line i = stop → i < k → k < i + (stop - i) →
      ¬RedirectionAt line k := by
    intro i k hstop hlt hend hk
    rcases k with _ | n
    · cases hlt
    · have hn : n < line.length := by
        rcases hk with hk | hk
        · exact Nat.lt_of_succ_lt (List.getElem?_eq_some_iff.mp hk).1
        · exact Nat.lt_of_succ_lt (List.getElem?_eq_some_iff.mp hk).1
      have hb := List.getElem?_eq_getElem hn
      have hsep := (h (n + 1) hk).1 n _ rfl hb
      have hword := isWordByte_of_scan hstop (Nat.le_of_lt_succ hlt) (by omega) hb
      rw [isSeparator, Bool.or_eq_true, beq_iff_eq] at hsep
      rw [isWordByte, Bool.and_eq_true, Bool.not_eq_true', bne_iff_ne] at hword
      rcases hsep with hsep | hsep
      · rw [hsep] at hword
        cases hword.1
      · exact hword.2 hsep
  rcases tokenAt_cases htok with ⟨-, rfl, -⟩ | ⟨b, start, hb, hop, hstart, hstop, rfl⟩ |
    ⟨b, -, -, -, hstop, rfl⟩
  · trivial
  · rintro ⟨k, hle, hlt, hk⟩
    rcases Nat.lt_or_ge start k with hgt | hge
    · exact hinside start k hstop hgt hlt hk
    · -- The target starts with an operator, and only whitespace stands in between.
      have heq : k = start := Nat.le_antisymm hge hle
      have hmove := le_scanWhile isWhitespace line (j + 1)
      have hat : RedirectionAt line j := by
        rw [RedirectionAt, hb]
        rcases hop with rfl | rfl
        · exact Or.inr rfl
        · exact Or.inl rfl
      rcases (h k hk).2 j (by omega) hat with ⟨n, b', hjn, hnk, hn, hblank⟩
      have hws := Scan.scanWhile_sat isWhitespace line (j + 1) n b' hjn (by omega) hn
      rw [hblank] at hws
      cases hws
  · rintro ⟨k, hle, hlt, hk⟩
    exact hinside j k hstop hle hlt hk

/-- A redirection is within the line. -/
theorem RedirectionAt.lt {line : Bytes} {k : Nat} (h : RedirectionAt line k) :
    k < line.length := by
  rcases h with h | h
  · exact (List.getElem?_eq_some_iff.mp h).1
  · exact (List.getElem?_eq_some_iff.mp h).1

/-- A stretch without an operator keeps what stands before it clear. -/
theorem ClearBefore.mono {line : Bytes} {i j : Nat} (h : ClearBefore line i) (hle : i ≤ j)
    (hfree : ∀ k, i ≤ k → k < j → ¬RedirectionAt line k) : ClearBefore line j := by
  intro k hk hat
  rcases Nat.lt_or_ge k i with hlt | hge
  · rcases h k hlt hat with ⟨n, b, hkn, hni, hb⟩
    exact ⟨n, b, hkn, Nat.lt_of_lt_of_le hni hle, hb⟩
  · exact absurd hat (hfree k hge hk)

/-- An operator with a byte other than whitespace behind it. -/
theorem clearBefore_of_byte {line : Bytes} {j stop : Nat} {b : UInt8}
    (hb : (line)[j]? = some b) (hblank : isWhitespace b = false) (hlt : j < stop)
    (hfree : ∀ k, j ≤ k → k < stop → ¬RedirectionAt line k) : ClearBefore line stop := by
  intro k hk hat
  refine ⟨j, b, ?_, hlt, hb, hblank⟩
  by_contra hge
  exact hfree k (Nat.le_of_not_lt hge) hk hat

/-- The lexer is at index `i`: an operator there has a separator before it, and what stands
before `i` is clear, unless a pipe or the end of the line comes next. -/
structure Ready (line : Bytes) (i : Nat) : Prop where
  separated : RedirectionAt line i → SeparatedBefore line i
  clear : ClearBefore line i ∨ (line)[i]? = none ∨ (line)[i]? = some '|'.toUInt8

/-- At the start of the line nothing stands before, so that there is nothing to separate. -/
theorem ready_zero (line : Bytes) : Ready line 0 where
  separated _ _ _ hn := nomatch hn
  clear := Or.inl fun _ hj => nomatch hj

/-- An operator at the start of a token stands as it has to. -/
theorem Ready.spaced {line : Bytes} {i j : Nat} (h : Ready line i)
    (hj : scanWhile isWhitespace line i = j) (hat : RedirectionAt line j) :
    SeparatedBefore line j ∧ ClearBefore line j := by
  have hij : i ≤ j := hj ▸ le_scanWhile isWhitespace line i
  rcases Nat.eq_or_lt_of_le hij with rfl | hlt
  · refine ⟨h.separated hat, h.clear.resolve_right ?_⟩
    rintro (hend | hpipe)
    · rcases hat with hat | hat <;> rw [hend] at hat <;> cases hat
    · exact hat.ne_pipe hpipe
  · have hws := fun n hle hlt b hb =>
      Scan.scanWhile_sat isWhitespace line i n b hle (hj ▸ hlt) hb
    constructor
    · rintro n b rfl hb
      rw [isSeparator, hws n (Nat.le_of_lt_succ hlt) (Nat.lt_succ_self n) b hb]
      rfl
    · have hi := List.getElem?_eq_getElem (Nat.lt_trans hlt hat.lt)
      refine ClearBefore.mono (h.clear.resolve_right ?_) hij
        fun k hle hlt => not_redirectionAt_of_blank hj hle hlt
      rintro (hend | hpipe)
      · rw [hend] at hi
        cases hi
      · exact absurd (hws i (Nat.le_refl i) hlt _ hpipe) (by decide)

/-- Behind a pipe the lexer is ready. -/
theorem ready_pipe {line : Bytes} {j : Nat} (hb : (line)[j]? = some '|'.toUInt8) :
    Ready line (j + 1) := by
  constructor
  case separated =>
    rintro - n b hn hb'
    rw [Nat.succ.inj hn, hb] at hb'
    cases hb'
    rfl
  case clear =>
    left
    apply clearBefore_of_byte hb (by decide) (Nat.lt_succ_self j)
    intro k hle hlt hat
    rw [Nat.le_antisymm (Nat.le_of_lt_succ hlt) hle] at hat
    exact hat.ne_pipe hb

/-- Behind the bytes of a word or a target without an operator the lexer is ready. There may
be none: then a pipe or the end of the line comes next. -/
theorem ready_word {line : Bytes} {start stop : Nat}
    (hblank : ∀ b, (line)[start]? = some b → isWhitespace b = false)
    (hstop : scanWhile isWordByte line start = stop)
    (hfree : ∀ k, start ≤ k → k < stop → ¬RedirectionAt line k) : Ready line stop := by
  refine ⟨fun hat => absurd hat (not_redirectionAt_of_wordEnd hstop), ?_⟩
  rcases hb : (line)[start]? with _ | b
  · right
    left
    rwa [← hstop, Scan.scanWhile_of_length_le _ _ _ (List.getElem?_eq_none_iff.mp hb)]
  · have hmove : start ≤ stop := hstop ▸ le_scanWhile isWordByte line start
    rcases Nat.eq_or_lt_of_le hmove with rfl | hlt
    · right
      right
      have hword := Scan.scanWhile_stop isWordByte line start b (hstop.symm ▸ hb)
      rw [isWordByte, hblank b hb, Bool.not_false, Bool.true_and, bne_eq_false_iff_eq] at hword
      rw [hb, hword]
    · exact Or.inl (clearBefore_of_byte hb (hblank b hb) hlt hfree)

/-- A token without an operator in its word or target has none behind its first byte, and the
lexer is ready behind it. -/
theorem ready_tokenAt {line : Bytes} {j stop : Nat} {t : Token Span}
    (hblank : ∀ b, (line)[j]? = some b → isWhitespace b = false)
    (htok : tokenAt line j = some (t, stop)) (h : t.Apart line) :
    (∀ k, j < k → k < stop → ¬RedirectionAt line k) ∧ Ready line stop := by
  rcases tokenAt_cases htok with ⟨hb, rfl, rfl⟩ | ⟨b, start, hb, -, hstart, hstop, rfl⟩ |
    ⟨b, hb, -, hop, hstop, rfl⟩
  · refine ⟨fun k hgt hlt => ?_, ready_pipe hb⟩
    exact absurd (Nat.le_of_lt_succ hlt) (Nat.not_le.mpr hgt)
  · have htarget : ∀ k, start ≤ k → k < stop → ¬RedirectionAt line k := fun k hle hlt hat =>
      h ⟨k, hle, by omega, hat⟩
    refine ⟨fun k hgt hlt => ?_, ready_word ?_ hstop htarget⟩
    · rcases Nat.lt_or_ge k start with hlt' | hge'
      · exact not_redirectionAt_of_blank hstart hgt hlt'
      · exact htarget k hge' hlt
    · rw [← hstart]
      exact Scan.scanWhile_stop isWhitespace line (j + 1)
  · have hbehind : ∀ k, j < k → k < stop → ¬RedirectionAt line k := fun k hgt hlt hat =>
      h ⟨k, hgt, by omega, hat⟩
    refine ⟨hbehind, ready_word hblank hstop fun k hle hlt hat => ?_⟩
    rcases Nat.eq_or_lt_of_le hle with rfl | hlt'
    · rw [RedirectionAt, hb] at hat
      rcases hat with hat | hat
      · exact hop (Or.inr (Option.some.inj hat))
      · exact hop (Or.inl (Option.some.inj hat))
    · exact hbehind k hlt' hlt hat

/-- And operators at the start of their tokens are spaced. -/
theorem spaced_of_apart {line : Bytes} {i : Nat} (h : ∀ t ∈ lexFrom line i, t.Apart line)
    (hready : Ready line i) :
    ∀ k, i ≤ k → RedirectionAt line k → SeparatedBefore line k ∧ ClearBefore line k := by
  fun_induction lexFrom line i with
  | case1 i hnone =>
    intro k hle hk
    rcases Nat.lt_or_ge k (scanWhile isWhitespace line i) with hlt | hge
    · exact absurd hk (not_redirectionAt_of_blank rfl hle hlt)
    · have hget := List.getElem?_eq_getElem (Nat.lt_of_le_of_lt hge hk.lt)
      rcases tokenAt_isSome hget with ⟨t, stop, htok⟩
      rw [hnone] at htok
      cases htok
  | case2 i t stop htok ih =>
    have hblank := Scan.scanWhile_stop isWhitespace line i
    rcases ready_tokenAt hblank htok (h t List.mem_cons_self) with ⟨hinside, hbehind⟩
    intro k hle hk
    -- In the whitespace, at the token, in the token or behind it.
    rcases Nat.lt_trichotomy k (scanWhile isWhitespace line i) with hlt | rfl | hgt
    · exact absurd hk (not_redirectionAt_of_blank rfl hle hlt)
    · exact hready.spaced rfl hk
    · rcases Nat.lt_or_ge k stop with hlt | hge
      · exact absurd hk (hinside k hgt hlt)
      · exact ih (fun t ht => h t (List.mem_cons_of_mem _ ht)) hbehind k hge hk

/-- **The operators of a line stand at the start of its tokens** exactly when they are
spaced. -/
theorem apart_iff_spaced (line : Bytes) : (∀ t ∈ lex line, t.Apart line) ↔ Spaced line := by
  constructor
  · intro h k hk
    exact spaced_of_apart h (ready_zero line) k (Nat.zero_le k) hk
  · exact apart_of_spaced

/-- **When the bytes that `has_op` looks at are operators for the parser.** No span of `parse` holds
an operator byte on a line whose `<` and `>` are spaced, and on a line of which the parser keeps every
word and target on no other. In general this is so if and only if no word and no target that it keeps
holds a `<` or `>` that does not start it. -/
theorem operatorFree_parse_iff (line : Bytes) :
    (Spaced line → OperatorFree line (parse line)) ∧
    (KeepsAll line → (OperatorFree line (parse line) ↔ Spaced line)) ∧
    (OperatorFree line (parse line) ↔ KeptApart line) := by
  have hkept : (∀ t ∈ lex line, t.Apart line) → KeptApart line := by
    intro h
    exact ⟨fun s hs => h (.word s) hs.mem_lex, fun out s hs => h (.redirect out s) hs.mem_lex⟩
  refine ⟨fun h => ?_, fun hall => ?_, operatorFree_parse line⟩
  · exact (operatorFree_parse line).mpr (hkept ((apart_iff_spaced line).mpr h))
  · rw [operatorFree_parse, ← apart_iff_spaced]
    refine ⟨fun h t ht => ?_, hkept⟩
    rcases t with _ | s | ⟨out, s⟩
    · trivial
    · exact h.1 s (hall.1 s ht)
    · exact h.2 out s (hall.2 out s ht)

/-- `a>b` is one word. -/
theorem not_operatorFree_glued :
    hasOp (bytes "echo a>b") = true ∧ ¬OperatorFree (bytes "echo a>b") (parse (bytes "echo a>b")) ∧
    (parse (bytes "echo a>b")).segments = [[(0, 4), (5, 3)]] := by
  have hparse : (parse (bytes "echo a>b")).segments = [[(0, 4), (5, 3)]] := by decide +kernel
  refine ⟨by decide, ?_, hparse⟩
  intro h
  have hspan := h.1 [(0, 4), (5, 3)] (by rw [hparse]; exact List.mem_singleton_self _) (5, 3)
    (by decide)
  exact absurd hspan (by decide)

end OnyxShell
