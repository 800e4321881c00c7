import Mathlib.Data.List.TakeWhile
import OnyxShell.Pipeline.Spans
import OnyxShell.Words
import OnyxShell.Proofs.Pipeline.RoundTrip

/-!
# `OnyxShell.Proofs.Words`: the tokenizers find the words

`wordSpans` is the loop of a tokenizer without a bound, and its spans are the words of the
line (`read_wordSpans`). `io::tokenize` stops after 16 of them, and the lexer of the
parser reads the same spans where no operator stands.
-/

set_option autoImplicit false

namespace OnyxShell

open Scan (scanWhile le_scanWhile lt_scanWhile scanWhile_stop drop_scanWhile take_scanWhile
  scanWhile_eq_takeWhile)

/-- The spans of the words from index `i` on. -/
def wordSpans (line : Bytes) (i : Nat) : List Span :=
  if _h : scanWhile isWhitespace line i < line.length then
    (scanWhile isWhitespace line i,
      scanWhile (fun b => !isWhitespace b) line (scanWhile isWhitespace line i)
        - scanWhile isWhitespace line i) ::
      wordSpans line (scanWhile (fun b => !isWhitespace b) line (scanWhile isWhitespace line i))
  else []
termination_by line.length - i
decreasing_by
  have hget := List.getElem?_eq_getElem _h
  have hstop := scanWhile_stop isWhitespace line i _ hget
  have hle := le_scanWhile isWhitespace line i
  have hlt := lt_scanWhile (fun b => !isWhitespace b) line _ _ hget (by simp [hstop])
  omega

/-! ### The words of a line -/

/-- Whitespace at the start is skipped. -/
theorem lineWords_cons_whitespace {b : UInt8} (h : isWhitespace b = true) (line : Bytes) :
    lineWords (b :: line) = lineWords line := by
  rw [lineWords, List.splitOnP_cons_eq_if_modifyHead, if_pos h]
  rfl

/-- The empty line has no words. -/
theorem lineWords_nil : lineWords [] = [] := by
  rw [lineWords, List.splitOnP_nil]
  rfl

/-- Whitespace in front of the words does not count. -/
theorem lineWords_dropWhile (line : Bytes) :
    lineWords (line.dropWhile isWhitespace) = lineWords line := by
  induction line with
  | nil => rfl
  | cons b line ih =>
    rw [List.dropWhile_cons]
    split
    · rename_i h
      rw [ih, lineWords_cons_whitespace h]
    · rfl

/-- A word up to the next whitespace is the first word of the line. -/
theorem lineWords_append {w rest : Bytes} (hne : w ≠ []) (hw : ∀ b ∈ w, isWhitespace b = false)
    (hrest : ∀ b, rest.head? = some b → isWhitespace b = true) :
    lineWords (w ++ rest) = w :: lineWords rest := by
  have hword : (!w.isEmpty) = true := by
    rcases w with _ | ⟨b, w⟩
    · exact absurd rfl hne
    · rfl
  rcases rest with _ | ⟨b, rest⟩
  · rw [List.append_nil, lineWords_nil, lineWords, List.splitOnP_eq_singleton hw, List.filter_cons,
      if_pos hword]
    rfl
  · have hb := hrest b rfl
    rw [lineWords_cons_whitespace hb, lineWords, List.splitOnP_append_cons_of_forall_mem hw b hb,
      List.filter_cons, if_pos hword]
    rfl

/-- The word at an index that skipped whitespace, and the words behind it. -/
theorem lineWords_drop {line : Bytes} {i : Nat}
    (h : scanWhile isWhitespace line i < line.length) :
    lineWords (line.drop i) =
      (line.drop (scanWhile isWhitespace line i)).takeWhile (fun b => !isWhitespace b) ::
        lineWords (line.drop
          (scanWhile (fun b => !isWhitespace b) line (scanWhile isWhitespace line i))) := by
  have hstop := scanWhile_stop isWhitespace line i _ (List.getElem?_eq_getElem h)
  rw [← lineWords_dropWhile, ← drop_scanWhile]
  generalize scanWhile isWhitespace line i = start at h hstop
  have hsplit := List.takeWhile_append_dropWhile (p := fun b => !isWhitespace b) (l := line.drop start)
  conv_lhs => rw [← hsplit]
  rw [drop_scanWhile]
  apply lineWords_append
  · rw [List.drop_eq_getElem_cons h, List.takeWhile_cons, if_pos (by simp [hstop])]
    exact List.cons_ne_nil _ _
  · intro b hb
    simpa using List.mem_takeWhile_imp hb
  · intro b hb
    have hnot := List.head?_dropWhile_not (fun b => !isWhitespace b) (line.drop start)
    rw [hb] at hnot
    simpa using hnot

/-- The spans are the words. -/
theorem read_wordSpans (line : Bytes) (i : Nat) :
    (wordSpans line i).map (Span.read line) = (lineWords (line.drop i)).map measured := by
  fun_induction wordSpans line i with
  | case1 i h ih =>
    have hread : Span.read line (scanWhile isWhitespace line i,
        scanWhile (fun b => !isWhitespace b) line (scanWhile isWhitespace line i)
          - scanWhile isWhitespace line i)
        = measured ((line.drop (scanWhile isWhitespace line i)).takeWhile
            fun b => !isWhitespace b) := by
      rw [Span.read, measured, Span.of, take_scanWhile, scanWhile_eq_takeWhile (fun b => !isWhitespace b),
        Nat.add_sub_cancel_left]
    rw [lineWords_drop h, List.map_cons, List.map_cons, ih, hread]
  | case2 i h =>
    have hdrop : (line.drop i).dropWhile isWhitespace = [] := by
      rw [← drop_scanWhile]
      exact List.drop_eq_nil_of_le (Nat.le_of_not_lt h)
    rw [← lineWords_dropWhile, hdrop, lineWords_nil]
    rfl

/-- The slices of the spans. -/
theorem of_wordSpans (line : Bytes) : (wordSpans line 0).map (Span.of line) = lineWords line := by
  have hread := congrArg (List.map Prod.fst) (read_wordSpans line 0)
  rw [List.map_map, List.map_map, List.drop_zero] at hread
  exact hread.trans (List.map_id _)

/-- As many spans as words. -/
theorem length_wordSpans (line : Bytes) : (wordSpans line 0).length = (lineWords line).length := by
  rw [← of_wordSpans, List.length_map]

/-- From a break on, the spans are the longest runs without whitespace. -/
theorem mem_wordSpans {line : Bytes} {i : Nat} (hbreak : Scan.Break (fun b => !isWhitespace b) line i)
    (s : Span) :
    s ∈ wordSpans line i ↔ i ≤ s.1 ∧ Scan.IsRun (fun b => !isWhitespace b) line s.1 s.2 := by
  have hskips : ∀ b, isWhitespace b = true → (!isWhitespace b) = false := by
    intro b hb
    rw [hb]
    rfl
  fun_induction wordSpans line i with
  | case1 i h ih =>
    have hget := List.getElem?_eq_getElem h
    have hstart := scanWhile_stop isWhitespace line i _ hget
    have hle := le_scanWhile isWhitespace line i
    have hrun := Scan.isRun_scanWhile (p := fun b => !isWhitespace b) hget (by rw [hstart]; rfl)
      (hbreak.scanWhile hskips)
    have hmove := le_scanWhile (fun b => !isWhitespace b) line (scanWhile isWhitespace line i)
    have htail := ih (Scan.break_scanWhile _ line _)
    constructor
    · intro hmem
      rcases List.mem_cons.mp hmem with rfl | hmem
      · exact ⟨hle, hrun⟩
      · rcases htail.mp hmem with ⟨hs, hs'⟩
        exact ⟨by omega, hs'⟩
    · rintro ⟨hs, hs'⟩
      rw [List.mem_cons]
      rcases Nat.eq_or_lt_of_le (hs'.scan_le hskips hs) with heq | hlt
      · -- Both runs begin here, so they end at the same place.
        left
        have hstop := hs'.stop
        rw [← heq] at hstop
        rw [hstop, heq, Nat.add_sub_cancel_left]
      · exact Or.inr (htail.mpr ⟨hs'.stop_le hlt, hs'⟩)
  | case2 i h =>
    -- Only whitespace is left, so no run fits.
    refine ⟨fun hs => absurd hs List.not_mem_nil, ?_⟩
    rintro ⟨hs, hs'⟩
    have := hs'.scan_le hskips hs
    have := hs'.pos
    have := hs'.inside
    omega

/-- The spans lie behind the index. -/
theorem le_of_mem_wordSpans {line : Bytes} {i : Nat} {s : Span} (hs : s ∈ wordSpans line i) :
    i ≤ s.1 := by
  fun_induction wordSpans line i with
  | case1 i h ih =>
    have hle := le_scanWhile isWhitespace line i
    have hmove := le_scanWhile (fun b => !isWhitespace b) line (scanWhile isWhitespace line i)
    rcases List.mem_cons.mp hs with rfl | hs
    · exact hle
    · have := ih hs
      omega
  | case2 i h => cases hs

/-- The spans lie one behind the other. -/
theorem pairwise_wordSpans (line : Bytes) (i : Nat) : (wordSpans line i).Pairwise Span.Before := by
  fun_induction wordSpans line i with
  | case1 i h ih =>
    refine List.Pairwise.cons ?_ ih
    intro s hs
    have hmove := le_scanWhile (fun b => !isWhitespace b) line (scanWhile isWhitespace line i)
    have := le_of_mem_wordSpans hs
    rw [Span.Before]
    omega
  | case2 i h => exact List.Pairwise.nil

/-- Words joined by single spaces are the words of the line. -/
theorem lineWords_intercalate {ws : List Bytes}
    (h : ∀ w ∈ ws, w ≠ [] ∧ ∀ b ∈ w, isWhitespace b = false) :
    lineWords ([' '.toUInt8].intercalate ws) = ws := by
  induction ws with
  | nil => exact lineWords_nil
  | cons w ws ih =>
    rcases h w List.mem_cons_self with ⟨hne, hw⟩
    have hrest := ih fun v hv => h v (List.mem_cons_of_mem _ hv)
    rcases ws with _ | ⟨v, ws⟩
    · rw [List.intercalate_singleton]
      have hword : lineWords (w ++ []) = w :: lineWords [] := lineWords_append hne hw (by simp)
      rwa [List.append_nil, lineWords_nil] at hword
    · rw [List.intercalate_cons_cons, List.append_assoc,
        lineWords_append hne hw (by intro b hb; cases hb; decide)]
      rw [List.singleton_append, lineWords_cons_whitespace (by decide), hrest]

/-- The pieces of the front of a line are the first pieces of the line, the last one
perhaps cut. -/
theorem splitOnP_take (p : UInt8 → Bool) (line : Bytes) (n : Nat) :
    ∃ front rest, line.splitOnP p = front ++ rest ∧
      List.Forall₂ (· <+: ·) ((line.take n).splitOnP p) front := by
  induction line generalizing n with
  | nil =>
    rw [List.take_nil, List.splitOnP_nil]
    exact ⟨[[]], [], rfl, List.Forall₂.cons (List.prefix_refl _) List.Forall₂.nil⟩
  | cons b line ih =>
    rcases n with _ | n
    · -- Nothing is left of the first piece.
      rcases hsplit : (b :: line).splitOnP p with _ | ⟨piece, rest⟩
      · exact absurd hsplit (List.splitOnP_ne_nil p _)
      · rw [List.take_zero, List.splitOnP_nil]
        exact ⟨[piece], rest, rfl, List.Forall₂.cons List.nil_prefix List.Forall₂.nil⟩
    · rcases ih n with ⟨front, rest, hsplit, hfront⟩
      rw [List.take_succ_cons, List.splitOnP_cons_eq_if_modifyHead,
        List.splitOnP_cons_eq_if_modifyHead, hsplit]
      split
      · exact ⟨[] :: front, rest, rfl, List.Forall₂.cons (List.prefix_refl _) hfront⟩
      · rcases hcut : (line.take n).splitOnP p with _ | ⟨piece, pieces⟩
        · exact absurd hcut (List.splitOnP_ne_nil p _)
        · rw [hcut] at hfront
          cases hfront with
          | cons hpiece hpieces =>
            exact ⟨_, rest, rfl,
              List.Forall₂.cons ((List.prefix_cons_inj b).mpr hpiece) hpieces⟩

/-- Pieces that are fronts of others have no more words among them. -/
theorem filter_of_forall₂ {pieces front : List Bytes} (h : List.Forall₂ (· <+: ·) pieces front) :
    (pieces.filter fun w => !w.isEmpty).length ≤ (front.filter fun w => !w.isEmpty).length ∧
      ∀ w ∈ pieces.filter fun w => !w.isEmpty, ∃ v ∈ front.filter fun w => !w.isEmpty, w <+: v := by
  induction h with
  | nil => exact ⟨Nat.le_refl _, fun w hw => absurd hw List.not_mem_nil⟩
  | @cons piece whole pieces front hpiece _ ih =>
    have hsub := (List.sublist_cons_self whole front).filter fun w => !w.isEmpty
    rcases piece with _ | ⟨b, piece⟩
    · -- An empty piece is no word.
      rw [List.filter_cons_of_neg (by simp)]
      refine ⟨Nat.le_trans ih.1 hsub.length_le, ?_⟩
      intro w hw
      rcases ih.2 w hw with ⟨v, hv, hprefix⟩
      exact ⟨v, hsub.mem hv, hprefix⟩
    · rcases hpiece with ⟨tail, rfl⟩
      rw [List.filter_cons_of_pos (by simp), List.filter_cons_of_pos (by simp)]
      refine ⟨Nat.succ_le_succ ih.1, ?_⟩
      intro w hw
      rcases List.mem_cons.mp hw with rfl | hw
      · exact ⟨_, List.mem_cons_self, List.prefix_append _ _⟩
      · rcases ih.2 w hw with ⟨v, hv, hprefix⟩
        exact ⟨v, List.mem_cons_of_mem _ hv, hprefix⟩

/-- The front of a line has no more words than the line, and each is the front of one. -/
theorem lineWords_take (line : Bytes) (n : Nat) :
    (lineWords (line.take n)).length ≤ (lineWords line).length ∧
      ∀ w ∈ lineWords (line.take n), ∃ v ∈ lineWords line, w <+: v := by
  rcases splitOnP_take isWhitespace line n with ⟨front, rest, hsplit, hfront⟩
  have hwords := filter_of_forall₂ hfront
  have hsub : (front.filter fun w => !w.isEmpty).Sublist (lineWords line) := by
    rw [lineWords, hsplit]
    exact (List.sublist_append_left front rest).filter _
  refine ⟨Nat.le_trans hwords.1 hsub.length_le, ?_⟩
  intro w hw
  rcases hwords.2 w hw with ⟨v, hv, hprefix⟩
  exact ⟨v, hsub.mem hv, hprefix⟩

/-! ### The tokenizers -/

/-- Where only whitespace is left, there are no more words. -/
theorem wordSpans_nil {line : Bytes} {i : Nat}
    (h : line.length ≤ scanWhile isWhitespace line i) : wordSpans line i = [] := by
  rw [wordSpans, dif_neg (Nat.not_lt.mpr h)]

/-- The next word goes up to the next whitespace, and the others are behind it. With
`wordSpans_nil` it is the tokeniser's loop, one turn at a time. -/
theorem wordSpans_cons {line : Bytes} {i : Nat}
    (h : scanWhile isWhitespace line i < line.length) :
    wordSpans line i =
      (scanWhile isWhitespace line i,
        scanWhile (fun b => !isWhitespace b) line (scanWhile isWhitespace line i)
          - scanWhile isWhitespace line i) ::
        wordSpans line
          (scanWhile (fun b => !isWhitespace b) line (scanWhile isWhitespace line i)) := by
  rw [wordSpans, dif_pos h]

/-- The loop of `io::tokenize` fills up with words from its index on. -/
theorem tokenizeLoop_eq {line : Bytes} {i : Nat} {tokens : List Span}
    (hlen : tokens.length ≤ MAX_TOKENS) :
    tokenizeLoop line i tokens = (tokens ++ wordSpans line i).take MAX_TOKENS := by
  fun_induction tokenizeLoop line i tokens with
  | case1 i tokens h start hend =>
    rw [wordSpans_nil hend, List.append_nil, List.take_of_length_le hlen]
  | case2 i tokens h start hmore stop ih =>
    rw [ih (by rw [List.length_append]; exact h.2), wordSpans_cons (Nat.lt_of_not_le hmore),
      List.append_assoc]
    rfl
  | case3 i tokens h =>
    by_cases hroom : tokens.length < MAX_TOKENS
    · -- The index is at the end.
      have hend : line.length ≤ i := by
        by_contra hlt
        exact h ⟨Nat.lt_of_not_le hlt, hroom⟩
      rw [wordSpans_nil (Nat.le_trans hend (le_scanWhile _ _ _)), List.append_nil,
        List.take_of_length_le hlen]
    · rw [List.take_append_of_le_length (Nat.le_of_not_lt hroom), List.take_of_length_le hlen]

/-- `io::tokenize` returns the spans of the first 16 words. -/
theorem tokenize_eq_wordSpans (line : Bytes) :
    tokenize line = (wordSpans line 0).take MAX_TOKENS := by
  rw [tokenize, tokenizeLoop_eq (Nat.zero_le _), List.nil_append]

/-- **`io::tokenize` finds the first 16 words** of the line. -/
theorem tokenize_eq (line : Bytes) :
    (tokenize line).map (Span.read line) = ((lineWords line).take MAX_TOKENS).map measured := by
  rw [tokenize_eq_wordSpans, List.map_take, read_wordSpans, List.drop_zero, List.map_take]

/-- The slices of these words. -/
theorem tokenize_words (line : Bytes) :
    (tokenize line).map (Span.of line) = (lineWords line).take MAX_TOKENS := by
  rw [tokenize_eq_wordSpans, List.map_take, of_wordSpans]

/-- No byte of the line is an operator. -/
def NoOperator (line : Bytes) : Prop :=
  ∀ b ∈ line, b ≠ '|'.toUInt8 ∧ b ≠ '<'.toUInt8 ∧ b ≠ '>'.toUInt8

/-- Without an operator, the tokens of the parser are the words. -/
theorem lexFrom_eq_wordSpans {line : Bytes} (hop : NoOperator line) (i : Nat) :
    lexFrom line i = (wordSpans line i).map Token.word := by
  fun_induction wordSpans line i with
  | case1 i h ih =>
    have hget := List.getElem?_eq_getElem h
    have hbyte := hop _ (List.getElem_mem h)
    have hscan : ∀ j, scanWhile isWordByte line j = scanWhile (fun b => !isWhitespace b) line j :=
      Scan.scanWhile_congr fun b hb => by simp [isWordByte, (hop b hb).1]
    have htok := tokenAt_word hget hbyte.1
      (fun h => h.elim hbyte.2.2 hbyte.2.1) (hscan _)
    rw [lexFrom_cons htok, List.map_cons, ih]
  | case2 i h =>
    exact lexFrom_nil (tokenAt_end (List.getElem?_eq_none (Nat.le_of_not_lt h)))

end OnyxShell
