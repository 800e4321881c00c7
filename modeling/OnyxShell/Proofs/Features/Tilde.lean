import OnyxShell.Features.Expansion
import OnyxShell.Proofs.Words

/-!
# `OnyxShell.Proofs.Features.Tilde`: tildes are expanded word by word

`expand_tilde` looks for a tilde behind a blank, jumps over the user name and copies the
rest byte by byte. `text_pieces_tildes` says that this is one rewritten word after the
other, and `lineWords_replace` that the words of a line rewritten word by word are the
rewritten words. `items_expandTilde_words` puts the two together.
-/

set_option autoImplicit false

namespace OnyxShell

open Scan (scanWhile scanWhile_eq_takeWhile)

/-- A byte of a word. -/
def isInWord (b : UInt8) : Bool := !isWhitespace b

/-! ### Lines rewritten word by word -/

/-- At whitespace no word begins. -/
theorem readWord_of_whitespace {b : UInt8} (hb : isWhitespace b = true) (rest : Bytes) :
    wordReader.read (b :: rest) = none := if_pos hb

/-- Anywhere else a word begins, and goes up to the next whitespace. -/
theorem readWord_of_inWord {b : UInt8} (hb : isWhitespace b = false) (rest : Bytes) :
    wordReader.read (b :: rest)
      = some ((b :: rest).takeWhile isInWord, (b :: rest).dropWhile isInWord) := by
  have hin : isInWord b = true := by rw [isInWord, hb]; rfl
  rw [List.takeWhile_cons_of_pos hin, List.dropWhile_cons_of_pos hin]
  exact if_neg (by rw [hb]; decide)

/-- Where a word ends, there is whitespace. -/
theorem head?_dropWhile_isInWord {line : Bytes} {b : UInt8}
    (h : (line.dropWhile isInWord).head? = some b) : isWhitespace b = true := by
  have hnot := List.head?_dropWhile_not isInWord line
  rw [h] at hnot
  simpa [isInWord] using hnot

/-- The bytes of a word are no whitespace. -/
theorem takeWhile_isInWord {line : Bytes} {b : UInt8} (h : b ∈ line.takeWhile isInWord) :
    isWhitespace b = false := by
  have hin := List.mem_takeWhile_imp h
  simpa [isInWord] using hin

/-- Whitespace at the front stays at the front. -/
theorem head?_replace {g : Bytes → Bytes} {line : Bytes}
    (h : ∀ b, line.head? = some b → isWhitespace b = true) :
    ∀ b, (wordReader.replace g line).head? = some b → isWhitespace b = true := by
  cases line with
  | nil =>
    intro b hb
    rw [Reader.replace] at hb
    cases hb
  | cons c line =>
    intro b hb
    have hc := h c rfl
    rw [Reader.replace_none (readWord_of_whitespace hc line)] at hb
    cases hb
    exact hc

/-- The words of a line rewritten word by word are the rewritten words. -/
theorem lineWords_replace {g : Bytes → Bytes}
    (hg : ∀ w, w ≠ [] → (∀ b ∈ w, isWhitespace b = false) →
      g w ≠ [] ∧ ∀ b ∈ g w, isWhitespace b = false) (line : Bytes) :
    lineWords (wordReader.replace g line) = (lineWords line).map g := by
  -- A word is read whole, so the induction is on the length of what is left.
  induction hlen : line.length using Nat.strong_induction_on generalizing line with
  | _ n ih =>
    cases line with
    | nil =>
      rw [Reader.replace, lineWords_nil]
      rfl
    | cons b line =>
      subst hlen
      by_cases hb : isWhitespace b = true
      · rw [Reader.replace_none (readWord_of_whitespace hb line), lineWords_cons_whitespace hb,
          lineWords_cons_whitespace hb]
        exact ih line.length (Nat.lt_succ_self _) line rfl
      · have hin := Bool.eq_false_iff.mpr hb
        have hread := readWord_of_inWord hin line
        have hsplit := List.takeWhile_append_dropWhile (p := isInWord) (l := b :: line)
        have hne : (b :: line).takeWhile isInWord ≠ [] := by
          rw [List.takeWhile_cons_of_pos (by rw [isInWord, hin]; rfl)]
          exact List.cons_ne_nil _ _
        have hword := fun c (hc : c ∈ (b :: line).takeWhile isInWord) => takeWhile_isInWord hc
        rcases hg _ hne hword with ⟨hgne, hgword⟩
        have hrest := ih _ (wordReader.lt hread) _ rfl
        rw [Reader.replace_some hread, lineWords_append hgne hgword
          (head?_replace fun c hc => head?_dropWhile_isInWord hc), hrest]
        conv_rhs => rw [← hsplit, lineWords_append hne hword fun c hc => head?_dropWhile_isInWord hc]
        rw [List.map_cons]

/-! ### The pass of `expand_tilde` -/

/-- What a tilde is replaced by, with the rest of its word behind it. -/
def tildeText (home : Option Bytes) (rest : Bytes) : Bytes :=
  if rest.takeWhile isUserByte = [] then home.getD (bytes "/users/root") else bytes "/users/"

/-- A word that begins with a tilde. -/
theorem tildeWord_tilde (home : Option Bytes) (rest : Bytes) :
    tildeWord home ('~'.toUInt8 :: rest.takeWhile isInWord)
      = tildeText home rest ++ rest.takeWhile isInWord := by
  rw [tildeWord, if_neg (by simp), tildeText]
  have hcases : (rest.takeWhile isInWord = [] ∨
      (rest.takeWhile isInWord).head? = some '/'.toUInt8) ↔ rest.takeWhile isUserByte = [] := by
    rcases rest with _ | ⟨b, rest⟩
    · simp
    · by_cases hb : isWhitespace b = true
      · simp [isInWord, isUserByte, hb]
      · simp [List.takeWhile_cons, isInWord, isUserByte, hb]
  by_cases huser : rest.takeWhile isUserByte = []
  · rw [if_pos (hcases.mpr huser), if_pos huser]
  · rw [if_neg fun h => huser (hcases.mp h), if_neg huser]

/-- What `expand_tilde` finds at a tilde in front of a word. -/
theorem tildeAt_front (env : Env) {line : Bytes} {i : Nat} (hi : (line)[i]? = some '~'.toUInt8)
    (hfront : i = 0 ∨ (line)[i - 1]? = some ' '.toUInt8 ∨ (line)[i - 1]? = some '\t'.toUInt8) :
    tildeAt env line i =
      some (tildeText (env.get (bytes "HOME")) (line.drop (i + 1)) ++
        (line.drop (i + 1)).takeWhile isUserByte,
        i + 1 + ((line.drop (i + 1)).takeWhile isUserByte).length) := by
  rw [tildeAt, if_pos ⟨hi, hfront⟩, tildeText]
  simp only [scanWhile_eq_takeWhile]
  by_cases huser : (line.drop (i + 1)).takeWhile isUserByte = []
  · rw [huser, List.length_nil, if_pos rfl, if_pos rfl, List.append_nil]
  · have hlen := List.length_pos_of_ne_nil huser
    rw [if_neg (by omega), if_neg huser, Span.of, Nat.add_sub_cancel_left]
    rw [← List.prefix_iff_eq_take.mp (List.takeWhile_prefix isUserByte)]

/-- Elsewhere it finds nothing. -/
theorem tildeAt_none {env : Env} {line : Bytes} {i : Nat}
    (h : (line)[i]? ≠ some '~'.toUInt8 ∨
      0 < i ∧ ∃ b, (line)[i - 1]? = some b ∧ isWhitespace b = false) :
    tildeAt env line i = none := by
  refine if_neg ?_
  rintro ⟨htilde, hfront⟩
  rcases h with hne | ⟨hpos, b, hb, hin⟩
  · exact hne htilde
  · rcases hfront with rfl | hblank | hblank
    · exact absurd hpos (Nat.lt_irrefl 0)
    · rw [hblank] at hb
      cases hb
      exact absurd hin (by decide)
    · rw [hblank] at hb
      cases hb
      exact absurd hin (by decide)

/-- A run of bytes at an index is what stands there. -/
theorem take_length_takeWhile (p : UInt8 → Bool) (line : Bytes) :
    line.take (line.takeWhile p).length = line.takeWhile p :=
  (List.prefix_iff_eq_take.mp (List.takeWhile_prefix p)).symm

/-- The user name is the front of the rest of its word. -/
theorem length_takeWhile_isUserByte_le (line : Bytes) :
    (line.takeWhile isUserByte).length ≤ (line.takeWhile isInWord).length := by
  have hsame : (line.takeWhile isInWord).takeWhile isUserByte = line.takeWhile isUserByte := by
    rw [List.takeWhile_takeWhile]
    congr 1
    funext b
    rw [Bool.eq_iff_iff]
    simp [isUserByte, isInWord]
  rw [← hsame]
  exact (List.takeWhile_prefix isUserByte).length_le

/-- A word ends inside the line. -/
theorem add_length_word_le {line : Bytes} {i : Nat} (hi : i ≤ line.length) :
    i + ((line.drop i).takeWhile isInWord).length ≤ line.length := by
  rw [← scanWhile_eq_takeWhile]
  exact Scan.scanWhile_le_length isInWord line i hi

/-- Behind the first byte of a word, nothing is found up to its end. -/
theorem tildeAt_inside (env : Env) {line : Bytes} {i k : Nat} (hi : i < line.length) (hik : i < k)
    (hk : k < i + ((line.drop i).takeWhile isInWord).length) : tildeAt env line k = none := by
  have hscan := scanWhile_eq_takeWhile isInWord line i
  have hend := add_length_word_le (Nat.le_of_lt hi)
  have hlt : k - 1 < line.length := by omega
  refine tildeAt_none (Or.inr ⟨Nat.lt_of_le_of_lt (Nat.zero_le i) hik, _,
    List.getElem?_eq_getElem hlt, ?_⟩)
  have hsat := Scan.scanWhile_sat isInWord line i (k - 1) _ (by omega) (by omega)
    (List.getElem?_eq_getElem hlt)
  simpa [isInWord] using hsat

/-- A word with a tilde is rewritten: the pass jumps to the end of the user name and copies the
rest of the word. -/
theorem text_pieces_tildeWord (env : Env) {line : Bytes} {i : Nat} (hi : i < line.length)
    (htilde : (line)[i] = '~'.toUInt8)
    (hfront : i = 0 ∨ (line)[i - 1]? = some ' '.toUInt8 ∨ (line)[i - 1]? = some '\t'.toUInt8) :
    ((tildeFinder env line).pieces line i).flatMap (Piece.text id)
      = tildeWord (env.get (bytes "HOME")) ((line.drop i).takeWhile isInWord) ++
        ((tildeFinder env line).pieces line
          (i + ((line.drop i).takeWhile isInWord).length)).flatMap (Piece.text id) := by
  have hend := add_length_word_le (Nat.le_of_lt hi)
  have hget := List.getElem?_eq_getElem hi
  have hdrop := List.drop_eq_getElem_cons hi
  rw [htilde] at hget hdrop
  have hfound := tildeAt_front env hget hfront
  have hword : (line.drop i).takeWhile isInWord
      = '~'.toUInt8 :: (line.drop (i + 1)).takeWhile isInWord := by
    rw [hdrop, List.takeWhile_cons_of_pos (by decide)]
  have hlen := congrArg List.length hword
  rw [List.length_cons] at hlen
  -- `n` bytes of the word stand behind the user name.
  obtain ⟨n, hn⟩ := Nat.exists_eq_add_of_le (length_takeWhile_isUserByte_le (line.drop (i + 1)))
  have hskip := Finder.text_pieces_skip (f := tildeFinder env line) (g := id)
    (show i + 1 + ((line.drop (i + 1)).takeWhile isUserByte).length + n ≤ line.length by omega)
    fun k hik hk => tildeAt_inside env hi (by omega) (by omega)
  have hrest : (line.drop (i + 1)).takeWhile isUserByte ++
      (line.drop (i + 1 + ((line.drop (i + 1)).takeWhile isUserByte).length)).take n
        = (line.drop (i + 1)).takeWhile isInWord := by
    have hdrop' := List.drop_drop (i := ((line.drop (i + 1)).takeWhile isUserByte).length)
      (j := i + 1) (l := line)
    rw [← hdrop', ← take_length_takeWhile isInWord, hn, List.take_add, take_length_takeWhile]
  have hstop : i + 1 + ((line.drop (i + 1)).takeWhile isUserByte).length + n
      = i + ((line.drop i).takeWhile isInWord).length := by omega
  rw [hstop] at hskip
  rw [Finder.pieces_found hi hfound, List.flatMap_cons, hskip, hword, tildeWord_tilde, ← hrest,
    Piece.text]
  simp only [id, List.append_assoc]

/-- A word is rewritten, and the pass goes on behind it. -/
theorem text_pieces_word (env : Env) {line : Bytes} {i : Nat} (hi : i < line.length)
    (hin : isWhitespace (line)[i] = false)
    (hfront : (line)[i]? = some '~'.toUInt8 →
      i = 0 ∨ (line)[i - 1]? = some ' '.toUInt8 ∨ (line)[i - 1]? = some '\t'.toUInt8) :
    ((tildeFinder env line).pieces line i).flatMap (Piece.text id)
      = tildeWord (env.get (bytes "HOME")) ((line.drop i).takeWhile isInWord) ++
        ((tildeFinder env line).pieces line
          (i + ((line.drop i).takeWhile isInWord).length)).flatMap (Piece.text id) := by
  have hget := List.getElem?_eq_getElem hi
  have hbyte : isInWord (line)[i] = true := by rw [isInWord, hin]; rfl
  by_cases htilde : (line)[i] = '~'.toUInt8
  · exact text_pieces_tildeWord env hi htilde (hfront (by rw [hget, htilde]))
  · -- Nothing is found in the word at all.
    have hskip := Finder.text_pieces_skip (f := tildeFinder env line) (g := id)
      (add_length_word_le (Nat.le_of_lt hi)) fun k hik hk => by
        rcases Nat.eq_or_lt_of_le hik with rfl | hlt
        · exact tildeAt_none (Or.inl fun h => htilde (Option.some.inj (hget.symm.trans h)))
        · exact tildeAt_inside env hi hlt hk
    rw [hskip, take_length_takeWhile]
    congr 1
    rw [List.drop_eq_getElem_cons hi, List.takeWhile_cons_of_pos hbyte, tildeWord, if_pos htilde]

/-- From the front of a word or from whitespace on, `expand_tilde` rewrites word by word. -/
theorem text_pieces_tildes (env : Env) {line : Bytes} (hblank : OnlyBlanks line) {i : Nat}
    (hfront : (line)[i]? = some '~'.toUInt8 →
      i = 0 ∨ (line)[i - 1]? = some ' '.toUInt8 ∨ (line)[i - 1]? = some '\t'.toUInt8) :
    ((tildeFinder env line).pieces line i).flatMap (Piece.text id)
      = wordReader.replace (tildeWord (env.get (bytes "HOME"))) (line.drop i) := by
  induction hlen : line.length - i using Nat.strong_induction_on generalizing i with
  | _ n ih =>
    subst hlen
    rcases Nat.lt_or_ge i line.length with hi | hi
    · have hget := List.getElem?_eq_getElem hi
      by_cases hws : isWhitespace (line)[i] = true
      · have hnot : (line)[i]? ≠ some '~'.toUInt8 := by
          rw [hget]
          intro h
          rw [Option.some.inj h] at hws
          exact absurd hws (by decide)
        have hrest := ih _ (by omega) (i := i + 1) (fun _ => Or.inr (by
          rw [Nat.add_sub_cancel, hget]
          rcases hblank _ (List.getElem_mem hi) hws with h | h
          · exact Or.inl (congrArg some h)
          · exact Or.inr (congrArg some h))) rfl
        rw [Finder.pieces_item hi (tildeAt_none (Or.inl hnot)), List.flatMap_cons, hrest,
          List.drop_eq_getElem_cons hi, Reader.replace_none (readWord_of_whitespace hws _)]
        rfl
      · have hin := Bool.eq_false_iff.mpr hws
        have hlen : 0 < ((line.drop i).takeWhile isInWord).length := by
          rw [List.drop_eq_getElem_cons hi, List.takeWhile_cons_of_pos (by rw [isInWord, hin]; rfl)]
          exact Nat.succ_pos _
        have hread := readWord_of_inWord hin (line.drop (i + 1))
        rw [← List.drop_eq_getElem_cons hi] at hread
        have hbehind : line.drop (i + ((line.drop i).takeWhile isInWord).length)
            = (line.drop i).dropWhile isInWord := by
          rw [← scanWhile_eq_takeWhile, Scan.drop_scanWhile]
        have hrest := ih _ (by omega) (i := i + ((line.drop i).takeWhile isInWord).length)
          (fun h => by
            -- Behind the word stands whitespace.
            have hnext : ((line.drop i).dropWhile isInWord).head? = some '~'.toUInt8 := by
              rw [← hbehind, List.head?_drop]
              exact h
            exact absurd (head?_dropWhile_isInWord hnext) (by decide)) rfl
        rw [text_pieces_word env hi hin hfront, hrest, hbehind, Reader.replace_some hread]
    · rw [Finder.pieces_end (Nat.not_lt.mpr hi), List.drop_eq_nil_of_le hi, Reader.replace]
      rfl

/-- A word with its tilde expanded is a word. -/
theorem isWord_tildeWord {home : Option Bytes}
    (hhome : ∀ h, home = some h → h ≠ [] ∧ ∀ b ∈ h, isWhitespace b = false) {w : Bytes} (hne : w ≠ [])
    (hw : ∀ b ∈ w, isWhitespace b = false) :
    tildeWord home w ≠ [] ∧ ∀ b ∈ tildeWord home w, isWhitespace b = false := by
  cases w with
  | nil => exact absurd rfl hne
  | cons b rest =>
    have happend : ∀ front : Bytes, front ≠ [] → (∀ b ∈ front, isWhitespace b = false) →
        front ++ rest ≠ [] ∧ ∀ b ∈ front ++ rest, isWhitespace b = false := by
      intro front hfront hbytes
      refine ⟨fun h => hfront (List.append_eq_nil_iff.mp h).1, fun c hc => ?_⟩
      rcases List.mem_append.mp hc with hc | hc
      · exact hbytes c hc
      · exact hw c (List.mem_cons_of_mem _ hc)
    rw [tildeWord]
    split
    · exact ⟨hne, hw⟩
    · split
      · cases home with
        | none => exact happend _ (by decide +kernel) (by decide +kernel)
        | some h => exact happend h (hhome h rfl).1 (hhome h rfl).2
      · exact happend _ (by decide +kernel) (by decide +kernel)

/-- **`expand_tilde` works word by word**: the result is the line with the tildes of its words
expanded, and the tokenizer finds these words in it. `HOME` has no whitespace, so that an
expansion is still one word, and the result fits the vector. Under these conditions the words are
the same whether they are read before or behind the expansion. -/
theorem items_expandTilde_words (env : Env) (line : Bytes) (hblank : OnlyBlanks line)
    (hcount : (lineWords line).length ≤ MAX_TOKENS)
    (hhome : ∀ home, env.get (bytes "HOME") = some home →
      home ≠ [] ∧ ∀ b ∈ home, isWhitespace b = false)
    (hfits : (expandedTildes env line).length ≤ VEC_CAP) :
    let out := (expandTilde env line).items
    out = expandedTildes env line ∧
    (tokenize out).map (Span.of out)
      = (lineWords line).map (tildeWord (env.get (bytes "HOME"))) := by
  intro out
  have hout : out = expandedTildes env line := by
    show (expandTilde env line).items = _
    rw [expandTilde, Finder.run_eq_foldl]
    refine (Vec.items_foldl_pieces id id (fun _ _ => rfl) (fun _ _ => rfl) _ Vec.new).trans ?_
    rw [text_pieces_tildes env hblank fun _ => Or.inl rfl]
    exact List.take_of_length_le hfits
  have hwords : lineWords out = (lineWords line).map (tildeWord (env.get (bytes "HOME"))) := by
    rw [hout]
    exact lineWords_replace (fun w hne hw => isWord_tildeWord hhome hne hw) line
  refine ⟨hout, ?_⟩
  rw [tokenize_words, hwords, List.take_of_length_le (by rw [List.length_map]; exact hcount)]

/-- Three kinds of tildes. -/
theorem items_expandTilde_words_cd :
    let out := (expandTilde Env.init (bytes "cd ~ ~/a\t~bob b~")).items
    out = expandedTildes Env.init (bytes "cd ~ ~/a\t~bob b~") ∧
    (tokenize out).map (Span.of out)
      = (lineWords (bytes "cd ~ ~/a\t~bob b~")).map (tildeWord (Env.init.get (bytes "HOME"))) :=
  items_expandTilde_words _ _ (by decide +kernel) (by decide +kernel)
    (fun home h => by
      have hroot : Env.init.get (bytes "HOME") = some (bytes "/users/root") := by decide +kernel
      rw [hroot] at h
      cases h
      decide +kernel)
    (by decide +kernel)

end OnyxShell
