import OnyxShell.Proofs.Repl.Stream
import OnyxShell.Repl.Sequence

/-!
# `OnyxShell.Proofs.Repl.Sequence`: a sequence that is no key

`readKeys_sequence`: a control sequence that the prompt does not know is typed as the text behind
its escape byte. All of its bytes are printable, so it leaves the line alone only if no byte fits
there any more.
-/

set_option autoImplicit false

namespace OnyxShell

/-! ### Typed text -/

/-- A printable byte is inserted. -/
theorem plainKey_of_printable (listing : Listing) {b : UInt8} (t : Typing) (hlo : 0x20 ≤ b)
    (hhi : b < 0x7F) : plainKey listing b t = .next 0 (t.insert b) := by
  have hne : ∀ c : UInt8, c < 0x20 ∨ 0x7F ≤ c → b ≠ c := by
    intro c hc h
    subst h
    rcases hc with hc | hc
    · exact UInt8.not_le.mpr hc hlo
    · exact UInt8.not_le.mpr hhi hc
  rw [plainKey, if_neg, if_neg, if_neg (hne 0x09 (by decide)), if_neg (hne 0x03 (by decide)),
    if_neg (hne 0x04 (by decide)), if_pos ⟨hlo, hhi⟩]
  · exact fun h => h.elim (hne 0x7F (by decide)) (hne 0x08 (by decide))
  · exact fun h => h.elim (hne _ (by decide)) (hne _ (by decide))

/-- A byte other than ESC begins no arrow. -/
theorem startsWithArrow_of_ne {b : UInt8} (h : b ≠ ESC) (rest : Bytes) :
    startsWithArrow (b :: rest) = false := by
  have hesc : (b == ESC) = false := beq_eq_false_iff_ne.mpr h
  match rest with
  | [] => rfl
  | [b1] => rfl
  | b1 :: b2 :: tail => rw [startsWithArrow, hesc, Bool.false_and, Bool.false_and]

/-- Printable bytes are typed one after the other. -/
theorem readKeys_printable (listing : Listing) {text : Bytes} (more : Bytes) (t : Typing)
    (h : ∀ b ∈ text, 0x20 ≤ b ∧ b < 0x7F) :
    readKeys listing (text ++ more) t = readKeys listing more (text.foldl Typing.insert t) := by
  induction text generalizing t with
  | nil => rfl
  | cons b text ih =>
    have hb := h b List.mem_cons_self
    have hesc : b ≠ ESC := by
      intro hesc
      rw [hesc] at hb
      exact absurd hb.1 (by decide)
    rw [List.cons_append, readKeys, keyStep_plain (startsWithArrow_of_ne hesc _),
      plainKey_of_printable listing t hb.1 hb.2]
    exact ih (t.insert b) fun c hc => h c (List.mem_cons_of_mem b hc)

/-- Inserting makes the line one longer, up to the end of the buffer. -/
theorem lineLen_insert (t : Typing) (c : UInt8) :
    (t.insert c).editor.lineLen = min (t.editor.lineLen + 1) (LINE_MAX - 1) := by
  have hlt := t.editor.lineLen_lt
  rw [Typing.insert]
  split
  · rename_i h
    show (t.editor.insert c).lineLen = _
    rw [Editor.insert, dif_pos h]
    exact (Nat.min_eq_left h).symm
  · rename_i h
    omega

/-- What is typed makes the line longer, up to its limit. -/
theorem lineLen_foldl_insert (text : Bytes) (t : Typing) :
    (text.foldl Typing.insert t).editor.lineLen
      = min (t.editor.lineLen + text.length) (LINE_MAX - 1) := by
  have hlt := t.editor.lineLen_lt
  induction text generalizing t with
  | nil => exact (Nat.min_eq_left (Nat.le_of_lt_succ hlt)).symm
  | cons c text ih =>
    rw [List.foldl_cons, ih _ (t.insert c).editor.lineLen_lt, lineLen_insert, List.length_cons]
    omega

/-- A full line takes nothing. -/
theorem foldl_insert_of_full (text : Bytes) {t : Typing} (h : t.editor.lineLen = LINE_MAX - 1) :
    text.foldl Typing.insert t = t := by
  induction text with
  | nil => rfl
  | cons c text ih =>
    have hfull : t.insert c = t := by
      rw [Typing.insert, if_neg (by omega)]
    rw [List.foldl_cons, hfull, ih]

/-! ### The sequence -/

namespace ControlSequence

/-- Behind the ESC and the bracket, a control sequence has printable bytes only. -/
theorem printable_body (s : ControlSequence) : ∀ b ∈ s.body, 0x20 ≤ b ∧ b < 0x7F := by
  intro b hb
  rw [body, List.mem_cons, List.mem_append, List.mem_singleton] at hb
  -- The bracket, a parameter, and the final byte.
  rcases hb with rfl | hb | rfl
  · decide
  · have h := List.all_eq_true.mp s.parameters_all b hb
    rw [isParameter, Bool.and_eq_true, decide_eq_true_eq, decide_eq_true_eq] at h
    exact ⟨UInt8.le_trans (by decide) h.1, UInt8.lt_of_le_of_lt h.2 (by decide)⟩
  · have h := s.isFinal_final
    rw [isFinal, Bool.and_eq_true, decide_eq_true_eq, decide_eq_true_eq] at h
    exact ⟨UInt8.le_trans (by decide) h.1, UInt8.lt_of_le_of_lt h.2 (by decide)⟩

/-- It is an arrow key just when its third byte is one of the four letters. -/
theorem startsWithArrow_bytes (s : ControlSequence) (more : Bytes) :
    startsWithArrow (s.bytes ++ more) = s.isArrow := by
  cases s with
  | mk parameters final hparams hfinal =>
    cases parameters with
    | nil => rfl
    | cons p parameters =>
      -- A parameter stands where the letter of an arrow would.
      have hp : isParameter p = true := List.all_eq_true.mp hparams p List.mem_cons_self
      have hletter : isArrowLetter p = false := by
        rw [isParameter, Bool.and_eq_true, decide_eq_true_eq, decide_eq_true_eq] at hp
        rw [isArrowLetter, Bool.and_eq_false_iff, decide_eq_false_iff_not]
        exact Or.inl (UInt8.not_le.mpr (UInt8.lt_of_le_of_lt hp.2 (by decide)))
      show (ESC == ESC && '['.toUInt8 == '['.toUInt8 && isArrowLetter p) = false
      rw [hletter, Bool.and_false]

end ControlSequence

/-- A sequence that is no key is typed as text, but for its escape byte. -/
theorem readKeys_sequence (listing : Listing) {s : ControlSequence} (hother : s.isArrow = false)
    (more : Bytes) (t : Typing) :
    readKeys listing (s.bytes ++ more) t
      = readKeys listing more (s.body.foldl Typing.insert t) := by
  rw [← readKeys_printable listing more t s.printable_body]
  have harrow : startsWithArrow (ESC :: (s.body ++ more)) = false :=
    (s.startsWithArrow_bytes more).trans hother
  show readKeys listing (ESC :: (s.body ++ more)) t = _
  rw [readKeys, keyStep_plain harrow, plainKey_esc]
  rfl

/-- **An unknown sequence leaves the line alone** just when the line is full: otherwise what is
behind its escape byte is inserted. The state `t'` behind it is the one that the bytes of the read
behind it are read in. Of a sequence that the code does not know, only the escape byte is taken
away. The bytes behind it are printable, and each of them is inserted as if it had been typed. -/
theorem readKeys_sequence_sameLine_iff (listing : Listing) (s : ControlSequence) (t : Typing)
    (hother : s.isArrow = false) :
    ∃ t', (∀ more, readKeys listing (s.bytes ++ more) t = readKeys listing more t') ∧
      (t'.editor.SameLine t.editor ↔ t.editor.lineLen = LINE_MAX - 1) := by
  refine ⟨s.body.foldl Typing.insert t, fun more => readKeys_sequence listing hother more t, ?_⟩
  constructor
  · -- A line with room gets longer, as there is a byte at least behind the escape byte.
    intro hsame
    have hlen := hsame.2.1
    rw [lineLen_foldl_insert] at hlen
    have hpos : 0 < s.body.length := Nat.succ_pos _
    omega
  · intro hfull
    rw [foldl_insert_of_full s.body hfull]
    exact ⟨rfl, rfl, rfl⟩

/-- The Home key on an empty line, where its bytes are inserted. -/
theorem readKeys_sequence_sameLine_iff_home :
    ∃ t', (∀ more, readKeys (fun _ => []) (ControlSequence.home.bytes ++ more)
        (Repl.init ()).typing = readKeys (fun _ => []) more t') ∧
      (t'.editor.SameLine (Repl.init ()).typing.editor ↔
        (Repl.init ()).typing.editor.lineLen = LINE_MAX - 1) :=
  readKeys_sequence_sameLine_iff (fun _ => []) ControlSequence.home (Repl.init ()).typing rfl

/-- Home on the empty line types `[H`. -/
theorem readKeys_home_inserts :
    ControlSequence.home.isArrow = false ∧ ControlSequence.home.bytes.length ≤ 16 ∧
    ∃ t', readKeys (fun _ => []) ControlSequence.home.bytes (Repl.init ()).typing = .next 0 t' ∧
      t'.editor.text = bytes "[H" ∧ ¬ t'.editor.SameLine (Repl.init ()).typing.editor := by
  refine ⟨rfl, by decide, ControlSequence.home.body.foldl Typing.insert (Repl.init ()).typing,
    ?_, by decide +kernel, fun h => absurd h.2.1 (by decide +kernel)⟩
  have hread := readKeys_sequence (fun _ => []) (s := ControlSequence.home) rfl []
    (Repl.init ()).typing
  rw [List.append_nil, readKeys] at hread
  exact hread

end OnyxShell
