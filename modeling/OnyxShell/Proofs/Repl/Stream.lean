import OnyxShell.Repl.Stream

/-!
# `OnyxShell.Proofs.Repl.Stream`: how the input is cut

`run_eq_stream`: on a clean cutting the prompt does what it does on the uncut stream. So
two clean cuttings of one stream submit the same lines. The step is `stream_append`, for
one read, and under it `keyStep_append`: a key does not depend on what the reads to come
bring, unless they bring the rest of an arrow sequence.

A read that goes on behind the end of a line loses its other bytes, and half an arrow
sequence is typed as text (`submitted_ne_of_pasted_lines`).
-/

set_option autoImplicit false

namespace OnyxShell

/-! ### One key -/

/-- The escape byte alone is no key. -/
theorem plainKey_esc (listing : Listing) (t : Typing) : plainKey listing ESC t = .next 0 t := rfl

/-- Outside an arrow sequence a key is the byte itself. -/
theorem keyStep_plain {listing : Listing} {b : UInt8} {rest : Bytes} {t : Typing}
    (h : startsWithArrow (b :: rest) = false) : keyStep listing b rest t = plainKey listing b t := by
  unfold keyStep
  split
  · rename_i b1 b2 tail
    split
    · rename_i hesc
      rw [hesc, plainKey_esc, if_neg]
      rintro ⟨hb1, hb2⟩
      simp [startsWithArrow, hesc, hb1, hb2] at h
    · rfl
  · rfl

/-- An arrow sequence is three bytes of the read, and its last one is the key. -/
theorem keyStep_arrow {listing : Listing} {b : UInt8} {rest : Bytes} {t : Typing}
    (h : startsWithArrow (b :: rest) = true) :
    ∃ b1 b2 tail, rest = b1 :: b2 :: tail ∧
      keyStep listing b rest t = .next 2 (arrowKey b2 t) := by
  match rest, h with
  | b1 :: b2 :: tail, h =>
    simp only [startsWithArrow, Bool.and_eq_true, beq_iff_eq] at h
    refine ⟨b1, b2, tail, rfl, ?_⟩
    rw [keyStep, if_pos h.1.1, if_pos ⟨h.1.2, h.2⟩]

/-- A key does not depend on the bytes behind its read, unless an arrow sequence runs into
them. -/
theorem keyStep_append (listing : Listing) {b : UInt8} {rest more : Bytes} (t : Typing)
    (h : 2 ≤ rest.length ∨ startsWithArrow (b :: (rest ++ more)) = false) :
    keyStep listing b (rest ++ more) t = keyStep listing b rest t := by
  match rest, h with
  -- With two bytes behind it in the read, a key looks no further.
  | b1 :: b2 :: tail, _ => rfl
  | [], h =>
    have harrow := h.resolve_left (by simp)
    exact (keyStep_plain harrow).trans (keyStep_plain rfl).symm
  | [b1], h =>
    have harrow := h.resolve_left (by simp)
    exact (keyStep_plain harrow).trans (keyStep_plain rfl).symm

/-- The bytes a key takes are there. -/
theorem skip_le_of_keyStep {listing : Listing} {b : UInt8} {rest : Bytes} {t t' : Typing} {skip : Nat}
    (h : keyStep listing b rest t = .next skip t') : skip ≤ rest.length := by
  cases harrow : startsWithArrow (b :: rest) with
  -- An arrow sequence skips its two other bytes.
  | true =>
    rcases keyStep_arrow harrow with ⟨b1, b2, tail, rfl, hkey⟩
    rw [hkey] at h
    cases h
    exact Nat.le_add_left 2 tail.length
  | false =>
    rw [keyStep_plain harrow] at h
    have hzero : skip = 0 := by
      rw [plainKey] at h
      split at h
      · cases h
      · grind
    rw [hzero]
    exact Nat.zero_le _

/-- Only CR, LF and Ctrl-C end a line. -/
theorem endsLine_of_keyStep {listing : Listing} {b key : UInt8} {rest : Bytes} {t t' : Typing}
    (h : keyStep listing b rest t = .lineEnd key t') : endsLine b = true := by
  cases harrow : startsWithArrow (b :: rest) with
  | true =>
    rcases keyStep_arrow harrow with ⟨b1, b2, tail, rfl, hkey⟩
    rw [hkey] at h
    cases h
  | false =>
    rw [keyStep_plain harrow] at h
    rw [plainKey] at h
    split at h
    · rename_i hb
      rcases hb with rfl | rfl <;> rfl
    · grind [endsLine]

/-! ### One read -/

/-- What is left of a clean read is clean. -/
theorem cleanRead_drop {more c : Bytes} (h : cleanRead more c = true) (n : Nat) :
    cleanRead more (c.drop n) = true := by
  induction n generalizing c with
  | zero => exact h
  | succ n ih =>
    cases c with
    | nil => exact h
    | cons b rest =>
      simp only [cleanRead, Bool.and_eq_true] at h
      exact ih h.2

namespace Repl

variable {σ : Type}

/-- A process that has exited reads nothing. -/
theorem stream_stopped (sys : System σ) (bs : Bytes) {r : Repl σ} (h : r.running = false) :
    stream sys bs r = r := by
  cases bs with
  | nil => rw [stream]
  | cons b rest => rw [stream, if_neg (by simp [h])]

/-- The first key of a read. -/
theorem read_cons (sys : System σ) {r : Repl σ} (hrun : r.running = true) (b : UInt8) (rest : Bytes) :
    r.read sys (some (b :: rest)) = match keyStep (r.listing sys) b rest r.typing with
      | .next skip t => (r.withTyping t).read sys (some (rest.drop skip))
      | .lineEnd _ t => (r.withTyping t).nextLine sys
      | .exit t => (r.withTyping t).stop := by
  unfold read
  rw [if_pos hrun]
  simp only
  rw [readKeys]
  cases keyStep (r.listing sys) b rest r.typing with
  | next skip t =>
    show _ = if (r.withTyping t).running then _ else _
    rw [if_pos (show (r.withTyping t).running = true from hrun)]
    rfl
  | lineEnd key t => rfl
  | exit t => rfl

/-- **One clean read** is the front of the stream. -/
theorem stream_append (sys : System σ) {c more : Bytes} (r : Repl σ) (h : cleanRead more c = true) :
    stream sys (c ++ more) r = stream sys more (r.read sys (some c)) := by
  -- On the length of the read, since an arrow sequence takes three bytes at once.
  induction hn : c.length using Nat.strong_induction_on generalizing c r with
  | _ n ih =>
    cases hrun : r.running with
    | false =>
      have hread : r.read sys (some c) = r := if_neg (by simp [hrun])
      rw [hread, stream_stopped sys _ hrun, stream_stopped sys _ hrun]
    | true =>
      cases c with
      | nil =>
        have hread : r.read sys (some []) = r := by
          rw [read, if_pos hrun]
          show (match readKeys (r.listing sys) [] r.typing with
            | .next _ t => r.withTyping t
            | .lineEnd _ t => (r.withTyping t).nextLine sys
            | .exit t => (r.withTyping t).stop) = r
          rw [readKeys]
          rfl
        rw [hread]
        rfl
      | cons b rest =>
        have hclean := h
        simp only [cleanRead, Bool.and_eq_true, Bool.or_eq_true, Bool.not_eq_true',
          decide_eq_true_eq, List.isEmpty_iff] at hclean
        rcases hclean with ⟨⟨hend, harrow⟩, hrest⟩
        have hkey := keyStep_append (r.listing sys) r.typing harrow
        -- The first key is the same one in the stream and in the read.
        rw [List.cons_append, stream, if_pos hrun, hkey, read_cons sys hrun]
        cases hstep : keyStep (r.listing sys) b rest r.typing with
        | next skip t =>
          have hskip := skip_le_of_keyStep hstep
          have hlen : (rest.drop skip).length < n := by
            rw [← hn, List.length_drop, List.length_cons]
            omega
          show stream sys ((rest ++ more).drop skip) _ = _
          rw [List.drop_append_of_le_length hskip]
          exact ih _ hlen (r.withTyping t) (cleanRead_drop hrest skip) rfl
        | lineEnd key t =>
          -- Nothing stands behind the end of the line, so nothing is lost.
          have hnil : rest = [] := hend.resolve_left (by simp [endsLine_of_keyStep hstep])
          rw [hnil]
          rfl
        | exit t =>
          exact (stream_stopped sys more (r := (r.withTyping t).stop) rfl).symm

/-! ### Whole runs -/

/-- **A clean cutting cannot be felt**: the prompt does what it does on the stream. -/
theorem run_eq_stream (sys : System σ) {cut : List Bytes} (r : Repl σ) (h : cleanCut cut = true) :
    run sys r (cut.map some) = stream sys cut.flatten r := by
  induction cut generalizing r with
  | nil =>
    rw [List.flatten_nil, stream]
    rfl
  | cons c rest ih =>
    simp only [cleanCut, Bool.and_eq_true] at h
    rw [List.flatten_cons, stream_append sys r h.1]
    exact ih (r.read sys (some c)) h.2

/-- **Two clean cuttings of a stream submit the same lines.** Each of the two runs is the run over
the stream of bytes (`run_eq_stream`), which does not know where a read has ended. -/
theorem submitted_eq_of_cleanCut (sys : System σ) (r : Repl σ) {cut cut' : List Bytes}
    (hsame : cut.flatten = cut'.flatten) (h : cleanCut cut = true) (h' : cleanCut cut' = true) :
    (run sys r (cut.map some)).submitted = (run sys r (cut'.map some)).submitted := by
  rw [run_eq_stream sys r h, run_eq_stream sys r h', hsame]

/-- The theorem at `ls` and Enter, in one read and in two. -/
theorem submitted_ls :
    (run System.idle (init ()) ([bytes "ls\n"].map some)).submitted
      = (run System.idle (init ()) ([bytes "l", bytes "s\n"].map some)).submitted :=
  submitted_eq_of_cleanCut System.idle (init ()) (by decide) (by decide) (by decide)

/-- Two pasted lines in one read: the second one is lost. -/
theorem submitted_ne_of_pasted_lines :
    [bytes "a\nb\n"].flatten = [bytes "a\n", bytes "b\n"].flatten ∧
      (run System.idle (init ()) ([bytes "a\nb\n"].map some)).submitted
        ≠ (run System.idle (init ()) ([bytes "a\n", bytes "b\n"].map some)).submitted := by
  decide +kernel

end Repl

end OnyxShell
