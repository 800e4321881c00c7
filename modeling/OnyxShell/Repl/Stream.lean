import OnyxShell.Repl.Raw

/-!
# `OnyxShell.Repl.Stream`: the prompt on an uncut stream

What the raw prompt is meant to do with its input, with no `read` in sight: `stream` takes
the keys one after the other from a stream of bytes. An arrow sequence is one key wherever
it stands, and the byte behind the end of a line is the first one of the next line.

`cleanCut` says of a stream cut into reads that the cuts cannot be felt: a byte that ends
a line is the last one of its read, and no arrow sequence straddles two reads.
-/

set_option autoImplicit false

namespace OnyxShell

/-- A byte that ends a line: CR, LF or Ctrl-C. -/
def endsLine (b : UInt8) : Bool := b == '\r'.toUInt8 || b == '\n'.toUInt8 || b == 0x03

/-- The bytes begin with an arrow sequence. -/
def startsWithArrow : Bytes → Bool
  | b :: b1 :: b2 :: _ => b == ESC && b1 == '['.toUInt8 && isArrowLetter b2
  | _ => false

/-- The read `c` is clean, with `more` the bytes of the reads behind it. -/
def cleanRead (more : Bytes) : Bytes → Bool
  | [] => true
  | b :: rest =>
    (!endsLine b || rest.isEmpty) &&
      (decide (2 ≤ rest.length) || !startsWithArrow (b :: (rest ++ more))) && cleanRead more rest

/-- All reads are clean. -/
def cleanCut : List Bytes → Bool
  | [] => true
  | c :: rest => cleanRead rest.flatten c && cleanCut rest

namespace Repl

variable {σ : Type}

/-- The prompt behind a stream of bytes. -/
def stream (sys : System σ) : Bytes → Repl σ → Repl σ
  | [], r => r
  | b :: rest, r =>
    if r.running then
      match keyStep (r.listing sys) b rest r.typing with
      | .next skip t => stream sys (rest.drop skip) (r.withTyping t)
      | .lineEnd _ t => stream sys rest ((r.withTyping t).nextLine sys)
      | .exit t => (r.withTyping t).stop
    else r
termination_by bs => bs.length
decreasing_by
  · rw [List.length_drop, List.length_cons]
    omega
  · rw [List.length_cons]
    omega

end Repl

end OnyxShell
