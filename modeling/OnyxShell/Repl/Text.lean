import OnyxShell.Lib.Zipper
import OnyxShell.Repl.Stream

/-!
# `OnyxShell.Repl.Text`: what the line editor is for

The line as the user sees it: a text with a cursor in it, and keys that work at the
cursor. There is no buffer here and no terminal. `Session` is the whole prompt on such a
text.

`keyStates` and `textStates` are the states behind each single key of a read.
-/

set_option autoImplicit false

namespace OnyxShell

/-- The text with its cursor. -/
abbrev Text := Zipper UInt8

/-- A key, as the user means it. -/
inductive Key
  | up
  | down
  | right
  | left
  | print (b : UInt8)
  | erase
  | tab
  /-- CR, LF or Ctrl-C. -/
  | ending
  /-- Ctrl-D. -/
  | eof
  | other
deriving DecidableEq, Repr

/-- The key of a byte that does not begin an arrow sequence. -/
def Key.ofByte (b : UInt8) : Key :=
  if endsLine b then .ending
  else if b = 0x7F ∨ b = 0x08 then .erase
  else if b = 0x09 then .tab
  else if b = 0x04 then .eof
  else if 0x20 ≤ b ∧ b < 0x7F then .print b
  else .other

/-- The arrow key with the letter `b`. -/
def Key.ofArrow (b : UInt8) : Key :=
  if b = 'A'.toUInt8 then .up
  else if b = 'B'.toUInt8 then .down
  else if b = 'C'.toUInt8 then .right
  else .left

/-- The key that begins with `b`, and how many of the bytes behind it belong to it. An arrow
sequence counts where the read has all of it. -/
def Key.at (b : UInt8) (rest : Bytes) : Key × Nat :=
  if startsWithArrow (b :: rest) then (.ofArrow ((rest)[1]?.getD 0), 2) else (.ofByte b, 0)

/-- What a key that does not end the line does to the text. -/
def Text.press (listing : Listing) (x : Text) (h : History) : Key → Text × History
  | .print b => (if x.whole.length < LINE_MAX - 1 then x.insert b else x, h)
  | .erase => (x.erase, h)
  | .left => (x.moveLeft, h)
  | .right => (x.moveRight, h)
  | .up =>
    match h.navUp with
    | (some entry, h) => (⟨entry, []⟩, h)
    | (none, h) => (x, h)
  | .down =>
    match h.navDown with
    | (some entry, h) => (⟨entry, []⟩, h)
    | (none, h) => (⟨[], []⟩, h)
  | .tab =>
    let result := tabComplete listing x.whole x.left.length
    (Zipper.cut (result.line.items.take (LINE_MAX - 1)) result.cursor, h)
  | .ending => (x, h)
  | .eof => (x, h)
  | .other => (x, h)

/-- What the keys of one read lead to. -/
inductive TextResult
  | next (skip : Nat) (x : Text) (h : History)
  | lineEnd (x : Text) (h : History)
  | exit (x : Text) (h : History)

/-- One key, with `rest` behind it in the read. -/
def textStep (listing : Listing) (b : UInt8) (rest : Bytes) (x : Text) (h : History) : TextResult :=
  let key := Key.at b rest
  if key.1 = .ending then .lineEnd x h
  else if key.1 = .eof ∧ x.whole = [] then .exit x h
  else .next key.2 (x.press listing h key.1).1 (x.press listing h key.1).2

/-- The keys of one read. -/
def readText (listing : Listing) : Bytes → Text → History → TextResult
  | [], x, h => .next 0 x h
  | b :: rest, x, h =>
    match textStep listing b rest x h with
    | .next skip x h => readText listing (rest.drop skip) x h
    | .lineEnd x h => .lineEnd x h
    | .exit x h => .exit x h
termination_by keys => keys.length
decreasing_by
  rw [List.length_drop, List.length_cons]
  omega

/-- The text and the history behind each key of a read. -/
def textStates (listing : Listing) : Bytes → Text → History → List (Text × History)
  | [], _, _ => []
  | b :: rest, x, h =>
    match textStep listing b rest x h with
    | .next skip x h => (x, h) :: textStates listing (rest.drop skip) x h
    | .lineEnd x h => [(x, h)]
    | .exit x h => [(x, h)]
termination_by keys => keys.length
decreasing_by
  rw [List.length_drop, List.length_cons]
  omega

/-- The state of the prompt behind each key of a read. -/
def keyStates (listing : Listing) : Bytes → Typing → List Typing
  | [], _ => []
  | b :: rest, t =>
    match keyStep listing b rest t with
    | .next skip t => t :: keyStates listing (rest.drop skip) t
    | .lineEnd _ t => [t]
    | .exit t => [t]
termination_by keys => keys.length
decreasing_by
  rw [List.length_drop, List.length_cons]
  omega

/-- The prompt, with a text for its line. -/
structure Session (σ : Type) where
  text : Text
  history : History
  shell : Shell σ
  calls : List Call
  running : Bool

namespace Session

variable {σ : Type}

/-- The start of a line. -/
def prompt (s : Session σ) : Session σ := { s with text := ⟨[], []⟩, history := s.history.navReset }

/-- The end of a line. -/
def submit (sys : System σ) (s : Session σ) : Session σ :=
  let line := s.text.whole
  if line = [] then s
  else
    let e := submitLine (sys.env s.shell.world) (sys.listing s.shell.world) s.history line
    let calls := s.calls ++
      [.historyPush line, if hasOp line then .execute line else .evalLine line]
    let shell := e.messages.foldl (fun s msg => s.report (.error msg)) s.shell
    match e.action.perform sys.commands sys.answers shell with
    | some shell => { s with history := e.history, shell := shell, calls := calls }
    | none => { s with history := e.history, shell := shell, calls := calls, running := false }

/-- The end of a line, and the start of the next one. -/
def nextLine (sys : System σ) (s : Session σ) : Session σ :=
  if (s.submit sys).running then (s.submit sys).prompt else s.submit sys

/-- One read. -/
def read (sys : System σ) (s : Session σ) (received : Option Bytes) : Session σ :=
  if s.running then
    match received with
    | none => { s with running := false }
    | some keys =>
      match readText (sys.listing s.shell.world) keys s.text s.history with
      | .next _ x h => { s with text := x, history := h }
      | .lineEnd x h => { s with text := x, history := h }.nextLine sys
      | .exit x h => { s with text := x, history := h, running := false }
  else s

/-- A sequence of reads. -/
def run (sys : System σ) (s : Session σ) (reads : List (Option Bytes)) : Session σ :=
  reads.foldl (read sys) s

end Session

/-- The text in the buffer. -/
def Editor.view (e : Editor) : Text := Zipper.cut e.text e.cursor

/-- The prompt without its buffer and its terminal. -/
def Repl.session {σ : Type} (r : Repl σ) : Session σ :=
  ⟨r.editor.view, r.history, r.shell, r.calls, r.running⟩

end OnyxShell
