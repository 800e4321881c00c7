import OnyxShell.Startup

/-!
# `OnyxShell.Commands.ScriptLines`: the lines of a script

The loop of `do_script_inner` in `src/commands/exec/script.rs` with its buffer: `line_buf` is
used for one line after the other, and what is behind `line_pos` stays in it. `doScriptBuffers`
is `do_script` with this loop.

`linesOf` is what a script is: the lines between its line ends. `withCrLf` has other line ends,
which should make no difference, and `KeepsInterpreter` is about the first line, which
`check_shebang` reads in a loop of its own.
-/

set_option autoImplicit false

namespace OnyxShell

/-- `line_buf` and `line_pos`. -/
structure LineBuffer where
  buf : Vector UInt8 LINE_MAX
  pos : Nat
  pos_lt : pos < LINE_MAX

namespace LineBuffer

/-- The buffer before the loop. -/
def zeros : LineBuffer := ⟨Vector.replicate LINE_MAX 0, 0, by decide⟩

/-- `&line_buf[..line_pos]`. -/
def line (b : LineBuffer) : Bytes := b.buf.toList.take b.pos

/-- `line_pos = 0`. -/
def restart (b : LineBuffer) : LineBuffer := ⟨b.buf, 0, by decide⟩

/-- A byte that is no LF: kept if it is no CR and there is room. -/
def add (b : LineBuffer) (c : UInt8) : LineBuffer :=
  if h : c ≠ '\r'.toUInt8 ∧ b.pos < LINE_MAX - 1 then
    ⟨b.buf.set b.pos c b.pos_lt, b.pos + 1, Nat.add_lt_of_lt_sub h.2⟩
  else b

end LineBuffer

section Loop

variable {σ : Type} (execute : Bytes → σ → Option σ)

/-- `execute_line` for a line that is not empty and not a comment. -/
def executeBuffered (b : LineBuffer) (s : σ) : Option σ :=
  if b.pos > 0 ∧ b.buf.get ⟨0, by decide⟩ ≠ '#'.toUInt8 then execute b.line s else some s

/-- The loop over the bytes that `read_fd` delivers, one for each call, and the line that is
left behind it. -/
def scriptLoop : Bytes → LineBuffer → σ → Option σ
  | [], b, s => executeBuffered execute b s
  | c :: rest, b, s =>
    if c = '\n'.toUInt8 then do
      let s ← executeBuffered execute b s
      scriptLoop rest b.restart s
    else scriptLoop rest (b.add c) s

end Loop

/-- `script::do_script_inner`, with the loop on its buffer. -/
def doScriptInnerBuffers (c : ScriptSetting)
    (doScript : Bytes → Shell ScriptWorld → Option (Shell ScriptWorld)) (input : Bytes)
    (s : Shell ScriptWorld) : Option (Shell ScriptWorld) :=
  match resolve s.world.terrain.around.getcwd input with
  | none => some (s.report (.error (bytes "source: path too long")))
  | some abs =>
    match s.sysOpen c.answers (cString abs) O_RDONLY with
    | (.error e, s) => some (s.report (.errno (bytes "source") e))
    | (.ok fd, s) => do
      let content := (s.world.terrain.around.contents (cString abs)).getD []
      let s ← scriptLoop (runScriptLine c doScript) content LineBuffer.zeros (s.scriptOpened fd)
      some (s.closeScript fd)

/-- `script::do_script`. -/
def doScriptBuffers (c : ScriptSetting) (budget : Nat) (input : Bytes) (s : Shell ScriptWorld) :
    Option (Shell ScriptWorld) :=
  match budget with
  | 0 => none
  | budget + 1 =>
    if s.world.depth ≥ SCRIPT_DEPTH_MAX then
      some (s.report (.error (bytes "source: max recursion depth exceeded")))
    else do
      let s ← doScriptInnerBuffers c (doScriptBuffers c budget) input
        { s with world := s.world.enter }
      some { s with world := s.world.leave }

/-! ### What a script is -/

/-- A piece between two LFs, as a line: without its CRs, and at most 255 bytes. -/
def cleanLine (piece : Bytes) : Bytes := (piece.filter (· ≠ '\r'.toUInt8)).take (LINE_MAX - 1)

/-- A line that is run. -/
def isCommand (line : Bytes) : Bool := line ≠ [] ∧ line.head? ≠ some '#'.toUInt8

/-- The lines of a script that are run. -/
def linesOf (content : Bytes) : List Bytes :=
  ((content.splitOn '\n'.toUInt8).map cleanLine).filter isCommand

/-- The same text with CR LF for each LF. -/
def withCrLf (content : Bytes) : Bytes :=
  content.flatMap fun b => if b = '\n'.toUInt8 then bytes "\r\n" else [b]

/-- Surroundings in which every file has this text. -/
def Surroundings.withContent (around : Surroundings) (content : Bytes) : Surroundings :=
  { around with contents := fun _ => some content }

/-- The interpreter of a file with this text, up to the NUL that ends it for the commands. -/
def interpreterOf (around : Surroundings) (path content : Bytes) : Option Bytes :=
  (checkShebang (around.withContent content) path).map cString

/-- The first line of a text. -/
def openingLine (content : Bytes) : Bytes := content.takeWhile (· ≠ '\n'.toUInt8)

/-- What is behind the `#!` and the blanks there. -/
def behindShebang (line : Bytes) : Bytes := (line.drop 2).dropWhile isBlank

/-- The first line has no LF to change, or no `#!`, or the interpreter ends before the line. -/
def KeepsInterpreter (content : Bytes) : Prop :=
  '\n'.toUInt8 ∉ content ∨ (openingLine content).take 2 ≠ bytes "#!" ∨
    ∃ b ∈ behindShebang (openingLine content), isBlank b = true ∨ b = 0

instance (content : Bytes) : Decidable (KeepsInterpreter content) :=
  inferInstanceAs (Decidable (_ ∨ _ ∨ ∃ b ∈ behindShebang (openingLine content), _))

end OnyxShell
