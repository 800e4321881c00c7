import OnyxShell.Repl.Stream

/-!
# `OnyxShell.Repl.Sequence`: the control sequences a terminal sends

Home, End, Delete, the function keys, and the arrow keys with a modifier: `ESC [`, parameter
bytes, and a final byte. The prompt knows four of them. `raw_mode_repl` looks for these at fixed
offsets, and goes on behind the escape byte where it finds none of them.
-/

set_option autoImplicit false

namespace OnyxShell

/-- A parameter byte of a control sequence. -/
def isParameter (b : UInt8) : Bool := 0x30 ≤ b && b ≤ 0x3F

/-- The byte that ends a control sequence. -/
def isFinal (b : UInt8) : Bool := 0x40 ≤ b && b ≤ 0x7E

/-- `ESC [ p f`. -/
structure ControlSequence where
  parameters : Bytes
  final : UInt8
  parameters_all : parameters.all isParameter = true
  isFinal_final : isFinal final = true

namespace ControlSequence

/-- The bytes behind the escape byte. -/
def body (s : ControlSequence) : Bytes := '['.toUInt8 :: (s.parameters ++ [s.final])

/-- The sequence as it is sent. -/
def bytes (s : ControlSequence) : Bytes := ESC :: s.body

/-- `ESC [ A` to `ESC [ D`. -/
def isArrow (s : ControlSequence) : Bool := s.parameters.isEmpty && isArrowLetter s.final

/-- The Home key. -/
def home : ControlSequence := ⟨[], 'H'.toUInt8, rfl, by decide⟩

end ControlSequence

/-- The line, its length and the cursor are the same. -/
def Editor.SameLine (e e' : Editor) : Prop :=
  e.text = e'.text ∧ e.lineLen = e'.lineLen ∧ e.cursor = e'.cursor

end OnyxShell
