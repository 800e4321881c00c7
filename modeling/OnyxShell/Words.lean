import OnyxShell.Eval
import OnyxShell.Pipeline.Wiring

/-!
# `OnyxShell.Words`: the words of a line and what becomes of them

`lineWords` is what the words of a line are, apart from any tokenizer. An action hands
argument lists to `commands::dispatch`, in the shell or in a child, and
`Action.argLists` are these.
-/

set_option autoImplicit false

namespace OnyxShell

/-- The words of a line: its longest runs without whitespace. -/
def lineWords (line : Bytes) : List Bytes :=
  (line.splitOnP isWhitespace).filter fun w => !w.isEmpty

/-- No byte of the line is a NUL, an operator, or one that an expansion reacts to. Such a line
reads the same behind every expansion. -/
def PlainLine (line : Bytes) : Prop := ∀ b ∈ line, b ≠ 0 ∧ b ∉ bytes "|<>!$~*?["

instance (line : Bytes) : Decidable (PlainLine line) :=
  inferInstanceAs (Decidable (∀ b ∈ line, b ≠ 0 ∧ b ∉ bytes "|<>!$~*?["))

/-- A word that is passed on as it stands. -/
def IsPlainWord (w : Bytes) : Prop :=
  w ≠ [] ∧ PlainLine w ∧ ∀ b ∈ w, isWhitespace b = false

instance (w : Bytes) : Decidable (IsPlainWord w) :=
  inferInstanceAs (Decidable (w ≠ [] ∧ PlainLine w ∧ ∀ b ∈ w, isWhitespace b = false))

/-- Words joined by single spaces, and a redirection to `target`. -/
def wordLine (ws : List Bytes) (target : Option Bytes) : Bytes :=
  [' '.toUInt8].intercalate ws ++
    match target with
    | none => []
    | some t => bytes " > " ++ t

/-- The argument lists that an action hands to `commands::dispatch`: one for each segment
with an argument. -/
def Action.argLists : Action → List (List Bytes)
  | .dispatch args => [args]
  | .pipeline line p => p.commands.map (segToArgs line)
  | .nothing => []

/-- A line evaluated has the effect of the pipeline it spells, up to the moment at which
ended children are collected, and hands on the same argument lists. -/
def SameAsPipeline (env : Env) (listing : Listing) (h : History) (line : Bytes) : Prop :=
  (∀ (σ : Type) (commands : Commands σ) (answers : Answers) (s : Shell σ),
    ((evalLine env listing h line).action.perform commands answers s).map Shell.jobReap
      = (execute commands answers line (parse line) s).map Shell.jobReap) ∧
  (evalLine env listing h line).action.argLists = (Action.pipeline line (parse line)).argLists

end OnyxShell
