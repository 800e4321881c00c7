import OnyxShell.Features.Env
import OnyxShell.Features.History
import OnyxShell.Features.Service.Glob
import OnyxShell.Pipeline.Exec

/-!
# `OnyxShell.Eval`: the evaluation of a line

`src/eval.rs`. `eval_line` ends in a call of `commands::dispatch`, in one of
`pipeline::parse` and `pipeline::execute`, or in neither. This last step is an `Action`,
and `Action.perform` is its effect on the shell process. Everything before it reads the
environment, the directories and the history, and writes the history only.

Two callers have their own way to a line. The cooked prompt (`src/repl/cooked.rs`) gets it whole from
the kernel, with its newline. `execute_line` of `src/commands/exec/script.rs`, for the lines of a
script, expands first and looks for an operator in the result, and it leaves the history alone.
-/

set_option autoImplicit false

namespace OnyxShell

/-- `repl::LINE_MAX`, and `commands::LINE_MAX`, which is the same. -/
def LINE_MAX : Nat := 256

/-- What a line comes to. -/
inductive Action
  /-- `commands::dispatch(args)`. -/
  | dispatch (args : List Bytes)
  /-- `pipeline::execute(line, &p)`. -/
  | pipeline (line : Bytes) (p : Pipeline)
  | nothing
deriving DecidableEq, Repr

/-- The effect of an action on the shell process. `none` is "does not return". -/
def Action.perform {σ : Type} (commands : Commands σ) (answers : Answers) (s : Shell σ) :
    Action → Option (Shell σ)
  | .dispatch args => OnyxShell.dispatch commands args s
  | .pipeline line p => execute commands answers line p s
  | .nothing => some s

/-- `eval::has_op`. It looks for `|`, `>` and `<`, and not for `&`. -/
def hasOp (s : Bytes) : Bool :=
  s.any fun b => b == '|'.toUInt8 || b == '>'.toUInt8 || b == '<'.toUInt8

/-- The loop that fills `G_ARGS`: at most 32 expansions of the words, each up to its first
NUL. -/
def expandArgs (listing : Listing) (s : Bytes) : List Bytes :=
  let expansions := (tokenize s).flatMap fun tok => (globExpand listing (Span.of s tok)).items
  (expansions.take 32).map fun exp => (cString exp).take 127

/-- A simple command: nothing without a word. -/
def runWords (listing : Listing) (s : Bytes) : Action :=
  if (tokenize s).length = 0 then .nothing else .dispatch (expandArgs listing s)

/-- A line with an operator, cut to the line buffer. -/
def runPipeline (s : Bytes) : Action :=
  let line := s.take (LINE_MAX - 1)
  .pipeline line (parse line)

/-- The variables and tildes of a line, expanded. -/
def expand (env : Env) (s : Bytes) : Bytes := (expandVars env (expandTilde env s).items).items

/-- The action a line comes to, the history it leaves, and the messages printed. -/
structure Evaluation where
  action : Action
  history : History
  messages : List Bytes

/-- `eval_line` from the line behind the history expansion on. -/
def evalText (env : Env) (listing : Listing) (h : History) (s : Bytes) (messages : List Bytes) :
    Evaluation :=
  if s = [] then ⟨.nothing, h, messages⟩
  -- A line with an operator goes to the parser unexpanded.
  else if hasOp s then ⟨runPipeline s, h.push (s.take (LINE_MAX - 1)), messages⟩
  else
    let s := expand env s
    if s = [] then ⟨.nothing, h, messages⟩ else ⟨runWords listing s, h.push s, messages⟩

/-- `eval::eval_line`. -/
def evalLine (env : Env) (listing : Listing) (h : History) (raw : Bytes) : Evaluation :=
  if raw = [] then ⟨.nothing, h, []⟩
  else
    let hist := historyExpand h raw
    evalText env listing h hist.1.items hist.2

/-- The body of the loop of `cooked_mode_repl`, for the `n > 0` bytes that
`io::read_line` has put into the line buffer. -/
def cookedLine (env : Env) (listing : Listing) (h : History) (read : Bytes) : Evaluation :=
  if stripEnd read = [] then ⟨.nothing, h, []⟩ else evalLine env listing h (stripEnd read)

/-- `script::execute_line`. -/
def executeLine (env : Env) (listing : Listing) (line : Bytes) : Action :=
  let expanded := expand env line
  if hasOp expanded then runPipeline expanded else runWords listing expanded

end OnyxShell
