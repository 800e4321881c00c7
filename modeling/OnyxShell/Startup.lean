import OnyxShell.Commands.Source
import OnyxShell.Features.EnvTable
import OnyxShell.Words

/-!
# `OnyxShell.Startup`: the two ways to start a script

`_start` of `src/main.rs` runs the script that it gets as an argument, and is an interactive
shell otherwise. Only the second calls `env_init`. `startScript` is the first, and
`startSource` is the second up to the end of its first line.

A run keeps the lines that it evaluates, with what each comes to (`Step`). A step has no
environment: `EnvCall`s are the only changes of it, and they can be read off the steps.

What the lines do outside of the shell process is a parameter (`Machine`). It depends on the
environment only for the commands that hand it out in a child, as `set > f` does. What is
printed is left out, and with it `job_reap`.
-/

set_option autoImplicit false

namespace OnyxShell

/-! ### Lines -/

/-- The arguments that the shell process itself calls `dispatch` with: those of a command that
is not in a pipeline, in the background or behind a redirection. -/
def Action.own : Action → Option (List Bytes)
  | .dispatch args => some args
  | .pipeline line p =>
    match p.segments with
    | [seg] =>
      if p.stdoutFile.2 = 0 ∧ p.stdinFile.2 = 0 ∧ seg.length ≠ 0 ∧ p.background = false then
        some (segToArgs line seg)
      else none
    | _ => none
  | .nothing => none

/-- The calls by which an action changes the environment of the shell. -/
def Action.envCalls (a : Action) : List EnvCall :=
  match a.own with
  | some (cmd :: args) =>
    if cmd = bytes "export" then exportCalls args
    else if cmd = bytes "unset" then args.map EnvCall.unset
    else []
  | _ => []

/-- A command that prints the environment, passes it on, or runs a script with it. -/
def usesEnv : List Bytes → Bool
  | [] => false
  | cmd :: rest =>
    cmd = bytes "set" ∨ cmd = bytes "export" ∧ rest = [] ∨
      cmd ∈ [bytes "exec", bytes "source", bytes "."] ∧ rest ≠ []

/-- The environment goes to a child that uses it. -/
def Action.handsOutEnv (a : Action) : Bool := a.own.isNone && a.argLists.any usesEnv

/-- The program names that an action passes to `search_path`: the first argument of each `run`
and `exec`. -/
def Action.programNames (a : Action) : List Bytes :=
  a.argLists.filterMap fun args =>
    match args with
    | cmd :: name :: _ => if cmd = bytes "run" ∨ cmd = bytes "exec" then some name else none
    | _ => none

/-- What a line comes to, with the programs that `search_path` selects for it. -/
structure LineEvent where
  action : Action
  programs : List (Option Bytes)
deriving DecidableEq

/-! ### Environments -/

namespace Env

/-- One call. -/
def apply (e : Env) : EnvCall → Env
  | .set key val => e.set key val
  | .unset key => e.unset key

/-- A run of calls. -/
def run (e : Env) (calls : List EnvCall) : Env := calls.foldl apply e

/-- What `expand_vars` writes for a name. -/
def value (e : Env) (name : Bytes) : Bytes := (e.get name).getD []

/-- What `expand_tilde` writes for a `~`. -/
def home (e : Env) : Bytes := (e.get (bytes "HOME")).getD (bytes "/users/root")

end Env

/-! ### Runs -/

/-- What the shell finds outside of itself, and what its lines do there. -/
structure Machine (ω : Type) where
  getcwd : ω → Option Bytes
  stat : ω → Bytes → Bool
  contents : ω → Bytes → Option Bytes
  listing : ω → Listing
  /-- `open` of a script, with what will be read from it. -/
  openScript : Bytes → ω → Option (Bytes × ω)
  closeScript : ω → ω
  /-- What a line does, with the environment for a child that uses it. -/
  effect : LineEvent → Option Env → ω → ω
  /-- The shell process goes on behind the line. -/
  returns : LineEvent → ω → Bool

variable {ω : Type}

/-- The surroundings of the shell. -/
def Machine.around (m : Machine ω) (env : Env) (w : ω) : Surroundings :=
  ⟨env, m.getcwd w, m.stat w, m.contents w⟩

/-- What an action comes to. -/
def lineEvent (around : Surroundings) (a : Action) : LineEvent :=
  ⟨a, a.programNames.map (searchPath around)⟩

/-- An evaluated line, and the world that it found. -/
structure Step (ω : Type) where
  line : Bytes
  world : ω
  event : LineEvent
deriving DecidableEq

/-- A run of the shell process up to some line. -/
structure ScriptRun (ω : Type) where
  env : Env
  world : ω
  steps : List (Step ω)
  /-- The process has not ended. -/
  live : Bool

/-- What has been evaluated: argument lists and pipelines, in order. -/
def ScriptRun.evaluated (r : ScriptRun ω) : List LineEvent :=
  (r.steps.map Step.event).filter fun e => e.action ≠ .nothing

/-- The script that `exec` runs in the shell process: one with `/bin/osh` behind its `#!`. -/
def execScript (around : Surroundings) (name : Bytes) : Option Bytes :=
  (resolveCmdPath around name).bind fun path =>
    (checkShebang around path).bind fun word =>
      if cString word = bytes "/bin/osh" then some path else none

/-- The script that a command runs in the shell process, and whether it comes back from it:
`exec` ends with `syscalls::exit`. -/
def nestedScript (around : Surroundings) : List Bytes → Option (Bytes × Bool)
  | cmd :: name :: _ =>
    if cmd = bytes "source" ∨ cmd = bytes "." then some (name, true)
    -- An `exec` of any other program is left to the machine.
    else if cmd = bytes "exec" then (execScript around name).map fun path => (path, false)
    else none
  | _ => none

/-- What a line does, with `doScript` for the call in a `source` or an `exec`. -/
def performLine (m : Machine ω) (doScript : Bytes → ScriptRun ω → ScriptRun ω) (line : Bytes)
    (a : Action) (r : ScriptRun ω) : ScriptRun ω :=
  let event := lineEvent (m.around r.env r.world) a
  let steps := r.steps ++ [⟨line, r.world, event⟩]
  if a = .nothing then { r with steps := steps }
  else
    match a.own.bind (nestedScript (m.around r.env r.world)) with
    | some (path, back) =>
      let r' := doScript path { r with steps := steps }
      { r' with live := r'.live && back }
    | none =>
      ⟨r.env.run a.envCalls,
        m.effect event (if a.handsOutEnv then some r.env else none) r.world, steps,
        m.returns event r.world⟩

/-- A script line, if the process is still there. -/
def evaluateLine (m : Machine ω) (doScript : Bytes → ScriptRun ω → ScriptRun ω) (line : Bytes)
    (r : ScriptRun ω) : ScriptRun ω :=
  if r.live then performLine m doScript line (executeLine r.env (m.listing r.world) line) r else r

/-- A collected line, if it is evaluated. -/
def collected (line : Bytes) : List Bytes :=
  if line.length > 0 ∧ line.head? ≠ some '#'.toUInt8 then [line] else []

/-- The lines that the loop of `do_script_inner` evaluates, with the bytes in `line_buf`. -/
def scriptLines : Bytes → Bytes → List Bytes
  | [], line => collected line
  | b :: rest, line =>
    if b = '\n'.toUInt8 then collected line ++ scriptLines rest []
    else if b ≠ '\r'.toUInt8 ∧ line.length < LINE_MAX - 1 then scriptLines rest (line ++ [b])
    else scriptLines rest line

/-- `script::do_script`, with `room` for more nested ones: `SCRIPT_DEPTH_MAX` less
`SCRIPT_DEPTH`. -/
def evaluateScript (m : Machine ω) : Nat → Bytes → ScriptRun ω → ScriptRun ω
  | 0, _, r => r
  | room + 1, input, r =>
    match resolve (m.getcwd r.world) input with
    | none => r
    | some abs =>
      match m.openScript (cString abs) r.world with
      | none => r
      | some (content, w) =>
        let r' := (scriptLines content []).foldl
          (fun r line => evaluateLine m (evaluateScript m room) line r) { r with world := w }
        { r' with world := m.closeScript r'.world }

/-- `_start` with an argument: the script of this name, cut to the 255 bytes of its buffer.
The environment is as the program starts with it. -/
def startScript (m : Machine ω) (name : Bytes) (w : ω) : ScriptRun ω :=
  evaluateScript m SCRIPT_DEPTH_MAX ((cString name).take 255) ⟨Env.empty, w, [], true⟩

/-- `_start` without an argument: `env_init`, and then `eval_line` for the first line. -/
def startLine (m : Machine ω) (line : Bytes) (w : ω) : ScriptRun ω :=
  performLine m (evaluateScript m SCRIPT_DEPTH_MAX) line
    (evalLine Env.init (m.listing w) History.init line).action ⟨Env.init, w, [], true⟩

/-- The two ways to start a script evaluate the same, but for the `source` itself. The comparison
is of what has been evaluated, line by line, with the program that a search has selected. -/
def StartsAlike (m : Machine ω) (name : Bytes) (w : ω) : Prop :=
  (startLine m (wordLine [bytes "source", name] none) w).evaluated
    = ⟨.dispatch [bytes "source", name], []⟩ :: (startScript m name w).evaluated

/-! ### What a line reads -/

/-- The names whose values `expand_vars` looks up. -/
def variableNames (line : Bytes) : List Bytes :=
  ((variableFinder line).pieces line 0).filterMap fun piece =>
    match piece with
    | .found name _ => some name
    | .item _ => none

/-- A `~` for the home directory stands in the line: `expand_tilde` looks `HOME` up. It is one of
the ways in which a line looks at what `env_init` has set. -/
def ReadsHome (line : Bytes) : Prop :=
  ∃ i < line.length, (line)[i]? = some '~'.toUInt8 ∧
    (i = 0 ∨ (line)[i - 1]? = some ' '.toUInt8 ∨ (line)[i - 1]? = some '\t'.toUInt8) ∧
    Scan.scanWhile isUserByte line (i + 1) = i + 1

instance (line : Bytes) : Decidable (ReadsHome line) :=
  inferInstanceAs (Decidable (∃ i, i < line.length ∧ _))

/-- No directory of `PATH` has the program. -/
def NotInPath (around : Surroundings) (name : Bytes) : Prop :=
  ∀ dir ∈ (around.env.value (bytes "PATH")).splitOn ':'.toUInt8, ∀ abs ∈ resolve around.getcwd dir,
    around.stat (cString (cmdInDir abs name)) = false

instance (around : Surroundings) (name : Bytes) : Decidable (NotInPath around name) :=
  inferInstanceAs (Decidable (∀ dir ∈ _, ∀ abs ∈ resolve around.getcwd dir, _))

/-- A line reads the same in two environments: the home directory, its variables, `PATH` where
it makes a difference, and the whole environment for a child that gets it. -/
structure ReadsAlike (m : Machine ω) (e e' : Env) (w : ω) (line : Bytes) : Prop where
  home : ReadsHome line → e.home = e'.home
  vars : ∀ name ∈ variableNames (expandTilde e line).items, e.value name = e'.value name
  path : ∀ name ∈ (executeLine e (m.listing w) line).programNames, '/'.toUInt8 ∈ name ∨
    e.value (bytes "PATH") = e'.value (bytes "PATH") ∨
    NotInPath (m.around e w) name ∧ NotInPath (m.around e' w) name
  handed : (executeLine e (m.listing w) line).handsOutEnv = true → e.entries = e'.entries

instance (m : Machine ω) (e e' : Env) (w : ω) (line : Bytes) :
    Decidable (ReadsAlike m e e' w line) :=
  decidable_of_iff
    ((ReadsHome line → e.home = e'.home) ∧
      (∀ name ∈ variableNames (expandTilde e line).items, e.value name = e'.value name) ∧
      (∀ name ∈ (executeLine e (m.listing w) line).programNames, '/'.toUInt8 ∈ name ∨
        e.value (bytes "PATH") = e'.value (bytes "PATH") ∨
        NotInPath (m.around e w) name ∧ NotInPath (m.around e' w) name) ∧
      ((executeLine e (m.listing w) line).handsOutEnv = true → e.entries = e'.entries))
    ⟨fun h => ⟨h.1, h.2.1, h.2.2.1, h.2.2.2⟩, fun h => ⟨h.home, h.vars, h.path, h.handed⟩⟩

/-- Every line of a run reads the same in both environments, as they are before it. -/
def AllReadAlike (m : Machine ω) : Env → Env → List (Step ω) → Prop
  | _, _, [] => True
  | e, e', s :: rest =>
    ReadsAlike m e e' s.world s.line ∧
      AllReadAlike m (e.run s.event.action.envCalls) (e'.run s.event.action.envCalls) rest

/-- Whether the lines of a run read the same can be computed. -/
instance decidableAllReadAlike (m : Machine ω) :
    (e e' : Env) → (steps : List (Step ω)) → Decidable (AllReadAlike m e e' steps)
  | _, _, [] => isTrue trivial
  | e, e', s :: rest =>
    have := decidableAllReadAlike m (e.run s.event.action.envCalls)
      (e'.run s.event.action.envCalls) rest
    inferInstanceAs (Decidable (ReadsAlike m e e' s.world s.line ∧ _))

end OnyxShell
