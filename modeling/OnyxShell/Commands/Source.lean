import OnyxShell.Commands.Run
import OnyxShell.Eval

/-!
# `OnyxShell.Commands.Source`: scripts in the shell process

`do_script` and `cmd_source` of `src/commands/exec/script.rs`. A script can source scripts,
and `SCRIPT_DEPTH` bounds the nesting. The recursion is on a budget of nested calls, and
`none` is a call beyond it.

A line comes to an action (`executeLine`). The actions that `execute` and `dispatch` end in
`cmd_source` with are those that `Action.sourced` picks out. What any other line does is a
parameter: it returns, and it does not reach `SCRIPT_DEPTH`.

`ScriptWorld.scripts` and `ScriptWorld.seen` are for the reader of the model. They keep which
descriptors `do_script` has opened and not closed, and the depth and the number of these
descriptors after each change of one of them.
-/

set_option autoImplicit false

namespace OnyxShell

/-- `SCRIPT_DEPTH_MAX`. -/
def SCRIPT_DEPTH_MAX : Nat := 8

/-- The surroundings, with the directories. -/
structure Terrain where
  around : Surroundings
  listing : Listing

/-- A depth of nested scripts, and the number of scripts that are open. -/
structure Nesting where
  depth : Nat
  openScripts : Nat
deriving DecidableEq, Repr

/-- The world of a shell that runs scripts. -/
structure ScriptWorld where
  terrain : Terrain
  /-- `SCRIPT_DEPTH`. -/
  depth : Nat
  /-- The descriptors that `do_script` has opened and not closed, the latest first. -/
  scripts : List Nat
  /-- What the nesting has been, in order. -/
  seen : List Nesting

namespace ScriptWorld

/-- The world with a depth and open scripts, and these noted. -/
def nest (w : ScriptWorld) (depth : Nat) (scripts : List Nat) : ScriptWorld :=
  ⟨w.terrain, depth, scripts, w.seen ++ [⟨depth, scripts.length⟩]⟩

/-- `SCRIPT_DEPTH += 1`. -/
def enter (w : ScriptWorld) : ScriptWorld := w.nest (w.depth + 1) w.scripts

/-- `SCRIPT_DEPTH -= 1`. -/
def leave (w : ScriptWorld) : ScriptWorld := w.nest (w.depth - 1) w.scripts

end ScriptWorld

namespace Shell

variable {σ τ : Type}

/-- The shell process with another world. -/
def withWorld (s : Shell σ) (world : τ) : Shell τ :=
  ⟨s.fds, s.jobs, world, s.calls, s.pipes, s.lastPid, s.ended, s.forked, s.waited, s.dispatched,
    s.reports⟩

/-- The shell process behind the `open` of a script. -/
def scriptOpened (s : Shell ScriptWorld) (fd : Nat) : Shell ScriptWorld :=
  { s with world := s.world.nest s.world.depth (fd :: s.world.scripts) }

/-- The `close` of a script. -/
def closeScript (s : Shell ScriptWorld) (fd : Nat) : Shell ScriptWorld :=
  { s.close fd with world := s.world.nest s.world.depth (s.world.scripts.erase fd) }

/-- What `dispatch` does before it calls the function of a command. -/
def dispatching (s : Shell σ) (args : List Bytes) : Shell σ :=
  { s.jobReap with dispatched := s.jobReap.dispatched ++ [args] }

end Shell

/-- The arguments of a `source` or a `.`, with the name. -/
def sourceArgs (args : List Bytes) : Option (List Bytes) :=
  if args.head? = some (bytes "source") ∨ args.head? = some (bytes ".") then some args else none

/-- The arguments with which the shell process itself comes to `cmd_source`: a `source` that
is not in a pipeline, in the background or behind a redirection. -/
def Action.sourced : Action → Option (List Bytes)
  | .dispatch args => sourceArgs args
  | .pipeline line p =>
    match p.segments with
    | [seg] =>
      if p.stdoutFile.2 = 0 ∧ p.stdinFile.2 = 0 ∧ seg.length ≠ 0 ∧ p.background = false then
        sourceArgs (segToArgs line seg)
      else none
    | _ => none
  | .nothing => none

/-- What the shell does not decide while it runs scripts: which calls succeed, and what the
lines do that are no `source`. -/
structure ScriptSetting where
  answers : Answers
  plain : Action → Shell Terrain → Shell Terrain

/-- A line that is no `source`. -/
def ScriptSetting.perform (c : ScriptSetting) (action : Action) (s : Shell ScriptWorld) :
    Shell ScriptWorld :=
  let s' := c.plain action (s.withWorld s.world.terrain)
  s'.withWorld { s.world with terrain := s'.world }

/-- `script::cmd_source`, with `doScript` for the call in it. -/
def cmdSource (doScript : Bytes → Shell ScriptWorld → Option (Shell ScriptWorld))
    (args : List Bytes) (s : Shell ScriptWorld) : Option (Shell ScriptWorld) :=
  match args with
  | [] => some (s.report (.error (bytes "source: missing file operand (try 'help')")))
  | arg :: _ => doScript arg s

/-- `script::execute_line`, and what it comes to. -/
def runScriptLine (c : ScriptSetting)
    (doScript : Bytes → Shell ScriptWorld → Option (Shell ScriptWorld)) (line : Bytes)
    (s : Shell ScriptWorld) : Option (Shell ScriptWorld) :=
  let action := executeLine s.world.terrain.around.env s.world.terrain.listing line
  match action.sourced with
  | some args => cmdSource doScript args.tail (s.dispatching args)
  | none => some (c.perform action s)

/-- A collected line of the loop: nothing for an empty one or a comment. -/
def runCollected (c : ScriptSetting)
    (doScript : Bytes → Shell ScriptWorld → Option (Shell ScriptWorld)) (line : Bytes)
    (s : Shell ScriptWorld) : Option (Shell ScriptWorld) :=
  if line.length > 0 ∧ line.head? ≠ some '#'.toUInt8 then runScriptLine c doScript line s
  else some s

/-- The loop of `do_script_inner` over what `read_fd` delivers, with the bytes collected in
`line_buf`. -/
def readScript (c : ScriptSetting)
    (doScript : Bytes → Shell ScriptWorld → Option (Shell ScriptWorld)) :
    Bytes → Bytes → Shell ScriptWorld → Option (Shell ScriptWorld)
  | [], line, s => runCollected c doScript line s
  | b :: rest, line, s =>
    if b = '\n'.toUInt8 then
      match runCollected c doScript line s with
      | some s => readScript c doScript rest [] s
      | none => none
    else if b ≠ '\r'.toUInt8 ∧ line.length < LINE_MAX - 1 then
      readScript c doScript rest (line ++ [b]) s
    else readScript c doScript rest line s

/-- `script::do_script_inner`. A script is read as it was when it was opened. -/
def doScriptInner (c : ScriptSetting)
    (doScript : Bytes → Shell ScriptWorld → Option (Shell ScriptWorld)) (input : Bytes)
    (s : Shell ScriptWorld) : Option (Shell ScriptWorld) :=
  match resolve s.world.terrain.around.getcwd input with
  | none => some (s.report (.error (bytes "source: path too long")))
  | some abs =>
    match s.sysOpen c.answers (cString abs) O_RDONLY with
    | (.error e, s) => some (s.report (.errno (bytes "source") e))
    | (.ok fd, s) =>
      let content := (s.world.terrain.around.contents (cString abs)).getD []
      match readScript c doScript content [] (s.scriptOpened fd) with
      | some s => some (s.closeScript fd)
      | none => none

/-- `script::do_script`. The counter goes up and down around the script. Where it has reached its
bound a message is printed and nothing is run. -/
def doScript (c : ScriptSetting) (budget : Nat) (input : Bytes) (s : Shell ScriptWorld) :
    Option (Shell ScriptWorld) :=
  match budget with
  | 0 => none
  | budget + 1 =>
    if s.world.depth ≥ SCRIPT_DEPTH_MAX then
      some (s.report (.error (bytes "source: max recursion depth exceeded")))
    else
      match doScriptInner c (doScript c budget) input { s with world := s.world.enter } with
      | some s => some { s with world := s.world.leave }
      | none => none

end OnyxShell
