import OnyxShell.Commands.Run
import OnyxShell.Lib.Runs
import OnyxShell.Pipeline.Exec

/-!
# `OnyxShell.Family`: the shell among its children

The shell process of `OnyxShell.Syscalls` together with the kernel's side of its children.
A `Family` takes one `Event` after the other: a child ends, the shell calls one of the
functions that start or collect children, or the `wait` of a `cmd_run` comes back. `none`
is an event that cannot happen in the state, or after which the shell process is gone.

A child is in `running`, then in `ended`, and then collected. Pids count up and fit the
`i32` of the job table. A call of `waitpid` by pid lasts until that child has ended, and
the shell looks at no other child before it returns. So a child that ends during such a call
is one that ends right after it. The `wait` of `cmd_run` takes any ended child, and is an
event of its own: between the `spawn` and the `wait` the children of the shell end in any
order. A script that is sourced is the events of its lines.
-/

set_option autoImplicit false

namespace OnyxShell

/-- What the shell does not decide: which calls succeed, with what status each child ends,
and what the commands do that start no process and collect none. A command of them that
does not return gives `none`. -/
structure Setting where
  answers : Answers
  status : Nat → Int
  builtin : List Bytes → Surroundings → Surroundings
  other : List Bytes → Surroundings → Option Surroundings

/-- The commands of the shell process. -/
def Setting.commands (c : Setting) : Commands World where
  builtin args world := { world with around := c.builtin args world.around }
  other args s :=
    match args with
    | [] => some s
    | cmd :: rest =>
      if cmd = bytes "fg" then some (cmdFg rest s)
      else if cmd = bytes "run" then some (cmdRun c.answers rest s)
      else
        (c.other args s.world.around).map fun around =>
          { s with world := { s.world with around := around } }

/-- The shell process, its running children, and what each `cmd_run` that came back has
reported of the exit code. -/
structure Family where
  shell : Shell World
  running : List Nat
  exitCodes : List (Option Int)

/-- What happens next. -/
inductive Event
  /-- A child ends. -/
  | exits (pid : Nat)
  /-- The surroundings change, by the work of another process. -/
  | outside (around : Surroundings)
  /-- `features::job_reap`. -/
  | reap
  /-- `commands::dispatch`. -/
  | dispatch (args : List Bytes)
  /-- `pipeline::execute`. -/
  | execute (line : Bytes) (p : Pipeline)
  /-- `script::cmd_fg`. -/
  | fg (args : List Bytes)
  /-- `run::cmd_run`, up to its `wait`. -/
  | run (args : List Bytes)
  /-- The `wait` of `cmd_run` returns this child. -/
  | wait (pid : Nat)
  /-- The `wait` of `cmd_run` fails. -/
  | waitFails (e : Nat)

namespace Family

/-- A shell at its start, without children. -/
def init (around : Surroundings) : Family := ⟨Shell.init ⟨around, [], none⟩, [], []⟩

/-- Pids are below this bound. -/
def PID_BOUND : Nat := 2 ^ 31

/-- The pids of the children made between two states of the shell. -/
def newPids (before after : Shell World) : List Nat :=
  List.range' (before.lastPid + 1) (after.lastPid - before.lastPid)

/-- The family when the shell process has come to a state: its new children run, and those
it has waited for are gone. -/
def moveTo (s : Family) (shell : Shell World) : Option Family :=
  if shell.lastPid < PID_BOUND then
    some { s with
      shell := shell
      running := (s.running ++ newPids s.shell shell).filter (· ∉ shell.waited) }
  else none

/-- The shell process runs a function, unless it is in the `wait` of `cmd_run`. -/
def act (s : Family) (f : Shell World → Option (Shell World)) : Option Family :=
  if s.shell.world.waiting = none then (f s.shell).bind s.moveTo else none

/-- A child ends. -/
def exits (s : Family) (pid : Nat) : Option Family :=
  if pid ∈ s.running then
    some { s with
      shell := { s.shell with ended := s.shell.ended ++ [pid] }
      running := s.running.erase pid }
  else none

/-- The surroundings change. -/
def outside (s : Family) (around : Surroundings) : Family :=
  { s with shell := { s.shell with world := { s.shell.world with around := around } } }

/-- `cmd_run` behind its `wait`. -/
def runReturns (s : Family) : Family :=
  { s with shell := { s.shell with world := { s.shell.world with waiting := none } } }

/-- The `wait` of `cmd_run` collects an ended child. -/
def collect (c : Setting) (s : Family) (pid : Nat) : Option Family :=
  if s.shell.world.waiting.isSome ∧ pid ∈ s.shell.ended then
    some { s.runReturns with
      shell := { s.runReturns.shell with ended := s.shell.ended.erase pid }
      exitCodes := s.exitCodes ++ [exitReport (c.status pid)] }
  else none

/-- The `wait` of `cmd_run` fails. -/
def waitFails (s : Family) (e : Nat) : Option Family :=
  if s.shell.world.waiting.isSome then
    some { s.runReturns with
      shell := s.runReturns.shell.report (.errno (bytes "run: wait") (Int.negSucc e)) }
  else none

/-- One event. -/
def step (c : Setting) (s : Family) : Event → Option Family
  | .exits pid => s.exits pid
  | .outside around => some (s.outside around)
  | .reap => s.act fun shell => some shell.jobReap
  | .dispatch args => s.act (OnyxShell.dispatch c.commands args)
  | .execute line p => s.act (OnyxShell.execute c.commands c.answers line p)
  | .fg args => s.act fun shell => some (cmdFg args shell)
  | .run args => s.act fun shell => some (cmdRun c.answers args shell)
  | .wait pid => s.collect c pid
  | .waitFails e => s.waitFails e

/-- The family behind a list of events. -/
def after (c : Setting) (s : Family) (events : List Event) : Option Family :=
  Runs.run (step c) s events

end Family

end OnyxShell
