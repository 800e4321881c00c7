import OnyxShell.Pipeline.Exec

/-!
# `OnyxShell.Pipeline.Wiring`: what a pipeline means

The purpose of the executor, without its loop: the commands of a pipeline run as a chain
of processes. `Wired inp out children` is that chain. The first child reads `inp`, the
last one writes `out`, and between two neighbours there is one pipe, which the left one
writes and the right one reads.
-/

set_option autoImplicit false

namespace OnyxShell

variable {σ : Type}

/-- The children form a chain of pipes from `inp` to `out`. The first of them reads `inp` and the
last one writes `out`. -/
def Wired (inp out : Option Description) : List Child → Prop
  | [] => False
  | [c] => c.fds.get 0 = inp ∧ c.fds.get 1 = out
  | c :: rest =>
    c.fds.get 0 = inp ∧
      ∃ pipe, c.fds.get 1 = some (.pipeWrite pipe) ∧ Wired (some (.pipeRead pipe)) out rest

/-- A process holds the write end of a pipe. As long as one process does, a reader of the pipe
does not come to the end of file. -/
def HoldsWriteEnd (fds : FdTable Description) (pipe : Nat) : Prop :=
  ∃ fd, fds.get fd = some (.pipeWrite pipe)

/-- The child number `k` is the only process that can write to the pipe: not the shell,
whose descriptors are `fds`, and no other child. A reader of the pipe sees its end when
that child is gone. -/
def SoleWriter (fds : FdTable Description) (children : List Child) (k pipe : Nat) : Prop :=
  (∃ c, children[k]? = some c ∧ HoldsWriteEnd c.fds pipe) ∧ ¬ HoldsWriteEnd fds pipe ∧
    ∀ j c, children[j]? = some c → j ≠ k → ¬ HoldsWriteEnd c.fds pipe

/-- What the first command of the pipeline reads: its input file, or the shell's input. -/
def Pipeline.input (line : Bytes) (p : Pipeline) (s : Shell σ) : Option Description :=
  if p.stdinFile.2 > 0 then some (.file (redirectPath line p.stdinFile) O_RDONLY)
  else s.fds.get 0

/-- What the last command of the pipeline writes: its output file, or the shell's output. -/
def Pipeline.output (line : Bytes) (p : Pipeline) (s : Shell σ) : Option Description :=
  if p.stdoutFile.2 > 0 then some (.file (redirectPath line p.stdoutFile) OUT_FLAGS)
  else s.fds.get 1

/-- The pipeline is run by the shell process itself: one segment without redirection, or
one segment whose command is an in-process builtin. -/
def Pipeline.isInprocess (line : Bytes) (p : Pipeline) : Bool :=
  match p.segments with
  | [seg] =>
    (p.stdoutFile.2 = 0 ∧ p.stdinFile.2 = 0) ∨
      seg.head?.any fun a => isInprocessBuiltin (Span.of line a)
  | _ => false

/-- The segments that have a command. -/
def Pipeline.commands (p : Pipeline) : List Segment := p.segments.filter (· ≠ [])

end OnyxShell
