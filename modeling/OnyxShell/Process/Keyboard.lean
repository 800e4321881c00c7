import OnyxShell.Process.Console
import OnyxShell.Repl.Raw

/-!
# `OnyxShell.Process.Keyboard`: a user at the terminal

`keyboard` is `console` with input: the reads of descriptor 0 deliver what has been typed, cut as
the terminal cuts it, and wait where there is no more. `typeLine` is what becomes of one line of it
at the raw prompt.

`leaves` says of an output that the process may end behind it, so that a run of `exit` can be told
from one that is cut off. `Desk` has the world of `console` in it, so that output and listings are
the same there.
-/

set_option autoImplicit false

namespace OnyxShell

/-- What becomes of a line. -/
inductive LineResult
  /-- It is not finished. -/
  | waiting (t : Typing)
  /-- It has ended, with these reads to come. -/
  | line (t : Typing) (rest : List (Option Bytes))
  /-- The process has exited. -/
  | gone (t : Typing)

/-- The keys of a line, in the reads that deliver them. What is behind the end of the line in its
read is lost. -/
def typeLine (listing : Listing) : List (Option Bytes) → Typing → LineResult
  | [], t => .waiting t
  | none :: _, t => .gone t
  | some keys :: reads, t =>
    match readKeys listing keys t with
    | .next _ t => typeLine listing reads t
    | .lineEnd _ t => .line t reads
    | .exit t => .gone t

/-- The prompt behind a line: it waits in the line, or it has started the next one and reads what is
to come, or the process has exited. -/
def Repl.behindLine {σ : Type} (sys : System σ) (r : Repl σ) : LineResult → Repl σ
  | .waiting t => r.withTyping t
  | .line t rest => ((r.withTyping t).nextLine sys).run sys rest
  | .gone t => (r.withTyping t).stop

namespace Process

/-- What is remembered. -/
structure Desk where
  world : World
  /-- What the reads will deliver. `none` is a negative result. -/
  reads : List (Option Bytes)

/-- The answer to a `read` of the terminal. Without input there is none. -/
def Delivers (len : Nat) (a : Answer) : List (Option Bytes) → Prop
  | [] => False
  | none :: _ => a.ret < 0
  | some keys :: _ => a.ret = (keys.length : Int) ∧ a.out = keys ∧ keys.length ≤ len

instance (len : Nat) (a : Answer) : DecidablePred (Delivers len a)
  | [] => isFalse id
  | none :: _ => inferInstanceAs (Decidable (a.ret < 0))
  | some keys :: _ =>
    inferInstanceAs (Decidable (a.ret = (keys.length : Int) ∧ a.out = keys ∧ keys.length ≤ len))

/-- The size of the buffer, for a `read` of the terminal. -/
def SysCall.readsTerminal : SysCall → Option Nat
  | .read 0 len => some len
  | _ => none

namespace Desk

/-- The answers to a call, which reads the terminal into so many bytes or does not. -/
def Replies (fs : Fs) (d : Desk) (c : SysCall) (a : Answer) : Option Nat → Prop
  | some len => Delivers len a d.reads
  | none => d.world.Admits fs c a

instance (fs : Fs) (d : Desk) (c : SysCall) (a : Answer) : DecidablePred (d.Replies fs c a)
  | some len => inferInstanceAs (Decidable (Delivers len a d.reads))
  | none => inferInstanceAs (Decidable (d.world.Admits fs c a))

/-- The answers that the kernel may give. -/
def Admits (fs : Fs) (d : Desk) (c : SysCall) (a : Answer) : Prop :=
  d.Replies fs c a c.readsTerminal

instance (fs : Fs) (d : Desk) (c : SysCall) (a : Answer) : Decidable (d.Admits fs c a) :=
  inferInstanceAs (Decidable (d.Replies fs c a c.readsTerminal))

/-- What is remembered behind a call. -/
def next (fs : Fs) (d : Desk) (c : SysCall) (a : Answer) : Desk :=
  match c.readsTerminal with
  | some _ => { d with reads := d.reads.tail }
  | none => { d with world := d.world.next fs c a }

end Desk

/-- The monitor. The process exits only where the terminal shows what it may leave with. -/
def keyboard (fs : Fs) (leaves : Bytes → Prop) : Prog.Monitor SysCall Answer Desk where
  allows d c :=
    match c with
    | .exit _ => leaves d.world.out
    | _ => True
  admits := Desk.Admits fs
  next := Desk.next fs
  gone d := leaves d.world.out

instance (fs : Fs) (leaves : Bytes → Prop) (d : Desk) (c : SysCall) (a : Answer) :
    Decidable ((keyboard fs leaves).admits d c a) :=
  inferInstanceAs (Decidable (d.Admits fs c a))

end Process

end OnyxShell
