import OnyxShell.Process.Eval
import OnyxShell.Proofs.Process.Kernel

/-!
# `OnyxShell.Proofs.Process.Quiet`: commands that the executor does not notice

The shell process runs some commands itself: the in-process builtins, and a command in the foreground
without redirections. `Quiet` says of a function that it returns and leaves alone what the kernel
keeps for the executor, and the memory of the shell. The in-process builtins are quiet, and so are
most of the commands that only print or change a file.

`ls` goes on as long as there are names, so it is quiet only as far as it is followed. And `export`
changes the memory, though not the jobs. `Settled` is about such functions, in runs of so many calls.
`settled_runCommand` has the commands that are settled: all but those that open files, that look for
jobs, or that have to do with processes (`INVOLVED`).
-/

set_option autoImplicit false

namespace OnyxShell.Process

open Routine (twp twp_bind twp_mono twp_get)

variable {σ α β : Type} {answers : Answers} {follows : Bool} {started : Child → Prop}

/-! ### Functions that change nothing -/

/-- In the shell process the function returns, and it changes neither the memory nor what the kernel
keeps for the executor. -/
def Quiet (M : Prog.Monitor SysCall Answer View) (x : Sh α) : Prop :=
  ∀ (Q : α → Globals → View → Prop) g s, (∀ a, Q a g ⟨s, none⟩) → twp M x Q g ⟨s, none⟩

namespace Quiet

/-- A program that has returned makes no call. -/
theorem pure {M : Prog.Monitor SysCall Answer View} (a : α) : Quiet M (Pure.pure a) :=
  fun _ _ _ hQ => hQ a

/-- Quiet programs one after the other are quiet. The proof is the bind rule of `twp`. -/
theorem bind {M : Prog.Monitor SysCall Answer View} {x : Sh α} {f : α → Sh β} (hx : Quiet M x)
    (hf : ∀ a, Quiet M (f a)) : Quiet M (x >>= f) := by
  intro Q g s hQ
  rw [twp_bind]
  exact hx _ g s fun a => hf a Q g s hQ

/-- A choice between quiet programs is quiet, whichever way the condition goes. -/
theorem ite {M : Prog.Monitor SysCall Answer View} {c : Prop} [Decidable c] {x y : Sh α}
    (hx : Quiet M x) (hy : Quiet M y) : Quiet M (if c then x else y) := by
  split
  · exact hx
  · exact hy

/-- A loop over a list with a quiet body is quiet, by induction on the list. -/
theorem forM {M : Prog.Monitor SysCall Answer View} {f : β → Sh Unit} (hf : ∀ b, Quiet M (f b))
    (l : List β) : Quiet M (l.forM f) := by
  induction l with
  | nil => exact pure ()
  | cons b l ih => exact bind (hf b) fun _ => ih

/-- A quiet program refines the state that it starts in: no descriptor, child or job has changed
when it returns. -/
theorem refines {M : Prog.Monitor SysCall Answer View} {x : Sh α} (h : Quiet M x) (S : Shell σ) :
    Refines M x S fun _ S' => S' = S := by
  rintro g v ⟨hjobs, rfl⟩
  exact h _ g _ fun _ => ⟨S, rfl, hjobs, rfl⟩

/-- A call that changes nothing. -/
theorem sys {c : SysCall} (h : ∀ s a, View.next answers s c a = ⟨s, none⟩) :
    Quiet (kernel answers follows started) (Process.sys c) := by
  intro Q g s hQ
  refine twp_sys_shell c ?_
  intro a _
  rw [h]
  exact hQ a

/-- Output is quiet: a `write` to the terminal opens nothing and starts nothing. -/
theorem writeRaw (b : Bytes) : Quiet (kernel answers follows started) (writeRaw b) :=
  fun _ _ _ hQ => (writes_kernel.twp_writeRaw b).mpr (hQ ())

/-- A line of output is one `write`. -/
theorem writeLine (text : String) : Quiet (kernel answers follows started) (writeLine text) :=
  fun _ _ _ hQ => (writes_kernel.twp_writeLine text).mpr (hQ ())

/-- An error message with its number is output only. -/
theorem writeErrorErrno (msg : Bytes) (ret : Int) :
    Quiet (kernel answers follows started) (writeErrorErrno msg ret) :=
  fun _ _ _ hQ => (writes_kernel.twp_writeErrorErrno msg ret).mpr (hQ ())

/-- A number in decimal is output only. -/
theorem writeU64 (n : UInt64) : Quiet (kernel answers follows started) (writeU64 n) :=
  fun _ _ _ hQ => (writes_kernel.twp_writeU64 n).mpr (hQ ())

/-- A signed number in decimal is output only. -/
theorem writeI64 (n : Int64) : Quiet (kernel answers follows started) (writeI64 n) :=
  fun _ _ _ hQ => (writes_kernel.twp_writeI64 n).mpr (hQ ())

/-- `getcwd` writes no more than fits. -/
theorem getcwd {f : Answer → Sh α}
    (hf : ∀ a : Answer, a.ret ≤ (PATH_MAX : Int) → Quiet (kernel answers follows started) (f a)) :
    Quiet (kernel answers follows started) (Process.sys (.getcwd PATH_MAX) >>= f) := by
  intro Q g s hQ
  rw [twp_bind]
  refine twp_sys_shell _ ?_
  intro a ha
  exact hf a ha Q g s hQ

/-- A slice that ends within its buffer does not panic. The bound is a hypothesis, since this is
where Rust would stop the process. -/
theorem slice {buf : Bytes} {n : Nat} (h : n ≤ buf.length) :
    Quiet (kernel answers follows started) (slice buf n) := by
  rw [Process.slice, if_pos h]
  exact pure _

/-- Resolving a path asks for the working directory, and for nothing else. -/
theorem resolve (input : Bytes) : Quiet (kernel answers follows started) (resolve input) := by
  rw [Process.resolve]
  refine ite (pure _) ?_
  refine ite (pure _) ?_
  refine getcwd fun a ha => ?_
  refine ite (pure _) ?_
  refine bind (slice ?_) fun _ => pure _
  rw [Answer.length_into, length_zeros]
  omega

/-- `pwd` asks for the working directory and prints it, cut at the first NUL. -/
theorem cmdPwd : Quiet (kernel answers follows started) cmdPwd := by
  refine getcwd fun a ha => ?_
  dsimp only
  refine ite (bind (slice ?_) fun _ => bind (writeRaw _) fun _ => writeRaw _)
    (bind (writeRaw _) fun _ => writeRaw _)
  rw [Answer.length_into, length_zeros]
  omega

/-- `cd` resolves its operand and calls `chdir`. The kernel of the pipelines keeps no working
directory, so nothing of its state has changed. -/
theorem cmdCd (args : List Bytes) : Quiet (kernel answers follows started) (cmdCd args) := by
  refine bind (resolve _) fun abs => ?_
  cases abs with
  | none => exact bind (writeRaw _) fun _ => bind (writeRaw _) fun _ => writeRaw _
  | some abs =>
    exact bind (sys fun _ _ => rfl) fun a => ite (writeErrorErrno _ _) (pure _)

/-- `whoami` asks for the user and prints the name. -/
theorem cmdWhoami : Quiet (kernel answers follows started) cmdWhoami :=
  bind (sys fun _ _ => rfl) fun _ => bind (sys fun _ _ => rfl) fun _ => bind (writeRaw _) fun _ =>
    bind (writeRaw _) fun _ => bind (writeI64 _) fun _ => bind (writeRaw _) fun _ =>
      bind (writeRaw _) fun _ => writeRaw _

/-- `uname` prints a constant line. -/
theorem cmdUname : Quiet (kernel answers follows started) cmdUname :=
  bind (sys fun _ _ => rfl) fun _ => ite (writeErrorErrno _ _) (forM (fun _ =>
    bind (writeRaw _) fun _ => bind (writeRaw _) fun _ => bind (writeRaw _) fun _ =>
      bind (writeRaw _) fun _ => writeRaw _) _)

/-- `ver` prints its three lines. -/
theorem cmdVer : Quiet (kernel answers follows started) cmdVer :=
  bind (writeLine _) fun _ => bind (writeLine _) fun _ => writeLine _

/-- `date` asks for the time and prints it. -/
theorem cmdDate : Quiet (kernel answers follows started) cmdDate :=
  bind (sys fun _ _ => rfl) fun _ => ite (writeErrorErrno _ _)
    (bind (writeRaw _) fun _ => bind (writeU64 _) fun _ => bind (writeRaw _) fun _ =>
      bind (writeU64 _) fun _ => writeRaw _)

/-- An error message is output only. -/
theorem writeError (msg : Bytes) : Quiet (kernel answers follows started) (writeError msg) :=
  fun _ _ _ hQ => (writes_kernel.twp_writeError msg).mpr (hQ ())

/-- A number in hexadecimal is output only. -/
theorem writeHex (n : UInt64) : Quiet (kernel answers follows started) (writeHex n) :=
  fun _ _ _ hQ => (writes_kernel.twp_writeHex n).mpr (hQ ())

/-- The digits of a number fit their buffer, so the printer does not panic. -/
theorem writeU64Field (n : UInt64) (width : Nat) :
    Quiet (kernel answers follows started) (writeU64Field n width) := by
  have hdigits : writeDigits decimalLoop 20 n = some (decimalText n.toNat) := writeU64_eq n
  rw [Process.writeU64Field, hdigits]
  exact bind (forM (fun b => writeRaw [b]) _) fun _ => writeRaw _

/-- Reading the memory does not change it. -/
theorem get {f : Globals → Sh α} (hf : ∀ g, Quiet (kernel answers follows started) (f g)) :
    Quiet (kernel answers follows started) (MonadState.get >>= f) := by
  intro Q g s hQ
  rw [twp_bind, twp_get]
  exact hf g Q g s hQ

/-- `echo` prints its operands with blanks between them. -/
theorem cmdEcho (args : List Bytes) : Quiet (kernel answers follows started) (cmdEcho args) := by
  refine bind (forM ?_ _) fun _ => writeRaw _
  rintro ⟨a, i⟩
  exact ite (bind (writeRaw _) fun _ => writeRaw a) (writeRaw a)

/-- `env` prints the entries of the table. The table is read, and not written. -/
theorem envList : Quiet (kernel answers follows started) envList :=
  get fun _ => forM (fun _ => bind (writeRaw _) fun _ => bind (writeRaw _) fun _ =>
    bind (writeRaw _) fun _ => writeRaw _) _

/-- `jobs` prints the entries of the job table. -/
theorem cmdJobs : Quiet (kernel answers follows started) cmdJobs :=
  get fun _ => forM (fun _ => bind (bind (writeRaw _) fun _ => bind (writeU64 _) fun _ =>
    bind (writeRaw _) fun _ => writeI64 _) fun _ => bind (writeRaw _) fun _ =>
      bind (writeRaw _) fun _ => writeRaw _) _

/-- A command is quiet if what it does to each of its operands is. -/
theorem forOperands {act : Bytes → Bytes → Sh Unit} (name missing : Bytes)
    (hact : ∀ arg abs, Quiet (kernel answers follows started) (act arg abs)) (args : List Bytes) :
    Quiet (kernel answers follows started) (forOperands name missing act args) := by
  refine ite (writeError _) (forM (fun arg => bind (resolve arg) fun abs => ?_) _)
  cases abs with
  | none => exact writeError _
  | some abs => exact hact arg abs

/-- `rm` unlinks its operands one after the other, and reports what it cannot remove. -/
theorem cmdRm (args : List Bytes) : Quiet (kernel answers follows started) (cmdRm args) :=
  forOperands _ _ (fun _ _ => bind (sys fun _ _ => rfl) fun _ =>
    ite (writeErrorErrno _ _) (pure _)) args

/-- `mkdir` makes its operands one after the other. -/
theorem cmdMkdir (args : List Bytes) : Quiet (kernel answers follows started) (cmdMkdir args) :=
  forOperands _ _ (fun _ _ => bind (sys fun _ _ => rfl) fun _ =>
    ite (ite (bind (writeRaw _) fun _ => bind (writeRaw _) fun _ => writeRaw _)
      (writeErrorErrno _ _)) (pure _)) args

/-- The lines that `stat` prints of one buffer: the slices of its fields are all within it. -/
theorem writeStat (abs st : Bytes) : Quiet (kernel answers follows started) (writeStat abs st) := by
  intro Q g s hQ
  simp only [Process.writeStat, newline, twp_bind, writes_kernel.twp_writeRaw,
    writes_kernel.twp_writeI64, writes_kernel.twp_writeU64, writes_kernel.twp_writeHex]
  exact hQ ()

/-- `stat` calls `stat` for each operand and prints what it got. -/
theorem cmdStat (args : List Bytes) : Quiet (kernel answers follows started) (cmdStat args) := by
  cases args with
  | nil => exact writeError _
  | cons arg rest =>
    refine bind (resolve arg) fun abs => ?_
    cases abs with
    | none => exact writeError _
    | some abs =>
      exact bind (sys fun _ _ => rfl) fun _ => ite (writeErrorErrno _ _) (writeStat _ _)

/-- A line of a plain `ls`. -/
theorem shortEntry (name : Bytes) : Quiet (kernel answers follows started) (shortEntry name) :=
  bind (writeRaw _) fun _ => writeRaw _

/-- A line of `ls -l`: the name is joined to the directory, and `stat` gives its type and size. -/
theorem longEntry (dirPath name : Bytes) :
    Quiet (kernel answers follows started) (longEntry dirPath name) := by
  have hunknown : Quiet (kernel answers follows started) (unknownEntry name) :=
    bind (writeRaw _) fun _ => bind (writeRaw _) fun _ => writeRaw _
  rw [Process.longEntry]
  split
  · exact hunknown
  · refine bind (sys fun _ _ => rfl) fun a => ?_
    refine ite hunknown ?_
    generalize a.into (zeros STAT_LEN) = st
    refine bind (writeRaw _) fun _ => bind (writeRaw _) fun _ => ?_
    refine bind (writeU64Field _ 8) fun _ => ?_
    exact bind (writeRaw _) fun _ => bind (writeRaw _) fun _ => writeRaw _

end Quiet

/-! ### Functions that are quiet in runs of so many calls -/

/-- In runs of at most `n` calls, starting in the shell process, the function returns, and it changes
neither the jobs nor what the kernel keeps for the executor. -/
def Settled (M : Prog.Monitor SysCall Answer View) (n : Nat) (x : Sh α) : Prop :=
  ∀ (Q : α → Globals → View × Nat → Prop) g s k,
    (∀ a g' k', g'.jobs = g.jobs → k ≤ k' → Q a g' (⟨s, none⟩, k')) →
      twp (M.within n) x Q g (⟨s, none⟩, k)

/-- A quiet function is settled, whatever the number of calls is. -/
theorem Quiet.settled {M : Prog.Monitor SysCall Answer View} {x : Sh α} (h : Quiet M x) (n : Nat) :
    Settled M n x := by
  intro Q g s k hQ
  have hx : twp M x (fun _ g' v => g' = g ∧ v = ⟨s, none⟩) g ⟨s, none⟩ := h _ g s fun _ => ⟨rfl, rfl⟩
  refine twp_mono (Routine.twp_within hx n k) ?_
  rintro a g' ⟨v, k'⟩ ⟨⟨rfl, rfl⟩, hk⟩
  exact hQ a g' k' rfl hk

namespace Settled

variable {M : Prog.Monitor SysCall Answer View} {n : Nat}

/-- A program that settles, followed by programs that settle, settles within the same number of
calls that it may read. -/
theorem bind {x : Sh α} {f : α → Sh β} (hx : Settled M n x) (hf : ∀ a, Settled M n (f a)) :
    Settled M n (x >>= f) := by
  intro Q g s k hQ
  rw [twp_bind]
  refine hx _ g s k fun a g₁ k₁ hjobs₁ hk₁ => ?_
  refine hf a Q g₁ s k₁ fun b g₂ k₂ hjobs₂ hk₂ => ?_
  exact hQ b g₂ k₂ (hjobs₂.trans hjobs₁) (Nat.le_trans hk₁ hk₂)

/-- A choice between two programs that settle. -/
theorem ite {c : Prop} [Decidable c] {x y : Sh α} (hx : Settled M n x) (hy : Settled M n y) :
    Settled M n (if c then x else y) := by
  split
  · exact hx
  · exact hy

/-- A change of the memory that is none of the jobs. -/
theorem modify {f : Globals → Globals} (hf : ∀ g, (f g).jobs = g.jobs) :
    Settled M n (MonadStateOf.modifyGet fun g => ((), f g) : Sh Unit) :=
  fun _ g _ k hQ => hQ () (f g) k (hf g) (Nat.le_refl k)

end Settled

/-- A call that the executor does not notice is one of the `n`. -/
theorem twp_sys_within {n k : Nat} {s : Shell Unit} {g : Globals} (c : SysCall)
    (hnext : ∀ a, View.next answers s c a = ⟨s, none⟩) {Q : Answer → Globals → View × Nat → Prop}
    (hQ : ∀ a, k < n → Q a g (⟨s, none⟩, k + 1)) :
    twp ((kernel answers follows started).within n) (sys c) Q g (⟨s, none⟩, k) := by
  refine ⟨trivial, fun a ha => ?_⟩
  show Q a g (View.next answers s c a, k + 1)
  rw [hnext]
  exact hQ a ha.1

/-- The loop of `ls`. Each turn makes a call, so with more turns than calls it is not cut. -/
theorem settled_lsLoop {n turns : Nat} (hn : n < turns) (dirPath : Bytes) {entry : Bytes → Sh Unit}
    (hentry : ∀ name, Quiet (kernel answers follows started) (entry name)) :
    Settled (kernel answers follows started) n (lsLoop turns dirPath entry) := by
  intro Q g s k hQ
  refine Routine.twp_loop
    (fun _ g' v' => g'.jobs = g.jobs ∧ ∃ k', k ≤ k' ∧ v' = (⟨s, none⟩, k'))
    (fun _ _ v' => n - v'.2) ?_ ?_ (by show n - k < turns; omega)
  rotate_left
  · exact ⟨rfl, k, Nat.le_refl k, rfl⟩
  rintro ⟨name, any⟩ g' _ ⟨hjobs, k', hk, rfl⟩
  rw [twp_bind]
  -- The call is one of the `n`, so there is one less of them behind it.
  refine twp_sys_within _ (fun _ => rfl) fun a hleft => ?_
  split
  · -- The end of the names, or an error, which is reported if no name has come before it.
    show twp _ (if _ then _ else _) _ g' _
    split
    · rw [twp_bind]
      refine (Quiet.writeErrorErrno _ _).settled n _ g' s (k' + 1) fun _ g'' k'' hjobs'' hk'' => ?_
      exact hQ () g'' k'' (hjobs''.trans hjobs) (by omega)
    · exact hQ () g' (k' + 1) hjobs (by omega)
  · rw [twp_bind]
    refine (hentry _).settled n _ g' s (k' + 1) fun _ g'' k'' hjobs'' hk'' => ?_
    refine ⟨⟨hjobs''.trans hjobs, k'', by omega, rfl⟩, ?_⟩
    show n - k'' < n - k'
    omega

/-- `ls` settles: its loop asks `readdir` for one entry after the other, and the listing is
bounded, so that it ends before its budget does. -/
theorem settled_cmdLs {n turns : Nat} (hn : n < turns) (args : List Bytes) :
    Settled (kernel answers follows started) n (cmdLs turns args) := by
  refine ((Quiet.resolve _).settled n).bind fun abs => ?_
  cases abs with
  | none => exact (Quiet.writeError _).settled n
  | some abs =>
    exact .ite (settled_lsLoop hn abs (Quiet.longEntry abs))
      (settled_lsLoop hn abs Quiet.shortEntry)

/-! ### Commands -/

/-- Commands that open files, that look for jobs, or that have to do with processes. -/
def INVOLVED : List Bytes :=
  [bytes "cat", bytes "cp", bytes "mv", bytes "touch", bytes "exit", bytes "logout", bytes "fg",
    bytes "bg", bytes "exec", bytes "run", bytes "source", bytes "."]

/-- The in-process builtins other than `exit`. -/
theorem quiet_runCommand (turns : Nat) (doScript : Bytes → Sh Unit) {cmd : Bytes}
    (h : isInprocessBuiltin cmd = true) (hexit : cmd ≠ bytes "exit") (rest : List Bytes) :
    Quiet (kernel answers follows started) (runCommand turns doScript cmd rest) := by
  simp only [isInprocessBuiltin, List.contains_eq_mem, List.mem_cons, List.not_mem_nil, or_false,
    decide_eq_true_eq] at h
  rcases h with rfl | rfl | rfl | rfl | rfl | rfl | rfl | rfl | rfl
  · exact Quiet.cmdCd rest
  · exact absurd rfl hexit
  · exact Quiet.cmdPwd
  · exact Quiet.forM Quiet.writeLine _
  · exact Quiet.cmdWhoami
  · exact Quiet.cmdUname
  · exact Quiet.cmdVer
  · exact Quiet.writeRaw _
  · exact Quiet.cmdDate

/-- All other commands are settled. -/
theorem settled_runCommand {n turns : Nat} (hn : n < turns) (doScript : Bytes → Sh Unit) {cmd : Bytes}
    (h : cmd ∉ INVOLVED) (rest : List Bytes) :
    Settled (kernel answers follows started) n (runCommand turns doScript cmd rest) := by
  have hno : ∀ {name : Bytes}, name ∈ INVOLVED → cmd ≠ name := fun hmem hcmd => h (hcmd ▸ hmem)
  rw [runCommand.eq_def]
  refine .ite ((Quiet.forM Quiet.writeLine _).settled n) ?_
  refine .ite ((Quiet.cmdEcho rest).settled n) ?_
  refine .ite (.ite (Quiet.envList.settled n) (.modify fun _ => rfl)) ?_
  refine .ite (Quiet.envList.settled n) ?_
  refine .ite (.modify fun _ => rfl) ?_
  refine .ite (Quiet.cmdPwd.settled n) ?_
  refine .ite ((Quiet.cmdCd rest).settled n) ?_
  refine .ite (settled_cmdLs hn rest) ?_
  rw [if_neg (hno (by decide))]
  refine .ite ((Quiet.cmdRm rest).settled n) ?_
  refine .ite ((Quiet.cmdMkdir rest).settled n) ?_
  rw [if_neg (hno (by decide)), if_neg (hno (by decide)), if_neg (hno (by decide))]
  refine .ite ((Quiet.cmdStat rest).settled n) ?_
  refine .ite (Quiet.cmdWhoami.settled n) ?_
  refine .ite (Quiet.cmdUname.settled n) ?_
  refine .ite ((Quiet.writeRaw _).settled n) ?_
  rw [if_neg (not_or.mpr ⟨hno (by decide), hno (by decide)⟩)]
  refine .ite (Quiet.cmdJobs.settled n) ?_
  rw [if_neg (hno (by decide)), if_neg (hno (by decide)), if_neg (hno (by decide)),
    if_neg (hno (by decide)), if_neg (not_or.mpr ⟨hno (by decide), hno (by decide)⟩)]
  refine .ite (Quiet.cmdDate.settled n) ?_
  refine .ite (Quiet.cmdVer.settled n) ?_
  exact (Quiet.bind (Quiet.writeRaw _) fun _ => .bind (.writeRaw _) fun _ => .writeRaw _).settled n

end OnyxShell.Process
