import OnyxShell.Lib.Tracks
import OnyxShell.Process.Main

/-!
# `OnyxShell.Proofs.Process.Apart`: what the functions of the shell look at

Two processes whose globals agree in the environment and the jobs do the same in every function that
runs no script (`tracks_runCommand` puts the commands together), and scripts do the same if they do
so one level down. The history and the depth of the scripts may differ: `Apart R` is said of a
relation that leaves only those open.

The loops of the second process may be given more turns.
-/

set_option autoImplicit false

namespace OnyxShell.Process

open Routine (Tracks)

/-- The globals agree but for the history and the depth of the scripts, and so they do behind a
change of the environment or of the jobs. -/
structure Apart (R : Globals → Globals → Prop) : Prop where
  env : ∀ {g g'}, R g g' → g'.env = g.env
  jobs : ∀ {g g'}, R g g' → g'.jobs = g.jobs
  setEnv : ∀ {g g'}, R g g' → ∀ env, R { g with env := env } { g' with env := env }
  setJobs : ∀ {g g'}, R g g' → ∀ jobs, R { g with jobs := jobs } { g' with jobs := jobs }

variable {α β : Type} {R : Globals → Globals → Prop} {turns turns' : Nat}

/-! ### Printing -/

/-- The same call on both sides, and the same answer. -/
theorem tracks_sys (c : SysCall) : Tracks R (sys c) (sys c) := .call c

/-- Both processes end with the same code. -/
theorem tracks_exit (code : Nat) : Tracks R (exit code : Sh α) (exit code) :=
  .bind (tracks_sys _) fun _ => .halt

/-- Output does not look at the globals. The lemmas of this section say so of each way of
printing. -/
theorem tracks_writeRaw (b : Bytes) : Tracks R (writeRaw b) (writeRaw b) :=
  .bind (tracks_sys _) fun _ => .pure ()

/-- A text. -/
theorem tracks_writeStr (t : String) : Tracks R (writeStr t) (writeStr t) := tracks_writeRaw _

/-- A line end. -/
theorem tracks_newline : Tracks R newline newline := tracks_writeRaw _

/-- A text and a line end. -/
theorem tracks_writeLine (t : String) : Tracks R (writeLine t) (writeLine t) :=
  .bind (tracks_writeStr t) fun _ => tracks_newline

/-- Output, and what is behind it. -/
theorem tracks_print (b : Bytes) {x x' : Sh α} (hx : Tracks R x x') :
    Tracks R (writeRaw b >>= fun _ => x) (writeRaw b >>= fun _ => x') :=
  .bind (tracks_writeRaw b) fun _ => hx

/-- An error message, in its three writes. -/
theorem tracks_writeError (msg : Bytes) : Tracks R (writeError msg) (writeError msg) :=
  tracks_print _ (tracks_print _ tracks_newline)

/-- An error message with a number, in its five writes. -/
theorem tracks_writeErrorErrno (msg : Bytes) (ret : Int) :
    Tracks R (writeErrorErrno msg ret) (writeErrorErrno msg ret) :=
  tracks_print _ (tracks_print _ (tracks_print _ (tracks_print _ tracks_newline)))

/-- A panic gives the terminal back, prints and ends the process, on both sides. -/
theorem tracks_panic : Tracks R (panic : Sh α) panic := by
  refine .bind (.bind (tracks_sys _) fun _ => .pure _) fun _ => ?_
  exact .bind (tracks_writeStr _) fun _ => tracks_exit _

/-- Whether a slice panics depends on the buffer, which is the same on both sides. -/
theorem tracks_slice (buf : Bytes) (n : Nat) : Tracks R (slice buf n) (slice buf n) :=
  .ite (.pure _) tracks_panic

/-- The digits that were found, or the panic where there were none. -/
theorem tracks_writeFound (digits : Option Bytes) :
    Tracks R (writeFound digits) (writeFound digits) := by
  cases digits with
  | none => exact tracks_panic
  | some digits => exact tracks_writeRaw digits

/-- A number in decimal. -/
theorem tracks_writeU64 (n : UInt64) : Tracks R (writeU64 n) (writeU64 n) := tracks_writeFound _

/-- A signed number. -/
theorem tracks_writeI64 (n : Int64) : Tracks R (writeI64 n) (writeI64 n) :=
  .ite (.bind (tracks_writeRaw _) fun _ => tracks_writeU64 _) (tracks_writeU64 _)

/-- A number in hexadecimal. -/
theorem tracks_writeHex (n : UInt64) : Tracks R (writeHex n) (writeHex n) :=
  tracks_print _ (tracks_writeFound _)

/-- A number set to the right in its field. -/
theorem tracks_writeU64Field (n : UInt64) (width : Nat) :
    Tracks R (writeU64Field n width) (writeU64Field n width) := by
  rw [writeU64Field]
  split
  · exact .bind (.forM fun _ => tracks_writeRaw _) fun _ => tracks_writeRaw _
  · exact tracks_panic

/-! ### Files -/

/-- Resolving a path asks the kernel for the directory: the shell keeps none of its own. -/
theorem tracks_resolve (input : Bytes) : Tracks R (resolve input) (resolve input) := by
  refine .ite (.pure _) (.ite (.pure _) ?_)
  refine .bind (tracks_sys _) fun a => .ite (.pure _) ?_
  exact .bind (tracks_slice _ _) fun cwd => .pure _

/-- The loop over the operands, by induction on them. -/
theorem tracks_forOperands (name missing : Bytes) {act act' : Bytes → Bytes → Sh Unit}
    (hact : ∀ arg abs, Tracks R (act arg abs) (act' arg abs)) (args : List Bytes) :
    Tracks R (forOperands name missing act args) (forOperands name missing act' args) := by
  refine .ite (tracks_writeError _) (.forM fun arg => ?_)
  refine .bind (tracks_resolve arg) fun r => ?_
  cases r with
  | none => exact tracks_writeError _
  | some abs => exact hact arg abs

/-- A call, and the message if it fails. -/
theorem tracks_checked (c : SysCall) (name : Bytes) :
    Tracks R (sys c >>= fun a => if a.ret < 0 then writeErrorErrno name a.ret else pure ())
      (sys c >>= fun a => if a.ret < 0 then writeErrorErrno name a.ret else pure ()) :=
  .bind (tracks_sys c) fun _ => .ite (tracks_writeErrorErrno _ _) (.pure ())

/-- `rm`. -/
theorem tracks_cmdRm (args : List Bytes) : Tracks R (cmdRm args) (cmdRm args) :=
  tracks_forOperands _ _ (fun _ _ => tracks_checked _ _) args

/-- `mkdir`. -/
theorem tracks_cmdMkdir (args : List Bytes) : Tracks R (cmdMkdir args) (cmdMkdir args) := by
  refine tracks_forOperands _ _ (fun arg abs => ?_) args
  refine .bind (tracks_sys _) fun a => .ite (.ite ?_ (tracks_writeErrorErrno _ _)) (.pure ())
  exact tracks_print _ (tracks_print _ (tracks_writeRaw _))

/-- `touch`. -/
theorem tracks_cmdTouch (args : List Bytes) : Tracks R (cmdTouch args) (cmdTouch args) := by
  refine tracks_forOperands _ _ (fun arg abs => ?_) args
  refine .bind (tracks_sys _) fun a => .ite ?_ (.ite (tracks_writeErrorErrno _ _) (.pure ()))
  exact .bind (tracks_sys _) fun _ => .pure ()

/-- The lines of `stat`, read off the same buffer. -/
theorem tracks_writeStat (abs st : Bytes) : Tracks R (writeStat abs st) (writeStat abs st) := by
  refine tracks_print _ (tracks_print _ (.bind tracks_newline fun _ => ?_))
  refine tracks_print _ (.bind (tracks_writeI64 _) fun _ => ?_)
  refine tracks_print _ (tracks_print _ (.bind tracks_newline fun _ => ?_))
  refine tracks_print _ (.bind (tracks_writeU64 _) fun _ => ?_)
  refine tracks_print _ (.bind (tracks_writeU64 _) fun _ => .bind tracks_newline fun _ => ?_)
  refine tracks_print _ (.bind (tracks_writeHex _) fun _ => ?_)
  refine tracks_print _ (.bind (tracks_writeHex _) fun _ => .bind tracks_newline fun _ => ?_)
  refine tracks_print _ (.bind (tracks_writeHex _) fun _ => ?_)
  refine tracks_print _ (.bind (tracks_writeU64 _) fun _ => ?_)
  refine tracks_print _ (.bind (tracks_writeU64 _) fun _ => .bind tracks_newline fun _ => ?_)
  refine tracks_print _ (.bind (tracks_writeI64 _) fun _ => ?_)
  refine tracks_print _ (.bind (tracks_writeI64 _) fun _ => .bind tracks_newline fun _ => ?_)
  exact tracks_print _ (.bind (tracks_writeU64 _) fun _ => tracks_print _ tracks_newline)

/-- `stat`. -/
theorem tracks_cmdStat (args : List Bytes) : Tracks R (cmdStat args) (cmdStat args) := by
  cases args with
  | nil => exact tracks_writeError _
  | cons arg rest =>
    refine .bind (tracks_resolve arg) fun r => ?_
    cases r with
    | none => exact tracks_writeError _
    | some abs =>
      refine .bind (tracks_sys _) fun a => ?_
      exact .ite (tracks_writeErrorErrno _ _) (tracks_writeStat _ _)

section
variable (hturns : turns ≤ turns')
include hturns

/-- The loop of `cat`. Within the smaller budget the turns are the same, and the larger one has
more left over. -/
theorem tracks_catLoop (fd : Nat) : Tracks R (catLoop turns fd) (catLoop turns' fd) := by
  refine .loop hturns (fun buf => ?_) _
  refine .bind (tracks_sys _) fun a => .ite (.pure _) ?_
  exact .bind (tracks_slice _ _) fun b => tracks_print b (.pure _)

/-- `cat`, which opens each operand and runs the loop. -/
theorem tracks_cmdCat (args : List Bytes) : Tracks R (cmdCat turns args) (cmdCat turns' args) := by
  refine tracks_forOperands _ _ (fun arg abs => ?_) args
  refine .bind (tracks_sys _) fun a => .ite (tracks_writeErrorErrno _ _) ?_
  exact .bind (tracks_catLoop hturns _) fun _ => .bind (tracks_sys _) fun _ => .pure ()

/-- The writes of one chunk. -/
theorem tracks_writeLoop (dst : Nat) (buf : Bytes) (n : Nat) :
    Tracks R (writeLoop turns dst buf n) (writeLoop turns' dst buf n) := by
  refine .loop hturns (fun written => ?_) _
  refine .ite (.ite tracks_panic ?_) (.pure _)
  refine .bind (tracks_sys _) fun w => .ite ?_ (.pure _)
  exact .bind (tracks_writeError _) fun _ => .pure _

/-- The rounds of a copy. -/
theorem tracks_copyLoop (src dst : Nat) :
    Tracks R (copyLoop turns src dst) (copyLoop turns' src dst) := by
  refine .loop hturns (fun buf => ?_) _
  refine .bind (tracks_sys _) fun a => .ite ?_ (.ite (.pure _) ?_)
  · exact .bind (tracks_writeError _) fun _ => .pure _
  · exact .bind (tracks_writeLoop hturns _ _ _) fun ok => .pure _

/-- A copy between two paths, with the descriptors closed at its end. -/
theorem tracks_copyFile (srcAbs dstAbs : Bytes) :
    Tracks R (copyFile turns srcAbs dstAbs) (copyFile turns' srcAbs dstAbs) := by
  refine .bind (tracks_sys _) fun src => .ite ?_ ?_
  · exact .bind (tracks_writeErrorErrno _ _) fun _ => .pure false
  · refine .bind (tracks_sys _) fun dst => .ite ?_ ?_
    · refine .bind (tracks_writeErrorErrno _ _) fun _ => ?_
      exact .bind (tracks_sys _) fun _ => .pure false
    · refine .bind (tracks_copyLoop hturns _ _) fun copyOk => ?_
      exact .bind (tracks_sys _) fun _ => .bind (tracks_sys _) fun _ => .pure copyOk

/-- `cp`. -/
theorem tracks_cmdCp (args : List Bytes) : Tracks R (cmdCp turns args) (cmdCp turns' args) := by
  have herror : ∀ msg, Tracks R (writeError msg >>= fun _ => pure false)
      (writeError msg >>= fun _ => pure false) :=
    fun msg => .bind (tracks_writeError msg) fun _ => .pure false
  rcases args with _ | ⟨srcIn, _ | ⟨dstIn, rest⟩⟩
  · exact herror _
  · exact herror _
  · refine .bind (tracks_resolve srcIn) fun src => .bind (tracks_resolve dstIn) fun dst => ?_
    rcases src with _ | srcAbs
    · exact herror _
    · rcases dst with _ | dstAbs
      · exact herror _
      · exact tracks_copyFile hturns srcAbs dstAbs

/-- The copy of `mv` with the removal behind it. -/
theorem tracks_moveByCopy (args : List Bytes) (srcAbs : Bytes) :
    Tracks R (moveByCopy turns args srcAbs) (moveByCopy turns' args srcAbs) := by
  refine tracks_print _ (.bind (tracks_cmdCp hturns args) fun ok => ?_)
  exact .ite (tracks_checked _ _) (tracks_writeError _)

/-- `mv`. -/
theorem tracks_cmdMv (args : List Bytes) : Tracks R (cmdMv turns args) (cmdMv turns' args) := by
  rcases args with _ | ⟨srcIn, _ | ⟨dstIn, rest⟩⟩
  · exact tracks_writeError _
  · exact tracks_writeError _
  · refine .bind (tracks_resolve srcIn) fun src => .bind (tracks_resolve dstIn) fun dst => ?_
    rcases src with _ | srcAbs
    · exact tracks_writeError _
    · rcases dst with _ | dstAbs
      · exact tracks_writeError _
      · exact .bind (tracks_sys _) fun a => .ite (.pure ()) (tracks_moveByCopy hturns _ _)

end

/-! ### The working directory and the system -/

/-- `pwd`. -/
theorem tracks_cmdPwd : Tracks R cmdPwd cmdPwd := by
  refine .bind (tracks_sys _) fun a => ?_
  split
  · exact .bind (tracks_slice _ _) fun b => tracks_print b tracks_newline
  · exact tracks_print _ tracks_newline

/-- `cd`. -/
theorem tracks_cmdCd (args : List Bytes) : Tracks R (cmdCd args) (cmdCd args) := by
  refine .bind (tracks_resolve _) fun r => ?_
  cases r with
  | none => exact tracks_writeError _
  | some abs => exact tracks_checked _ _

/-- The loop of `ls` over the entries of a directory. -/
theorem tracks_lsLoop (hturns : turns ≤ turns') (dirPath : Bytes) {entry : Bytes → Sh Unit}
    (hentry : ∀ name, Tracks R (entry name) (entry name)) :
    Tracks R (lsLoop turns dirPath entry) (lsLoop turns' dirPath entry) := by
  refine .loop hturns (fun s => ?_) _
  refine .bind (tracks_sys _) fun a => .ite ?_ ?_
  · split
    · exact .bind (tracks_writeErrorErrno _ _) fun _ => .pure _
    · exact .pure _
  · exact .bind (hentry _) fun _ => .pure _

/-- A line of a plain `ls`. -/
theorem tracks_shortEntry (name : Bytes) : Tracks R (shortEntry name) (shortEntry name) :=
  tracks_print _ tracks_newline

/-- The line of an entry that `stat` refuses. -/
theorem tracks_unknownEntry (name : Bytes) : Tracks R (unknownEntry name) (unknownEntry name) :=
  tracks_print _ (tracks_print _ tracks_newline)

/-- A line of `ls -l`, by what `stat` answers. -/
theorem tracks_longEntry (dirPath name : Bytes) :
    Tracks R (longEntry dirPath name) (longEntry dirPath name) := by
  rw [longEntry]
  split
  · exact tracks_unknownEntry name
  · refine .bind (tracks_sys _) fun a => .ite (tracks_unknownEntry name) ?_
    refine tracks_print _ (tracks_print _ (.bind (tracks_writeU64Field _ _) fun _ => ?_))
    exact tracks_print _ (tracks_print _ tracks_newline)

/-- `ls`, with the options read off the operands. -/
theorem tracks_cmdLs (hturns : turns ≤ turns') (args : List Bytes) :
    Tracks R (cmdLs turns args) (cmdLs turns' args) := by
  refine .bind (tracks_resolve _) fun r => ?_
  cases r with
  | none => exact tracks_writeError _
  | some abs =>
    exact .ite (tracks_lsLoop hturns _ (tracks_longEntry abs))
      (tracks_lsLoop hturns _ tracks_shortEntry)

/-- `help`. -/
theorem tracks_cmdHelp : Tracks R cmdHelp cmdHelp := .forM tracks_writeLine

/-- `echo`. -/
theorem tracks_cmdEcho (args : List Bytes) : Tracks R (cmdEcho args) (cmdEcho args) := by
  refine .bind (.forM fun (a, i) => ?_) fun _ => tracks_newline
  exact .ite (tracks_print _ (tracks_writeRaw a)) (tracks_writeRaw a)

/-- `whoami`. -/
theorem tracks_cmdWhoami : Tracks R cmdWhoami cmdWhoami := by
  refine .bind (tracks_sys _) fun uid => .bind (tracks_sys _) fun ring => ?_
  refine tracks_print _ (tracks_print _ (.bind (tracks_writeI64 _) fun _ => ?_))
  exact tracks_print _ (tracks_print _ (tracks_writeRaw _))

/-- `uname`. -/
theorem tracks_cmdUname : Tracks R cmdUname cmdUname := by
  refine .bind (tracks_sys _) fun a => .ite (tracks_writeErrorErrno _ _) (.forM ?_)
  rintro ⟨label, off⟩
  exact tracks_print _ (tracks_print _ (tracks_print _ (tracks_print _ tracks_newline)))

/-- `date`. -/
theorem tracks_cmdDate : Tracks R cmdDate cmdDate := by
  refine .bind (tracks_sys _) fun a => .ite (tracks_writeErrorErrno _ _) ?_
  refine tracks_print _ (.bind (tracks_writeU64 _) fun _ => ?_)
  exact tracks_print _ (.bind (tracks_writeU64 _) fun _ => tracks_writeRaw _)

/-- `exit`. -/
theorem tracks_cmdExit : Tracks R cmdExit cmdExit :=
  .bind (tracks_writeLine _) fun _ => tracks_exit 0

/-- `ver`. -/
theorem tracks_cmdVer : Tracks R cmdVer cmdVer :=
  .bind (tracks_writeLine _) fun _ => .bind (tracks_writeLine _) fun _ => tracks_writeLine _

/-! ### The environment and the jobs -/

/-- The line `[id] pid` of a job. -/
theorem tracks_writeJob (id : Nat) (pid : Int) : Tracks R (writeJob id pid) (writeJob id pid) := by
  refine tracks_print _ (.bind (tracks_writeU64 _) fun _ => ?_)
  exact tracks_print _ (tracks_writeI64 _)

/-- The search along a list of directories, by induction on it. -/
theorem tracks_searchDirs (cmd : Bytes) (dirs : List Bytes) :
    Tracks R (searchDirs cmd dirs) (searchDirs cmd dirs) := by
  induction dirs with
  | nil => exact .pure none
  | cons dir rest ih =>
    refine .ite ih (.bind (tracks_resolve dir) fun r => ?_)
    cases r with
    | none => exact ih
    | some absDir => exact .ite (.pure none) (.bind (tracks_sys _) fun a => .ite (.pure _) ih)

section
variable (hR : Apart R)
include hR

/-- `env` looks at the environment, in which the two processes agree. -/
theorem tracks_envList : Tracks R envList envList := by
  refine .read fun g g' h => ?_
  rw [hR.env h]
  refine Tracks.forM (fun entry => ?_) g g' h
  exact tracks_print _ (tracks_print _ (tracks_print _ tracks_newline))

/-- Changing the environment by the same calls leaves the two processes in agreement. -/
theorem tracks_runEnv (calls : List EnvCall) :
    Tracks R (modify fun g => { g with env := g.env.run calls } : Sh PUnit)
      (modify fun g => { g with env := g.env.run calls }) := by
  refine .change fun g g' h => ?_
  rw [hR.env h]
  exact hR.setEnv h _

/-- `export`. -/
theorem tracks_cmdExport (args : List Bytes) : Tracks R (cmdExport args) (cmdExport args) :=
  .ite (tracks_envList hR) (tracks_runEnv hR _)

/-- `jobs` looks at the job table, in which the two processes agree. -/
theorem tracks_jobList : Tracks R jobList jobList := by
  refine .read fun g g' h => ?_
  rw [hR.jobs h]
  refine Tracks.forM (fun job => ?_) g g' h
  refine .bind (tracks_writeJob _ _) fun _ => ?_
  exact tracks_print _ (tracks_print _ tracks_newline)

/-- One child that has ended is taken from both tables. -/
theorem tracks_reapOne (pid : Int) : Tracks R (reapOne pid) (reapOne pid) := by
  refine .read fun g g' h => ?_
  rw [hR.jobs h]
  rcases g.jobs.remove pid with ⟨_ | job, jobs⟩
  · exact .ret ⟨rfl, h⟩
  · -- The globals are still those that have been read when the jobs are written.
    let Read : Globals → Globals → Prop := fun g₁ g₁' => g₁ = g ∧ g₁' = g'
    have hjob : Tracks Read (writeJob job.id pid) (writeJob job.id pid) := tracks_writeJob _ _
    have hdone : Tracks Read (writeRaw (bytes " Done\n")) (writeRaw (bytes " Done\n")) :=
      tracks_writeRaw _
    refine Prog.Tracks.bind (hjob g g' ⟨rfl, rfl⟩) ?_
    rintro ⟨_, _⟩ ⟨_, _⟩ ⟨-, rfl, rfl⟩
    refine Prog.Tracks.bind (hdone _ _ ⟨rfl, rfl⟩) ?_
    rintro ⟨_, _⟩ ⟨_, _⟩ ⟨-, rfl, rfl⟩
    exact .ret ⟨rfl, hR.setJobs h jobs⟩

/-- The loop that reaps, until `waitpid` has no more. -/
theorem tracks_jobReap (hturns : turns ≤ turns') : Tracks R (jobReap turns) (jobReap turns') := by
  refine .loop hturns (fun _ => ?_) ()
  refine .bind (tracks_sys _) fun a => .ite (.pure _) ?_
  exact .bind (tracks_reapOne hR _) fun _ => .pure _

/-- A new job has the same number in both tables. -/
theorem tracks_jobLaunched (pid : Int) : Tracks R (jobLaunched pid) (jobLaunched pid) := by
  refine .read fun g g' h => ?_
  rw [hR.jobs h]
  exact Tracks.bind (tracks_writeJob _ _) (fun _ => tracks_newline) _ _ (hR.setJobs h _)

/-- Looking up the job that `fg` and `bg` are about, which is the same on both sides. -/
theorem tracks_withJob (name : Bytes) {act : Job → Sh Unit}
    (hact : ∀ job, Tracks R (act job) (act job)) (args : List Bytes) :
    Tracks R (withJob name act args) (withJob name act args) := by
  cases args with
  | nil => exact tracks_writeError _
  | cons arg rest =>
    refine .ite (tracks_writeError _) (.read fun g g' h => ?_)
    rw [hR.jobs h]
    cases g.jobs.findById (parseJobId arg) with
    | none => exact tracks_writeError _ g g' h
    | some job => exact hact job g g' h

/-- Changing the job table by the same function leaves the two processes in agreement. -/
theorem tracks_changeJobs (f : Jobs → Jobs) :
    Tracks R (modify fun g => { g with jobs := f g.jobs } : Sh PUnit)
      (modify fun g => { g with jobs := f g.jobs }) := by
  refine .change fun g g' h => ?_
  rw [hR.jobs h]
  exact hR.setJobs h _

/-- `fg`. -/
theorem tracks_cmdFg (args : List Bytes) : Tracks R (cmdFg args) (cmdFg args) := by
  refine tracks_withJob hR _ (fun job => ?_) args
  refine .bind (tracks_sys _) fun _ => .bind (tracks_writeJob _ _) fun _ => ?_
  exact tracks_print _ (tracks_changeJobs hR fun jobs => (jobs.removeById job.id).2)

/-- `bg`. -/
theorem tracks_cmdBg (args : List Bytes) : Tracks R (cmdBg args) (cmdBg args) := by
  refine tracks_withJob hR _ (fun job => ?_) args
  have hlast : Tracks R (writeJob job.id job.pid >>= fun _ => newline)
      (writeJob job.id job.pid >>= fun _ => newline) :=
    .bind (tracks_writeJob _ _) fun _ => tracks_newline
  refine .ite (.bind (tracks_sys _) fun _ => ?_) hlast
  exact .bind (tracks_changeJobs hR fun jobs => (jobs.setRunning job.id true).2) fun _ => hlast

/-! ### Programs -/

/-- The search along `PATH`, which is a variable of the environment. -/
theorem tracks_searchPath (cmd : Bytes) : Tracks R (searchPath cmd) (searchPath cmd) := by
  refine .ite (.pure none) (.read fun g g' h => ?_)
  rw [hR.env h]
  cases g.env.get (bytes "PATH") with
  | none => exact Tracks.pure none g g' h
  | some pathVar => exact tracks_searchDirs cmd _ g g' h

/-- A command's path: as it is given, or by the search. -/
theorem tracks_resolveCmdPath (cmd : Bytes) :
    Tracks R (resolveCmdPath cmd) (resolveCmdPath cmd) := by
  refine .ite (tracks_resolve cmd) (.bind (tracks_searchPath hR cmd) fun r => ?_)
  cases r with
  | none => exact tracks_resolve cmd
  | some found => exact .pure _

/-- `execve` gets the environment, in which the two processes agree. -/
theorem tracks_execProgram (path : Bytes) (argv : List Bytes) :
    Tracks R (execProgram path argv) (execProgram path argv) := by
  refine .read fun g g' h => ?_
  rw [hR.env h]
  exact Tracks.bind (tracks_sys _) (fun a => tracks_writeErrorErrno _ _) g g' h

end

/-- Looking for `#!` at the start of a program. -/
theorem tracks_checkShebang (hturns : turns ≤ turns') (path : Bytes) :
    Tracks R (checkShebang turns path) (checkShebang turns' path) := by
  have hloop : ∀ fd, Tracks R (firstLineLoop turns fd) (firstLineLoop turns' fd) := fun fd =>
    .loop hturns (fun buf => .bind (tracks_sys _) fun a => .ite (.pure _) (.pure _)) _
  refine .bind (tracks_sys _) fun a => .ite (.pure none) ?_
  exact .bind (hloop _) fun buf => .bind (tracks_sys _) fun _ => .pure _

/-- The line about a program's exit code. -/
theorem tracks_writeExitCode (status : Int) :
    Tracks R (writeExitCode status) (writeExitCode status) :=
  .ite (tracks_print _ (.bind (tracks_writeI64 _) fun _ => tracks_newline)) (.pure ())

/-- A program that `run` starts and waits for. -/
theorem tracks_runProgram (path : Bytes) (argv : List Bytes) :
    Tracks R (runProgram path argv) (runProgram path argv) := by
  refine .bind (tracks_sys _) fun pid => .ite (tracks_writeErrorErrno _ _) ?_
  refine .bind (tracks_sys _) fun waited => .ite (tracks_writeErrorErrno _ _) ?_
  exact tracks_writeExitCode _

/-- `run` looks for the program and at its first line. -/
theorem tracks_cmdRun (hR : Apart R) (hturns : turns ≤ turns') (args : List Bytes) :
    Tracks R (cmdRun turns args) (cmdRun turns' args) := by
  cases args with
  | nil => exact tracks_writeError _
  | cons arg rest =>
    refine .bind (tracks_resolveCmdPath hR arg) fun r => ?_
    cases r with
    | none => exact tracks_writeError _
    | some path =>
      refine .bind (tracks_checkShebang hturns path) fun shebang => ?_
      cases shebang with
      | some word => exact tracks_runProgram _ _
      | none =>
        dsimp only
        cases buildArgv (arg :: rest) with
        | none => exact tracks_writeError _
        | some argv => exact tracks_runProgram _ _

/-! ### Commands -/

section
variable (hR : Apart R) (hturns : turns ≤ turns')
include hR hturns

/-- `exec`, which runs a script in the shell itself where the first line of the program names
`/bin/osh`. -/
theorem tracks_cmdExec {doScript doScript' : Bytes → Sh Unit}
    (hscript : ∀ input, Tracks R (doScript input) (doScript' input)) (args : List Bytes) :
    Tracks R (cmdExec turns doScript args) (cmdExec turns' doScript' args) := by
  cases args with
  | nil => exact tracks_writeError _
  | cons arg rest =>
    refine .bind (tracks_resolveCmdPath hR arg) fun r => ?_
    cases r with
    | none => exact tracks_writeError _
    | some path =>
      refine .bind (tracks_checkShebang hturns path) fun shebang => ?_
      cases shebang with
      | some word =>
        refine .ite (.bind (hscript path) fun _ => tracks_exit 0) ?_
        exact tracks_execProgram hR _ _
      | none =>
        dsimp only
        cases buildArgv (arg :: rest) with
        | none => exact tracks_writeError _
        | some argv => exact tracks_execProgram hR _ _

/-- A command by its name. The lemmas above are its cases, and scripts are the hypothesis. -/
theorem tracks_runCommand {doScript doScript' : Bytes → Sh Unit}
    (hscript : ∀ input, Tracks R (doScript input) (doScript' input)) (cmd : Bytes)
    (rest : List Bytes) :
    Tracks R (runCommand turns doScript cmd rest) (runCommand turns' doScript' cmd rest) := by
  refine .ite tracks_cmdHelp (.ite (tracks_cmdEcho rest) (.ite (tracks_cmdExport hR rest) ?_))
  refine .ite (tracks_envList hR) (.ite (tracks_runEnv hR _) (.ite tracks_cmdPwd ?_))
  refine .ite (tracks_cmdCd rest) (.ite (tracks_cmdLs hturns rest) ?_)
  refine .ite (tracks_cmdCat hturns rest) (.ite (tracks_cmdRm rest) (.ite (tracks_cmdMkdir rest) ?_))
  refine .ite (.bind (tracks_cmdCp hturns rest) fun _ => .pure ()) ?_
  refine .ite (tracks_cmdMv hturns rest) (.ite (tracks_cmdTouch rest) (.ite (tracks_cmdStat rest) ?_))
  refine .ite tracks_cmdWhoami (.ite tracks_cmdUname (.ite (tracks_writeRaw _) ?_))
  refine .ite tracks_cmdExit (.ite (tracks_jobList hR) (.ite (tracks_cmdFg hR rest) ?_))
  refine .ite (tracks_cmdBg hR rest) (.ite (tracks_cmdExec hR hturns hscript rest) ?_)
  refine .ite (tracks_cmdRun hR hturns rest) (.ite ?_ ?_)
  · cases rest with
    | nil => exact tracks_writeError _
    | cons arg args => exact hscript arg
  · refine .ite tracks_cmdDate (.ite tracks_cmdVer ?_)
    exact tracks_print _ (tracks_print _ (tracks_writeRaw _))

/-- A list of arguments as a command: nothing to do where it is empty. -/
theorem tracks_dispatch {doScript doScript' : Bytes → Sh Unit}
    (hscript : ∀ input, Tracks R (doScript input) (doScript' input)) (args : List Bytes) :
    Tracks R (dispatch turns doScript args) (dispatch turns' doScript' args) := by
  refine .bind (tracks_jobReap hR hturns) fun _ => ?_
  cases args with
  | nil => exact .pure ()
  | cons cmd rest => exact tracks_runCommand hR hturns hscript cmd rest

end

/-! ### Pipelines -/

/-- Closing a descriptor that is not a standard one. -/
theorem tracks_closeAboveTwo (fd : Int) : Tracks R (closeAboveTwo fd) (closeAboveTwo fd) :=
  .ite (.bind (tracks_sys _) fun _ => .pure ()) (.pure ())

/-- The target of a redirection is cut from the line, which is the same on both sides. -/
theorem tracks_openRedirect (line : Bytes) (file : Span) (flags : Nat) (standard : Int) :
    Tracks R (openRedirect line file flags standard) (openRedirect line file flags standard) :=
  .ite (.bind (tracks_sys _) fun _ => .pure _) (.pure _)

/-- `close` and `dup` in a child. -/
theorem tracks_replaceStandard (n : Nat) (fd : Int) :
    Tracks R (replaceStandard n fd) (replaceStandard n fd) :=
  .ite (.bind (tracks_sys _) fun _ => .bind (tracks_sys _) fun _ => .pure ()) (.pure ())

/-- The pipe in front of a segment. -/
theorem tracks_segmentPipe (isLast : Bool) (stdoutFd prevReadFd : Int) :
    Tracks R (segmentPipe isLast stdoutFd prevReadFd) (segmentPipe isLast stdoutFd prevReadFd) :=
  .ite (.pure _) (.bind (tracks_sys _) fun _ => .pure _)

/-- What is closed when a `fork` is refused. -/
theorem tracks_forkFailed (ret curReadFd curWriteFd stdinFd : Int) :
    Tracks R (forkFailed ret curReadFd curWriteFd stdinFd)
      (forkFailed ret curReadFd curWriteFd stdinFd) := by
  refine .bind (tracks_writeErrorErrno _ _) fun _ => .bind (tracks_closeAboveTwo _) fun _ => ?_
  exact .ite (tracks_closeAboveTwo _) (.pure ())

/-- The wait for one child. -/
theorem tracks_waitFor (pid : Int) : Tracks R (waitFor pid) (waitFor pid) :=
  .ite (.bind (tracks_sys _) fun _ => .pure ()) (.pure ())

section
variable {dispatch dispatch' : List Bytes → Sh Unit}
  (hdispatch : ∀ args, Tracks R (dispatch args) (dispatch' args))
include hdispatch

/-- A child runs its command and ends. Only the command may look at the globals. -/
theorem tracks_childMain (args : List Bytes) :
    Tracks R (childMain dispatch args : Sh α) (childMain dispatch' args) :=
  .bind (hdispatch args) fun _ => tracks_exit 0

/-- One turn of the loop over the segments: the parent's part and the child's. -/
theorem tracks_spawnSegment (line : Bytes) (stdoutFd stdinFd : Int) (seg : Segment)
    (isLast : Bool) (l : Launch) :
    Tracks R (spawnSegment dispatch line stdoutFd stdinFd seg isLast l)
      (spawnSegment dispatch' line stdoutFd stdinFd seg isLast l) := by
  refine .ite (.pure _) (.bind (tracks_segmentPipe _ _ _) fun r => ?_)
  cases r with
  | none => exact .bind (tracks_writeError _) fun _ => .pure none
  | some ends =>
    refine .bind (tracks_sys _) fun pid => .ite ?_ (.ite ?_ (.pure _))
    · exact .bind (tracks_forkFailed _ _ _ _) fun _ => .pure none
    · refine .bind (.bind (tracks_replaceStandard _ _) fun _ => tracks_replaceStandard _ _) ?_
      exact fun _ => tracks_childMain hdispatch _

/-- All turns of the loop, by induction on the segments. -/
theorem tracks_launchAll (line : Bytes) (stdoutFd stdinFd : Int) (segs : List Segment)
    (l : Launch) :
    Tracks R (launchAll dispatch line stdoutFd stdinFd segs l)
      (launchAll dispatch' line stdoutFd stdinFd segs l) := by
  induction segs generalizing l with
  | nil => exact .pure _
  | cons seg rest ih =>
    refine .bind (tracks_spawnSegment hdispatch line stdoutFd stdinFd seg _ l) fun r => ?_
    cases r with
    | none => exact .pure none
    | some l => exact ih l

variable (hR : Apart R)
include hR

/-- A single command without redirections. -/
theorem tracks_executePlain (line : Bytes) (seg : Segment) (background : Bool) :
    Tracks R (executePlain dispatch line seg background)
      (executePlain dispatch' line seg background) := by
  refine .ite (.pure ()) (.ite (.bind (tracks_sys _) fun pid => ?_) (hdispatch _))
  refine .ite (tracks_writeErrorErrno _ _) (.ite (tracks_childMain hdispatch _) ?_)
  exact tracks_jobLaunched hR _

omit hdispatch in
/-- The waits, or the entry in the job table. -/
theorem tracks_finishLaunch (background : Bool) (l : Launch) :
    Tracks R (finishLaunch background l) (finishLaunch background l) := by
  refine .bind (.forM tracks_closeAboveTwo) fun _ => ?_
  have hjob : Tracks R (if background ∧ l.lastPid > 0 then jobLaunched l.lastPid else pure ())
      (if background ∧ l.lastPid > 0 then jobLaunched l.lastPid else pure ()) :=
    .ite (tracks_jobLaunched hR _) (.pure ())
  exact .ite (.bind (.forM tracks_waitFor) fun _ => hjob) hjob

/-- A pipeline whose redirections are open. -/
theorem tracks_executeLoop (line : Bytes) (p : Pipeline) (stdoutFd stdinFd : Int) :
    Tracks R (executeLoop dispatch line p stdoutFd stdinFd)
      (executeLoop dispatch' line p stdoutFd stdinFd) := by
  refine .bind (tracks_launchAll hdispatch line stdoutFd stdinFd _ _) fun r => ?_
  cases r with
  | none => exact .pure ()
  | some l => exact tracks_finishLaunch hR _ l

/-- The choice between a builtin in the shell itself and the loop. -/
theorem tracks_executeOpened (line : Bytes) (p : Pipeline) (stdoutFd stdinFd : Int) :
    Tracks R (executeOpened dispatch line p stdoutFd stdinFd)
      (executeOpened dispatch' line p stdoutFd stdinFd) := by
  have hloop := tracks_executeLoop hdispatch hR line p stdoutFd stdinFd
  rw [executeOpened, executeOpened]
  split
  · exact .pure ()
  · refine .ite (.bind (hdispatch _) fun _ => ?_) hloop
    exact .bind (tracks_closeAboveTwo _) fun _ => tracks_closeAboveTwo _
  · exact hloop

/-- A pipeline from its redirections to its end. -/
theorem tracks_execute (hturns : turns ≤ turns') (line : Bytes) (p : Pipeline) :
    Tracks R (execute turns dispatch line p) (execute turns' dispatch' line p) := by
  have hredirected : Tracks R (executeRedirected dispatch line p)
      (executeRedirected dispatch' line p) := by
    refine .bind (tracks_openRedirect _ _ _ _) fun stdoutFd => ?_
    refine .bind (tracks_openRedirect _ _ _ _) fun stdinFd => ?_
    refine .ite (tracks_writeErrorErrno _ _) (.ite ?_ ?_)
    · exact .bind (tracks_writeErrorErrno _ _) fun _ => tracks_closeAboveTwo _
    · exact tracks_executeOpened hdispatch hR line p _ _
  refine .bind (tracks_jobReap hR hturns) fun _ => ?_
  split
  · exact .ite (tracks_executePlain hdispatch hR _ _ _) hredirected
  · exact hredirected

end

/-! ### Lines -/

/-- Listing a directory, by induction on the turns. -/
theorem tracks_scanNames (path : Bytes) (n : Nat) (buf : Bytes) :
    Tracks R (scanNames path n buf) (scanNames path n buf) := by
  induction n generalizing buf with
  | zero => exact .pure []
  | succ n ih => exact .bind (tracks_sys _) fun _ => .ite (.pure []) (.bind (ih _) fun _ => .pure _)

/-- The tokens of a line with their patterns expanded. -/
theorem tracks_expandTokens (line : Bytes) (toks : List Span) (args : List Bytes) :
    Tracks R (expandTokens line toks args) (expandTokens line toks args) := by
  induction toks generalizing args with
  | nil => exact .pure args
  | cons tok rest ih =>
    have hglob : Tracks R (globExpand (Span.of line tok)) (globExpand (Span.of line tok)) :=
      .ite (.bind (tracks_scanNames _ _ _) fun _ => .pure _) (.pure _)
    exact .bind hglob fun expansions => .ite (.pure _) (ih _)

section
variable (hR : Apart R) (hturns : turns ≤ turns') {doScript doScript' : Bytes → Sh Unit}
  (hscript : ∀ input, Tracks R (doScript input) (doScript' input))
include hR hturns hscript

/-- A line with an operator in it. -/
theorem tracks_runPipeline (line : Bytes) :
    Tracks R (runPipeline turns doScript line) (runPipeline turns' doScript' line) :=
  tracks_execute (tracks_dispatch hR hturns hscript) hR hturns _ _

/-- A line of words: variables first, then patterns, and then the command. -/
theorem tracks_runWords (line : Bytes) :
    Tracks R (runWords turns doScript line) (runWords turns' doScript' line) := by
  refine .ite (.pure ()) (.bind (tracks_expandTokens line _ _) fun args => ?_)
  exact tracks_dispatch hR hturns hscript args

/-- A line of a script. -/
theorem tracks_executeLine (line : Bytes) :
    Tracks R (executeLine turns doScript line) (executeLine turns' doScript' line) := by
  refine .read fun g g' h => ?_
  rw [hR.env h]
  exact Tracks.ite (tracks_runPipeline hR hturns hscript _) (tracks_runWords hR hturns hscript _) g
    g' h

end

/-- The lines of a script, read and run one after the other. -/
theorem tracks_doScriptInner (hturns : turns ≤ turns') {runLine runLine' : Bytes → Sh Unit}
    (hline : ∀ line, Tracks R (runLine line) (runLine' line)) (input : Bytes) :
    Tracks R (doScriptInner turns runLine input) (doScriptInner turns' runLine' input) := by
  have hcollected : ∀ line, Tracks R (runCollected runLine line) (runCollected runLine' line) :=
    fun line => .ite (hline line) (.pure ())
  have hread : ∀ fd, Tracks R (readScript turns fd runLine) (readScript turns' fd runLine') := by
    refine fun fd => .loop hturns (fun line => ?_) _
    refine .bind (tracks_sys _) fun a => .ite (.pure _) (.ite ?_ (.ite (.pure _) (.pure _)))
    exact .bind (hcollected line) fun _ => .pure _
  refine .bind (tracks_resolve input) fun r => ?_
  cases r with
  | none => exact tracks_writeError _
  | some abs =>
    refine .bind (tracks_sys _) fun a => .ite (tracks_writeErrorErrno _ _) ?_
    refine .bind (hread _) fun line => .bind (hcollected line) fun _ => ?_
    exact .bind (tracks_sys _) fun _ => .pure ()

end OnyxShell.Process
