import OnyxShell.Commands.JobControl
import OnyxShell.Process.Io

/-!
# `OnyxShell.Process.Jobs`: the background jobs

`job_list` and `job_reap` of `src/features/service/jobs.rs`, and `cmd_jobs`, `cmd_fg` and `cmd_bg`
of `src/commands/exec/script.rs`. The table is `Globals.jobs`.

A turn of `job_reap` is a `waitpid` that does not wait. `jobReap` has a budget of turns, and it is
the kernel that ends the loop, by having no more children to report.
-/

set_option autoImplicit false

namespace OnyxShell.Process

/-- `syscalls::WNOHANG`. -/
def WNOHANG : Nat := 1

/-- `syscalls::SIGCONT`. -/
def SIGCONT : Nat := 18

/-- The pid with which `job_reap` asks for any child. -/
def ANY_CHILD : Nat := 0xFFFFFFFF

/-- `[id] pid`, the way all lines about a job begin. -/
def writeJob (id : Nat) (pid : Int) : Sh Unit := do
  writeRaw (bytes "[")
  writeU64 (UInt64.ofNat id)
  writeRaw (bytes "] ")
  writeI64 (Int64.ofInt pid)

/-- `jobs::job_list`. -/
def jobList : Sh Unit := do
  let g ← get
  g.jobs.table.forM fun job => do
    writeJob job.id job.pid
    writeRaw (bytes " ")
    writeRaw (if job.running then bytes "Running" else bytes "Done")
    newline

/-- The body of the loop in `job_reap` for an ended child. -/
def reapOne (pid : Int) : Sh Unit := do
  let g ← get
  match g.jobs.remove pid with
  | (none, _) => pure ()
  | (some job, jobs) => do
    writeJob job.id pid
    writeRaw (bytes " Done\n")
    set { g with jobs := jobs }

/-- `jobs::job_reap`. A turn is one `waitpid` that does not wait, and the last one is where no
child has ended. -/
def jobReap (turns : Nat) : Sh Unit :=
  Routine.loop (fun _ => do
    let a ← sys (.waitpid ANY_CHILD WNOHANG)
    if a.ret ≤ 0 then pure (.ret ())
    else do
      reapOne a.ret
      pure (.next ())) turns ()

/-- `features::job_add`, and the line that tells the user. -/
def jobLaunched (pid : Int) : Sh Unit := do
  let g ← get
  let added := g.jobs.jobAdd (toI32 pid.toNat)
  set { g with jobs := added.2 }
  writeJob added.1 pid
  newline

/-- `script::cmd_jobs`. -/
def cmdJobs : Sh Unit := jobList

/-- The frame of `fg` and `bg`: what they do with a job, once it is found. -/
def withJob (name : Bytes) (act : Job → Sh Unit) : List Bytes → Sh Unit
  | [] => writeError (name ++ bytes ": usage: " ++ name ++ bytes " %<jobid>")
  | arg :: _ =>
    if parseJobId arg = 0 then
      writeError (name ++ bytes ": invalid job specifier (use %<number>)")
    else do
      let g ← get
      match g.jobs.findById (parseJobId arg) with
      | some job => act job
      | none => writeError (name ++ bytes ": job not found")

/-- `script::cmd_fg`. -/
def cmdFg : List Bytes → Sh Unit :=
  withJob (bytes "fg") fun job => do
    let _ ← sys (.waitpid (asU64 job.pid) 0)
    writeJob job.id job.pid
    writeRaw (bytes " Done\n")
    modify fun g => { g with jobs := (g.jobs.removeById job.id).2 }

/-- `script::cmd_bg`. -/
def cmdBg : List Bytes → Sh Unit :=
  withJob (bytes "bg") fun job => do
    if job.running = false then
      let _ ← sys (.kill job.pid SIGCONT)
      modify fun g => { g with jobs := (g.jobs.setRunning job.id true).2 }
    writeJob job.id job.pid
    newline

end OnyxShell.Process
