import OnyxShell.Syscalls

/-!
# `OnyxShell.Commands.JobControl`: a job in the foreground

`parse_job_id` of `src/commands/exec/mod.rs` and `cmd_fg` of `src/commands/exec/script.rs`.
`cmd_fg` waits for its job by the pid in the table and then takes the entry out.

`parse_job_id` checks its arithmetic: a number that does not fit is read as 0. `fg` waits by the
pid and `job_remove_by_id` goes by the id, which is why the table has to keep the two in step
(`OnyxShell.Proofs.Features.Jobs`).
-/

set_option autoImplicit false

namespace OnyxShell

variable {σ : Type}

/-- `usize::checked_mul`. -/
def checkedMul (a b : Nat) : Option Nat := if a * b < USIZE then some (a * b) else none

/-- `usize::checked_add`. -/
def checkedAdd (a b : Nat) : Option Nat := if a + b < USIZE then some (a + b) else none

/-- The loop of `parse_job_id` over the bytes behind the `%`. A product or a sum that does
not fit a `usize` gives 0. -/
def parseJobDigits (id : Nat) : Bytes → Nat
  | [] => id
  | b :: rest =>
    if isDigit b then
      match (checkedMul id 10).bind fun v => checkedAdd v (b - '0'.toUInt8).toNat with
      | some v => parseJobDigits v rest
      | none => 0
    else 0

/-- A turn of the loop needs only its second check: a sum that fits has a product that fits. -/
theorem parseJobDigits_cons (id : Nat) (b : UInt8) (rest : Bytes) :
    parseJobDigits id (b :: rest) =
      if isDigit b then
        let v := id * 10 + (b - '0'.toUInt8).toNat
        if v < USIZE then parseJobDigits v rest else 0
      else 0 := by
  rw [parseJobDigits, checkedMul]
  by_cases hmul : id * 10 < USIZE
  · rw [if_pos hmul, Option.bind_some, checkedAdd]
    by_cases hadd : id * 10 + (b - '0'.toUInt8).toNat < USIZE
    · simp only [hadd, if_true]
    · simp only [hadd, if_false]
  · have hadd : ¬ id * 10 + (b - '0'.toUInt8).toNat < USIZE :=
      fun h => hmul (Nat.lt_of_le_of_lt (Nat.le_add_right _ _) h)
    simp only [hmul, hadd, if_false, Option.bind_none]

/-- `parse_job_id`: 0 stands for an invalid specifier. -/
def parseJobId (arg : Bytes) : Nat :=
  if arg.length > 1 ∧ arg.head? = some '%'.toUInt8 then parseJobDigits 0 (arg.drop 1) else 0

/-- The cast `pid as u64` of an `i32`. -/
def asU64 (pid : Int) : Nat := (pid.emod USIZE).toNat

/-- `cmd_fg` behind a job that has been found. -/
def Shell.foreground (s : Shell σ) (job : Job) : Shell σ :=
  let s := (s.waitpid (asU64 job.pid)).report (.done job.id job.pid.toNat)
  { s with jobs := (s.jobs.removeById job.id).2 }

/-- `script::cmd_fg`. -/
def cmdFg (args : List Bytes) (s : Shell σ) : Shell σ :=
  match args with
  | [] => s.report (.error (bytes "fg: usage: fg %<jobid>"))
  | arg :: _ =>
    if parseJobId arg = 0 then
      s.report (.error (bytes "fg: invalid job specifier (use %<number>)"))
    else
      match s.jobs.findById (parseJobId arg) with
      | some job => s.foreground job
      | none => s.report (.error (bytes "fg: job not found"))

end OnyxShell
