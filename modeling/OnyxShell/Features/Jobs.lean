import Mathlib.Algebra.Group.Nat.Defs
import OnyxShell.Io

/-!
# `OnyxShell.Features.Jobs`: the background job table

`src/features/service/jobs.rs`: three arrays of at most 16 live entries, here one list of
`Job`s with the bound as a field. Job ids count up in a `usize`, which wraps.

The list is the abstract side. `OnyxShell.Features.JobTable` has the arrays, and
`OnyxShell.Proofs.Features.JobTable` that they are this list in every run.
-/

set_option autoImplicit false

namespace OnyxShell

/-- `jobs::JOB_MAX`. -/
def JOB_MAX : Nat := 16

/-- The number of values of a `usize`. -/
def USIZE : Nat := 2 ^ 64

/-- The cast `pid as i32`. -/
def toI32 (n : Nat) : Int := (n : Int).bmod (2 ^ 32)

/-- One entry: `G_JOB_IDS[i]`, `G_JOB_PIDS[i]`, `G_JOB_RUNNING[i]`. -/
structure Job where
  id : Nat
  pid : Int
  running : Bool
deriving DecidableEq, Repr

/-- The live part of the job arrays, and `G_JOB_NEXT_ID`. -/
structure Jobs where
  table : List Job
  nextId : Nat
  length_le : table.length ≤ JOB_MAX

namespace Jobs

/-- The state before the first command. -/
def init : Jobs := ⟨[], 1, Nat.zero_le _⟩

/-- `job_add`: the id of the new entry, or 0 when the table is full. -/
def jobAdd (j : Jobs) (pid : Int) : Nat × Jobs :=
  if h : j.table.length < JOB_MAX then
    (j.nextId, ⟨j.table ++ [⟨j.nextId, pid, true⟩], (j.nextId + 1) % USIZE, by
      rw [List.length_append]
      exact h⟩)
  else (0, j)

/-- The body of the loop in `job_reap` for a reaped `pid`: its first entry is taken out. -/
def remove (j : Jobs) (pid : Int) : Option Job × Jobs :=
  (j.table.find? (·.pid = pid),
    ⟨j.table.eraseP (·.pid = pid), j.nextId, Nat.le_trans List.length_eraseP_le j.length_le⟩)

/-- `job_find_by_id`. -/
def findById (j : Jobs) (id : Nat) : Option Job := j.table.find? (·.id = id)

/-- `job_remove_by_id`: whether there was an entry, and the table without its first. -/
def removeById (j : Jobs) (id : Nat) : Bool × Jobs :=
  ((j.findById id).isSome,
    ⟨j.table.eraseP (·.id = id), j.nextId, Nat.le_trans List.length_eraseP_le j.length_le⟩)

end Jobs

end OnyxShell
