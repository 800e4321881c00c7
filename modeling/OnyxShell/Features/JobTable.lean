import OnyxShell.Features.Jobs
import OnyxShell.Lib.LiveRows
import OnyxShell.Lib.Runs

/-!
# `OnyxShell.Features.JobTable`: the job table as it lies in memory

The globals of `src/features/service/jobs.rs` as they are: three arrays of 16 rows, of which
the first `G_JOB_COUNT` are live, and the next id. Whatever is behind the live rows stays in
the arrays. `live` is what can be seen of them.

`JobCall` is a call that may change the table, with what it answers. The list model of the
same calls is `Jobs`.
-/

set_option autoImplicit false

namespace OnyxShell

open LiveRows (Rows)

/-- The globals of `jobs.rs`. -/
structure JobTable where
  ids : Vector Nat JOB_MAX
  pids : Vector Int JOB_MAX
  running : Vector Bool JOB_MAX
  nextId : Nat
  count : Nat
  count_le : count ≤ JOB_MAX

namespace JobTable

/-- The arrays at the start of the program. -/
def empty : JobTable where
  ids := Vector.replicate JOB_MAX 0
  pids := Vector.replicate JOB_MAX 0
  running := Vector.replicate JOB_MAX false
  nextId := 1
  count := 0
  count_le := Nat.zero_le _

/-- Row `i` of the three arrays. -/
def row (t : JobTable) (i : Fin JOB_MAX) : Job := ⟨t.ids[i], t.pids[i], t.running[i]⟩

/-- Copies row `j + 1` into row `j`, in all three arrays. -/
def moveDown (t : JobTable) (j : Nat) (h : j + 1 < JOB_MAX) : JobTable :=
  let row : Fin JOB_MAX := ⟨j, Nat.lt_of_succ_lt h⟩
  let next : Fin JOB_MAX := ⟨j + 1, h⟩
  { t with
    ids := t.ids.set row t.ids[next]
    pids := t.pids.set row t.pids[next]
    running := t.running.set row t.running[next] }

/-- Moving a row down copies it over the one before, in all of the parallel arrays. -/
theorem row_moveDown (t : JobTable) (j : Nat) (h : j + 1 < JOB_MAX) (k : Fin JOB_MAX) :
    (t.moveDown j h).row k = if k.val = j then t.row ⟨j + 1, h⟩ else t.row k := by
  by_cases hk : k.val = j
  · subst hk
    rw [if_pos rfl]
    simp [row, moveDown]
  · have hne : j ≠ k.val := fun heq => hk heq.symm
    rw [if_neg hk]
    simp [row, moveDown, hne]

/-- The three arrays as one table. -/
def rows : Rows JobTable Job JOB_MAX := ⟨row, moveDown, row_moveDown⟩

/-- The live rows. -/
def live (t : JobTable) : List Job := rows.live t.count_le t

/-- The loop that looks for the first live row with a property. -/
def find (t : JobTable) (p : Job → Bool) : Option (Fin JOB_MAX) := rows.findFrom t.count_le p t 0

/-- Takes out row `i`: the loop `for j in i..G_JOB_COUNT - 1`, and one live row less. The
source has it in `job_remove_by_id` and in `job_reap`. -/
def removeRow (t : JobTable) (i : Nat) : JobTable :=
  { rows.shift t.count_le t i with
    count := t.count - 1
    count_le := Nat.le_trans (Nat.sub_le _ _) t.count_le }

/-- Stores a job behind the live rows, under the next id. -/
def append (t : JobTable) (h : t.count < JOB_MAX) (pid : Int) : JobTable where
  ids := t.ids.set t.count t.nextId
  pids := t.pids.set t.count pid
  running := t.running.set t.count true
  nextId := (t.nextId + 1) % USIZE
  count := t.count + 1
  count_le := h

/-- `job_add`: the id of the new row, or 0 when the table is full. -/
def jobAdd (t : JobTable) (pid : Int) : Nat × JobTable :=
  if h : t.count ≥ JOB_MAX then (0, t) else (t.nextId, t.append (Nat.lt_of_not_le h) pid)

/-- `job_remove_by_id`. -/
def jobRemoveById (t : JobTable) (id : Nat) : Bool × JobTable :=
  match t.find (·.id = id) with
  | some i => (true, t.removeRow i)
  | none => (false, t)

/-- `job_find_by_id`. -/
def jobFindById (t : JobTable) (id : Nat) : Option Job := (t.find (·.id = id)).map t.row

/-- Stores the flag of row `i`. -/
def setRunning (t : JobTable) (i : Fin JOB_MAX) (running : Bool) : JobTable :=
  { t with running := t.running.set i running }

/-- `job_set_running`. -/
def jobSetRunning (t : JobTable) (id : Nat) (running : Bool) : Bool × JobTable :=
  match t.find (·.id = id) with
  | some i => (true, t.setRunning i running)
  | none => (false, t)

/-- `job_get_by_index`. -/
def jobGetByIndex (t : JobTable) (idx : Nat) : Option Job :=
  if h : idx ≥ t.count then none
  else some (t.row ⟨idx, Nat.lt_of_lt_of_le (Nat.lt_of_not_le h) t.count_le⟩)

/-- A turn of `job_reap` for a `pid` that `waitpid` has reported: the job that is printed, and
the table without it. -/
def reap (t : JobTable) (pid : Int) : Option Job × JobTable :=
  match t.find (·.pid = pid) with
  | some i => (some (t.row i), t.removeRow i)
  | none => (none, t)

end JobTable

/-- A call that may change the job table. -/
inductive JobCall
  /-- `job_add(pid)`. -/
  | add (pid : Int)
  /-- `job_remove_by_id(id)`. -/
  | removeById (id : Nat)
  /-- `job_set_running(id, running)`. -/
  | setRunning (id : Nat) (running : Bool)
  /-- A pid that `job_reap` is told. -/
  | reap (pid : Int)
deriving DecidableEq, Repr

/-- What a call answers. -/
inductive JobAnswer
  /-- The id that `job_add` gives out, or 0. -/
  | added (id : Nat)
  /-- Whether there was a job with the id. -/
  | found (ok : Bool)
  /-- The job that `job_reap` prints. -/
  | reaped (job : Option Job)
deriving DecidableEq, Repr

/-- The id that an answer gives out. -/
def JobAnswer.newId : JobAnswer → Option Nat
  | .added id => if id = 0 then none else some id
  | .found _ => none
  | .reaped _ => none

/-- One call on the table, with its answer. -/
def JobTable.apply (t : JobTable) : JobCall → JobAnswer × JobTable
  | .add pid => (.added (t.jobAdd pid).1, (t.jobAdd pid).2)
  | .removeById id => (.found (t.jobRemoveById id).1, (t.jobRemoveById id).2)
  | .setRunning id running => (.found (t.jobSetRunning id running).1, (t.jobSetRunning id running).2)
  | .reap pid => (.reaped (t.reap pid).1, (t.reap pid).2)

/-- A run of calls: the answers, and the table behind them. -/
def JobTable.run (t : JobTable) (calls : List JobCall) : List JobAnswer × JobTable :=
  Runs.answers JobTable.apply t calls

namespace Jobs

/-- `job_set_running` on the list: the flag of the first entry with the id. -/
def setRunning (j : Jobs) (id : Nat) (running : Bool) : Bool × Jobs :=
  ((j.findById id).isSome,
    ⟨j.table.modify (j.table.findIdx (·.id = id)) fun job => { job with running := running },
      j.nextId, by
        rw [List.length_modify]
        exact j.length_le⟩)

/-- One call on the list, with its answer. -/
def apply (j : Jobs) : JobCall → JobAnswer × Jobs
  | .add pid => (.added (j.jobAdd pid).1, (j.jobAdd pid).2)
  | .removeById id => (.found (j.removeById id).1, (j.removeById id).2)
  | .setRunning id running => (.found (j.setRunning id running).1, (j.setRunning id running).2)
  | .reap pid => (.reaped (j.remove pid).1, (j.remove pid).2)

/-- A run of calls on the list. -/
def run (j : Jobs) (calls : List JobCall) : List JobAnswer × Jobs := Runs.answers Jobs.apply j calls

end Jobs

end OnyxShell
