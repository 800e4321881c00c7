import Mathlib.Data.List.Nodup
import OnyxShell.Features.Jobs

/-!
# `OnyxShell.Proofs.Features.Jobs`: what leaves the job table

The two loops that take an entry out take the first one that they find. When the pids of the
table are distinct, no other entry has its pid. So `job_reap` leaves the entries whose pids
were not reaped (`mem_foldl_remove`), and `job_remove_by_id` those with another pid than the
entry that `job_find_by_id` gives (`mem_removeById`).
-/

set_option autoImplicit false

namespace OnyxShell

namespace Jobs

variable {j : Jobs} {job other : Job}

/-- The pids of the entries. -/
def pids (j : Jobs) : List Int := j.table.map Job.pid

/-- An entry that is left has another pid than the first one that is found. -/
theorem pid_ne_of_mem_eraseP {table : List Job} {p : Job → Bool}
    (hnodup : (table.map Job.pid).Nodup) (hfind : table.find? p = some job)
    (h : other ∈ table.eraseP p) : other.pid ≠ job.pid := by
  rcases List.find?_eq_some_iff_append.mp hfind with ⟨hp, front, back, rfl, hfront⟩
  have hskip : ∀ e ∈ front, ¬ p e = true := by
    intro e he hpe
    simpa [hpe] using hfront e he
  rw [List.eraseP_append_right _ hskip, List.eraseP_cons_of_pos hp] at h
  rw [List.map_append, List.map_cons] at hnodup
  have hnotMem : job.pid ∉ front.map Job.pid ++ back.map Job.pid :=
    (List.nodup_cons.mp (List.nodup_middle.mp hnodup)).1
  rw [← List.map_append] at hnotMem
  intro heq
  exact hnotMem (heq ▸ List.mem_map_of_mem h)

/-- Removing jobs keeps the process ids distinct. -/
theorem nodup_pids_of_sublist {j' : Jobs} (h : j'.table.Sublist j.table) (hnodup : j.pids.Nodup) :
    j'.pids.Nodup := (h.map Job.pid).nodup hnodup

/-- One child reaped. -/
theorem mem_remove {pid : Int} (hnodup : j.pids.Nodup) (h : job ∈ (j.remove pid).2.table) :
    job ∈ j.table ∧ job.pid ≠ pid := by
  have hmem : job ∈ j.table := List.mem_of_mem_eraseP h
  refine ⟨hmem, ?_⟩
  cases hfind : j.table.find? (·.pid = pid) with
  | none =>
    have := List.find?_eq_none.mp hfind job hmem
    simpa using this
  | some first =>
    have hfirst : first.pid = pid := by simpa using List.find?_some hfind
    have hne := pid_ne_of_mem_eraseP hnodup hfind h
    rw [hfirst] at hne
    exact hne

/-- Reaping only removes, by induction on the processes that have ended. -/
theorem foldl_remove_sublist (reaped : List Nat) (j : Jobs) :
    (reaped.foldl (fun jobs (pid : Nat) => (jobs.remove pid).2) j).table.Sublist j.table := by
  induction reaped generalizing j with
  | nil => exact List.Sublist.refl _
  | cons pid reaped ih =>
    rw [List.foldl_cons]
    exact (ih _).trans List.eraseP_sublist

/-- Children reaped one after the other. -/
theorem mem_foldl_remove {reaped : List Nat} (hnodup : j.pids.Nodup)
    (h : job ∈ (reaped.foldl (fun jobs (pid : Nat) => (jobs.remove pid).2) j).table) :
    job ∈ j.table ∧ ∀ pid ∈ reaped, job.pid ≠ pid := by
  induction reaped generalizing j with
  | nil => exact ⟨h, fun pid hpid => absurd hpid List.not_mem_nil⟩
  | cons pid reaped ih =>
    rw [List.foldl_cons] at h
    have hrest := ih (nodup_pids_of_sublist List.eraseP_sublist hnodup) h
    have hone := mem_remove hnodup hrest.1
    refine ⟨hone.1, ?_⟩
    intro pid' hpid'
    rcases List.mem_cons.mp hpid' with rfl | hpid'
    · exact hone.2
    · exact hrest.2 pid' hpid'

/-- The entry that `fg` has waited for is the one it takes out. -/
theorem mem_removeById {id : Nat} (hnodup : j.pids.Nodup) (hfind : j.findById id = some job)
    (h : other ∈ (j.removeById id).2.table) : other ∈ j.table ∧ other.pid ≠ job.pid :=
  ⟨List.mem_of_mem_eraseP h, pid_ne_of_mem_eraseP hnodup hfind h⟩

/-- A new entry stands behind the old ones, if there is room. -/
theorem table_jobAdd (j : Jobs) (pid : Int) :
    (j.jobAdd pid).2.table = j.table ∨
      ∃ job : Job, job.pid = pid ∧ (j.jobAdd pid).2.table = j.table ++ [job] := by
  rw [jobAdd]
  split
  · exact Or.inr ⟨_, rfl, rfl⟩
  · exact Or.inl rfl

end Jobs

end OnyxShell
