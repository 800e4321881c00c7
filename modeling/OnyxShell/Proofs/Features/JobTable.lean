import Mathlib.Data.List.Nodup
import OnyxShell.Features.JobTable

/-!
# `OnyxShell.Proofs.Features.JobTable`: the arrays and the list of jobs

`toJobs` forgets what is behind the live rows. Every call does to the arrays what it does to
the list (`toJobs_apply`), and so does every run.

`Jobs.Ordered` is the invariant of the list: the ids are positive and increase along it, up to
the next one. `Jobs.run_ordered` has what a run gives out: consecutive ids, as long as the
`usize` does not wrap.
-/

set_option autoImplicit false

namespace OnyxShell

namespace JobTable

variable {t : JobTable} {p : Job → Bool} {i : Fin JOB_MAX}

/-- There are as many live rows as the counter says. -/
theorem length_live (t : JobTable) : t.live.length = t.count := rows.length_live t.count_le

/-- The live rows as the list of jobs. -/
def toJobs (t : JobTable) : Jobs := ⟨t.live, t.nextId, by rw [length_live]; exact t.count_le⟩

/-- The index that a search finds is the row that `find?` finds in the list of live rows. -/
theorem map_row_find (t : JobTable) (p : Job → Bool) : (t.find p).map t.row = t.live.find? p :=
  rows.map_row_findFrom t.count_le p t

/-- A search of the rows succeeds if and only if one of the list does. -/
theorem isSome_find (t : JobTable) (p : Job → Bool) :
    (t.find p).isSome = (t.live.find? p).isSome := by
  rw [← map_row_find, Option.isSome_map]

/-- Looking a job up by its number, in the rows and in the list. -/
theorem jobFindById_eq (t : JobTable) (id : Nat) : t.jobFindById id = t.toJobs.findById id :=
  map_row_find t _

/-- The row at an index is the entry of the list there, and none beyond the counter. -/
theorem jobGetByIndex_eq (t : JobTable) (idx : Nat) : t.jobGetByIndex idx = t.live[idx]? := by
  rw [jobGetByIndex]
  split
  next h => exact (rows.getElem?_live_none t.count_le h).symm
  next h => exact (rows.getElem?_live t.count_le (Nat.lt_of_not_le h)).symm

/-! ### The calls -/

/-- A new job is the last of the list. -/
theorem live_append (h : t.count < JOB_MAX) (pid : Int) :
    (t.append h pid).live = t.live ++ [⟨t.nextId, pid, true⟩] := by
  have hold : ∀ k : Fin JOB_MAX, k.val < t.count → (t.append h pid).row k = t.row k := by
    intro k hk
    have hne : t.count ≠ k.val := Nat.ne_of_gt hk
    simp [row, append, hne]
  have hnew : (t.append h pid).row ⟨t.count, h⟩ = ⟨t.nextId, pid, true⟩ := by
    simp [row, append]
  rw [← hnew]
  exact rows.live_append h hold

/-- Moving the rows behind it down by one takes the job out of the list. -/
theorem live_removeRow (h : t.find p = some i) : (t.removeRow i).live = t.live.eraseP p :=
  rows.live_shift_of_findFrom t.count_le h (Nat.le_trans (Nat.sub_le _ _) t.count_le)

/-- Where the search finds nothing, there is nothing to take out. -/
theorem live_of_find_none (h : t.find p = none) : t.live.eraseP p = t.live :=
  rows.eraseP_live_of_findFrom t.count_le h

/-- Removing a job gives its number back to nobody. -/
theorem nextId_removeRow (t : JobTable) (i : Nat) : (t.removeRow i).nextId = t.nextId :=
  rows.shift_frame t.count_le JobTable.nextId (fun _ _ _ => rfl) t i

/-- Marking a row changes one entry of the list. -/
theorem live_setRunning (h : t.find p = some i) (running : Bool) :
    (t.setRunning i running).live
      = t.live.modify (t.live.findIdx p) fun job => { job with running := running } := by
  apply rows.live_modify_of_findFrom t.count_le h
  intro k
  by_cases hk : k = i
  · subst hk
    rw [if_pos rfl]
    simp [rows, row, setRunning]
  · have hne : i.val ≠ k.val := fun heq => hk (Fin.ext heq.symm)
    rw [if_neg hk]
    simp [rows, row, setRunning, hne]

end JobTable

/-- A job list is its entries and the next number. -/
theorem Jobs.eq_of_table {j j' : Jobs} (htable : j.table = j'.table) (hnext : j.nextId = j'.nextId) :
    j = j' := by
  cases j
  cases j'
  cases htable
  cases hnext
  rfl

namespace JobTable

/-- `job_add` on the rows is `jobAdd` on the list, with the same result. This and the lemmas below
are the steps of the refinement. -/
theorem toJobs_jobAdd (t : JobTable) (pid : Int) :
    ((t.jobAdd pid).1, (t.jobAdd pid).2.toJobs) = t.toJobs.jobAdd pid := by
  have hlen : t.toJobs.table.length = t.count := length_live t
  rw [jobAdd, Jobs.jobAdd]
  by_cases hfull : t.count ≥ JOB_MAX
  · rw [dif_pos hfull, dif_neg (by rw [hlen]; exact Nat.not_lt.mpr hfull)]
  · rw [dif_neg hfull, dif_pos (by rw [hlen]; exact Nat.lt_of_not_le hfull)]
    exact Prod.ext rfl (Jobs.eq_of_table (live_append (Nat.lt_of_not_le hfull) pid) rfl)

/-- `job_remove_by_id`, likewise. -/
theorem toJobs_jobRemoveById (t : JobTable) (id : Nat) :
    ((t.jobRemoveById id).1, (t.jobRemoveById id).2.toJobs) = t.toJobs.removeById id := by
  have hsome := isSome_find t (·.id = id)
  rw [Jobs.removeById, jobRemoveById]
  cases hfind : t.find (·.id = id) with
  | none =>
    rw [hfind] at hsome
    exact Prod.ext hsome (Jobs.eq_of_table (live_of_find_none hfind).symm rfl)
  | some i =>
    rw [hfind] at hsome
    exact Prod.ext hsome (Jobs.eq_of_table (live_removeRow hfind) (nextId_removeRow t i))

/-- `job_set_running`, likewise. -/
theorem toJobs_jobSetRunning (t : JobTable) (id : Nat) (running : Bool) :
    ((t.jobSetRunning id running).1, (t.jobSetRunning id running).2.toJobs)
      = t.toJobs.setRunning id running := by
  have hsome := isSome_find t (·.id = id)
  rw [Jobs.setRunning, jobSetRunning]
  cases hfind : t.find (·.id = id) with
  | none =>
    rw [hfind] at hsome
    have hsame := rows.modify_live_of_findFrom t.count_le hfind
      fun job => { job with running := running }
    exact Prod.ext hsome (Jobs.eq_of_table hsame.symm rfl)
  | some i =>
    rw [hfind] at hsome
    exact Prod.ext hsome (Jobs.eq_of_table (live_setRunning hfind running) rfl)

/-- One turn of `job_reap`, likewise. -/
theorem toJobs_reap (t : JobTable) (pid : Int) :
    ((t.reap pid).1, (t.reap pid).2.toJobs) = t.toJobs.remove pid := by
  have hrow := map_row_find t (·.pid = pid)
  rw [Jobs.remove, reap]
  cases hfind : t.find (·.pid = pid) with
  | none =>
    rw [hfind] at hrow
    exact Prod.ext hrow (Jobs.eq_of_table (live_of_find_none hfind).symm rfl)
  | some i =>
    rw [hfind] at hrow
    exact Prod.ext hrow (Jobs.eq_of_table (live_removeRow hfind) (nextId_removeRow t i))

/-- **A call does to the arrays what it does to the list**, with the same answer. -/
theorem toJobs_apply (t : JobTable) (call : JobCall) :
    ((t.apply call).1, (t.apply call).2.toJobs) = t.toJobs.apply call := by
  cases call with
  | add pid => exact congrArg (Prod.map JobAnswer.added id) (toJobs_jobAdd t pid)
  | removeById n => exact congrArg (Prod.map JobAnswer.found id) (toJobs_jobRemoveById t n)
  | setRunning n running =>
    exact congrArg (Prod.map JobAnswer.found id) (toJobs_jobSetRunning t n running)
  | reap pid => exact congrArg (Prod.map JobAnswer.reaped id) (toJobs_reap t pid)

/-- All calls of a run, by induction on them. -/
theorem toJobs_run (t : JobTable) (calls : List JobCall) :
    ((t.run calls).1, (t.run calls).2.toJobs) = t.toJobs.run calls :=
  Runs.answers_refine toJobs toJobs_apply t calls

/-- The table that the shell starts with is the empty list. -/
theorem toJobs_empty : empty.toJobs = Jobs.init := rfl

end JobTable

/-! ### The ids -/

namespace Jobs

variable {j : Jobs}

/-- The ids along the table. -/
def ids (j : Jobs) : List Nat := j.table.map Job.id

/-- The ids are positive and increase along the table, up to the next one. It is the invariant of
the list, kept by every call as long as the next id does not wrap. -/
def Ordered (j : Jobs) : Prop := (0 :: (j.ids ++ [j.nextId])).Pairwise (· < ·)

/-- The empty list is in order. -/
theorem ordered_init : init.Ordered := by
  show [0, 1].Pairwise (· < ·)
  decide

namespace Ordered

/-- Numbers are given out from 1. -/
theorem nextId_pos (h : j.Ordered) : 0 < j.nextId :=
  List.rel_of_pairwise_cons h (List.mem_append_right _ List.mem_cons_self)

/-- Every job has a number that has been given out. -/
theorem id_pos (h : j.Ordered) {job : Job} (hjob : job ∈ j.table) : 1 ≤ job.id :=
  List.rel_of_pairwise_cons h (List.mem_append_left _ (List.mem_map_of_mem hjob))

/-- The numbers of the jobs increase along the list. -/
theorem sorted (h : j.Ordered) : j.ids.Pairwise (· < ·) :=
  (List.pairwise_append.mp (List.pairwise_cons.mp h).2).1

/-- Entries can leave the table. -/
theorem of_sublist {j' : Jobs} (h : j.Ordered) (hids : j'.ids.Sublist j.ids)
    (hnext : j'.nextId = j.nextId) : j'.Ordered := by
  rw [Ordered, hnext]
  exact h.sublist ((hids.append_right _).cons_cons 0)

/-- A new entry takes the next id. -/
theorem append {j' : Jobs} (h : j.Ordered) (hids : j'.ids = j.ids ++ [j.nextId])
    (hnext : j'.nextId = j.nextId + 1) : j'.Ordered := by
  rw [Ordered, hids, hnext, ← List.cons_append, List.pairwise_append]
  refine ⟨h, List.pairwise_singleton _ _, ?_⟩
  intro a ha b hb
  rw [List.mem_singleton.mp hb]
  -- An id is the next one, or one of those below it.
  rw [← List.cons_append] at ha
  rw [Ordered, ← List.cons_append] at h
  rcases List.mem_append.mp ha with hold | hlast
  · have hlt := (List.pairwise_append.mp h).2.2 a hold j.nextId List.mem_cons_self
    omega
  · rw [List.mem_singleton.mp hlast]
    exact Nat.lt_succ_self _

/-- An id leads to one job only. -/
theorem findById_eq_some_iff (h : j.Ordered) {n : Nat} {job : Job} :
    j.findById n = some job ↔ job ∈ j.table ∧ job.id = n := by
  constructor
  · intro hfind
    exact ⟨List.mem_of_find?_eq_some hfind, by simpa using List.find?_some hfind⟩
  · intro hjob
    cases hfind : j.findById n with
    | none =>
      have hnone := List.find?_eq_none.mp hfind job hjob.1
      exact absurd (decide_eq_true hjob.2) hnone
    | some first =>
      have hmem : first ∈ j.table := List.mem_of_find?_eq_some hfind
      have hid : first.id = n := by simpa using List.find?_some hfind
      have hnodup : j.ids.Nodup := h.sorted.imp Nat.ne_of_lt
      rw [List.inj_on_of_nodup_map hnodup hmem hjob.1 (hid.trans hjob.2.symm)]

end Ordered

/-- What a call gives out, and what it leaves. -/
structure Gives (j : Jobs) (r : JobAnswer × Jobs) : Prop where
  ordered : r.2.Ordered
  /-- No id, or the next one. -/
  next : (r.1.newId = none ∧ r.2.nextId = j.nextId) ∨
    (r.1.newId = some j.nextId ∧ r.2.nextId = j.nextId + 1)

/-- Marking a job does not change the numbers. -/
theorem ids_modify (l : List Job) (i : Nat) (running : Bool) :
    (l.modify i fun job => { job with running := running }).map Job.id = l.map Job.id := by
  apply List.ext_getElem?
  intro m
  rw [List.getElem?_map, List.getElem?_modify, List.getElem?_map]
  cases l[m]? with
  | none => rfl
  | some job =>
    show some (if i = m then { job with running := running } else job : Job).id = some job.id
    split
    · rfl
    · rfl

/-- **One call.** -/
theorem gives_apply (h : j.Ordered) (hnext : j.nextId + 1 < USIZE) (call : JobCall) :
    Gives j (j.apply call) := by
  cases call with
  | add pid =>
    -- A full table answers 0, which is no id.
    rw [apply, jobAdd]
    split
    next hroom =>
      refine ⟨h.append ?_ (Nat.mod_eq_of_lt hnext), Or.inr ⟨?_, Nat.mod_eq_of_lt hnext⟩⟩
      · exact List.map_append
      · exact if_neg (Nat.ne_of_gt h.nextId_pos)
    next hfull => exact ⟨h, Or.inl ⟨rfl, rfl⟩⟩
  | removeById n => exact ⟨h.of_sublist (List.eraseP_sublist.map _) rfl, Or.inl ⟨rfl, rfl⟩⟩
  | setRunning n running =>
    refine ⟨h.of_sublist ?_ rfl, Or.inl ⟨rfl, rfl⟩⟩
    rw [ids, ids]
    exact (ids_modify _ _ _).symm ▸ List.Sublist.refl _
  | reap pid => exact ⟨h.of_sublist (List.eraseP_sublist.map _) rfl, Or.inl ⟨rfl, rfl⟩⟩

/-- **A run gives out consecutive ids**, from the next one on. -/
theorem run_ordered (h : j.Ordered) {calls : List JobCall} (hnext : j.nextId + calls.length < USIZE) :
    (j.run calls).2.Ordered ∧
      ∃ k, (j.run calls).1.filterMap JobAnswer.newId = List.range' j.nextId k := by
  induction calls generalizing j with
  | nil => exact ⟨h, 0, rfl⟩
  | cons call calls ih =>
    rw [List.length_cons] at hnext
    -- A call raises the next id by one at most, so the rest of the run has the bound it needs.
    have hcall := gives_apply h (by omega) call
    have hrun : (j.run (call :: calls)).1 = (j.apply call).1 :: ((j.apply call).2.run calls).1 := rfl
    rcases hcall.next with ⟨hid, hsame⟩ | ⟨hid, hsucc⟩
    · rcases ih hcall.ordered (by omega) with ⟨hordered, k, hgiven⟩
      refine ⟨hordered, k, ?_⟩
      rw [hrun, List.filterMap_cons_none hid, hgiven, hsame]
    · rcases ih hcall.ordered (by omega) with ⟨hordered, k, hgiven⟩
      refine ⟨hordered, k + 1, ?_⟩
      rw [hrun, List.filterMap_cons_some hid, hgiven, hsucc]
      rfl

end Jobs

/-- **The job table is the list of jobs**, in every run that is too short for the ids to wrap: the
same answers and the same entries, in the same order. The ids are positive, increase along the
table and are given out once, and an id finds its own job and no other. The table is three
parallel arrays with a counter, and each call on them is a call on the list (`toJobs_run`). What
is said of the ids is then said of the list, where it is the invariant `Ordered`. -/
theorem job_table_refines_list (calls : List JobCall) (hlen : calls.length < 2 ^ 63) :
    (JobTable.empty.run calls).1 = (Jobs.init.run calls).1 ∧
    (JobTable.empty.run calls).2.live = (Jobs.init.run calls).2.table ∧
    (∀ job ∈ (JobTable.empty.run calls).2.live, 1 ≤ job.id) ∧
    ((JobTable.empty.run calls).2.live.map Job.id).Pairwise (· < ·) ∧
    ((JobTable.empty.run calls).1.filterMap JobAnswer.newId).Pairwise (· < ·) ∧
    ∀ n job, (JobTable.empty.run calls).2.jobFindById n = some job ↔
      job ∈ (JobTable.empty.run calls).2.live ∧ job.id = n := by
  have hrun := JobTable.toJobs_run JobTable.empty calls
  rw [JobTable.toJobs_empty] at hrun
  have hanswers : (JobTable.empty.run calls).1 = (Jobs.init.run calls).1 := congrArg Prod.fst hrun
  have hjobs : (JobTable.empty.run calls).2.toJobs = (Jobs.init.run calls).2 :=
    congrArg Prod.snd hrun
  have hlive : (JobTable.empty.run calls).2.live = (Jobs.init.run calls).2.table :=
    congrArg Jobs.table hjobs
  -- The one place where the number of calls matters: the next id does not wrap.
  have hnext : Jobs.init.nextId + calls.length < USIZE := by
    show 1 + calls.length < 2 ^ 64
    omega
  rcases Jobs.run_ordered Jobs.ordered_init hnext with ⟨hordered, k, hgiven⟩
  refine ⟨hanswers, hlive, ?_, ?_, ?_, ?_⟩
  · intro job hjob
    rw [hlive] at hjob
    exact hordered.id_pos hjob
  · rw [hlive]
    exact hordered.sorted
  · rw [hanswers, hgiven]
    exact List.pairwise_lt_range'
  · intro n job
    rw [JobTable.jobFindById_eq, hjobs, hlive]
    exact hordered.findById_eq_some_iff

/-- A run with every kind of call, one of them on a job that has been removed before. -/
theorem job_table_refines_list_run :
    (JobTable.empty.run
      [.add 7, .add 8, .add 9, .setRunning 3 false, .removeById 1, .reap 8, .add 8]).2.live
        = [⟨3, 9, false⟩, ⟨4, 8, true⟩] ∧
    (JobTable.empty.run
      [.add 7, .add 8, .add 9, .setRunning 3 false, .removeById 1, .reap 8, .add 8]).2.jobFindById 4
        = some ⟨4, 8, true⟩ := by
  have hrefines := job_table_refines_list
    [.add 7, .add 8, .add 9, .setRunning 3 false, .removeById 1, .reap 8, .add 8] (by decide)
  have hlive := hrefines.2.1
  refine ⟨hlive.trans (by decide), ?_⟩
  exact (hrefines.2.2.2.2.2 4 ⟨4, 8, true⟩).mpr ⟨by rw [hlive]; decide, rfl⟩

end OnyxShell
