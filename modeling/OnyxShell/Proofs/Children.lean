import OnyxShell.Family
import OnyxShell.Proofs.Features.Jobs
import OnyxShell.Proofs.Pipeline.Children

/-!
# `OnyxShell.Proofs.Children`: the job table among the children

`Orderly` says what holds between two calls of the shell: pids are not reused, a child that
runs has not been collected, and the pids of the job table are distinct. `Tracked` says that
every pid in the table is that of a child that has not been collected.

The moves of the shell process, a reaping and the end of a child keep both
(`Orderly.moves`, `Orderly.tracked_moves`, `Orderly.tracked_reap`, `Tracked.exits`). A child
collected behind the back of the table breaks `Tracked` exactly when it is a job
(`Orderly.tracked_collect_iff`).
-/

set_option autoImplicit false

namespace OnyxShell

open Children (Moves)

/-! ### Pids as numbers -/

/-- A process id below the bound is the same as an `i32`. -/
theorem toI32_of_lt {n : Nat} (h : n < Family.PID_BOUND) : toI32 n = n := by
  have hdouble : 2 ^ 32 = 2 * Family.PID_BOUND := rfl
  unfold toI32
  rw [hdouble]
  exact Int.bmod_eq_of_le_mul_two (by omega) (by omega)

/-- And it is the same as the 64-bit argument of a call. -/
theorem asU64_of_lt {n : Nat} (h : n < Family.PID_BOUND) : asU64 n = n := by
  have hlt : n < USIZE := Nat.lt_trans h (by decide +kernel)
  show ((n : Int) % (USIZE : Nat)).toNat = n
  rw [← Int.natCast_emod, Nat.mod_eq_of_lt hlt]
  rfl

/-! ### What holds between the calls -/

/-- The running children when the shell has come from `c` to `c'`. -/
def settle (running : List Nat) (c c' : Children) : List Nat :=
  (running ++ List.range' (c.lastPid + 1) (c'.lastPid - c.lastPid)).filter (· ∉ c'.waited)

/-- Pids count up and are not reused, a child is in one place, and the pids of the job table
are distinct. -/
structure Orderly (running : List Nat) (c : Children) : Prop where
  nodup_running : running.Nodup
  nodup_ended : c.ended.Nodup
  disjoint : ∀ pid ∈ c.ended, pid ∉ running
  running_le : ∀ pid ∈ running, pid ≤ c.lastPid
  ended_le : ∀ pid ∈ c.ended, pid ≤ c.lastPid
  waited_le : ∀ pid ∈ c.waited, pid ≤ c.lastPid
  not_waited : ∀ pid ∈ running, pid ∉ c.waited
  nodup_pids : c.jobs.pids.Nodup
  table_le : ∀ job ∈ c.jobs.table, ∃ pid : Nat, pid ≤ c.lastPid ∧ job.pid = pid
  lt : c.lastPid < Family.PID_BOUND

/-- Every pid in the job table is that of a child that has not been collected. It is what `jobs`
and `fg` rely on: a pid that is waited for is that of a child which is still there. -/
def Tracked (running : List Nat) (c : Children) : Prop :=
  ∀ job ∈ c.jobs.table, ∃ pid : Nat, (pid ∈ running ∨ pid ∈ c.ended) ∧ job.pid = pid

section Moves

variable {running : List Nat} {c c' : Children}

/-- The running children behind a step are those from before and those that were started, without
the ones that have been waited for. -/
theorem mem_settle {pid : Nat} : pid ∈ settle running c c' ↔
    (pid ∈ running ∨ c.lastPid < pid ∧ pid ≤ c'.lastPid) ∧ pid ∉ c'.waited := by
  rw [settle, List.mem_filter, List.mem_append, List.mem_range'_1, decide_eq_true_eq]
  constructor
  · rintro ⟨h, hwaited⟩
    exact ⟨h.imp_right (by omega), hwaited⟩
  · rintro ⟨h, hwaited⟩
    exact ⟨h.imp_right (by omega), hwaited⟩

/-- Waiting only takes from the children that have ended. -/
theorem foldl_erase_sublist (pids : List Nat) (ended : List Nat) :
    (pids.foldl List.erase ended).Sublist ended := by
  induction pids generalizing ended with
  | nil => exact List.Sublist.refl _
  | cons pid pids ih => exact (ih _).trans List.erase_sublist

/-- Waiting for others leaves a child that has ended in its place. -/
theorem mem_foldl_erase {pids ended : List Nat} {pid : Nat} (h : pid ∈ ended) (hnew : pid ∉ pids) :
    pid ∈ pids.foldl List.erase ended := by
  induction pids generalizing ended with
  | nil => exact h
  | cons first pids ih =>
    have hne : pid ≠ first := fun heq => hnew (heq ▸ List.mem_cons_self)
    exact ih ((List.mem_erase_of_ne hne).mpr h) fun hmem => hnew (List.mem_cons_of_mem _ hmem)

/-- The pids count up. -/
theorem Children.Moves.le (h : Moves c c') : c.lastPid ≤ c'.lastPid := by
  cases h with
  | forks n pids le => exact le
  | background n lt => exact Nat.le_of_lt lt
  | foreground => exact Nat.le_refl _

/-- A call can collect children that had ended, and ends none. -/
theorem Children.Moves.ended_sublist (h : Moves c c') : c'.ended.Sublist c.ended := by
  cases h with
  | forks n pids => exact foldl_erase_sublist pids c.ended
  | background => exact List.Sublist.refl _
  | foreground job => exact foldl_erase_sublist [asU64 job.pid] c.ended

/-- A child that has been waited for is a new one, or the one of a job. -/
theorem Orderly.waited_le_of_moves (h : Orderly running c) (hmove : Moves c c') :
    ∀ pid ∈ c'.waited, pid ≤ c'.lastPid := by
  intro pid hpid
  have hold := h.waited_le pid
  cases hmove with
  | forks n pids le new =>
    rcases List.mem_append.mp hpid with hpid | hpid
    · exact Nat.le_trans (hold hpid) le
    · exact (new pid hpid).2
  | background n lt => exact Nat.le_trans (hold hpid) (Nat.le_of_lt lt)
  | foreground job found =>
    rcases List.mem_append.mp hpid with hpid | hpid
    · exact hold hpid
    · rcases h.table_le job (List.mem_of_find?_eq_some found) with ⟨q, hle, hq⟩
      rw [List.mem_singleton.mp hpid, hq, asU64_of_lt (Nat.lt_of_le_of_lt hle h.lt)]
      exact hle

/-- The pids of the table are old ones, or the table has got one more, the last one made. -/
theorem Children.Moves.table_cases (hmove : Moves c c') (hlt : c'.lastPid < Family.PID_BOUND) :
    c'.jobs.table.Sublist c.jobs.table ∨
      c.lastPid < c'.lastPid ∧ ∃ job : Job, job.pid = (c'.lastPid : Int) ∧
        c'.jobs.table = c.jobs.table ++ [job] := by
  cases hmove with
  | forks => exact Or.inl (List.Sublist.refl _)
  | background n lt =>
    have hpid : toI32 n = n := toI32_of_lt hlt
    rcases Jobs.table_jobAdd c.jobs (toI32 n) with h | ⟨job, hjob, h⟩
    · left
      show (c.jobs.jobAdd (toI32 n)).2.table.Sublist c.jobs.table
      rw [h]
    · exact Or.inr ⟨lt, job, hjob.trans hpid, h⟩
  | foreground job => exact Or.inl List.eraseP_sublist

/-- No child runs twice: the ids that were given out are new. -/
theorem Orderly.nodup_settle (h : Orderly running c) : (settle running c c').Nodup := by
  refine List.Nodup.filter _ (List.nodup_append.mpr ⟨h.nodup_running, List.nodup_range', ?_⟩)
  intro pid hpid pid' hpid' heq
  have := h.running_le pid hpid
  rw [List.mem_range'_1] at hpid'
  omega

/-- A call keeps the order. -/
theorem Orderly.moves (h : Orderly running c) (hmove : Moves c c')
    (hlt : c'.lastPid < Family.PID_BOUND) : Orderly (settle running c c') c' := by
  have hle := hmove.le
  have hsub := hmove.ended_sublist
  constructor
  case nodup_running => exact h.nodup_settle
  case nodup_ended => exact hsub.nodup h.nodup_ended
  case disjoint =>
    intro pid hpid hmem
    have hended := hsub.subset hpid
    rcases (mem_settle.mp hmem).1 with hrun | hnew
    · exact h.disjoint pid hended hrun
    · have := h.ended_le pid hended
      omega
  case running_le =>
    intro pid hmem
    rcases (mem_settle.mp hmem).1 with hrun | hnew
    · exact Nat.le_trans (h.running_le pid hrun) hle
    · exact hnew.2
  case ended_le =>
    intro pid hpid
    exact Nat.le_trans (h.ended_le pid (hsub.subset hpid)) hle
  case waited_le => exact h.waited_le_of_moves hmove
  case not_waited =>
    intro pid hmem
    exact (mem_settle.mp hmem).2
  case nodup_pids =>
    rcases hmove.table_cases hlt with hsublist | ⟨hnew, job, hjob, htable⟩
    · exact Jobs.nodup_pids_of_sublist hsublist h.nodup_pids
    · rw [Jobs.pids, htable, List.map_append, List.map_singleton, List.nodup_append]
      refine ⟨h.nodup_pids, List.nodup_singleton _, ?_⟩
      intro pid hpid pid' hpid' heq
      -- The pid of the new job is above all that were given out before.
      rcases List.mem_map.mp hpid with ⟨old, hold, rfl⟩
      rcases h.table_le old hold with ⟨q, hq, hpidq⟩
      rw [List.mem_singleton.mp hpid', hjob] at heq
      omega
  case table_le =>
    intro job hmem
    rcases hmove.table_cases hlt with hsublist | ⟨hnew, new, hjob, htable⟩
    · rcases h.table_le job (hsublist.subset hmem) with ⟨q, hq, hpid⟩
      exact ⟨q, Nat.le_trans hq hle, hpid⟩
    · rw [htable] at hmem
      rcases List.mem_append.mp hmem with hmem | hmem
      · rcases h.table_le job hmem with ⟨q, hq, hpid⟩
        exact ⟨q, Nat.le_trans hq hle, hpid⟩
      · rw [List.mem_singleton.mp hmem]
        exact ⟨_, Nat.le_refl _, hjob⟩
  case lt => exact hlt

/-- A child that no call has waited for is still a child. -/
theorem Orderly.mem_settle_of_running (h : Orderly running c) {pid : Nat} (hpid : pid ∈ running)
    (hwaited : pid ∈ c'.waited → pid ∈ c.waited) : pid ∈ settle running c c' :=
  mem_settle.mpr ⟨Or.inl hpid, fun hmem => h.not_waited pid hpid (hwaited hmem)⟩

/-- **A call leaves no pid in the table behind**: a job leaves it with its child. -/
theorem Orderly.tracked_moves (h : Orderly running c) (htracked : Tracked running c)
    (hmove : Moves c c') (hlt : c'.lastPid < Family.PID_BOUND) :
    Tracked (settle running c c') c' := by
  cases hmove with
  | forks n pids le new =>
    intro job hjob
    rcases htracked job hjob with ⟨pid, hchild, hpid⟩
    -- The calls wait for new children, and a job is an old one.
    have hold : pid ≤ c.lastPid := hchild.elim (h.running_le pid) (h.ended_le pid)
    have hnew : pid ∉ pids := by
      intro hmem
      have := (new pid hmem).1
      omega
    refine ⟨pid, ?_, hpid⟩
    rcases hchild with hrun | hended
    · left
      refine h.mem_settle_of_running hrun ?_
      intro hmem
      exact (List.mem_append.mp hmem).resolve_right hnew
    · exact Or.inr (mem_foldl_erase hended hnew)
  | background n lt =>
    have hpid : toI32 n = n := toI32_of_lt hlt
    have hsame : ∀ job ∈ c.jobs.table, ∃ pid : Nat,
        (pid ∈ settle running c ((c.upTo n).addJob n) ∨ pid ∈ c.ended) ∧ job.pid = pid := by
      intro job hjob
      rcases htracked job hjob with ⟨pid, hchild, hpid⟩
      exact ⟨pid, hchild.imp_left fun hrun => h.mem_settle_of_running hrun id, hpid⟩
    intro job hjob
    change job ∈ (c.jobs.jobAdd (toI32 n)).2.table at hjob
    rcases Jobs.table_jobAdd c.jobs (toI32 n) with htable | ⟨new, hnew, htable⟩
    · rw [htable] at hjob
      exact hsame job hjob
    · rw [htable] at hjob
      rcases List.mem_append.mp hjob with hjob | hjob
      · exact hsame job hjob
      · -- The new entry is that of the new child.
        rw [List.mem_singleton.mp hjob]
        refine ⟨n, Or.inl (mem_settle.mpr ⟨Or.inr ⟨lt, Nat.le_refl n⟩, ?_⟩), hnew.trans hpid⟩
        intro hmem
        have := h.waited_le n hmem
        omega
  | foreground first found =>
    rcases h.table_le first (List.mem_of_find?_eq_some found) with ⟨q, hle, hq⟩
    have hasU64 : asU64 first.pid = q := by
      rw [hq]
      exact asU64_of_lt (Nat.lt_of_le_of_lt hle h.lt)
    intro job hjob
    rcases Jobs.mem_removeById h.nodup_pids found hjob with ⟨hmem, hne⟩
    rcases htracked job hmem with ⟨pid, hchild, hpid⟩
    -- The pid that was waited for is that of the entry taken out.
    have hother : pid ≠ asU64 first.pid := by
      intro heq
      rw [hasU64] at heq
      exact hne (by rw [hpid, hq, heq])
    refine ⟨pid, ?_, hpid⟩
    rcases hchild with hrun | hended
    · left
      refine h.mem_settle_of_running hrun ?_
      intro hmem
      rcases List.mem_append.mp hmem with hmem | hmem
      · exact hmem
      · exact absurd (List.mem_singleton.mp hmem) hother
    · exact Or.inr ((List.mem_erase_of_ne hother).mpr hended)

/-- Reaping keeps the order, since it only removes. -/
theorem Orderly.reap (h : Orderly running c) : Orderly running c.reap := by
  have hsub := Jobs.foldl_remove_sublist c.ended c.jobs
  exact { h with
    nodup_ended := List.nodup_nil
    disjoint := fun pid hpid => absurd hpid List.not_mem_nil
    ended_le := fun pid hpid => absurd hpid List.not_mem_nil
    nodup_pids := Jobs.nodup_pids_of_sublist hsub h.nodup_pids
    table_le := fun job hjob => h.table_le job (hsub.subset hjob) }

/-- `job_reap` takes out the jobs whose children it collects. -/
theorem Orderly.tracked_reap (h : Orderly running c) (htracked : Tracked running c) :
    Tracked running c.reap := by
  intro job hjob
  rcases Jobs.mem_foldl_remove h.nodup_pids hjob with ⟨hmem, hreaped⟩
  rcases htracked job hmem with ⟨pid, hchild, hpid⟩
  rcases hchild with hrun | hended
  · exact ⟨pid, Or.inl hrun, hpid⟩
  · exact absurd hpid (hreaped pid hended)

/-- A child that ends moves from those that run to those that have ended. -/
theorem Orderly.exits (h : Orderly running c) {pid : Nat} (hpid : pid ∈ running) :
    Orderly (running.erase pid) { c with ended := c.ended ++ [pid] } := by
  have hsub : (running.erase pid).Sublist running := List.erase_sublist
  constructor
  case nodup_running => exact hsub.nodup h.nodup_running
  case nodup_ended =>
    refine List.nodup_append.mpr ⟨h.nodup_ended, List.nodup_singleton pid, ?_⟩
    intro pid' hpid' q hq heq
    rw [heq, List.mem_singleton.mp hq] at hpid'
    exact h.disjoint pid hpid' hpid
  case disjoint =>
    intro pid' hpid' hmem
    rcases List.mem_append.mp hpid' with hended | hended
    · exact h.disjoint pid' hended (hsub.subset hmem)
    · rw [List.mem_singleton.mp hended] at hmem
      exact List.Nodup.not_mem_erase h.nodup_running hmem
  case running_le => exact fun pid' hmem => h.running_le pid' (hsub.subset hmem)
  case ended_le =>
    intro pid' hpid'
    rcases List.mem_append.mp hpid' with hended | hended
    · exact h.ended_le pid' hended
    · rw [List.mem_singleton.mp hended]
      exact h.running_le pid hpid
  case waited_le => exact h.waited_le
  case not_waited => exact fun pid' hmem => h.not_waited pid' (hsub.subset hmem)
  case nodup_pids => exact h.nodup_pids
  case table_le => exact h.table_le
  case lt => exact h.lt

/-- A child that ends is still one that has not been collected. -/
theorem Tracked.exits (htracked : Tracked running c) (pid : Nat) :
    Tracked (running.erase pid) { c with ended := c.ended ++ [pid] } := by
  intro job hjob
  rcases htracked job hjob with ⟨pid', hchild, hpid'⟩
  refine ⟨pid', ?_, hpid'⟩
  rcases hchild with hrun | hended
  · by_cases heq : pid' = pid
    · right
      rw [heq]
      exact List.mem_append_right _ List.mem_cons_self
    · exact Or.inl ((List.mem_erase_of_ne heq).mpr hrun)
  · exact Or.inr (List.mem_append_left _ hended)

/-- Collecting a child that has ended keeps the order. -/
theorem Orderly.collect (h : Orderly running c) (pid : Nat) :
    Orderly running { c with ended := c.ended.erase pid } := by
  have hsub : (c.ended.erase pid).Sublist c.ended := List.erase_sublist
  exact { h with
    nodup_ended := hsub.nodup h.nodup_ended
    disjoint := fun pid' hpid' => h.disjoint pid' (hsub.subset hpid')
    ended_le := fun pid' hpid' => h.ended_le pid' (hsub.subset hpid') }

/-- A `wait` leaves the table right exactly when the child it collects is no job. -/
theorem Orderly.tracked_collect_iff (h : Orderly running c) (htracked : Tracked running c)
    {pid : Nat} (hpid : pid ∈ c.ended) :
    Tracked running { c with ended := c.ended.erase pid } ↔ ∀ job ∈ c.jobs.table, job.pid ≠ pid := by
  constructor
  · intro hafter job hjob heq
    rcases hafter job hjob with ⟨pid', hchild, hpid'⟩
    have hsame : pid' = pid := Int.ofNat_inj.mp (hpid'.symm.trans heq)
    rw [hsame] at hchild
    rcases hchild with hrun | hended
    · exact h.disjoint pid hpid hrun
    · exact List.Nodup.not_mem_erase h.nodup_ended hended
  · intro hspared job hjob
    rcases htracked job hjob with ⟨pid', hchild, hpid'⟩
    have hne : pid' ≠ pid := by
      intro heq
      exact hspared job hjob (by rw [hpid', heq])
    exact ⟨pid', hchild.imp_right (List.mem_erase_of_ne hne).mpr, hpid'⟩

end Moves

end OnyxShell
