import OnyxShell.Pipeline.Redirect
import OnyxShell.Proofs.Pipeline.Tidy

/-!
# `OnyxShell.Proofs.Pipeline.Redirect`: where a redirection only redirects

`onlyRedirects_iff`: an in-process builtin is run in the shell, and the descriptors of the
shell are not moved, so its files are bound only where `open` happens to put them. Every
other command gets its files, in a child that the shell does not learn anything from.

The two sides are compared in the shell's own state as well: a pipeline with a redirection may not
leave the shell in another state than the same one without.
-/

set_option autoImplicit false

namespace OnyxShell

variable {σ : Type} {answers : Answers} {line : Bytes} {p : Pipeline}

/-! ### The files -/

/-- The two targets are opened in different ways, so that they are different descriptions even if
the names are the same. -/
theorem Pipeline.outFile_ne_inFile : p.outFile line ≠ p.inFile line := by
  intro h
  have hflags : OUT_FLAGS = O_RDONLY := (Description.file.inj h).2
  exact absurd hflags (by decide)

/-- The output file is opened at the lowest free number. -/
theorem openStdout_pos {s : Shell σ} (hout : p.stdoutFile.2 > 0) (h : answers s.calls = none) :
    openStdout answers line p s = (.ok s.fds.lowestFree,
      { s with calls := s.calls + 1, fds := s.fds.alloc (p.outFile line) }) := by
  rw [openStdout, if_pos hout, Shell.sysOpen_ok h]
  rfl

/-- An input target that opens is at the lowest free descriptor. -/
theorem openStdin_pos {s : Shell σ} (hin : p.stdinFile.2 > 0) (h : answers s.calls = none) :
    openStdin answers line p s = (.ok s.fds.lowestFree,
      { s with calls := s.calls + 1, fds := s.fds.alloc (p.inFile line) }) := by
  rw [openStdin, if_pos hin, Shell.sysOpen_ok h]
  rfl

/-- The shell behind the redirections. -/
def Shell.redirected (line : Bytes) (p : Pipeline) (s : Shell σ) : Shell σ :=
  { s with
      calls := callLoop p s
      fds :=
        let fds := if p.stdoutFile.2 > 0 then s.fds.alloc (p.outFile line) else s.fds
        if p.stdinFile.2 > 0 then fds.alloc (p.inFile line) else fds }

/-- The descriptor of the output. -/
def Shell.outFd (p : Pipeline) (s : Shell σ) : Nat :=
  if p.stdoutFile.2 > 0 then s.fds.lowestFree else 1

/-- The descriptor of the input. -/
def Shell.inFd (line : Bytes) (p : Pipeline) (s : Shell σ) : Nat :=
  if p.stdinFile.2 > 0 then
    (if p.stdoutFile.2 > 0 then s.fds.alloc (p.outFile line) else s.fds).lowestFree
  else 0

/-- What the two `open` calls leave behind. -/
theorem openRedirects_eq (line : Bytes) {s : Shell σ} (h : OpensSucceed answers p s) :
    ∃ s₁, openStdout answers line p s = (.ok (s.outFd p), s₁) ∧
      openStdin answers line p s₁ = (.ok (s.inFd line p), s.redirected line p) := by
  rcases h with ⟨hout, hin⟩
  by_cases ho : p.stdoutFile.2 > 0
  · refine ⟨{ s with calls := s.calls + 1, fds := s.fds.alloc (p.outFile line) }, ?_, ?_⟩
    · rw [openStdout_pos ho (hout ho), Shell.outFd, if_pos ho]
    · by_cases hi : p.stdinFile.2 > 0
      · have hcall := hin hi
        rw [callIn, if_pos ho] at hcall
        rw [openStdin_pos hi hcall, Shell.inFd, Shell.redirected, callLoop, callIn]
        simp only [if_pos ho, if_pos hi]
      · rw [openStdin, if_neg hi, Shell.inFd, Shell.redirected, callLoop, callIn]
        simp only [if_pos ho, if_neg hi]
  · refine ⟨s, ?_, ?_⟩
    · rw [openStdout, if_neg ho, Shell.outFd, if_neg ho]
    · by_cases hi : p.stdinFile.2 > 0
      · have hcall := hin hi
        rw [callIn, if_neg ho] at hcall
        rw [openStdin_pos hi hcall, Shell.inFd, Shell.redirected, callLoop, callIn]
        simp only [if_neg ho, if_pos hi]
      · rw [openStdin, if_neg hi, Shell.inFd, Shell.redirected, callLoop, callIn]
        simp only [if_neg ho, if_neg hi]
        rfl

/-- Behind the redirections, a number stands for what was opened there last. -/
theorem get_redirected (s : Shell σ) (n : Nat) :
    (s.redirected line p).fds.get n =
      if p.stdinFile.2 > 0 ∧ n = s.inFd line p then some (p.inFile line)
      else if p.stdoutFile.2 > 0 ∧ n = s.outFd p then some (p.outFile line)
      else s.fds.get n := by
  simp only [Shell.redirected, Shell.inFd, Shell.outFd]
  by_cases ho : p.stdoutFile.2 > 0
  · by_cases hi : p.stdinFile.2 > 0
    · simp only [ho, hi, if_true, true_and, FdTable.get_alloc]
    · simp only [ho, hi, if_true, if_false, true_and, false_and, FdTable.get_alloc]
  · by_cases hi : p.stdinFile.2 > 0
    · simp only [ho, hi, if_true, if_false, true_and, false_and, FdTable.get_alloc]
    · simp only [ho, hi, if_false, false_and]

/-- The two descriptors differ when both files are opened, and the input is never below the
output. -/
theorem outFd_lt_inFd (line : Bytes) (s : Shell σ) (ho : p.stdoutFile.2 > 0) (hi : p.stdinFile.2 > 0) :
    s.outFd p < s.inFd line p := by
  rw [Shell.outFd, Shell.inFd, if_pos ho, if_pos hi, if_pos ho]
  exact FdTable.lowestFree_lt_alloc _ _

/-- The same as `outFile_ne_inFile`, for what a descriptor table holds. -/
theorem Pipeline.some_inFile_ne (line : Bytes) (p : Pipeline) :
    some (p.inFile line) ≠ some (p.outFile line) :=
  fun h => Pipeline.outFile_ne_inFile (Option.some.inj h).symm

/-- In the shell the output file is at 1 where it landed there, or stood there before. -/
theorem get_redirected_one (s : Shell σ) (ho : p.stdoutFile.2 > 0) :
    (s.redirected line p).fds.get 1 = some (p.outFile line) ↔
      s.fds.lowestFree = 1 ∨ s.fds.get 1 = some (p.outFile line) := by
  have hfd : s.outFd p = s.fds.lowestFree := if_pos ho
  rw [get_redirected, hfd]
  by_cases hin : p.stdinFile.2 > 0 ∧ 1 = s.inFd line p
  · -- The input file stands at 1, so 1 was free and not the lowest.
    have hlt := outFd_lt_inFd line s ho hin.1
    rw [hfd, ← hin.2] at hlt
    have hclosed : s.fds.get 1 = none := by
      have hnone := (s.fds.alloc (p.outFile line)).get_lowestFree
      have hone : (s.fds.alloc (p.outFile line)).lowestFree = 1 := by
        have h := hin.2
        rw [Shell.inFd, if_pos hin.1, if_pos ho] at h
        exact h.symm
      rwa [hone, FdTable.get_alloc, if_neg (by omega)] at hnone
    rw [if_pos hin, hclosed]
    apply iff_of_false (p.some_inFile_ne line)
    rintro (h | h)
    · omega
    · cases h
  · rw [if_neg hin]
    by_cases hout : 1 = s.fds.lowestFree
    · rw [if_pos ⟨ho, hout⟩]
      exact iff_of_true rfl (Or.inl hout.symm)
    · rw [if_neg fun h => hout h.2]
      exact ⟨Or.inr, fun h => h.resolve_left fun h1 => hout h1.symm⟩

/-- In the shell the input file is at 0 where it landed there, or stood there before. -/
theorem get_redirected_zero (s : Shell σ) (hi : p.stdinFile.2 > 0) :
    (s.redirected line p).fds.get 0 = some (p.inFile line) ↔
      p.stdoutFile.2 = 0 ∧ s.fds.lowestFree = 0 ∨ s.fds.get 0 = some (p.inFile line) := by
  rw [get_redirected]
  by_cases ho : p.stdoutFile.2 > 0
  · -- The output file was opened first, so the input file is not at 0.
    have hlt := outFd_lt_inFd line s ho hi
    have hfd : s.outFd p = s.fds.lowestFree := if_pos ho
    rw [if_neg fun h => by omega, hfd]
    have hnot : ¬ (p.stdoutFile.2 = 0 ∧ s.fds.lowestFree = 0) := fun h => by omega
    by_cases hout : 0 = s.fds.lowestFree
    · -- 0 was free, and it is the output file that stands there now.
      have hfree := s.fds.get_lowestFree
      rw [if_pos ⟨ho, hout⟩]
      rw [← hout] at hfree
      apply iff_of_false (Ne.symm (p.some_inFile_ne line))
      rintro (h | h)
      · exact hnot h
      · rw [hfree] at h
        cases h
    · rw [if_neg fun h => hout h.2]
      exact ⟨Or.inr, fun h => h.resolve_left hnot⟩
  · have hfd : s.inFd line p = s.fds.lowestFree := by
      rw [Shell.inFd, if_pos hi, if_neg ho]
    have hzero : p.stdoutFile.2 = 0 := Nat.eq_zero_of_not_pos ho
    rw [hfd]
    by_cases hin : 0 = s.fds.lowestFree
    · rw [if_pos ⟨hi, hin⟩]
      exact iff_of_true rfl (Or.inl ⟨hzero, hin.symm⟩)
    · rw [if_neg fun h => hin h.2, if_neg fun h => ho h.1]
      exact ⟨Or.inr, fun h => h.resolve_left fun h0 => hin h0.2.symm⟩

/-- **In the shell** the files are bound where they landed. -/
theorem bound_inprocess_iff (s : Shell σ) :
    ((p.stdoutFile.2 > 0 → (s.redirected line p).fds.get 1 = some (p.outFile line)) ∧
      (p.stdinFile.2 > 0 → (s.redirected line p).fds.get 0 = some (p.inFile line))) ↔
      Landed line p s :=
  and_congr (imp_congr_right (get_redirected_one s)) (imp_congr_right (get_redirected_zero s))

/-- A file at `w` is moved to 1 when 0 is open. -/
theorem get_childFds_one {t : FdTable Description} {w : Nat} {d : Description} (h0 : t.IsOpen 0)
    (hw : t.get w = some d) : (childFds t 0 w).get 1 = some d := by
  have hfirst : (if (0 : Nat) ≠ 0 then (t.close 0).dup 0 else t) = t := if_neg fun h => h rfl
  rw [childFds, hfirst]
  by_cases hw1 : w = 1
  · rw [if_neg fun h => h hw1, ← hw1, hw]
  · have hkeep : (t.close 1).get w = some d := by rw [FdTable.get_close, if_neg hw1, hw]
    have hopen : ∀ k, k < 1 → t.IsOpen k := by
      intro k hk
      rw [Nat.lt_one_iff.mp hk]
      exact h0
    rw [if_pos hw1, FdTable.dup_eq_alloc hkeep, FdTable.get_alloc_close d hopen, if_pos rfl]

/-- A file at `r` is moved to 0. -/
theorem get_childFds_zero {t : FdTable Description} {r : Nat} {d : Description}
    (hr : t.get r = some d) : (childFds t r 1).get 0 = some d := by
  rw [childFds, if_neg fun h => h rfl]
  by_cases hr0 : r = 0
  · rw [if_neg fun h => h hr0, ← hr0, hr]
  · have hkeep : (t.close 0).get r = some d := by rw [FdTable.get_close, if_neg hr0, hr]
    rw [if_pos hr0, FdTable.dup_eq_alloc hkeep, FdTable.get_alloc_close d (by omega), if_pos rfl]

/-- With the output at 0, the input takes its place before it is moved. -/
theorem get_childFds_lost {t : FdTable Description} {r : Nat} {d : Description} (hr0 : r ≠ 0)
    (hr : t.get r = some d) : (childFds t r 0).get 1 = some d := by
  have hkeep : (t.close 0).get r = some d := by rw [FdTable.get_close, if_neg hr0, hr]
  rw [childFds, if_pos hr0, FdTable.dup_eq_alloc hkeep, if_pos (by decide)]
  have hzero : ((t.close 0).alloc d).get 0 = some d := by
    rw [FdTable.get_alloc_close d (by omega), if_pos rfl]
  have hopen : ∀ k, k < 1 → ((t.close 0).alloc d).IsOpen k := by
    intro k hk
    rw [Nat.lt_one_iff.mp hk, FdTable.IsOpen, hzero]
    rfl
  have hkeep' : (((t.close 0).alloc d).close 1).get 0 = some d := by
    rw [FdTable.get_close, if_neg (by decide), hzero]
  rw [FdTable.dup_eq_alloc hkeep', FdTable.get_alloc_close d hopen, if_pos rfl]

/-- **In a child** the files are bound, unless both are opened and 0 was closed. -/
theorem bound_child_iff (line : Bytes) (p : Pipeline) (s : Shell σ) :
    ((p.stdoutFile.2 > 0 →
        (childFds (s.redirected line p).fds (s.inFd line p) (s.outFd p)).get 1
          = some (p.outFile line)) ∧
      (p.stdinFile.2 > 0 →
        (childFds (s.redirected line p).fds (s.inFd line p) (s.outFd p)).get 0
          = some (p.inFile line))) ↔
      (p.stdoutFile.2 > 0 → p.stdinFile.2 > 0 → s.fds.IsOpen 0) := by
  have hin : p.stdinFile.2 > 0 →
      (s.redirected line p).fds.get (s.inFd line p) = some (p.inFile line) := by
    intro hi
    rw [get_redirected, if_pos ⟨hi, rfl⟩]
  by_cases ho : p.stdoutFile.2 > 0
  · by_cases hi : p.stdinFile.2 > 0
    · have hlt := outFd_lt_inFd line s ho hi
      have hfd : s.outFd p = s.fds.lowestFree := if_pos ho
      have hout : (s.redirected line p).fds.get (s.outFd p) = some (p.outFile line) := by
        rw [get_redirected, if_neg fun h => by omega, if_pos ⟨ho, rfl⟩]
      -- On descriptor 0 the file for the output is lost to the one for the input.
      by_cases h0 : s.outFd p = 0
      · have hclosed : ¬ s.fds.IsOpen 0 := by
          rw [← h0, hfd]
          exact s.fds.not_isOpen_lowestFree
        apply iff_of_false
        · rintro ⟨hlost, -⟩
          rw [h0, get_childFds_lost (by omega) (hin hi)] at hlost
          exact Pipeline.outFile_ne_inFile (Option.some.inj (hlost ho)).symm
        · exact fun h => hclosed (h ho hi)
      · have hopen : s.fds.IsOpen 0 :=
          FdTable.isOpen_of_lt_lowestFree (by rw [← hfd]; exact Nat.pos_of_ne_zero h0)
        rw [childFds_get (hin hi) hout h0, childFds_get (hin hi) hout h0]
        exact iff_of_true ⟨fun _ => rfl, fun _ => rfl⟩ fun _ _ => hopen
    · have hfd : s.inFd line p = 0 := if_neg hi
      have hfds : (s.redirected line p).fds = s.fds.alloc (p.outFile line) := by
        simp only [Shell.redirected, ho, hi, if_true, if_false]
      have hout : (s.fds.alloc (p.outFile line)).get (s.outFd p) = some (p.outFile line) := by
        rw [FdTable.get_alloc, if_pos]
        exact if_pos ho
      rw [hfd, hfds, get_childFds_one (FdTable.isOpen_zero_alloc _ _) hout]
      exact iff_of_true ⟨fun _ => rfl, fun h => absurd h hi⟩ fun _ h => absurd h hi
  · apply iff_of_true
    · refine ⟨fun h => absurd h ho, fun hi => ?_⟩
      have hfd : s.outFd p = 1 := if_neg ho
      rw [hfd, get_childFds_zero (hin hi)]
    · exact fun h => absurd h ho

/-! ### The state of the shell -/

/-- The guarded `close` touches neither the world nor the jobs. `own` is these two together. -/
@[simp] theorem Shell.own_closeAboveTwo (s : Shell σ) (fd : Nat) :
    (s.closeAboveTwo fd).own = s.own := by
  rw [closeAboveTwo]
  split <;> rfl

/-- What an in-process builtin does to the shell. -/
theorem own_dispatch_builtin (commands : Commands σ) {cmd : Bytes} (args : List Bytes)
    (h : isInprocessBuiltin cmd = true) (s : Shell σ) :
    (dispatch commands (cmd :: args) s).map Shell.own =
      if cmd = bytes "exit" ∨ cmd = bytes "logout" then none
      else some (commands.builtin (cmd :: args) s.world, s.jobReap.jobs) := by
  rcases s.jobReap_eq with ⟨jobs, reports, hreap⟩
  have hworld : s.jobReap.world = s.world := by rw [hreap]
  simp only [dispatch, if_pos h]
  split
  · rfl
  · rw [Option.map_some, Shell.own, hworld]

/-- The run behind the redirections. -/
theorem execute_redirected (commands : Commands σ) {a : Span} {rest : List Span}
    (hsegs : p.segments = [a :: rest]) (hred : p.stdoutFile.2 > 0 ∨ p.stdinFile.2 > 0)
    {s : Shell σ} (hopen : OpensSucceed answers p s.jobReap) :
    execute commands answers line p s =
      executeOpened commands answers line p (s.jobReap.outFd p) (s.jobReap.inFd line p)
        (s.jobReap.redirected line p) := by
  rcases openRedirects_eq line hopen with ⟨s₁, hout, hin⟩
  have hboth : ¬ (p.stdoutFile.2 = 0 ∧ p.stdinFile.2 = 0) := by omega
  unfold execute
  simp only
  rw [hsegs]
  simp only [if_neg hboth, executeRedirected, hout, hin]

/-- The run without the redirections. -/
theorem own_execute_bare (commands : Commands σ) (line : Bytes) {a : Span} {rest : List Span}
    (hsegs : p.segments = [a :: rest]) (s : Shell σ) :
    (execute commands (fun _ => none) line p.bare s).map Shell.own =
      if p.background then
        some (s.world, (s.jobReap.jobs.jobAdd (toI32 (s.lastPid + 1))).2)
      else (dispatch commands (segToArgs line (a :: rest)) s).map Shell.own := by
  rcases s.jobReap_eq with ⟨jobs, reports, hreap⟩
  have hplain : execute commands (fun _ => none) line p.bare s
      = executePlain commands (fun _ => none) line (a :: rest) p.background s.jobReap := by
    unfold execute
    simp only [Pipeline.bare]
    rw [hsegs]
    rfl
  rw [hplain, executePlain, if_neg (by simp)]
  split
  · rw [Shell.fork_ok rfl]
    show some (s.jobReap.world, (s.jobReap.jobs.jobAdd (toI32 (s.jobReap.lastPid + 1))).2) = _
    rw [Shell.lastPid_jobReap]
    have hworld : s.jobReap.world = s.world := by rw [hreap]
    rw [hworld]
  · rfl

/-- Waiting for children touches neither the world nor the jobs. -/
@[simp] theorem Shell.own_waitpid (pids : List Nat) (s : Shell σ) :
    (pids.foldl Shell.waitpid s).own = s.own := by
  induction pids generalizing s with
  | nil => rfl
  | cons pid pids ih => exact ih (s.waitpid pid)

/-- What follows the segment loop enters a background pipeline as a job. -/
theorem own_finishLaunch (background : Bool) {l : Launch σ} (hpid : l.lastPid > 0) :
    (finishLaunch background l).own =
      if background then (l.shell.world, (l.shell.jobs.jobAdd (toI32 l.lastPid)).2)
      else l.shell.own := by
  rcases closeParent_eq l.parentClose l.shell with ⟨fds, hclose⟩
  rw [finishLaunch, hclose]
  cases background with
  | false =>
    simp only [Bool.false_eq_true, if_false, false_and, Shell.own_waitpid]
    rfl
  | true =>
    simp only [if_true, true_and, if_pos hpid]
    rfl

/-- The segment loop on one command: one child, and the waits or the job entry. -/
theorem executeLoop_one {a : Span} {rest : List Span} (hsegs : p.segments = [a :: rest])
    {stdoutFd stdinFd : Nat} {s : Shell σ} (hfork : answers s.calls = none) :
    executeLoop answers line p stdoutFd stdinFd s =
      finishLaunch p.background (Launch.spawned ⟨s, stdinFd, 0, [], []⟩ s.afterFork line
        (a :: rest) (s.lastPid + 1) stdoutFd stdinFd stdoutFd stdinFd) := by
  have hspawn : spawnSegment answers line stdoutFd stdinFd (a :: rest) true
      ⟨s, stdinFd, 0, [], []⟩ = .ok (Launch.spawned ⟨s, stdinFd, 0, [], []⟩ s.afterFork line
        (a :: rest) (s.lastPid + 1) stdoutFd stdinFd stdoutFd stdinFd) :=
    spawnSegment_last (List.cons_ne_nil a rest) hfork
  simp only [executeLoop, hsegs, launchAll, List.isEmpty_nil, hspawn, launchResult]

/-- The loop runs its one segment in a child, so that the shell's own state is as before, but for
the job of a background pipeline. -/
theorem own_executeLoop {a : Span} {rest : List Span} (hsegs : p.segments = [a :: rest])
    {stdoutFd stdinFd : Nat} {s : Shell σ} (hfork : answers s.calls = none) :
    (executeLoop answers line p stdoutFd stdinFd s).own =
      if p.background then (s.world, (s.jobs.jobAdd (toI32 (s.lastPid + 1))).2) else s.own := by
  rw [executeLoop_one hsegs hfork, own_finishLaunch p.background (Nat.succ_pos _)]
  rfl

/-- The one child of the loop, with its descriptors and its arguments. -/
theorem forked_executeLoop {a : Span} {rest : List Span} (hsegs : p.segments = [a :: rest])
    {stdoutFd stdinFd : Nat} {s : Shell σ} (hfork : answers s.calls = none) :
    (executeLoop answers line p stdoutFd stdinFd s).forked =
      s.forked ++ [⟨s.lastPid + 1, childFds s.fds stdinFd stdoutFd, segToArgs line (a :: rest)⟩] := by
  rw [executeLoop_one hsegs hfork, (finishLaunch_frame _ _).2.1]
  rfl

/-! ### Where it only redirects -/

/-- Whether the targets open does not depend on the reaping before it. -/
theorem opensSucceed_jobReap {s : Shell σ} (h : OpensSucceed answers p s) :
    OpensSucceed answers p s.jobReap := by
  rw [OpensSucceed, callIn, Shell.calls_jobReap]
  exact h

/-- Where the standard descriptors lead does not depend on the reaping before it. -/
theorem landed_jobReap (s : Shell σ) : Landed line p s.jobReap ↔ Landed line p s := by
  rw [Landed, Landed, Shell.fds_jobReap]

/-- The number of calls behind the redirections is one for each target there is. -/
theorem calls_redirected (line : Bytes) (p : Pipeline) (s : Shell σ) :
    (s.jobReap.redirected line p).calls = callLoop p s := by
  show callLoop p s.jobReap = _
  rw [callLoop, callIn, Shell.calls_jobReap]
  rfl

/-- The descriptors of the command behind redirections that opened. -/
theorem dispatchFds_eq (line : Bytes) {s : Shell σ} (hopen : OpensSucceed answers p s) (a : Span) :
    dispatchFds answers line p a s =
      if isInprocessBuiltin (Span.of line a) then some (s.jobReap.redirected line p).fds
      else if answers (callLoop p s) = none then
        some (childFds (s.jobReap.redirected line p).fds (s.jobReap.inFd line p)
          (s.jobReap.outFd p))
      else none := by
  rcases openRedirects_eq line (opensSucceed_jobReap hopen) with ⟨s₁, hout, hin⟩
  simp only [dispatchFds, hout, hin]
  have hcalls := calls_redirected line p s
  split
  · rfl
  · cases hfork : answers (callLoop p s) with
    | none =>
      rw [← hcalls] at hfork
      rw [Shell.fork_ok hfork, if_pos rfl]
      rfl
    | some e =>
      rw [← hcalls] at hfork
      simp only [Shell.fork, hfork, reduceCtorEq, if_false]

/-- They are those of the shell in which an in-process builtin is dispatched. -/
theorem dispatchFds_inprocess (commands : Commands σ) {a : Span} {rest : List Span}
    (hsegs : p.segments = [a :: rest]) (hred : p.stdoutFile.2 > 0 ∨ p.stdinFile.2 > 0)
    {s : Shell σ} (hopen : OpensSucceed answers p s)
    (hbuiltin : isInprocessBuiltin (Span.of line a) = true) :
    ∃ s₁, dispatchFds answers line p a s = some s₁.fds ∧
      execute commands answers line p s =
        (dispatch commands (segToArgs line (a :: rest)) s₁).map fun s' =>
          (s'.closeAboveTwo (s.jobReap.outFd p)).closeAboveTwo (s.jobReap.inFd line p) := by
  refine ⟨s.jobReap.redirected line p, ?_, ?_⟩
  · rw [dispatchFds_eq line hopen, if_pos hbuiltin]
  · rw [execute_redirected commands hsegs hred (opensSucceed_jobReap hopen), executeOpened, hsegs]
    simp only [if_pos hbuiltin]

/-- They are those of the child in which any other command is dispatched. -/
theorem dispatchFds_forked (commands : Commands σ) {a : Span} {rest : List Span}
    (hsegs : p.segments = [a :: rest]) (hred : p.stdoutFile.2 > 0 ∨ p.stdinFile.2 > 0)
    {s : Shell σ} (hopen : OpensSucceed answers p s)
    (hother : ¬ isInprocessBuiltin (Span.of line a) = true)
    {fds : FdTable Description} (hfds : dispatchFds answers line p a s = some fds) :
    ∃ s', execute commands answers line p s = some s' ∧
      s'.forked = s.forked ++ [⟨s.lastPid + 1, fds, segToArgs line (a :: rest)⟩] := by
  rw [dispatchFds_eq line hopen, if_neg hother] at hfds
  split at hfds
  · rename_i hfork
    rw [← calls_redirected line] at hfork
    refine ⟨executeLoop answers line p (s.jobReap.outFd p) (s.jobReap.inFd line p)
      (s.jobReap.redirected line p), ?_, ?_⟩
    · rw [execute_redirected commands hsegs hred (opensSucceed_jobReap hopen), executeOpened,
        hsegs]
      simp only [if_neg hother]
    · have hpid : (s.jobReap.redirected line p).lastPid = s.lastPid := s.lastPid_jobReap
      have hforked : (s.jobReap.redirected line p).forked = s.forked := s.forked_jobReap
      rw [forked_executeLoop hsegs hfork, hpid, hforked, Option.some.inj hfds]
  · cases hfds

/-- Behind the redirections an in-process builtin does to the shell what it does alone, and
its background mark is not looked at. -/
theorem own_execute_inprocess (commands : Commands σ) {a : Span} {rest : List Span}
    (hsegs : p.segments = [a :: rest]) (hred : p.stdoutFile.2 > 0 ∨ p.stdinFile.2 > 0)
    {s : Shell σ} (hopen : OpensSucceed answers p s)
    (hbuiltin : isInprocessBuiltin (Span.of line a) = true) :
    (execute commands answers line p s).map Shell.own
      = (dispatch commands (segToArgs line (a :: rest)) s).map Shell.own := by
  rcases head_segToArgs rest hbuiltin with ⟨args, hargs⟩
  rw [execute_redirected commands hsegs hred (opensSucceed_jobReap hopen), executeOpened, hsegs]
  simp only [if_pos hbuiltin, Option.map_map]
  have hcloses : Shell.own ∘ (fun s' : Shell σ =>
      (s'.closeAboveTwo (s.jobReap.outFd p)).closeAboveTwo (s.jobReap.inFd line p))
      = Shell.own := by
    funext s'
    simp only [Function.comp, Shell.own_closeAboveTwo]
  rw [hcloses, hargs, own_dispatch_builtin commands args hbuiltin,
    own_dispatch_builtin commands args hbuiltin]
  have hworld : (s.jobReap.redirected line p).world = s.world := Shell.world_jobReap s
  rw [hworld]
  rfl

/-- Any other command leaves the shell as it is, but for the job of a background mark. -/
theorem own_execute_forked (commands : Commands σ) {a : Span} {rest : List Span}
    (hsegs : p.segments = [a :: rest]) (hred : p.stdoutFile.2 > 0 ∨ p.stdinFile.2 > 0)
    {s : Shell σ} (hopen : OpensSucceed answers p s)
    (hother : ¬ isInprocessBuiltin (Span.of line a) = true)
    (hfork : answers (callLoop p s) = none) :
    (execute commands answers line p s).map Shell.own =
      some (if p.background then (s.world, (s.jobReap.jobs.jobAdd (toI32 (s.lastPid + 1))).2)
        else s.jobReap.own) := by
  have hcalls : (s.jobReap.redirected line p).calls = callLoop p s := calls_redirected line p s
  rw [← hcalls] at hfork
  rw [execute_redirected commands hsegs hred (opensSucceed_jobReap hopen), executeOpened, hsegs]
  simp only [if_neg hother, Option.map_some]
  rw [own_executeLoop hsegs hfork]
  have hworld : (s.jobReap.redirected line p).world = s.world := Shell.world_jobReap s
  have hpid : (s.jobReap.redirected line p).lastPid = s.lastPid := s.lastPid_jobReap
  rw [hworld, hpid]
  rfl

/-- A full table is what a new job does not change. -/
theorem Jobs.jobAdd_eq_self_iff (j : Jobs) (pid : Int) :
    (j.jobAdd pid).2 = j ↔ j.table.length = JOB_MAX := by
  rw [Jobs.jobAdd]
  split
  · rename_i hroom
    apply iff_of_false
    · intro h
      have hlen := congrArg (fun j => j.table.length) h
      rw [List.length_append, List.length_singleton] at hlen
      omega
    · omega
  · rename_i hfull
    have hle := j.length_le
    exact iff_of_true rfl (by omega)

/-- That the builtin leaves the shell as the reaping has left it, in one equation between
options. -/
theorem leavesShell_iff (commands : Commands σ) (args : List Bytes) (s : Shell σ) :
    LeavesShell commands args s ↔
      (dispatch commands args s).map Shell.own = some s.jobReap.own := by
  rw [LeavesShell, Option.map_eq_some_iff]

/-- The property falls into two parts: where the builtin's descriptors lead, and that the shell's
own state is the one without the redirections. The two are decided apart. -/
theorem onlyRedirects_split (commands : Commands σ) (a : Span) (s : Shell σ) :
    OnlyRedirects commands answers line p a s ↔
      (∃ fds, dispatchFds answers line p a s = some fds ∧
        (p.stdoutFile.2 > 0 → fds.get 1 = some (p.outFile line)) ∧
        (p.stdinFile.2 > 0 → fds.get 0 = some (p.inFile line))) ∧
      (execute commands answers line p s).map Shell.own
        = (execute commands (fun _ => none) line p.bare s).map Shell.own :=
  ⟨fun h => ⟨h.bound, h.same⟩, fun h => ⟨h.1, h.2⟩⟩

/-- **A redirection only redirects** an in-process builtin whose files landed at its descriptors,
and a command that needs nothing of the shell. The property falls into where the command's
descriptors lead and what becomes of the shell itself (`onlyRedirects_split`). Both are computed
for a builtin in the shell's process, for a child, and for a `fork` that is refused. -/
theorem onlyRedirects_iff (commands : Commands σ) (answers : Answers) (line : Bytes)
    (p : Pipeline) (a : Span) (rest : List Span) (s : Shell σ) (hsegs : p.segments = [a :: rest])
    (hred : p.stdoutFile.2 > 0 ∨ p.stdinFile.2 > 0) (hopen : OpensSucceed answers p s) :
    OnlyRedirects commands answers line p a s ↔
      RedirectsCleanly commands answers line p a (segToArgs line (a :: rest)) s := by
  have hbare := own_execute_bare commands line hsegs s
  have hfds := dispatchFds_eq line hopen a
  rw [onlyRedirects_split]
  -- The command runs in the shell process, in a child, or not at all.
  by_cases hbuiltin : isInprocessBuiltin (Span.of line a) = true
  · rcases head_segToArgs rest hbuiltin with ⟨args, hargs⟩
    rw [RedirectsCleanly, if_pos hbuiltin]
    rw [if_pos hbuiltin] at hfds
    apply and_congr
    · rw [hfds, ← landed_jobReap, ← bound_inprocess_iff]
      exact ⟨fun ⟨_, h, hb⟩ => Option.some.inj h ▸ hb, fun hb => ⟨_, rfl, hb⟩⟩
    · rw [own_execute_inprocess commands hsegs hred hopen hbuiltin, hbare]
      cases hback : p.background with
      | false => simp
      | true =>
        rw [leavesShell_iff, if_pos rfl, hargs, own_dispatch_builtin commands args hbuiltin]
        have hown : s.jobReap.own = (s.world, s.jobReap.jobs) := by
          rw [Shell.own, Shell.world_jobReap]
        rw [hown, ← Jobs.jobAdd_eq_self_iff s.jobReap.jobs (toI32 (s.lastPid + 1))]
        split
        · simp
        · simp only [Option.some.injEq, Prod.mk.injEq, and_true, forall_const]
          exact and_congr_right fun _ => eq_comm
  · rw [RedirectsCleanly, if_neg hbuiltin]
    rw [if_neg hbuiltin] at hfds
    by_cases hfork : answers (callLoop p s) = none
    · rw [if_pos hfork] at hfds
      simp only [hfork, true_and]
      apply and_congr
      · have hchild := bound_child_iff line p s.jobReap
        rw [Shell.fds_jobReap] at hchild
        rw [hfds, ← hchild]
        exact ⟨fun ⟨_, h, hb⟩ => Option.some.inj h ▸ hb, fun hb => ⟨_, rfl, hb⟩⟩
      · rw [own_execute_forked commands hsegs hred hopen hbuiltin hfork, hbare]
        cases hback : p.background with
        | false =>
          rw [leavesShell_iff]
          simp only [Bool.false_eq_true, if_false, forall_const]
          exact eq_comm
        | true => simp
    · rw [if_neg hfork] at hfds
      apply iff_of_false
      · rintro ⟨⟨fds, h, -⟩, -⟩
        rw [hfds] at h
        cases h
      · exact fun h => hfork h.1

/-- `echo hi > f` meets the condition. -/
theorem onlyRedirects_echo_out :
    OnlyRedirects Commands.idle (fun _ => none) (bytes "echo hi > f") (parse (bytes "echo hi > f"))
      (0, 4) (Shell.init ()) := by
  rw [onlyRedirects_iff Commands.idle (fun _ => none) (bytes "echo hi > f")
    (parse (bytes "echo hi > f")) (0, 4) [(5, 2)] (Shell.init ()) (by decide +kernel)
    (by decide +kernel) ⟨fun _ => rfl, fun _ => rfl⟩]
  rw [RedirectsCleanly, if_neg (by decide +kernel)]
  refine ⟨rfl, ?_, ?_⟩
  · intro _ h
    exact absurd h (by decide +kernel)
  · intro _
    exact ⟨_, rfl, rfl⟩

/-- `pwd` prints on the terminal. -/
theorem not_onlyRedirects_pwd :
    ¬ OnlyRedirects Commands.idle (fun _ => none) (bytes "pwd > f") (parse (bytes "pwd > f"))
      (0, 3) (Shell.init ()) := by
  rintro ⟨⟨fds, hfds, hout, -⟩, -⟩
  have hterminal : (dispatchFds (fun _ => none) (bytes "pwd > f") (parse (bytes "pwd > f")) (0, 3)
      (Shell.init ())).bind (·.get 1) = some (.object 1) := by decide +kernel
  have hfile := hout (by decide +kernel)
  rw [hfds, Option.bind_some, hfile] at hterminal
  cases hterminal

end OnyxShell
