import OnyxShell.Pipeline.Exec

/-!
# `OnyxShell.Proofs.Pipeline.Exec`: what the calls of the executor do

One lemma for each call and each stage of `execute`, in terms of what a descriptor is
open on. `childFds_get` is the close-and-dup sequence of a child, `launchAll_append` cuts
the segment loop, and the `simp` set says what the bookkeeping calls leave alone.

The results about whole pipelines are in the modules that import this one: the wiring, the books
of the shell, the redirections and the ends of the pipes.
-/

set_option autoImplicit false

namespace OnyxShell

variable {σ : Type} {answers : Answers} {line : Bytes} {stdoutFd stdinFd : Nat}

namespace Shell

section Frame

variable (s : Shell σ) (r : Report) (c : Child) (fd pid : Nat)

/-- A report is output. The lemmas of this section say of each operation which of the fields it
leaves alone, so that `simp` carries a field through a run of the launch. -/
@[simp] theorem fds_report : (s.report r).fds = s.fds := rfl
/-- A report starts no child. -/
@[simp] theorem forked_report : (s.report r).forked = s.forked := rfl
/-- A report waits for no child. -/
@[simp] theorem waited_report : (s.report r).waited = s.waited := rfl

/-- Starting a child leaves the parent's descriptors as they are. -/
@[simp] theorem fds_start : (s.start c).fds = s.fds := rfl
/-- The child that is started joins the list at its end, so that the list is in the order of the
segments. -/
@[simp] theorem forked_start : (s.start c).forked = s.forked ++ [c] := rfl
/-- Starting a child does not wait for it. -/
@[simp] theorem waited_start : (s.start c).waited = s.waited := rfl

/-- The job table has nothing to do with the descriptors. -/
@[simp] theorem fds_jobAdd : (s.jobAdd pid).fds = s.fds := rfl
/-- Entering a job starts no child. -/
@[simp] theorem forked_jobAdd : (s.jobAdd pid).forked = s.forked := rfl
/-- Entering a job runs no builtin. -/
@[simp] theorem dispatched_jobAdd : (s.jobAdd pid).dispatched = s.dispatched := rfl

/-- `close` takes one descriptor from the table. -/
@[simp] theorem fds_close : (s.close fd).fds = s.fds.close fd := rfl
/-- `close` starts no child. -/
@[simp] theorem forked_close : (s.close fd).forked = s.forked := rfl
/-- `close` waits for no child. -/
@[simp] theorem waited_close : (s.close fd).waited = s.waited := rfl

/-- `if fd > 2 { sys_close(fd) }`: the standard descriptors stay. -/
@[simp] theorem fds_closeAboveTwo :
    (s.closeAboveTwo fd).fds = if fd > 2 then s.fds.close fd else s.fds := by
  rw [closeAboveTwo]
  split <;> rfl

/-- The guarded `close` starts no child. -/
@[simp] theorem forked_closeAboveTwo : (s.closeAboveTwo fd).forked = s.forked := by
  rw [closeAboveTwo]
  split <;> rfl

/-- The guarded `close` waits for no child. -/
@[simp] theorem waited_closeAboveTwo : (s.closeAboveTwo fd).waited = s.waited := by
  rw [closeAboveTwo]
  split <;> rfl

/-- Reaping changes the job table, the list of ended children and what is printed. -/
theorem jobReap_eq :
    ∃ jobs reports, s.jobReap = { s with jobs := jobs, reports := reports, ended := [] } := by
  have hfold : ∀ pids : List Nat, ∃ jobs reports,
      pids.foldl reapOne s = { s with jobs := jobs, reports := reports } := by
    intro pids
    -- One ended child after the other, from the table that the last one left.
    induction pids generalizing s with
    | nil => exact ⟨_, _, rfl⟩
    | cons pid pids ih =>
      have hone : ∃ jobs reports, s.reapOne pid = { s with jobs := jobs, reports := reports } := by
        unfold reapOne report
        split <;> exact ⟨_, _, rfl⟩
      obtain ⟨jobs, reports, hone⟩ := hone
      obtain ⟨jobs', reports', hrest⟩ := ih (s.reapOne pid)
      exact ⟨jobs', reports', by rw [List.foldl_cons, hrest, hone]⟩
  obtain ⟨jobs, reports, h⟩ := hfold s.ended
  exact ⟨jobs, reports, by rw [jobReap, h]⟩

/-- Reaping changes what `jobReap_eq` says. The lemmas below read off that each other field is
as it was. -/
@[simp] theorem fds_jobReap : s.jobReap.fds = s.fds := by
  obtain ⟨_, _, h⟩ := s.jobReap_eq
  rw [h]

/-- Reaping leaves the world that the builtins act on. -/
@[simp] theorem world_jobReap : s.jobReap.world = s.world := by
  obtain ⟨_, _, h⟩ := s.jobReap_eq
  rw [h]

/-- Reaping starts no child. -/
@[simp] theorem forked_jobReap : s.jobReap.forked = s.forked := by
  obtain ⟨_, _, h⟩ := s.jobReap_eq
  rw [h]

/-- Reaping is no wait for a child by its pid. -/
@[simp] theorem waited_jobReap : s.jobReap.waited = s.waited := by
  obtain ⟨_, _, h⟩ := s.jobReap_eq
  rw [h]

/-- Reaping runs no builtin. -/
@[simp] theorem dispatched_jobReap : s.jobReap.dispatched = s.dispatched := by
  obtain ⟨_, _, h⟩ := s.jobReap_eq
  rw [h]

/-- Reaping asks for none of the calls that may be refused. -/
@[simp] theorem calls_jobReap : s.jobReap.calls = s.calls := by
  obtain ⟨_, _, h⟩ := s.jobReap_eq
  rw [h]

/-- Reaping makes no pipe. -/
@[simp] theorem pipes_jobReap : s.jobReap.pipes = s.pipes := by
  obtain ⟨_, _, h⟩ := s.jobReap_eq
  rw [h]

/-- Reaping gives out no process id. -/
@[simp] theorem lastPid_jobReap : s.jobReap.lastPid = s.lastPid := by
  obtain ⟨_, _, h⟩ := s.jobReap_eq
  rw [h]

/-- Waiting changes no descriptor and forks nothing. -/
theorem foldl_waitpid (pids : List Nat) :
    (pids.foldl waitpid s).fds = s.fds ∧ (pids.foldl waitpid s).forked = s.forked ∧
      (pids.foldl waitpid s).dispatched = s.dispatched ∧
      (pids.foldl waitpid s).waited = s.waited ++ pids := by
  induction pids generalizing s with
  | nil => simp
  | cons pid pids ih =>
    obtain ⟨h1, h2, h3, h4⟩ := ih (s.waitpid pid)
    exact ⟨h1, h2, h3, by rw [List.foldl_cons, h4]; simp [waitpid]⟩

end Frame

end Shell

/-! ### Opening files and pipes -/

/-- An `open` changes the descriptors and the number of calls. -/
theorem Shell.sysOpen_frame (answers : Answers) (path : Bytes) (flags : Nat) (s : Shell σ) :
    ∃ fds calls, (s.sysOpen answers path flags).2 = { s with fds := fds, calls := calls } := by
  rw [sysOpen]
  split <;> exact ⟨_, _, rfl⟩

/-- Opening the output target changes the descriptors and the number of calls, and nothing
else. -/
theorem openStdout_frame (answers : Answers) (line : Bytes) (p : Pipeline) (s : Shell σ) :
    ∃ fds calls, (openStdout answers line p s).2 = { s with fds := fds, calls := calls } := by
  rw [openStdout]
  split
  · exact Shell.sysOpen_frame _ _ _ _
  · exact ⟨_, _, rfl⟩

/-- Opening the input target, likewise. -/
theorem openStdin_frame (answers : Answers) (line : Bytes) (p : Pipeline) (s : Shell σ) :
    ∃ fds calls, (openStdin answers line p s).2 = { s with fds := fds, calls := calls } := by
  rw [openStdin]
  split
  · exact Shell.sysOpen_frame _ _ _ _
  · exact ⟨_, _, rfl⟩

/-- The pipe of a segment is made before its child. -/
theorem segmentPipe_frame (answers : Answers) (isLast : Bool) (stdoutFd : Nat) (l : Launch σ) :
    ∃ fds calls pipes, (segmentPipe answers isLast stdoutFd l).2
      = { l.shell with fds := fds, calls := calls, pipes := pipes } := by
  have hpipe : ∃ fds calls pipes, (l.shell.pipe answers).2
      = { l.shell with fds := fds, calls := calls, pipes := pipes } := by
    rw [Shell.pipe]
    split <;> exact ⟨_, _, _, rfl⟩
  rw [segmentPipe]
  split
  · exact ⟨_, _, _, rfl⟩
  · split
    · rename_i heq
      rw [heq] at hpipe
      exact hpipe
    · rename_i heq
      rw [heq] at hpipe
      exact hpipe

/-! ### Behind the loop -/

/-- The closes behind the loop change descriptors only. -/
theorem closeParent_eq (parentClose : List (Option Nat)) (s : Shell σ) :
    ∃ fds, closeParent parentClose s = { s with fds := fds } := by
  rw [closeParent]
  induction parentClose generalizing s with
  | nil => exact ⟨_, rfl⟩
  | cons fd parentClose ih =>
    have hone : ∃ fds, s.closeEntry fd = { s with fds := fds } := by
      cases fd with
      | none => exact ⟨s.fds, rfl⟩
      | some fd =>
        by_cases h : fd > 2
        · exact ⟨s.fds.close fd, by rw [Shell.closeEntry, Shell.closeAboveTwo, if_pos h]; rfl⟩
        · exact ⟨s.fds, by rw [Shell.closeEntry, Shell.closeAboveTwo, if_neg h]⟩
    obtain ⟨fds, hone⟩ := hone
    obtain ⟨fds', hrest⟩ := ih { s with fds := fds }
    exact ⟨fds', by rw [List.foldl_cons, hone, hrest]⟩

/-- The closes behind the loop free the entries above 2. -/
theorem get_closeParent (parentClose : List (Option Nat)) (s : Shell σ) (n : Nat) :
    (closeParent parentClose s).fds.get n
      = if n > 2 ∧ some n ∈ parentClose then none else s.fds.get n := by
  rw [closeParent]
  induction parentClose generalizing s with
  | nil => simp
  | cons fd parentClose ih =>
    -- An entry above 2 frees itself, and a low entry frees nothing.
    have hone : (s.closeEntry fd).fds.get n = if n > 2 ∧ some n = fd then none else s.fds.get n := by
      cases fd with
      | none => simp [Shell.closeEntry]
      | some fd =>
        by_cases h : fd > 2
        · rw [Shell.closeEntry, Shell.fds_closeAboveTwo, if_pos h, FdTable.get_close]
          by_cases hn : n = fd
          · simp [hn, h]
          · simp [hn]
        · rw [Shell.closeEntry, Shell.fds_closeAboveTwo, if_neg h, if_neg]
          rintro ⟨h1, h2⟩
          cases h2
          exact h h1
    rw [List.foldl_cons, ih, hone]
    -- Either this entry closes `n`, or the rest of the list does.
    by_cases h : n > 2
    · by_cases h1 : some n = fd <;> by_cases h2 : some n ∈ parentClose <;> simp [h, h1, h2]
    · simp [h]

/-- Behind the loop nothing is forked or dispatched, the descriptors are those that the
closes leave, and a foreground pipeline has been waited for. -/
theorem finishLaunch_frame (background : Bool) (l : Launch σ) :
    (finishLaunch background l).fds = (closeParent l.parentClose l.shell).fds ∧
      (finishLaunch background l).forked = l.shell.forked ∧
      (finishLaunch background l).dispatched = l.shell.dispatched ∧
      (background = false →
        (finishLaunch background l).waited = l.shell.waited ++ l.spawnedPids) := by
  obtain ⟨fds, hclose⟩ := closeParent_eq l.parentClose l.shell
  obtain ⟨hfds, hforked, hdisp, hwaited⟩ :=
    Shell.foldl_waitpid (closeParent l.parentClose l.shell) l.spawnedPids
  rw [hclose] at hfds hforked hdisp hwaited
  rw [finishLaunch]
  rw [hclose]
  -- A background pipeline is entered as a job instead of being waited for.
  cases background with
  | false => simp [hfds, hforked, hdisp, hwaited]
  | true =>
    by_cases hpid : l.lastPid > 0
    · simp [hpid]
    · simp [hpid]

/-! ### A child -/

/-- The descriptors of a child: its input at 0, its output at 1, and everything else as
the shell had it when it forked. -/
theorem childFds_get {t : FdTable Description} {r w : Nat} {inp out : Description}
    (hr : t.get r = some inp) (hw : t.get w = some out) (hw0 : w ≠ 0) (n : Nat) :
    (childFds t r w).get n
      = if n = 1 then some out else if n = 0 then some inp else t.get n := by
  rw [childFds]
  -- After the input is in place.
  have hstdin : ∀ m, (if r ≠ 0 then (t.close 0).dup r else t).get m
      = if m = 0 then some inp else t.get m := by
    intro m
    by_cases hr0 : r = 0
    · -- Descriptor 0 is the input already, and nothing is closed for it.
      subst hr0
      simp only [ne_eq, not_true_eq_false, if_false]
      split
      · rename_i hm
        rw [hm, hr]
      · rfl
    · have hkeep : (t.close 0).get r = some inp := by rw [FdTable.get_close, if_neg hr0, hr]
      rw [if_pos hr0, FdTable.dup_eq_alloc hkeep, FdTable.get_alloc_close inp (by omega)]
  generalize (if r ≠ 0 then (t.close 0).dup r else t) = t1 at hstdin
  -- The output comes second, so 1 is the lowest free number when it is dupped.
  by_cases hw1 : w = 1
  · subst hw1
    simp only [ne_eq, not_true_eq_false, if_false, hstdin]
    rcases n with _ | _ | n <;> simp [hw]
  · have hkeep : (t1.close 1).get w = some out := by
      rw [FdTable.get_close, if_neg hw1, hstdin, if_neg hw0, hw]
    rw [if_pos hw1, FdTable.dup_eq_alloc hkeep, FdTable.get_alloc_close out, hstdin]
    intro m hm
    obtain rfl : m = 0 := by omega
    simp [FdTable.IsOpen, hstdin]

/-- A child keeps what is open above its input and output. -/
theorem childFds_keep {t : FdTable Description} {r w fd : Nat} {d : Description}
    (hd : t.get fd = some d) (h0 : fd ≠ 0) (h1 : fd = 1 → w = 1) :
    (childFds t r w).get fd = some d := by
  rw [childFds]
  have hstdin : (if r ≠ 0 then (t.close 0).dup r else t).get fd = some d := by
    split
    · have hkeep : (t.close 0).get fd = some d := by rw [FdTable.get_close, if_neg h0, hd]
      rw [FdTable.get_dup_of_isOpen (by rw [FdTable.IsOpen, hkeep]; rfl), hkeep]
    · exact hd
  -- The first close frees 0 only, the second one 1, which `h1` excludes.
  generalize (if r ≠ 0 then (t.close 0).dup r else t) = t1 at hstdin
  split
  · rename_i hw
    have hkeep : (t1.close 1).get fd = some d := by
      rw [FdTable.get_close, if_neg fun h => hw (h1 h), hstdin]
    rw [FdTable.get_dup_of_isOpen (by rw [FdTable.IsOpen, hkeep]; rfl), hkeep]
  · exact hstdin

/-! ### One turn of the loop -/

/-- An `open` that succeeds enters the file and moves nothing. -/
theorem Shell.sysOpen_ok {s : Shell σ} (h : answers s.calls = none) (path : Bytes) (flags : Nat) :
    s.sysOpen answers path flags
      = (.ok s.fds.lowestFree,
          { s with calls := s.calls + 1, fds := s.fds.alloc (.file path flags) }) := by
  simp only [sysOpen, h]

/-- A segment without a command is skipped. -/
theorem spawnSegment_nil (isLast : Bool) (l : Launch σ) :
    spawnSegment answers line stdoutFd stdinFd [] isLast l = .ok l := rfl

/-- The shell behind a `fork`. -/
def Shell.afterFork (s : Shell σ) : Shell σ :=
  { s with calls := s.calls + 1, lastPid := s.lastPid + 1 }

/-- The shell behind a `pipe`. -/
def Shell.afterPipe (s : Shell σ) : Shell σ :=
  { s with calls := s.calls + 1, pipes := s.pipes + 1
           fds := (s.fds.alloc (.pipeRead s.pipes)).alloc (.pipeWrite s.pipes) }

/-- The number `pipe` returns for the write end. -/
def Shell.writeEnd (s : Shell σ) : Nat := (s.fds.alloc (.pipeRead s.pipes)).lowestFree

/-- A `fork` that is not refused gives the next process id. -/
theorem Shell.fork_ok {s : Shell σ} (h : answers s.calls = none) :
    s.fork answers = (.ok (s.lastPid + 1), s.afterFork) := by
  simp only [fork, h]
  rfl

/-- A `pipe` that is not refused gives the two lowest free descriptors. -/
theorem Shell.pipe_ok {s : Shell σ} (h : answers s.calls = none) :
    s.pipe answers = (.ok (s.fds.lowestFree, s.writeEnd), s.afterPipe) := by
  simp only [pipe, h]
  rfl

/-- The descriptors behind a `pipe`. -/
theorem Shell.get_afterPipe (s : Shell σ) (n : Nat) :
    s.afterPipe.fds.get n = if n = s.writeEnd then some (.pipeWrite s.pipes)
      else if n = s.fds.lowestFree then some (.pipeRead s.pipes) else s.fds.get n := by
  simp only [afterPipe, FdTable.get_alloc]
  rfl

/-- A pipe takes free descriptors, so that those that were open still lead where they did. -/
theorem Shell.get_afterPipe_of_isOpen {s : Shell σ} {n : Nat} (h : s.fds.IsOpen n) :
    s.afterPipe.fds.get n = s.fds.get n := by
  -- The read end is allocated first, so `n` is still open for the write end.
  have hr : (s.fds.alloc (.pipeRead s.pipes)).IsOpen n := FdTable.isOpen_alloc.mpr (Or.inr h)
  rw [afterPipe, FdTable.get_alloc_of_isOpen hr, FdTable.get_alloc_of_isOpen h]

/-- The read end. -/
theorem Shell.get_afterPipe_lowestFree (s : Shell σ) :
    s.afterPipe.fds.get s.fds.lowestFree = some (.pipeRead s.pipes) := by
  have hne : s.fds.lowestFree ≠ s.writeEnd := (FdTable.lowestFree_alloc_ne _ _).symm
  rw [get_afterPipe, if_neg hne, if_pos rfl]

/-- The write end. -/
theorem Shell.get_afterPipe_writeEnd (s : Shell σ) :
    s.afterPipe.fds.get s.writeEnd = some (.pipeWrite s.pipes) := by
  rw [get_afterPipe, if_pos rfl]

/-- With descriptor 0 taken, a child does not mistake the write end for it. -/
theorem Shell.writeEnd_ne_zero {s : Shell σ} (h0 : s.fds.IsOpen 0) : s.writeEnd ≠ 0 := by
  intro h
  have hopen : (s.fds.alloc (.pipeRead s.pipes)).IsOpen 0 := FdTable.isOpen_alloc.mpr (Or.inr h0)
  rw [← h] at hopen
  exact FdTable.not_isOpen_lowestFree _ hopen

/-- A `fork` leaves the parent's descriptors. -/
@[simp] theorem Shell.fds_afterFork (s : Shell σ) : s.afterFork.fds = s.fds := rfl

/-- Entering a started child into the launch leaves the parent's descriptors. -/
@[simp] theorem fds_spawned (l : Launch σ) (s : Shell σ) (seg : Segment) (pid w r : Nat) :
    (l.spawned s line seg pid w r stdoutFd stdinFd).shell.fds = s.fds := rfl

/-- The last segment writes to the end of the chain. -/
theorem spawnSegment_last {l : Launch σ} {seg : Segment} (hseg : seg ≠ [])
    (hfork : answers l.shell.calls = none) :
    spawnSegment answers line stdoutFd stdinFd seg true l
      = .ok (l.spawned l.shell.afterFork line seg (l.shell.lastPid + 1) stdoutFd l.prevReadFd
          stdoutFd stdinFd) := by
  simp only [spawnSegment, segmentPipe, List.length_eq_zero_iff, hseg, if_false, if_true,
    Shell.fork_ok hfork]

/-- A segment before the last one writes to a new pipe. -/
theorem spawnSegment_pipe {l : Launch σ} {seg : Segment} (hseg : seg ≠ [])
    (hpipe : answers l.shell.calls = none) (hfork : answers (l.shell.calls + 1) = none) :
    spawnSegment answers line stdoutFd stdinFd seg false l
      = .ok (l.spawned l.shell.afterPipe.afterFork line seg (l.shell.lastPid + 1)
          l.shell.writeEnd l.shell.fds.lowestFree stdoutFd stdinFd) := by
  have hfork' : answers l.shell.afterPipe.calls = none := hfork
  simp only [spawnSegment, segmentPipe, List.length_eq_zero_iff, hseg, Bool.false_eq_true,
    if_false, Shell.pipe_ok hpipe, Shell.fork_ok hfork']
  rfl

/-- The last segment's `fork` fails. -/
theorem spawnSegment_last_fail {l : Launch σ} {seg : Segment} {e : Nat} (hseg : seg ≠ [])
    (hfork : answers l.shell.calls = some e) :
    spawnSegment answers line stdoutFd stdinFd seg true l
      = .error ({ l.shell with calls := l.shell.calls + 1 }.forkFailed (Int.negSucc e)
          l.prevReadFd stdoutFd stdinFd) := by
  simp only [spawnSegment, segmentPipe, List.length_eq_zero_iff, hseg, if_false, if_true,
    Shell.fork, hfork]

/-- The pipe of a segment fails. -/
theorem spawnSegment_pipe_fail {l : Launch σ} {seg : Segment} {e : Nat} (hseg : seg ≠ [])
    (hpipe : answers l.shell.calls = some e) :
    spawnSegment answers line stdoutFd stdinFd seg false l
      = .error ({ l.shell with calls := l.shell.calls + 1 }.report
          (.error (bytes "pipe failed"))) := by
  simp only [spawnSegment, segmentPipe, List.length_eq_zero_iff, hseg, Bool.false_eq_true,
    if_false, Shell.pipe, hpipe]

/-- The `fork` behind the pipe of a segment fails. -/
theorem spawnSegment_fork_fail {l : Launch σ} {seg : Segment} {e : Nat} (hseg : seg ≠ [])
    (hpipe : answers l.shell.calls = none) (hfork : answers (l.shell.calls + 1) = some e) :
    spawnSegment answers line stdoutFd stdinFd seg false l
      = .error ({ l.shell.afterPipe with calls := l.shell.calls + 2 }.forkFailed (Int.negSucc e)
          l.prevReadFd l.shell.writeEnd stdinFd) := by
  have hfork' : answers l.shell.afterPipe.calls = some e := hfork
  simp only [spawnSegment, segmentPipe, List.length_eq_zero_iff, hseg, Bool.false_eq_true,
    if_false, Shell.pipe_ok hpipe, Shell.fork, hfork']
  rfl

/-- What is open behind a guarded `close`, as a condition on what was open before. -/
theorem Shell.isOpen_closeAboveTwo {s : Shell σ} {fd n : Nat} :
    (s.closeAboveTwo fd).fds.IsOpen n ↔ s.fds.IsOpen n ∧ ¬ (n > 2 ∧ n = fd) := by
  rw [Shell.fds_closeAboveTwo]
  split
  · rw [FdTable.isOpen_close]
    grind
  · grind

/-- What a failed `fork` closes. -/
theorem isOpen_forkFailed {s : Shell σ} {ret : Int} {r w n : Nat} :
    (s.forkFailed ret r w stdinFd).fds.IsOpen n ↔
      s.fds.IsOpen n ∧ ¬ (n > 2 ∧ (n = w ∨ n = r ∧ n ≠ stdinFd)) := by
  rw [Shell.forkFailed]
  split
  · rw [Shell.fds_close, FdTable.isOpen_close, Shell.isOpen_closeAboveTwo, Shell.fds_report]
    grind
  · rw [Shell.isOpen_closeAboveTwo, Shell.fds_report]
    grind

/-- A refused `fork` starts no child and waits for none. -/
theorem frame_forkFailed (s : Shell σ) (ret : Int) (r w stdinFd : Nat) :
    (s.forkFailed ret r w stdinFd).forked = s.forked ∧
      (s.forkFailed ret r w stdinFd).waited = s.waited := by
  rw [Shell.forkFailed]
  split <;> simp

/-- What the closes behind the loop leave open. -/
theorem isOpen_closeParent {parentClose : List (Option Nat)} {s : Shell σ} {n : Nat} :
    (closeParent parentClose s).fds.IsOpen n ↔
      s.fds.IsOpen n ∧ ¬ (n > 2 ∧ some n ∈ parentClose) := by
  rw [FdTable.IsOpen, get_closeParent]
  split <;> simp_all

end OnyxShell
