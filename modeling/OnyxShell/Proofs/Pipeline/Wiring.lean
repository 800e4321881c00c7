import OnyxShell.Pipeline.Wiring
import OnyxShell.Proofs.Pipeline.Exec

/-!
# `OnyxShell.Proofs.Pipeline.Wiring`: the executor builds the chain

`execute_wired` says that `execute` starts the commands of a pipeline as the chain `Wired`
describes, when no call fails and 0, 1 and 2 are open. `launchAll_wired` is the run lemma:
it goes over the segment loop with the object at `prev_read_fd` as the input of the chain
that is still to be built.
-/

set_option autoImplicit false

namespace OnyxShell

variable {σ : Type} {answers : Answers} {line : Bytes} {stdoutFd stdinFd : Nat}

/-! ### The loop -/

/-- The segment loop builds the chain from the object at `prev_read_fd` on. -/
theorem launchAll_wired (line : Bytes) (stdinFd : Nat) (hok : ∀ n, answers n = none)
    {segs : List Segment} {l : Launch σ}
    {inp out : Description} (hlast : ∃ seg, segs.getLast? = some seg ∧ seg ≠ [])
    (hlow : ∀ n, n < 3 → l.shell.fds.IsOpen n)
    (hinp : l.shell.fds.get l.prevReadFd = some inp)
    (hout : l.shell.fds.get stdoutFd = some out) (hout0 : stdoutFd ≠ 0) :
    ∃ l' children, launchAll answers line stdoutFd stdinFd segs l = .ok l' ∧
      l'.shell.forked = l.shell.forked ++ children ∧
      l'.shell.dispatched = l.shell.dispatched ∧
      children.map Child.args = (segs.filter (· ≠ [])).map (segToArgs line) ∧
      children.map Child.pid = List.range' (l.shell.lastPid + 1) children.length ∧
      Wired (some inp) (some out) children := by
  induction segs generalizing l inp with
  | nil => simp at hlast
  | cons seg rest ih =>
    cases rest with
    | nil =>
      have hseg : seg ≠ [] := by simpa using hlast
      -- The last child reads the chain so far and writes the output of the pipeline.
      have hget := childFds_get (t := l.shell.fds) hinp hout hout0
      refine ⟨l.spawned l.shell.afterFork line seg (l.shell.lastPid + 1) stdoutFd l.prevReadFd
        stdoutFd stdinFd, [⟨l.shell.lastPid + 1, childFds l.shell.fds l.prevReadFd stdoutFd,
        segToArgs line seg⟩], ?_, rfl, rfl, ?_, rfl, ?_⟩
      · simp only [launchAll, List.isEmpty_nil, spawnSegment_last hseg (hok _)]
      · simp [hseg]
      · simp [Wired, hget]
    | cons next rest =>
      have hlast' : ∃ seg, (next :: rest).getLast? = some seg ∧ seg ≠ [] := by
        simpa using hlast
      by_cases hseg : seg = []
      · subst hseg
        -- No command, no link: the chain is the one of the rest.
        obtain ⟨l', children, hl', hforked, hdisp, hargs, hpids, hwired⟩ :=
          ih hlast' hlow hinp hout
        refine ⟨l', children, ?_, hforked, hdisp, by simpa using hargs, hpids, hwired⟩
        rw [launchAll, spawnSegment_nil]
        exact hl'
      · -- The pipe leaves the open descriptors as they were.
        have hkeep : ∀ {n}, l.shell.fds.IsOpen n →
            l.shell.afterPipe.fds.get n = l.shell.fds.get n :=
          fun h => Shell.get_afterPipe_of_isOpen h
        have hinp' : l.shell.afterPipe.fds.get l.prevReadFd = some inp := by
          rw [hkeep (by simp [FdTable.IsOpen, hinp]), hinp]
        -- The child behind the pipe: `inp` on 0 and the new write end on 1.
        have hget := childFds_get hinp' l.shell.get_afterPipe_writeEnd
          (Shell.writeEnd_ne_zero (hlow 0 (by omega)))
        obtain ⟨l', children, hl', hforked, hdisp, hargs, hpids, hwired⟩ :=
          -- The rest of the chain starts at the read end.
          ih (l := l.spawned l.shell.afterPipe.afterFork line seg (l.shell.lastPid + 1)
              l.shell.writeEnd l.shell.fds.lowestFree stdoutFd stdinFd)
            hlast'
            (fun n hn => by
              rw [fds_spawned, Shell.fds_afterFork, FdTable.IsOpen, hkeep (hlow n hn)]
              exact hlow n hn)
            l.shell.get_afterPipe_lowestFree
            ((hkeep (by simp [FdTable.IsOpen, hout])).trans hout)
        refine ⟨l', ⟨l.shell.lastPid + 1, childFds l.shell.afterPipe.fds l.prevReadFd
          l.shell.writeEnd, segToArgs line seg⟩ :: children, ?_, ?_, hdisp, ?_, ?_, ?_⟩
        · rw [launchAll]
          simp only [List.isEmpty_cons, spawnSegment_pipe hseg (hok _) (hok _)]
          exact hl'
        · rw [hforked]
          exact (List.append_assoc _ _ _)
        · simp only [List.map_cons, hargs]
          simp [hseg]
        · rw [List.map_cons, hpids, List.length_cons, List.range'_succ]
          rfl
        · cases children with
          | nil => exact hwired.elim
          | cons c children =>
            exact ⟨by simp [hget], _, by simp [hget], hwired⟩

/-! ### The redirections -/

/-- What the two redirections may have changed. -/
def Shell.OpenedFrom (s s' : Shell σ) : Prop :=
  (∀ n, s.fds.IsOpen n → s'.fds.get n = s.fds.get n) ∧ s'.forked = s.forked ∧
    s'.dispatched = s.dispatched ∧ s'.lastPid = s.lastPid

/-- The output of the pipeline, opened. -/
theorem openStdout_ok (line : Bytes) (hok : ∀ n, answers n = none) {s : Shell σ} (p : Pipeline)
    (hlow : ∀ n, n < 3 → s.fds.IsOpen n) :
    ∃ fd s', openStdout answers line p s = (.ok fd, s') ∧ fd ≠ 0 ∧
      s'.fds.get fd = p.output line s ∧ s.OpenedFrom s' := by
  unfold openStdout Pipeline.output
  split
  · rw [Shell.sysOpen_ok (hok _)]
    refine ⟨_, _, rfl, ?_, ?_, fun n hn => FdTable.get_alloc_of_isOpen hn, rfl, rfl, rfl⟩
    · have := FdTable.le_lowestFree.mpr hlow
      omega
    · rw [FdTable.get_alloc, if_pos rfl]
  · exact ⟨1, s, rfl, by omega, rfl, fun _ _ => rfl, rfl, rfl, rfl⟩

/-- The input of the pipeline, opened. -/
theorem openStdin_ok (line : Bytes) (hok : ∀ n, answers n = none) (s : Shell σ) (p : Pipeline) :
    ∃ fd s', openStdin answers line p s = (.ok fd, s') ∧
      s'.fds.get fd = p.input line s ∧ s.OpenedFrom s' := by
  unfold openStdin Pipeline.input
  split
  · rw [Shell.sysOpen_ok (hok _)]
    refine ⟨_, _, rfl, ?_, fun n hn => FdTable.get_alloc_of_isOpen hn, rfl, rfl, rfl⟩
    rw [FdTable.get_alloc, if_pos rfl]
  · exact ⟨0, s, rfl, rfl, fun _ _ => rfl, rfl, rfl, rfl⟩

/-! ### The whole run -/

/-- A pipeline that is not run in-process goes through the segment loop. -/
theorem execute_of_not_isInprocess {commands : Commands σ} {p : Pipeline} {s : Shell σ}
    (h : p.isInprocess line = false) :
    execute commands answers line p s = executeRedirected commands answers line p s.jobReap := by
  rw [execute]
  rw [Pipeline.isInprocess] at h
  split
  · rename_i seg hsegs
    rw [hsegs] at h
    simp only [decide_eq_false_iff_not, not_or] at h
    rw [if_neg h.1]
  · rfl

/-- A pipeline that is not a single builtin takes the loop. -/
theorem executeOpened_of_not_isInprocess {commands : Commands σ} {p : Pipeline} {s : Shell σ}
    (h : p.isInprocess line = false)
    (hlast : ∃ seg, p.segments.getLast? = some seg ∧ seg ≠ []) :
    executeOpened commands answers line p stdoutFd stdinFd s
      = some (executeLoop answers line p stdoutFd stdinFd s) := by
  rw [executeOpened]
  rw [Pipeline.isInprocess] at h
  split
  · rename_i hsegs
    simp [hsegs] at hlast
  · rename_i a args hsegs
    rw [if_neg fun hb => by simp [hsegs, hb] at h]
  · rfl

/-- The input and the output of a pipeline are there when 0 and 1 are open. -/
theorem Pipeline.exists_input (line : Bytes) (p : Pipeline) {s : Shell σ}
    (hlow : ∀ n, n < 3 → s.fds.IsOpen n) : ∃ d, p.input line s = some d := by
  rw [input]
  split
  · exact ⟨_, rfl⟩
  · exact Option.isSome_iff_exists.mp (hlow 0 (by omega))

/-- The last child has a standard output: the target, or what the shell itself has. -/
theorem Pipeline.exists_output (line : Bytes) (p : Pipeline) {s : Shell σ}
    (hlow : ∀ n, n < 3 → s.fds.IsOpen n) : ∃ d, p.output line s = some d := by
  rw [output]
  split
  · exact ⟨_, rfl⟩
  · exact Option.isSome_iff_exists.mp (hlow 1 (by omega))

/-- The input of a pipeline does not depend on what was opened before it. -/
theorem Pipeline.input_of_openedFrom {line : Bytes} {p : Pipeline} {s s' : Shell σ}
    (h : s.OpenedFrom s') (h0 : s.fds.IsOpen 0) : p.input line s' = p.input line s := by
  unfold input
  rw [h.1 0 h0]

/-- `execute` from the redirections on, when every call succeeds: both files are open, and
the segment loop runs between them. -/
theorem executeRedirected_ok (commands : Commands σ) (hok : ∀ n, answers n = none)
    {p : Pipeline} {s : Shell σ} (hlow : ∀ n, n < 3 → s.fds.IsOpen n)
    (hprocess : p.isInprocess line = false)
    (hlast : ∃ seg, p.segments.getLast? = some seg ∧ seg ≠ []) :
    ∃ out inp s', executeRedirected commands answers line p s
        = some (executeLoop answers line p out inp s') ∧
      out ≠ 0 ∧ s'.fds.get out = p.output line s ∧ s'.fds.get inp = p.input line s ∧
      s.OpenedFrom s' := by
  obtain ⟨out, s1, hout, hout0, houtGet, hopened1⟩ := openStdout_ok line hok p hlow
  obtain ⟨inp, s2, hinp, hinpGet, hopened2⟩ := openStdin_ok line hok s1 p
  obtain ⟨d, hd⟩ := p.exists_output line hlow
  refine ⟨out, inp, s2, ?_, hout0, ?_, ?_, ?_⟩
  · simp only [executeRedirected, hout, hinp]
    exact executeOpened_of_not_isInprocess hprocess hlast
  · -- Opening the input leaves the output where it is.
    rw [hopened2.1 out (by rw [FdTable.IsOpen, houtGet, hd]; rfl), houtGet]
  · rw [hinpGet, Pipeline.input_of_openedFrom hopened1 (hlow 0 (by omega))]
  · obtain ⟨hk1, hf1, hd1, hl1⟩ := hopened1
    obtain ⟨hk2, hf2, hd2, hl2⟩ := hopened2
    refine ⟨?_, hf2.trans hf1, hd2.trans hd1, hl2.trans hl1⟩
    intro n hn
    rw [hk2 n (by rw [FdTable.IsOpen, hk1 n hn]; exact hn), hk1 n hn]

/-- **The wiring of a pipeline**: when no call fails and the standard descriptors are open, each
command is started once, in a child of its own and in order, and the children form the chain from
the pipeline's input to its output. A child is described by what its descriptors 0 and 1 are open
on. `launchAll_wired` is the induction over the segments, from the object at which the chain has
arrived; what stands around the loop, reaping, redirections and waits, changes nothing that a
child gets. -/
theorem execute_wired (commands : Commands σ) (answers : Answers) (line : Bytes) (s : Shell σ)
    (hok : ∀ n, answers n = none) (hlow : ∀ n, n < 3 → s.fds.IsOpen n)
    (hlast : ∃ seg, (parse line).segments.getLast? = some seg ∧ seg ≠ [])
    (hprocess : (parse line).isInprocess line = false) :
    ∃ s' children, execute commands answers line (parse line) s = some s' ∧
      s'.forked = s.forked ++ children ∧ s'.dispatched = s.dispatched ∧
      children.map Child.args = (parse line).commands.map (segToArgs line) ∧
      (children.map Child.pid).Nodup ∧
      Wired ((parse line).input line s) ((parse line).output line s) children := by
  have hlow' : ∀ n, n < 3 → s.jobReap.fds.IsOpen n := by simpa using hlow
  -- `execute` reaps first, which touches no descriptor.
  have hreap : s.OpenedFrom s.jobReap := ⟨fun n _ => by simp, by simp, by simp, by simp⟩
  obtain ⟨out, inp, s1, hexec, hout0, hout, hinp, hkeep, hforked, hdisp, -⟩ :=
    executeRedirected_ok commands hok hlow' hprocess hlast
  obtain ⟨dout, hdout⟩ := (parse line).exists_output line hlow'
  obtain ⟨dinp, hdinp⟩ := (parse line).exists_input line hlow'
  rw [hdout] at hout
  rw [hdinp] at hinp
  -- The loop starts at the input of the pipeline.
  obtain ⟨l, children, hl, hforked', hdisp', hargs, hpids, hwired⟩ :=
    launchAll_wired line inp hok (l := ⟨s1, inp, 0, [], []⟩) hlast
      (fun n hn => by rw [FdTable.IsOpen, hkeep n (hlow' n hn)]; exact hlow' n hn) hinp hout hout0
  obtain ⟨-, hforked'', hdisp'', -⟩ := finishLaunch_frame (parse line).background l
  refine ⟨finishLaunch (parse line).background l, children, ?_, ?_, ?_, hargs, ?_, ?_⟩
  · rw [execute_of_not_isInprocess hprocess, hexec, executeLoop, hl, launchResult]
  · rw [hforked'', hforked', hforked, Shell.forked_jobReap]
  · rw [hdisp'', hdisp', hdisp, Shell.dispatched_jobReap]
  · rw [hpids]
    exact List.nodup_range'
  · rw [← Pipeline.input_of_openedFrom hreap (hlow 0 (by omega)), hdinp,
      show (parse line).output line s = (parse line).output line s.jobReap by
        simp [Pipeline.output], hdout]
    exact hwired

/-- `ls | wc > f` from a fresh shell: the chain goes from the terminal to the file. -/
theorem execute_wired_ls_wc :
    ∃ s' children, execute Commands.idle (fun _ => none) (bytes "ls | wc > f")
        (parse (bytes "ls | wc > f")) (Shell.init ()) = some s' ∧
      s'.forked = (Shell.init ()).forked ++ children ∧ s'.dispatched = (Shell.init ()).dispatched ∧
      children.map Child.args = [[bytes "ls"], [bytes "wc"]] ∧
      (children.map Child.pid).Nodup ∧
      Wired (some (.object 0)) (some (.file (bytes "f") OUT_FLAGS)) children := by
  have h := execute_wired Commands.idle (fun _ => none) (bytes "ls | wc > f") (Shell.init ())
    (fun _ => rfl) (by decide) ⟨[(5, 2)], by decide +kernel, by decide⟩ (by decide +kernel)
  have hargs : (parse (bytes "ls | wc > f")).commands.map (segToArgs (bytes "ls | wc > f"))
      = [[bytes "ls"], [bytes "wc"]] := by decide +kernel
  have hinp : (parse (bytes "ls | wc > f")).input (bytes "ls | wc > f") (Shell.init ())
      = some (.object 0) := by decide +kernel
  have hout : (parse (bytes "ls | wc > f")).output (bytes "ls | wc > f") (Shell.init ())
      = some (.file (bytes "f") OUT_FLAGS) := by decide +kernel
  rwa [hargs, hinp, hout] at h

end OnyxShell
