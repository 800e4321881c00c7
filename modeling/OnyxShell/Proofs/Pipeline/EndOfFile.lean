import OnyxShell.Proofs.Pipeline.Wiring

/-!
# `OnyxShell.Proofs.Pipeline.EndOfFile`: who can write to a pipe

The shell closes its pipe ends behind the segment loop, so each child inherits the write
end of the pipe it reads. `execute_not_soleWriter` says that this happens in every
pipeline of two or more commands: the child of the last one holds a write end of its own
input, from any descriptors the shell started with.
-/

set_option autoImplicit false

namespace OnyxShell

variable {σ : Type} {answers : Answers} {line : Bytes} {stdoutFd stdinFd : Nat}

/-- The write end of a pipe is open in the shell, where a child that writes to `stdoutFd`
does not replace it. -/
def KeepsWriteEnd (stdoutFd : Nat) (s : Shell σ) (pipe : Nat) : Prop :=
  ∃ fd, s.fds.get fd = some (.pipeWrite pipe) ∧ fd ≠ 0 ∧ (fd = 1 → stdoutFd = 1)

/-- The write end of a new pipe is kept. At 1 it can only be when 0 was free, and then no
output file has been opened. -/
theorem keepsWriteEnd_afterPipe {s : Shell σ} (h : stdoutFd = 1 ∨ s.fds.IsOpen 0) :
    KeepsWriteEnd stdoutFd s.afterPipe s.pipes := by
  have hlt : s.fds.lowestFree < s.writeEnd := FdTable.lowestFree_lt_alloc _ _
  refine ⟨s.writeEnd, s.get_afterPipe_writeEnd, by omega, fun h1 => ?_⟩
  rcases h with h | h
  · exact h
  · have h0 : s.fds.lowestFree = 0 := by omega
    have := FdTable.not_isOpen_lowestFree s.fds
    rw [h0] at this
    exact absurd h this

/-- The last child of the segment loop holds the write end of the last pipe. -/
theorem launchAll_last_holds (line : Bytes) (stdinFd : Nat) (hok : ∀ n, answers n = none)
    {segs : List Segment} {l : Launch σ} (pipe : Nat) (hne : segs ≠ []) (hsegs : ∀ seg ∈ segs, seg ≠ [])
    (hpipes : l.shell.pipes = pipe + 1) (hkeeps : KeepsWriteEnd stdoutFd l.shell pipe)
    (hout : stdoutFd = 1 ∨ l.shell.fds.IsOpen 0) :
    ∃ l' children c, launchAll answers line stdoutFd stdinFd segs l = .ok l' ∧
      l'.shell.forked = l.shell.forked ++ (children ++ [c]) ∧ children.length + 1 = segs.length ∧
      HoldsWriteEnd c.fds (pipe + children.length) := by
  induction segs generalizing l pipe with
  | nil => exact absurd rfl hne
  | cons seg rest ih =>
    have hseg := hsegs seg List.mem_cons_self
    cases rest with
    | nil =>
      obtain ⟨fd, hfd, h0, h1⟩ := hkeeps
      refine ⟨l.spawned l.shell.afterFork line seg (l.shell.lastPid + 1) stdoutFd l.prevReadFd
        stdoutFd stdinFd, [], ⟨l.shell.lastPid + 1, childFds l.shell.fds l.prevReadFd stdoutFd,
        segToArgs line seg⟩, ?_, rfl, rfl, fd, childFds_keep hfd h0 h1⟩
      simp only [launchAll, List.isEmpty_nil, spawnSegment_last hseg (hok _)]
    | cons next rest =>
      -- The pipe of this turn is the one the rest of the loop starts from.
      obtain ⟨l', children, c, hl', hforked, hlen, hholds⟩ :=
        ih (l := l.spawned l.shell.afterPipe.afterFork line seg (l.shell.lastPid + 1)
            l.shell.writeEnd l.shell.fds.lowestFree stdoutFd stdinFd) (pipe + 1)
          (List.cons_ne_nil _ _) (fun seg' h => hsegs seg' (List.mem_cons_of_mem _ h))
          (by rw [← hpipes]; rfl) (by rw [← hpipes]; exact keepsWriteEnd_afterPipe hout)
          (Or.inr (FdTable.isOpen_alloc.mpr (Or.inr (FdTable.isOpen_zero_alloc _ _))))
      refine ⟨l', ⟨l.shell.lastPid + 1, childFds l.shell.afterPipe.fds l.prevReadFd
        l.shell.writeEnd, segToArgs line seg⟩ :: children, c, ?_, ?_, ?_, ?_⟩
      · rw [launchAll]
        simp only [List.isEmpty_cons, spawnSegment_pipe hseg (hok _) (hok _)]
        exact hl'
      · rw [hforked]
        exact List.append_assoc _ _ _
      · simpa using hlen
      · rw [List.length_cons, show pipe + (children.length + 1) = pipe + 1 + children.length by omega]
        exact hholds

/-- Two redirections that open: without an output file the output is 1, and with one the
number 0 is taken. -/
theorem openRedirects_ok (line : Bytes) (hok : ∀ n, answers n = none) (p : Pipeline) (s : Shell σ) :
    ∃ out inp s1 s2, openStdout answers line p s = (.ok out, s1) ∧
      openStdin answers line p s1 = (.ok inp, s2) ∧ (out = 1 ∨ s2.fds.IsOpen 0) ∧
      s2.forked = s.forked ∧ s2.pipes = s.pipes := by
  have hopen : ∀ (s : Shell σ) (path : Bytes) (flags : Nat), ∃ fd s', s.sysOpen answers path flags
      = (.ok fd, s') ∧ s'.fds.IsOpen 0 ∧ s'.forked = s.forked ∧ s'.pipes = s.pipes := by
    intro s path flags
    rw [Shell.sysOpen_ok (hok _)]
    exact ⟨_, _, rfl, FdTable.isOpen_zero_alloc _ _, rfl, rfl⟩
  have hout : ∃ out s1, openStdout answers line p s = (.ok out, s1) ∧
      (out = 1 ∨ s1.fds.IsOpen 0) ∧ s1.forked = s.forked ∧ s1.pipes = s.pipes := by
    rw [openStdout]
    split
    · obtain ⟨fd, s1, h, h0, hf, hp⟩ := hopen s (redirectPath line p.stdoutFile) OUT_FLAGS
      exact ⟨fd, s1, h, Or.inr h0, hf, hp⟩
    · exact ⟨1, s, rfl, Or.inl rfl, rfl, rfl⟩
  obtain ⟨out, s1, hout, h0, hf1, hp1⟩ := hout
  unfold openStdin
  split
  · obtain ⟨inp, s2, h, h0', hf2, hp2⟩ := hopen s1 (redirectPath line p.stdinFile) O_RDONLY
    exact ⟨out, inp, s1, s2, hout, h, Or.inr h0', hf2.trans hf1, hp2.trans hp1⟩
  · exact ⟨out, 0, s1, s1, hout, rfl, h0, hf1, hp1⟩

/-- **End of file does not reach the last reader**: in every pipeline of two or more commands,
with every call succeeding, the child of the last command inherits the write end of the pipe it
reads, so no pipe of the last pair has a sole writer. The parent closes its pipe ends behind the
loop only, so that a child that is forked later inherits them. `launchAll_last_holds` carries one
such end along the loop up to the last child. -/
theorem execute_not_soleWriter (commands : Commands σ) (answers : Answers) (line : Bytes)
    (s : Shell σ) (hok : ∀ n, answers n = none) (htwo : 2 ≤ (parse line).segments.length)
    (hsegs : ∀ seg ∈ (parse line).segments, seg ≠ []) :
    ∃ s' children, execute commands answers line (parse line) s = some s' ∧
      s'.forked = s.forked ++ children ∧ children.length = (parse line).segments.length ∧
      ¬ ∀ k, k + 1 < children.length → SoleWriter s'.fds children k (s.pipes + k) := by
  obtain ⟨seg, next, rest, hcons⟩ : ∃ seg next rest, (parse line).segments = seg :: next :: rest := by
    rcases h : (parse line).segments with _ | ⟨seg, _ | ⟨next, rest⟩⟩
    · simp [h] at htwo
    · simp [h] at htwo
    · exact ⟨seg, next, rest, rfl⟩
  obtain ⟨out, inp, s1, s2, hout, hinp, h0, hforked, hpipes⟩ :=
    openRedirects_ok line hok (parse line) s.jobReap
  -- The first command writes the first pipe, and the rest of the loop starts from it.
  have hseg : seg ≠ [] := hsegs seg (by simp [hcons])
  obtain ⟨l', children, c, hl', hforked', hlen, hholds⟩ :=
    launchAll_last_holds line inp hok
      (l := (⟨s2, inp, 0, [], []⟩ : Launch σ).spawned s2.afterPipe.afterFork line seg
        (s2.lastPid + 1) s2.writeEnd s2.fds.lowestFree out inp) s2.pipes (List.cons_ne_nil next rest)
      (fun seg' h => hsegs seg' (by simp [hcons] at h ⊢; tauto)) rfl (keepsWriteEnd_afterPipe h0)
      (Or.inr (FdTable.isOpen_alloc.mpr (Or.inr (FdTable.isOpen_zero_alloc _ _))))
  have hlaunch : launchAll answers line out inp (parse line).segments ⟨s2, inp, 0, [], []⟩ = .ok l' := by
    rw [hcons, launchAll]
    simp only [List.isEmpty_cons, spawnSegment_pipe (l := (⟨s2, inp, 0, [], []⟩ : Launch σ)) hseg
      (hok _) (hok _)]
    exact hl'
  have hexec : execute commands answers line (parse line) s
      = some (finishLaunch (parse line).background l') := by
    have hone : execute commands answers line (parse line) s
        = executeRedirected commands answers line (parse line) s.jobReap := by
      simp only [execute, hcons]
    rw [hone]
    simp only [executeRedirected, hout, hinp, executeOpened, hcons]
    rw [executeLoop, hlaunch, launchResult]
  obtain ⟨-, hfinish, -, -⟩ := finishLaunch_frame (parse line).background l'
  refine ⟨_, ⟨s2.lastPid + 1, childFds s2.afterPipe.fds inp s2.writeEnd, segToArgs line seg⟩ ::
    (children ++ [c]), hexec, ?_, ?_, ?_⟩
  · rw [hfinish, hforked']
    simp [Launch.spawned, Shell.start, Shell.afterPipe, Shell.afterFork, hforked]
  · rw [hcons]
    simpa using hlen
  · intro h
    obtain ⟨-, -, hothers⟩ := h children.length (by simp)
    refine hothers (children.length + 1) c (by simp) (by omega) ?_
    rwa [hpipes, Shell.pipes_jobReap] at hholds

/-- `ls | wc`: the child for `wc` holds the writing end of the pipe that it reads. -/
theorem execute_not_soleWriter_ls_wc :
    ∃ s' children, execute Commands.idle (fun _ => none) (bytes "ls | wc") (parse (bytes "ls | wc"))
        (Shell.init ()) = some s' ∧
      s'.forked = [] ++ children ∧
      children.length = (parse (bytes "ls | wc")).segments.length ∧
      ¬ ∀ k, k + 1 < children.length → SoleWriter s'.fds children k (0 + k) :=
  execute_not_soleWriter Commands.idle (fun _ => none) (bytes "ls | wc") (Shell.init ())
    (fun _ => rfl) (by decide +kernel) (by decide +kernel)

/-- In `ls | wc` the child of `wc` holds the write end of its own input at 4. -/
theorem not_soleWriter_ls_wc :
    ¬ ∀ s', execute Commands.idle (fun _ => none) (bytes "ls | wc") (parse (bytes "ls | wc"))
        (Shell.init ()) = some s' →
      ∀ k, k + 1 < s'.forked.length → SoleWriter s'.fds s'.forked k k := by
  intro h
  have hrun : (execute Commands.idle (fun _ => none) (bytes "ls | wc") (parse (bytes "ls | wc"))
      (Shell.init ())).map (fun s => s.forked.map fun c => (c.args, c.fds.get 4))
      = some [([bytes "ls"], some (.pipeWrite 0)), ([bytes "wc"], some (.pipeWrite 0))] := by
    decide +kernel
  obtain ⟨s', hs', hforked⟩ := Option.map_eq_some_iff.mp hrun
  obtain ⟨c0, rest, hc, -, hrest⟩ := List.map_eq_cons_iff.mp hforked
  obtain ⟨c1, rest, rfl, h1, -⟩ := List.map_eq_cons_iff.mp hrest
  obtain ⟨-, -, hothers⟩ := h s' hs' 0 (by simp [hc])
  refine hothers 1 c1 (by simp [hc]) (by omega) ⟨4, ?_⟩
  exact congrArg Prod.snd h1

end OnyxShell
