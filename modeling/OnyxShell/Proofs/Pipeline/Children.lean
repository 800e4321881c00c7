import OnyxShell.Proofs.Pipeline.Exec
import OnyxShell.Commands.JobControl

/-!
# `OnyxShell.Proofs.Pipeline.Children`: what the executor does with children

`Children` is the part of the shell process that its children and their jobs are in, and
`Moves` says all that one call can do with it: make children and wait for some of the new
ones (`forks`), enter a new child as a job (`background`), or wait for a job and take it out
(`foreground`). `moves_execute` and `moves_dispatch` say that `execute` and `dispatch` reap
and then make one such move.
-/

set_option autoImplicit false

namespace OnyxShell

variable {σ : Type} {answers : Answers} {line : Bytes} {stdoutFd stdinFd : Nat}

/-- What the shell process knows of its children. -/
structure Children where
  jobs : Jobs
  ended : List Nat
  lastPid : Nat
  waited : List Nat

/-- The children of a shell. -/
def Shell.children (s : Shell σ) : Children := ⟨s.jobs, s.ended, s.lastPid, s.waited⟩

namespace Children

/-- What `job_reap` does. -/
def reap (c : Children) : Children :=
  { c with jobs := c.ended.foldl (fun jobs (pid : Nat) => (jobs.remove pid).2) c.jobs, ended := [] }

/-- What making children does. -/
def upTo (c : Children) (n : Nat) : Children := { c with lastPid := n }

/-- What waiting for some children does. -/
def waitFor (c : Children) (pids : List Nat) : Children :=
  { c with waited := c.waited ++ pids, ended := pids.foldl List.erase c.ended }

/-- What `job_add` does. -/
def addJob (c : Children) (pid : Nat) : Children :=
  { c with jobs := (c.jobs.jobAdd (toI32 pid)).2 }

/-- What taking a job out does. -/
def dropJob (c : Children) (id : Nat) : Children := { c with jobs := (c.jobs.removeById id).2 }

/-- What one call can do with the children. -/
inductive Moves (c : Children) : Children → Prop
  | forks (n : Nat) (pids : List Nat) (le : c.lastPid ≤ n)
      (new : ∀ pid ∈ pids, c.lastPid < pid ∧ pid ≤ n) : Moves c ((c.upTo n).waitFor pids)
  | background (n : Nat) (lt : c.lastPid < n) : Moves c ((c.upTo n).addJob n)
  | foreground (job : Job) (found : c.jobs.findById job.id = some job) :
      Moves c ((c.waitFor [asU64 job.pid]).dropJob job.id)

/-- Making children is a move. -/
theorem Moves.upTo {c : Children} {n : Nat} (le : c.lastPid ≤ n) : Moves c (c.upTo n) := by
  have h := Moves.forks (c := c) n [] le (fun pid hpid => absurd hpid List.not_mem_nil)
  rw [waitFor, List.append_nil] at h
  exact h

/-- Doing nothing is a move. -/
theorem Moves.refl (c : Children) : Moves c c := Moves.upTo (Nat.le_refl c.lastPid)

end Children

namespace Shell

section Frame

variable (s : Shell σ) (r : Report) (c : Child) (fd pid : Nat)

/-- A report has nothing to do with the jobs, the processes that have ended, the last process id
and the waits. The lemmas here say how each operation acts on these four. -/
@[simp] theorem children_report : (s.report r).children = s.children := rfl
/-- What a child was started with is no part of `children`. Its process id is, and `fork` has
given that out already. -/
@[simp] theorem children_start : (s.start c).children = s.children := rfl
/-- Closing a descriptor does not touch the children. -/
@[simp] theorem children_close : (s.close fd).children = s.children := rfl
/-- Entering a job changes the job table only. -/
@[simp] theorem children_jobAdd : (s.jobAdd pid).children = s.children.addJob pid := rfl
/-- Waiting for one process is waiting for a list of one. -/
@[simp] theorem children_waitpid : (s.waitpid pid).children = s.children.waitFor [pid] := rfl

/-- The guarded `close` does not touch the children. -/
@[simp] theorem children_closeAboveTwo : (s.closeAboveTwo fd).children = s.children := by
  rw [closeAboveTwo]
  split <;> rfl

/-- A refused `fork` does not touch the children. -/
@[simp] theorem children_forkFailed (ret : Int) (r w : Nat) :
    (s.forkFailed ret r w stdinFd).children = s.children := by
  rw [forkFailed]
  split <;> simp

/-- Closing the parent's ends, by induction on the list. -/
@[simp] theorem children_closeParent (parentClose : List (Option Nat)) :
    (closeParent parentClose s).children = s.children := by
  rcases closeParent_eq parentClose s with ⟨fds, h⟩
  rw [h]
  rfl

/-- Waiting for one child after another, by induction on the list of their process ids. -/
@[simp] theorem children_foldl_waitpid (pids : List Nat) :
    (pids.foldl waitpid s).children = s.children.waitFor pids := by
  induction pids generalizing s with
  | nil =>
    show s.children = { s.children with waited := s.waited ++ [] }
    rw [List.append_nil]
    rfl
  | cons pid pids ih =>
    rw [List.foldl_cons, ih]
    show Children.mk _ _ _ (s.waited ++ [pid] ++ pids) = Children.mk _ _ _ (s.waited ++ pid :: pids)
    rw [List.append_assoc]
    rfl

/-- The table is left as it is for a child that is no job. -/
theorem children_reapOne :
    (s.reapOne pid).children = { s.children with jobs := (s.jobs.remove pid).2 } := by
  rw [reapOne]
  split
  · rename_i jobs h
    have hfind : s.jobs.table.find? (·.pid = (pid : Int)) = none := congrArg Prod.fst h
    have hsame : s.jobs.table.eraseP (·.pid = (pid : Int)) = s.jobs.table :=
      List.eraseP_of_forall_not (List.find?_eq_none.mp hfind)
    have hremove : (s.jobs.remove pid).2 = s.jobs := by
      rw [Jobs.remove]
      simp only [hsame]
    rw [hremove]
    rfl
  · rename_i job jobs h
    rw [h]
    rfl

/-- Reaping takes the ended children out of the job table, one after the other. -/
@[simp] theorem children_jobReap : s.jobReap.children = s.children.reap := by
  have hfold : ∀ (pids : List Nat) (s : Shell σ), (pids.foldl reapOne s).children
      = { s.children with
          jobs := pids.foldl (fun jobs (pid : Nat) => (jobs.remove pid).2) s.children.jobs } := by
    intro pids
    induction pids with
    | nil =>
      intro s
      rfl
    | cons pid pids ih =>
      intro s
      rw [List.foldl_cons, ih, children_reapOne]
      rfl
  show { (s.ended.foldl reapOne s).children with ended := [] } = _
  rw [hfold]
  rfl

end Frame

/-- A `fork` makes the next child, or none. -/
theorem fork_cases (answers : Answers) (s : Shell σ) :
    (∃ e s', s.fork answers = (.error e, s') ∧ s'.children = s.children) ∨
    ∃ s', s.fork answers = (.ok (s.lastPid + 1), s') ∧
      s'.children = s.children.upTo (s.lastPid + 1) := by
  rw [fork]
  split
  · exact Or.inl ⟨_, _, rfl, rfl⟩
  · exact Or.inr ⟨_, rfl, rfl⟩

end Shell

open Children (Moves)

/-- The pipe in front of a segment does not touch the children, whether it is refused or not. -/
theorem children_segmentPipe (answers : Answers) (isLast : Bool) (stdoutFd : Nat) (l : Launch σ) :
    (segmentPipe answers isLast stdoutFd l).2.children = l.shell.children := by
  rcases segmentPipe_frame answers isLast stdoutFd l with ⟨fds, calls, pipes, hframe⟩
  rw [hframe]
  rfl

/-! ### The segment loop -/

/-- The loop has made some children, waited for none, and the last one it has noted is the
last one made. -/
structure LaunchFrom (c : Children) (l : Launch σ) : Prop where
  children : l.shell.children = c.upTo l.shell.lastPid
  le : c.lastPid ≤ l.shell.lastPid
  spawned : ∀ pid ∈ l.spawnedPids, c.lastPid < pid ∧ pid ≤ l.shell.lastPid
  last : l.lastPid > 0 → l.lastPid = l.shell.lastPid ∧ c.lastPid < l.lastPid

/-- Some children have been made. -/
def Forks (c : Children) (s : Shell σ) : Prop := s.children = c.upTo s.lastPid ∧ c.lastPid ≤ s.lastPid

/-- The launch begins with no children of its own. -/
theorem launchFrom_start (s : Shell σ) (stdinFd : Nat) :
    LaunchFrom s.children ⟨s, stdinFd, 0, [], []⟩ :=
  ⟨rfl, Nat.le_refl _, fun _ h => absurd h List.not_mem_nil, fun h => absurd h (Nat.lt_irrefl 0)⟩

/-- One turn of the loop makes the next child, or none and leaves the loop. -/
theorem launchFrom_spawnSegment (answers : Answers) (line : Bytes) (stdoutFd stdinFd : Nat)
    {c : Children} {l : Launch σ} (h : LaunchFrom c l) (seg : Segment) (isLast : Bool) :
    (∃ s, spawnSegment answers line stdoutFd stdinFd seg isLast l = .error s ∧ Forks c s) ∨
    ∃ l', spawnSegment answers line stdoutFd stdinFd seg isLast l = .ok l' ∧ LaunchFrom c l' := by
  have hpipe := children_segmentPipe answers isLast stdoutFd l
  have hsame : ∀ s : Shell σ, s.children = l.shell.children → Forks c s := by
    intro s hs
    have hlast : s.lastPid = l.shell.lastPid := congrArg Children.lastPid hs
    rw [Forks, hs, hlast]
    exact ⟨h.children, h.le⟩
  rw [spawnSegment]
  split
  · exact Or.inr ⟨l, rfl, h⟩
  · split
    · rename_i s heq
      rw [heq] at hpipe
      exact Or.inl ⟨_, rfl, hsame _ hpipe⟩
    · rename_i curWriteFd prevReadFd s heq
      rw [heq] at hpipe
      have hlast : s.lastPid = l.shell.lastPid := congrArg Children.lastPid hpipe
      rcases s.fork_cases answers with ⟨e, s', hfork, hchildren⟩ | ⟨s', hfork, hchildren⟩
      · rw [hfork]
        refine Or.inl ⟨_, rfl, hsame _ ?_⟩
        rw [Shell.children_forkFailed, hchildren, hpipe]
      · rw [hfork]
        refine Or.inr ⟨_, rfl, ?_⟩
        -- The new child has the next pid.
        have hpid : s'.lastPid = l.shell.lastPid + 1 := by
          rw [← hlast]
          exact congrArg Children.lastPid hchildren
        have hle := h.le
        constructor
        case children =>
          show s'.children = c.upTo s'.lastPid
          rw [hchildren, hpipe, h.children, hpid, hlast]
          rfl
        case le =>
          show c.lastPid ≤ s'.lastPid
          omega
        case spawned =>
          intro pid hmem
          show c.lastPid < pid ∧ pid ≤ s'.lastPid
          rcases List.mem_append.mp hmem with hmem | hmem
          · have := h.spawned pid hmem
            omega
          · rw [List.mem_singleton.mp hmem]
            omega
        case last =>
          intro _
          show s.lastPid + 1 = s'.lastPid ∧ c.lastPid < s.lastPid + 1
          omega

/-- The segment loop makes children. -/
theorem launchFrom_launchAll (answers : Answers) (line : Bytes) (stdoutFd stdinFd : Nat)
    {c : Children} (segs : List Segment) {l : Launch σ} (h : LaunchFrom c l) :
    (∃ s, launchAll answers line stdoutFd stdinFd segs l = .error s ∧ Forks c s) ∨
    ∃ l', launchAll answers line stdoutFd stdinFd segs l = .ok l' ∧ LaunchFrom c l' := by
  induction segs generalizing l with
  | nil => exact Or.inr ⟨l, rfl, h⟩
  | cons seg rest ih =>
    rw [launchAll]
    rcases launchFrom_spawnSegment answers line stdoutFd stdinFd h seg rest.isEmpty with
      ⟨s, hspawn, hforks⟩ | ⟨l', hspawn, hl'⟩
    · rw [hspawn]
      exact Or.inl ⟨s, rfl, hforks⟩
    · rw [hspawn]
      exact ih hl'

/-- Behind the loop the shell waits for the new children, or enters the last one as a job. -/
theorem moves_finishLaunch {c : Children} {l : Launch σ} (h : LaunchFrom c l) (background : Bool) :
    Moves c (finishLaunch background l).children := by
  have hclose : (closeParent l.parentClose l.shell).children = c.upTo l.shell.lastPid := by
    rw [Shell.children_closeParent, h.children]
  rw [finishLaunch]
  cases background with
  | false =>
    simp only [Bool.false_eq_true, if_false, false_and, Shell.children_foldl_waitpid, hclose]
    exact Moves.forks _ _ h.le h.spawned
  | true =>
    simp only [if_true, true_and]
    split
    · rename_i hpid
      rcases h.last hpid with ⟨hlast, hlt⟩
      rw [Shell.children_jobAdd, hclose, ← hlast]
      exact Moves.background _ hlt
    · rw [hclose]
      exact Moves.upTo h.le

/-- The loop moves the children by one of the allowed moves: the waits of a foreground pipeline,
or the entry of a background one. -/
theorem moves_executeLoop (answers : Answers) (line : Bytes) (p : Pipeline) (stdoutFd stdinFd : Nat)
    (s : Shell σ) : Moves s.children (executeLoop answers line p stdoutFd stdinFd s).children := by
  rw [executeLoop]
  rcases launchFrom_launchAll answers line stdoutFd stdinFd p.segments
    (launchFrom_start s stdinFd) with
    ⟨s', hlaunch, hchildren, hle⟩ | ⟨l', hlaunch, hl'⟩
  · rw [hlaunch]
    show Moves s.children s'.children
    rw [hchildren]
    exact Moves.upTo hle
  · rw [hlaunch]
    exact moves_finishLaunch hl' p.background

/-! ### The whole call -/

/-- The commands that are no in-process builtins make one move each. -/
def Commands.MoveOnce (commands : Commands σ) : Prop :=
  ∀ args s s', commands.other args s = some s' → Moves s.children s'.children

variable {commands : Commands σ} {s s' : Shell σ}

/-- `dispatch` reaps, and its command makes one move. -/
theorem moves_dispatch (hcommands : commands.MoveOnce) {args : List Bytes}
    (h : dispatch commands args s = some s') : Moves s.children.reap s'.children := by
  rw [← s.children_jobReap]
  unfold dispatch at h
  split at h
  · cases h
    exact Moves.refl _
  · simp only at h
    split at h
    · cases h
    · split at h
      · cases h
        exact Moves.refl _
      · have hmove := hcommands _ _ _ h
        exact hmove

/-- A single command without redirections, run in the shell itself, or in a child that becomes a
job. -/
theorem moves_executePlain (hcommands : commands.MoveOnce) {seg : Segment} {background : Bool}
    (hreap : s.children.reap = s.children)
    (h : executePlain commands answers line seg background s = some s') :
    Moves s.children s'.children := by
  rw [executePlain] at h
  split at h
  · cases h
    exact Moves.refl _
  · split at h
    · rcases s.fork_cases answers with ⟨e, s₁, hfork, hchildren⟩ | ⟨s₁, hfork, hchildren⟩
      · rw [hfork] at h
        cases h
        rw [Shell.children_report, hchildren]
        exact Moves.refl _
      · rw [hfork] at h
        cases h
        rw [Shell.children_jobAdd, Shell.children_start, hchildren]
        exact Moves.background _ (Nat.lt_succ_self _)
    · rw [← hreap]
      exact moves_dispatch hcommands h

/-- A pipeline whose redirections are open. -/
theorem moves_executeOpened (hcommands : commands.MoveOnce) {p : Pipeline}
    (hreap : s.children.reap = s.children)
    (h : executeOpened commands answers line p stdoutFd stdinFd s = some s') :
    Moves s.children s'.children := by
  rw [executeOpened] at h
  split at h
  · cases h
    exact Moves.refl _
  · split at h
    · rcases Option.map_eq_some_iff.mp h with ⟨s₁, hdispatch, rfl⟩
      rw [Shell.children_closeAboveTwo, Shell.children_closeAboveTwo, ← hreap]
      exact moves_dispatch hcommands hdispatch
    · cases h
      exact moves_executeLoop answers line p stdoutFd stdinFd s
  · cases h
    exact moves_executeLoop answers line p stdoutFd stdinFd s

/-- A pipeline from its redirections on. If one cannot be opened, the children are where they
were. -/
theorem moves_executeRedirected (hcommands : commands.MoveOnce) {p : Pipeline}
    (hreap : s.children.reap = s.children)
    (h : executeRedirected commands answers line p s = some s') :
    Moves s.children s'.children := by
  have hin : (openStdin answers line p (openStdout answers line p s).2).2.children = s.children := by
    rcases openStdout_frame answers line p s with ⟨fds, calls, hout⟩
    rcases openStdin_frame answers line p (openStdout answers line p s).2 with ⟨fds', calls', hin⟩
    rw [hin, hout]
    rfl
  unfold executeRedirected at h
  simp only at h
  split at h
  · cases h
    rw [Shell.children_report, hin]
    exact Moves.refl _
  · split at h
    · cases h
      rw [Shell.children_closeAboveTwo, Shell.children_report, hin]
      exact Moves.refl _
    · rw [← hin] at hreap ⊢
      exact moves_executeOpened hcommands hreap h

/-- **`execute` reaps and makes one move.** -/
theorem moves_execute (hcommands : commands.MoveOnce) {p : Pipeline}
    (h : execute commands answers line p s = some s') : Moves s.children.reap s'.children := by
  have hreap : s.jobReap.children.reap = s.jobReap.children := by
    rw [Shell.children_jobReap]
    rfl
  rw [← s.children_jobReap]
  rw [execute] at h
  split at h
  · split at h
    · exact moves_executePlain hcommands hreap h
    · exact moves_executeRedirected hcommands hreap h
  · exact moves_executeRedirected hcommands hreap h

end OnyxShell
