import OnyxShell.Process.Kernel
import OnyxShell.Process.Eval
import OnyxShell.Proofs.Pipeline.Arguments
import OnyxShell.Proofs.Pipeline.Tidy
import OnyxShell.Proofs.Process.Output
import OnyxShell.Proofs.Process.Pipeline

/-!
# `OnyxShell.Proofs.Process.Kernel`: the executor and its calls

`Process.execute` makes system calls, and `OnyxShell.execute` is a function on the state that they
change. `Refines` is the relation between such two: whatever the kernel answers, the calls of the
first lead to the state of the second.
-/

set_option autoImplicit false

namespace OnyxShell.Process

open Routine (twp twp_bind twp_pure twp_mono twp_get twp_set twp_modify)

variable {σ α β : Type} {answers : Answers} {follows : Bool} {started : Child → Prop}
  {S : Shell σ} {g : Globals} {v : View}

/-- For the kernel of the pipelines, output is not a state: a `write` is allowed at any time and
leaves the view as it is. -/
theorem writes_kernel : Writes (kernel answers follows started) fun v _ => v where
  allows v b := by
    rcases v with ⟨s, _ | ⟨pid, fds⟩⟩
    · trivial
    · trivial
  answered v b := by
    refine ⟨⟨0, []⟩, ?_⟩
    rcases v with ⟨s, _ | ⟨pid, fds⟩⟩
    · trivial
    · trivial
  next v b a := by
    rcases v with ⟨s, _ | ⟨pid, fds⟩⟩
    · rfl
    · rfl
  append _ _ _ := rfl

/-- The globals and the view of a process that is in this state. -/
structure Like (S : Shell σ) (g : Globals) (v : View) : Prop where
  jobs : g.jobs = S.jobs
  view : v = ⟨S.outside, none⟩

/-- From the state `S`, whatever the kernel answers, the function returns in a state that the
relation allows. -/
def Refines (M : Prog.Monitor SysCall Answer View) (x : Sh α) (S : Shell σ)
    (R : α → Shell σ → Prop) : Prop :=
  ∀ g v, Like S g v → twp M x (fun a g' v' => ∃ S', R a S' ∧ Like S' g' v') g v

section
variable {M : Prog.Monitor SysCall Answer View}

/-- A program that has returned refines the state it is at. -/
theorem Refines.pure {a : α} {R : α → Shell σ → Prop} (h : R a S) : Refines M (pure a) S R :=
  fun _ _ hlike => ⟨S, h, hlike⟩

/-- Two programs one after the other: the second starts in the state that the first has been shown
to reach. -/
theorem Refines.bind {x : Sh α} {f : α → Sh β} {R : α → Shell σ → Prop} {R' : β → Shell σ → Prop}
    (hx : Refines M x S R) (hf : ∀ a S', R a S' → Refines M (f a) S' R') :
    Refines M (x >>= f) S R' := by
  intro g v hlike
  rw [twp_bind]
  refine twp_mono (hx g v hlike) ?_
  rintro a g' v' ⟨S', ha, hlike'⟩
  exact hf a S' ha g' v' hlike'

/-- The state may be another one that looks the same. -/
theorem Refines.of_like {x : Sh α} {S₁ : Shell σ} {R : α → Shell σ → Prop}
    (h : ∀ g v, Like S g v → Like S₁ g v) (hx : Refines M x S₁ R) : Refines M x S R :=
  fun g v hlike => hx g v (h g v hlike)

/-- What is shown of the end state may be weakened. -/
theorem Refines.mono {x : Sh α} {R R' : α → Shell σ → Prop} (hx : Refines M x S R)
    (h : ∀ a S', R a S' → R' a S') : Refines M x S R' := by
  intro g v hlike
  refine twp_mono (hx g v hlike) ?_
  rintro a g' v' ⟨S', ha, hlike'⟩
  exact ⟨S', h a S' ha, hlike'⟩

end

/-! ### Calls of the shell process -/

/-- A call of the shell process itself, where no child is being followed. -/
theorem twp_sys_shell {s : Shell Unit} (c : SysCall) {Q : Answer → Globals → View → Prop}
    (hQ : ∀ a, View.Admits answers follows s c a → Q a g (View.next answers s c a)) :
    twp (kernel answers follows started) (sys c) Q g ⟨s, none⟩ :=
  ⟨trivial, hQ⟩

/-- One system call against one step of the pure model: for each answer that the kernel may give
there is the state it belongs to, with the same jobs. -/
theorem refines_sys (c : SysCall) {R : Answer → Shell σ → Prop}
    (h : ∀ a, View.Admits answers follows S.outside c a →
      ∃ S', R a S' ∧ S'.jobs = S.jobs ∧ View.next answers S.outside c a = ⟨S'.outside, none⟩) :
    Refines (kernel answers follows started) (sys c) S R := by
  rintro g v ⟨hjobs, rfl⟩
  refine twp_sys_shell c ?_
  intro a ha
  rcases h a ha with ⟨S', hR, hjobs', hnext⟩
  exact ⟨S', hR, hjobs.trans hjobs'.symm, hnext⟩

/-- A call that the executor's state does not depend on. -/
theorem refines_quiet (c : SysCall) (h : ∀ a, View.next answers S.outside c a = ⟨S.outside, none⟩) :
    Refines (kernel answers follows started) (sys c) S fun a S' =>
      S' = S ∧ View.Admits answers follows S.outside c a :=
  refines_sys c fun a ha => ⟨S, ⟨rfl, ha⟩, rfl, h a⟩

/-- Output. -/
theorem refines_report {x : Sh Unit} (r : Report)
    (hx : ∀ (Q : Unit → Globals → View → Prop) g v, twp (kernel answers follows started) x Q g v ↔
      Q () g v) : Refines (kernel answers follows started) x S fun _ S' => S' = S.report r := by
  rintro g v ⟨hjobs, rfl⟩
  exact (hx _ _ _).mpr ⟨_, rfl, hjobs, rfl⟩

/-- An error message is a report of the pure model. -/
theorem refines_writeError (msg : Bytes) :
    Refines (kernel answers follows started) (writeError msg) S fun _ S' =>
      S' = S.report (.error msg) :=
  refines_report _ fun _ _ _ => writes_kernel.twp_writeError msg

/-- An error message with a number is a report of the pure model. -/
theorem refines_writeErrorErrno (msg : Bytes) (ret : Int) :
    Refines (kernel answers follows started) (writeErrorErrno msg ret) S fun _ S' =>
      S' = S.report (.errno msg ret) :=
  refines_report _ fun _ _ _ => writes_kernel.twp_writeErrorErrno msg ret

/-- `close` takes the descriptor out of the table. -/
theorem refines_close (fd : Nat) :
    Refines (kernel answers follows started) (sys (.close fd)) S fun _ S' => S' = S.close fd :=
  refines_sys _ fun _ _ => ⟨_, rfl, rfl, rfl⟩

/-- `if fd > 2 { sys_close(fd) }`: the standard descriptors stay open. -/
theorem refines_closeAboveTwo (fd : Nat) :
    Refines (kernel answers follows started) (closeAboveTwo fd) S fun _ S' =>
      S' = S.closeAboveTwo fd := by
  by_cases h : fd > 2
  · have hint : (fd : Int) > 2 := by omega
    rw [closeAboveTwo, if_pos hint, Shell.closeAboveTwo, if_pos h]
    refine (refines_close fd).bind fun _ S' hS => .pure hS
  · have hint : ¬ (fd : Int) > 2 := by omega
    rw [closeAboveTwo, if_neg hint, Shell.closeAboveTwo, if_neg h]
    exact .pure rfl

/-! ### Jobs -/

/-- The line `[id] pid` that a background job prints changes nothing that the kernel keeps. -/
theorem twp_writeJob (id : Nat) (pid : Int) (Q : Unit → Globals → View → Prop) :
    twp (kernel answers follows started) (writeJob id pid) Q g v ↔ Q () g v := by
  simp only [writeJob, twp_bind, writes_kernel.twp_writeRaw, writes_kernel.twp_writeU64,
    writes_kernel.twp_writeI64]

/-- A background pipeline is entered into the job table, and its line is printed. -/
theorem refines_jobLaunched (pid : Nat) :
    Refines (kernel answers follows started) (jobLaunched pid) S fun _ S' => S' = S.jobAdd pid := by
  rintro g v ⟨hjobs, rfl⟩
  rw [jobLaunched, twp_bind, twp_get]
  simp only [twp_bind, twp_set, twp_writeJob, writes_kernel.twp_newline]
  refine ⟨_, rfl, ?_, rfl⟩
  show (g.jobs.jobAdd (toI32 (pid : Int).toNat)).2 = (S.jobs.jobAdd (toI32 pid)).2
  rw [hjobs, Int.toNat_natCast]

/-- An ended child is taken out of the table. -/
theorem refines_reapOne (pid : Nat) :
    Refines (kernel answers follows started) (reapOne pid) S fun _ S' => S' = S.reapOne pid := by
  rintro g v ⟨hjobs, rfl⟩
  rw [reapOne, twp_bind, twp_get, hjobs, Shell.reapOne]
  cases S.jobs.remove pid with
  | mk found jobs =>
    cases found with
    | none => exact ⟨S, rfl, hjobs, rfl⟩
    | some job =>
      simp only [twp_bind, twp_writeJob, writes_kernel.twp_writeRaw, twp_set]
      exact ⟨_, rfl, rfl, rfl⟩

/-- The rest of the ended children behind one of them. -/
theorem jobReap_cons {pid : Nat} {rest : List Nat} (h : S.ended = pid :: rest) :
    ({ S.reapOne pid with ended := rest } : Shell σ).jobReap = S.jobReap := by
  have hended : ∀ (s : Shell σ) (pids : List Nat), pids.foldl Shell.reapOne { s with ended := rest }
      = { pids.foldl Shell.reapOne s with ended := rest } := by
    intro s pids
    induction pids generalizing s with
    | nil => rfl
    | cons p pids ih =>
      rw [List.foldl_cons, List.foldl_cons, ← ih]
      congr 1
      simp only [Shell.reapOne, Shell.report]
      split <;> rfl
  rw [Shell.jobReap, Shell.jobReap, h, hended]
  rfl

/-- Nothing is left to be reaped. -/
theorem jobReap_of_ended (h : S.ended = []) : S.jobReap = S := by
  rw [Shell.jobReap, h, List.foldl_nil, ← h]

/-- `job_reap` collects the ended children, one call for each and one more. -/
theorem refines_jobReap {turns : Nat} (hturns : S.ended.length < turns) :
    Refines (kernel answers follows started) (jobReap turns) S fun _ S' => S' = S.jobReap := by
  rintro g v hlike
  refine Routine.twp_loop
    (fun _ g' v' => ∃ S₁ : Shell σ, Like S₁ g' v' ∧ S₁.jobReap = S.jobReap)
    (fun _ _ v' => v'.shell.ended.length) ?_ ⟨S, hlike, rfl⟩ ?_
  · -- The invariant: what is left to be reaped leads to the shell that reaps everything at once.
    rintro _ g' v' ⟨S₁, ⟨hjobs, rfl⟩, hreap⟩
    rw [twp_bind]
    refine twp_sys_shell _ ?_
    intro a ha
    have hanswer : Reaps a S₁.ended := ha ⟨rfl, rfl⟩
    have hnext : View.next answers S₁.outside (.waitpid ANY_CHILD WNOHANG) a
        = ⟨{ S₁.outside with ended := S₁.ended.tail }, none⟩ := by
      rw [View.next, if_pos ⟨rfl, rfl⟩]
      rfl
    rw [hnext]
    cases hended : S₁.ended with
    | nil =>
      have hret : a.ret ≤ 0 := (hended ▸ hanswer : Reaps a [])
      rw [if_pos hret, twp_pure]
      refine ⟨S.jobReap, rfl, ?_⟩
      rw [← hreap, jobReap_of_ended hended]
      refine ⟨hjobs, ?_⟩
      rw [List.tail_nil, ← hended]
      rfl
    | cons pid rest =>
      have hret : a.ret = pid ∧ 0 < a.ret := (hended ▸ hanswer : Reaps a (pid :: rest))
      rw [if_neg (Int.not_le.mpr hret.2), twp_bind, hret.1, List.tail_cons]
      have hlike₁ : Like { S₁ with ended := rest } g' ⟨{ S₁.outside with ended := rest }, none⟩ :=
        ⟨hjobs, rfl⟩
      refine twp_mono (refines_reapOne pid g' _ hlike₁) ?_
      rintro _ g'' v'' ⟨S₂, rfl, hlike₂⟩
      rw [twp_pure]
      have hcomm : Shell.reapOne { S₁ with ended := rest } pid
          = { S₁.reapOne pid with ended := rest } := by
        simp only [Shell.reapOne, Shell.report]
        split <;> rfl
      rw [hcomm] at hlike₂
      refine ⟨⟨_, hlike₂, (jobReap_cons hended).trans hreap⟩, ?_⟩
      rw [hlike₂.view]
      show rest.length < S₁.ended.length
      rw [hended]
      exact Nat.lt_succ_self _
  · rw [hlike.view]
    exact hturns

/-! ### Redirections and pipes -/

/-- A result as the code has it: a negative number is an error. -/
def resultInt : Except Int Nat → Int
  | .ok n => n
  | .error e => e

/-! The kernel's part of a call is the same without the memory of the shell. -/

/-- What the kernel sees of an `open` does not depend on the jobs or on what the shell has
printed. The lemmas for `pipe` and `fork` say the same. -/
theorem outside_sysOpen (path : Bytes) (flags : Nat) : S.outside.sysOpen answers path flags
    = ((S.sysOpen answers path flags).1, (S.sysOpen answers path flags).2.outside) := by
  simp only [Shell.sysOpen, Shell.outside]
  split <;> rfl

/-- What the kernel sees of a `pipe` does not depend on the shell's own state. -/
theorem outside_pipe :
    S.outside.pipe answers = ((S.pipe answers).1, (S.pipe answers).2.outside) := by
  simp only [Shell.pipe, Shell.outside]
  split <;> rfl

/-- What the kernel sees of a `fork` does not depend on the shell's own state. -/
theorem outside_fork :
    S.outside.fork answers = ((S.fork answers).1, (S.fork answers).2.outside) := by
  simp only [Shell.fork, Shell.outside]
  split <;> rfl

/-- The errors of an `open` are negative. -/
theorem sysOpen_error {path : Bytes} {flags : Nat} {e : Int}
    (h : (S.sysOpen answers path flags).1 = .error e) : e < 0 := by
  rw [Shell.sysOpen] at h
  split at h
  · cases h
    exact Int.negSucc_lt_zero _
  · cases h

/-- A refused `pipe` gives a negative number, which is what the code tests for. -/
theorem pipe_error {e : Int} (h : (S.pipe answers).1 = .error e) : e < 0 := by
  rw [Shell.pipe] at h
  split at h
  · cases h
    exact Int.negSucc_lt_zero _
  · cases h

/-- `open` gives the number that the pure model gives, and the descriptor is entered at the lowest
free place on both sides. -/
theorem refines_sysOpen (path : Bytes) (flags : Nat) :
    Refines (kernel answers follows started) (sys (.sysOpen path flags)) S fun a S' =>
      a.ret = resultInt (S.sysOpen answers path flags).1 ∧
        S' = (S.sysOpen answers path flags).2 := by
  refine refines_sys _ fun a ha => ⟨(S.sysOpen answers path flags).2, ⟨?_, rfl⟩, ?_, ?_⟩
  · have hresult : Results (fun fd : Nat => a.ret = (fd : Int)) a
        (S.outside.sysOpen answers path flags).1 := ha
    rw [outside_sysOpen] at hresult
    revert hresult
    cases (S.sysOpen answers path flags).1 with
    | error e => exact id
    | ok fd => exact id
  · rw [Shell.sysOpen]
    split <;> rfl
  · rw [View.next, outside_sysOpen]

/-- What `openStdout` and `openStdin` have in common. -/
def openFile (answers : Answers) (line : Bytes) (file : Span) (flags standard : Nat) (s : Shell σ) :
    Except Int Nat × Shell σ :=
  if file.2 > 0 then s.sysOpen answers (redirectPath line file) flags else (.ok standard, s)

/-- A redirection that cannot be opened gives a negative number, which is what `execute` tests
for. -/
theorem openFile_error {line : Bytes} {file : Span} {flags standard : Nat} {e : Int}
    (h : (openFile answers line file flags standard S).1 = .error e) : e < 0 := by
  rw [openFile] at h
  split at h
  · exact sysOpen_error h
  · cases h

/-- The target of a redirection, cut from the line into a buffer and opened. Without a target the
standard descriptor is kept. -/
theorem refines_openRedirect (line : Bytes) (file : Span) (flags standard : Nat) :
    Refines (kernel answers follows started) (openRedirect line file flags standard) S fun fd S' =>
      fd = resultInt (openFile answers line file flags standard S).1 ∧
        S' = (openFile answers line file flags standard S).2 := by
  rw [openRedirect, openFile]
  split
  · exact (refines_sysOpen _ _).bind fun a S' h => .pure h
  · exact .pure ⟨rfl, rfl⟩

/-- The pipe in front of a segment's `fork`. The last segment has none, and a refused pipe closes
what is open and ends the pipeline. -/
theorem refines_segmentPipe (isLast : Bool) (stdoutFd : Nat) (l : OnyxShell.Launch σ) :
    Refines (kernel answers follows started) (segmentPipe isLast stdoutFd l.prevReadFd) l.shell
      fun ends S' => S' = (OnyxShell.segmentPipe answers isLast stdoutFd l).2 ∧
        ends = match (OnyxShell.segmentPipe answers isLast stdoutFd l).1 with
          | .error _ => none
          | .ok (curWriteFd, prevReadFd) => some ((curWriteFd : Int), (prevReadFd : Int)) := by
  rw [segmentPipe, OnyxShell.segmentPipe]
  cases isLast with
  | true => exact .pure ⟨rfl, rfl⟩
  | false =>
    simp only [Bool.false_eq_true, if_false]
    have hpipe : Refines (kernel answers follows started) (sys .pipe) l.shell fun a S' =>
        S' = (l.shell.pipe answers).2 ∧ Results (fun ends => 0 ≤ a.ret ∧ pipeEnds a = ends ∧
          ends.1 < FD_LIMIT ∧ ends.2 < FD_LIMIT) a (l.shell.pipe answers).1 := by
      refine refines_sys .pipe fun a ha => ⟨(l.shell.pipe answers).2, ⟨rfl, ?_⟩, ?_, ?_⟩
      · rw [View.Admits, outside_pipe] at ha
        exact ha
      · rw [Shell.pipe]
        split <;> rfl
      · rw [View.next, outside_pipe]
    refine hpipe.bind ?_
    rintro a S' ⟨rfl, ha⟩
    refine .pure ⟨?_, ?_⟩
    · cases l.shell.pipe answers with
      | mk r s => cases r <;> rfl
    · have hneg := @pipe_error σ answers l.shell
      revert ha hneg
      cases l.shell.pipe answers with
      | mk r s =>
        cases r with
        | error e =>
          intro ha hneg
          exact if_pos (ha ▸ hneg rfl)
        | ok ends =>
          rintro ⟨hret, hends, hr, hw⟩ -
          have hsmall : pipeEnds a = (field (a.into (zeros 16)) 0 8, field (a.into (zeros 16)) 8 8) :=
            rfl
          rw [← hends, hsmall] at hr hw
          rw [if_neg (Int.not_lt.mpr hret), asI64_of_lt hr, asI64_of_lt hw, ← hends]
          rfl

/-! ### Children -/

/-- The command of a child comes to its end, from the descriptors that the child starts with. Its
calls are permitted and it returns, still as the child, so that the `exit` behind it is
reached. -/
def Serves (M : Prog.Monitor SysCall Answer View) (dispatch : List Bytes → Sh Unit) (c : Child) :
    Prop :=
  ∀ g v, v.child = some (c.pid, c.fds) →
    twp M (dispatch c.args) (fun _ _ v' => v'.child.isSome = true) g v

section
variable {dispatch : List Bytes → Sh Unit}

/-- A child ends behind its command. -/
theorem twp_childMain {c : Child} (hfollows : follows = true)
    (h : Serves (kernel answers follows started) dispatch c)
    (hv : v.child = some (c.pid, c.fds)) (Q : α → Globals → View → Prop) :
    twp (kernel answers follows started) (childMain dispatch c.args) Q g v := by
  rw [childMain, twp_bind]
  refine twp_mono (h g v hv) ?_
  rintro _ g' ⟨s, _ | ⟨pid, fds⟩⟩ hsome
  · cases hsome
  · exact ⟨trivial, fun _ _ => ⟨hfollows, rfl⟩⟩

/-- In a child: close a standard descriptor and `dup` the other end into its place. -/
theorem twp_replaceStandard {s : Shell Unit} {pid : Nat} {fds : FdTable Description} (n fd : Nat)
    {Q : Unit → Globals → View → Prop}
    (hQ : Q () g ⟨s, some (pid, if fd ≠ n then (fds.close n).dup fd else fds)⟩) :
    twp (kernel answers follows started) (replaceStandard n fd) Q g ⟨s, some (pid, fds)⟩ := by
  rw [replaceStandard]
  by_cases h : fd = n
  · rw [if_neg (not_not.mpr h)] at hQ
    rw [if_neg (by omega)]
    exact hQ
  · rw [if_pos h] at hQ
    rw [if_pos (by omega)]
    exact ⟨trivial, fun _ _ => ⟨trivial, fun _ _ => hQ⟩⟩

/-- The redirections of a child leave it with the descriptors of `childFds`. -/
theorem twp_redirectChild {s : Shell Unit} {pid : Nat} {fds : FdTable Description}
    (curReadFd curWriteFd : Nat) {Q : Unit → Globals → View → Prop}
    (hQ : Q () g ⟨s, some (pid, childFds fds curReadFd curWriteFd)⟩) :
    twp (kernel answers follows started) (redirectChild curReadFd curWriteFd) Q g
      ⟨s, some (pid, fds)⟩ := by
  rw [redirectChild, twp_bind]
  exact twp_replaceStandard 0 curReadFd (twp_replaceStandard 1 curWriteFd hQ)

/-- The three ways on behind a `fork`. -/
theorem refines_fork {f : Answer → Sh α} {R : α → Shell σ → Prop}
    (herror : ∀ e < 0, (S.fork answers).1 = .error e → ∀ a : Answer, a.ret = e →
      Refines (kernel answers follows started) (f a) (S.fork answers).2 R)
    (hparent : ∀ pid : Nat, 0 < pid → (S.fork answers).1 = .ok pid → ∀ a : Answer, a.ret = pid →
      Refines (kernel answers follows started) (f a) (S.fork answers).2 R)
    (hchild : follows = true → ∀ pid : Nat, (S.fork answers).1 = .ok pid → ∀ a : Answer, a.ret = 0 →
      ∀ Q g s, twp (kernel answers follows started) (f a) Q g ⟨s, some (pid, S.fds)⟩) :
    Refines (kernel answers follows started) (sys .fork >>= f) S R := by
  rintro g v ⟨hjobs, rfl⟩
  rw [twp_bind]
  refine twp_sys_shell .fork ?_
  intro a ha
  rw [View.Admits, outside_fork] at ha
  rw [View.next, outside_fork]
  have hlike : Like (S.fork answers).2 g ⟨(S.fork answers).2.outside, none⟩ := by
    refine ⟨?_, rfl⟩
    rw [hjobs, Shell.fork]
    split <;> rfl
  cases hfork : (S.fork answers).1 with
  | error e =>
    rw [hfork] at ha
    have hneg : e < 0 := by
      rw [Shell.fork] at hfork
      split at hfork
      · cases hfork
        exact Int.negSucc_lt_zero _
      · cases hfork
    have hret : a.ret = e := ha
    rw [if_neg (by omega)]
    exact herror e hneg hfork a ha g _ hlike
  | ok pid =>
    rw [hfork] at ha
    have hpid : pid = S.lastPid + 1 := by
      rw [Shell.fork] at hfork
      split at hfork
      · cases hfork
      · cases hfork
        rfl
    rcases ha with hret | ⟨hfollows, hret⟩
    · rw [if_neg (by omega)]
      exact hparent pid (by omega) hfork a hret g _ hlike
    · rw [if_pos hret]
      have hstart : some (S.outside.lastPid + 1, S.outside.fds) = some (pid, S.fds) := by
        rw [hpid]
        rfl
      rw [hstart]
      exact hchild hfollows pid hfork a hret _ g _

/-! ### The segment loop -/

/-- A descriptor of `parent_close`. -/
def entryInt : Option Nat → Int
  | none => -1
  | some fd => fd

/-- The variables of the loop are the same. The numbers are the same on both sides; only the form
in which a missing descriptor is written differs. -/
structure LikeLaunch (l : Launch) (L : OnyxShell.Launch σ) : Prop where
  prevReadFd : l.prevReadFd = L.prevReadFd
  lastPid : l.lastPid = L.lastPid
  spawnedPids : l.spawnedPids = L.spawnedPids.map fun pid : Nat => (pid : Int)
  pids_pos : ∀ pid ∈ L.spawnedPids, 0 < pid
  parentClose : l.parentClose = L.parentClose.map entryInt

/-- The entries of `parent_close` are the same numbers, with −1 in the code for what the pure
model calls `none`. -/
theorem parentCloseEntry_eq (curReadFd curWriteFd stdoutFd stdinFd : Nat) :
    parentCloseEntry curReadFd curWriteFd stdoutFd stdinFd
      = entryInt (OnyxShell.parentCloseEntry curReadFd curWriteFd stdoutFd stdinFd) := by
  simp only [parentCloseEntry, OnyxShell.parentCloseEntry]
  split_ifs <;> first | rfl | omega

/-- A refused `fork` closes the ends that have been opened for the segment, and reports the
number. -/
theorem refines_forkFailed (ret : Int) (curReadFd curWriteFd stdinFd : Nat) :
    Refines (kernel answers follows started) (forkFailed ret curReadFd curWriteFd stdinFd) S
      fun _ S' => S' = S.forkFailed ret curReadFd curWriteFd stdinFd := by
  rw [forkFailed]
  refine (refines_writeErrorErrno _ ret).bind ?_
  rintro _ S₁ rfl
  refine (refines_closeAboveTwo curWriteFd).bind ?_
  rintro _ S₂ rfl
  rw [Shell.forkFailed]
  by_cases hne : curReadFd = stdinFd
  · rw [if_neg (by omega), if_neg fun h => h.2 hne]
    exact .pure rfl
  · rw [if_pos (by omega)]
    refine (refines_closeAboveTwo curReadFd).mono ?_
    rintro _ S₃ rfl
    rw [Shell.closeAboveTwo]
    simp only [hne, not_false_eq_true, and_true, ne_eq]

/-- What a turn of the loop comes to, and the variables behind it. -/
def LikeTurn (r : Option Launch) (S' : Shell σ) : Except (Shell σ) (OnyxShell.Launch σ) → Prop
  | .error s => r = none ∧ S' = s
  | .ok L => S' = L.shell ∧ ∃ l, r = some l ∧ LikeLaunch l L

/-- **One turn of the loop over the segments.** The pipe, the `fork` and what the parent closes
are those of the pure model; a child that is started serves its part of the pipeline. -/
theorem refines_spawnSegment (line : Bytes) (stdoutFd stdinFd : Nat) (seg : Segment) (isLast : Bool)
    {l : Launch} {L : OnyxShell.Launch σ} (hl : LikeLaunch l L)
    (hserves : follows = true → ∀ L' : OnyxShell.Launch σ,
      OnyxShell.spawnSegment answers line stdoutFd stdinFd seg isLast L = .ok L' →
        ∀ c ∈ L'.shell.forked, Serves (kernel answers follows started) dispatch c) :
    Refines (kernel answers follows started)
      (spawnSegment dispatch line stdoutFd stdinFd seg isLast l) L.shell fun r S' =>
        LikeTurn r S' (OnyxShell.spawnSegment answers line stdoutFd stdinFd seg isLast L) := by
  rw [OnyxShell.spawnSegment] at hserves ⊢
  rw [spawnSegment]
  by_cases hempty : seg.length = 0
  · rw [if_pos hempty, if_pos hempty]
    exact .pure ⟨rfl, l, rfl, hl⟩
  rw [if_neg hempty] at hserves ⊢
  rw [if_neg hempty, hl.prevReadFd]
  refine (refines_segmentPipe isLast stdoutFd L).bind ?_
  rintro ends S₁ ⟨rfl, rfl⟩
  cases hpipe : OnyxShell.segmentPipe answers isLast stdoutFd L with
  | mk result S₁ =>
    rw [hpipe] at hserves
    cases result with
    | error e =>
      refine (refines_writeError _).bind ?_
      rintro _ S₂ rfl
      exact .pure ⟨rfl, rfl⟩
    | ok fds =>
      rcases fds with ⟨curWriteFd, prevReadFd⟩
      simp only at hserves ⊢
      cases hfork : S₁.fork answers with
      | mk result S₂ =>
        rw [hfork] at hserves
        have hshell : (S₁.fork answers).2 = S₂ := by rw [hfork]
        refine refines_fork ?_ ?_ ?_
        · intro e hneg he a hret
          rw [hfork] at he
          cases he
          rw [if_pos (by omega), hshell, hret]
          refine (refines_forkFailed e L.prevReadFd curWriteFd stdinFd).bind ?_
          rintro _ S₃ rfl
          exact .pure ⟨rfl, rfl⟩
        · intro pid hpos he a hret
          rw [hfork] at he
          cases he
          rw [if_neg (by omega), if_neg (by omega), hshell, hret]
          -- A child that has been started is not seen from the shell.
          let L' := L.spawned S₂ line seg pid curWriteFd prevReadFd stdoutFd stdinFd
          have hlike : ∀ g v, Like S₂ g v → Like L'.shell g v := fun _ _ h => ⟨h.jobs, h.view⟩
          refine .of_like hlike (.pure ⟨rfl, _, rfl, ?_⟩)
          refine ⟨rfl, rfl, ?_, ?_, ?_⟩
          · simp only [OnyxShell.Launch.spawned, hl.spawnedPids, List.map_append, List.map_cons,
              List.map_nil]
          · intro pid' hpid'
            rcases List.mem_append.mp hpid' with hold | hnew
            · exact hl.pids_pos pid' hold
            · rwa [List.mem_singleton.mp hnew]
          · simp only [OnyxShell.Launch.spawned, hl.parentClose, parentCloseEntry_eq,
              List.map_append, List.map_cons, List.map_nil]
        · intro hfollows pid he a hret Q g s
          rw [hfork] at he
          cases he
          rw [if_neg (by omega), if_pos hret, twp_bind]
          refine twp_redirectChild L.prevReadFd curWriteFd ?_
          have hfds : S₂.fds = S₁.fds := by
            rw [← hshell, Shell.fork]
            split <;> rfl
          let c : Child := ⟨pid, childFds S₂.fds L.prevReadFd curWriteFd, segToArgs line seg⟩
          have hc : Serves (kernel answers follows started) dispatch c :=
            hserves hfollows _ rfl c (List.mem_append_right _ (List.mem_singleton_self c))
          refine twp_childMain hfollows hc ?_ Q
          rw [← hfds]

/-- The children that have been started by the end of a loop. -/
theorem forked_grows (line : Bytes) (stdoutFd stdinFd : Nat) (background : Bool)
    (segs : List Segment) (L : OnyxShell.Launch σ) : L.shell.forked <+:
      (launchResult background
        (OnyxShell.launchAll answers line stdoutFd stdinFd segs L)).forked := by
  rcases startsFrom_launchAll answers line stdoutFd stdinFd background segs L with
    ⟨children, hforked, -⟩
  exact ⟨children, hforked.symm⟩

/-- All turns of the loop, by induction on the segments: `LikeLaunch` relates the loop's variables
on the two sides. -/
theorem refines_launchAll (line : Bytes) (stdoutFd stdinFd : Nat) (background : Bool)
    (segs : List Segment) {l : Launch} {L : OnyxShell.Launch σ} (hl : LikeLaunch l L)
    (hserves : follows = true → ∀ c ∈ (launchResult background
      (OnyxShell.launchAll answers line stdoutFd stdinFd segs L)).forked,
        Serves (kernel answers follows started) dispatch c) :
    Refines (kernel answers follows started) (launchAll dispatch line stdoutFd stdinFd segs l)
      L.shell fun r S' =>
        LikeTurn r S' (OnyxShell.launchAll answers line stdoutFd stdinFd segs L) := by
  induction segs generalizing l L with
  | nil => exact .pure ⟨rfl, l, rfl, hl⟩
  | cons seg rest ih =>
    rw [launchAll]
    refine (refines_spawnSegment line stdoutFd stdinFd seg rest.isEmpty hl ?_).bind ?_
    · -- The children of this turn are among those of the whole loop.
      intro hfollows L' hL' c hc
      refine hserves hfollows c ?_
      rw [OnyxShell.launchAll, hL']
      exact (forked_grows line stdoutFd stdinFd background rest L').subset hc
    · intro r S₁ hturn
      rw [OnyxShell.launchAll] at hserves ⊢
      cases hspawn : OnyxShell.spawnSegment answers line stdoutFd stdinFd seg rest.isEmpty L with
      | error s =>
        rw [hspawn] at hturn
        rcases hturn with ⟨rfl, rfl⟩
        exact .pure ⟨rfl, rfl⟩
      | ok L₁ =>
        rw [hspawn] at hturn hserves
        rcases hturn with ⟨rfl, l₁, rfl, hl₁⟩
        exact ih hl₁ hserves

/-! ### Behind the loop -/

/-- What the parent still has open when all children run is closed in the order of the array. -/
theorem refines_closeParent (parentClose : List (Option Nat)) :
    Refines (kernel answers follows started) ((parentClose.map entryInt).forM closeAboveTwo) S
      fun _ S' => S' = closeParent parentClose S := by
  induction parentClose generalizing S with
  | nil => exact .pure rfl
  | cons entry rest ih =>
    have hone : Refines (kernel answers follows started) (closeAboveTwo (entryInt entry)) S
        fun _ S' => S' = S.closeEntry entry := by
      cases entry with
      | none => exact .pure rfl
      | some fd => exact refines_closeAboveTwo fd
    refine hone.bind ?_
    rintro _ S₁ rfl
    exact ih

/-- `waitpid` for one child takes it from those that have ended, or waits. -/
theorem refines_waitpid (pid : Nat) :
    Refines (kernel answers follows started) (sys (.waitpid pid 0)) S fun _ S' =>
      S' = S.waitpid pid :=
  refines_sys _ fun _ _ => ⟨S.waitpid pid, rfl, rfl, if_neg fun h => absurd h.2 (by decide)⟩

/-- The waits behind the loop, one for each child that has been started. Process ids are positive,
so none of them stands for "any child". -/
theorem refines_waits {pids : List Nat} (hpos : ∀ pid ∈ pids, 0 < pid) :
    Refines (kernel answers follows started)
      ((pids.map fun pid : Nat => (pid : Int)).forM waitFor) S
      fun _ S' => S' = pids.foldl Shell.waitpid S := by
  induction pids generalizing S with
  | nil => exact .pure rfl
  | cons pid rest ih =>
    have hone : Refines (kernel answers follows started) (waitFor pid) S
        fun _ S' => S' = S.waitpid pid := by
      have hpid := hpos pid List.mem_cons_self
      rw [waitFor, if_pos (by omega), Int.toNat_natCast]
      exact (refines_waitpid pid).bind fun _ _ h => .pure h
    refine hone.bind ?_
    rintro _ S₁ rfl
    exact ih fun p hp => hpos p (List.mem_cons_of_mem _ hp)

/-- The end of a launch: a foreground pipeline is waited for, a background one becomes a job. -/
theorem refines_finishLaunch (background : Bool) {l : Launch} {L : OnyxShell.Launch σ}
    (hl : LikeLaunch l L) :
    Refines (kernel answers follows started) (finishLaunch background l) L.shell
      fun _ S' => S' = OnyxShell.finishLaunch background L := by
  rw [finishLaunch, hl.parentClose, hl.spawnedPids, hl.lastPid, OnyxShell.finishLaunch]
  refine (refines_closeParent L.parentClose).bind ?_
  rintro _ S₁ rfl
  cases background with
  | false =>
    rw [if_pos rfl]
    refine (refines_waits hl.pids_pos).bind ?_
    rintro _ S₂ rfl
    rw [if_neg (by simp)]
    exact .pure (by simp)
  | true =>
    rw [if_neg (by simp)]
    show Refines _ (if true = true ∧ (L.lastPid : Int) > 0 then jobLaunched L.lastPid else pure ())
      _ _
    by_cases hpid : L.lastPid > 0
    · rw [if_pos ⟨rfl, by omega⟩, if_pos rfl, if_pos ⟨rfl, hpid⟩]
      exact refines_jobLaunched L.lastPid
    · rw [if_neg (by omega), if_pos rfl, if_neg fun h => hpid h.2]
      exact .pure rfl

/-- The pipeline with its redirections opened, from the first segment to the last wait. -/
theorem refines_executeLoop (line : Bytes) (p : Pipeline) (stdoutFd stdinFd : Nat)
    (hserves : follows = true → ∀ c ∈ (OnyxShell.executeLoop answers line p stdoutFd stdinFd S).forked,
      Serves (kernel answers follows started) dispatch c) :
    Refines (kernel answers follows started) (executeLoop dispatch line p stdoutFd stdinFd) S
      fun _ S' => S' = OnyxShell.executeLoop answers line p stdoutFd stdinFd S := by
  have hl : LikeLaunch ⟨stdinFd, 0, [], []⟩ (⟨S, stdinFd, 0, [], []⟩ : OnyxShell.Launch σ) :=
    ⟨rfl, rfl, rfl, nofun, rfl⟩
  rw [executeLoop]
  refine (refines_launchAll line stdoutFd stdinFd p.background p.segments hl hserves).bind ?_
  intro r S₁ hturn
  rw [OnyxShell.executeLoop]
  cases hlaunch : OnyxShell.launchAll answers line stdoutFd stdinFd p.segments
      ⟨S, stdinFd, 0, [], []⟩ with
  | error s =>
    rw [hlaunch] at hturn
    rcases hturn with ⟨rfl, rfl⟩
    exact .pure rfl
  | ok L =>
    rw [hlaunch] at hturn
    rcases hturn with ⟨rfl, l, rfl, hl'⟩
    exact refines_finishLaunch p.background hl'

/-! ### The exits of `execute` -/

/-- A command in the shell process does what `commands` says. -/
def Runs (M : Prog.Monitor SysCall Answer View) (dispatch : List Bytes → Sh Unit)
    (commands : Commands σ) (args : List Bytes) : Prop :=
  ∀ S S' : Shell σ, S.ended = [] → OnyxShell.dispatch commands args S = some S' →
    Refines M (dispatch args) S fun _ S₁ => S₁ = S'

/-- The arguments that a pipeline has dispatched in the shell process: those of a command without
redirections in the foreground, and those of an in-process builtin. -/
def RunsHere (line : Bytes) (p : Pipeline) (args : List Bytes) : Prop :=
  ∃ a rest, p.segments = [a :: rest] ∧ args = segToArgs line (a :: rest) ∧
    (isInprocessBuiltin (Span.of line a) = true ∨
      p.stdoutFile.2 = 0 ∧ p.stdinFile.2 = 0 ∧ p.background = false)

section
variable {commands : Commands σ} {line : Bytes} {p : Pipeline} {S' : Shell σ}

/-- A command with a background mark: a child with the descriptors of the shell, and its job. -/
theorem refines_background {a : Span} {rest : List Span}
    (h : OnyxShell.executePlain commands answers line (a :: rest) true S = some S')
    (hserves : follows = true → ∀ c ∈ S'.forked,
      Serves (kernel answers follows started) dispatch c) :
    Refines (kernel answers follows started) (executePlain dispatch line (a :: rest) true) S
      fun _ S₁ => S₁ = S' := by
  rw [OnyxShell.executePlain, if_neg (by simp), if_pos rfl] at h
  rw [executePlain, if_neg (by simp), if_pos rfl]
  cases hfork : S.fork answers with
  | mk result S₁ =>
    rw [hfork] at h
    have hshell : (S.fork answers).2 = S₁ := by rw [hfork]
    refine refines_fork ?_ ?_ ?_
    · intro e hneg he ans hret
      rw [hfork] at he
      cases he
      cases h
      rw [if_pos (by omega), hshell, hret]
      exact refines_writeErrorErrno _ e
    · -- The shell process.
      intro pid hpos he ans hret
      rw [hfork] at he
      cases he
      cases h
      rw [if_neg (by omega), if_neg (by omega), hshell, hret]
      let c : Child := ⟨pid, S₁.fds, segToArgs line (a :: rest)⟩
      have hlike : ∀ g v, Like S₁ g v → Like (S₁.start c) g v := fun _ _ h => ⟨h.jobs, h.view⟩
      exact .of_like hlike (refines_jobLaunched pid)
    · -- The child, which redirects nothing.
      intro hfollows pid he ans hret Q g s
      rw [hfork] at he
      cases he
      cases h
      rw [if_neg (by omega), if_pos hret]
      have hfds : S₁.fds = S.fds := by
        rw [← hshell, Shell.fork]
        split <;> rfl
      let c : Child := ⟨pid, S₁.fds, segToArgs line (a :: rest)⟩
      have hc : Serves (kernel answers follows started) dispatch c :=
        hserves hfollows c (List.mem_append_right _ (List.mem_singleton_self c))
      refine twp_childMain hfollows hc ?_ Q
      rw [← hfds]

/-- A single command without redirections: in the foreground the shell runs it itself, and in the
background it starts a child. -/
theorem refines_executePlain {seg : Segment} (hseg : p.segments = [seg])
    (hplain : p.stdoutFile.2 = 0 ∧ p.stdinFile.2 = 0)
    (hruns : ∀ args, RunsHere line p args →
      Runs (kernel answers follows started) dispatch commands args) (hended : S.ended = [])
    (h : OnyxShell.executePlain commands answers line seg p.background S = some S')
    (hserves : follows = true → ∀ c ∈ S'.forked,
      Serves (kernel answers follows started) dispatch c) :
    Refines (kernel answers follows started) (executePlain dispatch line seg p.background) S
      fun _ S₁ => S₁ = S' := by
  cases seg with
  | nil =>
    cases h
    exact .pure rfl
  | cons a rest =>
    cases hback : p.background with
    | false =>
      rw [hback, OnyxShell.executePlain, if_neg (by simp), if_neg (by simp)] at h
      rw [executePlain, if_neg (by simp), if_neg (by simp)]
      exact hruns _ ⟨a, rest, hseg, rfl, Or.inr ⟨hplain.1, hplain.2, hback⟩⟩ S S' hended h
    | true =>
      rw [hback] at h
      exact refines_background h hserves

/-- The choice between the builtin and the loop, behind the redirections. -/
theorem refines_executeOpened (stdoutFd stdinFd : Nat)
    (hruns : ∀ args, RunsHere line p args →
      Runs (kernel answers follows started) dispatch commands args) (hended : S.ended = [])
    (h : OnyxShell.executeOpened commands answers line p stdoutFd stdinFd S = some S')
    (hserves : follows = true → ∀ c ∈ S'.forked,
      Serves (kernel answers follows started) dispatch c) :
    Refines (kernel answers follows started) (executeOpened dispatch line p stdoutFd stdinFd) S
      fun _ S₁ => S₁ = S' := by
  have hloop : OnyxShell.executeLoop answers line p stdoutFd stdinFd S = S' →
      Refines (kernel answers follows started) (executeLoop dispatch line p stdoutFd stdinFd) S
        fun _ S₁ => S₁ = S' := by
    rintro rfl
    exact refines_executeLoop line p stdoutFd stdinFd hserves
  rw [OnyxShell.executeOpened] at h
  rw [executeOpened]
  split
  · -- An empty command, behind which nothing is closed.
    rename_i hsegs
    rw [hsegs] at h
    cases h
    exact .pure rfl
  · rename_i a args hsegs
    rw [hsegs] at h
    simp only at h
    split
    · -- A builtin that the shell process runs itself, without taking over the redirections.
      rename_i hbuiltin
      rw [if_pos hbuiltin] at h
      rcases Option.map_eq_some_iff.mp h with ⟨S₁, hdispatch, rfl⟩
      refine (hruns _ ⟨a, args, hsegs, rfl, Or.inl hbuiltin⟩ S S₁ hended hdispatch).bind ?_
      rintro _ S₂ rfl
      refine (refines_closeAboveTwo stdoutFd).bind ?_
      rintro _ S₃ rfl
      exact refines_closeAboveTwo stdinFd
    · rename_i hother
      rw [if_neg hother] at h
      exact hloop (Option.some.inj h)
  · rename_i hnil hcons
    refine hloop (Option.some.inj ?_)
    rw [← h]
    split
    · exact absurd ‹_› hnil
    · exact absurd ‹_› (hcons _ _)
    · rfl

/-- The file of a redirection changes the descriptors and the number of calls. -/
theorem ended_openFile (file : Span) (flags standard : Nat) :
    (openFile answers line file flags standard S).2.ended = S.ended := by
  rw [openFile]
  split
  · rcases Shell.sysOpen_frame answers (redirectPath line file) flags S with ⟨fds, calls, hframe⟩
    rw [hframe]
  · rfl

/-- `execute` from its first redirection on: a target that cannot be opened ends the pipeline
before anything is started. -/
theorem refines_executeRedirected
    (hruns : ∀ args, RunsHere line p args →
      Runs (kernel answers follows started) dispatch commands args) (hended : S.ended = [])
    (h : OnyxShell.executeRedirected commands answers line p S = some S')
    (hserves : follows = true → ∀ c ∈ S'.forked,
      Serves (kernel answers follows started) dispatch c) :
    Refines (kernel answers follows started) (executeRedirected dispatch line p) S
      fun _ S₁ => S₁ = S' := by
  rw [executeRedirected]
  refine (refines_openRedirect line p.stdoutFile OUT_FLAGS 1).bind ?_
  rintro _ _ ⟨rfl, rfl⟩
  have herr₁ := @openFile_error σ answers S line p.stdoutFile OUT_FLAGS 1
  have hended₁ : (openFile answers line p.stdoutFile OUT_FLAGS 1 S).2.ended = [] := by
    rw [ended_openFile, hended]
  have hopen₁ : openStdout answers line p S = openFile answers line p.stdoutFile OUT_FLAGS 1 S := rfl
  rw [OnyxShell.executeRedirected, hopen₁] at h
  cases hout : openFile answers line p.stdoutFile OUT_FLAGS 1 S with
  | mk out S₁ =>
  rw [hout] at h herr₁ hended₁
  refine (refines_openRedirect line p.stdinFile O_RDONLY 0).bind ?_
  rintro _ _ ⟨rfl, rfl⟩
  have herr₂ := @openFile_error σ answers S₁ line p.stdinFile O_RDONLY 0
  have hended₂ : (openFile answers line p.stdinFile O_RDONLY 0 S₁).2.ended = [] := by
    rw [ended_openFile, hended₁]
  have hopen₂ : openStdin answers line p S₁ = openFile answers line p.stdinFile O_RDONLY 0 S₁ := rfl
  simp only [hopen₂] at h
  cases hin : openFile answers line p.stdinFile O_RDONLY 0 S₁ with
  | mk inp S₂ =>
  rw [hin] at h herr₂ hended₂
  -- Both files are open by now, and only then the first one is looked at.
  cases out with
  | error e =>
    cases h
    have hneg : resultInt (.error e) < 0 := herr₁ rfl
    rw [if_pos hneg]
    exact refines_writeErrorErrno _ e
  | ok stdoutFd =>
    have hpos₁ : ¬ resultInt (.ok stdoutFd) < 0 := Int.not_lt.mpr (Int.natCast_nonneg _)
    rw [if_neg hpos₁]
    cases inp with
    | error e =>
      cases h
      have hneg : resultInt (.error e) < 0 := herr₂ rfl
      rw [if_pos hneg]
      refine (refines_writeErrorErrno _ e).bind ?_
      rintro _ S₃ rfl
      exact refines_closeAboveTwo stdoutFd
    | ok stdinFd =>
      have hpos₂ : ¬ resultInt (.ok stdinFd) < 0 := Int.not_lt.mpr (Int.natCast_nonneg _)
      rw [if_neg hpos₂]
      exact refines_executeOpened stdoutFd stdinFd hruns hended₂ h hserves

/-- **The executor refines its model.** -/
theorem refines_execute {turns : Nat} (hturns : S.ended.length < turns)
    (hruns : ∀ args, RunsHere line p args →
      Runs (kernel answers follows started) dispatch commands args)
    (h : OnyxShell.execute commands answers line p S = some S')
    (hserves : follows = true → ∀ c ∈ S'.forked,
      Serves (kernel answers follows started) dispatch c) :
    Refines (kernel answers follows started) (execute turns dispatch line p) S
      fun _ S₁ => S₁ = S' := by
  rw [execute]
  refine (refines_jobReap hturns).bind ?_
  rintro _ _ rfl
  have hended : S.jobReap.ended = [] := rfl
  rw [OnyxShell.execute] at h
  split
  · rename_i seg hseg
    rw [hseg] at h
    simp only at h
    split
    · rename_i hplain
      rw [if_pos hplain] at h
      exact refines_executePlain hseg hplain hruns hended h hserves
    · rename_i hredirected
      rw [if_neg hredirected] at h
      exact refines_executeRedirected hruns hended h hserves
  · rename_i hsegs
    refine refines_executeRedirected hruns hended ?_ hserves
    rw [← h]
    split
    · exact absurd ‹_› (hsegs _)
    · rfl

end

end

end OnyxShell.Process
