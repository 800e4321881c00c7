import OnyxShell.Proofs.Process.Main

/-!
# `OnyxShell.Proofs.Process.Runs`: what the shell does and never does

What `proper_of_makes` and the rules for the commands say of runs: about the descriptors, the
terminal, the paths, the children and the exits of a process. Two results are about single commands:
one that runs no script gives all its descriptors back, and only a few commands change files.
-/

set_option autoImplicit false

namespace OnyxShell.Process

variable {turns : Nat} {arg : ScriptArg} {events : List (Prog.Event SysCall Answer)} {c : SysCall}

/-! ### Sessions to look at -/

/-- A session without raw mode in which a line is typed, up to the command in it. -/
def cookedSession (line : String) : List (Prog.Event SysCall Answer) :=
  [(.write 1 VERSION_BANNER.toUTF8.toList, ⟨0, []⟩), (.ioctl 0 TIOCSRAW 0, ⟨-2, []⟩),
    (.write 1 PROMPT, ⟨0, []⟩), (.read 0 LINE_MAX, ⟨(bytes line).length, bytes line⟩),
    (.waitpid ANY_CHILD WNOHANG, ⟨0, []⟩)]

/-- A call that can be computed is made. -/
theorem makes_of_follow
    (hcall : ((shell turns arg).follow events).bind Prog.nextCall = some c)
    (hanswered : (conduct Policy.all).Answered Proc.init events) : Makes turns arg events c :=
  ⟨Prog.exists_trace hcall, hanswered⟩

/-- `cat /a`, where the file has just been opened. -/
def catSession : List (Prog.Event SysCall Answer) :=
  cookedSession "cat /a\n" ++ [(.sysOpen (bytes "/a") O_RDONLY, ⟨3, []⟩)]

/-- `cat` at the prompt comes to the read of its file. -/
theorem makes_catSession : Makes 1 none catSession (.read 3 BUF_LEN) :=
  makes_of_follow (by decide +kernel) (by decide +kernel)

/-- A pipeline whose two children have been started. -/
def pipeSession : List (Prog.Event SysCall Answer) :=
  cookedSession "ver | ver\n" ++
    [(.pipe, ⟨0, 3 :: zeros 7 ++ 4 :: zeros 7⟩), (.fork, ⟨10, []⟩), (.fork, ⟨11, []⟩),
      (.close 4, ⟨0, []⟩), (.close 3, ⟨0, []⟩)]

/-- A pipeline at the prompt comes to the wait for its first child. -/
theorem makes_pipeSession : Makes 1 none pipeSession (.waitpid 10 0) :=
  makes_of_follow (by decide +kernel) (by decide +kernel)

/-- The same pipeline up to the next prompt. -/
def promptSession : List (Prog.Event SysCall Answer) :=
  pipeSession ++ [(.waitpid 10 0, ⟨10, []⟩), (.waitpid 11 0, ⟨11, []⟩), (.write 1 PROMPT, ⟨0, []⟩)]

/-- A pipeline at the prompt is over and the shell reads the next line. -/
theorem makes_promptSession : Makes 2 none promptSession (.read 0 LINE_MAX) :=
  makes_of_follow (by decide +kernel) (by decide +kernel)

/-! ### The conduct of every process -/

/-- No call takes a standard descriptor from the shell itself. -/
theorem Proc.standard_next {s : Proc} {a : Answer} (hproper : s.Proper c)
    (h : s.generation = 0 → s.Standard) : (s.next c a).generation = 0 → (s.next c a).Standard := by
  have hopened : ∀ ret : Int, (s.opened ret).generation = 0 → (s.opened ret).Standard := by
    intro ret hgen fd hfd
    rw [Proc.opened] at hgen ⊢
    split at hgen
    · rename_i hret
      rw [if_pos hret]
      exact Finset.mem_insert_of_mem (h hgen fd hfd)
    · rename_i hret
      rw [if_neg hret]
      exact h hgen fd hfd
  have hparent : ∀ pid : Int, (s.parentOf pid).generation = 0 → (s.parentOf pid).Standard := by
    intro pid hgen fd hfd
    rw [s.generation_parentOf] at hgen
    rw [s.fds_parentOf]
    exact h hgen fd hfd
  cases c with
  | sysOpen path flags => exact hopened a.ret
  | create path => exact hopened a.ret
  | dup fd => exact hopened a.ret
  | spawn path argv => exact hparent a.ret
  | close fd =>
    -- In the shell itself, only descriptors above 2 are closed.
    intro hgen n hn
    have hgt : 2 < fd := hproper.2 hgen
    exact Finset.mem_erase.mpr ⟨by omega, h hgen n hn⟩
  | pipe =>
    simp only [Proc.next]
    split
    · intro hgen n hn
      exact Finset.mem_insert_of_mem (Finset.mem_insert_of_mem (h hgen n hn))
    · exact h
  | fork =>
    simp only [Proc.next]
    split
    · -- This is the child, which is not the shell itself.
      intro hgen
      exact absurd hgen (Nat.succ_ne_zero _)
    · exact hparent a.ret
  | _ => exact h

/-- The standard descriptors of the shell stay open along every proper run. -/
theorem standard_after {s : Proc} (hallowed : (conduct Policy.all).Allowed s events)
    (h : s.generation = 0 → s.Standard) :
    ((conduct Policy.all).after s events).generation = 0 →
      ((conduct Policy.all).after s events).Standard := by
  induction events generalizing s with
  | nil => exact h
  | cons e events ih => exact ih hallowed.2 (Proc.standard_next hallowed.1.1 h)

/-- **Descriptors.** In every run, each descriptor that a call uses is open, and those of the
terminal stay open in the shell itself. The argument, the number of turns and the answers of the
kernel are arbitrary. What is open is read off the events before the call (`Proc.behind`), in a
child from what it has inherited on. -/
theorem descriptors_of_makes (h : Makes turns arg events c) :
    (∀ fd ∈ c.descriptor, fd ∈ (Proc.behind events).fds) ∧
      ((Proc.behind events).generation = 0 →
        ∀ fd ≤ 2, fd ∈ (Proc.behind events).fds ∧ c ≠ .close fd) := by
  have hproper := proper_of_makes h
  constructor
  · intro fd hfd
    cases c with
    | close n => cases hfd; exact hproper.1
    | read n len => cases hfd; exact hproper.1
    | writeFd n buf => cases hfd; exact hproper
    | dup n => cases hfd; exact hproper
    | _ => cases hfd
  · intro hgen fd hfd
    constructor
    · exact standard_after (allowed_of_makes h) (fun _ => fine_init.standard) hgen fd hfd
    · rintro rfl
      have hgt := hproper.2 hgen
      omega

/-- The read of `cat` is at an open descriptor. The standard ones are open too, and the call
closes none of them. -/
theorem descriptors_of_makes_cat :
    (∀ fd ∈ (SysCall.read 3 BUF_LEN).descriptor, fd ∈ (Proc.behind catSession).fds) ∧
      ((Proc.behind catSession).generation = 0 →
        ∀ fd ≤ 2, fd ∈ (Proc.behind catSession).fds ∧ SysCall.read 3 BUF_LEN ≠ .close fd) :=
  descriptors_of_makes makes_catSession

/-- **The terminal.** A process that reads it is the shell itself: no child comes back to the
prompt. A child of a pipeline ends in `exit`, and one of `run` is a program of its own, so that
neither falls through into the prompt's loop. -/
theorem generation_of_makes {len : Nat} (h : Makes turns arg events (.read 0 len)) :
    (Proc.behind events).generation = 0 :=
  (proper_of_makes h).2 rfl

/-- Behind a pipeline that has forked twice, the process that reads the next line is the shell
itself, with its two children remembered. -/
theorem generation_of_makes_pipe : (Proc.behind promptSession).children = {10, 11} ∧
    (Proc.behind promptSession).generation = 0 :=
  ⟨by decide +kernel, generation_of_makes makes_promptSession⟩

/-- **Paths.** Where a call makes, removes, moves or enters something, the kernel reads the path
of a directory entry that has no `.`, no `..` and no empty name in it and fits the buffer. A path
that is only looked at may be another: `readdir` gets the directory part of a pattern as it was
typed. -/
theorem cleanPath_of_makes (h : Makes turns arg events c) : ∀ path ∈ c.changed, CleanPath path := by
  have hproper := proper_of_makes h
  intro path hpath
  cases c with
  | create p => rw [List.mem_singleton.mp hpath]; exact hproper
  | mkdir p => rw [List.mem_singleton.mp hpath]; exact hproper
  | unlink p => rw [List.mem_singleton.mp hpath]; exact hproper
  | chdir p => rw [List.mem_singleton.mp hpath]; exact hproper
  | rename p q =>
    rcases List.mem_cons.mp hpath with rfl | hq
    · exact hproper.1
    · rw [List.mem_singleton.mp hq]
      exact hproper.2
  | _ => cases hpath

/-- `cd /a/../b` gives `chdir` the path `/b`. -/
theorem cleanPath_of_makes_cd : CleanPath (bytes "/b") := by
  have hmakes : Makes 1 none (cookedSession "cd /a/../b\n") (.chdir (bytes "/b")) :=
    makes_of_follow (by decide +kernel) (by decide +kernel)
  exact cleanPath_of_makes hmakes (bytes "/b") List.mem_cons_self

/-- **Children.** No process sends a signal, and the shell itself waits only for children of its
own. Which processes are children is read off the events too, from the answers of `fork` and
`spawn`. -/
theorem children_of_makes (h : Makes turns arg events c) :
    (∀ pid sig, c ≠ .kill pid sig) ∧
      ∀ pid options, c = .waitpid pid options → options ≠ WNOHANG →
        (Proc.behind events).generation = 0 → pid ∈ (Proc.behind events).children := by
  have hproper := proper_of_makes h
  constructor
  · rintro pid sig rfl
    exact hproper
  · rintro pid options rfl hwait hgen
    rcases hproper with hnohang | hown
    · exact absurd hnohang hwait
    · exact hown hgen

/-- The process that is waited for is one that the shell has started. -/
theorem children_of_makes_pipe : 10 ∈ (Proc.behind pipeSession).children :=
  (children_of_makes makes_pipeSession).2 10 0 rfl (by decide) rfl

/-- **Exits.** No process ends in the panic handler: what the kernel claims to have stored is
sliced in its bounds, and the digits of a number always fit. The panic handler exits with 101, so
that the code 0 says that it was not entered. -/
theorem exit_of_makes {code : Nat} (h : Makes turns arg events (.exit code)) : code = 0 :=
  proper_of_makes h

/-- `exit`, up to the call. -/
def exitSession : List (Prog.Event SysCall Answer) :=
  cookedSession "exit\n" ++ [(.write 1 (bytes "logout"), ⟨0, []⟩), (.write 1 (bytes "\n"), ⟨0, []⟩)]

/-- `exit` at the prompt ends the shell with the code 0. -/
theorem exit_of_makes_exit : Makes 1 none exitSession (.exit 0) ∧ (0 : Nat) = 0 := by
  have hmakes : Makes 1 none exitSession (.exit 0) :=
    makes_of_follow (by decide +kernel) (by decide +kernel)
  exact ⟨hmakes, exit_of_makes hmakes⟩

/-! ### Single commands -/

section
variable {doScript : Bytes → Sh Unit} {cmd : Bytes} {rest : List Bytes} {g g' : Globals} {s : Proc}

/-- **Commands give back what they open**, on each of their exits. The commands that run scripts
are left out, since a script may run anything. The invariant of the shell is assumed before the
command and comes back behind it. -/
theorem fds_of_returns (hcmd : cmd ∉ SCRIPTING) (hfine : Fine g s)
    (htrace : Prog.Trace (runCommand turns doScript cmd rest g) events (.ret ((), g')))
    (hanswered : (conduct Policy.all).Answered s events) :
    ((conduct Policy.all).after s events).fds = s.fds ∧
      Fine g' ((conduct Policy.all).after s events) := by
  have hkeeps : Keeps Policy.all SameFds (runCommand turns doScript cmd rest) :=
    keeps_runCommand Policy.lenient_all frame_sameFds turns (fun _ => Policy.all_all)
      (fun hmem => absurd hmem hcmd) rest
  have hwp := hkeeps (fun _ g' s' => s'.fds = s.fds ∧ Fine g' s') g s hfine
    fun _ g' s' hfine' hsame => ⟨hsame.fds, hfine'⟩
  exact (Prog.wp_of_trace htrace hwp hanswered).2

/-- `cat /a`, by itself. -/
def catEvents : List (Prog.Event SysCall Answer) :=
  [(.sysOpen (bytes "/a") O_RDONLY, ⟨3, []⟩), (.read 3 BUF_LEN, ⟨0, []⟩), (.close 3, ⟨0, []⟩)]

/-- When `cat` has returned, the three standard descriptors are open and nothing else. -/
theorem fds_of_returns_cat : ((conduct Policy.all).after Proc.init catEvents).fds = {0, 1, 2} := by
  have htrace : ∃ r, Prog.Trace (runCommand 1 (fun _ => pure ()) (bytes "cat") [bytes "/a"]
      Globals.init) catEvents (.ret r) := Prog.exists_trace_ret (by decide +kernel)
  rcases htrace with ⟨⟨⟨⟩, g'⟩, htrace⟩
  exact (fds_of_returns (by decide) fine_init htrace (by decide +kernel)).1

/-- What the kernel may answer does not depend on the policy. -/
theorem answered_conduct {policy policy' : Policy} {s : Proc}
    (h : (conduct policy).Answered s events) : (conduct policy').Answered s events := by
  induction events generalizing s with
  | nil => trivial
  | cons e events ih => exact ⟨h.1, ih h.2⟩

/-- **Commands that change nothing.** All calls of a command but the few are harmless. The
exceptions are those that are for changing something, those that start programs and those that run
scripts. What is assumed of the state is the invariant that every state of the shell has. -/
theorem harmless_of_runs {k : Answer → Prog SysCall Answer (Unit × Globals)}
    (hchanging : cmd ∉ CHANGING) (hscripting : cmd ∉ SCRIPTING) (hfine : Fine g s)
    (htrace : Prog.Trace (runCommand turns doScript cmd rest g) events (.call c k))
    (hanswered : (conduct Policy.all).Answered s events) : c.Harmless := by
  have hkeeps : Keeps SysCall.Harmless Extends (runCommand turns doScript cmd rest) :=
    keeps_runCommand Policy.lenient_harmless frame_extends turns
      (fun hmem => absurd hmem hchanging) (fun hmem => absurd hmem hscripting) rest
  have hwp := hkeeps (fun _ _ _ => True) g s hfine fun _ _ _ _ _ => trivial
  exact (Prog.wp_of_trace htrace hwp (answered_conduct hanswered)).2.1.2

/-- The read that `cat` makes is one of the harmless calls. -/
theorem harmless_of_runs_cat : (SysCall.read 3 BUF_LEN).Harmless := by
  have htrace : ∃ k, Prog.Trace (runCommand 1 (fun _ => pure ()) (bytes "cat") [bytes "/a"]
      Globals.init) (catEvents.take 1) (.call (.read 3 BUF_LEN) k) :=
    Prog.exists_trace (by decide +kernel)
  rcases htrace with ⟨k, htrace⟩
  exact harmless_of_runs (by decide) (by decide) fine_init htrace (by decide +kernel)

end

end OnyxShell.Process
