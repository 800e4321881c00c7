import OnyxShell.Proofs.Process.Quiet

/-!
# `OnyxShell.Proofs.Process.Refinement`: both sides of a pipeline

What `Refines` says about runs. `execute_refines` is about the shell process, with the commands that
it runs itself, and `announce_started` about the children.

The shell runs a command itself where it stands alone in the foreground. If it is no in-process
builtin, it has to do what the pure model says of it. `Performs` is that condition, and
`performs_settled` gives it for every command outside of `INVOLVED`.
-/

set_option autoImplicit false

namespace OnyxShell.Process

open Routine (twp twp_bind twp_mono)

variable {σ α β : Type} {answers : Answers} {follows : Bool} {started : Child → Prop}

/-- A builtin that the shell process runs itself does what its model says. -/
theorem runs_builtin {turns : Nat} (hturns : 0 < turns) (doScript : Bytes → Sh Unit)
    (commands : Commands σ) {args : List Bytes} (h : isInprocessBuiltin (args.headD []) = true) :
    Runs (kernel answers follows started) (dispatch turns doScript) commands args := by
  intro S S' hended hdispatch
  cases args with
  | nil => cases h
  | cons cmd rest =>
    have hcmd : isInprocessBuiltin cmd = true := h
    -- `exit` is a builtin too, but it does not come back, and the model has no shell behind it.
    have hleave : ¬ (cmd = bytes "exit" ∨ cmd = bytes "logout") := by
      intro hleave
      simp only [OnyxShell.dispatch, if_pos hleave] at hdispatch
      cases hdispatch
    simp only [OnyxShell.dispatch, if_neg hleave, if_pos hcmd] at hdispatch
    have hlike : ∀ g v, Like S.jobReap g v → Like S' g v := by
      rintro g v ⟨hjobs, rfl⟩
      rw [← Option.some.inj hdispatch]
      exact ⟨hjobs, rfl⟩
    rw [dispatch]
    refine (refines_jobReap (by rw [hended]; exact hturns)).bind ?_
    rintro _ _ rfl
    have hquiet : Quiet (kernel answers follows started) (runCommand turns doScript cmd rest) :=
      quiet_runCommand turns doScript hcmd (fun hexit => hleave (Or.inl hexit)) rest
    exact .of_like hlike (hquiet.refines S')

/-! ### The shell process -/

/-- In runs of fewer than `n` calls, the function leads from the shell `S` to the shell `S'`. Such a
run has a next call, or the function has returned, and then the descriptors, the children, the calls
and the jobs are those of `S'`. -/
def Brings (answers : Answers) (n : Nat) (x : Sh Unit) (S S' : Shell σ) : Prop :=
  ∀ g events q, g.jobs = S.jobs → Prog.Trace (x g) events q →
    (kernel answers false fun _ => True).Answered ⟨S.outside, none⟩ events → events.length < n →
      (∃ c, q.nextCall = some c) ∨ ∃ g', q = .ret ((), g') ∧ g'.jobs = S'.jobs ∧
        (kernel answers false fun _ => True).after ⟨S.outside, none⟩ events = ⟨S'.outside, none⟩

/-- The command does what the model says, in runs of fewer than `n` calls. -/
def Performs (answers : Answers) (n : Nat) (dispatch : List Bytes → Sh Unit) (commands : Commands σ)
    (args : List Bytes) : Prop :=
  ∀ S S' : Shell σ, S.ended = [] → OnyxShell.dispatch commands args S = some S' →
    Brings answers n (dispatch args) S S'

section
variable {n : Nat} {x : Sh Unit} {S S' S₁ : Shell σ}

/-- The shell process is never gone: only a child may be. -/
theorem not_gone (v : View) : ¬ (kernel answers false fun _ => True).gone v :=
  fun hgone => nomatch hgone.1

/-- A refinement is about runs of any length. -/
theorem Refines.brings (h : Refines (kernel answers false fun _ => True) x S fun _ S₁ => S₁ = S')
    (n : Nat) : Brings answers n x S S' := by
  intro g events q hjobs htrace hanswered _
  rcases Prog.twp_run htrace (h g _ ⟨hjobs, rfl⟩) hanswered (not_gone _) with
    hcall | ⟨r, hret, _, rfl, hlike⟩
  · exact Or.inl hcall
  · exact Or.inr ⟨r.2, hret, hlike.jobs, hlike.view⟩

/-- One function behind another. -/
theorem Brings.behind {f : Unit → Sh Unit}
    (hx : Refines (kernel answers false fun _ => True) x S fun _ S₂ => S₂ = S₁)
    (hf : Brings answers n (f ()) S₁ S') : Brings answers n (x >>= f) S S' := by
  intro g events q hjobs htrace hanswered hlen
  -- Behind a run of the first function that has returned, the second has its hypotheses.
  have hthen : ∀ front back r, events = front ++ back → Prog.Trace (x g) front (.ret r) →
      Prog.Trace (f r.1 r.2) back q → (∃ c, q.nextCall = some c) ∨
        ∃ g', q = .ret ((), g') ∧ g'.jobs = S'.jobs ∧
          (kernel answers false fun _ => True).after ⟨S.outside, none⟩ events
            = ⟨S'.outside, none⟩ := by
    rintro front back r rfl hfront hback
    rcases Prog.Monitor.answered_append _ |>.mp hanswered with ⟨hanswered₁, hanswered₂⟩
    rcases hx.brings (front.length + 1) g front _ hjobs hfront hanswered₁ (Nat.lt_succ_self _) with
      ⟨c, hcall⟩ | ⟨g₁, hret, hjobs₁, hafter⟩
    · cases hcall
    · cases hret
      rw [hafter] at hanswered₂
      have hrest := hf g₁ back q hjobs₁ hback hanswered₂ (by rw [List.length_append] at hlen; omega)
      rwa [← hafter, Prog.Monitor.after, Prog.Monitor.after, ← List.foldl_append] at hrest
  rcases htrace.bind_cases with ⟨p', hp', rfl⟩ | ⟨r, front, back, hsplit, hfront, hback⟩
  · rcases hx.brings (events.length + 1) g events p' hjobs hp' hanswered (Nat.lt_succ_self _) with
      ⟨c, hcall⟩ | ⟨g₁, rfl, -, -⟩
    · -- A call of the first function.
      cases p' with
      | call c' k => exact Or.inl ⟨c', rfl⟩
      | _ => cases hcall
    · exact hthen events [] _ (List.append_nil _).symm hp' (.nil _)
  · exact hthen front back r hsplit hfront hback

/-- A settled function leads to a shell that looks the same. -/
theorem brings_of_settled (h : ∀ m < n, Settled (kernel answers false fun _ => True) m x)
    (hjobs' : S'.jobs = S.jobs) (houtside : S'.outside = S.outside) : Brings answers n x S S' := by
  intro g events q hjobs htrace hanswered hlen
  have htwp := h events.length hlen
    (fun _ g' v => g'.jobs = S'.jobs ∧ v.1 = ⟨S'.outside, none⟩) g S.outside 0 ?_
  · rcases Prog.twp_run_within htrace htwp hanswered (Nat.le_refl _) (not_gone _) with
      hcall | ⟨r, hret, hjobs₁, hafter⟩
    · exact Or.inl hcall
    · exact Or.inr ⟨r.2, hret, hjobs₁, hafter⟩
  · intro _ g' k' hsame _
    rw [houtside, hjobs']
    exact ⟨hsame.trans hjobs, rfl⟩

end

section
variable {turns n : Nat} {doScript : Bytes → Sh Unit} {commands : Commands σ} {line : Bytes}
  {p : Pipeline} {S S' : Shell σ}

/-- A settled command does what the model says, if the model leaves the shell alone as well. -/
theorem performs_settled {args : List Bytes} (hcmd : args.headD [] ∉ INVOLVED)
    (hother : ∀ S, commands.other args S = some S) :
    Performs answers turns (dispatch turns doScript) commands args := by
  intro S S' hended hdispatch
  rcases Nat.eq_zero_or_pos turns with rfl | hturns
  · exact fun _ _ _ _ _ _ hlen => absurd hlen (Nat.not_lt_zero _)
  · refine .behind (refines_jobReap (by rw [hended]; exact hturns)) ?_
    cases args with
    | nil =>
      cases hdispatch
      have hnone : Refines (kernel answers false fun _ => True) (pure ()) S.jobReap
          fun _ S₁ => S₁ = S.jobReap := .pure rfl
      exact hnone.brings turns
    | cons cmd rest =>
      have hleave : ¬ (cmd = bytes "exit" ∨ cmd = bytes "logout") := by
        have hin : bytes "exit" ∈ INVOLVED ∧ bytes "logout" ∈ INVOLVED := by decide
        rintro (rfl | rfl)
        · exact hcmd hin.1
        · exact hcmd hin.2
      simp only [OnyxShell.dispatch, if_neg hleave, hother] at hdispatch
      have hsettled : ∀ m < turns, Settled (kernel answers false fun _ => True) m
          (runCommand turns doScript cmd rest) :=
        fun m hm => settled_runCommand hm doScript hcmd rest
      split at hdispatch
      · cases hdispatch
        exact brings_of_settled hsettled rfl rfl
      · cases hdispatch
        exact brings_of_settled hsettled rfl rfl

/-- A command that the shell process runs itself and that is no in-process builtin stands alone in the
foreground, without redirections. It comes behind the ended children. -/
theorem execute_alone {args : List Bytes} (hhere : RunsHere line p args)
    (hother : isInprocessBuiltin (args.headD []) = false) (turns : Nat)
    (dispatch : List Bytes → Sh Unit) (commands : Commands σ) (answers : Answers) (S : Shell σ) :
    execute turns dispatch line p = (do jobReap turns; dispatch args) ∧
      OnyxShell.execute commands answers line p S = OnyxShell.dispatch commands args S.jobReap := by
  rcases hhere with ⟨a, rest, hseg, rfl, hbuiltin | ⟨hout, hin, hback⟩⟩
  · -- A builtin with redirections would have its name at the head of the arguments.
    rcases head_segToArgs rest hbuiltin with ⟨tail, hargs⟩
    rw [hargs] at hother
    exact absurd (hbuiltin.symm.trans hother) (by decide)
  · constructor
    · rw [execute, hseg]
      simp only [hout, hin, hback, and_self, if_true]
      rw [executePlain, if_neg (by simp), if_neg (by decide)]
    · rw [OnyxShell.execute, hseg]
      simp only [hout, hin, hback, and_self, if_true]
      rw [OnyxShell.executePlain, if_neg (by simp), if_neg (by decide)]

/-- **The shell process runs a pipeline as `OnyxShell.execute` says.** Each run of the calls has a
next call or has returned, and then the descriptors, the children and the jobs are those of the
model. This is for every line and every pipeline. A command that the shell process runs itself is an
in-process builtin, or it does what the parameter `commands` of the model says; `performs_settled` has
such commands. -/
theorem execute_refines (hturns : S.ended.length < turns)
    (hother : ∀ args, RunsHere line p args → isInprocessBuiltin (args.headD []) = false →
      Performs answers n (dispatch turns doScript) commands args)
    (hexecute : OnyxShell.execute commands answers line p S = some S') :
    Brings answers n (execute turns (dispatch turns doScript) line p) S S' := by
  by_cases hbuiltin : ∀ args, RunsHere line p args → isInprocessBuiltin (args.headD []) = true
  · have hruns : ∀ args, RunsHere line p args →
        Runs (kernel answers false fun _ => True) (dispatch turns doScript) commands args :=
      fun args hargs => runs_builtin (Nat.zero_lt_of_lt hturns) doScript commands (hbuiltin args hargs)
    exact (refines_execute hturns hruns hexecute nofun).brings n
  · -- One other command: it does what the model says, behind the ended children.
    rcases not_forall.mp hbuiltin with ⟨args, hown⟩
    rcases Classical.not_imp.mp hown with ⟨hhere, hnot⟩
    have hplain : isInprocessBuiltin (args.headD []) = false := Bool.eq_false_iff.mpr hnot
    rcases execute_alone hhere hplain turns (dispatch turns doScript) commands answers S with
      ⟨hprogram, hmodel⟩
    rw [hprogram]
    refine .behind (refines_jobReap hturns) ?_
    exact hother args hhere hplain S.jobReap S' rfl (hmodel.symm.trans hexecute)

/-- A line in a new shell: the run comes to an end, in the state that the model has for it. -/
def Arrives (line : Bytes) (events : List (Prog.Event SysCall Answer)) : Prop :=
  ∃ S' g', OnyxShell.execute Commands.idle (fun _ => none) line (parse line) (Shell.init ()) = some S' ∧
    Prog.Trace (execute 9 (dispatch 9 fun _ => pure ()) line (parse line) Globals.init) events
      (.ret ((), g')) ∧ g'.jobs = S'.jobs ∧
    (kernel (fun _ => none) false fun _ => True).after ⟨(Shell.init ()).outside, none⟩ events
      = ⟨S'.outside, none⟩

/-- Where both sides can be computed, a refinement says that the run arrives. -/
theorem arrives_of_brings {line : Bytes} {events : List (Prog.Event SysCall Answer)} {n : Nat}
    (hsome : (OnyxShell.execute Commands.idle (fun _ => none) line (parse line)
      (Shell.init ())).isSome = true)
    (hret : ((execute 9 (dispatch 9 fun _ => pure ()) line (parse line) Globals.init).follow
      events).any Prog.returned = true)
    (hanswered : (kernel (fun _ => none) false fun _ => True).Answered
      ⟨(Shell.init ()).outside, none⟩ events) (hlen : events.length < n)
    (hbrings : ∀ S', OnyxShell.execute Commands.idle (fun _ => none) line (parse line) (Shell.init ())
        = some S' →
      Brings (fun _ => none) n (execute 9 (dispatch 9 fun _ => pure ()) line (parse line))
        (Shell.init ()) S') : Arrives line events := by
  rcases Option.isSome_iff_exists.mp hsome with ⟨S', hexecute⟩
  rcases Prog.exists_trace_ret hret with ⟨r, htrace⟩
  rcases hbrings S' hexecute Globals.init events _ rfl htrace hanswered hlen with
    ⟨c, hcall⟩ | ⟨g', hr, hjobs, hafter⟩
  · cases hcall
  · cases hr
    exact ⟨S', g', hexecute, htrace, hjobs, hafter⟩

/-- `ls` in `/`, with one name. The shell looks for ended children twice, before the pipeline and
before the command. -/
def plainEvents : List (Prog.Event SysCall Answer) :=
  [(.waitpid ANY_CHILD WNOHANG, ⟨0, []⟩), (.waitpid ANY_CHILD WNOHANG, ⟨0, []⟩),
    (.getcwd PATH_MAX, ⟨1, bytes "/"⟩), (.readdir (bytes "/") NAME_LEN, ⟨1, bytes "a" ++ [0]⟩),
    (.write 1 (bytes "a"), ⟨1, []⟩), (.write 1 (bytes "\n"), ⟨1, []⟩),
    (.readdir (bytes "/") NAME_LEN, ⟨0, []⟩)]

/-- The shell process of `ls | wc`. -/
def pipedEvents : List (Prog.Event SysCall Answer) :=
  [(.waitpid ANY_CHILD WNOHANG, ⟨0, []⟩), (.pipe, ⟨0, 3 :: zeros 7 ++ 4 :: zeros 7⟩),
    (.fork, ⟨2, []⟩), (.fork, ⟨3, []⟩), (.close 4, ⟨0, []⟩), (.close 3, ⟨0, []⟩),
    (.waitpid 2 0, ⟨2, []⟩), (.waitpid 3 0, ⟨3, []⟩)]

/-- A command that the shell process runs itself, and one that it leaves to its children. -/
theorem execute_refines_lines :
    Arrives (bytes "ls") plainEvents ∧ Arrives (bytes "ls | wc") pipedEvents := by
  constructor
  · refine arrives_of_brings (by decide +kernel) (by decide +kernel) (by decide +kernel)
      (by decide : plainEvents.length < 9) ?_
    intro S' hexecute
    refine execute_refines (by decide) ?_ hexecute
    -- `ls` opens no file and starts no process, so it is settled.
    rintro args ⟨a, rest, hsegments, rfl, -⟩ -
    refine performs_settled ?_ fun _ => rfl
    have hls : (parse (bytes "ls")).segments = [[(0, 2)]] := by decide +kernel
    rw [hls] at hsegments
    cases hsegments
    decide +kernel
  · refine arrives_of_brings (by decide +kernel) (by decide +kernel) (by decide +kernel)
      (by decide : pipedEvents.length < 9) ?_
    intro S' hexecute
    refine execute_refines (by decide) ?_ hexecute
    -- Two segments: the shell process runs neither of them itself.
    rintro args ⟨a, rest, hsegments, -⟩ -
    have htwo : (parse (bytes "ls | wc")).segments.length = 2 := by decide +kernel
    rw [hsegments] at htwo
    cases htwo

end

/-! ### The children -/

/-- A command that is only announced changes nothing, and the idle commands do not either. -/
theorem runs_announce (args : List Bytes) :
    Runs (kernel answers follows started) announce Commands.idle args := by
  intro S S' hended hdispatch
  have hlike : ∀ g v, Like S g v → Like S' g v := by
    rintro g v ⟨hjobs, rfl⟩
    cases args with
    | nil =>
      simp only [OnyxShell.dispatch, jobReap_of_ended hended] at hdispatch
      cases hdispatch
      exact ⟨hjobs, rfl⟩
    | cons cmd rest =>
      simp only [OnyxShell.dispatch, jobReap_of_ended hended, Commands.idle] at hdispatch
      split_ifs at hdispatch
      · cases hdispatch
        exact ⟨hjobs, rfl⟩
      · cases hdispatch
        exact ⟨hjobs, rfl⟩
  refine .of_like hlike ((refines_quiet _ fun _ => rfl).bind ?_)
  rintro _ _ ⟨rfl, -⟩
  exact .pure rfl

/-- A child that may announce itself does. -/
theorem serves_announce {c : Child} (h : started c) :
    Serves (kernel answers follows started) announce c := by
  rintro g ⟨s, _ | ⟨pid, fds⟩⟩ hv
  · cases hv
  · cases hv
    exact ⟨h, fun _ _ => rfl⟩

/-- Which children may start plays no part in the answers. -/
theorem answered_started {started' : Child → Prop} {v : View}
    {events : List (Prog.Event SysCall Answer)}
    (h : (kernel answers follows started).Answered v events) :
    (kernel answers follows started').Answered v events := by
  induction events generalizing v with
  | nil => trivial
  | cons e events ih => exact ⟨h.1, ih h.2⟩

/-- **The children of a pipeline start as `OnyxShell.execute` says.** Where a run comes to a
command in a child, the pid, the descriptors and the arguments are those of a child of the model.
The run is followed into the child here, which `execute_refines` does not do. -/
theorem announce_started {turns : Nat} {line : Bytes} {p : Pipeline} {S S' : Shell Unit} {g : Globals}
    {events : List (Prog.Event SysCall Answer)} {name : Bytes} {args : List Bytes}
    {k : Answer → Prog SysCall Answer (Unit × Globals)} {pid : Nat} {fds : FdTable Description}
    (hturns : S.ended.length < turns) (hjobs : g.jobs = S.jobs)
    (hexecute : OnyxShell.execute Commands.idle answers line p S = some S')
    (htrace : Prog.Trace (execute turns announce line p g) events (.call (.spawn name args) k))
    (hanswered : (kernel answers true fun _ => True).Answered ⟨S.outside, none⟩ events)
    (hchild : ((kernel answers true fun _ => True).after ⟨S.outside, none⟩ events).child
      = some (pid, fds)) : ⟨pid, fds, args⟩ ∈ S'.forked := by
  -- The monitor that allows only the children of the model gets the same answers.
  have hanswered : (kernel answers true (· ∈ S'.forked)).Answered ⟨S.outside, none⟩ events :=
    answered_started hanswered
  have hchild : ((kernel answers true (· ∈ S'.forked)).after ⟨S.outside, none⟩ events).child
      = some (pid, fds) := hchild
  have hrefines : Refines (kernel answers true (· ∈ S'.forked)) (execute turns announce line p) S
      fun _ S₁ => S₁ = S' :=
    refines_execute hturns (fun args _ => runs_announce args) hexecute
      fun _ _ hc => serves_announce hc
  have hallows := (Prog.twp_of_trace htrace (hrefines g _ ⟨hjobs, rfl⟩) hanswered).2.1
  revert hallows hchild
  cases (kernel answers true (· ∈ S'.forked)).after ⟨S.outside, none⟩ events with
  | mk s child =>
    rintro rfl hallows
    exact hallows

/-- The child of `wc` in `ls | wc`, which has its input at 0. -/
def childEvents : List (Prog.Event SysCall Answer) :=
  [(.waitpid ANY_CHILD WNOHANG, ⟨0, []⟩), (.pipe, ⟨0, 3 :: zeros 7 ++ 4 :: zeros 7⟩),
    (.fork, ⟨2, []⟩), (.fork, ⟨0, []⟩), (.close 0, ⟨0, []⟩), (.dup 3, ⟨0, []⟩)]

/-- `ls | wc` starts a child for `wc` whose standard input is the reading end of the pipe, from a
run that goes on in that child. -/
theorem announce_started_piped : ∃ S', OnyxShell.execute Commands.idle (fun _ => none)
      (bytes "ls | wc") (parse (bytes "ls | wc")) (Shell.init ()) = some S' ∧
    ⟨3, ⟨[some (.pipeRead 0), some (.object 1), some (.object 2), some (.pipeRead 0),
      some (.pipeWrite 0)]⟩, [bytes "wc"]⟩ ∈ S'.forked := by
  have hsome : (OnyxShell.execute Commands.idle (fun _ => none) (bytes "ls | wc")
      (parse (bytes "ls | wc")) (Shell.init ())).isSome = true := by
    decide +kernel
  rcases Option.isSome_iff_exists.mp hsome with ⟨S', hexecute⟩
  have htrace : ∃ k, Prog.Trace (execute 1 announce (bytes "ls | wc") (parse (bytes "ls | wc"))
      Globals.init) childEvents (.call (.spawn [] [bytes "wc"]) k) :=
    Prog.exists_trace (by decide +kernel)
  rcases htrace with ⟨k, htrace⟩
  exact ⟨S', hexecute, announce_started (by decide) rfl hexecute htrace (by decide +kernel)
    (by decide +kernel)⟩

end OnyxShell.Process
