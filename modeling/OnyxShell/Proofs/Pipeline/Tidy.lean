import OnyxShell.Pipeline.Tidy
import OnyxShell.Proofs.Pipeline.Exec

/-!
# `OnyxShell.Proofs.Pipeline.Tidy`: when the executor keeps its books

`execute_balanced_iff` says that `execute` leaves the descriptors and the children of the
shell in order on the inputs `Tidy` describes, and on no others.

What is left open is found with two run lemmas about one descriptor: `launchAll_error` for
the exits inside the segment loop, `launchAll_ok` for the end of the loop. A descriptor
that the shell had before is never closed, and of the ones that `execute` opens each exit
forgets some.
-/

set_option autoImplicit false

namespace OnyxShell

variable {σ : Type} {answers : Answers} {line : Bytes} {stdoutFd stdinFd : Nat}

/-! ### One descriptor through the segment loop -/

/-- What is open behind a `pipe`. -/
theorem isOpen_afterPipe {s : Shell σ} {n : Nat} :
    s.afterPipe.fds.IsOpen n ↔ n = s.writeEnd ∨ n = s.fds.lowestFree ∨ s.fds.IsOpen n := by
  simp only [Shell.afterPipe, FdTable.isOpen_alloc, Shell.writeEnd]

/-- An open descriptor is not one that a `pipe` returns. -/
theorem ne_of_isOpen {s : Shell σ} {d : Nat} (h : s.fds.IsOpen d) :
    d ≠ s.writeEnd ∧ d ≠ s.fds.lowestFree := by
  constructor
  · rintro rfl
    exact FdTable.not_isOpen_lowestFree _ (FdTable.isOpen_alloc.mpr (Or.inr h))
  · rintro rfl
    exact FdTable.not_isOpen_lowestFree _ h

/-- The turns of the loop that go on to the next one. -/
theorem spawnSegment_ok {isLast : Bool} {seg : Segment} {l l' : Launch σ}
    (h : spawnSegment answers line stdoutFd stdinFd seg isLast l = .ok l') :
    (seg = [] ∧ l' = l) ∨
    (seg ≠ [] ∧ isLast = true ∧ answers l.shell.calls = none ∧
      l' = l.spawned l.shell.afterFork line seg (l.shell.lastPid + 1) stdoutFd l.prevReadFd
        stdoutFd stdinFd) ∨
    (seg ≠ [] ∧ isLast = false ∧ answers l.shell.calls = none ∧
      answers (l.shell.calls + 1) = none ∧
      l' = l.spawned l.shell.afterPipe.afterFork line seg (l.shell.lastPid + 1)
        l.shell.writeEnd l.shell.fds.lowestFree stdoutFd stdinFd) := by
  by_cases hseg : seg = []
  · subst hseg
    rw [spawnSegment_nil] at h
    cases h
    exact Or.inl ⟨rfl, rfl⟩
  -- The calls of the turn decide, in the order the loop makes them.
  cases isLast with
  | true =>
    cases hfork : answers l.shell.calls with
    | none =>
      rw [spawnSegment_last hseg hfork] at h
      cases h
      exact Or.inr (Or.inl ⟨hseg, rfl, rfl, rfl⟩)
    | some e =>
      rw [spawnSegment_last_fail hseg hfork] at h
      cases h
  | false =>
    cases hpipe : answers l.shell.calls with
    | some e =>
      rw [spawnSegment_pipe_fail hseg hpipe] at h
      cases h
    | none =>
      cases hfork : answers (l.shell.calls + 1) with
      | some e =>
        rw [spawnSegment_fork_fail hseg hpipe hfork] at h
        cases h
      | none =>
        rw [spawnSegment_pipe hseg hpipe hfork] at h
        cases h
        exact Or.inr (Or.inr ⟨hseg, rfl, rfl, rfl, rfl⟩)

/-- A turn that returns closes at most the descriptors of that turn. -/
theorem spawnSegment_error {isLast : Bool} {seg : Segment} {l : Launch σ} {s' : Shell σ} {d : Nat}
    (h : spawnSegment answers line stdoutFd stdinFd seg isLast l = .error s')
    (hopen : l.shell.fds.IsOpen d)
    (hd : d ≤ 2 ∨ (d ≠ l.prevReadFd ∨ d = stdinFd) ∧ d ≠ stdoutFd) : s'.fds.IsOpen d := by
  by_cases hseg : seg = []
  · subst hseg
    cases h
  obtain ⟨hw, -⟩ := ne_of_isOpen hopen
  cases isLast with
  | true =>
    cases hfork : answers l.shell.calls with
    | none =>
      rw [spawnSegment_last hseg hfork] at h
      cases h
    | some e =>
      -- No pipe was made, so the two closes are of the ends of the chain.
      rw [spawnSegment_last_fail hseg hfork] at h
      cases h
      rw [isOpen_forkFailed]
      exact ⟨hopen, by omega⟩
  | false =>
    cases hpipe : answers l.shell.calls with
    | some e =>
      rw [spawnSegment_pipe_fail hseg hpipe] at h
      cases h
      exact hopen
    | none =>
      cases hfork : answers (l.shell.calls + 1) with
      | some e =>
        -- The new pipe is open by now, and of its ends only the write end is closed.
        rw [spawnSegment_fork_fail hseg hpipe hfork] at h
        cases h
        rw [isOpen_forkFailed]
        exact ⟨isOpen_afterPipe.mpr (Or.inr (Or.inr hopen)), by omega⟩
      | none =>
        rw [spawnSegment_pipe hseg hpipe hfork] at h
        cases h

/-- A turn that goes on leaves an open descriptor open, and does not make it the next
`prev_read_fd`. -/
theorem spawnSegment_keeps {isLast : Bool} {seg : Segment} {l l' : Launch σ} {d : Nat}
    (h : spawnSegment answers line stdoutFd stdinFd seg isLast l = .ok l')
    (hopen : l.shell.fds.IsOpen d) :
    l'.shell.fds.IsOpen d ∧ (d ≠ l.prevReadFd → d ≠ l'.prevReadFd) := by
  rcases spawnSegment_ok h with ⟨-, rfl⟩ | ⟨-, -, -, rfl⟩ | ⟨-, -, -, -, rfl⟩
  · exact ⟨hopen, id⟩
  · exact ⟨hopen, id⟩
  · -- Behind a pipe the next input is a new number, so it is not `d`.
    exact ⟨isOpen_afterPipe.mpr (Or.inr (Or.inr hopen)), fun _ => (ne_of_isOpen hopen).2⟩

/-- A turn that goes on puts no other descriptor on the list to close than the two of that
turn. -/
theorem spawnSegment_parentClose {isLast : Bool} {seg : Segment} {l l' : Launch σ} {d : Nat}
    (h : spawnSegment answers line stdoutFd stdinFd seg isLast l = .ok l')
    (hopen : l.shell.fds.IsOpen d) (hd : d ≠ l.prevReadFd ∨ d = stdinFd)
    (hclose : some d ∉ l.parentClose) : some d ∉ l'.parentClose := by
  have hentry : ∀ w, d ≠ w ∨ w = stdoutFd →
      some d ∉ l.parentClose ++ [parentCloseEntry l.prevReadFd w stdoutFd stdinFd] := by
    intro w hw hmem
    rcases List.mem_append.mp hmem with hmem | hmem
    · exact hclose hmem
    · rw [List.mem_singleton, parentCloseEntry] at hmem
      grind
  -- A segment without a command adds no entry, the last one adds none for `stdout_fd`.
  rcases spawnSegment_ok h with ⟨-, rfl⟩ | ⟨-, -, -, rfl⟩ | ⟨-, -, -, -, rfl⟩
  · exact hclose
  · exact hentry _ (Or.inr rfl)
  · exact hentry _ (Or.inl (ne_of_isOpen hopen).1)

/-- What the exits inside the loop leave open. -/
theorem launchAll_error {segs : List Segment} {l : Launch σ} {s' : Shell σ} {d : Nat}
    (h : launchAll answers line stdoutFd stdinFd segs l = .error s')
    (hopen : l.shell.fds.IsOpen d)
    (hd : d ≤ 2 ∨ (d ≠ l.prevReadFd ∨ d = stdinFd) ∧ d ≠ stdoutFd) : s'.fds.IsOpen d := by
  -- The loop variables change with each turn, so the induction is for every `l`.
  induction segs generalizing l with
  | nil => cases h
  | cons seg rest ih =>
    rw [launchAll] at h
    cases hturn : spawnSegment answers line stdoutFd stdinFd seg rest.isEmpty l with
    | error s1 =>
      rw [hturn] at h
      cases h
      exact spawnSegment_error hturn hopen hd
    | ok l1 =>
      rw [hturn] at h
      obtain ⟨hopen1, hread⟩ := spawnSegment_keeps hturn hopen
      exact ih h hopen1 (by tauto)

/-- What the end of the loop leaves open. -/
theorem launchAll_ok {segs : List Segment} {l l' : Launch σ} {d : Nat}
    (h : launchAll answers line stdoutFd stdinFd segs l = .ok l')
    (hopen : l.shell.fds.IsOpen d)
    (hd : d ≤ 2 ∨ (d ≠ l.prevReadFd ∨ d = stdinFd) ∧ some d ∉ l.parentClose) :
    (closeParent l'.parentClose l'.shell).fds.IsOpen d := by
  induction segs generalizing l with
  | nil =>
    cases h
    rw [isOpen_closeParent]
    exact ⟨hopen, by rcases hd with hd | hd <;> [omega; tauto]⟩
  | cons seg rest ih =>
    rw [launchAll] at h
    cases hturn : spawnSegment answers line stdoutFd stdinFd seg rest.isEmpty l with
    | error s1 =>
      rw [hturn] at h
      cases h
    | ok l1 =>
      rw [hturn] at h
      obtain ⟨hopen1, hread⟩ := spawnSegment_keeps hturn hopen
      refine ih h hopen1 (hd.imp_right fun ⟨h1, h2⟩ => ⟨by tauto, ?_⟩)
      exact spawnSegment_parentClose hturn hopen h1 h2

/-- The two together, for a descriptor that neither kind of exit closes. -/
theorem isOpen_launchResult (answers : Answers) (line : Bytes) (stdoutFd stdinFd : Nat)
    (segs : List Segment) (bg : Bool) {l : Launch σ} {d e : Nat}
    (hd : l.shell.fds.IsOpen d) (hd' : d ≤ 2 ∨ (d ≠ l.prevReadFd ∨ d = stdinFd) ∧ d ≠ stdoutFd)
    (he : l.shell.fds.IsOpen e)
    (he' : e ≤ 2 ∨ (e ≠ l.prevReadFd ∨ e = stdinFd) ∧ some e ∉ l.parentClose) :
    (launchResult bg (launchAll answers line stdoutFd stdinFd segs l)).fds.IsOpen d ∨
      (launchResult bg (launchAll answers line stdoutFd stdinFd segs l)).fds.IsOpen e := by
  cases h : launchAll answers line stdoutFd stdinFd segs l with
  | error s' => exact Or.inl (launchAll_error h hd hd')
  | ok l' =>
    refine Or.inr ?_
    rw [launchResult, (finishLaunch_frame bg l').1]
    exact launchAll_ok h he he'

/-! ### The segment loop -/

/-- A descriptor that is open afterwards and was not before. -/
theorem not_balanced {p : Pipeline} {s s' : Shell σ} {d : Nat} (hs : ¬ s.fds.IsOpen d)
    (hs' : s'.fds.IsOpen d) : ¬ Balanced p s s' :=
  fun h => hs ((h.1 d).mpr hs')

/-- A segment without a command does not change the rest of the loop. -/
theorem launchAll_nil_cons {rest : List Segment} {l : Launch σ} :
    launchAll answers line stdoutFd stdinFd ([] :: rest) l
      = launchAll answers line stdoutFd stdinFd rest l := rfl

/-- One command has been started behind the pipe `(r, w)`, and nothing else is open. -/
structure FirstStarted (s : Shell σ) (l : Launch σ) (r w : Nat) (c : Child) : Prop where
  r_high : 2 < r
  w_high : 2 < w
  ne : r ≠ w
  isOpen : ∀ n, l.shell.fds.IsOpen n ↔ s.fds.IsOpen n ∨ n = r ∨ n = w
  r_new : ¬ s.fds.IsOpen r
  w_new : ¬ s.fds.IsOpen w
  prevReadFd : l.prevReadFd = r
  parentClose : l.parentClose = [some w]
  forked : l.shell.forked = s.forked ++ [c]
  spawnedPids : l.spawnedPids = [c.pid]
  waited : l.shell.waited = s.waited

section

variable {p : Pipeline} {s : Shell σ} {l : Launch σ} {r w : Nat} {c : Child}

/-- The reading end of the first pipe is open in the parent when the second segment's turn
begins. -/
theorem FirstStarted.isOpen_r (h : FirstStarted s l r w c) : l.shell.fds.IsOpen r :=
  (h.isOpen r).mpr (by simp)

/-- The writing end of the first pipe is open too, since the parent closes the ends behind the
loop only. -/
theorem FirstStarted.isOpen_w (h : FirstStarted s l r w c) : l.shell.fds.IsOpen w :=
  (h.isOpen w).mpr (by simp)

/-- Without a second command nobody reads the pipe, and the shell keeps its read end. -/
theorem FirstStarted.not_balanced_alone (h : FirstStarted s l r w c) :
    ¬ Balanced p s (finishLaunch p.background l) := by
  refine not_balanced h.r_new ?_
  rw [(finishLaunch_frame _ _).1, isOpen_closeParent, h.parentClose]
  exact ⟨h.isOpen_r, by simp [h.ne]⟩

/-- With a second command that is the last one, both ends are on the list to close, and both
children are waited for. -/
theorem FirstStarted.balanced_last (h : FirstStarted s l r w c) (seg : Segment) :
    Balanced p s (finishLaunch p.background
      (l.spawned l.shell.afterFork line seg (l.shell.lastPid + 1) 1 l.prevReadFd 1 0)) := by
  obtain ⟨hfds, hforked, -, hwaited⟩ := finishLaunch_frame p.background
    (l.spawned l.shell.afterFork line seg (l.shell.lastPid + 1) 1 l.prevReadFd 1 0)
  have := h.r_high
  have hentry : parentCloseEntry r 1 1 0 = some r := by
    rw [parentCloseEntry, if_pos (by omega)]
  constructor
  · intro n
    rw [hfds, isOpen_closeParent]
    simp only [Launch.spawned, Shell.fds_start, Shell.fds_afterFork, h.isOpen, h.parentClose,
      h.prevReadFd, hentry, List.singleton_append, List.mem_cons, Option.some.injEq,
      List.not_mem_nil, or_false]
    have := h.r_new
    have := h.w_new
    have := h.w_high
    grind
  · intro hbg
    refine ⟨[c, ⟨l.shell.lastPid + 1, childFds l.shell.fds l.prevReadFd 1, segToArgs line seg⟩],
      [c.pid, l.shell.lastPid + 1], ?_, ?_, ?_⟩
    · rw [hforked]
      simp [Launch.spawned, Shell.afterFork, h.forked]
    · rw [hwaited hbg]
      simp [Launch.spawned, Shell.afterFork, h.waited, h.spawnedPids]
    · simp

/-- With a second command that is not the last one, the shell keeps the write end of the pipe
behind it. -/
theorem FirstStarted.not_balanced_middle (h : FirstStarted s l r w c) (seg : Segment)
    (segs : List Segment) :
    ¬ Balanced p s (launchResult p.background (launchAll answers line 1 0 segs
      (l.spawned l.shell.afterPipe.afterFork line seg (l.shell.lastPid + 1) l.shell.writeEnd
        l.shell.fds.lowestFree 1 0))) := by
  have hnew : ¬ s.fds.IsOpen l.shell.writeEnd := fun hopen =>
    (ne_of_isOpen ((h.isOpen _).mpr (Or.inl hopen))).1 rfl
  have hread : l.shell.fds.lowestFree < l.shell.writeEnd := FdTable.lowestFree_lt_alloc _ _
  have hwr := (ne_of_isOpen h.isOpen_w).1
  have hrr := (ne_of_isOpen h.isOpen_r).1
  have := h.r_high
  have hentry : parentCloseEntry r l.shell.writeEnd 1 0 = some r := by
    rw [parentCloseEntry, if_pos (by omega)]
  -- It is neither the next input nor on the list to close.
  have hprev : l.shell.writeEnd ≠ l.shell.fds.lowestFree := by omega
  have hclose : some l.shell.writeEnd ∉
      (l.spawned l.shell.afterPipe.afterFork line seg (l.shell.lastPid + 1)
        l.shell.writeEnd l.shell.fds.lowestFree 1 0).parentClose := by
    simp only [Launch.spawned, h.parentClose, h.prevReadFd, hentry]
    simp [Ne.symm hwr, Ne.symm hrr]
  have hstray := isOpen_launchResult answers line 1 0 segs p.background
    (l := l.spawned l.shell.afterPipe.afterFork line seg (l.shell.lastPid + 1)
      l.shell.writeEnd l.shell.fds.lowestFree 1 0)
    (d := l.shell.writeEnd) (e := l.shell.writeEnd)
    (isOpen_afterPipe.mpr (Or.inl rfl))
    (or_iff_not_imp_left.mpr fun h => ⟨Or.inl hprev, by omega⟩)
    (isOpen_afterPipe.mpr (Or.inl rfl)) (Or.inr ⟨Or.inl hprev, hclose⟩)
  exact not_balanced hnew (hstray.elim id id)

/-- The books when one command has been started and nothing else is open: the second command
has to be the last one. -/
theorem FirstStarted.balanced_iff (h : FirstStarted s l r w c) {segs : List Segment}
    (hne : segs ≠ []) :
    Balanced p s (launchResult p.background (launchAll answers line 1 0 segs l)) ↔
      answers l.shell.calls = none ∧ (∀ seg ∈ segs.dropLast, seg = []) ∧
        ∀ seg ∈ segs.getLast?, seg ≠ [] := by
  have hhigh := h.w_high
  have hread : w ≠ l.prevReadFd := h.prevReadFd ▸ h.ne.symm
  -- Only a leading segment without a command keeps `l`, and that is where `ih` is used.
  induction segs with
  | nil => exact absurd rfl hne
  | cons seg rest ih =>
    cases rest with
    | nil =>
      by_cases hseg : seg = []
      · subst hseg
        exact iff_of_false h.not_balanced_alone (by simp)
      · cases hfork : answers l.shell.calls with
        | some e =>
          -- The `fork` fails, and the write end of the first pipe stays open.
          refine iff_of_false (not_balanced h.w_new ?_) (by simp)
          simp only [launchAll, List.isEmpty_nil, spawnSegment_last_fail hseg hfork, launchResult]
          rw [isOpen_forkFailed]
          exact ⟨h.isOpen_w, by omega⟩
        | none =>
          refine iff_of_true ?_ (by simp [hseg])
          simp only [launchAll, List.isEmpty_nil, spawnSegment_last hseg hfork, launchResult]
          exact h.balanced_last seg
    | cons next rest =>
      by_cases hseg : seg = []
      · subst hseg
        rw [launchAll_nil_cons]
        exact (ih (List.cons_ne_nil _ _)).trans (by simp)
      · refine iff_of_false ?_ (by simp [hseg])
        rw [launchAll]
        cases hturn : spawnSegment answers line 1 0 seg (next :: rest).isEmpty l with
        | error s' =>
          exact not_balanced h.w_new (spawnSegment_error hturn h.isOpen_w (by omega))
        | ok l1 =>
          rcases spawnSegment_ok hturn with ⟨hnil, -⟩ | ⟨-, hlast, -⟩ | ⟨-, -, -, -, rfl⟩
          · exact absurd hnil hseg
          · simp at hlast
          · exact h.not_balanced_middle seg (next :: rest)

end

/-! ### The redirections -/

/-- The shell `s'` behind the two redirections of a pipeline, when both have opened:
`out` and `inp` say which files there are, `outFd` and `inFd` are their descriptors. -/
structure Redirected (s s' : Shell σ) (out inp : Prop) (outFd inFd : Nat) : Prop where
  isOpen : ∀ n, s'.fds.IsOpen n ↔ s.fds.IsOpen n ∨ (out ∧ n = outFd) ∨ (inp ∧ n = inFd)
  out_new : out → ¬ s.fds.IsOpen outFd
  inp_new : inp → ¬ s.fds.IsOpen inFd
  out_default : ¬ out → outFd = 1
  inp_default : ¬ inp → inFd = 0
  ne : out → inp → inFd ≠ outFd
  out_high : out → (2 < outFd ↔ StandardOpen s)
  inp_high : inp → (2 < inFd → out ∨ StandardOpen s) ∧ (StandardOpen s → 2 < inFd)
  forked : s'.forked = s.forked
  waited : s'.waited = s.waited

/-- The output file is open. -/
theorem Redirected.isOpen_out {s s' : Shell σ} {out inp : Prop} {outFd inFd : Nat}
    (h : Redirected s s' out inp outFd inFd) (hout : out) : s'.fds.IsOpen outFd :=
  (h.isOpen outFd).mpr (Or.inr (Or.inl ⟨hout, rfl⟩))

/-- The input file is open. -/
theorem Redirected.isOpen_inp {s s' : Shell σ} {out inp : Prop} {outFd inFd : Nat}
    (h : Redirected s s' out inp outFd inFd) (hinp : inp) : s'.fds.IsOpen inFd :=
  (h.isOpen inFd).mpr (Or.inr (Or.inr ⟨hinp, rfl⟩))

/-- The shell has the descriptors it had before when there was no file to open. -/
theorem Redirected.sameOpen_iff {s s' : Shell σ} {out inp : Prop} {outFd inFd : Nat}
    (h : Redirected s s' out inp outFd inFd) : s.fds.SameOpen s'.fds ↔ ¬ out ∧ ¬ inp := by
  constructor
  · intro hsame
    have hout : ¬ out := by
      intro hout
      exact h.out_new hout ((hsame outFd).mpr (h.isOpen_out hout))
    have hinp : ¬ inp := by
      intro hinp
      exact h.inp_new hinp ((hsame inFd).mpr (h.isOpen_inp hinp))
    exact ⟨hout, hinp⟩
  · rintro ⟨hout, hinp⟩ n
    rw [h.isOpen]
    tauto

/-- With nothing new forked, the books are in order when nothing was left open. -/
theorem balanced_iff_of_forked {p : Pipeline} {s s' : Shell σ} (hforked : s'.forked = s.forked)
    (hwaited : p.background = false → s'.waited = s.waited) :
    Balanced p s s' ↔ s.fds.SameOpen s'.fds :=
  ⟨And.left, fun h => ⟨h, fun hbg => ⟨[], [], by simp [hforked], by simp [hwaited hbg], by simp⟩⟩⟩

/-- One command that is the last segment, started. -/
theorem lastOnly_balanced_iff {p : Pipeline} {s s' : Shell σ} {out inp : Prop} {outFd inFd : Nat}
    (h : Redirected s s' out inp outFd inFd) (seg : Segment) :
    Balanced p s (finishLaunch p.background ((⟨s', inFd, 0, [], []⟩ : Launch σ).spawned s'.afterFork
      line seg (s'.lastPid + 1) outFd inFd outFd inFd)) ↔ ¬ out ∧ ¬ inp := by
  obtain ⟨hfds, hforked, -, hwaited⟩ := finishLaunch_frame p.background
    ((⟨s', inFd, 0, [], []⟩ : Launch σ).spawned s'.afterFork line seg (s'.lastPid + 1) outFd inFd
      outFd inFd)
  -- Both ends are the redirections, which the loop does not put on its list.
  have hentry : parentCloseEntry inFd outFd outFd inFd = none := by simp [parentCloseEntry]
  have hsame : ((⟨s', inFd, 0, [], []⟩ : Launch σ).spawned s'.afterFork line seg (s'.lastPid + 1)
      outFd inFd outFd inFd).parentClose = [none] := by simp [Launch.spawned, hentry]
  rw [hsame] at hfds
  rw [Balanced, hfds, ← h.sameOpen_iff]
  refine and_iff_left fun hbg => ⟨[⟨s'.lastPid + 1, childFds s'.fds inFd outFd,
    segToArgs line seg⟩], [s'.lastPid + 1], ?_, ?_, by simp⟩
  · rw [hforked, ← h.forked]
    rfl
  · rw [hwaited hbg, ← h.waited]
    rfl

/-- One command that is the last segment, with a `fork` that fails: the output file is
closed when its number is above 2. -/
theorem forkFailed_balanced_iff {p : Pipeline} {s s' : Shell σ} {out inp : Prop} {outFd inFd n : Nat}
    {ret : Int} (h : Redirected s s' out inp outFd inFd) :
    Balanced p s (({ s' with calls := n } : Shell σ).forkFailed ret inFd outFd inFd) ↔
      ¬ inp ∧ (out → StandardOpen s) := by
  obtain ⟨hforked, hwaited⟩ := frame_forkFailed ({ s' with calls := n } : Shell σ) ret inFd outFd inFd
  rw [balanced_iff_of_forked (hforked.trans h.forked) fun _ => hwaited.trans h.waited]
  have hopen : ∀ m, (({ s' with calls := n } : Shell σ).forkFailed ret inFd outFd inFd).fds.IsOpen m ↔
      s'.fds.IsOpen m ∧ ¬ (m > 2 ∧ m = outFd) := by
    intro m
    rw [isOpen_forkFailed]
    simp
  constructor
  · intro hsame
    refine ⟨?_, ?_⟩
    · intro hinp
      -- Nothing closes the input file.
      refine h.inp_new hinp ((hsame inFd).mpr ((hopen inFd).mpr ⟨h.isOpen_inp hinp, ?_⟩))
      rintro ⟨hlow, heq⟩
      by_cases hout : out
      · exact h.ne hout hinp heq
      · have := h.out_default hout
        omega
    · intro hout
      -- The output file is closed, unless it took one of the numbers 0, 1 and 2.
      by_contra hstd
      refine h.out_new hout ((hsame outFd).mpr ((hopen outFd).mpr ⟨h.isOpen_out hout, ?_⟩))
      intro hlow
      exact hstd ((h.out_high hout).mp hlow.1)
  · rintro ⟨hinp, hstd⟩ m
    rw [hopen, h.isOpen]
    have := h.out_new
    have := h.out_high
    have := h.out_default
    grind

/-- What the loop leaves behind when the first command is not the last segment, and a
pipe and a child were made for it: with a file opened, or with a low number free for the
pipe, something stays open whatever comes next. -/
theorem launchAll_first_leaks {p : Pipeline} {s s' : Shell σ} {out inp : Prop} {outFd inFd : Nat}
    (h : Redirected s s' out inp outFd inFd) (hleak : out ∨ inp ∨ ¬ StandardOpen s)
    (seg : Segment) (segs : List Segment) :
    ¬ Balanced p s (launchResult p.background (launchAll answers line outFd inFd segs
      ((⟨s', inFd, 0, [], []⟩ : Launch σ).spawned s'.afterPipe.afterFork line seg (s'.lastPid + 1)
        s'.writeEnd s'.fds.lowestFree outFd inFd))) := by
  have hsub : ∀ {n}, s.fds.IsOpen n → s'.fds.IsOpen n := fun hn => (h.isOpen _).mpr (Or.inl hn)
  have hrw : s'.fds.lowestFree < s'.writeEnd := FdTable.lowestFree_lt_alloc _ _
  have houtNe : s'.writeEnd ≤ 2 ∨ s'.writeEnd ≠ outFd := by
    by_cases hout : out
    · exact Or.inr (ne_of_isOpen (h.isOpen_out hout)).1.symm
    · have := h.out_default hout
      omega
  -- Inside the loop, the write end of the pipe is forgotten.
  have hwNew : ¬ s.fds.IsOpen s'.writeEnd := fun hn => (ne_of_isOpen (hsub hn)).1 rfl
  -- At the end of the loop, a file is, or a read end that is too low to be closed.
  obtain ⟨e, heNew, heOpen, he⟩ : ∃ e, ¬ s.fds.IsOpen e ∧ s'.afterPipe.fds.IsOpen e ∧
      (e ≤ 2 ∨ e ≠ s'.fds.lowestFree ∧
        some e ∉ [parentCloseEntry inFd s'.writeEnd outFd inFd]) := by
    have hfile : ∀ e, s'.fds.IsOpen e →
        e ≠ s'.fds.lowestFree ∧ some e ∉ [parentCloseEntry inFd s'.writeEnd outFd inFd] := by
      intro e he
      obtain ⟨h1, h2⟩ := ne_of_isOpen he
      refine ⟨h2, ?_⟩
      rw [List.mem_singleton, parentCloseEntry]
      grind
    rcases hleak with hout | hinp | hstd
    · have hopen : s'.fds.IsOpen outFd := h.isOpen_out hout
      exact ⟨outFd, h.out_new hout, isOpen_afterPipe.mpr (Or.inr (Or.inr hopen)),
        Or.inr (hfile _ hopen)⟩
    · have hopen : s'.fds.IsOpen inFd := h.isOpen_inp hinp
      exact ⟨inFd, h.inp_new hinp, isOpen_afterPipe.mpr (Or.inr (Or.inr hopen)),
        Or.inr (hfile _ hopen)⟩
    · by_cases hlow : s'.fds.lowestFree ≤ 2
      · exact ⟨s'.fds.lowestFree, fun hn => (ne_of_isOpen (hsub hn)).2 rfl,
          isOpen_afterPipe.mpr (Or.inr (Or.inl rfl)), Or.inl hlow⟩
      · -- The low number that was free has been taken by a file.
        obtain ⟨n, hn, hfree⟩ : ∃ n, n < 3 ∧ ¬ s.fds.IsOpen n := by
          rw [StandardOpen] at hstd
          push Not at hstd
          exact hstd
        have hopen : s'.fds.IsOpen n := FdTable.isOpen_of_lt_lowestFree (by omega)
        exact ⟨n, hfree, isOpen_afterPipe.mpr (Or.inr (Or.inr hopen)), Or.inl (by omega)⟩
  rcases isOpen_launchResult answers line outFd inFd segs p.background
      (l := (⟨s', inFd, 0, [], []⟩ : Launch σ).spawned s'.afterPipe.afterFork line seg
        (s'.lastPid + 1) s'.writeEnd s'.fds.lowestFree outFd inFd)
      (d := s'.writeEnd) (e := e) (isOpen_afterPipe.mpr (Or.inl rfl))
      (houtNe.imp_right fun hne => ⟨Or.inl (Nat.ne_of_gt hrw), hne⟩) heOpen
      (he.imp_right fun ⟨h1, h2⟩ => ⟨Or.inl h1, h2⟩) with hd | hd
  · exact not_balanced hwNew hd
  · exact not_balanced heNew hd

/-- With no file opened and the standard descriptors open, all is well when the second
command is the last one. -/
theorem launchAll_first_balanced_iff {p : Pipeline} {s s' : Shell σ} {out inp : Prop}
    {outFd inFd : Nat} (h : Redirected s s' out inp outFd inFd) (hout : ¬ out) (hinp : ¬ inp)
    (hstd : StandardOpen s) (seg : Segment) {segs : List Segment} (hne : segs ≠ []) :
    Balanced p s (launchResult p.background (launchAll answers line outFd inFd segs
      ((⟨s', inFd, 0, [], []⟩ : Launch σ).spawned s'.afterPipe.afterFork line seg (s'.lastPid + 1)
        s'.writeEnd s'.fds.lowestFree outFd inFd))) ↔
      answers (s'.calls + 2) = none ∧ (∀ seg ∈ segs.dropLast, seg = []) ∧
        ∀ seg ∈ segs.getLast?, seg ≠ [] := by
  obtain rfl := h.out_default hout
  obtain rfl := h.inp_default hinp
  have hsame : ∀ n, s'.fds.IsOpen n ↔ s.fds.IsOpen n := fun n => by
    rw [h.isOpen]
    tauto
  -- Both ends of the pipe are above 2, so the closes behind the loop reach them.
  have hr : 3 ≤ s'.fds.lowestFree :=
    FdTable.le_lowestFree.mpr fun n hn => (hsame n).mpr (hstd n hn)
  have hrw : s'.fds.lowestFree < s'.writeEnd := FdTable.lowestFree_lt_alloc _ _
  have hentry : parentCloseEntry 0 s'.writeEnd 1 0 = some s'.writeEnd := by
    rw [parentCloseEntry, if_neg (by omega), if_pos (by omega)]
  have hfirst : FirstStarted s
      ((⟨s', 0, 0, [], []⟩ : Launch σ).spawned s'.afterPipe.afterFork line seg (s'.lastPid + 1)
        s'.writeEnd s'.fds.lowestFree 1 0) s'.fds.lowestFree s'.writeEnd
      ⟨s'.lastPid + 1, childFds s'.afterPipe.fds 0 s'.writeEnd, segToArgs line seg⟩ := by
    constructor
    case r_high => omega
    case w_high => omega
    case ne => omega
    case isOpen =>
      intro n
      rw [fds_spawned, Shell.fds_afterFork, isOpen_afterPipe, hsame]
      tauto
    case r_new => exact fun hn => (ne_of_isOpen ((hsame _).mpr hn)).2 rfl
    case w_new => exact fun hn => (ne_of_isOpen ((hsame _).mpr hn)).1 rfl
    case prevReadFd => rfl
    case parentClose => simp [Launch.spawned, hentry]
    case forked =>
      rw [← h.forked]
      rfl
    case spawnedPids => rfl
    case waited => exact h.waited
  exact hfirst.balanced_iff hne

/-- The exits of the segment loop. -/
theorem executeLoop_balanced_iff {p : Pipeline} {s s' : Shell σ} {out inp : Prop}
    {outFd inFd : Nat} (h : Redirected s s' out inp outFd inFd) (segs : List Segment) :
    Balanced p s (launchResult p.background
        (launchAll answers line outFd inFd segs ⟨s', inFd, 0, [], []⟩)) ↔
      TidyLoop answers s'.calls out inp (StandardOpen s) segs := by
  -- The end of the loop with no child.
  have hnone : Balanced p s (finishLaunch p.background ⟨s', inFd, 0, [], []⟩) ↔ ¬ out ∧ ¬ inp := by
    obtain ⟨hfds, hforked, -, hwaited⟩ :=
      finishLaunch_frame p.background (⟨s', inFd, 0, [], []⟩ : Launch σ)
    rw [balanced_iff_of_forked (hforked.trans h.forked), hfds]
    · exact h.sameOpen_iff
    · intro hbg
      rw [hwaited hbg, List.append_nil, h.waited]
  -- Segments without a command go first. The first command decides the rest.
  induction segs with
  | nil => exact hnone
  | cons seg rest ih =>
    cases rest with
    | nil =>
      by_cases hseg : seg = []
      · subst hseg
        rw [launchAll_nil_cons, TidyLoop, if_pos rfl]
        exact hnone
      · rw [TidyLoop, if_neg hseg]
        cases hfork : answers s'.calls with
        | none =>
          simp only [launchAll, List.isEmpty_nil, if_true, launchResult,
            spawnSegment_last (l := (⟨s', inFd, 0, [], []⟩ : Launch σ)) hseg hfork]
          exact lastOnly_balanced_iff h seg
        | some e =>
          simp only [launchAll, List.isEmpty_nil, launchResult,
            spawnSegment_last_fail (l := (⟨s', inFd, 0, [], []⟩ : Launch σ)) hseg hfork]
          exact (forkFailed_balanced_iff h).trans (by simp)
    | cons next rest =>
      by_cases hseg : seg = []
      · subst hseg
        rw [launchAll_nil_cons, TidyLoop, if_pos rfl]
        · exact ih
        · simp
      · rw [TidyLoop, if_neg hseg, launchAll, List.isEmpty_cons]
        · cases hpipe : answers s'.calls with
          | some e =>
            simp only [launchResult,
              spawnSegment_pipe_fail (l := (⟨s', inFd, 0, [], []⟩ : Launch σ)) hseg hpipe]
            -- No pipe: the loop returns without a close.
            refine (balanced_iff_of_forked h.forked fun _ => h.waited).trans ?_
            exact h.sameOpen_iff.trans (by simp)
          | none =>
            have hrNew : ¬ s.fds.IsOpen s'.fds.lowestFree := fun hn =>
              (ne_of_isOpen ((h.isOpen _).mpr (Or.inl hn))).2 rfl
            cases hfork : answers (s'.calls + 1) with
            | some e =>
              -- The read end of the pipe is forgotten.
              refine iff_of_false (not_balanced hrNew ?_) (by simp)
              simp only [launchResult,
                spawnSegment_fork_fail (l := (⟨s', inFd, 0, [], []⟩ : Launch σ)) hseg hpipe hfork]
              have hrw : s'.fds.lowestFree < s'.writeEnd := FdTable.lowestFree_lt_alloc _ _
              exact isOpen_forkFailed.mpr ⟨isOpen_afterPipe.mpr (Or.inr (Or.inl rfl)), by omega⟩
            | none =>
              simp only [spawnSegment_pipe (l := (⟨s', inFd, 0, [], []⟩ : Launch σ)) hseg hpipe hfork]
              by_cases hleak : out ∨ inp ∨ ¬ StandardOpen s
              · exact iff_of_false (launchAll_first_leaks h hleak seg _) (by tauto)
              · simp only [not_or, not_not] at hleak
                obtain ⟨hout, hinp, hstd⟩ := hleak
                exact (launchAll_first_balanced_iff h hout hinp hstd seg (List.cons_ne_nil _ _)).trans
                  (by simp [hout, hinp, hstd])
        · simp

/-! ### In-process builtins -/

/-- Files that are closed when their numbers are above 2. -/
theorem closed_balanced_iff {p : Pipeline} {s s' s1 : Shell σ} {out inp : Prop} {outFd inFd : Nat}
    (h : Redirected s s' out inp outFd inFd) (hfds : s1.fds = s'.fds) (hforked : s1.forked = s'.forked)
    (hwaited : s1.waited = s'.waited) :
    Balanced p s ((s1.closeAboveTwo outFd).closeAboveTwo inFd) ↔ (out ∨ inp → StandardOpen s) := by
  have hforked' : ((s1.closeAboveTwo outFd).closeAboveTwo inFd).forked = s.forked := by
    rw [Shell.forked_closeAboveTwo, Shell.forked_closeAboveTwo, hforked, h.forked]
  have hwaited' : ((s1.closeAboveTwo outFd).closeAboveTwo inFd).waited = s.waited := by
    rw [Shell.waited_closeAboveTwo, Shell.waited_closeAboveTwo, hwaited, h.waited]
  refine (balanced_iff_of_forked hforked' fun _ => hwaited').trans ?_
  have hopen : ∀ n, ((s1.closeAboveTwo outFd).closeAboveTwo inFd).fds.IsOpen n ↔
      s'.fds.IsOpen n ∧ ¬ (n > 2 ∧ (n = outFd ∨ n = inFd)) := by
    intro n
    rw [Shell.isOpen_closeAboveTwo, Shell.isOpen_closeAboveTwo, hfds]
    tauto
  constructor
  · intro hsame
    -- A file whose number is at most 2 stays open.
    have hout : out → StandardOpen s := fun hout => by
      by_contra hstd
      refine h.out_new hout
        ((hsame outFd).mpr ((hopen outFd).mpr ⟨h.isOpen_out hout, ?_⟩))
      intro hlow
      exact hstd ((h.out_high hout).mp hlow.1)
    have hinp : inp → StandardOpen s := fun hinp => by
      by_contra hstd
      refine h.inp_new hinp
        ((hsame inFd).mpr ((hopen inFd).mpr ⟨h.isOpen_inp hinp, ?_⟩))
      intro hlow
      exact hstd (((h.inp_high hinp).1 hlow.1).elim hout id)
    intro h
    exact h.elim hout hinp
  · intro hstd n
    rw [hopen, h.isOpen]
    have hout : out → 2 < outFd ∧ ¬ s.fds.IsOpen outFd := fun hout =>
      ⟨(h.out_high hout).mpr (hstd (Or.inl hout)), h.out_new hout⟩
    have hinp : inp → 2 < inFd ∧ ¬ s.fds.IsOpen inFd := fun hinp =>
      ⟨(h.inp_high hinp).2 (hstd (Or.inr hinp)), h.inp_new hinp⟩
    -- A redirection that is absent stands at 0 or 1, which is not closed.
    have := h.out_default
    have := h.inp_default
    by_cases hn : n = outFd
    · subst hn
      grind
    · by_cases hn' : n = inFd
      · subst hn'
        grind
      · -- Any other descriptor is open in both shells or in neither.
        simp only [hn, hn', and_false, or_false, not_false_eq_true, and_true]

/-- The name of an in-process builtin fits its row of the argument buffer. -/
theorem head_segToArgs {a : Span} (args : List Span)
    (h : isInprocessBuiltin (Span.of line a) = true) :
    ∃ rest, segToArgs line (a :: args) = Span.of line a :: rest := by
  refine ⟨segToArgs line args, ?_⟩
  have hshort : (Span.of line a).length ≤ 63 := by
    simp only [isInprocessBuiltin, List.contains_eq_mem, List.mem_cons, List.not_mem_nil, or_false,
      decide_eq_true_eq] at h
    rcases h with h | h | h | h | h | h | h | h | h <;> rw [h] <;> decide
  rw [segToArgs, List.map_cons, List.cons.injEq]
  refine ⟨?_, rfl⟩
  -- At most 63 bytes of the word count, so cutting it there changes nothing.
  rw [Span.of, List.length_take] at hshort
  rw [Span.of, List.take_eq_take_iff]
  omega

/-- An in-process builtin other than `exit` returns, with the descriptors and children as
they were. `exit` does not return. -/
theorem dispatch_builtin (commands : Commands σ) {a : Span} (args : List Span) (s : Shell σ)
    (h : isInprocessBuiltin (Span.of line a) = true) :
    (Span.of line a = bytes "exit" → dispatch commands (segToArgs line (a :: args)) s = none) ∧
    (Span.of line a ≠ bytes "exit" → ∃ s', dispatch commands (segToArgs line (a :: args)) s = some s' ∧
      s'.fds = s.fds ∧ s'.forked = s.forked ∧ s'.waited = s.waited) := by
  obtain ⟨rest, hargs⟩ := head_segToArgs args h
  -- `logout` leaves `dispatch` as `exit` does, but is not in the list of builtins.
  have hlogout : Span.of line a ≠ bytes "logout" := by
    intro hname
    rw [hname] at h
    revert h
    decide
  rw [hargs]
  constructor
  · intro hname
    simp [dispatch, hname]
  · intro hname
    simp [dispatch, hname, hlogout, h]

/-! ### The exits of `execute` -/

/-- The exits behind the two redirections. -/
theorem executeOpened_balanced_iff (commands : Commands σ) {p : Pipeline} {s s' : Shell σ}
    {out inp : Prop} {outFd inFd : Nat} (h : Redirected s s' out inp outFd inFd) :
    (∀ s'', executeOpened commands answers line p outFd inFd s' = some s'' → Balanced p s s'') ↔
      TidyOpened answers s'.calls line out inp (StandardOpen s) p.segments := by
  have hloop : (∀ s'', some (executeLoop answers line p outFd inFd s') = some s'' →
      Balanced p s s'') ↔ TidyLoop answers s'.calls out inp (StandardOpen s) p.segments := by
    simp only [Option.some.injEq, forall_eq']
    exact executeLoop_balanced_iff h p.segments
  unfold executeOpened TidyOpened
  -- The five shapes that the `match` of `execute` tells apart.
  rcases hsegs : p.segments with _ | ⟨_ | ⟨a, args⟩, _ | ⟨next, rest⟩⟩
  · rw [hsegs] at hloop
    exact hloop
  · -- A redirection without a command.
    simp only [Option.some.injEq, forall_eq']
    exact (balanced_iff_of_forked h.forked fun _ => h.waited).trans h.sameOpen_iff
  · rw [hsegs] at hloop
    exact hloop
  · simp only
    by_cases hb : isInprocessBuiltin (Span.of line a) = true
    · rw [if_pos hb, if_pos hb]
      obtain ⟨hexit, hother⟩ := dispatch_builtin commands args s' hb
      -- A shell that is gone has no books to balance.
      by_cases hname : Span.of line a = bytes "exit"
      · simp [hexit hname, hname]
      · obtain ⟨s1, hs1, hfds, hforked, hwaited⟩ := hother hname
        simp only [hs1, Option.map_some, Option.some.injEq, forall_eq', hname, false_or]
        exact closed_balanced_iff h hfds hforked hwaited
    · rw [if_neg hb, if_neg hb]
      rw [hsegs] at hloop
      exact hloop
  · rw [hsegs] at hloop
    exact hloop

/-- A number above 2 is the lowest free one just when the standard descriptors are open. -/
theorem standardOpen_iff {s : Shell σ} : 2 < s.fds.lowestFree ↔ StandardOpen s :=
  FdTable.le_lowestFree

/-- The shell behind an `open` that succeeds. -/
def Shell.afterOpen (s : Shell σ) (path : Bytes) (flags : Nat) : Shell σ :=
  { s with calls := s.calls + 1, fds := s.fds.alloc (.file path flags) }

/-- The shell behind a call that fails. -/
def Shell.afterCall (s : Shell σ) : Shell σ := { s with calls := s.calls + 1 }

/-- An output file that opens, or none. -/
theorem openStdout_redirected (line : Bytes) {p : Pipeline} {s : Shell σ}
    (h : ¬ (p.stdoutFile.2 > 0 ∧ answers s.calls ≠ none)) :
    ∃ outFd s1, openStdout answers line p s = (.ok outFd, s1) ∧ s1.calls = callIn p s ∧
      Redirected s s1 (p.stdoutFile.2 > 0) False outFd 0 := by
  unfold openStdout callIn
  by_cases hout : p.stdoutFile.2 > 0
  · have hcall : answers s.calls = none := by tauto
    rw [if_pos hout, if_pos hout, Shell.sysOpen_ok hcall]
    refine ⟨_, _, rfl, rfl, ?_⟩
    constructor
    case isOpen =>
      intro n
      rw [FdTable.isOpen_alloc]
      tauto
    case out_new => exact fun _ => FdTable.not_isOpen_lowestFree _
    case out_high => exact fun _ => standardOpen_iff
    all_goals simp [hout]
  · rw [if_neg hout, if_neg hout]
    refine ⟨1, s, rfl, rfl, ?_⟩
    constructor <;> simp [hout]

/-- An input file that opens behind the output file. -/
theorem Redirected.afterOpen {s s1 : Shell σ} {out inp : Prop} {outFd : Nat}
    (h : Redirected s s1 out False outFd 0) (hinp : inp) (path : Bytes) (flags : Nat) :
    Redirected s (s1.afterOpen path flags) out inp outFd s1.fds.lowestFree := by
  have hsub : ∀ {n}, s.fds.IsOpen n → s1.fds.IsOpen n := fun hn => (h.isOpen _).mpr (Or.inl hn)
  constructor
  case isOpen =>
    intro n
    rw [Shell.afterOpen, FdTable.isOpen_alloc, h.isOpen]
    tauto
  case inp_new => exact fun _ hn => FdTable.not_isOpen_lowestFree _ (hsub hn)
  case inp_default => exact fun hn => absurd hinp hn
  case ne =>
    rintro hout - heq
    refine FdTable.not_isOpen_lowestFree s1.fds ?_
    rw [heq]
    exact h.isOpen_out hout
  case inp_high =>
    -- The output file may have filled the gap below 3 before the input file did.
    refine fun _ => ⟨fun hlow => ?_, fun hstd => standardOpen_iff.mpr fun n hn => hsub (hstd n hn)⟩
    by_cases hout : out
    · exact Or.inl hout
    · refine Or.inr fun n hn => ?_
      rcases (h.isOpen n).mp (standardOpen_iff.mp hlow n hn) with hopen | ⟨hout', -⟩ | ⟨hfalse, -⟩
      · exact hopen
      · exact absurd hout' hout
      · exact hfalse.elim
  case forked => exact h.forked
  case waited => exact h.waited
  case out_new => exact h.out_new
  case out_default => exact h.out_default
  case out_high => exact h.out_high

/-- The exit when the output file does not open. -/
theorem executeRedirected_out_fails (commands : Commands σ) {p : Pipeline} {s : Shell σ}
    (hout : p.stdoutFile.2 > 0) (hcall : answers s.calls ≠ none) :
    (∀ s', executeRedirected commands answers line p s = some s' → Balanced p s s') ↔
      ¬ (p.stdinFile.2 > 0 ∧ answers (callIn p s) = none) := by
  -- `stdin_fd` is opened before the error of `stdout_fd` is looked at.
  obtain ⟨e, hcall⟩ := Option.ne_none_iff_exists'.mp hcall
  have hfail : openStdout answers line p s = (.error (Int.negSucc e), s.afterCall) := by
    rw [openStdout, if_pos hout, Shell.sysOpen]
    simp only [hcall]
    rfl
  simp only [executeRedirected, hfail, Option.some.injEq, forall_eq', callIn, hout, if_true]
  rw [openStdin]
  by_cases hinp : p.stdinFile.2 > 0
  · rw [if_pos hinp]
    cases hcall' : answers (s.calls + 1) with
    | none =>
      -- The input file stays open.
      refine iff_of_false ?_ (by simp [hinp])
      rw [Shell.sysOpen_ok (by exact hcall')]
      exact not_balanced (FdTable.not_isOpen_lowestFree s.fds)
        (FdTable.isOpen_alloc.mpr (Or.inl rfl))
    | some e' =>
      refine iff_of_true ?_ (by simp)
      have hcall'' : answers s.afterCall.calls = some e' := hcall'
      simp only [Shell.sysOpen, hcall'']
      exact (balanced_iff_of_forked rfl fun _ => rfl).mpr (FdTable.SameOpen.refl _)
  · rw [if_neg hinp]
    refine iff_of_true ?_ (by simp [hinp])
    exact (balanced_iff_of_forked rfl fun _ => rfl).mpr (FdTable.SameOpen.refl _)

/-- The exits from the redirections on. -/
theorem executeRedirected_balanced_iff (commands : Commands σ) (p : Pipeline) (s : Shell σ) :
    (∀ s', executeRedirected commands answers line p s = some s' → Balanced p s s') ↔
      TidyRedirected answers line p s := by
  rw [TidyRedirected]
  by_cases hout : p.stdoutFile.2 > 0 ∧ answers s.calls ≠ none
  · rw [if_pos hout]
    exact executeRedirected_out_fails commands hout.1 hout.2
  rw [if_neg hout]
  obtain ⟨outFd, s1, hopen, hcalls, hred⟩ := openStdout_redirected line hout
  rw [← hcalls]
  by_cases hinp : p.stdinFile.2 > 0
  · have hloop : callLoop p s = s1.calls + 1 := by rw [callLoop, if_pos hinp, hcalls]
    cases hcall : answers s1.calls with
    | some e =>
      -- The input file does not open.
      rw [if_pos ⟨hinp, by simp⟩]
      simp only [executeRedirected, hopen, openStdin, hinp, if_true, Shell.sysOpen, hcall,
        Option.some.injEq, forall_eq']
      -- There is no second close here: close 0, which is not above 2.
      have hzero : ∀ s : Shell σ, s.closeAboveTwo 0 = s := fun s => if_neg (by omega)
      rw [← hzero (Shell.closeAboveTwo _ _)]
      refine (closed_balanced_iff hred ?_ ?_ ?_).trans (by simp)
      all_goals rfl
    | none =>
      rw [if_neg (by simp), hloop]
      have hin : openStdin answers line p s1 = (.ok s1.fds.lowestFree,
          s1.afterOpen (redirectPath line p.stdinFile) O_RDONLY) := by
        rw [openStdin, if_pos hinp, Shell.sysOpen_ok hcall]
        rfl
      simp only [executeRedirected, hopen, hin]
      exact executeOpened_balanced_iff commands (hred.afterOpen hinp _ _)
  · have hloop : callLoop p s = s1.calls := by rw [callLoop, if_neg hinp, hcalls]; rfl
    rw [if_neg (by simp [hinp]), hloop]
    simp only [executeRedirected, hopen, openStdin, hinp, if_false]
    exact executeOpened_balanced_iff commands hred

/-- Reaping before anything else changes no book. -/
theorem balanced_jobReap {p : Pipeline} {s s' : Shell σ} :
    Balanced p s.jobReap s' ↔ Balanced p s s' := by
  simp [Balanced, WaitedFor]

/-- One command without redirections. -/
theorem executePlain_balanced_iff (commands : Commands σ) {p : Pipeline} (seg : Segment)
    (s : Shell σ) :
    (∀ s', executePlain commands answers line seg p.background s = some s' → Balanced p s s') ↔
      TidyPlain commands line p seg s := by
  unfold executePlain TidyPlain
  by_cases hseg : seg = []
  · subst hseg
    simp only [List.length_nil, if_true, Option.some.injEq, forall_eq', true_or, iff_true]
    exact (balanced_iff_of_forked rfl fun _ => rfl).mpr (FdTable.SameOpen.refl _)
  rw [if_neg (by simpa using hseg)]
  cases hbg : p.background with
  | false => simp [hseg]
  | true =>
    -- A background child is not waited for, and nothing was opened.
    refine iff_of_true (fun s' hs' => ⟨?_, by simp [hbg]⟩) (Or.inr (Or.inl rfl))
    rw [if_pos rfl] at hs'
    unfold Shell.fork at hs'
    split at hs' <;> rename_i heq <;> split at heq <;> cases heq <;> cases hs' <;>
      exact FdTable.SameOpen.refl _

/-- **The books of the executor**: `execute` on a parsed line leaves the descriptors of the shell
as they were and waits for the children of a foreground pipeline, if and only if the line, the
outcomes of the calls and the open descriptors are as `Tidy` says. `Tidy` speaks of the line and
of the state before it only. The proof follows the branches of `execute`: the plain command, the
redirections and the loop have an equivalence each, and the reaping at the start does not matter
(`balanced_jobReap`). -/
theorem execute_balanced_iff (commands : Commands σ) (answers : Answers) (line : Bytes)
    (s : Shell σ) :
    (∀ s', execute commands answers line (parse line) s = some s' → Balanced (parse line) s s') ↔
      Tidy commands answers line (parse line) s := by
  generalize parse line = p
  have hred : (∀ s', executeRedirected commands answers line p s.jobReap = some s' →
      Balanced p s s') ↔ TidyRedirected answers line p s := by
    simp only [← balanced_jobReap (s := s)]
    refine (executeRedirected_balanced_iff commands p s.jobReap).trans ?_
    simp [TidyRedirected, callIn, callLoop, StandardOpen]
  unfold execute Tidy
  rcases hsegs : p.segments with _ | ⟨seg, _ | ⟨next, rest⟩⟩
  · exact hred
  · simp only
    split
    · simp only [← balanced_jobReap (s := s)]
      exact executePlain_balanced_iff commands seg s.jobReap
    · exact hred
  · exact hred

/-- `ls > f` leaves the output file open in the shell. -/
theorem not_balanced_ls_to_f :
    ¬ ∀ s', execute Commands.idle (fun _ => none) (bytes "ls > f") (parse (bytes "ls > f"))
        (Shell.init ()) = some s' →
      Balanced (parse (bytes "ls > f")) (Shell.init ()) s' := by
  intro h
  have hrun : (execute Commands.idle (fun _ => none) (bytes "ls > f") (parse (bytes "ls > f"))
      (Shell.init ())).map (·.fds.get 3) = some (some (.file (bytes "f") OUT_FLAGS)) := by
    decide +kernel
  obtain ⟨s', hs', hfile⟩ := Option.map_eq_some_iff.mp hrun
  refine not_balanced (d := 3) (by decide) ?_ (h s' hs')
  rw [FdTable.IsOpen, hfile]
  rfl

end OnyxShell
