import OnyxShell.Proofs.Pipeline.Plain

/-!
# `OnyxShell.Proofs.Pipeline.Arguments`: the argument lists of a pipeline

`Reading.step_segments` says what one token does to the segments read so far. From it, no
segment is longer than its array and every argument is a word of the line
(`Reading.foldl_holds`), so an argument list has at most 16 words of at most 63 bytes
(`length_le_of_mem_argLists`).

`execute_argLists` ties `Action.argLists` to a run: whatever the calls answer, the
children that are started get these lists in order, or the shell dispatches one of them.
-/

set_option autoImplicit false

namespace OnyxShell

namespace Reading

variable {α : Type}

/-- The segments read so far, the open one last. -/
def segments (r : Reading α) : List (List α) := r.close.done

/-- Between two segments, a token changes nothing, opens an empty one, or opens one with its
word. -/
theorem step_segments_closed (done : List (List α)) (o i : α) (t : Token α) :
    (step ⟨done, none, o, i⟩ t).segments = done ∨
      (step ⟨done, none, o, i⟩ t).segments = done ++ [[]] ∨
      ∃ a, t = .word a ∧ (step ⟨done, none, o, i⟩ t).segments = done ++ [[a]] := by
  have hzero : ([] : List α).length < MAX_ARGS_PER := Nat.zero_lt_succ 15
  by_cases hroom : done.length < MAX_SEGMENTS
  · cases t with
    | pipe => exact Or.inl rfl
    | word a =>
      rw [step_open hroom (by simp), step_word hzero]
      exact Or.inr (Or.inr ⟨a, rfl, rfl⟩)
    | redirect out a =>
      rw [step_open hroom (by simp), step_redirect hzero]
      exact Or.inr (Or.inl rfl)
  · have hstay := foldl_full (o := o) (i := i) hroom [t]
    rw [List.foldl_cons, List.foldl_nil] at hstay
    rw [hstay]
    exact Or.inl rfl

/-- A token leaves the segments as they are, opens an empty one, opens one with its word,
or adds its word to the last one. -/
theorem step_segments (r : Reading α) (t : Token α) :
    (r.step t).segments = r.segments ∨ (r.step t).segments = r.segments ++ [[]] ∨
      ∃ a, t = .word a ∧ ((r.step t).segments = r.segments ++ [[a]] ∨
        ∃ init args, r.segments = init ++ [args] ∧ args.length < MAX_ARGS_PER ∧
          (r.step t).segments = init ++ [args ++ [a]]) := by
  rcases r with ⟨done, current, o, i⟩
  cases current with
  | none =>
    rcases step_segments_closed done o i t with h | h | ⟨a, ht, h⟩
    · exact Or.inl h
    · exact Or.inr (Or.inl h)
    · exact Or.inr (Or.inr ⟨a, ht, Or.inl h⟩)
  | some args =>
    have hsegs : (⟨done, some args, o, i⟩ : Reading α).segments = done ++ [args] := rfl
    by_cases hroom : args.length < MAX_ARGS_PER
    · -- Closing the open segment does not change the list of them.
      cases t with
      | pipe => exact Or.inl rfl
      | word a =>
        rw [step_word hroom]
        exact Or.inr (Or.inr ⟨a, rfl, Or.inr ⟨done, args, hsegs, hroom, rfl⟩⟩)
      | redirect out a =>
        rw [step_redirect hroom]
        exact Or.inl rfl
    · -- The full segment is closed first.
      rw [step_close_full hroom, hsegs]
      rcases step_segments_closed (done ++ [args]) o i t with h | h | ⟨a, ht, h⟩
      · exact Or.inl h
      · exact Or.inr (Or.inl h)
      · exact Or.inr (Or.inr ⟨a, ht, Or.inl h⟩)

/-- Segments within the argument array whose words have a property. -/
def Holds (P : α → Prop) (segs : List (List α)) : Prop :=
  ∀ seg ∈ segs, seg.length ≤ MAX_ARGS_PER ∧ ∀ a ∈ seg, P a

/-- What is so of every word token is so of every word of the reading, one step at a time. -/
theorem holds_step {P : α → Prop} {r : Reading α} {t : Token α} (h : Holds P r.segments)
    (ht : ∀ a, t = .word a → P a) : Holds P (r.step t).segments := by
  have hempty : ([] : List α).length ≤ MAX_ARGS_PER ∧ ∀ a ∈ ([] : List α), P a :=
    ⟨Nat.zero_le _, fun a ha => absurd ha List.not_mem_nil⟩
  -- No change, an empty segment, or a word that opens one or goes into the last one.
  rcases r.step_segments t with hs | hs | ⟨a, rfl, hs | ⟨init, args, hsegs, hroom, hs⟩⟩
  · rw [hs]
    exact h
  · rw [hs]
    intro seg hseg
    rcases List.mem_append.mp hseg with hseg | hseg
    · exact h seg hseg
    · rw [List.mem_singleton.mp hseg]
      exact hempty
  · rw [hs]
    intro seg hseg
    rcases List.mem_append.mp hseg with hseg | hseg
    · exact h seg hseg
    · rw [List.mem_singleton.mp hseg]
      refine ⟨Nat.le_add_left 1 15, ?_⟩
      intro b hb
      rw [List.mem_singleton.mp hb]
      exact ht a rfl
  · rw [hs]
    rw [hsegs] at h
    intro seg hseg
    rcases List.mem_append.mp hseg with hseg | hseg
    · exact h seg (List.mem_append_left _ hseg)
    · rw [List.mem_singleton.mp hseg]
      have hargs := h args (by simp)
      refine ⟨by rw [List.length_append]; exact hroom, ?_⟩
      intro b hb
      rcases List.mem_append.mp hb with hb | hb
      · exact hargs.2 b hb
      · rw [List.mem_singleton.mp hb]
        exact ht a rfl

/-- **No segment outgrows its array, and its arguments are words of the line.** -/
theorem foldl_holds {P : α → Prop} {ts : List (Token α)} {r : Reading α}
    (h : Holds P r.segments) (ht : ∀ a, Token.word a ∈ ts → P a) :
    Holds P (ts.foldl step r).segments := by
  induction ts generalizing r with
  | nil => exact h
  | cons t ts ih =>
    apply ih
    · apply holds_step h
      rintro a rfl
      exact ht a List.mem_cons_self
    · intro a ha
      exact ht a (List.mem_cons_of_mem _ ha)

/-- A segment with a word in it is not lost. -/
theorem step_nonempty {r : Reading α} (t : Token α) (h : ∃ seg ∈ r.segments, seg ≠ []) :
    ∃ seg ∈ (r.step t).segments, seg ≠ [] := by
  rcases h with ⟨seg, hseg, hne⟩
  rcases r.step_segments t with hs | hs | ⟨a, -, hs | ⟨init, args, hsegs, -, hs⟩⟩
  · exact ⟨seg, by rw [hs]; exact hseg, hne⟩
  · exact ⟨seg, by rw [hs]; exact List.mem_append_left _ hseg, hne⟩
  · exact ⟨seg, by rw [hs]; exact List.mem_append_left _ hseg, hne⟩
  · rw [hs]
    exact ⟨args ++ [a], by simp, by simp⟩

/-- A segment with words is not lost by the steps that follow. -/
theorem foldl_nonempty {ts : List (Token α)} {r : Reading α} (h : ∃ seg ∈ r.segments, seg ≠ []) :
    ∃ seg ∈ (ts.foldl step r).segments, seg ≠ [] := by
  induction ts generalizing r with
  | nil => exact h
  | cons t ts ih => exact ih (step_nonempty t h)

end Reading

variable {line : Bytes}

/-- Taking out the mark makes no segment longer. -/
theorem prefix_of_mem_markBackground {p : Pipeline} {seg : Segment}
    (h : seg ∈ (markBackground line p).segments) : ∃ seg' ∈ p.segments, seg <+: seg' := by
  rw [markBackground] at h
  split at h
  · exact ⟨seg, h, List.prefix_refl _⟩
  · rename_i last hlast
    split at h
    · exact ⟨seg, h, List.prefix_refl _⟩
    · split at h
      · rcases List.mem_append.mp h with h | h
        · exact ⟨seg, (List.dropLast_sublist _).mem h, List.prefix_refl _⟩
        · rw [List.mem_singleton.mp h]
          exact ⟨last, List.mem_of_getLast? hlast, List.dropLast_prefix _⟩
      · exact ⟨seg, h, List.prefix_refl _⟩

/-- **An argument list of a pipeline has at most 16 words, of at most 63 bytes each**. -/
theorem length_le_of_mem_argLists {args : List Bytes}
    (h : args ∈ (Action.pipeline line (parse line)).argLists) :
    args.length ≤ MAX_ARGS_PER ∧ ∀ w ∈ args, w.length ≤ 63 := by
  rcases List.mem_map.mp h with ⟨seg, hseg, rfl⟩
  constructor
  · have hholds : Reading.Holds (fun _ => True) (readLine line).segments := by
      apply Reading.foldl_holds
      · intro seg hseg
        cases hseg
      · intro a _
        trivial
    have hmem : seg ∈ (parse line).segments := List.mem_of_mem_filter hseg
    rw [parse_eq] at hmem
    rcases prefix_of_mem_markBackground hmem with ⟨seg', hseg', hprefix⟩
    rw [segToArgs, List.length_map]
    exact Nat.le_trans hprefix.length_le (hholds seg' hseg').1
  · intro w hw
    rcases List.mem_map.mp hw with ⟨span, -, rfl⟩
    exact Nat.le_trans (List.length_take_le _ _) (Nat.min_le_right _ _)

/-- What a line with known tokens is read as, in bytes. -/
theorem argBytes_finish {ts : List (Token Bytes)}
    (h : (lex line).map (Token.map (Span.read line)) = ts.map (Token.map measured)) :
    (readLine line).finish.argBytes line
      = (ts.foldl Reading.step (Reading.start [])).segments := by
  have hread := congrArg Reading.close (readLine_of_lex h)
  rw [← Reading.map_close, ← Reading.map_close] at hread
  have hdone := congrArg (fun r => r.done.map (List.map Prod.fst)) hread
  simp only [Reading.map, List.map_map, Function.comp_def] at hdone
  simpa [Reading.segments, Reading.finish, Pipeline.argBytes, Span.read, measured] using hdone

/-- A pipeline whose arguments are none of them the mark is what has been read. -/
theorem parse_of_segments {segs : List (List Bytes)}
    (h : (readLine line).finish.argBytes line = segs) (hmark : ∀ seg ∈ segs, ampersand ∉ seg) :
    parse line = (readLine line).finish := by
  rw [parse_eq]
  rcases List.eq_nil_or_concat segs with rfl | ⟨init, last, rfl⟩
  · have hnil := List.map_eq_nil_iff.mp h
    rw [markBackground, hnil]
    rfl
  · rw [List.concat_eq_append] at h hmark
    apply markBackground_of_ne h
    intro hlast
    exact hmark last (by simp) (List.mem_of_getLast? hlast)

/-- The argument lists of such a pipeline. -/
theorem argLists_of_segments {segs : List (List Bytes)}
    (h : (readLine line).finish.argBytes line = segs) (hmark : ∀ seg ∈ segs, ampersand ∉ seg) :
    (Action.pipeline line (parse line)).argLists
      = (segs.filter (· ≠ [])).map fun seg => seg.map (·.take 63) := by
  have hfilter : ∀ seg : Segment,
      decide (seg ≠ []) = ((fun args : List Bytes => decide (args ≠ [])) ∘ List.map (Span.of line)) seg := by
    intro seg
    simp [List.map_eq_nil_iff]
  rw [Action.argLists, Pipeline.commands, parse_of_segments h hmark, ← h, Pipeline.argBytes,
    List.filter_map, List.map_map, List.filter_congr fun seg _ => hfilter seg]
  exact List.map_congr_left fun seg _ => segToArgs_eq line seg

/-! ### Runs -/

variable {σ : Type} {answers : Answers}

/-- The children that are started get the arguments of the segments in order. -/
def StartsFrom (line : Bytes) (segs : List Segment) (s s' : Shell σ) : Prop :=
  ∃ children, s'.forked = s.forked ++ children ∧
    children.map Child.args <+: (segs.filter (· ≠ [])).map (segToArgs line)

/-- Where nothing has been started, nothing is to be shown. -/
theorem StartsFrom.refl {segs : List Segment} {s s' : Shell σ} (h : s'.forked = s.forked) :
    StartsFrom line segs s s' := ⟨[], by rw [h, List.append_nil], List.nil_prefix⟩

/-- A `fork` has started no child yet. -/
theorem forked_of_fork {answers : Answers} {s s' : Shell σ} {r : Except Int Nat}
    (h : s.fork answers = (r, s')) : s'.forked = s.forked := by
  rw [Shell.fork] at h
  split at h
  · cases h
    rfl
  · cases h
    rfl

/-- The pipe in front of a segment starts no child. -/
theorem forked_of_segmentPipe {answers : Answers} {isLast : Bool} {stdoutFd : Nat} {l : Launch σ}
    {s : Shell σ} {r : Except Int (Nat × Nat)} (h : segmentPipe answers isLast stdoutFd l = (r, s)) :
    s.forked = l.shell.forked := by
  rcases segmentPipe_frame answers isLast stdoutFd l with ⟨fds, calls, pipes, hframe⟩
  rw [h] at hframe
  change s = _ at hframe
  rw [hframe]

/-- One turn of the segment loop starts a child with the arguments of the segment, or
none. -/
theorem forked_spawnSegment (answers : Answers) (line : Bytes) (stdoutFd stdinFd : Nat)
    {seg : Segment} (isLast : Bool) (l : Launch σ) (hseg : seg ≠ []) :
    (∃ s, spawnSegment answers line stdoutFd stdinFd seg isLast l = .error s ∧
      s.forked = l.shell.forked) ∨
    ∃ l' c, spawnSegment answers line stdoutFd stdinFd seg isLast l = .ok l' ∧
      l'.shell.forked = l.shell.forked ++ [c] ∧ c.args = segToArgs line seg := by
  have hlen : ¬ seg.length = 0 := fun h => hseg (List.length_eq_zero_iff.mp h)
  rw [spawnSegment, if_neg hlen]
  split
  · rename_i s heq
    have hpipe := forked_of_segmentPipe heq
    exact Or.inl ⟨_, rfl, hpipe⟩
  · rename_i curWriteFd prevReadFd s heq
    have hpipe := forked_of_segmentPipe heq
    split
    · rename_i s' heq'
      refine Or.inl ⟨_, rfl, ?_⟩
      rw [(frame_forkFailed _ _ _ _ _).1]
      exact (forked_of_fork heq').trans hpipe
    · rename_i pid s' heq'
      refine Or.inr ⟨_, ⟨pid, childFds s'.fds l.prevReadFd curWriteFd, segToArgs line seg⟩, rfl, ?_,
        rfl⟩
      show s'.forked ++ [_] = l.shell.forked ++ [_]
      rw [(forked_of_fork heq').trans hpipe]

/-- The segment loop starts children with the arguments of the segments, in order. -/
theorem startsFrom_launchAll (answers : Answers) (line : Bytes) (stdoutFd stdinFd : Nat)
    (background : Bool) (segs : List Segment) (l : Launch σ) :
    StartsFrom line segs l.shell
      (launchResult background (launchAll answers line stdoutFd stdinFd segs l)) := by
  induction segs generalizing l with
  | nil => exact StartsFrom.refl (finishLaunch_frame background l).2.1
  | cons seg rest ih =>
    rw [launchAll]
    by_cases hseg : seg = []
    · rw [hseg, spawnSegment_nil]
      exact ih l
    · rcases forked_spawnSegment answers line stdoutFd stdinFd rest.isEmpty l hseg with
        ⟨s, hspawn, hforked⟩ | ⟨l', c, hspawn, hforked, hargs⟩
      · rw [hspawn]
        exact StartsFrom.refl hforked
      · rw [hspawn]
        rcases ih l' with ⟨children, hchildren, hprefix⟩
        refine ⟨c :: children, ?_, ?_⟩
        · rw [hchildren, hforked, List.append_assoc, List.singleton_append]
        · rw [List.map_cons, List.filter_cons_of_pos (by simpa using hseg), List.map_cons, hargs]
          exact (List.prefix_cons_inj _).mpr hprefix

/-- What `execute` does with the arguments of a pipeline: it starts children with them, or
dispatches one list of them in the shell and closes descriptors. -/
def HandsOn (commands : Commands σ) (line : Bytes) (p : Pipeline) (s : Shell σ)
    (result : Option (Shell σ)) : Prop :=
  (∃ s', result = some s' ∧ StartsFrom line p.segments s s') ∨
    ∃ args ∈ (Action.pipeline line p).argLists, ∃ (s₁ : Shell σ) (fds : List Nat),
      s₁.forked = s.forked ∧
        result = (dispatch commands args s₁).map fun s => fds.foldl Shell.closeAboveTwo s

/-- The arguments of the one segment are among those of the action. -/
theorem mem_argLists_of_singleton {p : Pipeline} {seg : Segment} (hsegs : p.segments = [seg])
    (hne : seg ≠ []) : segToArgs line seg ∈ (Action.pipeline line p).argLists := by
  rw [Action.argLists, Pipeline.commands, hsegs, List.filter_cons_of_pos (by simpa using hne)]
  exact List.mem_cons_self

/-- A single command without redirections hands on the arguments of its segment, to `dispatch` or
to a child. -/
theorem handsOn_executePlain (commands : Commands σ) {p : Pipeline} {seg : Segment}
    (hsegs : p.segments = [seg]) (background : Bool) {s s₀ : Shell σ} (h : s.forked = s₀.forked) :
    HandsOn commands line p s₀ (executePlain commands answers line seg background s) := by
  rw [executePlain]
  split
  · exact Or.inl ⟨s, rfl, StartsFrom.refl h⟩
  · rename_i hlen
    have hne : seg ≠ [] := fun hnil => hlen (by rw [hnil]; rfl)
    have hfork : (s.fork answers).2.forked = s.forked := by
      rw [Shell.fork]
      split <;> rfl
    split
    · split
      · rename_i s' heq
        rw [heq] at hfork
        exact Or.inl ⟨_, rfl, StartsFrom.refl (hfork.trans h)⟩
      · rename_i pid s' heq
        rw [heq] at hfork
        refine Or.inl ⟨_, rfl, [⟨pid, s'.fds, segToArgs line seg⟩], ?_, ?_⟩
        · show s'.forked ++ [_] = s₀.forked ++ [_]
          rw [hfork.trans h]
        · rw [hsegs, List.filter_cons_of_pos (by simpa using hne)]
          exact List.prefix_refl _
    · refine Or.inr ⟨_, mem_argLists_of_singleton hsegs hne, s, [], h, ?_⟩
      simp

/-- The loop hands on the arguments of each segment to its child. -/
theorem handsOn_executeLoop (commands : Commands σ) {p : Pipeline} {stdoutFd stdinFd : Nat}
    {s s₀ : Shell σ} (h : s.forked = s₀.forked) :
    HandsOn commands line p s₀ (some (executeLoop answers line p stdoutFd stdinFd s)) := by
  rcases startsFrom_launchAll answers line stdoutFd stdinFd p.background p.segments
    ⟨s, stdinFd, 0, [], []⟩ with
    ⟨children, hchildren, hprefix⟩
  refine Or.inl ⟨_, rfl, children, ?_, hprefix⟩
  rw [← h]
  exact hchildren

/-- Behind the redirections a builtin gets them in the shell, and everything else by the loop. -/
theorem handsOn_executeOpened (commands : Commands σ) {p : Pipeline} {stdoutFd stdinFd : Nat}
    {s s₀ : Shell σ} (h : s.forked = s₀.forked) :
    HandsOn commands line p s₀ (executeOpened commands answers line p stdoutFd stdinFd s) := by
  rw [executeOpened]
  split
  · exact Or.inl ⟨s, rfl, StartsFrom.refl h⟩
  · rename_i a args hsegs
    split
    · -- An in-process builtin: its descriptors are closed behind it.
      exact Or.inr ⟨_, mem_argLists_of_singleton hsegs (List.cons_ne_nil _ _), s,
        [stdoutFd, stdinFd], h, rfl⟩
    · exact handsOn_executeLoop commands h
  · exact handsOn_executeLoop commands h

/-- **`execute` hands on the argument lists of the pipeline and no others.** -/
theorem handsOn_execute (commands : Commands σ) (answers : Answers) (line : Bytes) (p : Pipeline)
    (s : Shell σ) : HandsOn commands line p s (execute commands answers line p s) := by
  have hforked : (openStdin answers line p (openStdout answers line p s.jobReap).2).2.forked
      = s.forked := by
    rcases openStdout_frame answers line p s.jobReap with ⟨fds, calls, hout⟩
    rcases openStdin_frame answers line p (openStdout answers line p s.jobReap).2 with
      ⟨fds', calls', hin⟩
    rw [hin, hout]
    exact s.forked_jobReap
  have hredirected : HandsOn commands line p s
      (executeRedirected commands answers line p s.jobReap) := by
    unfold executeRedirected
    simp only
    split
    · exact Or.inl ⟨_, rfl, StartsFrom.refl hforked⟩
    · split
      · refine Or.inl ⟨_, rfl, StartsFrom.refl ?_⟩
        rw [Shell.forked_closeAboveTwo]
        exact hforked
      · exact handsOn_executeOpened commands hforked
  unfold execute
  simp only
  split
  · rename_i seg hsegs
    split
    · exact handsOn_executePlain commands hsegs p.background s.forked_jobReap
    · exact hredirected
  · exact hredirected

end OnyxShell
