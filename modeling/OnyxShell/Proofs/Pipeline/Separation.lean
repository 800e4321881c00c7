import OnyxShell.Proofs.Pipeline.Stretch

/-!
# `OnyxShell.Proofs.Pipeline.Separation`: which lines `parse` cuts only at pipes

`SeparatedByPipe` says that two words in different segments have a pipe between them.
The segment loop of `parse` also stops when its argument array is full, and the outer
loop then opens another segment without having seen a pipe. So the 17th word of a
stretch becomes the command word of a segment of its own.

`separatedByPipe_parse_iff` gives the exact condition, `KeepsTogether`: going through
the stretches from the left and counting the segments they take, no stretch that still
has room for two segments holds more than `MAX_ARGS_PER` words. A 17th word that is the
closing `&` does not count, because `parse` takes it out of its segment again.
-/

set_option autoImplicit false

namespace OnyxShell

/-- The line has a pipe byte behind span `a` and before span `b`. -/
def PipeBetween (line : Bytes) (a b : Span) : Prop :=
  ∃ k, k < b.1 ∧ a.1 + a.2 ≤ k ∧ (line)[k]? = some '|'.toUInt8

instance (line : Bytes) (a b : Span) : Decidable (PipeBetween line a b) :=
  inferInstanceAs (Decidable (∃ k, k < b.1 ∧ a.1 + a.2 ≤ k ∧ (line)[k]? = some '|'.toUInt8))

/-- Any two words in different segments have a pipe between them. It is what a `|` between two
commands is for, said of the line's bytes and of the spans only. -/
def SeparatedByPipe (line : Bytes) (segments : List Segment) : Prop :=
  segments.Pairwise fun S T => ∀ a ∈ S, ∀ b ∈ T, PipeBetween line a b

instance (line : Bytes) (segments : List Segment) : Decidable (SeparatedByPipe line segments) :=
  inferInstanceAs (Decidable (List.Pairwise _ segments))

/-! ### The condition -/

/-- The number of segments a non-empty stretch of at most `MAX_ARGS_PER` words takes: a
redirection behind the 16th word falls into a second one. -/
def segmentsRead (st : List (Token Span)) : Nat :=
  if (words st.dropLast).length = MAX_ARGS_PER then 2 else 1

/-- The stretch has one word too many, and that word is `&`. -/
def OnlyMarkOver (line : Bytes) (st : List (Token Span)) : Prop :=
  (words st).length = MAX_ARGS_PER + 1 ∧
    ∃ s, (words st).getLast? = some s ∧ Span.of line s = ampersand

/-- No stretch with room for two segments has more than `MAX_ARGS_PER` words, the closing
`&` not counted. `used` is the number of segments taken by the stretches before. -/
def KeepsTogether (line : Bytes) : Nat → List (List (Token Span)) → Prop
  | _, [] => True
  | used, st :: rest =>
    if st = [] then KeepsTogether line used rest
    else if MAX_SEGMENTS ≤ used + 1 then True
    else if (words st).length ≤ MAX_ARGS_PER then
      KeepsTogether line (used + segmentsRead st) rest
    else OnlyMarkOver line st ∧ (used + 2 = MAX_SEGMENTS ∨ ∀ u ∈ rest, u = [])

/-! ### The segments of a reading -/

/-- The segments after the background mark is taken out. -/
def unmark (line : Bytes) (segments : List Segment) : List Segment :=
  (markBackground line ⟨segments, (0, 0), (0, 0), false⟩).segments

/-- Taking the mark out looks at the segments only. -/
theorem segments_markBackground (line : Bytes) (p : Pipeline) :
    (markBackground line p).segments = unmark line p.segments := by
  unfold unmark markBackground
  cases h : p.segments.getLast? with
  | none => rfl
  | some last =>
    cases h' : last.getLast? with
    | none => simp [h']
    | some a =>
      simp only [h']
      split <;> rfl

/-- The last segment either stays or loses a final `&`. -/
theorem unmark_append (line : Bytes) (segs : List Segment) (last : Segment) :
    unmark line (segs ++ [last])
      = segs ++ [if ∃ a, last.getLast? = some a ∧ Span.of line a = ampersand
          then last.dropLast else last] := by
  unfold unmark markBackground
  simp only [List.getLast?_concat, List.dropLast_concat]
  cases h : last.getLast? with
  | none => simp
  | some a =>
    by_cases ha : Span.of line a = ampersand
    · simp [ha]
    · simp [ha]

/-- Taking the mark out of the last segment keeps the others, and leaves words of it. -/
theorem unmark_concat (line : Bytes) (segs : List Segment) (last : Segment) :
    ∃ last', unmark line (segs ++ [last]) = segs ++ [last'] ∧ ∀ a ∈ last', a ∈ last := by
  refine ⟨_, unmark_append line segs last, ?_⟩
  split
  · intro a ha
    exact List.dropLast_subset _ ha
  · intro a ha
    exact ha

/-- Words that are separated stay so without the mark. -/
theorem SeparatedByPipe.unmark {line : Bytes} {segs : List Segment}
    (h : SeparatedByPipe line segs) : SeparatedByPipe line (unmark line segs) := by
  rcases List.eq_nil_or_concat segs with rfl | ⟨init, last, rfl⟩
  · exact h
  · rw [List.concat_eq_append] at h ⊢
    obtain ⟨last', heq, hsub⟩ := unmark_concat line init last
    rw [heq]
    unfold SeparatedByPipe at h ⊢
    rw [List.pairwise_append] at h ⊢
    refine ⟨h.1, List.pairwise_singleton _ _, fun S hS T hT a ha b hb => ?_⟩
    obtain rfl := List.mem_singleton.mp hT
    exact h.2.2 S hS last (by simp) a ha b (hsub b hb)

/-! ### The main induction -/

/-- All words of the segments lie before a pipe that lies before index `i`. -/
def PipeBefore (line : Bytes) (i : Nat) (segs : List Segment) : Prop :=
  ∀ S ∈ segs, ∀ a ∈ S, PipeBetween line a (i, 0)

/-- New segments with words behind index `i` only, at most one of them not empty, keep the
words separated. -/
theorem SeparatedByPipe.append {line : Bytes} {i : Nat} {done new : List Segment}
    (h : SeparatedByPipe line done) (hbefore : PipeBefore line i done)
    (hnew : SeparatedByPipe line new) (hfrom : ∀ S ∈ new, ∀ a ∈ S, i ≤ a.1) :
    SeparatedByPipe line (done ++ new) := by
  unfold SeparatedByPipe at *
  rw [List.pairwise_append]
  refine ⟨h, hnew, fun S hS T hT a ha b hb => ?_⟩
  -- The pipe that closed the earlier segments lies before all new words.
  obtain ⟨k, hk, hak, hpipe⟩ := hbefore S hS a ha
  exact ⟨k, Nat.lt_of_lt_of_le hk (hfrom T hT b hb), hak, hpipe⟩

/-- Two words of one stretch have no pipe between them. -/
theorem IsStretch.not_pipeBetween {line : Bytes} {i stop : Nat} {st : List (Token Span)}
    (hst : IsStretch line i stop st) {a b : Span} (ha : a ∈ words st) (hb : b ∈ words st) :
    ¬ PipeBetween line a b := by
  rintro ⟨k, hkb, hak, hpipe⟩
  have h1 := hst.inside a ha
  have h2 := hst.inside b hb
  exact hst.free k (by omega) (by omega) hpipe

/-- Two segments with words of one stretch are not separated. -/
theorem IsStretch.not_separated {line : Bytes} {i stop : Nat} {st : List (Token Span)}
    (hst : IsStretch line i stop st) {done rest : List Segment} {S T : Segment} {a b : Span}
    (ha : a ∈ S) (hb : b ∈ T) (haw : a ∈ words st) (hbw : b ∈ words st) :
    ¬ SeparatedByPipe line (done ++ S :: T :: rest) := by
  intro h
  rw [SeparatedByPipe] at h
  have hST := List.rel_of_pairwise_cons (List.pairwise_append.mp h).2.1 (List.mem_cons_self ..)
  exact hst.not_pipeBetween haw hbw (hST a ha b hb)

/-- A stretch that finds room for one segment at most: what it adds is the last one. -/
theorem done_readStretch_of_full {line : Bytes} {i stop : Nat} {st : List (Token Span)}
    (hst : IsStretch line i stop st) (hne : st ≠ []) (done : List Segment) (o inp : Span)
    (hlen : done.length ≤ MAX_SEGMENTS) (hroom : MAX_SEGMENTS ≤ done.length + 1) :
    ∃ new, (Reading.readStretch ⟨done, none, o, inp⟩ st).done = done ++ new ∧
      (done ++ new).length = MAX_SEGMENTS ∧ SeparatedByPipe line new ∧
      ∀ S ∈ new, ∀ a ∈ S, a ∈ words st := by
  -- Something is added, as the stretch has a token, and there is no room for two segments.
  obtain ⟨new, hnew, hnewlen, hiff⟩ := Reading.done_readStretch_extends hst done o inp hlen
  have hfull : (done ++ new).length = MAX_SEGMENTS := by
    rw [List.length_append] at hnewlen ⊢
    rcases Nat.lt_or_ge done.length MAX_SEGMENTS with hlt | hge
    · have : new.length ≠ 0 := by
        intro h0
        have := hiff.mp (List.eq_nil_of_length_eq_zero h0)
        simp [hne] at this
        omega
      omega
    · omega
  refine ⟨new, hnew, hfull, ?_, ?_⟩
  · have hone : new.length ≤ 1 := by
      rw [List.length_append] at hfull
      omega
    rcases new with _ | ⟨S, _ | ⟨S', new⟩⟩
    · exact List.Pairwise.nil
    · exact List.pairwise_singleton _ _
    · simp at hone
  · have hdone := Reading.done_readStretch st hst.not_pipe done o inp hlen
    rw [if_neg hne, hnew, List.take_append, List.take_of_length_le hlen] at hdone
    intro S hS a ha
    rw [List.append_cancel_left hdone] at hS
    simpa using mem_chunks (List.mem_of_mem_take hS) ha

/-- A stretch that fits one segment: the segments it adds are separated. -/
theorem done_readStretch_of_le {line : Bytes} {i stop : Nat} {st : List (Token Span)}
    (hst : IsStretch line i stop st) (hne : st ≠ []) (hle : (words st).length ≤ MAX_ARGS_PER)
    (done : List Segment) (o inp : Span) (hroom : done.length + 2 ≤ MAX_SEGMENTS) :
    ∃ new, (Reading.readStretch ⟨done, none, o, inp⟩ st).done = done ++ new ∧
      new.length = segmentsRead st ∧ SeparatedByPipe line new ∧
      ∀ S ∈ new, ∀ a ∈ S, a ∈ words st := by
  have hchunks := chunks_of_le [] st (by simpa using hle)
  have hdone := Reading.done_readStretch st hst.not_pipe done o inp (by omega)
  rw [if_neg hne, hchunks] at hdone
  simp only [List.nil_append, hne, ne_eq, not_false_eq_true, true_and] at hdone
  rw [segmentsRead]
  -- A redirection behind the 16th word opens an empty segment.
  by_cases hfull : (words st.dropLast).length = MAX_ARGS_PER
  · rw [if_pos hfull] at hdone ⊢
    rw [List.take_of_length_le (by simpa using hroom)] at hdone
    exact ⟨_, hdone, rfl, by simp [SeparatedByPipe], by simp⟩
  · rw [if_neg hfull] at hdone ⊢
    rw [List.take_of_length_le (by simp; omega)] at hdone
    exact ⟨_, hdone, rfl, by simp [SeparatedByPipe], by simp⟩

/-- A stretch with too many words: the first segment it adds is full, and the second one
starts with the words left over. -/
theorem done_readStretch_of_lt {line : Bytes} {i stop : Nat} {st : List (Token Span)}
    (hst : IsStretch line i stop st) (hlt : MAX_ARGS_PER < (words st).length)
    (done : List Segment) (o inp : Span) (hroom : done.length + 2 ≤ MAX_SEGMENTS) :
    ∃ rest, (Reading.readStretch ⟨done, none, o, inp⟩ st).done
        = done ++ (words st).take MAX_ARGS_PER ::
            ((words st).drop MAX_ARGS_PER).take MAX_ARGS_PER :: rest ∧
      ((words st).length = MAX_ARGS_PER + 1 → rest = []) := by
  have hne : st ≠ [] := by
    rintro rfl
    simp at hlt
  have hdone := Reading.done_readStretch st hst.not_pipe done o inp (by omega)
  obtain ⟨rest, hchunks, hrest⟩ := chunks_head [] st (by simp)
  rw [List.nil_append] at hchunks hrest
  obtain ⟨st', rfl, hst'⟩ : ∃ st', rest = chunks [] st' ∧ words st' = (words st).drop MAX_ARGS_PER := by
    rcases hrest with ⟨-, hle⟩ | h
    · omega
    · exact h
  obtain ⟨rest', hchunks', -⟩ := chunks_head [] st' (by simp)
  rw [List.nil_append, hst'] at hchunks'
  rw [if_neg hne, hchunks, hchunks', List.take_append, List.take_of_length_le (by omega)] at hdone
  -- There is room for both chunks.
  obtain ⟨n, hn⟩ : ∃ n, MAX_SEGMENTS - done.length = n + 2 := ⟨MAX_SEGMENTS - done.length - 2, by omega⟩
  rw [hn, List.take_succ_cons, List.take_succ_cons] at hdone
  refine ⟨_, hdone, fun hone => ?_⟩
  -- One word is left over, so the rest of the stretch is one chunk.
  have hwords : (words st').length = 1 := by
    rw [hst', List.length_drop]
    omega
  have hle := chunks_of_le [] st' (by simp [hwords, MAX_ARGS_PER])
  have hdrop : (words st'.dropLast).length ≤ 1 := by
    rw [← hwords]
    exact (words_sublist (List.dropLast_sublist st')).length_le
  rw [hchunks', if_neg (by simp [MAX_ARGS_PER]; omega)] at hle
  rw [(List.cons.inj hle).2, List.take_nil]

section

variable {line : Bytes} {i stop : Nat} {st : List (Token Span)} {first left : List Span} {w : Span}
  {done more : List Segment}

/-- When the words behind the first `MAX_ARGS_PER` are the closing mark. -/
theorem onlyMarkOver_iff (hwords : words st = first ++ w :: left)
    (hfirst : first.length = MAX_ARGS_PER) :
    OnlyMarkOver line st ↔ left = [] ∧ Span.of line w = ampersand := by
  have hlen : (words st).length = MAX_ARGS_PER + (left.length + 1) := by
    rw [hwords, List.length_append, hfirst, List.length_cons]
  have hlast : left = [] → (words st).getLast? = some w := by
    rintro rfl
    rw [hwords, List.getLast?_concat]
  constructor
  · rintro ⟨hcount, s, hs, hamp⟩
    have hl : left = [] := List.eq_nil_of_length_eq_zero (by omega)
    rw [hlast hl] at hs
    exact ⟨hl, Option.some.inj hs ▸ hamp⟩
  · rintro ⟨rfl, hamp⟩
    exact ⟨hlen, w, hlast rfl, hamp⟩

/-- Words of one stretch in two segments, of which the second is the last one of the line: they
stay separated if the second is the mark alone, which becomes empty. -/
theorem IsStretch.separated_last_iff (hst : IsStretch line i stop st)
    (hwords : words st = first ++ w :: left) (hfirst : first ≠ []) (n : Nat)
    (hsep : SeparatedByPipe line done) (hbefore : PipeBefore line i done) :
    SeparatedByPipe line (unmark line (done ++ [first, w :: left.take (n + 1)])) ↔
      left = [] ∧ Span.of line w = ampersand := by
  have hw : w ∈ words st := by
    rw [hwords]
    exact List.mem_append_right _ List.mem_cons_self
  have hmem : ∀ b ∈ first, b ∈ words st := fun b hb => by
    rw [hwords]
    exact List.mem_append_left _ hb
  have hcut := unmark_append line (done ++ [first]) (w :: left.take (n + 1))
  rw [List.append_assoc, List.singleton_append] at hcut
  rw [hcut, List.append_assoc, List.singleton_append]
  by_cases hmark : left = [] ∧ Span.of line w = ampersand
  · -- The second segment has no word left to be near the first.
    obtain ⟨rfl, hamp⟩ := hmark
    rw [if_pos ⟨w, rfl, hamp⟩]
    refine iff_of_true (hsep.append hbefore ?_ ?_) ⟨rfl, hamp⟩
    · simp [SeparatedByPipe]
    · intro S hS b hb
      simp only [List.mem_cons, List.not_mem_nil, or_false] at hS
      rcases hS with rfl | rfl
      · exact (hst.inside b (hmem b hb)).1
      · simp at hb
  · -- A word of the stretch stays in the second segment.
    obtain ⟨a, ha⟩ := List.exists_mem_of_ne_nil first hfirst
    refine iff_of_false (hst.not_separated ha (b := w) ?_ (hmem a ha) hw) hmark
    split
    · rename_i h
      obtain ⟨x, hx, hamp⟩ := h
      cases left with
      | nil =>
        obtain rfl : w = x := by simpa using hx
        exact absurd ⟨rfl, hamp⟩ hmark
      | cons y left => simp
    · simp

/-- With more segments behind them, both segments of the stretch keep their words. -/
theorem IsStretch.not_separated_unmark (hst : IsStretch line i stop st)
    (hwords : words st = first ++ w :: left) (hfirst : first ≠ []) (n : Nat) (hmore : more ≠ []) :
    ¬ SeparatedByPipe line
      (unmark line (done ++ first :: (w :: left.take n) :: more)) := by
  obtain ⟨a, ha⟩ := List.exists_mem_of_ne_nil first hfirst
  obtain ⟨init, l, rfl⟩ := (List.eq_nil_or_concat more).resolve_left hmore
  obtain ⟨l', hcut, -⟩ := unmark_concat line (done ++ first :: (w :: left.take n) :: init) l
  simp only [List.concat_eq_append, List.append_assoc, List.cons_append] at hcut ⊢
  rw [hcut]
  refine hst.not_separated ha List.mem_cons_self ?_ ?_
  · rw [hwords]
    exact List.mem_append_left _ ha
  · rw [hwords]
    exact List.mem_append_right _ List.mem_cons_self

end

/-- The stretch with too many words, followed by the segments `more` of the rest of the
line: the words stay separated exactly when the word left over is the closing mark. -/
theorem separated_of_lt {line : Bytes} {i stop : Nat} {st : List (Token Span)}
    (hst : IsStretch line i stop st) (hlt : MAX_ARGS_PER < (words st).length)
    (done : List Segment) (o inp : Span) (hroom : done.length + 2 ≤ MAX_SEGMENTS)
    (hsep : SeparatedByPipe line done) (hbefore : PipeBefore line i done)
    (more : List Segment) (blank : Prop)
    (hmore : more = [] ↔
      (Reading.readStretch ⟨done, none, o, inp⟩ st).done.length = MAX_SEGMENTS ∨ blank) :
    SeparatedByPipe line
        (unmark line ((Reading.readStretch ⟨done, none, o, inp⟩ st).done ++ more)) ↔
      OnlyMarkOver line st ∧ (done.length + 2 = MAX_SEGMENTS ∨ blank) := by
  obtain ⟨rest, hdone, hrest⟩ := done_readStretch_of_lt hst hlt done o inp hroom
  -- The first word left over.
  obtain ⟨w, left, hleft⟩ : ∃ w left, (words st).drop MAX_ARGS_PER = w :: left :=
    List.exists_cons_of_length_pos (by rw [List.length_drop]; omega)
  have hwords : words st = (words st).take MAX_ARGS_PER ++ w :: left := by
    rw [← hleft, List.take_append_drop]
  have hcount : ((words st).take MAX_ARGS_PER).length = MAX_ARGS_PER :=
    List.length_take_of_le (Nat.le_of_lt hlt)
  have hfirst : (words st).take MAX_ARGS_PER ≠ [] :=
    List.ne_nil_of_length_pos (by rw [hcount]; decide)
  have hsecond : ((words st).drop MAX_ARGS_PER).take MAX_ARGS_PER = w :: left.take 15 := by
    rw [hleft]
    rfl
  rw [hsecond] at hdone
  rw [hdone] at hmore ⊢
  by_cases hnil : rest ++ more = []
  · -- The second segment of the stretch is the last one of the line.
    obtain ⟨rfl, rfl⟩ := List.append_eq_nil_iff.mp hnil
    have hclosed : done.length + 2 = MAX_SEGMENTS ∨ blank := by simpa using hmore
    rw [List.append_nil, hst.separated_last_iff hwords hfirst 14 hsep hbefore,
      onlyMarkOver_iff hwords hcount]
    exact (and_iff_left hclosed).symm
  · rw [List.append_assoc, List.cons_append, List.cons_append]
    refine iff_of_false (hst.not_separated_unmark hwords hfirst 15 hnil) ?_
    rintro ⟨⟨hone, -⟩, hclosed⟩
    obtain rfl := hrest hone
    exact hnil (hmore.mpr (by simpa using hclosed))

/-- One stretch and the segments `more` of the rest of the line. Either the stretch decides
the matter, or the rest does, read with the stretch's segments added. -/
theorem separated_stretch {line : Bytes} {i stop : Nat} {st : List (Token Span)}
    (hst : IsStretch line i stop st) (done : List Segment) (o inp : Span)
    (hlen : done.length ≤ MAX_SEGMENTS) (hsep : SeparatedByPipe line done)
    (hbefore : PipeBefore line i done) (more : List Segment) (rest : List (List (Token Span)))
    (hmore : more = [] ↔
      (Reading.readStretch ⟨done, none, o, inp⟩ st).done.length = MAX_SEGMENTS ∨
        ∀ u ∈ rest, u = [])
    (hrest : ∀ new, (Reading.readStretch ⟨done, none, o, inp⟩ st).done = done ++ new →
      SeparatedByPipe line (done ++ new) → (∀ S ∈ new, ∀ a ∈ S, a ∈ words st) →
      (SeparatedByPipe line (unmark line (done ++ new ++ more)) ↔
        KeepsTogether line (done ++ new).length rest)) :
    SeparatedByPipe line
        (unmark line ((Reading.readStretch ⟨done, none, o, inp⟩ st).done ++ more)) ↔
      KeepsTogether line done.length (st :: rest) := by
  rw [KeepsTogether]
  by_cases hnil : st = []
  · rw [if_pos hnil]
    subst hnil
    simpa [Reading.readStretch, Reading.close] using
      hrest [] (by simp [Reading.readStretch, Reading.close]) (by simpa using hsep) (by simp)
  rw [if_neg hnil]
  by_cases hroom : MAX_SEGMENTS ≤ done.length + 1
  · -- At most one more segment fits, and it ends the list.
    rw [if_pos hroom]
    refine iff_of_true ?_ trivial
    obtain ⟨new, hnew, hfull, hnewsep, hsub⟩ :=
      done_readStretch_of_full hst hnil done o inp hlen hroom
    rw [hmore.mpr (Or.inl (by rw [hnew]; exact hfull)), List.append_nil, hnew]
    exact (hsep.append hbefore hnewsep fun S hS a ha => (hst.inside a (hsub S hS a ha)).1).unmark
  · rw [if_neg hroom]
    by_cases hle : (words st).length ≤ MAX_ARGS_PER
    · rw [if_pos hle]
      obtain ⟨new, hnew, hcount, hnewsep, hsub⟩ :=
        done_readStretch_of_le hst hnil hle done o inp (by omega)
      -- The stretch keeps its words together, so the rest decides.
      have hsep' := hsep.append hbefore hnewsep fun S hS a ha => (hst.inside a (hsub S hS a ha)).1
      rw [hnew, hrest new hnew hsep' hsub, List.length_append, hcount]
    · rw [if_neg hle]
      exact separated_of_lt hst (by omega) done o inp (by omega) hsep hbefore more _ hmore

/-- From any index on, with the segments before it separated and closed by a pipe. -/
theorem separated_from (line : Bytes) (i : Nat) (done : List Segment) (o inp : Span)
    (hlen : done.length ≤ MAX_SEGMENTS) (hsep : SeparatedByPipe line done)
    (hbefore : PipeBefore line i done) :
    SeparatedByPipe line
        (unmark line (Reading.segmentsOf ⟨done, none, o, inp⟩ (lexFrom line i))) ↔
      KeepsTogether line done.length (stretches (lexFrom line i)) := by
  induction i using stretch_induction line generalizing done o inp with
  | last i stop st hst =>
    rw [stretches_eq_singleton hst.not_pipe, Reading.segmentsOf_last]
    -- Nothing follows, so no further segment is added.
    have h := separated_stretch hst done o inp hlen hsep hbefore [] [] (by simp)
      fun new _ hsep' _ => by simpa [KeepsTogether] using hsep'.unmark
    simpa using h
  | more i stop st hst hpipe ih =>
    rw [stretches_append hst.not_pipe, Reading.segmentsOf_append]
    obtain ⟨o', inp', heq⟩ := Reading.readStretch_eq ⟨done, none, o, inp⟩ st
    obtain ⟨new, hnew, hnewlen, -⟩ := Reading.done_readStretch_extends hst done o inp hlen
    obtain ⟨more, hmore, -, hiff⟩ :=
      Reading.segmentsOf_extends line (stop + 1) (done ++ new) o' inp' hnewlen
    rw [heq, hnew, hmore, ← hnew]
    refine separated_stretch hst done o inp hlen hsep hbefore more _ (by rw [hnew]; exact hiff) ?_
    intro new' hnew' hsep' hsub
    obtain rfl : new' = new := by rwa [hnew, List.append_cancel_left_eq, eq_comm] at hnew'
    rw [← hmore]
    refine ih (done ++ new') o' inp' hnewlen hsep' ?_
    -- The pipe that ends the stretch lies behind every word read so far.
    intro S hS a ha
    rcases List.mem_append.mp hS with hS | hS
    · obtain ⟨k, hk, hak, hkpipe⟩ := hbefore S hS a ha
      have := hst.le
      exact ⟨k, by simp only at hk ⊢; omega, hak, hkpipe⟩
    · exact ⟨stop, Nat.lt_succ_self stop, (hst.inside a (hsub S hS a ha)).2, hpipe⟩

/-- **`parse` cuts a line only at its pipes exactly when `KeepsTogether` holds**: no stretch with
room for two segments has more than 16 argument words, the closing `&` not counted. The condition
reads the tokens of the line and counts. The proof goes over the stretches between the pipes
(`separated_from`), from any list of segments that are closed already, since it is their number
that decides whether a full stretch still opens a new segment. -/
theorem separatedByPipe_parse_iff (line : Bytes) :
    SeparatedByPipe line (parse line).segments ↔ KeepsTogether line 0 (stretches (lex line)) := by
  rw [parse_eq, segments_markBackground]
  exact separated_from line 0 [] (0, 0) (0, 0) (by simp) List.Pairwise.nil (by simp [PipeBefore])

/-- Seventeen words without a pipe: the 17th becomes the command word of a second segment. -/
theorem not_separatedByPipe_seventeen_words :
    ¬ SeparatedByPipe (bytes "echo 1 2 3 4 5 6 7 8 9 10 11 12 13 14 15 rm")
      (parse (bytes "echo 1 2 3 4 5 6 7 8 9 10 11 12 13 14 15 rm")).segments := by
  decide +kernel

end OnyxShell
