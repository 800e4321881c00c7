import OnyxShell.Commands.Argv
import OnyxShell.Proofs.Commands.Run

/-!
# `OnyxShell.Proofs.Commands.Argv`: which arguments a program gets

What the builders leave in the arrays (`exists_buildArgvInto`, `exists_buildShebangArgvInto`),
and from it when a command delivers all of its arguments (`execDelivered_iff`,
`runDelivered_iff`).

The main result is about arguments of at most 127 bytes, which is what a word of a line has behind
its expansion.
-/

set_option autoImplicit false

namespace OnyxShell

variable {around : Surroundings} {args : List Bytes} {table : ArgvTable}

/-! ### The builders -/

/-- The loop of `build_shebang_argv` with arguments that fit their rows. -/
theorem exists_shebangArgsFrom {texts : List Bytes} (h : table.Holds texts)
    (hroom : texts.length + args.length ≤ MAX_ARGS) (hargs : ∀ a ∈ args, a.length < PATH_MAX) :
    ∃ table', shebangArgsFrom args texts.length table = some (table', (texts ++ args).length) ∧
      table'.Holds (texts ++ args) := by
  induction args generalizing texts table with
  | nil =>
    rw [List.append_nil]
    exact ⟨table, rfl, h⟩
  | cons arg rest ih =>
    rw [List.length_cons] at hroom
    have hfit : arg.length < PATH_MAX := hargs arg List.mem_cons_self
    rcases h.putText (by omega) hfit with ⟨table₁, hput, hholds⟩
    have hlen : (texts ++ [arg]).length = texts.length + 1 := by simp
    rcases ih hholds (by omega) (fun a ha => hargs a (List.mem_cons_of_mem _ ha))
      with ⟨table', hrest, hall⟩
    rw [hlen, List.append_assoc, List.singleton_append] at hrest
    rw [List.append_assoc, List.singleton_append] at hall
    refine ⟨table', ?_, hall⟩
    rw [shebangArgsFrom, if_neg (Nat.not_le.mpr hfit), hput]
    exact hrest

/-- With arguments that fit, the loop of `build_argv` is that of `build_shebang_argv`, and the
zero behind the pointers. -/
theorem buildArgvFrom_eq (hargs : ∀ a ∈ args, a.length < PATH_MAX) (i : Nat) (table : ArgvTable) :
    buildArgvFrom args i table = (shebangArgsFrom args i table).bind fun r =>
      (r.1.setPtr r.2 0).map fun table => (table, r.2) := by
  induction args generalizing i table with
  | nil =>
    rw [buildArgvFrom, shebangArgsFrom, Option.bind_some]
    show (table.setPtr i 0).bind _ = _
    cases table.setPtr i 0 with
    | none => rfl
    | some table' => rfl
  | cons arg rest ih =>
    have hfit : ¬ arg.length ≥ PATH_MAX := Nat.not_le.mpr (hargs arg List.mem_cons_self)
    rw [buildArgvFrom, shebangArgsFrom, if_neg hfit, if_neg hfit]
    cases table.putText i arg with
    | none => rfl
    | some table' => exact ih (fun a ha => hargs a (List.mem_cons_of_mem _ ha)) (i + 1) table'

/-- The loop of `build_argv` with arguments that fit their rows. -/
theorem exists_buildArgvFrom {texts : List Bytes} (h : table.Holds texts)
    (hroom : texts.length + args.length ≤ MAX_ARGS) (hargs : ∀ a ∈ args, a.length < PATH_MAX) :
    ∃ table', buildArgvFrom args texts.length table = some (table', (texts ++ args).length) ∧
      HoldsArgv table' (texts ++ args) := by
  rcases exists_shebangArgsFrom h hroom hargs with ⟨table₁, hloop, hholds⟩
  have hlen : (texts ++ args).length ≤ MAX_ARGS := by
    rw [List.length_append]
    exact hroom
  rcases hholds.end hlen with ⟨table', hset, hholds', hzero⟩
  refine ⟨table', ?_, hholds', hzero⟩
  rw [buildArgvFrom_eq hargs, hloop, Option.bind_some, hset]
  rfl

/-- `build_argv` keeps the first 16 arguments. -/
theorem exists_buildArgvInto (table : ArgvTable) (hargs : ∀ a ∈ args, a.length < PATH_MAX) :
    ∃ table', buildArgvInto args table = some (table', (args.take MAX_ARGS).length) ∧
      HoldsArgv table' (args.take MAX_ARGS) := by
  have hroom : ([] : List Bytes).length + (args.take MAX_ARGS).length ≤ MAX_ARGS := by
    rw [List.length_take, List.length_nil]
    omega
  exact exists_buildArgvFrom table.holds_nil hroom fun a ha => hargs a (List.mem_of_mem_take ha)

/-- `build_shebang_argv` keeps the arguments before the fifteenth. -/
theorem exists_buildShebangArgvInto {target path : Bytes} (table : ArgvTable)
    (htarget : target.length < PATH_MAX) (hpath : path.length < PATH_MAX)
    (hargs : ∀ a ∈ args, a.length < PATH_MAX) :
    ∃ table', buildShebangArgvInto target path args table
        = some (table', (target :: path :: (args.take (MAX_ARGS - 2)).drop 1).length) ∧
      HoldsArgv table' (target :: path :: (args.take (MAX_ARGS - 2)).drop 1) := by
  have hmax : MAX_ARGS = 16 := rfl
  -- The interpreter and the script first, then the loop, then the zero.
  rcases table.holds_nil.putText (Nat.zero_lt_succ _) htarget with ⟨table₁, hput₁, hholds₁⟩
  rcases hholds₁.putText (by show 1 < 16; decide) hpath with ⟨table₂, hput₂, hholds₂⟩
  have hroom : ([target] ++ [path]).length + ((args.take (MAX_ARGS - 2)).drop 1).length
      ≤ MAX_ARGS := by
    rw [List.length_drop, List.length_take]
    simp only [List.singleton_append, List.length_cons, List.length_nil]
    omega
  rcases exists_shebangArgsFrom hholds₂ hroom
    (fun a ha => hargs a (List.mem_of_mem_take (List.mem_of_mem_drop ha)))
    with ⟨table₃, hloop, hholds₃⟩
  rcases hholds₃.end (by rw [List.length_append]; exact hroom) with ⟨table', hend, hholds, hzero⟩
  refine ⟨table', ?_, hholds, hzero⟩
  have hput₁ : table.putText 0 target = some table₁ := hput₁
  have hput₂ : table₁.putText 1 path = some table₂ := hput₂
  rw [buildShebangArgvInto, hput₁]
  show ((table₁.putText 1 path).bind fun table => _) = _
  rw [hput₂]
  show ((shebangArgsFrom ((args.take (MAX_ARGS - 2)).drop 1) 2 table₂).bind fun p => _) = _
  rw [show shebangArgsFrom ((args.take (MAX_ARGS - 2)).drop 1) 2 table₂ = _ from hloop]
  show ((table₃.setPtr _ 0).bind fun table => _) = _
  rw [hend]
  rfl

/-! ### What the arrays say -/

/-- The zero behind the pointers fixes the number of arguments. -/
theorem length_eq_of_holdsArgv {argv argv' : List Bytes} (h : HoldsArgv table argv)
    (h' : HoldsArgv table argv') : argv.length = argv'.length := by
  have hnot : ∀ argv argv' : List Bytes, HoldsArgv table argv → HoldsArgv table argv' →
      ¬ argv.length < argv'.length := by
    intro argv argv' h h' hlt
    have hptr := h'.1.ptr argv.length hlt
    rw [h.2] at hptr
    exact table.address_ne_zero _ (Option.some.inj hptr).symm
  exact Nat.le_antisymm (Nat.le_of_not_lt (hnot _ _ h' h)) (Nat.le_of_not_lt (hnot _ _ h h'))

/-- What the program reads. -/
theorem strings_of_holdsArgv {argv : List Bytes} (h : HoldsArgv table argv) :
    table.strings = argv.map cString := StringTable.strings_of_holds h.1 h.2

/-- A program that is started with the front of what it should get. -/
theorem deliversArgv_handed_iff {wanted : List Bytes} {path : Bytes} {n : Nat}
    (h : HoldsArgv table (wanted.take n)) :
    DeliversArgv wanted (.handed path table) ↔ wanted.length ≤ n ∧ wanted.length ≤ MAX_ARGS := by
  constructor
  · intro hdel
    have hlen := length_eq_of_holdsArgv h (hdel.all path table rfl)
    rw [List.length_take] at hlen
    refine ⟨by omega, ?_⟩
    -- A program with too many arguments should have been refused.
    by_contra hmany
    rcases hdel.refuses (Nat.lt_of_not_le hmany) with ⟨msg, hmsg⟩
    cases hmsg
  · rintro ⟨hn, hmax⟩
    rw [List.take_of_length_le hn] at h
    refine ⟨?_, fun hmany => absurd hmax (Nat.not_le.mpr hmany)⟩
    intro path' table' heq
    cases heq
    exact h

/-- What `build_argv` and `build_shebang_argv` leave is what `cmd_run` is modelled with. -/
theorem buildArgv_eq (hargs : ∀ a ∈ args, a.length < PATH_MAX) :
    buildArgv args = some (args.take MAX_ARGS) := by
  rw [buildArgv, if_neg]
  intro hany
  rcases List.any_eq_true.mp hany with ⟨a, ha, hlong⟩
  exact absurd (hargs a (List.mem_of_mem_take ha)) (Nat.not_lt.mpr (of_decide_eq_true hlong))

/-- What `build_shebang_argv` makes, where every argument fits its row. Two fewer than the array
has room for are taken. -/
theorem buildShebangArgv_eq (target path : Bytes) (hargs : ∀ a ∈ args, a.length < PATH_MAX) :
    buildShebangArgv target path args
      = target :: path :: (args.take (MAX_ARGS - 2)).drop 1 := by
  rw [buildShebangArgv, List.takeWhile_eq_self_iff.mpr]
  intro a ha
  exact decide_eq_true (hargs a (List.mem_of_mem_take (List.mem_of_mem_drop ha)))

/-! ### The commands -/

/-- The interpreter fits its row. -/
theorem length_lt_interpreter {path word : Bytes} (h : checkShebang around path = some word) :
    (cString word).length < PATH_MAX :=
  Nat.lt_of_le_of_lt (length_cString_le word) (length_lt_checkShebang h)

/-- A program without `#!` is to get its arguments as they are. -/
theorem wantedArgv_plain {arg path : Bytes} (hpath : resolveCmdPath around arg = some path)
    (hshebang : checkShebang around path = none) (rest : List Bytes) :
    wantedArgv around (arg :: rest) = some (arg :: rest) := by
  rw [wantedArgv, hpath, Option.map_some, hshebang]

/-- A program with `#!` is to get the interpreter, its own path and the remaining arguments. -/
theorem wantedArgv_script {arg path word : Bytes} (hpath : resolveCmdPath around arg = some path)
    (hshebang : checkShebang around path = some word) (rest : List Bytes) :
    wantedArgv around (arg :: rest) = some (cString word :: path :: rest) := by
  rw [wantedArgv, hpath, Option.map_some, hshebang]

/-- What `cmd_run` takes for the interpreter is the interpreter. -/
theorem target_eq (interp : Bytes) :
    (if interp.length > 0 ∧ interp = bytes "/bin/osh" then bytes "/bin/osh" else interp) = interp := by
  split
  · rename_i h
    exact h.2.symm
  · rfl

/-- A script: what it gets is cut behind the fourteenth argument. -/
theorem handShebang_delivers_iff {target path arg : Bytes} {rest : List Bytes} (table : ArgvTable)
    (htarget : target.length < PATH_MAX) (hpath : path.length < PATH_MAX)
    (hargs : ∀ a ∈ arg :: rest, a.length < PATH_MAX) :
    (∃ h, handShebang target path (arg :: rest) table = some h ∧
        DeliversArgv (target :: path :: rest) h) ↔ (arg :: rest).length ≤ MAX_ARGS - 2 := by
  rcases exists_buildShebangArgvInto table htarget hpath hargs with ⟨table', hbuild, hholds⟩
  have htake : target :: path :: ((arg :: rest).take (MAX_ARGS - 2)).drop 1
      = (target :: path :: rest).take (MAX_ARGS - 1) := rfl
  have hhand : handShebang target path (arg :: rest) table = some (.handed (cString target) table') := by
    rw [handShebang, hbuild]
    rfl
  rw [htake] at hholds
  rw [hhand]
  have hlen : (target :: path :: rest).length = (arg :: rest).length + 1 := rfl
  have hmax : MAX_ARGS = 16 := rfl
  constructor
  · rintro ⟨h, heq, hdel⟩
    cases heq
    have hcount := (deliversArgv_handed_iff hholds).mp hdel
    omega
  · intro hcount
    exact ⟨_, rfl, (deliversArgv_handed_iff hholds).mpr (by omega)⟩

/-- Any other program: what it gets is cut behind the sixteenth argument. -/
theorem handPlain_delivers_iff {msg path arg : Bytes} {rest : List Bytes} (table : ArgvTable)
    (hargs : ∀ a ∈ arg :: rest, a.length < PATH_MAX) :
    (∃ h, handPlain msg path (arg :: rest) table = some h ∧ DeliversArgv (arg :: rest) h) ↔
      (arg :: rest).length ≤ MAX_ARGS := by
  rcases exists_buildArgvInto table hargs with ⟨table', hbuild, hholds⟩
  have hhand : handPlain msg path (arg :: rest) table = some (.handed (cString path) table') := by
    rw [handPlain, hbuild]
    rfl
  rw [hhand]
  constructor
  · rintro ⟨h, heq, hdel⟩
    cases heq
    exact ((deliversArgv_handed_iff hholds).mp hdel).1
  · intro hcount
    exact ⟨_, rfl, (deliversArgv_handed_iff hholds).mpr ⟨hcount, hcount⟩⟩

/-- A script in the shell process is never refused, and nothing is handed over for it. -/
theorem script_delivers_iff {interp path arg : Bytes} {rest : List Bytes} :
    (∃ h, some (Handover.script path) = some h ∧ DeliversArgv (interp :: path :: rest) h) ↔
      (arg :: rest).length ≤ MAX_ARGS - 1 := by
  have hlen : (interp :: path :: rest).length = (arg :: rest).length + 1 := rfl
  have hmax : MAX_ARGS = 16 := rfl
  constructor
  · rintro ⟨h, heq, hdel⟩
    cases heq
    by_contra hmany
    rcases hdel.refuses (by omega) with ⟨msg, hmsg⟩
    cases hmsg
  · intro hcount
    refine ⟨_, rfl, ?_, fun hmany => absurd hmany (by omega)⟩
    intro path' table h
    cases h

/-- **The arrays hold the arguments of `runProgram`**, which is `cmd_run` without its arrays. -/
theorem runHandover_refines (around : Surroundings) (table : ArgvTable)
    (hargs : ∀ a ∈ args, a.length < PATH_MAX) :
    (∃ msg, runHandover around args table = some (.refused msg) ∧
      runProgram around args = .error msg) ∨
    (∃ path table', runHandover around args table = some (.handed path table') ∧
      runProgram around args = .ok ⟨path, table'.strings⟩) := by
  cases args with
  | nil => exact Or.inl ⟨_, rfl, rfl⟩
  | cons arg rest =>
    rw [runHandover, runProgram]
    cases hpath : resolveCmdPath around arg with
    | none => exact Or.inl ⟨_, rfl, rfl⟩
    | some path =>
      -- No text is too long for its row, so nothing is refused from here on.
      right
      dsimp only
      cases hshebang : checkShebang around path with
      | none =>
        rcases exists_buildArgvInto table hargs with ⟨table', hbuild, hholds⟩
        refine ⟨cString path, table', ?_, ?_⟩
        · dsimp only
          rw [handPlain, hbuild]
          rfl
        · dsimp only
          rw [buildArgv_eq hargs, strings_of_holdsArgv hholds]
      | some word =>
        dsimp only
        rw [target_eq]
        rcases exists_buildShebangArgvInto table (length_lt_interpreter hshebang)
          (length_lt_resolveCmdPath hpath) hargs with ⟨table', hbuild, hholds⟩
        refine ⟨cString (cString word), table', ?_, ?_⟩
        · rw [handShebang, hbuild]
          rfl
        · rw [buildShebangArgv_eq _ _ hargs, strings_of_holdsArgv hholds]

/-- A path that cannot be resolved is refused, and there is nothing to deliver. -/
theorem allDelivered_refused {msg arg : Bytes} {rest : List Bytes}
    (hpath : resolveCmdPath around arg = none) :
    AllDelivered around (arg :: rest) (some (.refused msg)) := by
  refine ⟨_, rfl, ?_⟩
  intro wanted hwanted
  rw [wantedArgv, hpath] at hwanted
  cases hwanted

/-- With a path, the property is about one list of arguments. -/
theorem allDelivered_iff {outcome : Option Handover} {wanted : List Bytes}
    (h : wantedArgv around args = some wanted) :
    AllDelivered around args outcome ↔ ∃ h, outcome = some h ∧ DeliversArgv wanted h := by
  rw [AllDelivered, h]
  simp

/-- `run` delivers all arguments up to 16 of them, and up to 14 for a script. -/
theorem runDelivered_iff (around : Surroundings) (args : List Bytes) (table : ArgvTable)
    (hne : args ≠ []) (hargs : ∀ a ∈ args, a.length ≤ 127) :
    AllDelivered around args (runHandover around args table) ↔ RunFits around args := by
  have hrows : ∀ a ∈ args, a.length < PATH_MAX :=
    fun a ha => Nat.lt_of_le_of_lt (hargs a ha) (by decide)
  cases args with
  | nil => exact absurd rfl hne
  | cons arg rest =>
    rw [runHandover, RunFits]
    simp only [List.head?_cons, Option.mem_def, Option.some.injEq, forall_eq']
    cases hpath : resolveCmdPath around arg with
    | none =>
      apply iff_of_true
      · exact allDelivered_refused hpath
      · intro path h
        cases h
    | some path =>
      simp only [Option.some.injEq, forall_eq']
      cases hshebang : checkShebang around path with
      | none =>
        rw [allDelivered_iff (wantedArgv_plain hpath hshebang rest)]
        exact handPlain_delivers_iff table hrows
      | some word =>
        rw [allDelivered_iff (wantedArgv_script hpath hshebang rest)]
        simp only [target_eq]
        exact handShebang_delivers_iff table (length_lt_interpreter hshebang)
          (length_lt_resolveCmdPath hpath) hrows

/-- `exec` delivers all arguments up to 16 of them, up to 14 for a script with another
interpreter, and it takes up to 15 for one that the shell runs itself. -/
theorem execDelivered_iff (around : Surroundings) (args : List Bytes) (table : ArgvTable)
    (hne : args ≠ []) (hargs : ∀ a ∈ args, a.length ≤ 127) :
    AllDelivered around args (execHandover around args table) ↔ ExecFits around args := by
  have hrows : ∀ a ∈ args, a.length < PATH_MAX :=
    fun a ha => Nat.lt_of_le_of_lt (hargs a ha) (by decide)
  cases args with
  | nil => exact absurd rfl hne
  | cons arg rest =>
    rw [execHandover, ExecFits]
    simp only [List.head?_cons, Option.mem_def, Option.some.injEq, forall_eq']
    cases hpath : resolveCmdPath around arg with
    | none =>
      apply iff_of_true
      · exact allDelivered_refused hpath
      · intro path h
        cases h
    | some path =>
      simp only [Option.some.injEq, forall_eq']
      cases hshebang : checkShebang around path with
      | none =>
        rw [allDelivered_iff (wantedArgv_plain hpath hshebang rest)]
        exact handPlain_delivers_iff table hrows
      | some word =>
        rw [allDelivered_iff (wantedArgv_script hpath hshebang rest)]
        dsimp only
        -- The shell runs a script for itself in its own process.
        by_cases hosh : cString word = bytes "/bin/osh"
        · have hpos : (cString word).length > 0 := by
            rw [hosh]
            decide
          rw [if_pos ⟨hpos, hosh⟩, if_pos hosh]
          exact script_delivers_iff
        · rw [if_neg (fun h => hosh h.2), if_neg hosh]
          exact handShebang_delivers_iff table (length_lt_interpreter hshebang)
            (length_lt_resolveCmdPath hpath) hrows

/-- **Which arguments reach a program**: all of them, or the command is refused, exactly for these
numbers of arguments. `exec` and `run` build the array in the same two ways, with and without an
interpreter, but do not treat `/bin/osh` alike. Each of them has its own equivalence, and the
limits are those of the two loops. -/
theorem argvDelivered_iff (around : Surroundings) (args : List Bytes) (table : ArgvTable)
    (hne : args ≠ []) (hargs : ∀ a ∈ args, a.length ≤ 127) :
    (AllDelivered around args (execHandover around args table) ↔ ExecFits around args) ∧
      (AllDelivered around args (runHandover around args table) ↔ RunFits around args) :=
  ⟨execDelivered_iff around args table hne hargs, runDelivered_iff around args table hne hargs⟩

/-- A shell that finds the script `/s`, and every other program without a `#!`. -/
def withScript : Surroundings :=
  ⟨Env.init, some (bytes "/"), fun _ => false,
    fun path => if path = bytes "/s" then some (bytes "#!/bin/sh\nls\n") else none⟩

/-- A script with two arguments, for both of the commands. -/
theorem argvDelivered_iff_three :
    (AllDelivered withScript [bytes "/s", bytes "a", bytes "b"]
        (execHandover withScript [bytes "/s", bytes "a", bytes "b"] StringTable.zeros) ↔
      ExecFits withScript [bytes "/s", bytes "a", bytes "b"]) ∧
    (AllDelivered withScript [bytes "/s", bytes "a", bytes "b"]
        (runHandover withScript [bytes "/s", bytes "a", bytes "b"] StringTable.zeros) ↔
      RunFits withScript [bytes "/s", bytes "a", bytes "b"]) :=
  argvDelivered_iff withScript [bytes "/s", bytes "a", bytes "b"] StringTable.zeros (by decide)
    (by decide +kernel)

/-- The seventeenth argument of a program and the fifteenth of a script are lost. -/
theorem not_allDelivered_many :
    ¬ AllDelivered withScript (bytes "/p" :: List.replicate 16 (bytes "a"))
      (runHandover withScript (bytes "/p" :: List.replicate 16 (bytes "a")) StringTable.zeros) ∧
    ¬ AllDelivered withScript (bytes "/s" :: List.replicate 14 (bytes "a"))
      (runHandover withScript (bytes "/s" :: List.replicate 14 (bytes "a")) StringTable.zeros) := by
  constructor
  · rw [runDelivered_iff _ _ _ (by decide) (by decide +kernel)]
    decide +kernel
  · rw [runDelivered_iff _ _ _ (by decide) (by decide +kernel)]
    decide +kernel

end OnyxShell
