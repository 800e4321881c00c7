import OnyxShell.Features.Envp
import OnyxShell.Features.Service.Glob
import OnyxShell.Proofs.Features.EnvMap

/-!
# `OnyxShell.Proofs.Features.Envp`: a program gets the environment back

`decodable_session`: no run of `export` and `unset` makes an entry whose string can be read in
another way. `buildEnvpInto_eq`: the strings fit their rows, and what a program reads are the
live entries. `buildEnvp_roundTrip` puts the two together.

The rows of the environment bound the strings, so that neither these nor the pointers leave their
arrays, whatever the run has been.
-/

set_option autoImplicit false

namespace OnyxShell

namespace EnvTable

variable {t : EnvTable}

/-! ### What a run of commands keeps -/

/-- Setting a variable whose name has no `=` and no NUL, and whose value has no NUL, keeps the
table decodable. -/
theorem decodable_set {key val : Bytes} (h : t.Decodable)
    (hcall : (EnvCall.set key val).Decodable) : (t.set key val).Decodable := by
  rcases hcall with ⟨hequals, hkey, hval⟩
  have hcut : 0 ∉ Env.cutValue val := fun hin => hval (List.mem_of_mem_take hin)
  have hentries : (t.set key val).live = (t.toEnv.set key val).entries :=
    congrArg Env.entries (toEnv_set t key val)
  rw [Decodable, hentries, Env.entries_set]
  split
  · exact h
  · split
    · exact Env.fits_replaceValue h fun e he => ⟨(h e he).1, (h e he).2.1, hcut⟩
    · split
      · intro e he
        rcases List.mem_append.mp he with he | he
        · exact h e he
        · rw [List.mem_singleton.mp he]
          exact ⟨fun hin => hequals (List.mem_of_mem_take hin),
            fun hin => hkey (List.mem_of_mem_take hin), hcut⟩
      · exact h

/-- Removing a variable keeps the table decodable. -/
theorem decodable_unset (h : t.Decodable) (key : Bytes) : (t.unset key).Decodable := by
  have hentries : (t.unset key).live = t.live.eraseP fun e => e.1 = key :=
    congrArg Env.entries (toEnv_unset t key)
  rw [Decodable, hentries]
  intro e he
  exact h e (List.mem_of_mem_eraseP he)

/-- One call. -/
theorem decodable_apply (h : t.Decodable) {call : EnvCall} (hcall : call.Decodable) :
    (t.apply call).Decodable := by
  cases call with
  | set key val => exact decodable_set h hcall
  | unset key => exact decodable_unset h key

/-- A run of calls. -/
theorem decodable_run (h : t.Decodable) {calls : List EnvCall}
    (hcalls : ∀ call ∈ calls, call.Decodable) : (t.run calls).Decodable := by
  induction calls generalizing t with
  | nil => exact h
  | cons call calls ih =>
    rw [run, List.foldl_cons]
    exact ih (decodable_apply h (hcalls call List.mem_cons_self))
      fun c hc => hcalls c (List.mem_cons_of_mem _ hc)

/-- What `export` makes of arguments without a NUL. -/
theorem decodable_exportCalls {args : List Bytes} (hargs : ∀ a ∈ args, 0 ∉ a) :
    ∀ call ∈ exportCalls args, call.Decodable := by
  intro call hcall
  have hequals := notMem_exportCalls hcall
  rcases List.mem_filterMap.mp hcall with ⟨a, ha, hsome⟩
  cases heq : a.findIdx? (· == '='.toUInt8) with
  | none =>
    simp only [heq] at hsome
    cases hsome
  | some eq =>
    simp only [heq] at hsome
    split at hsome
    · cases hsome
    · rw [← Option.some.inj hsome] at hequals ⊢
      exact ⟨hequals, fun hin => hargs a ha (List.mem_of_mem_take hin),
        fun hin => hargs a ha (List.mem_of_mem_drop hin)⟩

/-- One command. -/
theorem decodable_perform (h : t.Decodable) {cmd : EnvCommand} (hargs : ∀ a ∈ cmd.args, 0 ∉ a) :
    (t.perform cmd).Decodable := by
  cases cmd with
  | exporting args =>
    rw [perform, cmdExport]
    split
    · exact h
    · exact decodable_run h (decodable_exportCalls hargs)
  | unsetting args =>
    apply decodable_run h
    intro call hcall
    rcases List.mem_map.mp hcall with ⟨key, -, rfl⟩
    exact trivial

/-- The table that the shell starts with is decodable. -/
theorem decodable_init : init.Decodable := by
  apply decodable_run
  · intro e he
    rw [live_empty] at he
    cases he
  · intro call hcall
    rcases List.mem_cons.mp hcall with rfl | hcall
    · show _ ∧ _ ∧ _
      decide +kernel
    · rw [List.mem_singleton.mp hcall]
      show _ ∧ _ ∧ _
      decide +kernel

/-- A session. -/
theorem decodable_session {cmds : List EnvCommand} (hargs : ∀ cmd ∈ cmds, ∀ a ∈ cmd.args, 0 ∉ a) :
    (session cmds).Decodable := by
  have hfold : ∀ t : EnvTable, t.Decodable → (cmds.foldl perform t).Decodable := by
    induction cmds with
    | nil => exact fun t h => h
    | cons cmd cmds ih =>
      intro t h
      exact ih (fun c hc => hargs c (List.mem_cons_of_mem _ hc)) (t.perform cmd)
        (decodable_perform h (hargs cmd List.mem_cons_self))
  exact hfold init decodable_init

/-! ### The strings in their rows -/

/-- The string of an entry. -/
def entryText (e : Bytes × Bytes) : Bytes := e.1 ++ '='.toUInt8 :: e.2

/-- A name leaves room in its row for a NUL. -/
theorem length_key_le (t : EnvTable) (i : Fin ENV_MAX) : (t.key i).length ≤ ENV_KEY_MAX - 1 :=
  Nat.le_trans (length_slice_le _ _)
    (Nat.le_pred_of_lt (t.keyLen_lt _ (Vector.getElem_mem i.isLt)))

/-- A value leaves room in its row for a NUL. -/
theorem length_val_le (t : EnvTable) (i : Fin ENV_MAX) : (t.val i).length ≤ ENV_VAL_MAX - 1 :=
  Nat.le_trans (length_slice_le _ _)
    (Nat.le_pred_of_lt (t.valLen_lt _ (Vector.getElem_mem i.isLt)))

/-- An entry is written to its row, which has a byte to spare. -/
theorem exists_writeEntry {table : EnvpTable} {texts : List Bytes} (h : table.Holds texts)
    (hroom : texts.length < ENV_MAX) (i : Fin ENV_MAX) :
    ∃ table', t.writeEntry i texts.length table = some table' ∧
      table'.Holds (texts ++ [entryText (t.slot i)]) := by
  have hkey : (t.key i).length ≤ 63 := length_key_le t i
  have hval : (t.val i).length ≤ 127 := length_val_le t i
  have hrow : ENVP_ROW = 194 := rfl
  -- The key, the `=`, the value and the NUL, each behind what the row holds by then.
  rcases StringTable.exists_writeBytes (table.rowStarts_nil hroom) (t.key i)
    (by rw [List.length_nil]; omega) with ⟨table₁, hwrite₁, hstarts₁, hsame₁⟩
  rw [List.nil_append] at hwrite₁ hstarts₁
  rcases StringTable.exists_setByte hstarts₁ (by omega) '='.toUInt8
    with ⟨table₂, hset₂, hstarts₂, hsame₂⟩
  have hlen₂ : (t.key i ++ ['='.toUInt8]).length = (t.key i).length + 1 := by simp
  rcases StringTable.exists_writeBytes hstarts₂ (t.val i) (by omega)
    with ⟨table₃, hwrite₃, hstarts₃, hsame₃⟩
  have htext : t.key i ++ ['='.toUInt8] ++ t.val i = entryText (t.slot i) := by
    rw [List.append_assoc]
    rfl
  have hlen₃ : (entryText (t.slot i)).length = (t.key i).length + 1 + (t.val i).length := by
    rw [← htext, List.length_append, hlen₂]
  rw [htext] at hwrite₃ hstarts₃
  rcases StringTable.exists_setByte hstarts₃ (by omega) 0 with ⟨table₄, hset₄, hstarts₄, hsame₄⟩
  rcases h.concat (((hsame₁.trans hsame₂).trans hsame₃).trans hsame₄) hstarts₄
    with ⟨table', hptr, hholds, -⟩
  refine ⟨table', ?_, hholds⟩
  rw [List.length_nil] at hwrite₁
  rw [hlen₂] at hwrite₃
  rw [writeEntry, hwrite₁]
  show ((table₁.setByte texts.length (t.key i).length '='.toUInt8).bind fun table => _) = _
  rw [hset₂]
  show ((table₂.writeBytes texts.length ((t.key i).length + 1) (t.val i)).bind fun p => _) = _
  rw [hwrite₃]
  show ((table₃.setByte texts.length (entryText (t.slot i)).length 0).bind fun table => _) = _
  rw [hset₄]
  exact hptr

/-- The strings of the live entries. -/
def entryTexts (t : EnvTable) : List Bytes := t.live.map entryText

/-- They are the strings that stand in the rows. -/
theorem buildEnvp_eq_entryTexts (t : EnvTable) : t.buildEnvp = t.entryTexts.map (· ++ [0]) := by
  rw [buildEnvp_eq, entryTexts, List.map_map]
  apply List.map_congr_left
  intro e _
  show _ = entryText e ++ [0]
  rw [entryText, List.append_assoc, List.cons_append]

/-- The loop writes the entries from row `i` on. -/
theorem exists_buildEnvpFrom {i : Nat} {table : EnvpTable} (hi : i ≤ t.count)
    (h : table.Holds (t.entryTexts.take i)) :
    ∃ table', t.buildEnvpFrom i i table = some (table', t.count) ∧ table'.Holds t.entryTexts := by
  have hlen : t.entryTexts.length = t.count := by rw [entryTexts, List.length_map, length_live]
  -- The induction is on the entries that are left.
  induction hn : t.count - i generalizing i table with
  | zero =>
    have heq : i = t.count := by omega
    rw [buildEnvpFrom, dif_neg (by omega), heq]
    rw [heq, ← hlen, List.take_length] at h
    exact ⟨table, rfl, h⟩
  | succ n ih =>
    have hlt : i < t.count := by omega
    have htake : (t.entryTexts.take i).length = i := by
      rw [List.length_take]
      omega
    rcases exists_writeEntry (t := t) h (by rw [htake]; exact Nat.lt_of_lt_of_le hlt t.count_le)
      ⟨i, Nat.lt_of_lt_of_le hlt t.count_le⟩ with ⟨table₁, hwrite, hholds⟩
    have hnext : t.entryTexts.take i ++ [entryText (t.slot ⟨i, Nat.lt_of_lt_of_le hlt t.count_le⟩)]
        = t.entryTexts.take (i + 1) := by
      rw [List.take_add_one, entryTexts, List.getElem?_map, t.getElem?_live hlt]
      rfl
    rw [hnext] at hholds
    rcases ih hlt hholds (by omega) with ⟨table', hrest, hall⟩
    refine ⟨table', ?_, hall⟩
    rw [htake] at hwrite
    rw [buildEnvpFrom, dif_pos hlt, hwrite]
    exact hrest

/-- `build_envp` writes inside of its buffers, whatever they hold before. -/
theorem exists_buildEnvpInto (t : EnvTable) (table : EnvpTable) :
    ∃ table', t.buildEnvpInto table = some (table', t.count) ∧ table'.Holds t.entryTexts ∧
      table'.ptrs[t.count]? = some 0 := by
  have hlen : t.entryTexts.length = t.count := by rw [entryTexts, List.length_map, length_live]
  rcases exists_buildEnvpFrom (t := t) (Nat.zero_le _) table.holds_nil with ⟨table₁, hloop, hholds⟩
  rcases hholds.end (by rw [hlen]; exact t.count_le) with ⟨table', hend, hholds', hzero⟩
  rw [hlen] at hend hzero
  refine ⟨table', ?_, hholds', hzero⟩
  rw [buildEnvpInto, hloop]
  show ((table₁.setPtr t.count 0).bind fun table => _) = _
  rw [hend]
  rfl

/-! ### Reading them back -/

/-- Without a NUL in the name and the value there is none in the string. -/
theorem nul_notMem_entryText {e : Bytes × Bytes} (hkey : 0 ∉ e.1) (hval : 0 ∉ e.2) :
    0 ∉ entryText e := by
  intro hin
  rcases List.mem_append.mp hin with hin | hin
  · exact hkey hin
  · rcases List.mem_cons.mp hin with hin | hin
    · exact absurd hin (by decide)
    · exact hval hin

/-- A string is read back as its entry: the first `=` is the one that `build_envp` has written. -/
theorem readEntry_entryText {e : Bytes × Bytes} (h : '='.toUInt8 ∉ e.1) :
    readEntry (entryText e) = e := by
  have hname : envName (entryText e) = e.1 := envName_row h e.2
  have hsplit := List.takeWhile_append_dropWhile (p := (· ≠ '='.toUInt8)) (l := entryText e)
  have hrest : (entryText e).dropWhile (· ≠ '='.toUInt8) = '='.toUInt8 :: e.2 := by
    rw [envName] at hname
    rw [hname] at hsplit
    exact List.append_cancel_left hsplit
  rw [readEntry, hname, hrest]
  rfl

/-- What a program makes of the strings. -/
theorem readEntry_strings {table : EnvpTable} (h : t.Decodable) (hholds : table.Holds t.entryTexts)
    (hend : table.ptrs[t.entryTexts.length]? = some 0) :
    table.strings.map readEntry = t.live := by
  rw [StringTable.strings_of_holds hholds hend, entryTexts, List.map_map, List.map_map]
  calc t.live.map _ = t.live.map id := by
        apply List.map_congr_left
        intro e he
        rcases h e he with ⟨hequals, hkey, hval⟩
        show readEntry (cString (entryText e)) = e
        rw [cString_eq_self (nul_notMem_entryText hkey hval), readEntry_entryText hequals]
    _ = t.live := List.map_id _

end EnvTable

/-- **A program gets the environment back**: for every environment that `export` and `unset` can
make, `build_envp` stays inside of its buffers, and the strings that it leaves in them are the
live entries, in order. The buffers are one array with rows and an array of pointers into it, as
in the code. What `readEntry` reads back is what was written because a name has no `=` and no NUL,
which is an invariant of the session (`decodable_session`). -/
theorem buildEnvp_roundTrip (cmds : List EnvCommand)
    (hargs : ∀ cmd ∈ cmds, ∀ a ∈ cmd.args, 0 ∉ a) (table : EnvpTable) :
    ∃ table', (EnvTable.session cmds).buildEnvpInto table
        = some (table', (EnvTable.session cmds).live.length) ∧
      table'.pointers.length = (EnvTable.session cmds).live.length ∧
      table'.ptrs[(EnvTable.session cmds).live.length]? = some 0 ∧
      table'.strings.map readEntry = (EnvTable.session cmds).live := by
  rcases EnvTable.exists_buildEnvpInto (EnvTable.session cmds) table with
    ⟨table', hbuild, hholds, hzero⟩
  have hlen : (EnvTable.session cmds).entryTexts.length = (EnvTable.session cmds).live.length :=
    List.length_map _
  rw [← EnvTable.length_live] at hbuild hzero
  rw [← hlen] at hzero
  refine ⟨table', hbuild, ?_, ?_, ?_⟩
  · rw [StringTable.pointers_of_holds hholds hzero, List.length_map, List.length_range, hlen]
  · rw [← hlen]
    exact hzero
  · exact EnvTable.readEntry_strings (EnvTable.decodable_session hargs) hholds hzero

/-- A session that exports `A=b=c` and removes `HOME`: the pointers, their NULL and the
strings. -/
theorem buildEnvp_roundTrip_export :
    ∃ table', (EnvTable.session [.exporting [bytes "A=b=c"], .unsetting [bytes "HOME"]]).buildEnvpInto
        StringTable.zeros = some (table', (EnvTable.session [.exporting [bytes "A=b=c"],
          .unsetting [bytes "HOME"]]).live.length) ∧
      table'.pointers.length = (EnvTable.session [.exporting [bytes "A=b=c"],
        .unsetting [bytes "HOME"]]).live.length ∧
      table'.ptrs[(EnvTable.session [.exporting [bytes "A=b=c"],
        .unsetting [bytes "HOME"]]).live.length]? = some 0 ∧
      table'.strings.map readEntry = (EnvTable.session [.exporting [bytes "A=b=c"],
        .unsetting [bytes "HOME"]]).live :=
  buildEnvp_roundTrip [.exporting [bytes "A=b=c"], .unsetting [bytes "HOME"]] (by decide +kernel)
    StringTable.zeros

end OnyxShell
