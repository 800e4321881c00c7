import OnyxShell.Proofs.Features.EnvMap
import OnyxShell.Proofs.Process.Console

/-!
# `OnyxShell.Proofs.Process.EnvText`: `set` and `export`

`set` prints a line for each entry of the environment, and `export` takes such lines. So the output
of `set` is an environment in writing, if no key or value has the byte in it that ends it there.
`Env.Printable` says so, and `printable_run` that it is kept by calls with such keys and values.
`set_rebuilds` reads back what has been printed.
-/

set_option autoImplicit false

namespace OnyxShell

/-! ### Environments in writing -/

namespace Env

variable {e : Env}

/-- Setting a variable that can be printed and read back keeps the table printable. A name that is
there keeps its place, so that the names stay distinct. -/
theorem printable_set (h : e.Printable) {key val : Bytes} (hcall : (EnvCall.set key val).Printable) :
    (e.set key val).Printable where
  distinct := by
    rw [entries_set_eq_mapStep h.distinct hcall.1 val]
    exact nodup_keys_mapStep h.distinct _
  rereads := by
    rcases hcall with ⟨hfits, heq, hkey, hval⟩
    have hcut : '\n'.toUInt8 ∉ cutValue val := fun hin => hval (List.mem_of_mem_take hin)
    rw [entries_set, List.take_of_length_le (Nat.le_sub_one_of_lt hfits)]
    split
    · exact h.rereads
    · rename_i hne
      split
      · -- The key is there already, and gets another value.
        refine fits_replaceValue h.rereads ?_
        intro entry he
        rcases h.rereads entry he with ⟨hne', heq', hkey', -⟩
        exact ⟨hne', heq', hkey', hcut⟩
      · split
        · intro entry he
          rcases List.mem_append.mp he with hold | hnew
          · exact h.rereads entry hold
          · rw [List.mem_singleton.mp hnew]
            exact ⟨hne, heq, hkey, hcut⟩
        · exact h.rereads

/-- Removing a variable keeps the table printable. -/
theorem printable_unset (h : e.Printable) (key : Bytes) : (e.unset key).Printable where
  distinct := h.distinct.sublist (List.eraseP_sublist.map Prod.fst)
  rereads entry he := h.rereads entry (List.mem_of_mem_eraseP he)

/-- Calls with keys and values that can be read back keep an environment one that can. -/
theorem printable_run (h : e.Printable) {calls : List EnvCall}
    (hcalls : ∀ call ∈ calls, call.Printable) : (e.run calls).Printable := by
  induction calls generalizing e with
  | nil => exact h
  | cons call calls ih =>
    have hrest := fun call hc => hcalls call (List.mem_cons_of_mem _ hc)
    have hcall := hcalls call List.mem_cons_self
    cases call with
    | set key val => exact ih (printable_set h hcall) hrest
    | unset key => exact ih (printable_unset h key) hrest

/-- A table with nothing in it is printable. -/
theorem printable_empty : empty.Printable := ⟨List.nodup_nil, nofun⟩

/-- The table that the shell starts with is printable. -/
theorem printable_init : init.Printable :=
  printable_set (printable_set printable_empty (by decide)) (by decide)

/-- The lines of the text, with nothing behind the last newline. -/
theorem splitOn_text {entries : List (Bytes × Bytes)}
    (h : ∀ entry ∈ entries, '\n'.toUInt8 ∉ entry.1 ∧ '\n'.toUInt8 ∉ entry.2) :
    (entries.flatMap fun entry => envLine entry ++ bytes "\n").splitOn '\n'.toUInt8
      = entries.map envLine ++ [[]] := by
  induction entries with
  | nil => rfl
  | cons entry entries ih =>
    have hend : bytes "\n" = ['\n'.toUInt8] := by decide
    have hline : '\n'.toUInt8 ∉ envLine entry := by
      rw [envLine, List.mem_append, List.mem_append]
      rintro ((hkey | hsign) | hval)
      · exact (h entry List.mem_cons_self).1 hkey
      · revert hsign
        decide
      · exact (h entry List.mem_cons_self).2 hval
    rw [List.flatMap_cons, hend, List.append_assoc, List.singleton_append, ← hend,
      List.splitOn_append_cons_self_of_not_mem hline, ih fun e he => h e (List.mem_cons_of_mem _ he)]
    rfl

/-- The first `=` of a printed entry is the one behind its name: the name has none. -/
theorem findIdx?_envLine {key val : Bytes} (h : '='.toUInt8 ∉ key) :
    (envLine (key, val)).findIdx? (· == '='.toUInt8) = some key.length := by
  have hsign : bytes "=" = ['='.toUInt8] := by decide
  show (key ++ bytes "=" ++ val).findIdx? _ = _
  rw [hsign, List.append_assoc, List.singleton_append]
  induction key with
  | nil => rfl
  | cons b key ih =>
    rw [List.mem_cons, not_or] at h
    have hb : (b == '='.toUInt8) = false := beq_eq_false_iff_ne.mpr (Ne.symm h.1)
    rw [List.cons_append, List.findIdx?_cons, hb, ih h.2]
    rfl

/-- `export` takes a line apart at its first `=`. -/
theorem exportCalls_envLine {key val : Bytes} (hne : key ≠ []) (h : '='.toUInt8 ∉ key)
    (args : List Bytes) :
    exportCalls (envLine (key, val) :: args) = .set key val :: exportCalls args := by
  have hkey : (envLine (key, val)).take key.length = key := by
    rw [envLine, List.append_assoc, List.take_left]
  have hval : (envLine (key, val)).drop (key.length + 1) = val := by
    have hlen : (key ++ bytes "=").length = key.length + 1 := List.length_append
    rw [envLine, ← hlen, List.drop_left]
  simp only [exportCalls, List.filterMap_cons, findIdx?_envLine h, hkey, hval, if_neg hne]

/-- `export` of the printed lines makes one call for each entry. The empty line at the end makes
none. -/
theorem exportCalls_lines {entries : List (Bytes × Bytes)}
    (h : ∀ entry ∈ entries, entry.1 ≠ [] ∧ '='.toUInt8 ∉ entry.1) :
    exportCalls (entries.map envLine ++ [[]]) = entries.map fun entry => .set entry.1 entry.2 := by
  induction entries with
  | nil => rfl
  | cons entry entries ih =>
    rcases h entry List.mem_cons_self with ⟨hne, hsign⟩
    rw [List.map_cons, List.cons_append]
    refine (exportCalls_envLine hne hsign _).trans ?_
    rw [ih fun e he => h e (List.mem_cons_of_mem _ he)]
    rfl

/-- Entries with new keys are entered one behind the other. -/
theorem entries_run_set {back : List (Bytes × Bytes)} {e full : Env}
    (hfull : full.entries = e.entries ++ back) (hprintable : full.Printable) :
    (e.run (back.map fun entry => .set entry.1 entry.2)).entries = full.entries := by
  induction back generalizing e with
  | nil => rw [hfull, List.append_nil]; rfl
  | cons entry back ih =>
    have hmem : entry ∈ full.entries := by
      rw [hfull]
      exact List.mem_append_right _ List.mem_cons_self
    have hfits := full.fits entry hmem
    have hnew : entry.1 ∉ AssocList.keys e.entries := by
      have hdistinct := hprintable.distinct
      rw [hfull] at hdistinct
      exact (AssocList.notMem_of_nodup hdistinct).1
    have hroom : e.entries.length < ENV_MAX := by
      have hle := full.length_le
      rw [hfull, List.length_append, List.length_cons] at hle
      omega
    -- Nothing is cut: the key and the value have been in a row before.
    have hset : (e.set entry.1 entry.2).entries = e.entries ++ [entry] := by
      rw [entries_set, if_neg (hprintable.rereads entry hmem).1, if_neg hnew, if_pos hroom, cutValue,
        List.take_of_length_le (Nat.le_sub_one_of_lt hfits.1),
        List.take_of_length_le (Nat.le_sub_one_of_lt hfits.2)]
    refine ih ?_
    show full.entries = (e.set entry.1 entry.2).entries ++ back
    rw [hset, hfull, List.append_assoc]
    rfl

/-- An environment in writing, read back. -/
theorem run_exportCalls_text (h : e.Printable) :
    empty.run (exportCalls (e.text.splitOn '\n'.toUInt8)) = e := by
  have hlines : e.text.splitOn '\n'.toUInt8 = e.entries.map envLine ++ [[]] :=
    splitOn_text fun entry he => (h.rereads entry he).2.2
  rw [hlines, exportCalls_lines fun entry he => ⟨(h.rereads entry he).1, (h.rereads entry he).2.1⟩]
  exact eq_of_entries (entries_run_set rfl h)

end Env

/-! ### The commands -/

namespace Process

open Routine (twp_bind twp_get)

variable {fs : Fs}

/-- `set` prints the environment. -/
theorem prints_envList : Prints fs envList fun g => g.env.text := by
  intro Q g w hQ
  rw [envList, twp_bind, twp_get]
  have hline : ∀ entry ∈ g.env.entries, Prints fs (do
      writeRaw entry.1
      writeRaw (bytes "=")
      writeRaw entry.2
      newline) fun _ => envLine entry ++ bytes "\n" := by
    intro entry _ Q g w hQ
    simp only [twp_bind, writes.twp_writeRaw, writes.twp_newline, World.print_print]
    rw [envLine] at hQ
    simpa only [List.append_assoc] using hQ
  exact Prints.forM hline Q g w hQ

/-- `export` with arguments makes no call: it has returned, with another environment. -/
theorem cmdExport_eq {args : List Bytes} (hargs : args ≠ []) (g : Globals) :
    cmdExport args g = .ret ((), { g with env := g.env.run (exportCalls args) }) := by
  rw [cmdExport, if_neg hargs]
  rfl

/-- **`set` prints an environment that `export` rebuilds.** Behind any run of calls with keys and
values that can be read back, from the environment of the start, `set` prints a text. `export` of the
lines of this text makes no call, and it makes the same environment out of an empty one, with the
entries in the same order. -/
theorem set_rebuilds {calls : List EnvCall} (hcalls : ∀ call ∈ calls, call.Printable) (g : Globals)
    (w : World) :
    Shows fs w { g with env := Env.init.run calls } cmdSet (Env.init.run calls).text ∧
      cmdExport ((Env.init.run calls).text.splitOn '\n'.toUInt8) { g with env := .empty }
        = .ret ((), { g with env := Env.init.run calls }) := by
  have hprintable := Env.printable_run Env.printable_init hcalls
  refine ⟨prints_envList.shows, ?_⟩
  rw [cmdExport_eq (List.splitOn_ne_nil _ _), Env.run_exportCalls_text hprintable]

/-- `PATH` is taken out, and a value with an `=` in it comes in. -/
def twoCalls : List EnvCall := [.unset (bytes "PATH"), .set (bytes "A") (bytes "b=c")]

/-- For the start table with one more variable, whose value has an `=` of its own. -/
theorem set_rebuilds_two : (Env.init.run twoCalls).text = bytes "HOME=/users/root\nA=b=c\n" ∧
    cmdExport ((bytes "HOME=/users/root\nA=b=c\n").splitOn '\n'.toUInt8)
        { Globals.init with env := .empty }
      = .ret ((), { Globals.init with env := Env.init.run twoCalls }) := by
  have hcalls : ∀ call ∈ twoCalls, call.Printable := by decide
  have htext : (Env.init.run twoCalls).text = bytes "HOME=/users/root\nA=b=c\n" := by
    decide +kernel
  refine ⟨htext, ?_⟩
  rw [← htext]
  have hboth : Shows twoNames World.fresh _ cmdSet _ ∧ _ :=
    set_rebuilds hcalls Globals.init World.fresh
  exact hboth.2

end Process

end OnyxShell
