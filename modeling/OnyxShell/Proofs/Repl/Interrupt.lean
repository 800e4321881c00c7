import OnyxShell.Proofs.Features.History
import OnyxShell.Repl.Raw

/-!
# `OnyxShell.Proofs.Repl.Interrupt`: Ctrl-C at the raw prompt

The key loop leaves at Ctrl-C as it leaves at Enter, and the code behind it does not know
which one it was. `cancelled_iff` says what that means for one interrupt: the line is
cancelled exactly when there is nothing to cancel. `interrupts_cancelled_iff` says it for
every interrupt of a run.
-/

set_option autoImplicit false

namespace OnyxShell

/-! ### Keys leave the entries alone -/

namespace Typing

/-- The arrows move the history's cursor and leave its lines. -/
theorem ring_up (t : Typing) : t.up.history.ring = t.history.ring := by
  have hring := History.ring_navUp t.history
  rw [up]
  split
  · rename_i history hnav
    rw [hnav] at hring
    exact hring
  · rename_i entry history hnav
    rw [hnav] at hring
    exact hring

/-- The down arrow, likewise. -/
theorem ring_down (t : Typing) : t.down.history.ring = t.history.ring := by
  have hring := History.ring_navDown t.history
  rw [down]
  split
  · rename_i entry history hnav
    rw [hnav] at hring
    exact hring
  · rename_i history hnav
    rw [hnav] at hring
    exact hring

/-- A move in the line leaves the history as it is. So do the three lemmas below. -/
theorem history_right (t : Typing) : t.right.history = t.history := by
  rw [right]
  split <;> rfl

/-- The left arrow. -/
theorem history_left (t : Typing) : t.left.history = t.history := by
  rw [left]
  split <;> rfl

/-- Backspace. -/
theorem history_backspace (t : Typing) : t.backspace.history = t.history := by
  rw [backspace]
  split <;> rfl

/-- A byte that is inserted. -/
theorem history_insert (t : Typing) (c : UInt8) : (t.insert c).history = t.history := by
  rw [insert]
  split <;> rfl

end Typing

/-- What the keys have made of the line. -/
def KeyResult.typing : KeyResult → Typing
  | .next _ t => t
  | .lineEnd _ t => t
  | .exit t => t

/-- The byte that ends an escape sequence, whichever arrow it is. -/
theorem ring_arrowKey (b : UInt8) (t : Typing) : (arrowKey b t).history.ring = t.history.ring := by
  rw [arrowKey]
  split
  · exact t.ring_up
  · split
    · exact t.ring_down
    · split
      · rw [t.history_right]
      · rw [t.history_left]

/-- A byte outside of an escape sequence. -/
theorem history_plainKey (listing : Listing) (b : UInt8) (t : Typing) :
    (plainKey listing b t).typing.history = t.history := by
  rw [plainKey]
  split
  · rfl
  · split
    · exact t.history_backspace
    · split
      · rfl
      · split
        · rfl
        · split
          · split <;> rfl
          · split
            · exact t.history_insert b
            · rfl

/-- A key stores nothing. -/
theorem ring_keyStep (listing : Listing) (b : UInt8) (rest : Bytes) (t : Typing) :
    (keyStep listing b rest t).typing.history.ring = t.history.ring := by
  unfold keyStep
  split
  · split
    · split
      · exact ring_arrowKey _ t
      · rfl
    · rw [history_plainKey]
  · rw [history_plainKey]

/-- The keys of a read store nothing. -/
theorem ring_readKeys (listing : Listing) (keys : Bytes) (t : Typing) :
    (readKeys listing keys t).typing.history.ring = t.history.ring := by
  -- A key that moves on, one that ends the line, and one that leaves the shell.
  fun_induction readKeys listing keys t with
  | case1 t => rfl
  | case2 b rest t skip t' hstep ih =>
    have hring := ring_keyStep listing b rest t
    rw [hstep] at hring
    exact ih.trans hring
  | case3 b rest t key t' hstep =>
    have hring := ring_keyStep listing b rest t
    rw [hstep] at hring
    exact hring
  | case4 b rest t t' hstep =>
    have hring := ring_keyStep listing b rest t
    rw [hstep] at hring
    exact hring

/-! ### Interrupts -/

/-- A Ctrl-C that ended a line: the prompt before the read that delivered it, the line
typed by then, and the prompt behind the read. -/
structure Interrupt (σ : Type) where
  before : Repl σ
  typed : Bytes
  after : Repl σ

/-- The line is cancelled: no call has been made with it, the history holds what it held,
the shell is as it was, and the next line starts empty. -/
structure Interrupt.Cancelled {σ : Type} (i : Interrupt σ) : Prop where
  calls : i.after.calls = i.before.calls
  entries : i.after.history.ring = i.before.history.ring
  shell : i.after.shell = i.before.shell
  fresh : i.after.editor.text = []

namespace Repl

variable {σ : Type}

/-- The interrupt a read delivers, if there is one. -/
def interruptAt (sys : System σ) (r : Repl σ) (received : Option Bytes) : Option (Interrupt σ) :=
  match received with
  | none => none
  | some keys =>
    if r.running then
      match readKeys (r.listing sys) keys r.typing with
      | .lineEnd key t =>
        if key = 0x03 then some ⟨r, t.editor.text, r.read sys (some keys)⟩ else none
      | _ => none
    else none

/-- The interrupts of a run. -/
def interrupts (sys : System σ) : Repl σ → List (Option Bytes) → List (Interrupt σ)
  | _, [] => []
  | r, received :: rest =>
    (interruptAt sys r received).toList ++ interrupts sys (r.read sys received) rest

/-- Where an interrupt comes from: the keys of a read end a line. -/
theorem interruptAt_cases {sys : System σ} {r : Repl σ} {received : Option Bytes} {i : Interrupt σ}
    (h : interruptAt sys r received = some i) :
    ∃ key t, i.before = r ∧ i.typed = t.editor.text ∧ t.history.ring = r.history.ring ∧
      r.running = true ∧ i.after = (r.withTyping t).nextLine sys ∧ key = (0x03 : UInt8) := by
  unfold interruptAt at h
  cases received with
  | none => cases h
  | some keys =>
    simp only at h
    split at h
    · rename_i hrun
      have hring := ring_readKeys (r.listing sys) keys r.typing
      split at h
      · rename_i key t hkeys
        split at h
        · -- The one case with an interrupt: the process runs, a key ends the line, and it is 0x03.
          rename_i hkey
          cases h
          refine ⟨key, t, rfl, rfl, ?_, hrun, ?_, hkey⟩
          · rw [hkeys] at hring
            exact hring
          · show r.read sys (some keys) = _
            rw [read, if_pos hrun]
            simp only [hkeys]
        · cases h
      · cases h
    · cases h

/-- An empty line is not submitted. -/
theorem submit_of_empty {sys : System σ} {r : Repl σ} (h : r.editor.text = []) : r.submit sys = r :=
  if_pos h

/-- A line that is not empty is stored and run. -/
theorem calls_submit_of_ne {sys : System σ} {r : Repl σ} (h : r.editor.text ≠ []) :
    (r.submit sys).calls = r.calls ++ [.historyPush r.editor.text,
      if hasOp r.editor.text then .execute r.editor.text else .evalLine r.editor.text] := by
  rw [submit]
  simp only
  rw [if_neg h]
  split <;> rfl

/-- Printing the prompt runs nothing. -/
theorem calls_nextLine (sys : System σ) (r : Repl σ) :
    (r.nextLine sys).calls = (r.submit sys).calls := by
  rw [nextLine]
  split <;> rfl

/-- **One interrupt** cancels the line exactly when the line is empty. -/
theorem cancelled_iff {sys : System σ} {r : Repl σ} {received : Option Bytes} {i : Interrupt σ}
    (h : interruptAt sys r received = some i) : i.Cancelled ↔ i.typed = [] := by
  rcases interruptAt_cases h with ⟨key, t, hbefore, htyped, hring, hrun, hafter, -⟩
  constructor
  · intro hcancelled
    rcases Classical.em (i.typed = []) with hnil | hne
    · exact hnil
    · have hcalls := hcancelled.calls
      rw [hafter, hbefore, calls_nextLine, calls_submit_of_ne fun hnil => hne (htyped.trans hnil)] at hcalls
      -- The calls have grown.
      exact absurd (congrArg List.length hcalls) (by simp [withTyping])
  · intro hnil
    -- Nothing to submit: the prompt only starts the next line.
    have hsubmit : (r.withTyping t).submit sys = r.withTyping t :=
      submit_of_empty (htyped.symm.trans hnil)
    have hnext : i.after = (r.withTyping t).prompt := by
      rw [hafter, nextLine, hsubmit]
      exact if_pos hrun
    exact {
      calls := by rw [hnext, hbefore]; rfl
      entries := by rw [hnext, hbefore]; exact hring
      shell := by rw [hnext, hbefore]; rfl
      fresh := by rw [hnext]; exact List.take_zero }

/-- Every interrupt of a run is one of a read. -/
theorem exists_interruptAt {sys : System σ} {r : Repl σ} {reads : List (Option Bytes)}
    {i : Interrupt σ} (h : i ∈ interrupts sys r reads) :
    ∃ r' received, interruptAt sys r' received = some i := by
  induction reads generalizing r with
  | nil => cases h
  | cons received rest ih =>
    rcases List.mem_append.mp h with h | h
    · exact ⟨r, received, Option.mem_toList.mp h⟩
    · exact ih h

/-- **The interrupts of a run** cancel their lines exactly when all these lines are empty. Ctrl-C
leaves the key loop as Enter does, and what has been typed is pushed and evaluated. The proof
looks at each interrupt where it happens, from the prompt that the run has come to. -/
theorem interrupts_cancelled_iff (sys : System σ) (r : Repl σ) (reads : List (Option Bytes)) :
    (∀ i ∈ interrupts sys r reads, i.Cancelled) ↔ ∀ i ∈ interrupts sys r reads, i.typed = [] := by
  refine forall₂_congr fun i hi => ?_
  rcases exists_interruptAt hi with ⟨r', received, h⟩
  exact cancelled_iff h

/-- `rm x` and Ctrl-C: the command is stored and run. -/
theorem not_cancelled_rm :
    ¬ ∀ i ∈ interrupts System.idle (init ()) [some (bytes "rm x" ++ [0x03])], i.Cancelled := by
  intro h
  have hcalls : (interrupts System.idle (init ()) [some (bytes "rm x" ++ [0x03])]).all
      (fun i => i.after.calls == i.before.calls) = false := by decide +kernel
  have hall : (interrupts System.idle (init ()) [some (bytes "rm x" ++ [0x03])]).all
      (fun i => i.after.calls == i.before.calls) = true :=
    List.all_eq_true.mpr fun i hi => beq_iff_eq.mpr (h i hi).calls
  rw [hall] at hcalls
  cases hcalls

end Repl

end OnyxShell
