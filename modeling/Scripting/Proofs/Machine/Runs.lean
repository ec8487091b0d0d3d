import Scripting.Interpreter
import Scripting.Proofs.Machine.Later

/-!
# Runs of texts

* `Interpreter.reading` : the interpreter that has read a text, which tells only events;
* `Interpreter.run_eq_interpret`, `Interpreter.run_of_rejected` : a run of a text without faults is
  a run of its statements, and a text with faults is not run;
* `Interpreter.interpret_machine` : the machine behind a run of statements.

A run begins with events that tell how the text was read. Nothing else depends on them.
-/

namespace Scripting

set_option autoImplicit false

open Eval

/-- The statements of a text are those that its tokens write, if there is no fault in the tokens. -/
theorem Program.parse?_eq (source : String) : parse? source =
    if (scan source).diagnostics.isEmpty then (read (scan source).tokens).result
    else .error (scan source).diagnostics := by
  unfold parse? tokens? ofTokens?
  dsimp only
  split <;> rfl

namespace Interpreter

variable (i : Interpreter) (fuel : Nat) {source : String}

/-- The interpreter that has read a text without faults, and tells how many tokens and statements it
has. -/
def reading (source : String) : Interpreter :=
  let tokens := (scan source).tokens
  (i.tell (.lexed tokens.length 0)).tell (.parsed (Program.read tokens).statements.length 0)

/-- A text without faults is run as its statements. -/
theorem run_eq_interpret {ss : List Stmt} (h : Program.parse? source = .ok ss) :
    i.run fuel source = (i.reading source).interpret fuel ss := by
  rw [Program.parse?_eq] at h
  split at h
  · rename_i hscan
    unfold Program.result at h
    split at h
    · rename_i hread
      cases h
      simp only [run, reading, List.isEmpty_iff.1 hscan, List.isEmpty_iff.1 hread, List.isEmpty_nil,
        List.length_nil, Bool.not_true, Bool.false_eq_true, if_false]
    · cases h
  · cases h

/-- What was told before the statements is of no matter. -/
theorem run_of_parse? {ss : List Stmt} (h : Program.parse? source = .ok ss) :
    ∃ log, i.run fuel source = { i with machine := { i.machine with log } }.interpret fuel ss :=
  ⟨_, i.run_eq_interpret fuel h⟩

/-- A text with faults is not run. -/
theorem run_of_rejected {ds : List Diagnostic} (h : Program.parse? source = .error ds) :
    (∃ log, (i.run fuel source).2 = { i with machine := { i.machine with log } }) ∧
      ∀ d, (i.run fuel source).1 ≠ .fault d := by
  rw [Program.parse?_eq] at h
  unfold run
  split at h
  · rename_i hscan
    unfold Program.result at h
    split at h
    · cases h
    · rename_i hread
      simp only [hscan, hread, Bool.not_true, Bool.not_false, Bool.false_eq_true, if_false, if_true]
      exact ⟨⟨_, rfl⟩, nofun⟩
  · rename_i hscan
    simp only [hscan, Bool.not_false, if_true]
    exact ⟨⟨_, rfl⟩, nofun⟩

/-- A text with faults ends with those of its words, or with those of their arrangement. -/
theorem outcome_of_rejected {ds : List Diagnostic} (h : Program.parse? source = .error ds) :
    (i.run fuel source).1 = .lexErrors ds ∨ (i.run fuel source).1 = .parseErrors ds := by
  rw [Program.parse?_eq] at h
  unfold run
  split at h
  · rename_i hscan
    unfold Program.result at h
    split at h
    · cases h
    · rename_i hread
      cases h
      refine .inr ?_
      simp only [hscan, hread, Bool.not_true, Bool.not_false, Bool.false_eq_true, if_false, if_true]
  · rename_i hscan
    cases h
    refine .inl ?_
    simp only [hscan, Bool.not_false, if_true]

/-- The machine behind a program is the one in which its statements end. -/
theorem interpret_machine (ss : List Stmt) : ∃ log, (i.interpret fuel ss).2 =
    { i with machine := { (runProgram i.config fuel ss).final i.machine with log } } := by
  obtain ⟨config, scriptName, machine⟩ := i
  unfold interpret final
  dsimp only
  cases runProgram config fuel ss machine with
  | ok _ m => exact ⟨m.log, rfl⟩
  | error halt m => exact ⟨_, rfl⟩

end Interpreter

end Scripting
