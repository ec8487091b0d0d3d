import Scripting.Proofs.Machine.Runs

/-!
# Interpreters between runs

* `Eval.Restores` : however a computation ends, the scope is current again and as many calls are in
  progress as before it;
* `Interpreter.Used` : interpreters that come from a new one, through native functions that are
  supplied and runs of texts, of given kinds;
* `Machine.Idle` : the global scope is current and no call is in progress;
* `Interpreter.comes_back` : every evaluation restores, an interpreter is idle between runs, and a
  text with faults changes nothing.
-/

namespace Scripting

set_option autoImplicit false

open Interpreter (globalFrame)

/-! ## Scopes and calls -/

/-- However the computation ends, with a result or halted, the current scope and the number of calls
in progress are those from before it. -/
def Eval.Restores {α : Type} (act : Eval α) : Prop :=
  ∀ m : Machine, (act.final m).scope = m.scope ∧ (act.final m).callDepth = m.callDepth

theorem Eval.Advances.restores {α : Type} {act : Eval α} (h : act.Advances) : act.Restores :=
  fun m => ⟨(h m).scope, (h m).callDepth⟩

/-- The global scope is current and no call is in progress. -/
structure Machine.Idle (m : Machine) : Prop where
  scope : m.scope = .single globalFrame
  callDepth : m.callDepth = 0

theorem Eval.Restores.idle {α : Type} {act : Eval α} (h : act.Restores) {m : Machine}
    (idle : m.Idle) : (act.final m).Idle where
  scope := (h m).1.trans idle.scope
  callDepth := (h m).2.trans idle.callDepth

/-! ## Interpreters in use -/

namespace Interpreter

/-- Interpreters that come from a new one, through native functions with the property `N` that are
supplied, and runs of texts with the property `P`. -/
inductive Used (config : Config) (N : Native → Prop) (P : String → Prop) : Interpreter → Prop
  | new (scriptName : String) (sink : Sink) : Used config N P (.new config scriptName sink)
  | defineNative {i : Interpreter} (used : Used config N P i) {f : Native} (h : N f) :
      Used config N P (i.defineNative f)
  | run {i : Interpreter} (used : Used config N P i) (fuel : Nat) {source : String}
      (h : P source) : Used config N P (i.run fuel source).2

section

variable (i : Interpreter) (fuel : Nat) (source : String)

/-- A run changes the machine as the statements of the text do, or it only tells events. -/
theorem run_machine : ∃ log, (i.run fuel source).2 = { i with machine := { i.machine with log } } ∨
    ∃ ss log', Program.parse? source = .ok ss ∧ (i.run fuel source).2 = { i with machine :=
      { (runProgram i.config fuel ss).final { i.machine with log } with log := log' } } := by
  cases parsed : Program.parse? source with
  | ok ss =>
    obtain ⟨log, hrun⟩ := i.run_of_parse? fuel parsed
    obtain ⟨log', hmachine⟩ :=
      interpret_machine { i with machine := { i.machine with log } } fuel ss
    exact ⟨log, .inr ⟨ss, log', rfl, hrun ▸ hmachine⟩⟩
  | error ds =>
    obtain ⟨⟨log, hrun⟩, -⟩ := i.run_of_rejected fuel parsed
    exact ⟨log, .inl hrun⟩

/-- A run changes nothing but the machine. -/
theorem run_eq_with_machine :
    (i.run fuel source).2 = { i with machine := (i.run fuel source).2.machine } := by
  obtain ⟨log, hrun | ⟨ss, log', -, hrun⟩⟩ := i.run_machine fuel source
  · rw [hrun]
  · rw [hrun]

/-- What comes of statements are no faults of the text. -/
theorem interpret_ne_errors (ss : List Stmt) (ds : List Diagnostic) :
    (i.interpret fuel ss).1 ≠ .lexErrors ds ∧ (i.interpret fuel ss).1 ≠ .parseErrors ds := by
  obtain ⟨config, scriptName, machine⟩ := i
  unfold interpret
  dsimp only
  cases runProgram config fuel ss machine with
  | ok _ m => exact ⟨nofun, nofun⟩
  | error halt m => cases halt <;> exact ⟨nofun, nofun⟩

/-- A run that ends with faults of the text only tells events. -/
theorem run_of_errors {ds : List Diagnostic}
    (h : (i.run fuel source).1 = .lexErrors ds ∨ (i.run fuel source).1 = .parseErrors ds) :
    ∃ log, (i.run fuel source).2 = { i with machine := { i.machine with log } } := by
  cases parsed : Program.parse? source with
  | ok ss =>
    obtain ⟨log, hrun⟩ := i.run_of_parse? fuel parsed
    rw [hrun] at h
    have hne := interpret_ne_errors { i with machine := { i.machine with log } } fuel ss ds
    exact absurd h (not_or.2 hne)
  | error ds' => exact (i.run_of_rejected fuel parsed).1

end

namespace Used

variable {config : Config} {N : Native → Prop} {P : String → Prop} {i : Interpreter}

theorem config_eq (used : Used config N P i) : i.config = config := by
  induction used with
  | new => rfl
  | defineNative _ _ ih => exact ih
  | @run i _ fuel source h ih =>
    obtain ⟨log, hrun | ⟨ss, log', -, hrun⟩⟩ := i.run_machine fuel source
    · rw [hrun]
      exact ih
    · rw [hrun]
      exact ih

/-- However the runs have ended, the interpreter is idle behind them. -/
theorem idle (used : Used config N P i) : i.machine.Idle := by
  induction used with
  | new => exact ⟨rfl, rfl⟩
  | defineNative _ _ ih => exact ⟨ih.scope, ih.callDepth⟩
  | @run i _ fuel source h ih =>
    obtain ⟨log, hrun | ⟨ss, log', -, hrun⟩⟩ := i.run_machine fuel source
    · rw [hrun]
      exact ⟨ih.scope, ih.callDepth⟩
    · have hidle := (runProgram_advances i.config fuel ss).restores.idle
        (m := { i.machine with log }) ⟨ih.scope, ih.callDepth⟩
      rw [hrun]
      exact ⟨hidle.scope, hidle.callDepth⟩

end Used

/-- Whatever happens, an interpreter comes back: each evaluation of an expression, a statement or a
call restores the scope and the number of calls in progress; behind any runs, the global scope is
current and no call is in progress; and a run that ends with faults of the text has written nothing
and changed no frame. -/
theorem comes_back (config : Config) (fuel : Nat) :
    (∀ e, (evaluate config fuel e).Restores) ∧ (∀ s, (execute config fuel s).Restores) ∧
      (∀ callee arguments, (invoke config fuel callee arguments).Restores) ∧
      (∀ i, Used config (fun _ => True) (fun _ => True) i → i.machine.Idle) ∧
      ∀ (i : Interpreter) (source : String) (ds : List Diagnostic),
        (i.run fuel source).1 = .lexErrors ds ∨ (i.run fuel source).1 = .parseErrors ds →
          ∃ log, (i.run fuel source).2 = { i with machine := { i.machine with log } } := by
  have hadvancing := advancing config fuel
  refine ⟨fun e => (hadvancing.evaluate e).restores, fun s => (hadvancing.execute s).restores,
    fun c vs => (hadvancing.invoke c vs).restores, fun i used => used.idle, ?_⟩
  exact fun i source ds h => i.run_of_errors fuel source h

/-- A fault in an argument of a call, in the body of a loop in a function. -/
theorem comes_back_from_argument :
    let source := "fn f(n) \x7b while (n) \x7b let m = n; return f(m + print); \x7d \x7d f(1);"
    let i := Interpreter.new {} "session" {}
    (i.run 30 source).1.isSuccess = false ∧ (i.run 30 source).2.machine.Idle := by
  intro source i
  have used : Used {} (fun _ => True) (fun _ => True) i := .new "session" {}
  have used' : Used {} (fun _ => True) (fun _ => True) (i.run 30 source).2 := used.run 30 trivial
  exact ⟨by decide +kernel, (comes_back {} 30).2.2.2.1 _ used'⟩

end Interpreter

end Scripting
