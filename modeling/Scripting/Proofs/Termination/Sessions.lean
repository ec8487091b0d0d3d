import Scripting.Proofs.Machine.Agreement
import Scripting.Proofs.Places.Sessions
import Scripting.Proofs.Termination.Points

/-!
# Sessions without loops

* `Interpreter.Used.session` : an interpreter in use without further native functions has come from
  a new one through a session of programs;
* `Interpreter.run_ne_outOfFuel` : with enough fuel, the run of a text without loops does not run
  out of it, if all texts before it had no loops;
* `Interpreter.run_finishes` : such a run comes to its end, be it that too many calls are in
  progress.
-/

namespace Scripting

set_option autoImplicit false

namespace Interpreter

/-! ## Sessions of texts -/

variable {config : Config} {P : String → Prop} {i : Interpreter}

/-- An interpreter in use without further native functions has come from a new one through a
session, whose programs were read from the texts. -/
theorem Used.session (used : Used config (fun _ => False) P i) :
    ∃ runs, Session config runs i ∧
      ∀ r ∈ runs, ∃ source, P source ∧ Program.parse? source = .ok r.statements := by
  induction used with
  | new scriptName sink => exact ⟨[], .new scriptName sink, nofun⟩
  | defineNative _ h => exact h.elim
  | @run i _ fuel source h ih =>
    obtain ⟨runs, session, hruns⟩ := ih
    cases parsed : Program.parse? source with
    | ok ss =>
      refine ⟨_, session.run fuel parsed, ?_⟩
      rw [List.forall_mem_append, List.forall_mem_singleton]
      exact ⟨hruns, source, h, parsed⟩
    | error ds => exact ⟨runs, session.reject fuel parsed, hruns⟩

/-! ## Enough fuel -/

/-- Programs without loops are not larger than the largest. -/
theorem exists_modest {runs : List Run}
    (free : ∀ r ∈ runs, Stmt.anyHasLoop r.statements = false) :
    ∃ size, ∀ r ∈ runs, r.Modest size := by
  induction runs with
  | nil => exact ⟨0, nofun⟩
  | cons r runs ih =>
    rw [List.forall_mem_cons] at free
    obtain ⟨size, hsize⟩ := ih free.2
    refine ⟨max (sizeOf r.statements) size, List.forall_mem_cons.2 ⟨?_, fun r' hr' => ?_⟩⟩
    · exact ⟨free.1, Nat.le_max_left ..⟩
    · exact ⟨(hsize r' hr').loopFree, Nat.le_trans (hsize r' hr').size_le (Nat.le_max_right ..)⟩

/-- What comes of statements is running out of fuel only if they halt so. -/
theorem interpret_ne_outOfFuel {fuel : Nat} {ss : List Stmt}
    (h : ∀ halt, Halts i.config ⟨.program ss, fuel, i.machine⟩ halt → halt ≠ .outOfFuel) :
    (i.interpret fuel ss).1 ≠ .outOfFuel := by
  obtain ⟨config, scriptName, machine⟩ := i
  unfold interpret
  dsimp only at h ⊢
  cases hrun : runProgram config fuel ss machine with
  | ok _ m => exact nofun
  | error halt m =>
    have hne := h halt ⟨m, hrun⟩
    cases halt with
    | outOfFuel => exact absurd rfl hne
    | fault | io => exact nofun

variable {limit : Nat} {source : String}

/-- With enough fuel, the run of a text without loops does not run out of it. -/
theorem run_ne_outOfFuel (standard : config.host = .standard)
    (limited : config.callLimit = some limit) (used : Used config (fun _ => False) LoopFree i)
    (free : LoopFree source) : ∃ depth, ∀ fuel ≥ depth, (i.run fuel source).1 ≠ .outOfFuel := by
  cases parsed : Program.parse? source with
  | error ds =>
    refine ⟨0, fun fuel _ hout => ?_⟩
    rcases i.outcome_of_rejected fuel parsed with h | h <;> rw [h] at hout <;> cases hout
  | ok ss =>
    obtain ⟨runs, session, hruns⟩ := used.session
    have hfree : ∀ r ∈ runs ++ [i.runOf ss], Stmt.anyHasLoop r.statements = false := by
      rw [List.forall_mem_append, List.forall_mem_singleton]
      refine ⟨fun r hr => ?_, Program.hasLoop_of_parse? parsed free⟩
      obtain ⟨source', free', parsed'⟩ := hruns r hr
      exact Program.hasLoop_of_parse? parsed' free'
    obtain ⟨size, modest⟩ := exists_modest hfree
    refine ⟨sizeOf ss + limit * (size + 2), fun fuel hfuel => ?_⟩
    obtain ⟨log, hrun⟩ := i.run_of_parse? fuel parsed
    have placed := (session.settled standard).placed_beginning ss fuel log
    have supplied : (i.beginning ss fuel log).Supplied limit size :=
      ⟨nofun, Nat.le_trans (Nat.add_le_add_left
        (Nat.mul_le_mul_right _ (Nat.sub_le limit i.machine.callDepth)) _) hfuel⟩
    rw [hrun]
    refine interpret_ne_outOfFuel fun halt halts => ?_
    change Halts i.config _ halt at halts
    rw [used.config_eq] at halts
    exact halts.ne_outOfFuel standard limited (session.plain_append parsed) modest placed supplied

/-- The run of a text without loops, behind runs of such texts, comes to an end: there is a fuel
from which on it does not run out of it and always does the same. If it would not come to an end
with any number of calls in progress, then it ends with the fault that there are too many. -/
theorem run_finishes (standard : config.host = .standard)
    (limited : config.callLimit = some limit) (used : Used config (fun _ => False) LoopFree i)
    (free : LoopFree source) :
    ∃ depth, ∀ fuel ≥ depth, (i.run fuel source).1 ≠ .outOfFuel ∧
      i.run fuel source = i.run depth source ∧
      ((∀ n, (i.unlimited.run n source).1 = .outOfFuel) →
        ∃ t, (i.run fuel source).1 = .fault (.atToken (.runtime .stackOverflow) t)) := by
  obtain ⟨depth, hdepth⟩ := run_ne_outOfFuel standard limited used free
  refine ⟨depth, fun fuel hfuel => ⟨hdepth fuel hfuel, ?_, fun endless => ?_⟩⟩
  · exact i.run_of_le hfuel (hdepth depth (Nat.le_refl _))
  · rcases i.run_unlimited fuel source with heq | hout | hoverflow
    · exact absurd (heq ▸ endless fuel) (hdepth fuel hfuel)
    · exact absurd hout (hdepth fuel hfuel)
    · exact hoverflow

/-- A function that an earlier run has made is passed to itself, and calls itself without end. -/
theorem run_finishes_passed_to_itself :
    let config : Config := { callLimit := some 3 }
    let i := ((new config "session" {}).run 20 "fn f(g) \x7b return g(g) + 1; \x7d let h = f;").2
    let source := "h(f);"
    LoopFree source ∧
      (i.run 40 source).1.diagnostics.map Diagnostic.message = ["Stack overflow."] ∧
      ∃ depth, ∀ fuel ≥ depth, (i.run fuel source).1 ≠ .outOfFuel ∧
        i.run fuel source = i.run depth source ∧
        ((∀ n, (i.unlimited.run n source).1 = .outOfFuel) →
          ∃ t, (i.run fuel source).1 = .fault (.atToken (.runtime .stackOverflow) t)) := by
  intro config i source
  have used : Used config (fun _ => False) LoopFree i :=
    .run (.new "session" {}) 20 (by decide +kernel)
  have free : LoopFree source := by decide +kernel
  exact ⟨free, by decide +kernel, run_finishes rfl rfl used free⟩

end Interpreter

end Scripting
