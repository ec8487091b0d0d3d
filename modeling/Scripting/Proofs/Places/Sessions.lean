import Scripting.Proofs.Machine.Runs
import Scripting.Proofs.Places.Points

/-!
# Sessions

* `Session config runs i` : the interpreter `i` has come from a new one through runs, of which
  those in `runs` were of programs and the others of texts with faults;
* `Settled` : between runs only the global frame is visible, and all frames are well placed
  (`Session.settled`);
* `Settled.placed_beginning`, `Session.placed` : a program begins at its top, and so every point of
  its run is placed.
-/

namespace Scripting

set_option autoImplicit false

open Eval
open Interpreter (globalFrame)

/-! ## More programs -/

section

variable {runs runs' : List Run} (sub : runs ⊆ runs')

include sub

theorem globalNames_mono : globalNames runs ⊆ globalNames runs' := by
  intro n hn
  rcases List.mem_append.1 hn with hn | hn
  · exact List.mem_append_left _ hn
  · obtain ⟨r, hr, hn⟩ := List.mem_flatMap.1 hn
    exact List.mem_append_right _ (List.mem_flatMap.2 ⟨r, sub hr, hn⟩)

theorem LiesIn.mono {σ : Site} (h : LiesIn runs σ) : LiesIn runs' σ := by
  obtain ⟨r, hr, hlies⟩ := h
  exact ⟨r, sub hr, hlies⟩

theorem Callable.Fits.of_subset {W : List TextScope} {s : Store} {c : Callable}
    (h : c.Fits runs W s) : c.Fits runs' W s := by
  cases c with
  | script _ f =>
    obtain ⟨Γ, part, parameters, hlies, hrest⟩ := h
    exact ⟨Γ, part, parameters, hlies.mono sub, hrest⟩
  | native => trivial

theorem Store.WellPlaced.of_subset {W : List TextScope} {s : Store} (h : s.WellPlaced runs W) :
    s.WellPlaced runs' W where
  size := h.size
  globals := List.Subset.trans h.globals (globalNames_mono sub)
  names := h.names
  values id b hb c hc := (h.values id b hb c hc).of_subset sub

end

/-! ## Points at which runs begin -/

namespace Interpreter

/-- The run of a program on an interpreter. -/
def runOf (i : Interpreter) (ss : List Stmt) : Run := ⟨i.globals.names, ss⟩

/-- The point at which the run of a program begins. What was told before is of no matter. -/
def beginning (i : Interpreter) (ss : List Stmt) (fuel : Nat) (log : Array Event) : Point :=
  ⟨.program ss, fuel, { i.machine with log }⟩

end Interpreter

/-! ## Sessions -/

/-- Runs on one interpreter, each of a program or of a text with faults. For each program, the names
that were global when it was run are told with it. -/
inductive Session (config : Config) : List Run → Interpreter → Prop
  | new (scriptName : String) (sink : Sink) : Session config [] (.new config scriptName sink)
  | run {runs : List Run} {i : Interpreter} {source : String} {ss : List Stmt} (fuel : Nat)
      (session : Session config runs i) (parsed : Program.parse? source = .ok ss) :
      Session config (runs ++ [i.runOf ss]) (i.run fuel source).2
  | reject {runs : List Run} {i : Interpreter} {source : String} {ds : List Diagnostic} (fuel : Nat)
      (session : Session config runs i) (rejected : Program.parse? source = .error ds) :
      Session config runs (i.run fuel source).2

/-- Only the global frame is visible, and all frames are well placed. -/
structure Settled (runs : List Run) (m : Machine) : Prop where
  scope : m.scope = .single globalFrame
  placed : ∃ W, m.store.WellPlaced runs W

theorem Settled.defineNative {runs : List Run} {i : Interpreter} (h : Settled runs i.machine)
    {f : Native} (hf : f.name ∈ globalNames runs) : Settled runs (i.defineNative f).machine where
  scope := h.scope
  placed := by
    obtain ⟨W, hW⟩ := h.placed
    refine ⟨W, hW.define hW.globalFrame_lt ⟨fun _ => hf, fun k _ hk => ?_⟩ ?_⟩
    · exact absurd hk (Nat.succ_ne_zero k).symm
    rintro c ⟨⟩
    trivial

/-- An interpreter is settled before its first run. -/
theorem Settled.new (config : Config) (scriptName : String) (sink : Sink) :
    Settled [] (Interpreter.new config scriptName sink).machine := by
  have hempty : (Store.empty.add .empty).WellPlaced [] [] :=
    { size := rfl
      globals := nofun
      names := nofun
      values := fun id b hb => by
        rw [Store.frame_add] at hb
        split at hb <;> cases hb }
  have hbare : Settled [] (Interpreter.mk config scriptName
      { store := Store.empty.add .empty, scope := .single globalFrame, sink }).machine :=
    ⟨rfl, [], hempty⟩
  exact (hbare.defineNative (f := .clock) (by decide)).defineNative (f := .print) (by decide)

/-- A program begins at its top. -/
theorem Settled.placed_beginning {runs : List Run} {i : Interpreter} (h : Settled runs i.machine)
    (ss : List Stmt) (fuel : Nat) (log : Array Event) :
    Placed (runs ++ [i.runOf ss]) [] (i.beginning ss fuel log) := by
  obtain ⟨W, hW⟩ := h.placed
  have hlies : LiesIn (runs ++ [i.runOf ss]) ⟨.top i.globals.names, .stmts ss⟩ :=
    ⟨_, List.mem_append_right _ List.mem_cons_self, .refl⟩
  refine ⟨W, .top i.globals.names, ⟨hW.of_subset (List.subset_append_left ..), ?_⟩, hlies, nofun⟩
  have hscope : (i.beginning ss fuel log).machine.scope = .single globalFrame := h.scope
  rw [hscope]
  exact
    { frames := ⟨[], rfl, .nil⟩
      ordered := List.pairwise_singleton ..
      size := hW.globalFrame_lt
      globals := List.Subset.refl _ }

namespace Session

variable {config : Config} {runs : List Run} {i : Interpreter}

theorem config_eq (session : Session config runs i) : i.config = config := by
  induction session with
  | new => rfl
  | @run runs i source ss fuel session parsed ih =>
    obtain ⟨log, hrun⟩ := i.run_of_parse? fuel parsed
    obtain ⟨log', hmachine⟩ := Interpreter.interpret_machine _ fuel ss
    rw [hrun, hmachine]
    exact ih
  | @reject runs i source ds fuel session rejected ih =>
    obtain ⟨⟨log, hrun⟩, -⟩ := i.run_of_rejected fuel rejected
    rw [hrun]
    exact ih

/-- All programs of a session were read from texts. -/
theorem plain (session : Session config runs i) : ∀ r ∈ runs, (Part.stmts r.statements).Plain := by
  induction session with
  | new => exact nofun
  | run fuel session parsed ih =>
    rw [List.forall_mem_append, List.forall_mem_singleton]
    exact ⟨ih, Program.plain_of_parse? parsed⟩
  | reject fuel session rejected ih => exact ih

theorem plain_append (session : Session config runs i) {source : String} {ss : List Stmt}
    (parsed : Program.parse? source = .ok ss) :
    ∀ r ∈ runs ++ [i.runOf ss], (Part.stmts r.statements).Plain :=
  (Session.run 0 session parsed).plain

/-- However the runs of a session end, the interpreter is settled behind them. -/
theorem settled (session : Session config runs i) (standard : config.host = .standard) :
    Settled runs i.machine := by
  induction session with
  | new scriptName sink => exact .new config scriptName sink
  | @run runs i source ss fuel session parsed ih =>
    obtain ⟨log, hrun⟩ := i.run_of_parse? fuel parsed
    obtain ⟨log', hmachine⟩ := Interpreter.interpret_machine _ fuel ss
    rw [hrun, hmachine, session.config_eq]
    obtain ⟨W, Γ, stands, hlies, -⟩ := ih.placed_beginning ss fuel log
    have hleads := (placing standard (session.plain_append parsed) fuel).runProgram stands hlies
    obtain ⟨W', onward⟩ := hleads.final
    exact ⟨onward.later.scope.trans ih.scope, W', onward.placed⟩
  | @reject runs i source ds fuel session rejected ih =>
    obtain ⟨⟨log, hrun⟩, -⟩ := i.run_of_rejected fuel rejected
    rw [hrun]
    exact ⟨ih.scope, ih.placed⟩

/-- Every point of a run is placed. -/
theorem placed (session : Session config runs i) (standard : config.host = .standard)
    {source : String} {ss : List Stmt} (parsed : Program.parse? source = .ok ss) {fuel : Nat}
    {log : Array Event} {kept : List Value} {p : Point}
    (reaches : Reaches config (i.beginning ss fuel log) kept p) :
    Placed (runs ++ [i.runOf ss]) kept p :=
  reaches.placed standard (session.plain_append parsed)
    ((session.settled standard).placed_beginning ss fuel log)

end Session

end Scripting
