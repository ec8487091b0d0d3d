import Scripting.Proofs.Machine.Runs
import Scripting.Proofs.Points.Halts
import Scripting.Proofs.Points.Trails

/-!
# How halts spread

* `Machine.Unaltered m m'` : the machines differ at most in what is current, the scope and the calls
  in progress (`refl`, `trans`);
* `Starts.halts` : what a part of a point halts with, the point halts with;
* `Follows.not_halts` : nothing follows a part that halts;
* `Trail.halts`, `Trail.last_of_halts` : so a run halts with what is raised at a point of it, and
  whatever else is evaluated in the run is evaluated around that point, in it, or before it;
* `Interpreter.opening` : the point at which the program of a text begins.
-/

namespace Scripting

set_option autoImplicit false

open Eval Relation

/-- The machines differ at most in the scope and in the number of calls in progress. -/
def Machine.Unaltered (m m' : Machine) : Prop :=
  m' = { m with scope := m'.scope, callDepth := m'.callDepth }

namespace Machine.Unaltered

variable {m m' m'' : Machine}

theorem refl (m : Machine) : m.Unaltered m := rfl

theorem trans (h : m.Unaltered m') (h' : m'.Unaltered m'') : m.Unaltered m'' := by
  unfold Unaltered at *
  rw [h', h]

theorem withScope (m : Machine) (scope : Scope) : m.Unaltered { m with scope } := rfl

theorem withCallDepth (m : Machine) (callDepth : Nat) : m.Unaltered { m with callDepth } := rfl

end Machine.Unaltered

variable {config : Config} {h : Halt} {m' : Machine}

/-! ## One point -/

/-- What a part halts with, the whole halts with, and in the same machine but for what is current
there. -/
theorem Starts.halts {p q : Point} {vs : List Value} (starts : Starts config p vs q)
    (halts : HaltsIn config q h m') : ∃ m'', HaltsIn config p h m'' ∧ m'.Unaltered m'' := by
  cases starts
  case call hcallee harguments hcheck =>
    refine ⟨{ m' with callDepth := m'.callDepth - 1 }, ?_, .withCallDepth m' _⟩
    show evaluate config (_ + 1) _ _ = _
    rw [evaluate, paced_eq, bind_of_ok hcallee, bind_of_ok harguments, bind_of_ok hcheck]
    exact counted_error halts
  case block m₁ scope hscope =>
    refine ⟨{ m' with scope := m₁.scope }, ?_, .withScope m' _⟩
    show execute config (_ + 1) _ _ = _
    rw [execute, paced_eq]
    refine (bind_of_ok rfl).trans ?_
    rw [bind_of_ok hscope]
    exact within_error halts
  case script m₁ scope hscope =>
    refine ⟨{ m' with scope := m₁.scope }, ?_, .withScope m' _⟩
    show invoke config (_ + 1) _ _ _ = _
    rw [invoke_script, bind_of_ok hscope]
    exact bind_of_error (within_error halts)
  -- Behind the other parts nothing is put back.
  all_goals refine ⟨m', ?_, .refl m'⟩
  case group =>
    show evaluate config (_ + 1) _ _ = _
    rw [evaluate, paced_eq]
    exact halts
  case operand | left | first | assigned | callee =>
    show evaluate config (_ + 1) _ _ = _
    rw [evaluate, paced_eq]
    exact bind_of_error halts
  case right hend | arguments hend =>
    show evaluate config (_ + 1) _ _ = _
    rw [evaluate, paced_eq, bind_of_ok hend]
    exact bind_of_error halts
  case second hleft hopen =>
    show evaluate config (_ + 1) _ _ = _
    rw [evaluate, paced_eq, bind_of_ok hleft, hopen]
    exact halts
  case firstOf =>
    show (List.mapM _ (_ :: _) : Eval (List Value)) _ = _
    rw [List.mapM_cons]
    exact bind_of_error halts
  case othersOf hfirst =>
    show (List.mapM _ (_ :: _) : Eval (List Value)) _ = _
    rw [List.mapM_cons, bind_of_ok hfirst]
    exact bind_of_error halts
  case expression =>
    show execute config (_ + 1) _ _ = _
    rw [execute, paced_eq]
    exact bind_of_error halts
  case test =>
    show execute config (_ + 1) _ _ = _
    rw [execute_branch]
    exact bind_of_error halts
  case whenTrue htest hv | whenFalse htest hv =>
    show execute config (_ + 1) _ _ = _
    rw [execute_branch, bind_of_ok htest, hv]
    exact halts
  case loop =>
    show execute config (_ + 1) _ _ = _
    rw [execute, paced_eq]
    exact halts
  case result =>
    show execute config (_ + 1) _ _ = _
    rw [execute_leave]
    exact bind_of_error halts
  case initial =>
    show execute config (_ + 1) _ _ = _
    rw [execute_define]
    exact bind_of_error halts
  case turnTest | firstIn | firstRun => exact bind_of_error halts
  case turnBody htest hv =>
    refine (bind_of_ok htest).trans ?_
    rw [hv]
    exact bind_of_error halts
  case nextTurn htest hv hbody hflow =>
    refine (bind_of_ok htest).trans ?_
    rw [hv]
    refine (bind_of_ok hbody).trans ?_
    rcases hflow with rfl | ⟨keyword, rfl⟩
    · exact halts
    · exact halts
  case othersIn hfirst | othersRun hfirst => exact (bind_of_ok hfirst).trans halts
  case hostCall haction =>
    show invoke config (_ + 1) _ _ _ = _
    rw [invoke, paced_eq, haction]
    exact halts

/-- A part that halts is the last one. -/
theorem Follows.not_halts {p q r : Point} (follows : Follows config p q r) :
    ¬Halts config q h := by
  rintro ⟨m', halts⟩
  cases follows with
  | right hend | second hend | arguments hend | call _ hend | othersOf hend | whenTrue hend
  | whenFalse hend | turnBody hend | nextTurn _ _ hend | othersIn hend | othersRun hend =>
    exact absurd (hend.symm.trans halts) nofun

/-! ## Trails -/

/-- Nothing follows a part of the trail that is behind another point of it. -/
def Unfollowed (config : Config) (T : List Point) : Prop :=
  ∀ inner p q around r, T = inner ++ q :: p :: around → ¬Follows config p q r

theorem unfollowed_singleton (p : Point) : Unfollowed config [p] := by
  intro inner q r around s hT
  have hlen := congrArg List.length hT
  simp only [List.length_append, List.length_cons, List.length_nil] at hlen
  omega

theorem Unfollowed.cons {p q : Point} {around : List Point}
    (hq : ∀ r, ¬Follows config p q r) (h : Unfollowed config (p :: around)) :
    Unfollowed config (q :: p :: around) := by
  intro inner p' q' around' r hT
  cases inner with
  | nil =>
    cases hT
    exact hq r
  | cons a inner => exact h inner p' q' around' r (List.cons.inj hT).2

/-- Nothing comes after a trail that is not followed. -/
theorem Unfollowed.not_before {T T' : List Point} (h : Unfollowed config T) :
    ¬Before config T T' := by
  rintro @⟨p, q, r, inner, inner', around, follows⟩
  obtain ⟨r', hqr', -⟩ := TransGen.head'_iff.1 follows
  exact h inner p q around r' rfl hqr'

namespace Trail

variable {start p : Point} {around T : List Point}

/-- What a point halts with, the run halts with. Nothing of the run follows. -/
theorem halts (trail : Trail config start (p :: around)) (halts : HaltsIn config p h m') :
    (∃ m'', HaltsIn config start h m'' ∧ m'.Unaltered m'') ∧ Unfollowed config (p :: around) := by
  induction around generalizing p m' with
  | nil =>
    cases trail
    exact ⟨⟨m', halts, .refl m'⟩, unfollowed_singleton start⟩
  | cons q around ih =>
    obtain _ | ⟨trail, starts⟩ := trail
    obtain ⟨m₁, hq, same⟩ := starts.halts halts
    obtain ⟨⟨m₂, hstart, same'⟩, hunfollowed⟩ := ih trail hq
    refine ⟨⟨m₂, hstart, same.trans same'⟩, hunfollowed.cons fun r follows => ?_⟩
    exact follows.not_halts ⟨m', halts⟩

/-- Whatever else is evaluated in a run is evaluated around the end of a trail that is not followed,
in it, or before it. -/
theorem last (trail : Trail config start T) (h : Unfollowed config T) {T' : List Point}
    (trail' : Trail config start T') : T' <:+ T ∨ T <:+ T' ∨ Before config T' T := by
  rcases trail.compare trail' with hsuffix | hsuffix | hbefore | hbefore
  · exact .inr (.inl hsuffix)
  · exact .inl hsuffix
  · exact absurd hbefore h.not_before
  · exact .inr (.inr hbefore)

end Trail

/-! ## Runs of texts -/

namespace Interpreter

/-- The point at which the program of a text begins. -/
def opening (i : Interpreter) (fuel : Nat) (source : String) (ss : List Stmt) : Point :=
  ⟨.program ss, fuel, (i.reading source).machine⟩

/-- What comes of a run that halts, and the interpreter behind it. -/
def halted (i : Interpreter) (h : Halt) (m : Machine) : Outcome × Interpreter :=
  (.ofHalt h, { i with machine := m : Interpreter }.tell (.halted (reason h)))

/-- What comes of a run whose program ends like this, and the interpreter behind it. -/
def ending (i : Interpreter) : EStateM.Result Halt Machine Unit → Outcome × Interpreter
  | .ok _ m => (.success, { i with machine := m })
  | .error h m => i.halted h m

variable {i : Interpreter} {fuel : Nat} {source : String} {ss : List Stmt}

theorem run_eq_ending (parsed : Program.parse? source = .ok ss) : i.run fuel source =
    i.ending (runProgram i.config fuel ss (i.opening fuel source ss).machine) := by
  rw [i.run_eq_interpret fuel parsed]
  change (match runProgram i.config fuel ss (i.opening fuel source ss).machine with
    | .ok _ _ => _
    | .error _ _ => _) = _
  cases runProgram i.config fuel ss (i.opening fuel source ss).machine <;> rfl

/-- A run halts as its program does, and outside of all that was being executed. -/
theorem run_of_halts (parsed : Program.parse? source = .ok ss)
    (halts : ∃ m'', HaltsIn i.config (i.opening fuel source ss) h m'' ∧ m'.Unaltered m'') :
    i.run fuel source = i.halted h
      { m' with scope := i.machine.scope, callDepth := i.machine.callDepth } := by
  obtain ⟨m'', halts, same⟩ := halts
  change runProgram i.config fuel ss (i.opening fuel source ss).machine = .error h m'' at halts
  have hlater := (runProgram_advances i.config fuel ss).of_error halts
  unfold Machine.Unaltered at same
  rw [run_eq_ending parsed, halts, same, hlater.scope, hlater.callDepth]
  rfl

theorem halts_of_run (parsed : Program.parse? source = .ok ss)
    (hrun : (i.run fuel source).1 = .ofHalt h) :
    Halts i.config (i.opening fuel source ss) h := by
  rw [run_eq_ending parsed] at hrun
  cases hprogram : runProgram i.config fuel ss (i.opening fuel source ss).machine with
  | ok _ m =>
    rw [hprogram] at hrun
    cases h <;> cases hrun
  | error h' m =>
    rw [hprogram] at hrun
    cases h <;> cases h' <;> cases hrun
    all_goals exact ⟨m, hprogram⟩

end Interpreter

end Scripting
