import Scripting.Proofs.Control.Strays
import Scripting.Proofs.Points.Spread

/-!
# Flows of stray keywords

* `Flow.stray?` : the fault of a flow that finds no loop, or no function, to leave;
* `FlowsIn config p flow m'` : executing the statements of `p` ends with a flow in a machine;
* `Starts.flows` : where a part ends with the flow of a stray keyword, so does the whole, or it
  halts with the fault of the keyword;
* `Trail.flows` : so a run in which such a keyword is executed halts with its fault, and nothing of
  the run follows;
* `FlowsIn.step`, `Trail.origin` : conversely, such a flow is that of a part of the same body, and
  so it comes from a stray keyword.
-/

namespace Scripting

set_option autoImplicit false

open Eval

/-- The fault of a flow that leaves a loop, or a function, though none is around, and the keyword
that it comes from. -/
def Flow.stray? (inFunction : Bool) (around : List Stmt) : Flow → Option (RuntimeFault × Token)
  | normal => none
  | breaking keyword => if around.any Stmt.isLoop then none else some (.strayBreak, keyword)
  | continuing keyword => if around.any Stmt.isLoop then none else some (.strayContinue, keyword)
  | returning keyword _ => if inFunction then none else some (.strayReturn, keyword)

/-- The flow of a stray keyword at the end of a trail. -/
def Flow.strayAt? (T : List Point) (flow : Flow) : Option (RuntimeFault × Token) :=
  flow.stray? (Trail.callee? T).isSome (Trail.around T)

/-- The statement of a stray keyword at the end of a trail. -/
def Stmt.strayAt? (T : List Point) (s : Stmt) : Option (RuntimeFault × Token) :=
  s.stray? (Trail.callee? T).isSome (Trail.around T)

/-- Executing the statements of a point ends with a flow, in a machine. -/
def FlowsIn (config : Config) (p : Point) (flow : Flow) (m' : Machine) : Prop :=
  match p.task with
  | .stmt s => execute config p.fuel s p.machine = .ok flow m'
  | .stmts ss => runAll (execute config p.fuel) ss p.machine = .ok flow m'
  | .turns count condition body =>
    repeatWhile (evaluate config p.fuel condition) (execute config p.fuel body) count p.machine =
      .ok flow m'
  | _ => False

variable {config : Config} {m' : Machine} {flow : Flow} {x : RuntimeFault × Token}

namespace Flow

variable {inFunction : Bool} {around : List Stmt}

/-- A loop around lets only returns through. -/
theorem returning_of_loop (h : flow.stray? inFunction around = some x)
    (hloop : around.any Stmt.isLoop = true) : ∃ keyword v, flow = .returning keyword v := by
  cases flow <;> simp only [stray?, hloop, if_true, reduceCtorEq] at h
  exact ⟨_, _, rfl⟩

/-- A statement around that is no loop does not matter. -/
theorem stray?_cons {s : Stmt} (hs : s.isLoop = false) :
    flow.stray? inFunction (s :: around) = flow.stray? inFunction around := by
  cases flow <;> simp only [stray?, List.any_cons, hs, Bool.false_or]

end Flow

/-! ## From parts to the whole -/

/-- Where a part ends with a stray flow, the whole ends with it and it is stray there, too, or the
whole halts with its fault. -/
theorem Starts.flows {p q : Point} {vs : List Value} {T : List Point}
    (starts : Starts config p vs q)
    (hturns : ∀ count condition body, p.task = .turns count condition body →
      (Trail.around T).any Stmt.isLoop = true)
    (flows : FlowsIn config q flow m') (stray : flow.strayAt? (p :: T) = some x) :
    ∃ m'', m'.Unaltered m'' ∧ (FlowsIn config p flow m'' ∧ flow.strayAt? T = some x ∨
      HaltsIn config p (.fault (.atToken (.runtime x.1) x.2)) m'') := by
  cases starts
  case block m₁ scope hscope =>
    refine ⟨{ m' with scope := m₁.scope }, .withScope m' _, .inl ⟨?_, ?_⟩⟩
    · show execute config (_ + 1) _ _ = _
      rw [execute, paced_eq]
      refine (bind_of_ok rfl).trans ?_
      rw [bind_of_ok hscope]
      exact within_ok flows
    · exact (Flow.stray?_cons rfl).symm.trans stray
  case whenTrue htest hv | whenFalse htest hv =>
    refine ⟨m', .refl m', .inl ⟨?_, (Flow.stray?_cons rfl).symm.trans stray⟩⟩
    show execute config (_ + 1) _ _ = _
    rw [execute_branch, bind_of_ok htest, hv]
    exact flows
  case loop =>
    obtain ⟨keyword, v, rfl⟩ := Flow.returning_of_loop stray rfl
    refine ⟨m', .refl m', .inl ⟨?_, stray⟩⟩
    show execute config (_ + 1) _ _ = _
    rw [execute, paced_eq]
    exact flows
  case turnBody htest hv =>
    obtain ⟨keyword, v, rfl⟩ := Flow.returning_of_loop stray (hturns _ _ _ rfl)
    refine ⟨m', .refl m', .inl ⟨(bind_of_ok htest).trans ?_, stray⟩⟩
    rw [hv]
    exact bind_of_ok flows
  case nextTurn htest hv hbody hflow =>
    refine ⟨m', .refl m', .inl ⟨(bind_of_ok htest).trans ?_, stray⟩⟩
    rw [hv]
    refine (bind_of_ok hbody).trans ?_
    rcases hflow with rfl | ⟨keyword, rfl⟩
    · exact flows
    · exact flows
  case firstIn =>
    refine ⟨m', .refl m', .inl ⟨(bind_of_ok flows).trans ?_, stray⟩⟩
    cases flow with
    | normal => cases stray
    | breaking | continuing | returning => rfl
  case othersIn hfirst =>
    exact ⟨m', .refl m', .inl ⟨(bind_of_ok hfirst).trans flows, stray⟩⟩
  case script m₁ scope hscope =>
    refine ⟨{ m' with scope := m₁.scope }, .withScope m' _, .inr ?_⟩
    show invoke config (_ + 1) _ _ _ = _
    rw [invoke_script, bind_of_ok hscope, bind_of_ok (within_ok flows)]
    cases flow with
    | normal | returning => cases stray
    | breaking | continuing =>
      cases stray
      rfl
  case firstRun =>
    refine ⟨m', .refl m', .inr ((bind_of_ok flows).trans ?_)⟩
    cases flow with
    | normal => cases stray
    | breaking | continuing | returning =>
      simp only [Flow.strayAt?, Flow.stray?] at stray
      split at stray <;> cases stray
      rfl
  all_goals exact flows.elim

/-- Nothing follows a part that ends with a stray flow. -/
theorem Follows.not_flows {p q r : Point} {T : List Point} (follows : Follows config p q r)
    (hturns : ∀ count condition body, p.task = .turns count condition body →
      (Trail.around T).any Stmt.isLoop = true)
    (flows : FlowsIn config q flow m') : flow.strayAt? (p :: T) ≠ some x := by
  intro stray
  cases follows with
  | nextTurn _ _ hbody hflow =>
    obtain ⟨keyword, v, rfl⟩ := Flow.returning_of_loop stray (hturns _ _ _ rfl)
    cases hbody.symm.trans flows
    rcases hflow with hflow | ⟨_, hflow⟩ <;> cases hflow
  | othersIn hfirst | othersRun hfirst =>
    cases hfirst.symm.trans flows
    cases stray
  | _ => exact flows

/-- Where the flow of a stray keyword comes out of a point, the run halts with its fault, and
nothing of the run follows. -/
theorem Trail.flows {start p : Point} {program : List Stmt} (hstart : start.task = .program program)
    {T : List Point} (trail : Trail config start (p :: T)) (flows : FlowsIn config p flow m')
    (stray : flow.strayAt? T = some x) :
    (∃ m'', HaltsIn config start (.fault (.atToken (.runtime x.1) x.2)) m'' ∧ m'.Unaltered m'') ∧
      Unfollowed config (p :: T) := by
  induction T generalizing p m' with
  | nil =>
    cases trail
    unfold FlowsIn at flows
    rw [hstart] at flows
    exact flows.elim
  | cons q T ih =>
    obtain _ | ⟨trail, starts⟩ := trail
    have hturns : ∀ count condition body, q.task = .turns count condition body →
        (around T).any Stmt.isLoop = true := by
      obtain ⟨_, n, m⟩ := q
      rintro count condition body rfl
      exact any_isLoop hstart trail
    have hlast := fun r (follows : Follows config q p r) => follows.not_flows hturns flows stray
    obtain ⟨m₁, same, ⟨hq, stray'⟩ | hq⟩ := starts.flows hturns flows stray
    · obtain ⟨⟨m₂, hhalts, same'⟩, hunfollowed⟩ := ih trail hq stray'
      exact ⟨⟨m₂, hhalts, same.trans same'⟩, hunfollowed.cons hlast⟩
    · obtain ⟨⟨m₂, hhalts, same'⟩, hunfollowed⟩ := trail.halts hq
      exact ⟨⟨m₂, hhalts, same.trans same'⟩, hunfollowed.cons hlast⟩

/-! ## From the whole to parts -/

/-- A loop ends normally, or with a return. -/
theorem repeatWhile_flow {condition : Eval Value} {body : Eval Flow} {count : Nat} {m : Machine}
    (h : repeatWhile condition body count m = .ok flow m') :
    flow = .normal ∨ ∃ keyword v, flow = .returning keyword v := by
  induction count generalizing m with
  | zero => cases h
  | succ count ih =>
    obtain ⟨v, m₁, -, h⟩ := bind_eq_ok.1 h
    split at h
    · obtain ⟨flow', m₂, -, h⟩ := bind_eq_ok.1 h
      cases flow' with
      | normal | continuing => exact ih h
      | breaking =>
        cases h
        exact .inl rfl
      | returning =>
        cases h
        exact .inr ⟨_, _, rfl⟩
    · cases h
      exact .inl rfl

namespace FlowsIn

variable {T : List Point} {n : Nat} {m : Machine}

/-- The flow of a stray keyword is that of the statement itself, or of a part of it. -/
theorem step_stmt {s : Stmt} (flows : FlowsIn config ⟨.stmt s, n, m⟩ flow m')
    (stray : flow.strayAt? T = some x) :
    s.strayAt? T = some x ∨ ∃ vs q m₁, Starts config ⟨.stmt s, n, m⟩ vs q ∧
      FlowsIn config q flow m₁ ∧ flow.strayAt? (⟨.stmt s, n, m⟩ :: T) = some x := by
  change execute config n s m = .ok flow m' at flows
  cases n with
  | zero =>
    rw [execute] at flows
    cases flows
  | succ n =>
    cases s
    case block =>
      rw [execute, paced_eq] at flows
      obtain ⟨_, _, hget, flows⟩ := bind_eq_ok.1 flows
      cases hget
      obtain ⟨scope, m₁, hscope, flows⟩ := bind_eq_ok.1 flows
      obtain ⟨m₂, flows⟩ := within_eq_ok flows
      exact .inr ⟨_, _, m₂, .block hscope, flows, (Flow.stray?_cons rfl).trans stray⟩
    case branch span condition whenTrue whenFalse =>
      rw [execute_branch] at flows
      obtain ⟨v, m₁, hv, flows⟩ := bind_eq_ok.1 flows
      have hbranch : (Stmt.branch span condition whenTrue whenFalse).isLoop = false := rfl
      have stray' := (Flow.stray?_cons hbranch).trans stray
      cases htruthy : v.isTruthy with
      | true =>
        rw [htruthy] at flows
        exact .inr ⟨_, _, m', .whenTrue hv htruthy, flows, stray'⟩
      | false =>
        rw [htruthy] at flows
        cases whenFalse with
        | none =>
          cases flows
          cases stray
        | some whenFalse => exact .inr ⟨_, _, m', .whenFalse hv htruthy, flows, stray'⟩
    case loop =>
      rw [execute, paced_eq] at flows
      rcases repeatWhile_flow flows with rfl | ⟨keyword, v, rfl⟩
      · cases stray
      · exact .inr ⟨_, _, m', .loop, flows, stray⟩
    case leave _ keyword value =>
      rw [execute_leave] at flows
      obtain ⟨v, m₁, -, flows⟩ := bind_eq_ok.1 flows
      cases flows
      exact .inl stray
    case breakLoop | continueLoop =>
      rw [execute, paced_eq] at flows
      cases flows
      exact .inl stray
    case define =>
      rw [execute_define] at flows
      obtain ⟨v, m₁, -, flows⟩ := bind_eq_ok.1 flows
      obtain ⟨_, m₂, -, flows⟩ := bind_eq_ok.1 flows
      cases flows
      cases stray
    case expression =>
      rw [execute, paced_eq] at flows
      obtain ⟨v, m₁, -, flows⟩ := bind_eq_ok.1 flows
      cases flows
      cases stray
    case function =>
      rw [execute, paced_eq] at flows
      obtain ⟨f, m₁, -, flows⟩ := bind_eq_ok.1 flows
      obtain ⟨_, m₂, -, flows⟩ := bind_eq_ok.1 flows
      cases flows
      cases stray

theorem step_stmts {ss : List Stmt} (flows : FlowsIn config ⟨.stmts ss, n, m⟩ flow m')
    (stray : flow.strayAt? T = some x) :
    ∃ vs q m₁, Starts config ⟨.stmts ss, n, m⟩ vs q ∧ FlowsIn config q flow m₁ := by
  change runAll (execute config n) ss m = .ok flow m' at flows
  cases ss with
  | nil =>
    cases flows
    cases stray
  | cons s ss =>
    obtain ⟨flow', m₁, hfirst, flows⟩ := bind_eq_ok.1 flows
    cases flow' with
    | normal => exact ⟨_, _, m', .othersIn hfirst, flows⟩
    | breaking | continuing | returning =>
      cases flows
      exact ⟨_, _, m', .firstIn, hfirst⟩

theorem step_turns {count : Nat} {condition : Expr} {body : Stmt}
    (flows : FlowsIn config ⟨.turns count condition body, n, m⟩ flow m')
    (stray : flow.strayAt? T = some x) :
    ∃ vs q m₁, Starts config ⟨.turns count condition body, n, m⟩ vs q ∧
      FlowsIn config q flow m₁ := by
  change repeatWhile (evaluate config n condition) (execute config n body) count m = .ok flow m'
    at flows
  cases count with
  | zero => cases flows
  | succ count =>
    obtain ⟨v, m₁, hv, flows⟩ := bind_eq_ok.1 flows
    cases htruthy : v.isTruthy with
    | false =>
      rw [htruthy] at flows
      cases flows
      cases stray
    | true =>
      rw [htruthy] at flows
      obtain ⟨flow', m₂, hbody, flows⟩ := bind_eq_ok.1 flows
      cases flow' with
      | normal => exact ⟨_, _, m', .nextTurn hv htruthy hbody (.inl rfl), flows⟩
      | continuing keyword =>
        exact ⟨_, _, m', .nextTurn hv htruthy hbody (.inr ⟨keyword, rfl⟩), flows⟩
      | breaking =>
        cases flows
        cases stray
      | returning =>
        cases flows
        exact ⟨_, _, m', .turnBody hv htruthy, hbody⟩

/-- The flow of a stray keyword is that of the keyword's statement, or of a part of the same body.
-/
theorem step {p : Point} (flows : FlowsIn config p flow m') (stray : flow.strayAt? T = some x) :
    (∃ s n m, p = ⟨.stmt s, n, m⟩ ∧ s.strayAt? T = some x) ∨
      ∃ vs q m₁, Starts config p vs q ∧ FlowsIn config q flow m₁ ∧
        flow.strayAt? (p :: T) = some x := by
  obtain ⟨task, n, m⟩ := p
  cases task with
  | stmt s =>
    rcases flows.step_stmt stray with hs | hpart
    · exact .inl ⟨s, n, m, rfl, hs⟩
    · exact .inr hpart
  | stmts ss =>
    obtain ⟨vs, q, m₁, starts, hq⟩ := flows.step_stmts stray
    exact .inr ⟨vs, q, m₁, starts, hq, stray⟩
  | turns count condition body =>
    obtain ⟨vs, q, m₁, starts, hq⟩ := flows.step_turns stray
    exact .inr ⟨vs, q, m₁, starts, hq, stray⟩
  | expr | exprs | call | program => exact flows.elim

end FlowsIn

/-- The flow of a stray keyword comes from the statement of a stray keyword. -/
theorem Trail.origin {start p : Point} {T : List Point} {m' : Machine}
    (trail : Trail config start (p :: T)) (flows : FlowsIn config p flow m')
    (stray : flow.strayAt? T = some x) :
    ∃ s n m outer m₁, Trail config start (⟨.stmt s, n, m⟩ :: outer) ∧ s.strayAt? outer = some x ∧
      execute config n s m = .ok flow m₁ := by
  rcases flows.step stray with ⟨s, n, m, rfl, hs⟩ | ⟨vs, q, m₁, starts, hq, stray'⟩
  · exact ⟨s, n, m, T, m', trail, hs, flows⟩
  · exact (trail.part starts).origin hq stray'
termination_by (p.fuel, p.task.size)
decreasing_by
  rw [Prod.lex_def]
  exact starts.smaller

end Scripting
