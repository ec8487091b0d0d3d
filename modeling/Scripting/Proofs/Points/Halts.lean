import Scripting.Proofs.Points.Basic

/-!
# Where halts come from

* `Raises config p h` : evaluating `p` halts with `h`, and not because a part of it does;
* `Halts.step` : a halt is raised by a point itself, or it is that of a part;
* `Halts.origin` : every halt is raised at a point that is reached.

So nothing that can halt is missing among the points that are reached.
-/

namespace Scripting

set_option autoImplicit false

open Eval

variable (config : Config)

/-- Evaluating a point halts, though all that it starts comes to its end. -/
inductive Raises : Point → Halt → Prop
  | expr {e : Expr} {m : Machine} : Raises ⟨.expr e, 0, m⟩ .outOfFuel
  | stmt {s : Stmt} {m : Machine} : Raises ⟨.stmt s, 0, m⟩ .outOfFuel
  | call {c : Callable} {vs : List Value} {m : Machine} : Raises ⟨.call c vs, 0, m⟩ .outOfFuel
  | turns {condition : Expr} {body : Stmt} {n : Nat} {m : Machine} :
      Raises ⟨.turns 0 condition body, n, m⟩ .outOfFuel
  | read {name : Token} {n : Nat} {m : Machine} {d : Diagnostic}
      (hread : m.store.read m.scope name = .error d) :
      Raises ⟨.expr (.read name), n + 1, m⟩ (.fault d)
  | write {span : Span} {name : Token} {value : Expr} {n : Nat} {m m' : Machine} {v : Value}
      {d : Diagnostic} (hvalue : evaluate config n value m = .ok v m')
      (hlocate : m'.store.locate m'.scope name = .error d) :
      Raises ⟨.expr (.assign span name value), n + 1, m⟩ (.fault d)
  | unary {span : Span} {op : UnaryOp} {mark : Token} {operand : Expr} {n : Nat} {m m' : Machine}
      {v : Value} {cause : RuntimeFault} (hoperand : evaluate config n operand m = .ok v m')
      (happly : op.apply v = .error cause) :
      Raises ⟨.expr (.unary span op mark operand), n + 1, m⟩
        (.fault (.atToken (.runtime cause) mark))
  | binary {span : Span} {op : BinaryOp} {mark : Token} {left right : Expr} {n : Nat}
      {m m₁ m₂ : Machine} {l r : Value} {cause : RuntimeFault}
      (hleft : evaluate config n left m = .ok l m₁) (hright : evaluate config n right m₁ = .ok r m₂)
      (happly : op.apply l r = .error cause) :
      Raises ⟨.expr (.binary span op mark left right), n + 1, m⟩
        (.fault (.atToken (.runtime cause) mark))
  | check {span : Span} {paren : Token} {callee : Expr} {arguments : List Expr} {n : Nat}
      {m m₁ m₂ m₃ : Machine} {f : Value} {vs : List Value} {h : Halt}
      (hcallee : evaluate config n callee m = .ok f m₁)
      (harguments : arguments.mapM (evaluate config n) m₁ = .ok vs m₂)
      (hcheck : checkCall config paren f vs m₂ = .error h m₃) :
      Raises ⟨.expr (.call span paren callee arguments), n + 1, m⟩ h
  | result {identity : Nat} {f : Closure} {vs : List Value} {n : Nat} {m m₁ m₂ m₃ : Machine}
      {scope : Scope} {flow : Flow} {h : Halt} (hscope : enterCall config f vs m = .ok scope m₁)
      (hbody : within scope (runAll (execute config n) f.body) m₁ = .ok flow m₂)
      (hresult : flow.result m₂ = .error h m₃) : Raises ⟨.call (.script identity f) vs, n + 1, m⟩ h
  | hostFault {identity : Nat} {f : Native} {vs : List Value} {n : Nat} {m : Machine}
      {d : Diagnostic} (haction : config.host f vs = .fault d) :
      Raises ⟨.call (.native identity f) vs, n + 1, m⟩ (.fault d)
  | hostIo {identity : Nat} {f : Native} {vs : List Value} {n : Nat} {m : Machine}
      {fault : IoFault} (haction : config.host f vs = .ioFault fault) :
      Raises ⟨.call (.native identity f) vs, n + 1, m⟩ (.io fault)
  | refused {identity : Nat} {f : Native} {vs : List Value} {n : Nat} {m : Machine} {text : String}
      {v : Value} {fault : IoFault} (haction : config.host f vs = .write text v)
      (hrefusal : m.sink.refusal? text.toUTF8 = some fault) :
      Raises ⟨.call (.native identity f) vs, n + 1, m⟩ (.io fault)
  | strayBreak {s : Stmt} {ss : List Stmt} {n : Nat} {m m' : Machine} {keyword : Token}
      (hfirst : execute config n s m = .ok (.breaking keyword) m') :
      Raises ⟨.program (s :: ss), n, m⟩ (.fault (.atToken (.runtime .strayBreak) keyword))
  | strayContinue {s : Stmt} {ss : List Stmt} {n : Nat} {m m' : Machine} {keyword : Token}
      (hfirst : execute config n s m = .ok (.continuing keyword) m') :
      Raises ⟨.program (s :: ss), n, m⟩ (.fault (.atToken (.runtime .strayContinue) keyword))
  | strayReturn {s : Stmt} {ss : List Stmt} {n : Nat} {m m' : Machine} {keyword : Token} {v : Value}
      (hfirst : execute config n s m = .ok (.returning keyword v) m') :
      Raises ⟨.program (s :: ss), n, m⟩ (.fault (.atToken (.runtime .strayReturn) keyword))
  | unflushed {n : Nat} {m : Machine} {fault : IoFault} (hflush : m.sink.flush = some fault) :
      Raises ⟨.program [], n, m⟩ (.io fault)

variable {config} {h : Halt} {n : Nat} {m m' : Machine}

/-! ## Where halts come from -/

theorem liftAt_eq_error {t : Token} {r : Except RuntimeFault Value}
    (hlift : liftAt t r m = .error h m') :
    ∃ cause, r = .error cause ∧ h = .fault (.atToken (.runtime cause) t) := by
  cases r with
  | ok v => cases hlift
  | error cause =>
    cases hlift
    exact ⟨cause, rfl, rfl⟩

theorem readName_eq_error {t : Token} (hread : readName t m = .error h m') :
    ∃ d, m.store.read m.scope t = .error d ∧ h = .fault d := by
  unfold readName at hread
  split at hread
  · cases hread
  · rename_i d hd
    cases hread
    exact ⟨d, hd, rfl⟩

theorem writeName_eq_error {t : Token} {v : Value} (hwrite : writeName t v m = .error h m') :
    ∃ d, m.store.locate m.scope t = .error d ∧ h = .fault d := by
  unfold writeName at hwrite
  split at hwrite
  · cases hwrite
  · rename_i d hd
    cases hwrite
    exact ⟨d, hd, rfl⟩

namespace Halts

/-- What a part halts with, or what the expression itself does. -/
theorem step_expr {e : Expr} (halts : Halts config ⟨.expr e, n, m⟩ h) :
    Raises config ⟨.expr e, n, m⟩ h ∨
      ∃ vs q, Starts config ⟨.expr e, n, m⟩ vs q ∧ Halts config q h := by
  obtain ⟨m', halts⟩ := halts
  change evaluate config n e m = .error h m' at halts
  cases n with
  | zero =>
    rw [evaluate] at halts
    cases halts
    exact .inl .expr
  | succ n =>
    cases e <;> rw [evaluate, paced_eq] at halts
    case literal => cases halts
    case read name =>
      obtain ⟨d, hd, rfl⟩ := readName_eq_error halts
      exact .inl (.read hd)
    case group => exact .inr ⟨_, _, .group, m', halts⟩
    case unary =>
      rcases bind_eq_error.1 halts with halts | ⟨v, m₁, hv, halts⟩
      · exact .inr ⟨_, _, .operand, m', halts⟩
      · obtain ⟨cause, hcause, rfl⟩ := liftAt_eq_error halts
        exact .inl (.unary hv hcause)
    case binary =>
      rcases bind_eq_error.1 halts with halts | ⟨l, m₁, hl, halts⟩
      · exact .inr ⟨_, _, .left, m', halts⟩
      · rcases bind_eq_error.1 halts with halts | ⟨r, m₂, hr, halts⟩
        · exact .inr ⟨_, _, .right hl, m', halts⟩
        · obtain ⟨cause, hcause, rfl⟩ := liftAt_eq_error halts
          exact .inl (.binary hl hr hcause)
    case logical _ op _ left right =>
      rcases bind_eq_error.1 halts with halts | ⟨l, m₁, hl, halts⟩
      · exact .inr ⟨_, _, .first, m', halts⟩
      · cases hopen : op.decides l with
        | true =>
          rw [hopen] at halts
          cases halts
        | false =>
          rw [hopen] at halts
          exact .inr ⟨_, _, .second hl hopen, m', halts⟩
    case assign =>
      rcases bind_eq_error.1 halts with halts | ⟨v, m₁, hv, halts⟩
      · exact .inr ⟨_, _, .assigned, m', halts⟩
      · rcases bind_eq_error.1 halts with halts | ⟨_, m₂, -, halts⟩
        · obtain ⟨d, hd, rfl⟩ := writeName_eq_error halts
          exact .inl (.write hv hd)
        · cases halts
    case call =>
      rcases bind_eq_error.1 halts with halts | ⟨f, m₁, hf, halts⟩
      · exact .inr ⟨_, _, .callee, m', halts⟩
      · rcases bind_eq_error.1 halts with halts | ⟨vs, m₂, hvs, halts⟩
        · exact .inr ⟨_, _, .arguments hf, m', halts⟩
        · rcases bind_eq_error.1 halts with halts | ⟨c, m₃, hc, halts⟩
          · exact .inl (.check hf hvs halts)
          · exact .inr ⟨_, _, .call hf hvs hc, counted_eq_error halts⟩
    case function => cases halts

theorem step_exprs {es : List Expr} (halts : Halts config ⟨.exprs es, n, m⟩ h) :
    ∃ vs q, Starts config ⟨.exprs es, n, m⟩ vs q ∧ Halts config q h := by
  obtain ⟨m', halts⟩ := halts
  change es.mapM (evaluate config n) m = .error h m' at halts
  cases es with
  | nil => cases halts
  | cons e es =>
    rw [List.mapM_cons] at halts
    rcases bind_eq_error.1 halts with halts | ⟨v, m₁, hv, halts⟩
    · exact ⟨_, _, .firstOf, m', halts⟩
    · rcases bind_eq_error.1 halts with halts | ⟨vs, m₂, -, halts⟩
      · exact ⟨_, _, .othersOf hv, m', halts⟩
      · cases halts

/-- What a part halts with, or that there was no fuel for the statement. -/
theorem step_stmt {s : Stmt} (halts : Halts config ⟨.stmt s, n, m⟩ h) :
    Raises config ⟨.stmt s, n, m⟩ h ∨
      ∃ vs q, Starts config ⟨.stmt s, n, m⟩ vs q ∧ Halts config q h := by
  obtain ⟨m', halts⟩ := halts
  change execute config n s m = .error h m' at halts
  cases n with
  | zero =>
    rw [execute] at halts
    cases halts
    exact .inl .stmt
  | succ n =>
    refine .inr ?_
    cases s
    case block _ body =>
      rw [execute, paced_eq] at halts
      rcases bind_eq_error.1 halts with halts | ⟨m₀, _, hget, halts⟩
      · cases halts
      · cases hget
        rcases bind_eq_error.1 halts with halts | ⟨scope, m₁, hscope, halts⟩
        · cases halts
        · exact ⟨_, _, .block hscope, within_eq_error halts⟩
    case expression =>
      rw [execute, paced_eq] at halts
      rcases bind_eq_error.1 halts with halts | ⟨v, m₁, -, halts⟩
      · exact ⟨_, _, .expression, m', halts⟩
      · cases halts
    case function =>
      rw [execute, paced_eq] at halts
      cases halts
    case branch _ condition whenTrue whenFalse =>
      rw [execute_branch] at halts
      rcases bind_eq_error.1 halts with halts | ⟨v, m₁, hv, halts⟩
      · exact ⟨_, _, .test, m', halts⟩
      · cases htruthy : v.isTruthy with
        | true =>
          rw [htruthy] at halts
          exact ⟨_, _, .whenTrue hv htruthy, m', halts⟩
        | false =>
          rw [htruthy] at halts
          cases whenFalse with
          | none => cases halts
          | some whenFalse => exact ⟨_, _, .whenFalse hv htruthy, m', halts⟩
    case loop =>
      rw [execute, paced_eq] at halts
      exact ⟨_, _, .loop, m', halts⟩
    case leave _ _ value =>
      rw [execute_leave] at halts
      rcases bind_eq_error.1 halts with halts | ⟨v, m₁, -, halts⟩
      · cases value with
        | none => cases halts
        | some value => exact ⟨_, _, .result, m', halts⟩
      · cases halts
    case define _ _ initial =>
      rw [execute_define] at halts
      rcases bind_eq_error.1 halts with halts | ⟨v, m₁, -, halts⟩
      · cases initial with
        | none => cases halts
        | some initial => exact ⟨_, _, .initial, m', halts⟩
      · cases halts
    case breakLoop | continueLoop =>
      rw [execute, paced_eq] at halts
      cases halts

theorem step_stmts {ss : List Stmt} (halts : Halts config ⟨.stmts ss, n, m⟩ h) :
    ∃ vs q, Starts config ⟨.stmts ss, n, m⟩ vs q ∧ Halts config q h := by
  obtain ⟨m', halts⟩ := halts
  change runAll (execute config n) ss m = .error h m' at halts
  cases ss with
  | nil => cases halts
  | cons s ss =>
    rcases bind_eq_error.1 halts with halts | ⟨flow, m₁, hflow, halts⟩
    · exact ⟨_, _, .firstIn, m', halts⟩
    · cases flow with
      | normal => exact ⟨_, _, .othersIn hflow, m', halts⟩
      | breaking | continuing | returning => cases halts

/-- What a part halts with, or that the loop has turned as often as it may. -/
theorem step_turns {count : Nat} {condition : Expr} {body : Stmt}
    (halts : Halts config ⟨.turns count condition body, n, m⟩ h) :
    Raises config ⟨.turns count condition body, n, m⟩ h ∨
      ∃ vs q, Starts config ⟨.turns count condition body, n, m⟩ vs q ∧ Halts config q h := by
  obtain ⟨m', halts⟩ := halts
  change repeatWhile (evaluate config n condition) (execute config n body) count m = .error h m'
    at halts
  cases count with
  | zero =>
    cases halts
    exact .inl .turns
  | succ count =>
    refine .inr ?_
    rcases bind_eq_error.1 halts with halts | ⟨v, m₁, hv, halts⟩
    · exact ⟨_, _, .turnTest, m', halts⟩
    · cases htruthy : v.isTruthy with
      | false =>
        rw [htruthy] at halts
        cases halts
      | true =>
        rw [htruthy] at halts
        rcases bind_eq_error.1 halts with halts | ⟨flow, m₂, hflow, halts⟩
        · exact ⟨_, _, .turnBody hv htruthy, m', halts⟩
        · cases flow with
          | normal => exact ⟨_, _, .nextTurn hv htruthy hflow (.inl rfl), m', halts⟩
          | continuing keyword =>
            exact ⟨_, _, .nextTurn hv htruthy hflow (.inr ⟨keyword, rfl⟩), m', halts⟩
          | breaking | returning => cases halts

/-- What the body of a function halts with, or the call itself does. -/
theorem step_call {c : Callable} {vs : List Value} (halts : Halts config ⟨.call c vs, n, m⟩ h) :
    Raises config ⟨.call c vs, n, m⟩ h ∨
      ∃ ws q, Starts config ⟨.call c vs, n, m⟩ ws q ∧ Halts config q h := by
  obtain ⟨m', halts⟩ := halts
  change invoke config n c vs m = .error h m' at halts
  cases n with
  | zero =>
    rw [invoke] at halts
    cases halts
    exact .inl .call
  | succ n =>
    cases c
    case script _ f =>
      rw [invoke_script] at halts
      rcases bind_eq_error.1 halts with halts | ⟨scope, m₁, hscope, halts⟩
      · obtain ⟨log, hok⟩ := enterCall_eq config f vs m
        rw [hok] at halts
        cases halts
      · rcases bind_eq_error.1 halts with halts | ⟨flow, m₂, hflow, halts⟩
        · exact .inr ⟨_, _, .script hscope, within_eq_error halts⟩
        · exact .inl (.result hscope hflow halts)
    case native _ f =>
      rw [invoke, paced_eq] at halts
      cases haction : config.host f vs <;> rw [haction] at halts
      case value => cases halts
      case fault =>
        cases halts
        exact .inl (.hostFault haction)
      case ioFault =>
        cases halts
        exact .inl (.hostIo haction)
      case write text v =>
        rcases bind_eq_error.1 halts with halts | ⟨_, m₁, -, halts⟩
        · unfold write at halts
          dsimp only at halts
          split at halts
          · cases halts
          · rename_i fault hrefusal
            cases halts
            exact .inl (.refused haction hrefusal)
        · cases halts
      case call => exact .inr ⟨_, _, .hostCall haction, m', halts⟩
      case readClock => cases halts

theorem step_program {ss : List Stmt} (halts : Halts config ⟨.program ss, n, m⟩ h) :
    Raises config ⟨.program ss, n, m⟩ h ∨
      ∃ vs q, Starts config ⟨.program ss, n, m⟩ vs q ∧ Halts config q h := by
  obtain ⟨m', halts⟩ := halts
  change runProgram config n ss m = .error h m' at halts
  cases ss with
  | nil =>
    rw [runProgram, flush] at halts
    split at halts
    · cases halts
    · rename_i fault hflush
      cases halts
      exact .inl (.unflushed hflush)
  | cons s ss =>
    rcases bind_eq_error.1 halts with halts | ⟨flow, m₁, hflow, halts⟩
    · exact .inr ⟨_, _, .firstRun, m', halts⟩
    · cases flow with
      | normal => exact .inr ⟨_, _, .othersRun hflow, m', halts⟩
      | breaking =>
        cases halts
        exact .inl (.strayBreak hflow)
      | continuing =>
        cases halts
        exact .inl (.strayContinue hflow)
      | returning =>
        cases halts
        exact .inl (.strayReturn hflow)

/-- What is halted with is raised by the point itself, or by a part that it starts. -/
theorem step {p : Point} (halts : Halts config p h) :
    Raises config p h ∨ ∃ vs q, Starts config p vs q ∧ Halts config q h := by
  obtain ⟨task, n, m⟩ := p
  cases task with
  | expr => exact halts.step_expr
  | exprs => exact .inr halts.step_exprs
  | stmt => exact halts.step_stmt
  | stmts => exact .inr halts.step_stmts
  | turns => exact halts.step_turns
  | call => exact halts.step_call
  | program => exact halts.step_program

end Halts

/-- Every halt is raised at a point that is reached. -/
theorem Halts.origin {p : Point} (halts : Halts config p h) :
    ∃ vs q, Reaches config p vs q ∧ Raises config q h := by
  rcases halts.step with raises | ⟨vs, q, starts, halts⟩
  · exact ⟨[], p, .refl, raises⟩
  · obtain ⟨ws, r, reaches, raises⟩ := halts.origin
    obtain ⟨ws', reaches⟩ := Reaches.head starts reaches
    exact ⟨ws', r, reaches, raises⟩
termination_by (p.fuel, p.task.size)
decreasing_by
  rw [Prod.lex_def]
  exact starts.smaller

end Scripting
