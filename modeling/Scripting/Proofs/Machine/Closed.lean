import Scripting.Proofs.Machine.Equations

/-!
# Properties of all evaluations

* `Eval.Closed config P` : the property `P` of computations holds of each operation on machines, and
  of what is composed of computations with the property;
* `Closed.evaluations`, `Closed.runProgram` : so it holds of the evaluation of every expression,
  statement, call and program.

The machine is read as a whole only where a block makes its scope and where a call is checked. Both
count as operations, since what they read of it is not the same in all the machines that a property
may compare.
-/

namespace Scripting

set_option autoImplicit false

open Eval

/-- Makes the scope of a block. -/
def Eval.enterBlock : Eval Scope := do Eval.newScope (← get).scope .empty

theorem execute_block (config : Config) (fuel : Nat) (span : Span) (body : List Stmt) :
    execute config (fuel + 1) (.block span body) = (do
      let scope ← enterBlock
      within scope (runAll (execute config fuel) body)) := by
  rw [execute, paced_eq, enterBlock]
  simp only [bind_assoc]

/-- The property holds of each operation on machines, and of what is composed of computations with
the property. -/
structure Eval.Closed (config : Config) (P : (α : Type) → Eval α → Prop) : Prop where
  pure : ∀ {α : Type} (a : α), P α (pure a)
  throw : ∀ {α : Type} (halt : Halt), P α (throw halt)
  bind : ∀ {α β : Type} {act : Eval α} {next : α → Eval β}, P α act → (∀ a, P β (next a)) →
    P β (act >>= next)
  within : ∀ {α : Type} {act : Eval α} (scope : Scope), P α act → P α (within scope act)
  counted : ∀ {α : Type} {act : Eval α}, P α act → P α (counted act)
  readName : ∀ t, P Value (readName t)
  writeName : ∀ t v, P Unit (writeName t v)
  defineName : ∀ name v, P Unit (defineName name v)
  makeFunction : ∀ name parameters body, P Value (makeFunction name parameters body)
  newScope : ∀ outer frame, P Scope (newScope outer frame)
  enterBlock : P Scope enterBlock
  checkCall : ∀ paren f vs, P Callable (checkCall config paren f vs)
  write : ∀ text, P Unit (write text)
  flush : P Unit flush
  tell : ∀ e, P Unit (tell e)
  newReading : P Nat newReading

/-- The property holds of evaluations with the same fuel, of expressions, statements and calls. -/
structure HoldsAt (config : Config) (P : (α : Type) → Eval α → Prop) (fuel : Nat) : Prop where
  evaluate : ∀ e, P Value (evaluate config fuel e)
  execute : ∀ s, P Flow (execute config fuel s)
  invoke : ∀ callee vs, P Value (invoke config fuel callee vs)

namespace Eval.Closed

variable {config : Config} {P : (α : Type) → Eval α → Prop} (closed : Closed config P)

include closed

theorem liftAt {α : Type} (t : Token) (r : Except RuntimeFault α) : P α (liftAt t r) := by
  cases r with
  | ok a => exact closed.pure a
  | error cause => exact closed.throw _

theorem mapM {α β : Type} {f : α → Eval β} (h : ∀ a, P β (f a)) (as : List α) :
    P (List β) (as.mapM f) := by
  induction as with
  | nil => exact closed.pure []
  | cons a as ih =>
    rw [List.mapM_cons]
    exact closed.bind (h a) fun b => closed.bind ih fun bs => closed.pure (b :: bs)

theorem runAll {run : Stmt → Eval Flow} (h : ∀ s, P Flow (run s)) (ss : List Stmt) :
    P Flow (runAll run ss) := by
  induction ss with
  | nil => exact closed.pure _
  | cons s ss ih =>
    refine closed.bind (h s) fun flow => ?_
    cases flow with
    | normal => exact ih
    | breaking | continuing | returning => exact closed.pure _

theorem repeatWhile {condition : Eval Value} {body : Eval Flow} (hcondition : P Value condition)
    (hbody : P Flow body) (count : Nat) : P Flow (repeatWhile condition body count) := by
  induction count with
  | zero => exact closed.throw _
  | succ count ih =>
    refine closed.bind hcondition fun v => ?_
    split
    · refine closed.bind hbody fun flow => ?_
      cases flow with
      | normal | continuing => exact ih
      | breaking | returning => exact closed.pure _
    · exact closed.pure _

theorem result (flow : Flow) : P Value flow.result := by
  cases flow with
  | normal | returning => exact closed.pure _
  | breaking | continuing => exact closed.throw _

theorem tellCall (f : Closure) (scope : Scope) : P Unit (tellCall config f scope) := by
  unfold Scripting.tellCall
  split
  · exact closed.tell _
  · exact closed.pure _

variable {fuel : Nat} (h : HoldsAt config P fuel)

include h

theorem evaluateOption (e : Option Expr) : P Value (evaluateOption config fuel e) := by
  cases e with
  | some e => exact h.evaluate e
  | none => exact closed.pure _

theorem executeOption (s : Option Stmt) : P Flow (executeOption config fuel s) := by
  cases s with
  | some s => exact h.execute s
  | none => exact closed.pure _

theorem evaluate (e : Expr) : P Value (evaluate config (fuel + 1) e) := by
  cases e <;> rw [Scripting.evaluate, paced_eq]
  case literal => exact closed.pure _
  case group => exact h.evaluate _
  case read name => exact closed.readName name
  case unary => exact closed.bind (h.evaluate _) fun _ => closed.liftAt _ _
  case binary =>
    refine closed.bind (h.evaluate _) fun l => ?_
    exact closed.bind (h.evaluate _) fun r => closed.liftAt _ _
  case logical =>
    refine closed.bind (h.evaluate _) fun l => ?_
    split
    · exact closed.pure _
    · exact h.evaluate _
  case assign =>
    refine closed.bind (h.evaluate _) fun v => ?_
    exact closed.bind (closed.writeName _ v) fun _ => closed.pure _
  case call _ paren callee arguments =>
    refine closed.bind (h.evaluate callee) fun f => ?_
    refine closed.bind (closed.mapM h.evaluate arguments) fun vs => ?_
    exact closed.bind (closed.checkCall paren f vs) fun c => closed.counted (h.invoke c vs)
  case function => exact closed.makeFunction _ _ _

theorem execute (s : Stmt) : P Flow (execute config (fuel + 1) s) := by
  cases s
  case block _ body =>
    rw [execute_block]
    exact closed.bind closed.enterBlock fun scope => closed.within _ (closed.runAll h.execute body)
  case expression =>
    rw [Scripting.execute, paced_eq]
    exact closed.bind (h.evaluate _) fun _ => closed.pure _
  case function =>
    rw [Scripting.execute, paced_eq]
    refine closed.bind (closed.makeFunction _ _ _) fun f => ?_
    exact closed.bind (closed.defineName _ f) fun _ => closed.pure _
  case branch _ condition whenTrue whenFalse =>
    rw [execute_branch]
    refine closed.bind (h.evaluate condition) fun v => ?_
    split
    · exact h.execute whenTrue
    · exact closed.executeOption h whenFalse
  case loop =>
    rw [Scripting.execute, paced_eq]
    exact closed.repeatWhile (h.evaluate _) (h.execute _) fuel
  case leave _ _ value =>
    rw [execute_leave]
    exact closed.bind (closed.evaluateOption h value) fun _ => closed.pure _
  case define _ name initial =>
    rw [execute_define]
    refine closed.bind (closed.evaluateOption h initial) fun v => ?_
    exact closed.bind (closed.defineName _ v) fun _ => closed.pure _
  case breakLoop | continueLoop =>
    rw [Scripting.execute, paced_eq]
    exact closed.pure _

theorem invoke (callee : Callable) (vs : List Value) :
    P Value (invoke config (fuel + 1) callee vs) := by
  cases callee <;> rw [Scripting.invoke, paced_eq]
  case script _ f =>
    refine closed.bind (closed.newScope _ _) fun scope => ?_
    refine closed.bind (closed.tellCall f scope) fun _ => ?_
    exact closed.bind (closed.within _ (closed.runAll h.execute f.body)) fun flow =>
      closed.result flow
  case native _ f =>
    cases haction : config.host f vs with
    | value v => exact closed.pure _
    | fault d => exact closed.throw _
    | ioFault fault => exact closed.throw _
    | write text result => exact closed.bind (closed.write text) fun _ => closed.pure _
    | call callee vs => exact h.invoke callee vs
    | readClock => exact closed.bind closed.newReading fun _ => closed.pure _

omit h

/-- A property that is closed holds of every evaluation, however deep it may go. -/
theorem evaluations (fuel : Nat) : HoldsAt config P fuel := by
  induction fuel with
  | zero => exact ⟨fun _ => closed.throw _, fun _ => closed.throw _, fun _ _ => closed.throw _⟩
  | succ fuel ih => exact ⟨closed.evaluate ih, closed.execute ih, closed.invoke ih⟩

theorem runProgram (fuel : Nat) (ss : List Stmt) : P Unit (runProgram config fuel ss) := by
  induction ss with
  | nil => exact closed.flush
  | cons s ss ih =>
    refine closed.bind ((closed.evaluations fuel).execute s) fun flow => ?_
    cases flow with
    | normal => exact ih
    | breaking | continuing | returning => exact closed.throw _

end Eval.Closed

end Scripting
