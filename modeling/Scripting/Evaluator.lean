import Scripting.Host
import Scripting.Value.Operators

/-!
# Running programs

* `Flow` : how a statement ends;
* `evaluate`, `execute`, `invoke` : expressions, statements and calls, as deep as the fuel allows;
* `runAll`, `repeatWhile` : statements in order, and loops;
* `runProgram` : the statements of a program, then a flush of the output.

Fuel bounds how deep evaluation goes and how often a loop turns. A run that does not run out of it
gives the same with any more.
-/

namespace Scripting

set_option autoImplicit false

/-- More fuel than a run can use up before its time is over. -/
def ampleFuel : Nat := 4611686018427420672

/-- How a statement ends: at its end, or at a word that leaves a loop, a turn of it, or a function.
-/
inductive Flow
  | normal
  | breaking (keyword : Token)
  | continuing (keyword : Token)
  | returning (keyword : Token) (value : Value)

/-! ## Stacks -/

/-- Runs a computation on a stack of its own. -/
def Eval.onOwnStack {α : Type} (act : Eval α) : Eval α := fun m =>
  (Task.spawn (fun _ => act m) .dedicated).get

/-- Runs a computation that lies deep in others, now and then on a stack of its own. -/
def Eval.paced {α : Type} (fuel : Nat) (act : Eval α) : Eval α :=
  if fuel % 65536 = 0 then act.onOwnStack else act

@[simp] theorem Eval.paced_eq {α : Type} (fuel : Nat) (act : Eval α) : act.paced fuel = act := by
  unfold paced
  split <;> rfl

/-! ## Statements in order, and loops -/

/-- Runs statements in order, up to the first that does not end normally. -/
def runAll (run : Stmt → Eval Flow) : List Stmt → Eval Flow
  | [] => pure .normal
  | s :: rest => do
    match ← run s with
    | .normal => runAll run rest
    | flow => pure flow

/-- Runs `body` as long as `condition` is true, at most as often as the fuel says. -/
def repeatWhile (condition : Eval Value) (body : Eval Flow) : (fuel : Nat) → Eval Flow
  | 0 => throw .outOfFuel
  | fuel + 1 => do
    let v ← condition
    if v.isTruthy then
      match ← body with
      | .normal | .continuing _ => repeatWhile condition body fuel
      | .breaking _ => pure .normal
      | .returning keyword value => pure (.returning keyword value)
    else pure .normal

/-- The value that the body of a function gives. -/
def Flow.result : Flow → Eval Value
  | normal => pure .null
  | returning _ value => pure value
  | breaking keyword => Eval.faultAt keyword .strayBreak
  | continuing keyword => Eval.faultAt keyword .strayContinue

/-! ## Calls -/

/-- The frame of a call: the parameters with the arguments, as many as there are of both. -/
def callFrame (parameters : List String) (arguments : List Value) : Frame :=
  (parameters.zip arguments).foldl (fun f (name, v) => f.define name v) .empty

/-- Whether one call more may be in progress. -/
def Config.allowsCall (config : Config) (callDepth : Nat) : Bool :=
  match config.callLimit with
  | some limit => callDepth < limit
  | none => true

/-- Checks that `f` can be called with these arguments now; `paren` is where the call is at fault.
-/
def checkCall (config : Config) (paren : Token) (f : Value) (arguments : List Value) :
    Eval Callable := do
  match f.callable? with
  | none => Eval.faultAt paren .notCallable
  | some callee =>
    if callee.arity.accepts arguments.length then
      if config.allowsCall (← get).callDepth then pure callee
      else Eval.faultAt paren .stackOverflow
    else Eval.faultAt paren (.wrongArgumentCount callee.arity.text arguments.length)

/-- Tells that a function is called, if calls are told. -/
def tellCall (config : Config) (f : Closure) (scope : Scope) : Eval Unit :=
  if config.tellsCalls then Eval.tell (.calling (f.name.getD "<anon>") scope.depth) else pure ()

/-! ## Evaluation -/

mutual

/-- The value of an expression. -/
def evaluate (config : Config) : (fuel : Nat) → Expr → Eval Value
  | 0, _ => throw .outOfFuel
  | fuel + 1, e => Eval.paced fuel <|
    match e with
    | .literal _ value => pure (.ofLiteral value)
    | .read name => Eval.readName name
    | .group _ inner => evaluate config fuel inner
    | .unary _ op mark operand => do
      let v ← evaluate config fuel operand
      Eval.liftAt mark (op.apply v)
    | .binary _ op mark left right => do
      let l ← evaluate config fuel left
      let r ← evaluate config fuel right
      Eval.liftAt mark (op.apply l r)
    | .logical _ op _ left right => do
      let l ← evaluate config fuel left
      if op.decides l then pure l else evaluate config fuel right
    | .assign _ name value => do
      let v ← evaluate config fuel value
      Eval.writeName name v
      pure v
    | .call _ paren callee arguments => do
      let f ← evaluate config fuel callee
      let values ← arguments.mapM (evaluate config fuel)
      let callee ← checkCall config paren f values
      Eval.counted (invoke config fuel callee values)
    | .function _ parameters body => Eval.makeFunction none parameters body

/-- Runs a statement. -/
def execute (config : Config) : (fuel : Nat) → Stmt → Eval Flow
  | 0, _ => throw .outOfFuel
  | fuel + 1, s => Eval.paced fuel <|
    match s with
    | .block _ body => do
      let scope ← Eval.newScope (← get).scope .empty
      Eval.within scope (runAll (execute config fuel) body)
    | .expression _ value => do
      let _ ← evaluate config fuel value
      pure .normal
    | .function _ name parameters body => do
      let f ← Eval.makeFunction (some name.lexeme) parameters body
      Eval.defineName name.lexeme f
      pure .normal
    | .branch _ condition whenTrue whenFalse => do
      let v ← evaluate config fuel condition
      if v.isTruthy then execute config fuel whenTrue
      else
        match whenFalse with
        | some whenFalse => execute config fuel whenFalse
        | none => pure .normal
    | .loop _ condition body =>
      repeatWhile (evaluate config fuel condition) (execute config fuel body) fuel
    | .leave _ keyword value => do
      match value with
      | some value =>
        let v ← evaluate config fuel value
        pure (.returning keyword v)
      | none => pure (.returning keyword .null)
    | .define _ name initial => do
      match initial with
      | some initial =>
        let v ← evaluate config fuel initial
        Eval.defineName name.lexeme v
        pure .normal
      | none =>
        Eval.defineName name.lexeme .null
        pure .normal
    | .breakLoop _ keyword => pure (.breaking keyword)
    | .continueLoop _ keyword => pure (.continuing keyword)

/-- Calls a callable with just these arguments. Parameters without an argument stay unbound, and
arguments without a parameter are dropped. -/
def invoke (config : Config) : (fuel : Nat) → Callable → List Value → Eval Value
  | 0, _, _ => throw .outOfFuel
  | fuel + 1, callee, arguments => Eval.paced fuel <|
    match callee with
    | .script _ f => do
      let scope ← Eval.newScope f.scope (callFrame f.parameters arguments)
      tellCall config f scope
      let flow ← Eval.within scope (runAll (execute config fuel) f.body)
      flow.result
    | .native _ f =>
      match config.host f arguments with
      | .value v => pure v
      | .fault d => throw (.fault d)
      | .ioFault fault => throw (.io fault)
      | .write text result => do
        Eval.write text
        pure result
      | .call callee arguments => invoke config fuel callee arguments
      | .readClock => do
        let n ← Eval.newReading
        pure (.float (config.clock n))

end

/-- Runs the statements of a program in order, then flushes the output. A word that leaves a loop or
a function has nothing to leave here. -/
def runProgram (config : Config) (fuel : Nat) : List Stmt → Eval Unit
  | [] => Eval.flush
  | s :: rest => do
    match ← execute config fuel s with
    | .normal => runProgram config fuel rest
    | .breaking keyword => Eval.faultAt keyword .strayBreak
    | .continuing keyword => Eval.faultAt keyword .strayContinue
    | .returning keyword _ => Eval.faultAt keyword .strayReturn

end Scripting
