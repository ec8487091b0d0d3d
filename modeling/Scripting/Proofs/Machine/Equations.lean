import Scripting.Evaluator

/-!
# Equations of evaluation

* `Store.frame_define_of_ne`, `Store.frame_of_size_le` : frames that a definition does not touch;
* `Store.lookup?_eq` : the value of a name as that in the frame that binds it;
* `Eval.bind_apply`, `Eval.bind_of_ok`, `Eval.bind_eq_ok`, and so on : what a computation followed
  by another does;
* `Eval.within_ok`, `Eval.within_eq_ok`, and so on : what one in another scope does, or one as a
  call more in progress;
* `callFrame_eq` : the frame of a call, as names bound one after the other;
* `evaluateOption`, `executeOption` : expressions and statements that may be missing;
* `execute_branch`, `execute_leave`, `execute_define` : the statements that have such parts;
* `enterCall`, `invoke_script` : the scope of a call, and the call of a function of the program;
* `checkCall_of_accepts`, `checkCall_spec` : what can be called, and what is told otherwise.
-/

namespace Scripting

set_option autoImplicit false

namespace Store

theorem frame_define_of_ne (s : Store) {i id : FrameId} (h : id ≠ i) (name : String)
    (value : Value) : (s.define i name value).frame id = s.frame id := by
  simp only [frame, define, Array.getD_eq_getD_getElem?, Array.getElem?_modify, if_neg (Ne.symm h)]

theorem frame_of_size_le (s : Store) {id : FrameId} (h : s.size ≤ id) : s.frame id = .empty := by
  unfold frame
  rw [Array.getD_eq_getD_getElem?, Array.getElem?_eq_none h, Option.getD_none]

/-- The value of a name is the one in the frame that is found for it. -/
theorem lookup?_eq (s : Store) (scope : Scope) (name : String) : s.lookup? scope name =
    (s.binder? scope.chain name).bind fun id => (s.frame id).lookup? name := by
  unfold lookup? binder?
  induction scope.chain with
  | nil => rfl
  | cons id ids ih =>
    rw [List.findSome?_cons, List.find?_cons, Frame.binds, ih]
    cases hlookup : (s.frame id).lookup? name with
    | some v => exact hlookup.symm
    | none => rfl

end Store

namespace Eval

variable {α β : Type}

theorem bind_apply (act : Eval α) (next : α → Eval β) (m : Machine) :
    (act >>= next) m =
      match act m with
      | .ok a m' => next a m'
      | .error h m' => .error h m' := by
  show EStateM.bind act next m = _
  unfold EStateM.bind
  cases act m <;> rfl

theorem bind_of_ok {act : Eval α} {m m' : Machine} {a : α} (hact : act m = .ok a m')
    {next : α → Eval β} : (act >>= next) m = next a m' := by
  rw [bind_apply, hact]

theorem bind_of_error {act : Eval α} {m m' : Machine} {h : Halt} (hact : act m = .error h m')
    {next : α → Eval β} : (act >>= next) m = .error h m' := by
  rw [bind_apply, hact]

theorem bind_eq_ok {act : Eval α} {next : α → Eval β} {m m' : Machine} {b : β} :
    (act >>= next) m = .ok b m' ↔ ∃ a m₁, act m = .ok a m₁ ∧ next a m₁ = .ok b m' := by
  rw [bind_apply]
  cases act m with
  | ok a m₁ =>
    constructor
    · exact fun hnext => ⟨a, m₁, rfl, hnext⟩
    · rintro ⟨_, _, ⟨⟩, hnext⟩
      exact hnext
  | error h m₁ => simp

theorem bind_eq_error {act : Eval α} {next : α → Eval β} {m m' : Machine} {h : Halt} :
    (act >>= next) m = .error h m' ↔
      act m = .error h m' ∨ ∃ a m₁, act m = .ok a m₁ ∧ next a m₁ = .error h m' := by
  rw [bind_apply]
  cases act m with
  | ok a m₁ =>
    constructor
    · exact fun hnext => .inr ⟨a, m₁, rfl, hnext⟩
    · rintro (⟨⟨⟩⟩ | ⟨_, _, ⟨⟩, hnext⟩)
      exact hnext
  | error h m₁ => simp

theorem within_eq_error {scope : Scope} {act : Eval α} {m m' : Machine} {h : Halt}
    (hact : within scope act m = .error h m') : ∃ m₁, act { m with scope } = .error h m₁ := by
  unfold within at hact
  revert hact
  cases act { m with scope } with
  | ok a m₁ => exact nofun
  | error e m₁ =>
    rintro ⟨⟩
    exact ⟨m₁, rfl⟩

theorem within_eq_ok {scope : Scope} {act : Eval α} {m m' : Machine} {a : α}
    (hact : within scope act m = .ok a m') : ∃ m₁, act { m with scope } = .ok a m₁ := by
  unfold within at hact
  revert hact
  cases act { m with scope } with
  | ok a m₁ =>
    rintro ⟨⟩
    exact ⟨m₁, rfl⟩
  | error e m₁ => exact nofun

theorem within_error {scope : Scope} {act : Eval α} {m m' : Machine} {h : Halt}
    (hact : act { m with scope } = .error h m') :
    within scope act m = .error h { m' with scope := m.scope } := by
  unfold within
  rw [hact]

theorem within_ok {scope : Scope} {act : Eval α} {m m' : Machine} {a : α}
    (hact : act { m with scope } = .ok a m') :
    within scope act m = .ok a { m' with scope := m.scope } := by
  unfold within
  rw [hact]

theorem counted_ok {act : Eval α} {m m' : Machine} {a : α}
    (hact : act { m with callDepth := m.callDepth + 1 } = .ok a m') :
    counted act m = .ok a { m' with callDepth := m'.callDepth - 1 } := by
  unfold counted
  rw [hact]

theorem counted_error {act : Eval α} {m m' : Machine} {h : Halt}
    (hact : act { m with callDepth := m.callDepth + 1 } = .error h m') :
    counted act m = .error h { m' with callDepth := m'.callDepth - 1 } := by
  unfold counted
  rw [hact]

theorem counted_eq_error {act : Eval α} {m m' : Machine} {h : Halt}
    (hact : counted act m = .error h m') :
    ∃ m₁, act { m with callDepth := m.callDepth + 1 } = .error h m₁ := by
  unfold counted at hact
  revert hact
  cases act { m with callDepth := m.callDepth + 1 } with
  | ok a m₁ => exact nofun
  | error e m₁ =>
    rintro ⟨⟩
    exact ⟨m₁, rfl⟩

end Eval

/-- The frame with further names bound, one after the other. -/
def Frame.defineAll (f : Frame) (bs : List (String × Value)) : Frame :=
  bs.foldl (fun f b => f.define b.1 b.2) f

theorem callFrame_eq (parameters : List String) (arguments : List Value) :
    callFrame parameters arguments = Frame.empty.defineAll (parameters.zip arguments) := rfl

section

variable (config : Config) (fuel : Nat) (span : Span)

/-- The value of an expression that may be missing. -/
def evaluateOption : Option Expr → Eval Value
  | some e => evaluate config fuel e
  | none => pure .null

/-- Runs a statement that may be missing. -/
def executeOption : Option Stmt → Eval Flow
  | some s => execute config fuel s
  | none => pure .normal

theorem execute_branch (condition : Expr) (whenTrue : Stmt) (whenFalse : Option Stmt) :
    execute config (fuel + 1) (.branch span condition whenTrue whenFalse) = (do
      let v ← evaluate config fuel condition
      if v.isTruthy then execute config fuel whenTrue
      else executeOption config fuel whenFalse) := by
  cases whenFalse <;> rw [execute, Eval.paced_eq] <;> rfl

theorem execute_leave (keyword : Token) (value : Option Expr) :
    execute config (fuel + 1) (.leave span keyword value) = (do
      let v ← evaluateOption config fuel value
      pure (.returning keyword v)) := by
  cases value <;> rw [execute, Eval.paced_eq] <;> rfl

theorem execute_define (name : Token) (initial : Option Expr) :
    execute config (fuel + 1) (.define span name initial) = (do
      let v ← evaluateOption config fuel initial
      Eval.defineName name.lexeme v
      pure .normal) := by
  cases initial <;> rw [execute, Eval.paced_eq] <;> rfl

/-- Makes the scope of a call, and tells that the function is called. -/
def enterCall (f : Closure) (arguments : List Value) : Eval Scope := do
  let scope ← Eval.newScope f.scope (callFrame f.parameters arguments)
  tellCall config f scope
  pure scope

theorem invoke_script (identity : Nat) (f : Closure) (arguments : List Value) :
    invoke config (fuel + 1) (.script identity f) arguments = (do
      let scope ← enterCall config f arguments
      let flow ← Eval.within scope (runAll (execute config fuel) f.body)
      flow.result) := by
  rw [invoke, Eval.paced_eq, enterCall]
  simp only [bind_assoc, pure_bind]

/-- Entering a call adds its frame, and perhaps an event. -/
theorem enterCall_eq (f : Closure) (arguments : List Value) (m : Machine) :
    ∃ log, enterCall config f arguments m = .ok (f.scope.enter m.store.size)
      { m with store := m.store.add (callFrame f.parameters arguments), log } := by
  unfold enterCall tellCall
  cases config.tellsCalls
  · exact ⟨_, rfl⟩
  · exact ⟨_, rfl⟩

end

section

variable (config : Config) (paren : Token) {f : Value} {arguments : List Value}

/-- A value that can be called with so many arguments is called if one call more is allowed. -/
theorem checkCall_of_accepts {c : Callable} (hcallable : f.callable? = some c)
    (harity : c.arity.accepts arguments.length = true) (m : Machine) :
    checkCall config paren f arguments m =
      if config.allowsCall m.callDepth then .ok c m
      else .error (.fault (.atToken (.runtime .stackOverflow) paren)) m := by
  unfold checkCall
  rw [hcallable]
  simp only [if_pos harity, Eval.bind_apply]
  cases hroom : config.allowsCall m.callDepth with
  | true => exact congrFun (if_pos hroom) m
  | false => exact congrFun (if_neg (hroom ▸ Bool.false_ne_true)) m

variable (f arguments) in
/-- There is no other fault for such a value, and another one for any other. -/
theorem checkCall_spec (m : Machine) :
    (∃ c, f.callable? = some c ∧ c.arity.accepts arguments.length = true) ∨
      ∃ cause ≠ RuntimeFault.stackOverflow, checkCall config paren f arguments m =
        .error (.fault (.atToken (.runtime cause) paren)) m := by
  cases hcallable : f.callable? with
  | none =>
    refine .inr ⟨.notCallable, nofun, ?_⟩
    rw [checkCall, hcallable]
    rfl
  | some c =>
    by_cases harity : c.arity.accepts arguments.length = true
    · exact .inl ⟨c, rfl, harity⟩
    · refine .inr ⟨.wrongArgumentCount c.arity.text arguments.length, nofun, ?_⟩
      rw [checkCall, hcallable]
      simp only [if_neg harity]
      rfl

end

end Scripting
