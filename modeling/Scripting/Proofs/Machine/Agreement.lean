import Scripting.Proofs.Machine.Idle

/-!
# More fuel and more calls

* `Eval.AgreesUnless H` : the second computation does the same as the first one, unless the first
  halts for a reason of the kind `H` (`AgreesUnless.bind` and the like);
* `Config.Widens H` : the second configuration is the same, but may allow more calls;
* `agreeing` : evaluations with more fuel, and with more calls, agree with those with less unless
  these halt for want of them;
* `Interpreter.run_widened` : so it is with runs of texts (`run_of_le`, `run_unlimited`).
-/

namespace Scripting

set_option autoImplicit false

/-- The halt is the fault of a call that is one too many. -/
def Halt.IsOverflow (h : Halt) : Prop := ∃ t, h = .fault (.atToken (.runtime .stackOverflow) t)

namespace Eval

variable {α β : Type} {H : Halt → Prop}

/-- The second computation does the same as the first one, unless that halts for a reason of the
kind `H`. -/
def AgreesUnless (H : Halt → Prop) (act act' : Eval α) : Prop :=
  ∀ m, act' m = act m ∨ ∃ h m', act m = .error h m' ∧ H h

theorem AgreesUnless.refl (act : Eval α) : AgreesUnless H act act := fun _ => .inl rfl

/-- What the first computation gives, the second one gives. -/
theorem AgreesUnless.of_ok {act act' : Eval α} (h : AgreesUnless H act act') {m m' : Machine}
    {a : α} (hact : act m = .ok a m') : act' m = .ok a m' := by
  rcases h m with heq | ⟨halt, m₁, herror, -⟩
  · rw [heq, hact]
  · rw [hact] at herror
    cases herror

/-- A computation that halts for such a reason agrees with any. -/
theorem agreesUnless_throw {h : Halt} (hh : H h) (act : Eval α) :
    AgreesUnless H (throw h) act :=
  fun m => .inr ⟨h, m, rfl, hh⟩

theorem AgreesUnless.bind {act act' : Eval α} {next next' : α → Eval β}
    (h : AgreesUnless H act act') (hnext : ∀ a, AgreesUnless H (next a) (next' a)) :
    AgreesUnless H (act >>= next) (act' >>= next') := by
  intro m
  rw [bind_apply, bind_apply]
  rcases h m with heq | ⟨halt, m', herror, hhalt⟩
  · rw [heq]
    cases act m with
    | ok a m₁ => exact hnext a m₁
    | error e m₁ => exact .inl rfl
  · rw [herror]
    exact .inr ⟨halt, m', rfl, hhalt⟩

theorem AgreesUnless.within {act act' : Eval α} (h : AgreesUnless H act act') (scope : Scope) :
    AgreesUnless H (within scope act) (within scope act') := by
  intro m
  unfold Eval.within
  rcases h { m with scope } with heq | ⟨halt, m', herror, hhalt⟩
  · rw [heq]
    exact .inl rfl
  · rw [herror]
    exact .inr ⟨halt, _, rfl, hhalt⟩

theorem AgreesUnless.counted {act act' : Eval α} (h : AgreesUnless H act act') :
    AgreesUnless H (counted act) (counted act') := by
  intro m
  unfold Eval.counted
  rcases h { m with callDepth := m.callDepth + 1 } with heq | ⟨halt, m', herror, hhalt⟩
  · rw [heq]
    exact .inl rfl
  · rw [herror]
    exact .inr ⟨halt, _, rfl, hhalt⟩

theorem AgreesUnless.mapM {f f' : α → Eval β} (h : ∀ a, AgreesUnless H (f a) (f' a))
    (as : List α) : AgreesUnless H (as.mapM f) (as.mapM f') := by
  induction as with
  | nil => exact .refl _
  | cons a as ih =>
    rw [List.mapM_cons, List.mapM_cons]
    exact (h a).bind fun b => ih.bind fun bs => .refl _

end Eval

open Eval

/-! ## Statements in order, loops and calls -/

section

variable {H : Halt → Prop}

theorem runAll_agrees {run run' : Stmt → Eval Flow} (h : ∀ s, AgreesUnless H (run s) (run' s))
    (ss : List Stmt) : AgreesUnless H (runAll run ss) (runAll run' ss) := by
  induction ss with
  | nil => exact .refl _
  | cons s ss ih =>
    refine (h s).bind fun flow => ?_
    cases flow with
    | normal => exact ih
    | breaking | continuing | returning => exact .refl _

/-- A loop that may turn more often agrees unless it turns too often. -/
theorem repeatWhile_agrees {condition condition' : Eval Value} {body body' : Eval Flow}
    (hcondition : AgreesUnless H condition condition') (hbody : AgreesUnless H body body')
    {count count' : Nat} (hle : count ≤ count') (hfuel : count < count' → H .outOfFuel) :
    AgreesUnless H (repeatWhile condition body count) (repeatWhile condition' body' count') := by
  induction count generalizing count' with
  | zero =>
    rcases Nat.eq_zero_or_pos count' with rfl | hpos
    · exact .refl _
    · exact agreesUnless_throw (hfuel hpos) _
  | succ count ih =>
    obtain ⟨count', rfl⟩ := Nat.exists_eq_add_one_of_ne_zero (Nat.ne_zero_of_lt hle)
    have ih := ih (Nat.le_of_succ_le_succ hle) fun h => hfuel (Nat.succ_lt_succ h)
    refine hcondition.bind fun v => ?_
    split
    · refine hbody.bind fun flow => ?_
      cases flow with
      | normal | continuing => exact ih
      | breaking | returning => exact .refl _
    · exact .refl _

/-- The second configuration is the same, but may allow more calls; want of those is a reason of the
kind `H`. -/
structure Config.Widens (H : Halt → Prop) (config config' : Config) : Prop where
  host : config'.host = config.host
  clock : config'.clock = config.clock
  tellsCalls : config'.tellsCalls = config.tellsCalls
  calls : ∀ depth, config'.allowsCall depth = config.allowsCall depth ∨
    config.allowsCall depth = false ∧ ∀ h : Halt, h.IsOverflow → H h

theorem Config.Widens.refl (H : Halt → Prop) (config : Config) : config.Widens H config :=
  ⟨rfl, rfl, rfl, fun _ => .inl rfl⟩

variable {config config' : Config}

theorem checkCall_agrees (widens : config.Widens H config') (paren : Token) (f : Value)
    (arguments : List Value) :
    AgreesUnless H (checkCall config paren f arguments) (checkCall config' paren f arguments) := by
  unfold checkCall
  split
  · exact .refl _
  · split
    · refine (AgreesUnless.refl _).bind fun m => ?_
      rcases widens.calls m.callDepth with heq | ⟨hfull, hoverflow⟩
      · rw [heq]
        exact .refl _
      · rw [hfull, if_neg Bool.false_ne_true]
        exact agreesUnless_throw (hoverflow _ ⟨paren, rfl⟩) _
    · exact .refl _

/-! ## Evaluation -/

/-- Evaluations with the fuel and the configuration in the second place agree with those in the
first. -/
structure Agreeing (H : Halt → Prop) (config config' : Config) (fuel fuel' : Nat) : Prop where
  evaluate : ∀ e, AgreesUnless H (evaluate config fuel e) (evaluate config' fuel' e)
  execute : ∀ s, AgreesUnless H (execute config fuel s) (execute config' fuel' s)
  invoke : ∀ c vs, AgreesUnless H (invoke config fuel c vs) (invoke config' fuel' c vs)

namespace Agreeing

variable {fuel fuel' : Nat} (h : Agreeing H config config' fuel fuel')

include h

theorem evaluateOption (e : Option Expr) :
    AgreesUnless H (Scripting.evaluateOption config fuel e)
      (Scripting.evaluateOption config' fuel' e) := by
  cases e with
  | some e => exact h.evaluate e
  | none => exact .refl _

theorem executeOption (s : Option Stmt) :
    AgreesUnless H (Scripting.executeOption config fuel s)
      (Scripting.executeOption config' fuel' s) := by
  cases s with
  | some s => exact h.execute s
  | none => exact .refl _

theorem evaluate_succ (widens : config.Widens H config') (e : Expr) :
    AgreesUnless H (Scripting.evaluate config (fuel + 1) e)
      (Scripting.evaluate config' (fuel' + 1) e) := by
  cases e <;> rw [Scripting.evaluate, Scripting.evaluate, Eval.paced_eq, Eval.paced_eq]
  case literal | read | function => exact .refl _
  case group inner => exact h.evaluate inner
  case unary => exact (h.evaluate _).bind fun _ => .refl _
  case binary => exact (h.evaluate _).bind fun _ => (h.evaluate _).bind fun _ => .refl _
  case logical =>
    refine (h.evaluate _).bind fun l => ?_
    split
    · exact .refl _
    · exact h.evaluate _
  case assign => exact (h.evaluate _).bind fun _ => .refl _
  case call _ paren callee arguments =>
    have harguments := AgreesUnless.mapM h.evaluate arguments
    refine (h.evaluate callee).bind fun f => harguments.bind fun vs => ?_
    exact (checkCall_agrees widens paren f vs).bind fun c => (h.invoke c vs).counted

theorem execute_succ (hle : fuel ≤ fuel') (hfuel : fuel < fuel' → H .outOfFuel) (s : Stmt) :
    AgreesUnless H (Scripting.execute config (fuel + 1) s)
      (Scripting.execute config' (fuel' + 1) s) := by
  cases s
  case block _ body =>
    rw [Scripting.execute, Scripting.execute, Eval.paced_eq, Eval.paced_eq]
    refine (AgreesUnless.refl _).bind fun m => (AgreesUnless.refl _).bind fun scope => ?_
    exact (runAll_agrees h.execute body).within scope
  case expression =>
    rw [Scripting.execute, Scripting.execute, Eval.paced_eq, Eval.paced_eq]
    exact (h.evaluate _).bind fun _ => .refl _
  case branch _ condition whenTrue whenFalse =>
    rw [execute_branch, execute_branch]
    refine (h.evaluate condition).bind fun v => ?_
    split
    · exact h.execute whenTrue
    · exact h.executeOption whenFalse
  case loop =>
    rw [Scripting.execute, Scripting.execute, Eval.paced_eq, Eval.paced_eq]
    exact repeatWhile_agrees (h.evaluate _) (h.execute _) hle hfuel
  case leave _ _ value =>
    rw [execute_leave, execute_leave]
    exact (h.evaluateOption value).bind fun _ => .refl _
  case define _ _ initial =>
    rw [execute_define, execute_define]
    exact (h.evaluateOption initial).bind fun _ => .refl _
  case function | breakLoop | continueLoop =>
    rw [Scripting.execute, Scripting.execute, Eval.paced_eq, Eval.paced_eq]
    exact .refl _

theorem invoke_succ (widens : config.Widens H config') (c : Callable) (vs : List Value) :
    AgreesUnless H (Scripting.invoke config (fuel + 1) c vs)
      (Scripting.invoke config' (fuel' + 1) c vs) := by
  cases c <;> rw [Scripting.invoke, Scripting.invoke, Eval.paced_eq, Eval.paced_eq]
  case script _ f =>
    have htell : tellCall config' f = tellCall config f := by
      funext scope
      rw [tellCall, tellCall, widens.tellsCalls]
    rw [htell]
    refine (AgreesUnless.refl _).bind fun scope => (AgreesUnless.refl _).bind fun _ => ?_
    exact ((runAll_agrees h.execute f.body).within scope).bind fun _ => .refl _
  case native _ f =>
    rw [widens.host, widens.clock]
    cases config.host f vs
    case call callee arguments => exact h.invoke callee arguments
    case value | fault | ioFault | write | readClock => exact .refl _

end Agreeing

/-- Without fuel, no evaluation differs from one with as little. -/
theorem agreeing_zero (H : Halt → Prop) (config config' : Config) :
    Agreeing H config config' 0 0 where
  evaluate e := by
    rw [Scripting.evaluate, Scripting.evaluate]
    exact .refl _
  execute s := by
    rw [Scripting.execute, Scripting.execute]
    exact .refl _
  invoke c vs := by
    rw [Scripting.invoke, Scripting.invoke]
    exact .refl _

/-- Evaluations with more fuel, and with more calls, agree with those with less, unless these halt
for want of them. -/
theorem agreeing (widens : config.Widens H config') {fuel fuel' : Nat} (hle : fuel ≤ fuel')
    (hfuel : fuel < fuel' → H .outOfFuel) : Agreeing H config config' fuel fuel' := by
  induction fuel generalizing fuel' with
  | zero =>
    rcases Nat.eq_zero_or_pos fuel' with rfl | hpos
    · exact agreeing_zero H config config'
    · have hfuel := hfuel hpos
      exact ⟨fun _ => agreesUnless_throw hfuel _, fun _ => agreesUnless_throw hfuel _,
        fun _ _ => agreesUnless_throw hfuel _⟩
  | succ fuel ih =>
    obtain ⟨fuel', rfl⟩ := Nat.exists_eq_add_one_of_ne_zero (Nat.ne_zero_of_lt hle)
    have hle' := Nat.le_of_succ_le_succ hle
    have hfuel' := fun h => hfuel (Nat.succ_lt_succ h)
    have h := ih hle' hfuel'
    exact ⟨h.evaluate_succ widens, h.execute_succ hle' hfuel', h.invoke_succ widens⟩

theorem runProgram_agrees (widens : config.Widens H config') {fuel fuel' : Nat}
    (hle : fuel ≤ fuel') (hfuel : fuel < fuel' → H .outOfFuel) (ss : List Stmt) :
    AgreesUnless H (runProgram config fuel ss) (runProgram config' fuel' ss) := by
  induction ss with
  | nil => exact .refl _
  | cons s ss ih =>
    refine ((agreeing widens hle hfuel).execute s).bind fun flow => ?_
    cases flow with
    | normal => exact ih
    | breaking | continuing | returning => exact .refl _

end

/-! ## Runs -/

namespace Interpreter

/-- The interpreter in which any number of calls may be in progress. -/
def unlimited (i : Interpreter) : Interpreter :=
  { i with config := { i.config with callLimit := none } }

/-- In a wider configuration and with more fuel, the outcome and the machine of a run are the same,
unless the run halts for want of them. -/
theorem run_widened {H : Halt → Prop} {config config' : Config}
    (widens : config.Widens H config') {fuel fuel' : Nat} (hle : fuel ≤ fuel')
    (hfuel : fuel < fuel' → H .outOfFuel) (scriptName : String) (machine : Machine)
    (source : String) :
    ((run ⟨config', scriptName, machine⟩ fuel' source).1 =
        (run ⟨config, scriptName, machine⟩ fuel source).1 ∧
      (run ⟨config', scriptName, machine⟩ fuel' source).2.machine =
        (run ⟨config, scriptName, machine⟩ fuel source).2.machine) ∨
      ∃ h, (run ⟨config, scriptName, machine⟩ fuel source).1 = .ofHalt h ∧ H h := by
  unfold run
  dsimp only
  split
  · exact .inl ⟨rfl, rfl⟩
  · split
    · exact .inl ⟨rfl, rfl⟩
    · unfold interpret
      dsimp only [tell]
      generalize (Program.read _).statements = ss
      generalize Machine.mk _ _ _ _ _ _ _ = m
      rcases runProgram_agrees widens hle hfuel ss m with heq | ⟨halt, m', herror, hhalt⟩
      · rw [heq]
        cases runProgram config fuel ss m <;> exact .inl ⟨rfl, rfl⟩
      · rw [herror]
        exact .inr ⟨halt, rfl, hhalt⟩

/-- A run that does not run out of fuel gives the same with any more. -/
theorem run_of_le (i : Interpreter) {fuel fuel' : Nat} (hle : fuel ≤ fuel') {source : String}
    (h : (i.run fuel source).1 ≠ .outOfFuel) : i.run fuel' source = i.run fuel source := by
  rcases run_widened (H := (· = .outOfFuel)) (.refl _ i.config) hle (fun _ => rfl) i.scriptName
    i.machine source with ⟨houtcome, hmachine⟩ | ⟨halt, hout, rfl⟩
  · refine Prod.ext houtcome ?_
    rw [run_eq_with_machine, run_eq_with_machine i fuel]
    exact congrArg _ hmachine
  · exact absurd hout h

theorem unlimited_widens (i : Interpreter) :
    i.config.Widens Halt.IsOverflow i.unlimited.config where
  host := rfl
  clock := rfl
  tellsCalls := rfl
  calls depth := by
    cases hcalls : i.config.allowsCall depth with
    | true => exact .inl rfl
    | false => exact .inr ⟨rfl, fun _ => id⟩

/-- With any number of calls allowed, the outcome of a run is the same, unless there are too many
calls in progress or there is too little fuel. -/
theorem run_unlimited (i : Interpreter) (fuel : Nat) (source : String) :
    (i.unlimited.run fuel source).1 = (i.run fuel source).1 ∨
      (i.run fuel source).1 = .outOfFuel ∨
      ∃ t, (i.run fuel source).1 = .fault (.atToken (.runtime .stackOverflow) t) := by
  rcases run_widened i.unlimited_widens (Nat.le_refl fuel) (absurd · (Nat.lt_irrefl fuel))
    i.scriptName i.machine source with ⟨houtcome, -⟩ | ⟨halt, hout, t, rfl⟩
  · exact .inl houtcome
  · exact .inr (.inr ⟨t, hout⟩)

end Interpreter

end Scripting
