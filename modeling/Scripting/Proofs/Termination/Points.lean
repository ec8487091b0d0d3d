import Scripting.Proofs.Places.Points
import Scripting.Proofs.Points.Halts
import Scripting.Proofs.Termination.LoopFree

/-!
# Fuel for programs without loops

* `Part.hasLoop`, `Part.size` : what lies in a part of a program has no loop if the part has none,
  and is smaller;
* `Point.Supplied limit size p` : the fuel of a point is enough for its task, if no more than
  `limit` calls may be in progress and no function is larger than `size`;
* `Starts.supplied`, `Reaches.supplied` : a point that is reached from a supplied one is supplied;
* `Point.Supplied.ne_outOfFuel` : so nothing runs out of fuel.

A call may come to a larger tree than the one that it stands in, but then one call less is left. So
there has to be fuel for a whole program for each call that may still be made.
-/

namespace Scripting

set_option autoImplicit false

/-! ## Parts of programs -/

/-- Whether there is a loop in a part of a program. -/
def Part.hasLoop : Part → Bool
  | expr e => e.hasLoop
  | stmt s => s.hasLoop
  | stmts ss => Stmt.anyHasLoop ss

/-- The size of the tree of a part. -/
noncomputable def Part.size : Part → Nat
  | expr e => sizeOf e
  | stmt s => sizeOf s
  | stmts ss => sizeOf ss

theorem Encloses.hasLoop {σ τ : Site} (h : Encloses σ τ) (free : σ.part.hasLoop = false) :
    τ.part.hasLoop = false := by
  cases h with
  | argument he => exact Expr.hasLoop_of_mem (Bool.or_eq_false_iff.1 free).2 he
  | left | first | callee | head => exact (Bool.or_eq_false_iff.1 free).1
  | right | second | tail | whenFalse => exact (Bool.or_eq_false_iff.1 free).2
  | test => exact (Bool.or_eq_false_iff.1 (Bool.or_eq_false_iff.1 free).1).1
  | whenTrue => exact (Bool.or_eq_false_iff.1 (Bool.or_eq_false_iff.1 free).1).2
  | condition | turn => cases free
  | _ => exact free

theorem Encloses.size_lt {σ τ : Site} (h : Encloses σ τ) : τ.part.size < σ.part.size := by
  cases h with
  | argument he =>
    have := List.sizeOf_lt_of_mem he
    simp only [Part.size, Expr.call.sizeOf_spec]
    omega
  | _ =>
    simp only [Part.size, Expr.group.sizeOf_spec, Expr.unary.sizeOf_spec, Expr.binary.sizeOf_spec,
      Expr.logical.sizeOf_spec, Expr.assign.sizeOf_spec, Expr.call.sizeOf_spec,
      Expr.function.sizeOf_spec, Stmt.function.sizeOf_spec, Stmt.block.sizeOf_spec,
      Stmt.expression.sizeOf_spec, Stmt.branch.sizeOf_spec, Stmt.loop.sizeOf_spec,
      Stmt.leave.sizeOf_spec, Stmt.define.sizeOf_spec, Option.some.sizeOf_spec,
      List.cons.sizeOf_spec]
    omega

/-- The program has no loop and is not larger than `size`. -/
structure Run.Modest (size : Nat) (r : Run) : Prop where
  loopFree : Stmt.anyHasLoop r.statements = false
  size_le : sizeOf r.statements ≤ size

section

variable {runs : List Run} {size : Nat} (modest : ∀ r ∈ runs, r.Modest size)

include modest

theorem LiesIn.hasLoop {σ : Site} (h : LiesIn runs σ) : σ.part.hasLoop = false := by
  obtain ⟨r, hr, hlies⟩ := h
  induction hlies with
  | refl => exact (modest r hr).loopFree
  | tail _ encloses ih => exact encloses.hasLoop ih

theorem LiesIn.size_le {σ : Site} (h : LiesIn runs σ) : σ.part.size ≤ size := by
  obtain ⟨r, hr, hlies⟩ := h
  induction hlies with
  | refl => exact (modest r hr).size_le
  | tail _ encloses ih => exact Nat.le_trans (Nat.le_of_lt encloses.size_lt) ih

end

/-! ## Points with enough fuel -/

/-- The fuel that a task needs for itself: for a call it is that for a body of the given size. -/
noncomputable def Task.need (size : Nat) : Task → Nat
  | expr e => sizeOf e
  | exprs es => sizeOf es
  | stmt s => sizeOf s
  | stmts ss | program ss => sizeOf ss
  | turns _ _ _ => 0
  | call _ _ => size + 1

/-- The task is no loop, and there is fuel for it and for each call that may still be made. -/
structure Point.Supplied (limit size : Nat) (p : Point) : Prop where
  straight : ∀ count condition body, p.task ≠ .turns count condition body
  enough : p.task.need size + (limit - p.machine.callDepth) * (size + 2) ≤ p.fuel

variable {config : Config} {limit size : Nat} {runs : List Run} {kept vs : List Value} {p q : Point}

/-- A part that needs less, by as much as it has less fuel, is supplied as long as no further call
is in progress. -/
theorem Point.Supplied.of_depth_eq (h : p.Supplied limit size)
    (straight : ∀ count condition body, q.task ≠ .turns count condition body)
    (hdepth : q.machine.callDepth = p.machine.callDepth)
    (hneed : q.task.need size + p.fuel ≤ p.task.need size + q.fuel) : q.Supplied limit size where
  straight := straight
  enough := by
    have := h.enough
    rw [hdepth]
    omega

/-- A call that is allowed leaves fuel for its body, as one call less is left. -/
theorem Point.Supplied.of_call {fuel : Nat} {m : Machine} {c : Callable} {arguments : List Value}
    (h : p.Supplied limit size) (hfuel : p.fuel = fuel + 1) (hneed : 0 < p.task.need size)
    (hdepth : m.callDepth = p.machine.callDepth) (hroom : m.callDepth < limit) :
    Point.Supplied limit size
      ⟨.call c arguments, fuel, { m with callDepth := m.callDepth + 1 }⟩ where
  straight := nofun
  enough := by
    have henough := h.enough
    obtain ⟨calls, hcalls⟩ := Nat.exists_eq_add_of_lt hroom
    have hbefore : limit - p.machine.callDepth = calls + 1 := by omega
    have hafter : limit - (m.callDepth + 1) = calls := by omega
    rw [hbefore, Nat.succ_mul] at henough
    show size + 1 + (limit - (m.callDepth + 1)) * (size + 2) ≤ fuel
    rw [hafter]
    omega

/-! ## Points that are reached -/

/-- A call is allowed, or there is a fault at the parenthesis. -/
theorem checkCall_cases (config : Config) (paren : Token) (f : Value) (vs : List Value)
    (m : Machine) :
    (∃ c, checkCall config paren f vs m = .ok c m ∧ config.allowsCall m.callDepth = true) ∨
      ∃ cause, checkCall config paren f vs m =
        .error (.fault (.atToken (.runtime cause) paren)) m := by
  rcases checkCall_spec config paren f vs m with ⟨c, hcallable, harity⟩ | ⟨cause, -, heq⟩
  · rw [checkCall_of_accepts config paren hcallable harity]
    cases config.allowsCall m.callDepth with
    | true => exact .inl ⟨c, rfl, rfl⟩
    | false => exact .inr ⟨.stackOverflow, rfl⟩
  · exact .inr ⟨cause, heq⟩

/-- The body of a function that fits is not larger than the program in which it lies. -/
theorem Callable.Fits.size_body_le (modest : ∀ r ∈ runs, r.Modest size) {W : List TextScope}
    {s : Store} {identity : Nat} {f : Closure} (h : Callable.Fits runs W s (.script identity f)) :
    sizeOf f.body ≤ size := by
  obtain ⟨Γ, part, parameters, hlies, hmakes, -⟩ := h
  exact (hlies.step (hmakes.encloses Γ)).size_le modest

/-- A part that is started is supplied. -/
theorem Starts.supplied (standard : config.host = .standard)
    (limited : config.callLimit = some limit) (modest : ∀ r ∈ runs, r.Modest size)
    (h : Starts config p vs q) (placed : Placed runs kept p) (supplied : p.Supplied limit size) :
    q.Supplied limit size := by
  cases h
  case group | operand | left | first | assigned | callee | expression | test | result | initial |
      firstOf | firstIn | firstRun =>
    exact supplied.of_depth_eq nofun rfl (by simp +arith [Task.need])
  case right h | second h _ | arguments h | whenTrue h _ | whenFalse h _ | othersOf h =>
    exact supplied.of_depth_eq nofun (callDepth_of_evaluate h) (by simp +arith [Task.need])
  case othersIn h | othersRun h =>
    exact supplied.of_depth_eq nofun (callDepth_of_execute h) (by simp +arith [Task.need])
  case block h =>
    cases h
    exact supplied.of_depth_eq nofun rfl (by simp +arith [Task.need])
  case loop =>
    obtain ⟨W, Γ, -, hlies, -⟩ := placed
    cases hlies.hasLoop modest
  case turnTest | turnBody | nextTurn => exact absurd rfl (supplied.straight _ _ _)
  case call hcallee harguments hcheck =>
    have hdepth := (callDepth_of_mapM harguments).trans (callDepth_of_evaluate hcallee)
    rcases checkCall_cases config _ _ _ _ with ⟨c, hok, hroom⟩ | ⟨cause, herror⟩
    · rw [hok] at hcheck
      cases hcheck
      rw [Config.allowsCall, limited] at hroom
      exact supplied.of_call rfl (by simp +arith [Task.need]) hdepth (of_decide_eq_true hroom)
    · rw [herror] at hcheck
      cases hcheck
  case script f arguments _ m _ _ hscope =>
    obtain ⟨W, Γ, -, ⟨hfits, -, -⟩, -⟩ := placed
    have hbody := hfits.size_body_le modest
    obtain ⟨log, hok⟩ := enterCall_eq config f arguments m
    rw [hok] at hscope
    cases hscope
    exact supplied.of_depth_eq nofun rfl (by simp +arith [Task.need, hbody])
  case hostCall arguments _ _ _ _ haction =>
    rw [standard] at haction
    rcases Host.standard_eq _ arguments with heq | ⟨text, heq⟩ | heq <;> rw [heq] at haction <;>
      cases haction

/-- Whatever is reached from a supplied point is supplied. -/
theorem Reaches.supplied (standard : config.host = .standard)
    (limited : config.callLimit = some limit) (plain : ∀ r ∈ runs, (Part.stmts r.statements).Plain)
    (modest : ∀ r ∈ runs, r.Modest size) (h : Reaches config p vs q) (placed : Placed runs [] p)
    (supplied : p.Supplied limit size) : q.Supplied limit size := by
  induction h with
  | refl => exact supplied
  | tail reaches starts ih =>
    exact starts.supplied standard limited modest (reaches.placed standard plain placed) ih

/-! ## Running out of fuel -/

theorem Flow.result_ne_outOfFuel {flow : Flow} {m m' : Machine} :
    flow.result m ≠ .error .outOfFuel m' := by
  cases flow <;> exact nofun

/-- A supplied point does not run out of fuel by itself. -/
theorem Point.Supplied.ne_outOfFuel (h : p.Supplied limit size) {halt : Halt}
    (raises : Raises config p halt) : halt ≠ .outOfFuel := by
  rintro rfl
  have henough := h.enough
  cases raises
  case expr e m =>
    have : sizeOf e ≠ 0 := by cases e <;> simp
    simp only [Task.need] at henough
    omega
  case stmt s m =>
    have : sizeOf s ≠ 0 := by cases s <;> simp
    simp only [Task.need] at henough
    omega
  case call =>
    simp only [Task.need] at henough
    omega
  case turns => exact h.straight _ _ _ rfl
  case check hcheck =>
    rcases checkCall_cases config _ _ _ _ with ⟨c, hok, -⟩ | ⟨cause, herror⟩
    · rw [hok] at hcheck
      cases hcheck
    · rw [herror] at hcheck
      cases hcheck
  case result hresult => exact Flow.result_ne_outOfFuel hresult

/-- An evaluation that begins with enough fuel does not run out of it. -/
theorem Halts.ne_outOfFuel (standard : config.host = .standard)
    (limited : config.callLimit = some limit) (plain : ∀ r ∈ runs, (Part.stmts r.statements).Plain)
    (modest : ∀ r ∈ runs, r.Modest size) (placed : Placed runs [] p)
    (supplied : p.Supplied limit size) {halt : Halt} (halts : Halts config p halt) :
    halt ≠ .outOfFuel := by
  obtain ⟨_, q, reaches, raises⟩ := halts.origin
  exact (reaches.supplied standard limited plain modest placed supplied).ne_outOfFuel raises

end Scripting
