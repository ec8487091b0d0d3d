import Scripting.Proofs.Machine.Likeness
import Scripting.Proofs.Places.Leads
import Scripting.Proofs.Points.Basic

/-!
# Evaluation among places

* `Flow.Fits` : the value that a statement ends with fits, and behind a statement that ends normally
  its name is bound;
* `Placing` : evaluations of what lies in programs keep frames well placed, and so do calls of
  functions that fit;
* `leads_runAll`, `leads_repeatWhile` : statements in order, and loops;
* `placing` : so it is with any fuel, if the native functions are the standard ones.
-/

namespace Scripting

set_option autoImplicit false

open Eval

variable {config : Config} {runs : List Run} {fuel : Nat} {W : List TextScope} {m : Machine}
  {Γ : Place}

/-! ## Results -/

/-- The value that a statement ends with fits, and the scope fits the place if it ends normally. -/
def Flow.Fits (runs : List Run) (Γ : Place) (scope : Scope) (W : List TextScope) (s : Store)
    (flow : Flow) : Prop :=
  (∀ v ∈ flow.values, v.Fits runs W s) ∧ (flow = .normal → Γ.Fits W s scope)

/-- Behind a statement that declares no name, the scope fits the same place. -/
theorem Leads.flow (h : m.Stands runs W Γ) {act : Eval Flow}
    (hact : Leads runs W m act fun W' s flow => ∀ v ∈ flow.values, v.Fits runs W' s) :
    Leads runs W m act (Flow.Fits runs Γ m.scope) := by
  refine hact.imp fun W' m' flow onward hflow => ⟨hflow, fun _ => ?_⟩
  rw [← onward.later.scope]
  exact (h.onward onward).fits

/-- A function is bound to its name in the scope in which it was made. -/
theorem leads_execute_function {span : Span} {name : Token} {parameters : List Token}
    {body : List Stmt} (h : m.Stands runs W Γ)
    (hlies : LiesIn runs ⟨Γ, .stmt (.function span name parameters body)⟩)
    (proper : name.lexeme ∈ Γ.names (globalNames runs)) :
    Leads runs W m (execute config (fuel + 1) (.function span name parameters body))
      (Flow.Fits runs (Γ.declare name.lexeme) m.scope) := by
  rw [execute, Eval.paced_eq]
  refine (leads_makeFunction h.placed _ parameters body).bind ?_
  rintro W' m' v onward ⟨rfl, -, rfl⟩
  have h' := h.onward onward
  refine (leads_defineName h' proper ?_).bind fun W'' m'' _ onward' hfits => ?_
  · rintro c ⟨⟩
    rw [← onward.later.scope]
    exact ⟨Γ, _, parameters, hlies, .named, rfl, h'.fits.declare _ _⟩
  · rw [← onward.later.scope]
    exact leads_pure onward'.placed ⟨List.forall_mem_nil _, fun _ => hfits⟩

/-! ## Evaluations with the same fuel -/

/-- Evaluations of what lies in programs keep frames well placed, and so do calls of functions that
fit. -/
structure Placing (config : Config) (runs : List Run) (fuel : Nat) : Prop where
  evaluate : ∀ {W m Γ e}, m.Stands runs W Γ → LiesIn runs ⟨Γ, .expr e⟩ →
    Leads runs W m (evaluate config fuel e) fun W' s v => v.Fits runs W' s
  execute : ∀ {W m Γ s}, m.Stands runs W Γ → LiesIn runs ⟨Γ, .stmt s⟩ →
    Leads runs W m (execute config fuel s) (Flow.Fits runs (Γ.declare s.declared?) m.scope)
  invoke : ∀ {W} {m : Machine} {c : Callable} {vs : List Value}, m.store.WellPlaced runs W →
    c.Fits runs W m.store → (∀ v ∈ vs, v.Fits runs W m.store) → c.arity.accepts vs.length = true →
    Leads runs W m (invoke config fuel c vs) fun W' s v => v.Fits runs W' s

namespace Placing

variable (placing : Placing config runs fuel)

include placing

theorem evaluateAll {es : List Expr} (h : m.Stands runs W Γ)
    (hlies : ∀ e ∈ es, LiesIn runs ⟨Γ, .expr e⟩) :
    Leads runs W m (es.mapM (Scripting.evaluate config fuel)) fun W' s vs =>
      ∀ v ∈ vs, v.Fits runs W' s := by
  induction es generalizing W m with
  | nil => exact leads_pure h.placed nofun
  | cons e es ih =>
    rw [List.forall_mem_cons] at hlies
    rw [List.mapM_cons]
    refine (placing.evaluate h hlies.1).bind fun W' m' v onward hv => ?_
    refine (ih (h.onward onward) hlies.2).bind fun W'' m'' vs onward' hvs => ?_
    exact leads_pure onward'.placed (List.forall_mem_cons.2 ⟨hv.onward onward', hvs⟩)

theorem evaluateOption {e : Option Expr} (h : m.Stands runs W Γ)
    (hlies : ∀ e' ∈ e, LiesIn runs ⟨Γ, .expr e'⟩) :
    Leads runs W m (Scripting.evaluateOption config fuel e) fun W' s v => v.Fits runs W' s := by
  cases e with
  | none => exact leads_pure h.placed (Value.fits_of_callable? rfl)
  | some e => exact placing.evaluate h (hlies e rfl)

/-- Each statement is run behind the declarations of those before it. -/
theorem runAll {ss : List Stmt} (h : m.Stands runs W Γ) (hlies : LiesIn runs ⟨Γ, .stmts ss⟩) :
    Leads runs W m (Scripting.runAll (Scripting.execute config fuel) ss) fun W' s flow =>
      ∀ v ∈ flow.values, v.Fits runs W' s := by
  induction ss generalizing W m Γ with
  | nil => exact leads_pure h.placed nofun
  | cons s ss ih =>
    refine (placing.execute h (hlies.step .head)).bind fun W' m' flow onward hflow => ?_
    cases flow with
    | normal => exact ih (onward.stands (hflow.2 rfl)) (hlies.step .tail)
    | breaking | continuing | returning => exact leads_pure onward.placed hflow.1

theorem runProgram {ss : List Stmt} (h : m.Stands runs W Γ) (hlies : LiesIn runs ⟨Γ, .stmts ss⟩) :
    Leads runs W m (Scripting.runProgram config fuel ss) fun _ _ _ => True := by
  induction ss generalizing W m Γ with
  | nil => exact (leads_flush h.placed).imp fun _ _ _ _ _ => trivial
  | cons s ss ih =>
    refine (placing.execute h (hlies.step .head)).bind fun W' m' flow onward hflow => ?_
    cases flow with
    | normal => exact ih (onward.stands (hflow.2 rfl)) (hlies.step .tail)
    | breaking | continuing | returning => exact leads_throw onward.placed _

/-- Each turn of a loop is run at the same place. -/
theorem repeatWhile {condition : Expr} {body : Stmt} (h : m.Stands runs W Γ)
    (hcondition : LiesIn runs ⟨Γ, .expr condition⟩) (hbody : LiesIn runs ⟨Γ, .stmt body⟩)
    (count : Nat) :
    Leads runs W m (Scripting.repeatWhile (Scripting.evaluate config fuel condition)
      (Scripting.execute config fuel body) count) fun W' s flow =>
        ∀ v ∈ flow.values, v.Fits runs W' s := by
  induction count generalizing W m with
  | zero => exact leads_throw h.placed _
  | succ count ih =>
    refine (placing.evaluate h hcondition).bind fun W' m' v onward _ => ?_
    split
    · have h' := h.onward onward
      refine (placing.execute h' hbody).bind fun W'' m'' flow onward' hflow => ?_
      cases flow with
      | normal | continuing => exact ih (h'.onward onward')
      | breaking => exact leads_pure onward'.placed nofun
      | returning => exact leads_pure onward'.placed hflow.1
    · exact leads_pure onward.placed nofun

/-! ## One step deeper -/

theorem evaluate_succ {e : Expr} (h : m.Stands runs W Γ) (hlies : LiesIn runs ⟨Γ, .expr e⟩) :
    Leads runs W m (Scripting.evaluate config (fuel + 1) e) fun W' s v => v.Fits runs W' s := by
  cases e <;> rw [Scripting.evaluate, Eval.paced_eq]
  case literal _ value =>
    exact leads_pure h.placed (Value.fits_of_callable? (Value.callable?_ofLiteral value))
  case read name => exact leads_readName h.placed name
  case group => exact placing.evaluate h (hlies.step .inner)
  case unary =>
    refine (placing.evaluate h (hlies.step .operand)).bind fun W' m' v onward _ => ?_
    exact leads_liftAt onward.placed fun r hr =>
      Value.fits_of_callable? (UnaryOp.callable?_apply hr)
  case binary =>
    refine (placing.evaluate h (hlies.step .left)).bind fun W' m' l onward _ => ?_
    have hright := placing.evaluate (h.onward onward) (hlies.step .right)
    refine hright.bind fun W'' m'' r onward' _ => ?_
    exact leads_liftAt onward'.placed fun r hr =>
      Value.fits_of_callable? (BinaryOp.callable?_apply hr)
  case logical =>
    refine (placing.evaluate h (hlies.step .first)).bind fun W' m' l onward hl => ?_
    split
    · exact leads_pure onward.placed hl
    · exact placing.evaluate (h.onward onward) (hlies.step .second)
  case assign _ name value =>
    refine (placing.evaluate h (hlies.step .assigned)).bind fun W' m' v onward hv => ?_
    refine (leads_writeName onward.placed name hv).bind fun W'' m'' _ onward' _ => ?_
    exact leads_pure onward'.placed (hv.onward onward')
  case call _ paren callee arguments =>
    refine (placing.evaluate h (hlies.step .callee)).bind fun W₁ m₁ f onward₁ hf => ?_
    have harguments := placing.evaluateAll (h.onward onward₁) fun e he => hlies.step (.argument he)
    refine harguments.bind fun W₂ m₂ vs onward₂ hvs => ?_
    refine (leads_checkCall onward₂.placed config paren f vs).bind fun W₃ m₃ c onward₃ hc => ?_
    have hcallee : f.Fits runs W₃ m₃.store := (hf.onward onward₂).onward onward₃
    refine Leads.counted ?_
    have harguments' : ∀ v ∈ vs, v.Fits runs W₃ m₃.store :=
      fun v hv => (hvs v hv).onward onward₃
    exact placing.invoke onward₃.placed (hcallee c hc.1) harguments' hc.2
  case function _ parameters body =>
    refine (leads_makeFunction h.placed none parameters body).imp ?_
    rintro W' m' v onward ⟨rfl, hstore, rfl⟩
    rintro c ⟨⟩
    rw [hstore]
    exact ⟨Γ, _, parameters, hlies, .anonymous, rfl, h.fits⟩

theorem executeOption {s : Option Stmt} (h : m.Stands runs W Γ)
    (hlies : ∀ s' ∈ s, LiesIn runs ⟨Γ, .stmt s'⟩) :
    Leads runs W m (Scripting.executeOption config fuel s) fun W' s flow =>
      ∀ v ∈ flow.values, v.Fits runs W' s := by
  cases s with
  | none => exact leads_pure h.placed nofun
  | some s => exact (placing.execute h (hlies s rfl)).imp fun _ _ _ _ hflow => hflow.1

theorem execute_define {span : Span} {name : Token} {initial : Option Expr}
    (h : m.Stands runs W Γ) (hlies : LiesIn runs ⟨Γ, .stmt (.define span name initial)⟩)
    (proper : name.lexeme ∈ Γ.names (globalNames runs)) :
    Leads runs W m (Scripting.execute config (fuel + 1) (.define span name initial))
      (Flow.Fits runs (Γ.declare name.lexeme) m.scope) := by
  rw [Scripting.execute_define]
  have hinitial : ∀ e ∈ initial, LiesIn runs ⟨Γ, .expr e⟩ := by
    rintro e rfl
    exact hlies.step .initial
  refine (placing.evaluateOption h hinitial).bind fun W' m' v onward hv => ?_
  have hv' := hv.mono (List.prefix_refl W') (m'.store.extends_define m'.scope.inner name.lexeme v)
  refine (leads_defineName (h.onward onward) proper hv').bind fun W'' m'' _ onward' hfits => ?_
  rw [← onward.later.scope]
  exact leads_pure onward'.placed ⟨nofun, fun _ => hfits⟩

variable (plain : ∀ r ∈ runs, (Part.stmts r.statements).Plain)

include plain

theorem execute_succ {s : Stmt} (h : m.Stands runs W Γ) (hlies : LiesIn runs ⟨Γ, .stmt s⟩) :
    Leads runs W m (Scripting.execute config (fuel + 1) s)
      (Flow.Fits runs (Γ.declare s.declared?) m.scope) := by
  have proper := (hlies.proper plain).2
  cases s
  case function => exact leads_execute_function h hlies (proper _ rfl)
  case define => exact placing.execute_define h hlies (proper _ rfl)
  case block _ body =>
    refine Leads.flow h ?_
    rw [Scripting.execute, Eval.paced_eq]
    refine leads_get_bind ?_
    refine (leads_newScope_block h body).bind fun W' m' scope onward hfits => Leads.within ?_
    exact placing.runAll ⟨onward.placed, hfits⟩ (hlies.step .block)
  case expression =>
    refine Leads.flow h ?_
    rw [Scripting.execute, Eval.paced_eq]
    refine (placing.evaluate h (hlies.step .expression)).bind fun W' m' v onward _ => ?_
    exact leads_pure onward.placed (List.forall_mem_nil _)
  case branch _ condition whenTrue whenFalse =>
    refine Leads.flow h ?_
    rw [execute_branch]
    refine (placing.evaluate h (hlies.step .test)).bind fun W' m' v onward _ => ?_
    split
    · refine (placing.execute (h.onward onward) (hlies.step .whenTrue)).imp ?_
      exact fun _ _ _ _ hflow => hflow.1
    · refine placing.executeOption (h.onward onward) ?_
      rintro s rfl
      exact hlies.step .whenFalse
  case loop =>
    refine Leads.flow h ?_
    rw [Scripting.execute, Eval.paced_eq]
    exact placing.repeatWhile h (hlies.step .condition) (hlies.step .turn) fuel
  case leave _ _ value =>
    refine Leads.flow h ?_
    rw [execute_leave]
    have hvalue : ∀ e ∈ value, LiesIn runs ⟨Γ, .expr e⟩ := by
      rintro e rfl
      exact hlies.step .result
    refine (placing.evaluateOption h hvalue).bind fun W' m' v onward hv => ?_
    exact leads_pure onward.placed (List.forall_mem_singleton.2 hv)
  case breakLoop | continueLoop =>
    refine Leads.flow h ?_
    rw [Scripting.execute, Eval.paced_eq]
    exact leads_pure h.placed (List.forall_mem_nil _)

omit plain

/-- A function of a program is run at its own place, whatever the place of the call. The standard
native functions give no functions. -/
theorem invoke_succ (standard : config.host = .standard) {c : Callable} {vs : List Value}
    (h : m.store.WellPlaced runs W) (hc : c.Fits runs W m.store)
    (hvs : ∀ v ∈ vs, v.Fits runs W m.store) (harity : c.arity.accepts vs.length = true) :
    Leads runs W m (Scripting.invoke config (fuel + 1) c vs) fun W' s v => v.Fits runs W' s := by
  cases c with
  | script _ f =>
    rw [invoke_script]
    have hlen : f.parameters.length = vs.length := of_decide_eq_true harity
    refine (leads_enterCall h config hc hvs hlen).bind fun W' m' scope onward hscope => ?_
    obtain ⟨Γ, hlies, hfits⟩ := hscope
    have hbody : Leads runs W' m' (Eval.within scope _) _ :=
      Leads.within (placing.runAll ⟨onward.placed, hfits⟩ hlies)
    refine hbody.bind fun W'' m'' flow onward' hflow => ?_
    cases flow with
    | normal => exact leads_pure onward'.placed (Value.fits_of_callable? rfl)
    | returning _ v => exact leads_pure onward'.placed (hflow v List.mem_cons_self)
    | breaking | continuing => exact leads_throw onward'.placed _
  | native _ f =>
    rw [Scripting.invoke, Eval.paced_eq, standard]
    rcases Host.standard_eq f vs with heq | ⟨text, heq⟩ | heq
    · rw [heq]
      refine (leads_newReading h).bind fun W' m' n onward _ => ?_
      exact leads_pure onward.placed (Value.fits_of_callable? rfl)
    · rw [heq]
      refine (leads_write h text).bind fun W' m' _ onward _ => ?_
      exact leads_pure onward.placed (Value.fits_of_callable? rfl)
    · rw [heq]
      exact leads_pure h (Value.fits_of_callable? rfl)

end Placing

/-- Evaluations keep frames well placed, however deep they may go. -/
theorem placing (standard : config.host = .standard)
    (plain : ∀ r ∈ runs, (Part.stmts r.statements).Plain) (fuel : Nat) :
    Placing config runs fuel := by
  induction fuel with
  | zero =>
    exact ⟨fun h _ => leads_throw h.placed _, fun h _ => leads_throw h.placed _,
      fun h _ _ _ => leads_throw h _⟩
  | succ fuel ih => exact ⟨ih.evaluate_succ, ih.execute_succ plain, ih.invoke_succ standard⟩

end Scripting
