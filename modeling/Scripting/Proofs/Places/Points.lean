import Scripting.Proofs.Places.Evaluation

/-!
# Points among places

* `Task.LiesAt`, `Placed` : what a point evaluates lies at a place in one of the programs, which the
  scope of its machine fits;
* `Starts.placed`, `Reaches.placed` : a point that is reached from a placed one is placed;
* `Passes.onward` : frames are well placed where an evaluation ends, too.
-/

namespace Scripting

set_option autoImplicit false

open Eval

variable {config : Config} {runs : List Run} {W : List TextScope} {m m' : Machine} {Γ : Place}

/-- The parts of programs that a task evaluates by itself lie at the place, or it is a call with
values that fit. -/
def Task.LiesAt (runs : List Run) (W : List TextScope) (s : Store) (Γ : Place) : Task → Prop
  | expr e => LiesIn runs ⟨Γ, .expr e⟩
  | exprs es => ∀ e ∈ es, LiesIn runs ⟨Γ, .expr e⟩
  | stmt s => LiesIn runs ⟨Γ, .stmt s⟩
  | stmts ss | program ss => LiesIn runs ⟨Γ, .stmts ss⟩
  | turns _ condition body => LiesIn runs ⟨Γ, .expr condition⟩ ∧ LiesIn runs ⟨Γ, .stmt body⟩
  | call c vs => c.Fits runs W s ∧ (∀ v ∈ vs, v.Fits runs W s) ∧ c.arity.accepts vs.length = true

/-- What the point evaluates lies at a place that its machine stands at, and the values kept fit. -/
def Placed (runs : List Run) (kept : List Value) (p : Point) : Prop :=
  ∃ W Γ, p.machine.Stands runs W Γ ∧ p.task.LiesAt runs W p.machine.store Γ ∧
    ∀ v ∈ kept, v.Fits runs W p.machine.store

/-! ## Points that are started -/

section

variable {p q : Point} {vs kept : List Value} {n : Nat}

theorem fits_onward {W' : List TextScope} (hkept : ∀ v ∈ kept, v.Fits runs W m.store)
    (onward : m.Onward runs W W' m') : ∀ v ∈ kept, v.Fits runs W' m'.store :=
  fun v hv => (hkept v hv).onward onward

theorem Callable.Fits.value {c : Callable} {s : Store} (h : c.Fits runs W s) :
    (Value.callable c).Fits runs W s := by
  rintro c' ⟨⟩
  exact h

namespace Starts

variable (hplacing : ∀ fuel, Placing config runs fuel)

include hplacing

theorem placed_expr {e : Expr} (h : Starts config ⟨.expr e, n, m⟩ vs q)
    (hp : Placed runs kept ⟨.expr e, n, m⟩) : Placed runs (vs ++ kept) q := by
  obtain ⟨W, Γ, stands, hlies, hkept⟩ := hp
  change LiesIn runs ⟨Γ, .expr e⟩ at hlies
  cases h with
  | group => exact ⟨W, Γ, stands, hlies.step .inner, hkept⟩
  | operand => exact ⟨W, Γ, stands, hlies.step .operand, hkept⟩
  | left => exact ⟨W, Γ, stands, hlies.step .left, hkept⟩
  | first => exact ⟨W, Γ, stands, hlies.step .first, hkept⟩
  | assigned => exact ⟨W, Γ, stands, hlies.step .assigned, hkept⟩
  | callee => exact ⟨W, Γ, stands, hlies.step .callee, hkept⟩
  | right hleft =>
    obtain ⟨W', onward, hl⟩ := ((hplacing _).evaluate stands (hlies.step .left)).of_ok hleft
    have hkept' := List.forall_mem_cons.2 ⟨hl, fits_onward hkept onward⟩
    exact ⟨W', Γ, stands.onward onward, hlies.step .right, hkept'⟩
  | second hleft =>
    obtain ⟨W', onward, -⟩ := ((hplacing _).evaluate stands (hlies.step .first)).of_ok hleft
    exact ⟨W', Γ, stands.onward onward, hlies.step .second, fits_onward hkept onward⟩
  | arguments hcallee =>
    obtain ⟨W', onward, hf⟩ := ((hplacing _).evaluate stands (hlies.step .callee)).of_ok hcallee
    have hkept' := List.forall_mem_cons.2 ⟨hf, fits_onward hkept onward⟩
    exact ⟨W', Γ, stands.onward onward, fun e he => hlies.step (.argument he), hkept'⟩
  | call hcallee harguments hcheck =>
    obtain ⟨W₁, onward₁, hf⟩ := ((hplacing _).evaluate stands (hlies.step .callee)).of_ok hcallee
    have hall := fun fuel => (hplacing fuel).evaluateAll (stands.onward onward₁)
      fun e he => hlies.step (.argument he)
    obtain ⟨W₂, onward₂, hvs⟩ := (hall _).of_ok harguments
    obtain ⟨W₃, onward₃, hc, harity⟩ := (leads_checkCall onward₂.placed config _ _ _).of_ok hcheck
    have onward := (onward₁.trans onward₂).trans onward₃
    have stands' := stands.onward onward
    have hc' := ((hf.onward onward₂).onward onward₃) _ hc
    have hvs' := fits_onward hvs onward₃
    have hkept' := fits_onward hkept onward
    exact ⟨W₃, Γ, ⟨stands'.placed, stands'.fits⟩, ⟨hc', hvs', harity⟩, hkept'⟩

theorem placed_exprs {es : List Expr} (h : Starts config ⟨.exprs es, n, m⟩ vs q)
    (hp : Placed runs kept ⟨.exprs es, n, m⟩) : Placed runs (vs ++ kept) q := by
  obtain ⟨W, Γ, stands, hlies, hkept⟩ := hp
  cases h with
  | firstOf => exact ⟨W, Γ, stands, hlies _ List.mem_cons_self, hkept⟩
  | othersOf hfirst =>
    have hlies := List.forall_mem_cons.1 hlies
    obtain ⟨W', onward, hv⟩ := ((hplacing _).evaluate stands hlies.1).of_ok hfirst
    have hkept' := List.forall_mem_cons.2 ⟨hv, fits_onward hkept onward⟩
    exact ⟨W', Γ, stands.onward onward, hlies.2, hkept'⟩

theorem placed_stmt {s : Stmt} (h : Starts config ⟨.stmt s, n, m⟩ vs q)
    (hp : Placed runs kept ⟨.stmt s, n, m⟩) : Placed runs (vs ++ kept) q := by
  obtain ⟨W, Γ, stands, hlies, hkept⟩ := hp
  change LiesIn runs ⟨Γ, .stmt s⟩ at hlies
  cases h with
  | expression => exact ⟨W, Γ, stands, hlies.step .expression, hkept⟩
  | test => exact ⟨W, Γ, stands, hlies.step .test, hkept⟩
  | loop => exact ⟨W, Γ, stands, ⟨hlies.step .condition, hlies.step .turn⟩, hkept⟩
  | result => exact ⟨W, Γ, stands, hlies.step .result, hkept⟩
  | initial => exact ⟨W, Γ, stands, hlies.step .initial, hkept⟩
  | whenTrue htest =>
    obtain ⟨W', onward, -⟩ := ((hplacing _).evaluate stands (hlies.step .test)).of_ok htest
    exact ⟨W', Γ, stands.onward onward, hlies.step .whenTrue, fits_onward hkept onward⟩
  | whenFalse htest =>
    obtain ⟨W', onward, -⟩ := ((hplacing _).evaluate stands (hlies.step .test)).of_ok htest
    exact ⟨W', Γ, stands.onward onward, hlies.step .whenFalse, fits_onward hkept onward⟩
  | @block _ body _ _ _ _ hscope =>
    obtain ⟨W', onward, hfits⟩ := (leads_newScope_block stands body).of_ok hscope
    have hkept' := fits_onward hkept onward
    exact ⟨W', _, ⟨onward.placed, hfits⟩, hlies.step .block, hkept'⟩

theorem placed_turns {count : Nat} {condition : Expr} {body : Stmt}
    (h : Starts config ⟨.turns count condition body, n, m⟩ vs q)
    (hp : Placed runs kept ⟨.turns count condition body, n, m⟩) : Placed runs (vs ++ kept) q := by
  obtain ⟨W, Γ, stands, hlies, hkept⟩ := hp
  cases h with
  | turnTest => exact ⟨W, Γ, stands, hlies.1, hkept⟩
  | turnBody htest =>
    obtain ⟨W', onward, -⟩ := ((hplacing _).evaluate stands hlies.1).of_ok htest
    exact ⟨W', Γ, stands.onward onward, hlies.2, fits_onward hkept onward⟩
  | nextTurn htest _ hbody =>
    obtain ⟨W₁, onward₁, -⟩ := ((hplacing _).evaluate stands hlies.1).of_ok htest
    obtain ⟨W₂, onward₂, -⟩ :=
      ((hplacing _).execute (stands.onward onward₁) hlies.2).of_ok hbody
    have onward := onward₁.trans onward₂
    exact ⟨W₂, Γ, stands.onward onward, hlies, fits_onward hkept onward⟩

/-- The place moves on behind a statement that ends normally. -/
theorem stands_behind {s : Stmt} {ss : List Stmt} (stands : m.Stands runs W Γ)
    (hlies : LiesIn runs ⟨Γ, .stmts (s :: ss)⟩) (hfirst : execute config n s m = .ok .normal m') :
    ∃ W', m.Onward runs W W' m' ∧ m'.Stands runs W' (Γ.declare s.declared?) := by
  obtain ⟨W', onward, hflow⟩ := ((hplacing n).execute stands (hlies.step .head)).of_ok hfirst
  exact ⟨W', onward, onward.stands (hflow.2 rfl)⟩

theorem placed_stmts {ss : List Stmt} (h : Starts config ⟨.stmts ss, n, m⟩ vs q)
    (hp : Placed runs kept ⟨.stmts ss, n, m⟩) : Placed runs (vs ++ kept) q := by
  obtain ⟨W, Γ, stands, hlies, hkept⟩ := hp
  cases h with
  | firstIn => exact ⟨W, Γ, stands, hlies.step .head, hkept⟩
  | othersIn hfirst =>
    obtain ⟨W', onward, stands'⟩ := stands_behind hplacing stands hlies hfirst
    exact ⟨W', _, stands', hlies.step .tail, fits_onward hkept onward⟩

theorem placed_program {ss : List Stmt} (h : Starts config ⟨.program ss, n, m⟩ vs q)
    (hp : Placed runs kept ⟨.program ss, n, m⟩) : Placed runs (vs ++ kept) q := by
  obtain ⟨W, Γ, stands, hlies, hkept⟩ := hp
  cases h with
  | firstRun => exact ⟨W, Γ, stands, hlies.step .head, hkept⟩
  | othersRun hfirst =>
    obtain ⟨W', onward, stands'⟩ := stands_behind hplacing stands hlies hfirst
    exact ⟨W', _, stands', hlies.step .tail, fits_onward hkept onward⟩

omit hplacing

/-- The body of a function lies where the function was made, and not where it is called. -/
theorem placed_call (standard : config.host = .standard) {c : Callable} {arguments : List Value}
    (h : Starts config ⟨.call c arguments, n, m⟩ vs q)
    (hp : Placed runs kept ⟨.call c arguments, n, m⟩) : Placed runs (vs ++ kept) q := by
  obtain ⟨W, Γ, stands, ⟨hc, hvs, harity⟩, hkept⟩ := hp
  cases h with
  | script hscope =>
    have henter := leads_enterCall stands.placed config hc hvs (of_decide_eq_true harity)
    obtain ⟨W', onward, Γ', hbody, hfits⟩ := henter.of_ok hscope
    have hkept' := List.forall_mem_cons.2 ⟨hc.value.onward onward, fits_onward hkept onward⟩
    exact ⟨W', Γ', ⟨onward.placed, hfits⟩, hbody, hkept'⟩
  | hostCall haction =>
    rw [standard] at haction
    rcases Host.standard_eq _ arguments with heq | ⟨text, heq⟩ | heq <;> rw [heq] at haction <;>
      cases haction

/-- A part that is started is placed: where it lies in the same scope, its place is one behind what
was evaluated before it, and where it lies in a scope of its own, its frame is made for that. -/
theorem placed (standard : config.host = .standard)
    (plain : ∀ r ∈ runs, (Part.stmts r.statements).Plain) (h : Starts config p vs q)
    (hp : Placed runs kept p) : Placed runs (vs ++ kept) q := by
  have hplacing := placing standard plain
  obtain ⟨task, n, m⟩ := p
  cases task with
  | expr => exact h.placed_expr hplacing hp
  | exprs => exact h.placed_exprs hplacing hp
  | stmt => exact h.placed_stmt hplacing hp
  | stmts => exact h.placed_stmts hplacing hp
  | turns => exact h.placed_turns hplacing hp
  | call => exact h.placed_call standard hp
  | program => exact h.placed_program hplacing hp

end Starts

/-- Whatever is reached from a placed point is placed. -/
theorem Reaches.placed (standard : config.host = .standard)
    (plain : ∀ r ∈ runs, (Part.stmts r.statements).Plain) (h : Reaches config p vs q)
    (hp : Placed runs [] p) : Placed runs vs q := by
  induction h with
  | refl => exact hp
  | tail _ starts ih => exact starts.placed standard plain ih

/-! ## Points that end -/

section

variable (hplacing : ∀ fuel, Placing config runs fuel) (stands : p.machine.Stands runs W Γ)
  (hlies : p.task.LiesAt runs W p.machine.store Γ)

include hplacing stands hlies

theorem EndsIn.onward (h : EndsIn config p vs m) :
    ∃ W', p.machine.Onward runs W W' m ∧ ∀ v ∈ vs, v.Fits runs W' m.store := by
  obtain ⟨task, n, m₀⟩ := p
  have placing := hplacing n
  cases task with
  | expr =>
    obtain ⟨v, hv, rfl⟩ := h
    obtain ⟨W', onward, hfits⟩ := (placing.evaluate stands hlies).of_ok hv
    exact ⟨W', onward, List.forall_mem_singleton.2 hfits⟩
  | exprs => exact (placing.evaluateAll stands hlies).of_ok h
  | stmt =>
    obtain ⟨flow, hflow, rfl⟩ := h
    obtain ⟨W', onward, hfits⟩ := (placing.execute stands hlies).of_ok hflow
    exact ⟨W', onward, hfits.1⟩
  | stmts =>
    obtain ⟨flow, hflow, rfl⟩ := h
    exact (placing.runAll stands hlies).of_ok hflow
  | turns =>
    obtain ⟨flow, hflow, rfl⟩ := h
    exact (placing.repeatWhile stands hlies.1 hlies.2 _).of_ok hflow
  | call =>
    obtain ⟨v, hv, rfl⟩ := h
    obtain ⟨hc, hvs, harity⟩ := hlies
    obtain ⟨W', onward, hfits⟩ := (placing.invoke stands.placed hc hvs harity).of_ok hv
    exact ⟨W', onward, List.forall_mem_singleton.2 hfits⟩
  | program =>
    obtain ⟨hrun, rfl⟩ := h
    obtain ⟨W', onward, -⟩ := (placing.runProgram stands hlies).of_ok hrun
    exact ⟨W', onward, nofun⟩

theorem HaltsIn.onward {halt : Halt} (h : HaltsIn config p halt m) :
    ∃ W', p.machine.Onward runs W W' m := by
  obtain ⟨task, n, m₀⟩ := p
  have placing := hplacing n
  cases task with
  | expr => exact (placing.evaluate stands hlies).of_error h
  | exprs => exact (placing.evaluateAll stands hlies).of_error h
  | stmt => exact (placing.execute stands hlies).of_error h
  | stmts => exact (placing.runAll stands hlies).of_error h
  | turns => exact (placing.repeatWhile stands hlies.1 hlies.2 _).of_error h
  | call =>
    obtain ⟨hc, hvs, harity⟩ := hlies
    exact (placing.invoke stands.placed hc hvs harity).of_error h
  | program => exact (placing.runProgram stands hlies).of_error h

/-- However the evaluation of a point ends, frames are well placed, and what is passed fits. -/
theorem Passes.onward (h : Passes config p vs m) :
    ∃ W', p.machine.Onward runs W W' m ∧ ∀ v ∈ vs, v.Fits runs W' m.store := by
  cases h with
  | start =>
    refine ⟨W, .refl stands.placed, ?_⟩
    obtain ⟨task, n, m₀⟩ := p
    cases task with
    | call => exact List.forall_mem_cons.2 ⟨hlies.1.value, hlies.2.1⟩
    | _ => exact nofun
  | ends ends => exact ends.onward hplacing stands hlies
  | halts halts =>
    obtain ⟨W', onward⟩ := halts.onward hplacing stands hlies
    exact ⟨W', onward, nofun⟩

end

end

end Scripting
