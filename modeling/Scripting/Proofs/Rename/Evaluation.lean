import Scripting.Proofs.Rename.Related

/-!
# Running programs with a name replaced in a function

* `EvaluatesRenamed` : with the same fuel, trees and functions that differ in names replaced only
  end alike from machines that do so;
* `evaluatesRenamed` : so it is with any fuel, by induction on it, if the native functions are the
  standard ones.

The call of a function binds all its parameters, for there are as many arguments. So the frame of a
call of the function in which names are replaced holds the name.
-/

namespace Scripting

set_option autoImplicit false

open Eval

variable {r : Renaming} {W : List Mark} {inside : Bool}

/-! ## Statements in order, loops and calls -/

theorem runAll_renames {run run' : Stmt → Eval Flow}
    (hrun : ∀ W s s', s.Renames r inside s' →
      Renames r W inside (Flow.Renames r) (run s) (run' s'))
    {ss ss' : List Stmt} (h : Stmt.RenamesAll r inside ss ss') :
    Renames r W inside (Flow.Renames r) (runAll run ss) (runAll run' ss') := by
  induction ss generalizing ss' W with
  | nil =>
    cases h
    exact renames_pure fun _ _ => .normal
  | cons s ss ih =>
    cases h with | cons hs hss => ?_
    refine (hrun W s _ hs).bind fun W' grows flow flow' hflow => ?_
    cases hflow with
    | normal => exact ih hss
    | breaking ht => exact renames_pure fun _ _ => .breaking ht
    | continuing ht => exact renames_pure fun _ _ => .continuing ht
    | returning ht hv => exact renames_pure fun _ grows' => .returning ht (hv.mono grows')

theorem repeatWhile_renames {condition condition' : Eval Value} {body body' : Eval Flow}
    (hcondition : ∀ W, Renames r W inside (Value.Renames r) condition condition')
    (hbody : ∀ W, Renames r W inside (Flow.Renames r) body body') (fuel : Nat) :
    Renames r W inside (Flow.Renames r) (repeatWhile condition body fuel)
      (repeatWhile condition' body' fuel) := by
  induction fuel generalizing W with
  | zero => exact renames_throw .outOfFuel
  | succ fuel ih =>
    refine (hcondition W).bind fun W' _ v v' hv => ?_
    rw [hv.looks.isTruthy]
    split
    · refine (hbody W').bind fun W'' _ flow flow' hflow => ?_
      cases hflow with
      | normal => exact ih
      | continuing => exact ih
      | breaking => exact renames_pure fun _ _ => .normal
      | returning ht hv => exact renames_pure fun _ grows => .returning ht (hv.mono grows)
    · exact renames_pure fun _ _ => .normal

theorem Flow.Renames.result {flow flow' : Flow} (h : flow.Renames r W flow') :
    Eval.Renames r W inside (Value.Renames r) flow.result flow'.result := by
  cases h with
  | normal => exact renames_value (.same rfl)
  | breaking ht => exact renames_faultAt ht _
  | continuing ht => exact renames_faultAt ht _
  | returning _ hv => exact renames_value hv

theorem callable_renames {v v' : Value} (h : v.Renames r W v') :
    Option.Rel (fun c c' => (Value.callable c).Renames r W (.callable c')) v.callable?
      v'.callable? := by
  cases h with
  | script h => exact .some (.script h)
  | @same v h =>
    cases v with
    | callable c => exact .some (.same h)
    | _ => exact .none

theorem arity_renames {c c' : Callable} (h : (Value.callable c).Renames r W (.callable c')) :
    c'.arity = c.arity := by
  cases h with
  | script h =>
    obtain ⟨_, _, -, -, hparameters, -⟩ := h.body
    rw [Callable.arity, Callable.arity, hparameters.length_eq]
  | same => rfl

/-- What is called takes as many arguments as there are. -/
theorem checkCall_renames (config : Config) {t t' : Token} (ht : t.Keeps t') {f f' : Value}
    (hf : f.Renames r W f') {vs vs' : List Value}
    (hvs : List.Forall₂ (Value.Renames r W) vs vs') :
    Renames r W inside (fun W' c c' => (Value.callable c).Renames r W' (.callable c') ∧
      c.arity.accepts vs.length = true) (checkCall config t f vs) (checkCall config t' f' vs') := by
  have hc := callable_renames hf
  unfold checkCall
  revert hc
  generalize f.callable? = a
  generalize f'.callable? = a'
  rintro (hc | _)
  · dsimp only
    rw [arity_renames hc, ← hvs.length_eq]
    split
    · rename_i haccepts
      refine renames_get.bind fun W' grows m m' hm => ?_
      rw [hm.callDepth]
      split
      · exact renames_pure fun W'' grows' => ⟨hc.mono (grows.trans grows'), haccepts⟩
      · exact renames_faultAt ht _
    · exact renames_faultAt ht _
  · exact renames_faultAt ht _

theorem tellCall_renames (config : Config) (f f' : Closure) (scope scope' : Scope) :
    Renames r W inside (fun _ _ _ => True) (tellCall config f scope)
      (tellCall config f' scope') := by
  unfold tellCall
  split
  · exact renames_tell _ _
  · exact renames_pure fun _ _ => trivial

/-! ## Evaluation -/

/-- With the same fuel, trees that differ in names replaced and in spans only end alike, and so do
calls of such functions with as many arguments as they take. -/
structure EvaluatesRenamed (r : Renaming) (config : Config) (fuel : Nat) : Prop where
  evaluate : ∀ W inside e e', e.Renames r inside e' →
    Renames r W inside (Value.Renames r) (evaluate config fuel e) (evaluate config fuel e')
  execute : ∀ W inside s s', s.Renames r inside s' →
    Renames r W inside (Flow.Renames r) (execute config fuel s) (execute config fuel s')
  invoke : ∀ W inside c c' vs vs', (Value.callable c).Renames r W (.callable c') →
    List.Forall₂ (Value.Renames r W) vs vs' → c.arity.accepts vs.length = true →
    Renames r W inside (Value.Renames r) (invoke config fuel c vs) (invoke config fuel c' vs')

namespace EvaluatesRenamed

variable {config : Config} {fuel : Nat} (h : EvaluatesRenamed r config fuel)

include h

theorem arguments {es es' : List Expr} (hes : Expr.RenamesAll r inside es es') :
    Renames r W inside (fun W' => List.Forall₂ (Value.Renames r W'))
      (es.mapM (Scripting.evaluate config fuel)) (es'.mapM (Scripting.evaluate config fuel)) := by
  induction es generalizing es' W with
  | nil =>
    cases hes
    exact renames_pure fun _ _ => .nil
  | cons e es ih =>
    cases hes with | cons he hes => ?_
    rw [List.mapM_cons, List.mapM_cons]
    refine (h.evaluate W inside e _ he).bind fun W' _ v v' hv => ?_
    refine (ih hes).bind fun W'' grows vs vs' hvs => ?_
    exact renames_pure fun _ grows' =>
      .cons (hv.mono (grows.trans grows')) (hvs.imp fun _ _ hv => hv.mono grows')

theorem evaluateOption {e e' : Option Expr} (he : Expr.RenamesOption r inside e e') :
    Renames r W inside (Value.Renames r) (Scripting.evaluateOption config fuel e)
      (Scripting.evaluateOption config fuel e') := by
  cases he with
  | some he => exact h.evaluate W inside _ _ he
  | none => exact renames_value (.same rfl)

theorem executeOption {s s' : Option Stmt} (hs : Stmt.RenamesOption r inside s s') :
    Renames r W inside (Flow.Renames r) (Scripting.executeOption config fuel s)
      (Scripting.executeOption config fuel s') := by
  cases hs with
  | some hs => exact h.execute W inside _ _ hs
  | none => exact renames_pure fun _ _ => .normal

theorem statements {ss ss' : List Stmt} (hss : Stmt.RenamesAll r inside ss ss') :
    Renames r W inside (Flow.Renames r) (runAll (Scripting.execute config fuel) ss)
      (runAll (Scripting.execute config fuel) ss') :=
  runAll_renames (fun W => h.execute W inside) hss

theorem evaluate_succ (e e' : Expr) (he : e.Renames r inside e') :
    Renames r W inside (Value.Renames r) (Scripting.evaluate config (fuel + 1) e)
      (Scripting.evaluate config (fuel + 1) e') := by
  cases he <;> rw [Scripting.evaluate, Scripting.evaluate] <;> simp only [Eval.paced_eq]
  case literal value => exact renames_value (.same (by cases value <;> rfl))
  case read hname => exact renames_readName hname
  case group hinner => exact h.evaluate W inside _ _ hinner
  case unary hmark hoperand =>
    refine (h.evaluate W inside _ _ hoperand).bind fun W' _ v v' hv => ?_
    rw [hv.looks.unary]
    exact renames_liftAt hmark fun u => UnaryOp.isScript_apply
  case binary hmark hleft hright =>
    refine (h.evaluate W inside _ _ hleft).bind fun W' _ v v' hv => ?_
    refine (h.evaluate W' inside _ _ hright).bind fun W'' _ w w' hw => ?_
    rw [hv.looks.binary _ hw.looks]
    exact renames_liftAt hmark fun u => BinaryOp.isScript_apply
  case logical hleft hright =>
    refine (h.evaluate W inside _ _ hleft).bind fun W' _ v v' hv => ?_
    rw [hv.looks.decides]
    split
    · exact renames_value hv
    · exact h.evaluate W' inside _ _ hright
  case assign hname hvalue =>
    refine (h.evaluate W inside _ _ hvalue).bind fun W' _ v v' hv => ?_
    exact (renames_writeName hname hv).bind fun W'' grows _ _ _ => renames_value (hv.mono grows)
  case call hparen hcallee harguments =>
    refine (h.evaluate W inside _ _ hcallee).bind fun W₁ _ f f' hf => ?_
    refine (h.arguments harguments).bind fun W₂ grows₂ vs vs' hvs => ?_
    refine (checkCall_renames config hparen (hf.mono grows₂) hvs).bind fun W₃ grows₃ c c' hc => ?_
    have hvs' : List.Forall₂ (Value.Renames r W₃) vs vs' := hvs.imp fun _ _ hv => hv.mono grows₃
    exact (h.invoke W₃ inside c c' vs vs' hc.1 hvs' hc.2).counted
  case function hparameters hbody enters =>
    exact renames_makeFunction none enters hparameters hbody

theorem execute_succ (s s' : Stmt) (hs : s.Renames r inside s') :
    Renames r W inside (Flow.Renames r) (Scripting.execute config (fuel + 1) s)
      (Scripting.execute config (fuel + 1) s') := by
  cases hs with
  | block hbody =>
    rw [Scripting.execute, Scripting.execute, Eval.paced_eq, Eval.paced_eq]
    refine renames_get.bind fun W₁ _ m m' hm => ?_
    rw [hm.scope]
    have hframe : ∀ W', W₁ <+: W' → Frame.Renames r W' (.part inside) .empty .empty := fun _ _ =>
      { bindings := .nil
        holds := fun hmark => absurd hmark (Mark.part_ne_holder inside) }
    refine (renames_newScope m.scope hframe
      fun W' grows => (hm.visible.mono grows).enter).bind fun W₂ _ scope scope' hscope => ?_
    obtain ⟨rfl, hvisible⟩ := hscope
    exact (h.statements hbody).within hvisible
  | expression hvalue =>
    rw [Scripting.execute, Scripting.execute, Eval.paced_eq, Eval.paced_eq]
    exact (h.evaluate W inside _ _ hvalue).bind fun _ _ _ _ _ => renames_pure fun _ _ => .normal
  | function hname kept enters hparameters hbody =>
    have hsame := hname.lexeme
    rw [Renaming.name_eq_self kept] at hsame
    have hstands := hname.stands
    rw [hsame] at hstands
    rw [Scripting.execute, Scripting.execute, Eval.paced_eq, Eval.paced_eq, hsame]
    refine (renames_makeFunction _ enters hparameters hbody).bind fun W' _ f f' hf => ?_
    exact (renames_defineName hstands hf).bind fun _ _ _ _ _ => renames_pure fun _ _ => .normal
  | branch hcondition hwhenTrue hwhenFalse =>
    rw [execute_branch, execute_branch]
    refine (h.evaluate W inside _ _ hcondition).bind fun W' _ v v' hv => ?_
    rw [hv.looks.isTruthy]
    split
    · exact h.execute W' inside _ _ hwhenTrue
    · exact h.executeOption hwhenFalse
  | loop hcondition hbody =>
    rw [Scripting.execute, Scripting.execute, Eval.paced_eq, Eval.paced_eq]
    exact repeatWhile_renames (fun W => h.evaluate W inside _ _ hcondition)
      (fun W => h.execute W inside _ _ hbody) fuel
  | leave hkeyword hvalue =>
    rw [execute_leave, execute_leave]
    refine (h.evaluateOption hvalue).bind fun W' _ v v' hv => ?_
    exact renames_pure fun _ grows => .returning hkeyword (hv.mono grows)
  | define hname hinitial =>
    rw [execute_define, execute_define]
    refine (h.evaluateOption hinitial).bind fun W' _ v v' hv => ?_
    exact (renames_defineName hname.stands hv).bind fun _ _ _ _ _ => renames_pure fun _ _ => .normal
  | breakLoop hkeyword =>
    rw [Scripting.execute, Scripting.execute, Eval.paced_eq, Eval.paced_eq]
    exact renames_pure fun _ _ => .breaking hkeyword
  | continueLoop hkeyword =>
    rw [Scripting.execute, Scripting.execute, Eval.paced_eq, Eval.paced_eq]
    exact renames_pure fun _ _ => .continuing hkeyword

theorem invoke_succ (standard : config.host = .standard) (c c' : Callable) (vs vs' : List Value)
    (hc : (Value.callable c).Renames r W (.callable c'))
    (hvs : List.Forall₂ (Value.Renames r W) vs vs') (haccepts : c.arity.accepts vs.length = true) :
    Renames r W inside (Value.Renames r) (Scripting.invoke config (fuel + 1) c vs)
      (Scripting.invoke config (fuel + 1) c' vs') := by
  cases hc with
  | @script _ f f' hf =>
    obtain ⟨inside', inner, hvisible, enters, hparameters, hbody⟩ := hf.body
    obtain ⟨mark, rfl, hholds, hvisible'⟩ := hvisible.enterCall enters
    have hlen : f.parameters.length = vs.length := of_decide_eq_true haccepts
    have hframe : ∀ W', W <+: W' → Frame.Renames r W' mark (callFrame f.parameters vs)
        (callFrame f'.parameters vs') := fun W' grows =>
      { bindings := .callFrame (r.biUnique_stands _) hparameters
          (hvs.imp fun _ _ hv => hv.mono grows)
        holds := fun hmark => (Frame.mem_names_callFrame hlen _).2 (hholds hmark) }
    rw [Scripting.invoke, Scripting.invoke, Eval.paced_eq, Eval.paced_eq, hf.scope]
    refine (renames_newScope _ hframe hvisible').bind fun W₁ _ scope scope' hscope => ?_
    obtain ⟨rfl, hscope⟩ := hscope
    refine (tellCall_renames config f f' scope' scope').bind fun W₂ grows₂ _ _ _ => ?_
    refine ((h.statements hbody).within (hscope.mono grows₂)).bind ?_
    exact fun _ _ _ _ hflow => hflow.result
  | same hsame =>
    cases c with
    | script => cases hsame
    | native identity f =>
      rw [Scripting.invoke, Scripting.invoke, Eval.paced_eq, Eval.paced_eq, standard,
        Host.standard_looks f (hvs.imp fun _ _ hv => hv.looks)]
      rcases Host.standard_eq f vs with heq | ⟨text, heq⟩ | heq <;> rw [heq]
      · refine renames_newReading.bind fun W' _ n n' hn => ?_
        rw [hn]
        exact renames_value (.same rfl)
      · exact (renames_write text).bind fun _ _ _ _ _ => renames_value (.same rfl)
      · exact renames_value (.same rfl)

end EvaluatesRenamed

/-- Names inside the function are looked for inside, where they are replaced too. -/
theorem evaluatesRenamed {config : Config} (standard : config.host = .standard) (fuel : Nat) :
    EvaluatesRenamed r config fuel := by
  induction fuel with
  | zero =>
    exact ⟨fun _ _ _ _ _ => renames_throw .outOfFuel, fun _ _ _ _ _ => renames_throw .outOfFuel,
      fun _ _ _ _ _ _ _ _ _ => renames_throw .outOfFuel⟩
  | succ fuel ih =>
    exact ⟨fun _ _ => ih.evaluate_succ, fun _ _ => ih.execute_succ,
      fun _ _ => ih.invoke_succ standard⟩

end Scripting
