import Scripting.Proofs.Move.Alike

/-!
# Running moved programs

* `EvaluatesAlike` : with the same fuel, trees and moved trees, and functions that are alike, end
  alike from machines that are alike;
* `evaluatesAlike` : so it is with any fuel, by induction on it.
-/

namespace Scripting

set_option autoImplicit false

open Eval

variable {M : Shift → Token → Prop} {host : Host}

/-! ## Statements in order, loops and calls -/

theorem runAll_alike {run run' : Stmt → Eval Flow} {ss ss' : List Stmt}
    (h : List.Forall₂ (fun s s' => Alike M host (Flow.Alike M) (run s) (run' s')) ss ss') :
    Alike M host (Flow.Alike M) (runAll run ss) (runAll run' ss') := by
  induction h with
  | nil => exact alike_pure .normal
  | cons hs _ ih =>
    refine hs.bind fun flow flow' hflow => ?_
    cases hflow with
    | normal => exact ih
    | breaking ht => exact alike_pure (.breaking ht)
    | continuing ht => exact alike_pure (.continuing ht)
    | returning ht hv => exact alike_pure (.returning ht hv)

theorem repeatWhile_alike {condition condition' : Eval Value} {body body' : Eval Flow}
    (hcondition : Alike M host (Value.Alike M) condition condition')
    (hbody : Alike M host (Flow.Alike M) body body') (fuel : Nat) :
    Alike M host (Flow.Alike M) (repeatWhile condition body fuel)
      (repeatWhile condition' body' fuel) := by
  induction fuel with
  | zero => exact alike_throw .outOfFuel
  | succ fuel ih =>
    refine hcondition.bind fun v v' hv => ?_
    rw [hv.looks.isTruthy]
    split
    · refine hbody.bind fun flow flow' hflow => ?_
      cases hflow with
      | normal => exact ih
      | continuing => exact ih
      | breaking => exact alike_pure .normal
      | returning ht hv => exact alike_pure (.returning ht hv)
    · exact alike_pure .normal

theorem Flow.Alike.result {flow flow' : Flow} (h : flow.Alike M flow') :
    Eval.Alike M host (Value.Alike M) flow.result flow'.result := by
  cases h with
  | normal => exact alike_pure (.same rfl)
  | breaking ht => exact alike_faultAt ht _
  | continuing ht => exact alike_faultAt ht _
  | returning _ hv => exact alike_pure hv

theorem callFrame_alike (parameters : List String) {vs vs' : List Value}
    (h : List.Forall₂ (Value.Alike M) vs vs') :
    (callFrame parameters vs).Alike M (callFrame parameters vs') :=
  Frame.Matches.callFrame Frame.Alike.biUnique_same (List.forall₂_same.2 fun _ _ => rfl) h

theorem callable_alike {v v' : Value} (h : v.Alike M v') :
    Option.Rel (fun c c' => (Value.callable c).Alike M (.callable c')) v.callable?
      v'.callable? := by
  cases h with
  | script h => exact .some (.script h)
  | same h => cases v with
    | callable c => exact .some (.same h)
    | _ => exact .none

theorem arity_alike {c c' : Callable} (h : (Value.callable c).Alike M (.callable c')) :
    c'.arity = c.arity := by
  cases h with
  | script h => rw [Callable.arity, Callable.arity, h.parameters]
  | same => rfl

theorem checkCall_alike (config : Config) {t : Token} {σ : Shift} (ht : M σ t) {f f' : Value}
    (hf : f.Alike M f') {vs vs' : List Value} (hvs : List.Forall₂ (Value.Alike M) vs vs') :
    Alike M host (fun c c' => (Value.callable c).Alike M (.callable c'))
      (checkCall config t f vs) (checkCall config (t.move σ) f' vs') := by
  have hc := callable_alike hf
  unfold checkCall
  revert hc
  generalize f.callable? = a
  generalize f'.callable? = a'
  rintro (hc | _)
  · dsimp only
    rw [arity_alike hc, ← hvs.length_eq]
    split
    · refine alike_get.bind fun m m' hm => ?_
      rw [hm.callDepth]
      split
      · exact alike_pure hc
      · exact alike_faultAt ht _
    · exact alike_faultAt ht _
  · exact alike_faultAt ht _

theorem tellCall_alike (config : Config) (f f' : Closure) (scope scope' : Scope) :
    Alike M host (fun _ _ => True) (tellCall config f scope) (tellCall config f' scope') := by
  unfold tellCall
  split
  · exact alike_tell _ _
  · exact alike_pure trivial

theorem liftAt_alike {t : Token} {σ : Shift} (ht : M σ t) {r : Except RuntimeFault Value}
    (h : ∀ u, r = .ok u → u.isScript = false) :
    Alike M host (Value.Alike M) (liftAt t r) (liftAt (t.move σ) r) := by
  cases r with
  | ok u => exact alike_pure (.same (h u rfl))
  | error cause => exact alike_faultAt ht cause

/-! ## Evaluation -/

/-- With the same fuel, trees and moved trees, and functions that are alike, end alike. -/
structure EvaluatesAlike (M : Shift → Token → Prop) (config : Config) (fuel : Nat) : Prop where
  evaluate : ∀ σ e, (∀ t ∈ Expr.tokens e, M σ t) →
    Alike M config.host (Value.Alike M) (evaluate config fuel e) (evaluate config fuel (e.move σ))
  execute : ∀ σ s, (∀ t ∈ Stmt.tokens s, M σ t) →
    Alike M config.host (Flow.Alike M) (execute config fuel s) (execute config fuel (s.move σ))
  invoke : ∀ c c' vs vs', (Value.callable c).Alike M (.callable c') →
    List.Forall₂ (Value.Alike M) vs vs' →
    Alike M config.host (Value.Alike M) (invoke config fuel c vs) (invoke config fuel c' vs')

namespace EvaluatesAlike

variable {config : Config} {fuel : Nat} (h : EvaluatesAlike M config fuel) (σ : Shift)

include h

theorem statements (ss : List Stmt) (hss : ∀ t ∈ Stmt.tokensOfAll ss, M σ t) :
    List.Forall₂ (fun s s' => Alike M config.host (Flow.Alike M) (Scripting.execute config fuel s)
      (Scripting.execute config fuel s')) ss (ss.map (Stmt.move σ)) := by
  induction ss with
  | nil => exact .nil
  | cons s ss ih =>
    rw [Stmt.tokensOfAll, List.forall_mem_append] at hss
    exact .cons (h.execute σ s hss.1) (ih hss.2)

theorem arguments (es : List Expr) (hes : ∀ t ∈ Expr.tokensOfAll es, M σ t) :
    Alike M config.host (List.Forall₂ (Value.Alike M)) (es.mapM (Scripting.evaluate config fuel))
      ((es.map (Expr.move σ)).mapM (Scripting.evaluate config fuel)) := by
  refine Alike.mapM ?_
  induction es with
  | nil => exact .nil
  | cons e es ih =>
    rw [Expr.tokensOfAll, List.forall_mem_append] at hes
    exact .cons (h.evaluate σ e hes.1) (ih hes.2)

theorem evaluateOption (e : Option Expr) (he : ∀ t ∈ Expr.tokensOfOption e, M σ t) :
    Alike M config.host (Value.Alike M) (Scripting.evaluateOption config fuel e)
      (Scripting.evaluateOption config fuel (e.map (Expr.move σ))) := by
  cases e with
  | some e => exact h.evaluate σ e he
  | none => exact alike_pure (.same rfl)

theorem executeOption (s : Option Stmt) (hs : ∀ t ∈ Stmt.tokensOfOption s, M σ t) :
    Alike M config.host (Flow.Alike M) (Scripting.executeOption config fuel s)
      (Scripting.executeOption config fuel (s.map (Stmt.move σ))) := by
  cases s with
  | some s => exact h.execute σ s hs
  | none => exact alike_pure .normal

theorem evaluate_succ (e : Expr) (he : ∀ t ∈ Expr.tokens e, M σ t) :
    Alike M config.host (Value.Alike M) (Scripting.evaluate config (fuel + 1) e)
      (Scripting.evaluate config (fuel + 1) (e.move σ)) := by
  cases e <;>
    simp only [Expr.tokens, List.forall_mem_cons, List.forall_mem_append] at he <;>
    rw [Expr.move, Scripting.evaluate, Scripting.evaluate] <;> simp only [Eval.paced_eq]
  case literal _ value => exact alike_pure (.same (by cases value <;> rfl))
  case read => exact alike_readName he.1
  case group => exact h.evaluate σ _ he
  case unary _ op mark operand =>
    refine (h.evaluate σ operand he.2).bind fun v v' hv => ?_
    rw [hv.looks.unary]
    exact liftAt_alike he.1 fun u => UnaryOp.isScript_apply
  case binary _ op mark left right =>
    refine (h.evaluate σ left he.2.1).bind fun v v' hv => ?_
    refine (h.evaluate σ right he.2.2).bind fun w w' hw => ?_
    rw [hv.looks.binary op hw.looks]
    exact liftAt_alike he.1 fun u => BinaryOp.isScript_apply
  case logical _ op mark left right =>
    refine (h.evaluate σ left he.2.1).bind fun v v' hv => ?_
    rw [hv.looks.decides]
    split
    · exact alike_pure hv
    · exact h.evaluate σ right he.2.2
  case assign _ name value =>
    refine (h.evaluate σ value he.2).bind fun v v' hv => ?_
    exact (alike_writeName he.1 hv).bind fun _ _ _ => alike_pure hv
  case call _ paren callee arguments =>
    refine (h.evaluate σ callee he.2.1).bind fun f f' hf => ?_
    rw [Expr.moveAll_eq]
    refine (h.arguments σ arguments he.2.2).bind fun vs vs' hvs => ?_
    refine (checkCall_alike config he.1 hf hvs).bind fun c c' hc => ?_
    exact (h.invoke c c' vs vs' hc hvs).counted
  case function _ parameters body =>
    rw [Stmt.moveAll_eq]
    exact alike_makeFunction none he.2

theorem execute_succ (s : Stmt) (hs : ∀ t ∈ Stmt.tokens s, M σ t) :
    Alike M config.host (Flow.Alike M) (Scripting.execute config (fuel + 1) s)
      (Scripting.execute config (fuel + 1) (s.move σ)) := by
  cases s <;>
    simp only [Stmt.tokens, List.forall_mem_cons, List.forall_mem_append] at hs <;>
    rw [Stmt.move]
  case block _ body =>
    rw [Scripting.execute, Scripting.execute, Eval.paced_eq, Eval.paced_eq, Stmt.moveAll_eq]
    refine alike_get.bind fun m m' hm => ?_
    rw [hm.scope]
    refine (alike_newScope _ .nil).bind fun scope scope' hscope => ?_
    rw [← hscope]
    exact (runAll_alike (h.statements σ body hs)).within scope
  case expression =>
    rw [Scripting.execute, Scripting.execute, Eval.paced_eq, Eval.paced_eq]
    exact (h.evaluate σ _ hs).bind fun _ _ _ => alike_pure .normal
  case function _ name parameters body =>
    rw [Scripting.execute, Scripting.execute, Eval.paced_eq, Eval.paced_eq, Stmt.moveAll_eq]
    refine (alike_makeFunction _ hs.2.2).bind fun f f' hf => ?_
    exact (alike_defineName _ hf).bind fun _ _ _ => alike_pure .normal
  case branch _ condition whenTrue whenFalse =>
    rw [execute_branch, execute_branch, Stmt.moveOption_eq]
    refine (h.evaluate σ condition hs.1).bind fun v v' hv => ?_
    rw [hv.looks.isTruthy]
    split
    · exact h.execute σ whenTrue hs.2.1
    · exact h.executeOption σ whenFalse hs.2.2
  case loop _ condition body =>
    rw [Scripting.execute, Scripting.execute, Eval.paced_eq, Eval.paced_eq]
    exact repeatWhile_alike (h.evaluate σ condition hs.1) (h.execute σ body hs.2) fuel
  case leave _ keyword value =>
    rw [execute_leave, execute_leave, Expr.moveOption_eq]
    refine (h.evaluateOption σ value hs.2).bind fun v v' hv => ?_
    exact alike_pure (.returning hs.1 hv)
  case define _ name initial =>
    rw [execute_define, execute_define, Expr.moveOption_eq]
    refine (h.evaluateOption σ initial hs.2).bind fun v v' hv => ?_
    exact (alike_defineName _ hv).bind fun _ _ _ => alike_pure .normal
  case breakLoop =>
    rw [Scripting.execute, Scripting.execute, Eval.paced_eq, Eval.paced_eq]
    exact alike_pure (.breaking hs.1)
  case continueLoop =>
    rw [Scripting.execute, Scripting.execute, Eval.paced_eq, Eval.paced_eq]
    exact alike_pure (.continuing hs.1)

omit σ in
theorem invoke_succ (host : config.host.IgnoresPlaces) (c c' : Callable) (vs vs' : List Value)
    (hc : (Value.callable c).Alike M (.callable c')) (hvs : List.Forall₂ (Value.Alike M) vs vs') :
    Alike M config.host (Value.Alike M) (Scripting.invoke config (fuel + 1) c vs)
      (Scripting.invoke config (fuel + 1) c' vs') := by
  cases hc with
  | @script _ f f' hf =>
    obtain ⟨σ, hbody, htokens⟩ := hf.body
    rw [Scripting.invoke, Scripting.invoke, Eval.paced_eq, Eval.paced_eq, hf.parameters, hf.scope,
      hbody]
    refine (alike_newScope _ (callFrame_alike _ hvs)).bind fun scope scope' hscope => ?_
    rw [← hscope]
    refine (tellCall_alike config f f' scope scope).bind fun _ _ _ => ?_
    refine ((runAll_alike (h.statements σ f.body htokens)).within scope).bind ?_
    exact fun _ _ hflow => hflow.result
  | same hsame =>
    cases c with
    | script => cases hsame
    | native identity f =>
      rw [Scripting.invoke, Scripting.invoke, Eval.paced_eq, Eval.paced_eq]
      have haction := host M f vs vs' hvs
      revert haction
      generalize hleft : config.host f vs = action
      generalize config.host f vs' = action'
      rintro (hv | d | fault | ⟨text, hv⟩ | ⟨hcallee, harguments⟩ | _)
      · exact alike_pure hv
      · exact alike_throw (.fault (.reported hleft))
      · exact alike_throw (.io fault)
      · exact (alike_write text).bind fun _ _ _ => alike_pure hv
      · exact h.invoke _ _ _ _ hcallee harguments
      · refine alike_newReading.bind fun n n' hn => ?_
        rw [hn]
        exact alike_pure (.same rfl)

end EvaluatesAlike

/-- Evaluation looks at places only where it reports a fault. -/
theorem evaluatesAlike {config : Config} (ignores : config.host.IgnoresPlaces) (fuel : Nat) :
    EvaluatesAlike M config fuel := by
  induction fuel with
  | zero =>
    exact ⟨fun _ _ _ => alike_throw .outOfFuel, fun _ _ _ => alike_throw .outOfFuel,
      fun _ _ _ _ _ _ => alike_throw .outOfFuel⟩
  | succ fuel ih => exact ⟨ih.evaluate_succ, ih.execute_succ, ih.invoke_succ ignores⟩

end Scripting
