import Scripting.Proofs.Same.Computations

/-!
# Evaluation side by side

* `follows_runAll`, `follows_repeatWhile`, `follows_checkCall` : statements in order, loops and the
  check of a call;
* `Following` : trees that are equal but for what is forgotten, and functions that are the same, end
  the same from machines that are the same;
* `following` : so it is with any fuel of the first evaluation, by induction on it.

A statement is run in a scope whose innermost frame stands for none only if it binds nothing there.
-/

open Filter (atTop Tendsto tendsto_id tendsto_sub_atTop_nat)

namespace Scripting

set_option autoImplicit false

open Eval

variable {K : Setting} {P : Pairing} {inner : Bool}

/-! ## Statements in order, loops and calls -/

theorem follows_runAll {run : Stmt → Eval Flow} {run' : Nat → Stmt → Eval Flow}
    {ss ss' : List Stmt}
    (h : List.Forall₂ (fun s s' => Eval.Follows K P inner (Flow.Same K.forgetting) (run s)
      fun fuel => run' fuel s') ss ss') :
    Eval.Follows K P inner (Flow.Same K.forgetting) (runAll run ss)
      fun fuel => runAll (run' fuel) ss' := by
  induction h with
  | nil => exact follows_pure fun _ _ => .normal
  | cons hs _ ih =>
    refine hs.bind fun P' grows flow flow' hflow => ?_
    cases hflow with
    | normal => exact ih.mono grows
    | breaking ht => exact follows_pure fun _ _ => .breaking ht
    | continuing ht => exact follows_pure fun _ _ => .continuing ht
    | returning ht hv => exact follows_pure fun _ grows => .returning ht (hv.mono grows)

/-- The turns of the second loop may be bounded in any way that leaves enough with enough fuel. -/
theorem follows_repeatWhile {condition : Eval Value} {condition' : Nat → Eval Value}
    {body : Eval Flow} {body' : Nat → Eval Flow}
    (hcondition : Eval.Follows K P inner (Value.Same K.forgetting) condition condition')
    (hbody : Eval.Follows K P inner (Flow.Same K.forgetting) body body') (turns : Nat)
    {bound : Nat → Nat} (hbound : Tendsto bound atTop atTop) :
    Eval.Follows K P inner (Flow.Same K.forgetting) (repeatWhile condition body turns)
      fun fuel => repeatWhile (condition' fuel) (body' fuel) (bound fuel) := by
  induction turns generalizing P bound with
  | zero => exact follows_outOfFuel
  | succ turns ih =>
    have hsucc : ∀ᶠ fuel in atTop, bound fuel = bound fuel - 1 + 1 :=
      (hbound.eventually_ge_atTop 1).mono fun fuel h => (Nat.sub_add_cancel h).symm
    have hbound' : Tendsto (fun fuel => bound fuel - 1) atTop atTop :=
      (tendsto_sub_atTop_nat 1).comp hbound
    suffices hturn : Eval.Follows K P inner (Flow.Same K.forgetting)
        (repeatWhile condition body (turns + 1))
        fun fuel => repeatWhile (condition' fuel) (body' fuel) (bound fuel - 1 + 1) from
      hturn.congr (hsucc.mono fun fuel h => congrArg _ h)
    refine hcondition.bind fun P₁ grows v v' hv => ?_
    rw [hv.looks.isTruthy]
    split
    · refine (hbody.mono grows).bind fun P₂ grows' flow flow' hflow => ?_
      have hrest := ih ((hcondition.mono grows).mono grows') ((hbody.mono grows).mono grows')
        hbound'
      cases hflow with
      | normal => exact hrest
      | continuing => exact hrest
      | breaking => exact follows_pure fun _ _ => .normal
      | returning ht hv => exact follows_pure fun _ grows => .returning ht (hv.mono grows)
    · exact follows_pure fun _ _ => .normal

theorem Flow.Same.result {flow flow' : Flow} (h : flow.Same K.forgetting P flow') :
    Eval.Follows K P inner (Value.Same K.forgetting) flow.result fun _ => flow'.result := by
  cases h with
  | normal => exact follows_value (.same rfl)
  | breaking ht => exact follows_faultAt ht _
  | continuing ht => exact follows_faultAt ht _
  | returning _ hv => exact follows_value hv

theorem callFrame_same {F : Forgetting} (parameters : List String) {vs vs' : List Value}
    (h : List.Forall₂ (Value.Same F P) vs vs') :
    (callFrame parameters vs).Same F P (callFrame parameters vs') :=
  Frame.Matches.callFrame Frame.Same.biUnique_name (List.forall₂_same.2 fun _ _ => rfl) h

/-- Values that are the same and can be called. -/
def CallablesSame (F : Forgetting) (P : Pairing) (c c' : Callable) : Prop :=
  (Value.callable c).Same F P (.callable c')

theorem Value.Same.callable? {F : Forgetting} {v v' : Value} (h : v.Same F P v') :
    Option.Rel (CallablesSame F P) v.callable? v'.callable? := by
  cases h with
  | script h => exact .some (.script h)
  | same h => cases v with
    | callable c => exact .some (.same h)
    | _ => exact .none

theorem CallablesSame.arity {F : Forgetting} {c c' : Callable} (h : CallablesSame F P c c') :
    c'.arity = c.arity := by
  cases h with
  | script h => rw [Callable.arity, Callable.arity, h.parameters]
  | same => rfl

theorem follows_checkCall (agrees : K.Agrees) {t t' : Token}
    (ht : K.forgetting.mark t' = K.forgetting.mark t) {f f' : Value}
    (hf : f.Same K.forgetting P f') {vs vs' : List Value}
    (hvs : List.Forall₂ (Value.Same K.forgetting P) vs vs') :
    Eval.Follows K P inner (CallablesSame K.forgetting) (checkCall K.config t f vs)
      fun _ => checkCall K.config' t' f' vs' := by
  have hallows : K.config'.allowsCall = K.config.allowsCall := by
    funext callDepth
    unfold Config.allowsCall
    rw [agrees.callLimit]
  have hc := hf.callable?
  unfold checkCall
  rw [hallows, ← hvs.length_eq]
  revert hc
  generalize f.callable? = found
  generalize f'.callable? = found'
  rintro (hc | _)
  · rename_i c c'
    dsimp only
    rw [hc.arity]
    split
    · refine follows_get.bind fun P' grows m m' hm => ?_
      rw [hm]
      split
      · exact follows_pure fun _ grows' => Value.Same.mono hc (grows.trans grows')
      · exact follows_faultAt ht _
    · exact follows_faultAt ht _
  · exact follows_faultAt ht _

/-! ## Evaluation -/

/-- Trees that are equal but for what is forgotten, and functions that are the same, end the same
from machines that are the same, whatever fuel the first of them have. -/
structure Following (K : Setting) (fuel : Nat) : Prop where
  evaluate : ∀ {P inner} {e e' : Expr}, e'.forget K.forgetting = e.forget K.forgetting →
    Eval.Follows K P inner (Value.Same K.forgetting) (evaluate K.config fuel e)
      fun fuel => evaluate K.config' fuel e'
  execute : ∀ {P inner} {s s' : Stmt}, s'.forget K.forgetting = s.forget K.forgetting →
    (inner = true ∨ s.bindsNothing = true) →
    Eval.Follows K P inner (Flow.Same K.forgetting) (execute K.config fuel s)
      fun fuel => execute K.config' fuel s'
  invoke : ∀ {P inner} {c c' : Callable} {vs vs' : List Value},
    CallablesSame K.forgetting P c c' → List.Forall₂ (Value.Same K.forgetting P) vs vs' →
    Eval.Follows K P inner (Value.Same K.forgetting) (invoke K.config fuel c vs)
      fun fuel => invoke K.config' fuel c' vs'

/-- Parentheses around the second expression only take fuel. -/
theorem follows_core {α : Type} {R : Pairing → α → Value → Prop} {act : Eval α} {e : Expr}
    (h : Eval.Follows K P inner R act fun fuel => evaluate K.config' fuel (e.core K.forgetting)) :
    Eval.Follows K P inner R act fun fuel => evaluate K.config' fuel e := by
  fun_induction Expr.core K.forgetting e with
  | case1 span inside hgroups ih =>
    refine .of_succ ?_
    simp only [evaluate, Eval.paced_eq]
    exact ih h
  | case2 => exact h
  | case3 => exact h

namespace Following

variable {fuel : Nat} (h : Following K fuel)

include h

theorem runAll {ss ss' : List Stmt}
    (hss : Stmt.forgetAll K.forgetting ss' = Stmt.forgetAll K.forgetting ss) :
    Eval.Follows K P true (Flow.Same K.forgetting)
      (Scripting.runAll (Scripting.execute K.config fuel) ss)
      fun fuel => Scripting.runAll (Scripting.execute K.config' fuel) ss' := by
  rw [Stmt.forgetAll_eq, Stmt.forgetAll_eq] at hss
  exact follows_runAll ((forall₂_of_map_eq hss).imp fun _ _ hs => h.execute hs (.inl rfl))

theorem arguments {es es' : List Expr}
    (hes : List.Forall₂ (fun e e' => Expr.forget K.forgetting e' = e.forget K.forgetting) es es') :
    Eval.Follows K P inner (fun P => List.Forall₂ (Value.Same K.forgetting P))
      (es.mapM (Scripting.evaluate K.config fuel))
      fun fuel => es'.mapM (Scripting.evaluate K.config' fuel) :=
  Eval.Follows.mapM (fun _ _ _ _ grows hv => hv.mono grows) (hes.imp fun _ _ he => h.evaluate he)

theorem evaluateOption {e e' : Option Expr}
    (he : Expr.forgetOption K.forgetting e' = Expr.forgetOption K.forgetting e) :
    Eval.Follows K P inner (Value.Same K.forgetting) (Scripting.evaluateOption K.config fuel e)
      fun fuel => Scripting.evaluateOption K.config' fuel e' := by
  cases e <;> cases e' <;> simp only [Expr.forgetOption, reduceCtorEq, Option.some.injEq] at he
  · exact follows_value (.same rfl)
  · exact h.evaluate he

theorem executeOption {s s' : Option Stmt}
    (hs : Stmt.forgetOption K.forgetting s' = Stmt.forgetOption K.forgetting s)
    (hbinds : inner = true ∨ Stmt.optionBindsNothing s = true) :
    Eval.Follows K P inner (Flow.Same K.forgetting) (Scripting.executeOption K.config fuel s)
      fun fuel => Scripting.executeOption K.config' fuel s' := by
  cases s <;> cases s' <;> simp only [Stmt.forgetOption, reduceCtorEq, Option.some.injEq] at hs
  · exact follows_pure fun _ _ => .normal
  · exact h.execute hs hbinds

/-- Expressions of one form end the same. -/
theorem evaluate_akin (agrees : K.Agrees) {e e' : Expr} (akin : e.Akin K.forgetting e') :
    Eval.Follows K P inner (Value.Same K.forgetting) (Scripting.evaluate K.config (fuel + 1) e)
      fun fuel => Scripting.evaluate K.config' fuel e' := by
  refine .of_succ ?_
  cases akin <;> simp only [Scripting.evaluate, Eval.paced_eq]
  case literal value => exact follows_value (.same (by cases value <;> rfl))
  case read hname => exact follows_readName hname
  case group hinner => exact h.evaluate hinner
  case unary op mark mark' operand operand' hmark hoperand =>
    refine (h.evaluate hoperand).bind fun _ _ v v' hv => ?_
    rw [hv.looks.unary]
    exact follows_liftAt hmark fun u => UnaryOp.isScript_apply
  case binary op mark mark' left left' right right' hmark hleft hright =>
    refine (h.evaluate hleft).bind fun _ _ v v' hv => ?_
    refine (h.evaluate hright).bind fun _ grows w w' hw => ?_
    rw [(hv.mono grows).looks.binary op hw.looks]
    exact follows_liftAt hmark fun u => BinaryOp.isScript_apply
  case logical op mark mark' left left' right right' hleft hright =>
    refine (h.evaluate hleft).bind fun _ _ v v' hv => ?_
    rw [hv.looks.decides]
    split
    · exact follows_value hv
    · exact h.evaluate hright
  case assign hname hvalue =>
    refine (h.evaluate hvalue).bind fun _ _ v v' hv => ?_
    exact (follows_writeName hname hv).bind fun _ grows _ _ _ => follows_value (hv.mono grows)
  case call hparen hcallee harguments =>
    refine (h.evaluate hcallee).bind fun _ _ f f' hf => ?_
    refine (h.arguments harguments).bind fun _ grows vs vs' hvs => ?_
    refine (follows_checkCall agrees hparen (hf.mono grows) hvs).bind fun _ grows c c' hc => ?_
    exact (h.invoke hc (hvs.imp fun _ _ hv => hv.mono grows)).counted
  case function hparameters hbody => exact follows_makeFunction none hparameters hbody

theorem evaluate_succ (agrees : K.Agrees) {e e' : Expr}
    (he : e'.forget K.forgetting = e.forget K.forgetting) :
    Eval.Follows K P inner (Value.Same K.forgetting) (Scripting.evaluate K.config (fuel + 1) e)
      fun fuel => Scripting.evaluate K.config' fuel e' := by
  by_cases hgroup : K.forgetting.groups = true ∧ ∃ span inside, e = .group span inside
  · obtain ⟨hgroups, span, inside, rfl⟩ := hgroup
    rw [Expr.forget, if_pos hgroups] at he
    rw [Scripting.evaluate, Eval.paced_eq]
    exact h.evaluate he
  · have hcore : e.core K.forgetting = e := by
      unfold Expr.core
      split
      · exact if_neg fun hgroups => hgroup ⟨hgroups, _, _, rfl⟩
      · rfl
    have hakin := Expr.akin_of_forget he
    rw [hcore] at hakin
    exact follows_core (h.evaluate_akin agrees hakin)

theorem execute_succ {s s' : Stmt} (hs : s'.forget K.forgetting = s.forget K.forgetting)
    (hbinds : inner = true ∨ s.bindsNothing = true) :
    Eval.Follows K P inner (Flow.Same K.forgetting) (Scripting.execute K.config (fuel + 1) s)
      fun fuel => Scripting.execute K.config' fuel s' := by
  refine .of_succ ?_
  cases Stmt.akin_of_forget hs with
  | block hbody =>
    simp only [execute_block]
    exact follows_enterBlock.bind fun _ _ scope scope' hscope => (h.runAll hbody).within hscope
  | expression hvalue =>
    simp only [Scripting.execute, Eval.paced_eq]
    exact (h.evaluate hvalue).bind fun _ _ _ _ _ => follows_pure fun _ _ => .normal
  | function hname hparameters hbody =>
    obtain rfl : inner = true := hbinds.resolve_right Bool.false_ne_true
    simp only [Scripting.execute, Eval.paced_eq, K.forgetting.lexeme_eq hname]
    refine (follows_makeFunction _ hparameters hbody).bind fun _ _ f f' hf => ?_
    exact (follows_defineName _ hf).bind fun _ _ _ _ _ => follows_pure fun _ _ => .normal
  | branch hcondition htrue hfalse =>
    have hbinds' := hbinds.imp_right fun hboth => (Bool.and_eq_true _ _).mp hboth
    simp only [execute_branch]
    refine (h.evaluate hcondition).bind fun _ _ v v' hv => ?_
    rw [hv.looks.isTruthy]
    split
    · exact h.execute htrue (hbinds'.imp_right And.left)
    · exact h.executeOption hfalse (hbinds'.imp_right And.right)
  | loop hcondition hbody =>
    simp only [Scripting.execute, Eval.paced_eq]
    exact follows_repeatWhile (h.evaluate hcondition) (h.execute hbody hbinds) fuel
      tendsto_id
  | leave hkeyword hvalue =>
    simp only [execute_leave]
    refine (h.evaluateOption hvalue).bind fun _ _ v v' hv => ?_
    exact follows_pure fun _ grows => .returning hkeyword (hv.mono grows)
  | define hname hinitial =>
    obtain rfl : inner = true := hbinds.resolve_right Bool.false_ne_true
    simp only [execute_define, K.forgetting.lexeme_eq hname]
    refine (h.evaluateOption hinitial).bind fun _ _ v v' hv => ?_
    exact (follows_defineName _ hv).bind fun _ _ _ _ _ => follows_pure fun _ _ => .normal
  | breakLoop hkeyword =>
    simp only [Scripting.execute, Eval.paced_eq]
    exact follows_pure fun _ _ => .breaking hkeyword
  | continueLoop hkeyword =>
    simp only [Scripting.execute, Eval.paced_eq]
    exact follows_pure fun _ _ => .continuing hkeyword

theorem invoke_succ (agrees : K.Agrees) {c c' : Callable} {vs vs' : List Value}
    (hc : CallablesSame K.forgetting P c c')
    (hvs : List.Forall₂ (Value.Same K.forgetting P) vs vs') :
    Eval.Follows K P inner (Value.Same K.forgetting) (Scripting.invoke K.config (fuel + 1) c vs)
      fun fuel => Scripting.invoke K.config' fuel c' vs' := by
  refine .of_succ ?_
  cases hc with
  | @script _ f f' hf =>
    simp only [Scripting.invoke, Eval.paced_eq, hf.parameters]
    refine (follows_newScope hf.scope (callFrame_same _ hvs)).bind fun _ _ scope scope' hscope => ?_
    refine (follows_tellCall f f' scope scope').bind fun _ grows _ _ _ => ?_
    have hscope' := And.intro (hscope.1.mono grows) (getElem?_of_grows grows.left hscope.2)
    exact ((h.runAll hf.body).within hscope').bind fun _ _ _ _ hflow => hflow.result
  | same hsame =>
    cases c with
    | script => cases hsame
    | native identity f =>
      simp only [Scripting.invoke, Eval.paced_eq]
      have haction := agrees.host P f vs vs' hvs
      revert haction
      generalize K.config.host f vs = action
      generalize K.config'.host f vs' = action'
      rintro (hv | d | fault | ⟨text, hv⟩ | ⟨hcallee, harguments⟩ | _)
      · exact follows_value hv
      · exact follows_throw (.fault (.same d))
      · exact follows_throw (.io fault)
      · exact (follows_write text).bind fun _ grows _ _ _ => follows_value (hv.mono grows)
      · exact h.invoke hcallee harguments
      · refine follows_newReading.bind fun _ _ n n' hn => ?_
        rw [hn]
        exact follows_value (.same rfl)

end Following

/-- Evaluation looks at what is forgotten only where it reports a fault, and at frames without names
not at all. -/
theorem following (agrees : K.Agrees) (fuel : Nat) : Following K fuel := by
  induction fuel with
  | zero => exact ⟨fun _ => follows_outOfFuel, fun _ _ => follows_outOfFuel,
      fun _ _ => follows_outOfFuel⟩
  | succ fuel ih => exact ⟨ih.evaluate_succ agrees, ih.execute_succ, ih.invoke_succ agrees⟩

end Scripting
