import Scripting.Proofs.Machine.Agreement
import Scripting.Proofs.Same.Evaluation

/-!
# Computations that may stand for each other

* `Eval.Lasting` : relations between results that hold the other way round, and go on to hold;
* `Interchangeable.bind`, `Interchangeable.repeatWhile`, `Interchangeable.block` and the like : what
  is composed of computations that may stand for each other may stand for each other;
* `Interchangeable.aside` : so may a computation in a new block and the same in the current
  scope, if it binds nothing there;
* `interchangeable_evaluate`, `interchangeable_execute` : expressions and statements;
* `Eval.Ends`, `Interchangeable.ends` : each ends if the other does, and then they end the same.
-/

open Filter (atTop eventually_ge_atTop tendsto_id)

namespace Scripting

set_option autoImplicit false

open Eval

variable {K : Setting} {P P' : Pairing} {inner : Bool}

namespace Eval

variable {α β : Type} {R : Forgetting → Pairing → α → α → Prop}
  {S : Forgetting → Pairing → β → β → Prop} {act act' : Nat → Eval α}

/-! ## Relations between results -/

/-- The relation holds the other way round, and goes on to hold when frames come. -/
structure Lasting (R : Forgetting → Pairing → α → α → Prop) : Prop where
  swap : ∀ {F P a b}, R F P a b → R F P.swap b a
  mono : ∀ {F P P' a b}, R F P a b → P.Grows P' → R F P' a b

theorem lasting_value : Lasting Value.Same := ⟨Value.Same.swap, Value.Same.mono⟩

theorem lasting_flow : Lasting Flow.Same where
  swap := Flow.Same.swap
  mono h grows := by
    cases h with
    | normal => exact .normal
    | breaking h => exact .breaking h
    | continuing h => exact .continuing h
    | returning h hv => exact .returning h (hv.mono grows)

theorem ResultSame.swap (lasting : Lasting R) {r r' : EStateM.Result Halt Machine α}
    (h : ResultSame K P inner (R K.forgetting) r r') :
    ResultSame K.swap P.swap inner (R K.forgetting) r' r := by
  cases h with
  | ok grows h hm => exact .ok grows.swap (lasting.swap h) hm.swap
  | error grows h hm => exact .error grows.swap h.swap hm.swap

/-! ## Composed computations -/

namespace Interchangeable

theorem pure (lasting : Lasting R) {a b : α} (h : R K.forgetting P a b) :
    Interchangeable K P inner R (fun _ => Pure.pure a) fun _ => Pure.pure b where
  forth _ := follows_pure fun _ grows => lasting.mono h grows
  back _ := follows_pure fun _ grows => lasting.mono (lasting.swap h) grows

/-- A computation that runs out of fuel without any may need one more. -/
theorem of_succ (hzero : act 0 = throw .outOfFuel)
    (h : Interchangeable K P inner R (fun fuel => act (fuel + 1)) act') :
    Interchangeable K P inner R act act' where
  forth fuel := by
    cases fuel with
    | zero => exact hzero ▸ follows_outOfFuel
    | succ fuel => exact h.forth fuel
  back fuel := (h.back fuel).of_succ

theorem bind (lasting : Lasting R) {next next' : Nat → α → Eval β}
    (h : Interchangeable K P inner R act act')
    (hnext : ∀ P', P.Grows P' → ∀ a b, R K.forgetting P' a b →
      Interchangeable K P' inner S (fun fuel => next fuel a) fun fuel => next' fuel b) :
    Interchangeable K P inner S (fun fuel => act fuel >>= next fuel)
      fun fuel => act' fuel >>= next' fuel where
  forth fuel := (h.forth fuel).bind fun P' grows a b hab =>
    (hnext P' grows a b hab).forth fuel
  back fuel := (h.back fuel).bind fun P' grows b a hab =>
    (hnext P'.swap grows.swap a b (lasting.swap hab)).back fuel

/-- Blocks on both sides. -/
theorem block (h : Interchangeable K P true R act act') :
    Interchangeable K P inner R (fun fuel => enterBlock >>= fun scope => within scope (act fuel))
      fun fuel => enterBlock >>= fun scope => within scope (act' fuel) where
  forth fuel := follows_enterBlock.bind
    fun _ grows _ _ hscope => ((h.forth fuel).mono grows).within hscope
  back fuel := follows_enterBlock.bind
    fun _ grows _ _ hscope => ((h.back fuel).mono grows).within hscope

end Interchangeable

/-! ## A new scope on one side -/

/-- The machine in a new block. -/
def inBlock (m : Machine) : Machine :=
  { m with store := m.store.add .empty, scope := m.scope.enter m.store.size }

theorem block_ok {act : Eval α} {m m₁ : Machine} {a : α} (h : act (inBlock m) = .ok a m₁) :
    (enterBlock >>= fun scope => within scope act) m = .ok a { m₁ with scope := m.scope } := by
  rw [bind_of_ok (show enterBlock m = .ok (m.scope.enter m.store.size) _ from rfl)]
  exact within_ok h

theorem block_error {act : Eval α} {m m₁ : Machine} {e : Halt}
    (h : act (inBlock m) = .error e m₁) :
    (enterBlock >>= fun scope => within scope act) m = .error e { m₁ with scope := m.scope } := by
  rw [bind_of_ok (show enterBlock m = .ok (m.scope.enter m.store.size) _ from rfl)]
  exact within_error h

/-- The first machine may be in a new block, whose frame stands for none. -/
theorem inBlock_same {m m' : Machine} (h : m.Same K P inner m') :
    (inBlock m).Same K P.alone false m' :=
  { h with
    store := h.store.addAlone
    scope := by
      rw [inBlock, Scope.chain_enter, ← h.store.left]
      exact h.scope.enterAlone
    innermost := fun hinner => absurd hinner Bool.false_ne_true }

section

variable {R : Pairing → α → β → Prop} {act : Eval α} {act' : Nat → Eval β}

/-- The first computation may be run in a new block. -/
theorem Follows.aside (h : Follows K P false R act act') (advances : ∀ fuel, (act' fuel).Advances) :
    Follows K P inner R (enterBlock >>= fun scope => Eval.within scope act) act' := by
  intro P' grows m m' hm
  have hact := h P'.alone (grows.trans P'.grows_alone) _ m' (inBlock_same hm)
  rcases hact with ⟨m₁, hfuel⟩ | ⟨r, hr, hsame⟩
  · exact .inl ⟨_, block_error hfuel⟩
  · obtain ⟨fuel, hfuel⟩ := hr.exists
    refine .inr ⟨r, hr, ?_⟩
    generalize hresult : act (inBlock m) = result at hsame
    cases hsame with
    | ok grows' hab hm₁ =>
      have hgrows := P'.grows_alone.trans grows'
      have hsame := hm.restore hgrows hm₁
      rw [← ((advances fuel).of_ok hfuel).scope] at hsame
      rw [block_ok hresult]
      exact .ok hgrows hab hsame
    | error grows' he hm₁ =>
      have hgrows := P'.grows_alone.trans grows'
      have hsame := hm.restore hgrows hm₁
      rw [← ((advances fuel).of_error hfuel).scope] at hsame
      rw [block_error hresult]
      exact .error hgrows he hsame

/-- The second computation may be run in a new block. -/
theorem Follows.beside (h : Follows K P false R act act') (advances : act.Advances) :
    Follows K P inner R act
      fun fuel => enterBlock >>= fun scope => Eval.within scope (act' fuel) := by
  intro P' grows m m' hm
  have halone : P'.Grows P'.swap.alone.swap := P'.swap.grows_alone.swap
  have hact := h _ (grows.trans halone) m _ (inBlock_same hm.swap).swap
  refine hact.imp_right ?_
  rintro ⟨r, hr, hsame⟩
  generalize hresult : act m = result at hsame
  cases hsame with
  | ok grows' hab hm₁ =>
    have hgrows := halone.trans grows'
    have hsame := hm.restore hgrows hm₁
    rw [← (advances.of_ok hresult).scope] at hsame
    exact ⟨_, hr.mono fun fuel => block_ok, .ok hgrows hab hsame⟩
  | error grows' he hm₁ =>
    have hgrows := halone.trans grows'
    have hsame := hm.restore hgrows hm₁
    rw [← (advances.of_error hresult).scope] at hsame
    exact ⟨_, hr.mono fun fuel => block_error, .error hgrows he hsame⟩

end

/-- A computation in a new block may stand for the same in the current scope, if neither binds a
name in the innermost frame. -/
theorem Interchangeable.aside (h : Interchangeable K P false R act act')
    (advances : ∀ fuel, (act' fuel).Advances) :
    Interchangeable K P inner R
      (fun fuel => enterBlock >>= fun scope => Eval.within scope (act fuel)) act' where
  forth fuel := (h.forth fuel).aside advances
  back fuel := (h.back fuel).beside (advances fuel)

/-! ## Results -/

/-- What is known of a value that comes of the first computation may be used. -/
theorem Follows.of_ok {R R' : Pairing → α → β → Prop} {act : Eval α} {act' : Nat → Eval β}
    (h : Follows K P inner R act act') (himp : ∀ {P' a b m m'} (_ : P.Grows P'),
      act m = .ok a m' → R P' a b → R' P' a b) : Follows K P inner R' act act' := by
  intro P' grows m m' hm
  refine (h P' grows m m' hm).imp_right ?_
  rintro ⟨r, hr, hsame⟩
  refine ⟨r, hr, ?_⟩
  generalize hresult : act m = result at hsame
  cases hsame with
  | ok grows' hab hm₁ => exact .ok grows' (himp (grows.trans grows') hresult hab) hm₁
  | error grows' he hm₁ => exact .error grows' he hm₁

/-- The computation does not run out of fuel. -/
def Ends (act : Eval α) (m : Machine) : Prop := ∀ m', act m ≠ .error .outOfFuel m'

theorem ResultSame.ends {K : Setting} {R : Pairing → α → β → Prop} {act : Eval α} {act' : Eval β}
    {m m' : Machine} (h : ResultSame K P inner R (act m) (act' m')) : act'.Ends m' := by
  intro m₁ hfuel
  rw [hfuel] at h
  revert h
  generalize act m = result
  rintro (_ | ⟨_, ⟨_⟩, _⟩)

theorem Follows.ends {R : Pairing → α → β → Prop} {act : Eval α} {act' : Nat → Eval β}
    (h : Follows K P inner R act act') {m m' : Machine} (hm : m.Same K P inner m')
    (hends : act.Ends m) : ∀ᶠ fuel in atTop, ResultSame K P inner R (act m) (act' fuel m') := by
  rcases h P (.refl P) m m' hm with ⟨m₁, hfuel⟩ | ⟨r, hr, hsame⟩
  · exact absurd hfuel (hends m₁)
  · exact hr.mono fun fuel hfuel => hfuel.symm ▸ hsame

/-- Of computations that may stand for each other, each ends if the other does, and then they end
the same. -/
theorem Interchangeable.ends (h : Interchangeable K P inner R act act') (lasting : Lasting R)
    {m m' : Machine} (hm : m.Same K P inner m')
    (steady : ∀ {fuel fuel'}, fuel ≤ fuel' → (act fuel).Ends m → act fuel' m = act fuel m) :
    ((∃ fuel, (act fuel).Ends m) ↔ ∃ fuel, (act' fuel).Ends m') ∧
      ∀ fuel fuel', (act fuel).Ends m → (act' fuel').Ends m' →
        ResultSame K P inner (R K.forgetting) (act fuel m) (act' fuel' m') := by
  refine ⟨⟨?_, ?_⟩, fun fuel fuel' hends hends' => ?_⟩
  · rintro ⟨fuel, hends⟩
    exact ((h.forth fuel).ends hm hends).exists.imp fun _ hsame => hsame.ends
  · rintro ⟨fuel', hends'⟩
    exact ((h.back fuel').ends hm.swap hends').exists.imp fun _ hsame => hsame.ends
  · have hback := ((h.back fuel').ends hm.swap hends').and (eventually_ge_atTop fuel)
    obtain ⟨more, hsame, hle⟩ := hback.exists
    rw [steady hle hends] at hsame
    exact hsame.swap lasting

end Eval

/-! ## Loops, expressions and statements -/

theorem Eval.Interchangeable.repeatWhile {condition condition' : Nat → Eval Value}
    {body body' : Nat → Eval Flow}
    (hcondition : Interchangeable K P inner Value.Same condition condition')
    (hbody : Interchangeable K P inner Flow.Same body body') :
    Interchangeable K P inner Flow.Same
      (fun fuel => Scripting.repeatWhile (condition fuel) (body fuel) fuel)
      fun fuel => Scripting.repeatWhile (condition' fuel) (body' fuel) fuel where
  forth fuel :=
    follows_repeatWhile (hcondition.forth fuel) (hbody.forth fuel) fuel tendsto_id
  back fuel := follows_repeatWhile (hcondition.back fuel) (hbody.back fuel) fuel tendsto_id

theorem interchangeable_evaluate (agrees : K.Agrees) {e e' : Expr}
    (he : e'.forget K.forgetting = e.forget K.forgetting) :
    Interchangeable K P inner Value.Same (fun fuel => evaluate K.config fuel e)
      fun fuel => evaluate K.config' fuel e' where
  forth fuel := (following agrees fuel).evaluate he
  back fuel := (following agrees.swap fuel).evaluate he.symm

theorem interchangeable_execute (agrees : K.Agrees) (s : Stmt)
    (hs : inner = true ∨ s.bindsNothing = true) :
    Interchangeable K P inner Flow.Same (fun fuel => execute K.config fuel s)
      fun fuel => execute K.config' fuel s where
  forth fuel := (following agrees fuel).execute rfl hs
  back fuel := (following agrees.swap fuel).execute rfl hs

end Scripting
