import Mathlib.Order.Filter.AtTopBot.Basic
import Scripting.Host
import Scripting.Proofs.Machine.Closed
import Scripting.Proofs.Same.Stores

/-!
# Computations side by side

* `Setting` : two configurations, and what is forgotten of trees;
* `Machine.Same`, `Diagnostic.Same`, `Halt.Same`, `Flow.Same`, `Action.Same` : the same, but for
  what is forgotten, and for frames that stand for none;
* `Setting.Agrees` : the configurations allow as many calls, and the hosts do the same;
* `Machine.Grounded` : a machine that sees frames that there are is the same as itself
  (`Machine.same_refl`);
* `Eval.Follows` : from machines that are the same, a computation that does not run out of fuel is
  followed by one that ends the same with all fuel that is enough (`Follows.bind` and the like);
* `Eval.Interchangeable` : each of two computations follows the other.

The first computation has its fuel, and the second one is a family of computations, one for each
amount of fuel. Trees that differ in parentheses need different amounts.
-/

open Filter (atTop map_add_atTop_eq_nat)

namespace Scripting

set_option autoImplicit false

/-! ## Machines, faults and ends -/

/-- Two configurations, and what is forgotten of the trees that they run. -/
structure Setting where
  forgetting : Forgetting
  config : Config
  config' : Config

/-- The configurations the other way round. -/
def Setting.swap (K : Setting) : Setting := ⟨K.forgetting, K.config', K.config⟩

section

variable (K : Setting) (F : Forgetting) (P : Pairing)

/-- Machines that are the same, but for what is forgotten, for frames that stand for none, and for
the events told. If the flag is set, the innermost frames stand for each other. -/
structure Machine.Same (inner : Bool) (m m' : Machine) : Prop where
  store : m.store.Same K.forgetting P m'.store
  scope : P.Sees m.scope.chain m'.scope.chain
  innermost : inner = true → P.left[m.scope.inner]? = some (some m'.scope.inner)
  callDepth : m'.callDepth = m.callDepth
  issued : m'.issued = m.issued
  clock : ∀ n, K.config'.clock (m'.readings + n) = K.config.clock (m.readings + n)
  sink : m'.sink = m.sink

/-- Faults that are the same, but for what is forgotten of the token that they are at. -/
inductive Diagnostic.Same : Diagnostic → Diagnostic → Prop
  | mark (cause : Cause) {t t' : Token} (h : F.mark t' = F.mark t) :
      Same (.atToken cause t) (.atToken cause t')
  | name (cause : Cause) {t t' : Token} (h : F.name t' = F.name t) :
      Same (.atToken cause t) (.atToken cause t')
  | same (d : Diagnostic) : Same d d

/-- The same reason to stop, but for what is forgotten of the token of a fault. -/
inductive Halt.Same : Halt → Halt → Prop
  | fault {d d' : Diagnostic} (h : d.Same F d') : Same (.fault d) (.fault d')
  | io (fault : IoFault) : Same (.io fault) (.io fault)

/-- The same ends of statements, but for what is forgotten. -/
inductive Flow.Same : Flow → Flow → Prop
  | normal : Same normal normal
  | breaking {t t' : Token} (h : F.mark t' = F.mark t) : Same (breaking t) (breaking t')
  | continuing {t t' : Token} (h : F.mark t' = F.mark t) : Same (continuing t) (continuing t')
  | returning {t t' : Token} {v v' : Value} (h : F.mark t' = F.mark t) (hv : v.Same F P v') :
      Same (returning t v) (returning t' v')

/-- What native functions are asked to do, the same but for what is forgotten. -/
inductive Action.Same : Action → Action → Prop
  | value {v v' : Value} (h : v.Same F P v') : Same (.value v) (.value v')
  | fault (d : Diagnostic) : Same (.fault d) (.fault d)
  | ioFault (fault : IoFault) : Same (.ioFault fault) (.ioFault fault)
  | write (text : String) {v v' : Value} (h : v.Same F P v') : Same (.write text v) (.write text v')
  | call {c c' : Callable} {vs vs' : List Value}
      (hcallee : (Value.callable c).Same F P (.callable c'))
      (harguments : List.Forall₂ (Value.Same F P) vs vs') : Same (.call c vs) (.call c' vs')
  | readClock : Same .readClock .readClock

/-- The configurations allow as many calls, and native functions do the same with arguments that are
the same. -/
structure Setting.Agrees : Prop where
  callLimit : K.config'.callLimit = K.config.callLimit
  host : ∀ (P : Pairing) (f : Native) (vs vs' : List Value),
    List.Forall₂ (Value.Same K.forgetting P) vs vs' →
      (K.config.host f vs).Same K.forgetting P (K.config'.host f vs')

end

variable {K : Setting} {F : Forgetting} {P P' : Pairing} {inner : Bool}

/-! ### The other way round -/

theorem Machine.Same.swap {m m' : Machine} (h : m.Same K P inner m') :
    m'.Same K.swap P.swap inner m where
  store := h.store.swap
  scope := h.scope.swap
  innermost hinner := (P.agree ..).1 (h.innermost hinner)
  callDepth := h.callDepth.symm
  issued := h.issued.symm
  clock n := (h.clock n).symm
  sink := h.sink.symm

/-- Machines that came from others with the scopes of these, which are current again. -/
theorem Machine.Same.restore {m m' m₁ m₁' : Machine} {inner' : Bool} (h : m.Same K P inner m')
    (grows : P.Grows P') (h₁ : m₁.Same K P' inner' m₁') :
    { m₁ with scope := m.scope }.Same K P' inner { m₁' with scope := m'.scope } :=
  { h₁ with
    scope := h.scope.mono grows
    innermost := fun hinner => getElem?_of_grows grows.left (h.innermost hinner) }

theorem Diagnostic.Same.swap {d d' : Diagnostic} (h : d.Same F d') : d'.Same F d := by
  cases h with
  | mark cause h => exact .mark cause h.symm
  | name cause h => exact .name cause h.symm
  | same => exact .same _

theorem Halt.Same.swap {e e' : Halt} (h : e.Same F e') : e'.Same F e := by
  cases h with
  | fault h => exact .fault h.swap
  | io => exact .io _

theorem Flow.Same.swap {flow flow' : Flow} (h : flow.Same F P flow') :
    flow'.Same F P.swap flow := by
  cases h with
  | normal => exact .normal
  | breaking h => exact .breaking h.symm
  | continuing h => exact .continuing h.symm
  | returning h hv => exact .returning h.symm hv.swap

theorem Action.Same.swap {a a' : Action} (h : a.Same F P a') : a'.Same F P.swap a := by
  cases h with
  | value h => exact .value h.swap
  | fault => exact .fault _
  | ioFault => exact .ioFault _
  | write text h => exact .write text h.swap
  | call hcallee harguments =>
    exact .call hcallee.swap (harguments.flip.imp fun _ _ hv => hv.swap)
  | readClock => exact .readClock

theorem Setting.Agrees.swap (h : K.Agrees) : K.swap.Agrees where
  callLimit := h.callLimit.symm
  host P f vs vs' hvs := (h.host P.swap f vs' vs (hvs.flip.imp fun _ _ hv => hv.swap)).swap

/-! ### A machine beside itself -/

/-- The current scope, and the functions in the store, see frames that there are. -/
structure Machine.Grounded (m : Machine) : Prop where
  scope : ∀ id ∈ m.scope.chain, id < m.store.size
  store : m.store.Grounded

/-- What was told is of no matter. -/
theorem Machine.same_refl {m : Machine} (h : m.Grounded) (hclock : K.config'.clock = K.config.clock)
    (log log' : Array Event) :
    { m with log }.Same K (.same m.store.size) true { m with log := log' } where
  store := Store.same_refl h.store
  scope := Pairing.sees_same h.scope
  innermost _ := Pairing.left_same (h.scope _ List.mem_cons_self)
  callDepth := rfl
  issued := rfl
  clock _ := by rw [hclock]
  sink := rfl

/-! ### Standard native functions -/

/-- The standard native functions look at nothing but the texts of values. -/
theorem Setting.agrees_of_standard (hlimit : K.config'.callLimit = K.config.callLimit)
    (standard : K.config.host = .standard) (standard' : K.config'.host = .standard) :
    K.Agrees where
  callLimit := hlimit
  host P f vs vs' h := by
    rw [standard, standard', Host.standard_looks f (h.imp fun _ _ hv => hv.looks)]
    rcases Host.standard_eq f vs with heq | ⟨text, heq⟩ | heq <;> rw [heq]
    · exact .readClock
    · exact .write text (.same rfl)
    · exact .value (.same rfl)

/-! ## Computations -/

namespace Eval

variable {α β γ δ : Type} {R : Pairing → α → β → Prop} {S : Pairing → γ → δ → Prop}
  {act : Eval α} {act' act'' : Nat → Eval β}

variable (K P inner R) in
/-- Results in machines that are the same, perhaps with new frames: two values in the relation `R`,
or the same reason to stop. -/
inductive ResultSame :
    EStateM.Result Halt Machine α → EStateM.Result Halt Machine β → Prop
  | ok {a : α} {b : β} {m m' : Machine} {P' : Pairing} (grows : P.Grows P') (h : R P' a b)
      (hm : m.Same K P' inner m') : ResultSame (.ok a m) (.ok b m')
  | error {e e' : Halt} {m m' : Machine} {P' : Pairing} (grows : P.Grows P')
      (h : e.Same K.forgetting e') (hm : m.Same K P' inner m') :
      ResultSame (.error e m) (.error e' m')

variable (K P inner R) in
/-- From machines that are the same, now or with more frames, the first computation runs out of
fuel, or the second one ends the same with all fuel that is enough. -/
def Follows (act : Eval α) (act' : Nat → Eval β) : Prop :=
  ∀ P', P.Grows P' → ∀ m m' : Machine, m.Same K P' inner m' →
    (∃ m₁, act m = .error .outOfFuel m₁) ∨
      ∃ r, (∀ᶠ fuel in atTop, act' fuel m' = r) ∧ ResultSame K P' inner R (act m) r

variable (K P inner) in
/-- Each of two computations follows the other, whatever fuel that has. -/
structure Interchangeable (R : Forgetting → Pairing → α → α → Prop) (act act' : Nat → Eval α) :
    Prop where
  forth : ∀ fuel, Follows K P inner (R K.forgetting) (act fuel) act'
  back : ∀ fuel, Follows K.swap P.swap inner (R K.forgetting) (act' fuel) act

theorem Follows.mono (h : Follows K P inner R act act') (grows : P.Grows P') :
    Follows K P' inner R act act' :=
  fun P'' grows' => h P'' (grows.trans grows')

/-- Where the second computation needs no fuel, both are looked at as they are. -/
theorem follows_of_steps {step : Eval β} (h : ∀ P', P.Grows P' → ∀ m m' : Machine,
    m.Same K P' inner m' → ResultSame K P' inner R (act m) (step m')) :
    Follows K P inner R act fun _ => step :=
  fun P' grows m m' hm => .inr ⟨step m', .of_forall fun _ => rfl, h P' grows m m' hm⟩

theorem follows_pure {a : α} {b : β} (h : ∀ P', P.Grows P' → R P' a b) :
    Follows K P inner R (pure a) fun _ => pure b :=
  follows_of_steps fun P' grows _ _ hm => .ok (.refl P') (h P' grows) hm

theorem follows_value {v v' : Value} (h : v.Same K.forgetting P v') :
    Follows K P inner (Value.Same K.forgetting) (pure v) fun _ => pure v' :=
  follows_pure fun _ => h.mono

theorem follows_throw {e e' : Halt} (h : e.Same K.forgetting e') :
    Follows K P inner R (throw e) fun _ => throw e' :=
  follows_of_steps fun P' _ _ _ hm => .error (.refl P') h hm

theorem follows_outOfFuel : Follows K P inner R (throw .outOfFuel) act' :=
  fun _ _ m _ _ => .inl ⟨m, rfl⟩

/-- What the second computation does with little fuel is of no matter. -/
theorem Follows.congr (h : Follows K P inner R act act')
    (heq : ∀ᶠ fuel in atTop, act'' fuel = act' fuel) : Follows K P inner R act act'' := by
  intro P' grows m m' hm
  refine (h P' grows m m' hm).imp_right ?_
  rintro ⟨r, hr, hsame⟩
  refine ⟨r, ?_, hsame⟩
  filter_upwards [hr, heq] with fuel hr heq
  rw [heq, hr]

/-- The second computation may need one fuel more. -/
theorem Follows.of_succ (h : Follows K P inner R act fun fuel => act' (fuel + 1)) :
    Follows K P inner R act act' := by
  intro P' grows m m' hm
  refine (h P' grows m m' hm).imp_right ?_
  rintro ⟨r, hr, hsame⟩
  refine ⟨r, ?_, hsame⟩
  rw [← map_add_atTop_eq_nat 1]
  exact hr

theorem Follows.bind {next : α → Eval γ} {next' : Nat → β → Eval δ}
    (h : Follows K P inner R act act')
    (hnext : ∀ P', P.Grows P' → ∀ a b, R P' a b →
      Follows K P' inner S (next a) fun fuel => next' fuel b) :
    Follows K P inner S (act >>= next) fun fuel => act' fuel >>= next' fuel := by
  intro P₁ grows m m' hm
  rcases h P₁ grows m m' hm with ⟨m₁, hfuel⟩ | ⟨r, hr, hsame⟩
  · exact .inl ⟨m₁, bind_of_error hfuel⟩
  · rw [bind_apply]
    revert hsame
    generalize act m = result
    rintro (⟨grows', hab, hm⟩ | ⟨grows', he, hm⟩)
    · rename_i a b m₁ m₁' P₂
      refine (hnext P₂ (grows.trans grows') a b hab P₂ (.refl P₂) m₁ m₁' hm).imp_right ?_
      rintro ⟨r', hr', hsame⟩
      refine ⟨r', ?_, ?_⟩
      · filter_upwards [hr, hr'] with fuel hr hr'
        rw [bind_of_ok hr, hr']
      · dsimp only
        revert hsame
        generalize next a m₁ = result
        rintro (⟨grows'', h, hm⟩ | ⟨grows'', he, hm⟩)
        · exact .ok (grows'.trans grows'') h hm
        · exact .error (grows'.trans grows'') he hm
    · refine .inr ⟨_, ?_, .error grows' he hm⟩
      filter_upwards [hr] with fuel hr
      rw [bind_of_error hr]

/-! ### Names and faults -/

theorem follows_faultAt {t t' : Token} (h : K.forgetting.mark t' = K.forgetting.mark t)
    (cause : RuntimeFault) : Follows K P inner R (faultAt t cause) fun _ => faultAt t' cause :=
  follows_throw (.fault (.mark _ h))

theorem follows_liftAt {t t' : Token} (ht : K.forgetting.mark t' = K.forgetting.mark t)
    {result : Except RuntimeFault Value} (h : ∀ u, result = .ok u → u.isScript = false) :
    Follows K P inner (Value.Same K.forgetting) (liftAt t result) fun _ => liftAt t' result := by
  cases result with
  | ok u => exact follows_value (.same (h u rfl))
  | error cause => exact follows_faultAt ht cause

theorem undefinedAt_same {t t' : Token} (h : F.name t' = F.name t) :
    (Store.undefinedAt t).Same F (Store.undefinedAt t') := by
  unfold Store.undefinedAt
  rw [F.lexeme_eq h]
  exact .name _ h

theorem follows_readName {t t' : Token} (h : K.forgetting.name t' = K.forgetting.name t) :
    Follows K P inner (Value.Same K.forgetting) (readName t) fun _ => readName t' := by
  refine follows_of_steps fun P' _ m m' hm => ?_
  have hlookup := hm.store.lookup? hm.scope t.lexeme
  unfold readName Store.read
  rw [K.forgetting.lexeme_eq h]
  revert hlookup
  generalize m.store.lookup? m.scope t.lexeme = found
  generalize m'.store.lookup? m'.scope t.lexeme = found'
  rintro (hv | _)
  · exact .ok (.refl P') hv hm
  · exact .error (.refl P') (.fault (undefinedAt_same h)) hm

theorem follows_writeName {t t' : Token} (h : K.forgetting.name t' = K.forgetting.name t)
    {v v' : Value} (hv : v.Same K.forgetting P v') :
    Follows K P inner (fun _ _ _ => True) (writeName t v) fun _ => writeName t' v' := by
  refine follows_of_steps fun P' grows m m' hm => ?_
  have hbinder := hm.store.binder? hm.scope t.lexeme
  unfold writeName Store.locate
  rw [K.forgetting.lexeme_eq h]
  revert hbinder
  generalize m.store.binder? m.scope.chain t.lexeme = found
  generalize m'.store.binder? m'.scope.chain t.lexeme = found'
  rintro (hij | _)
  · exact .ok (.refl P') trivial { hm with store := hm.store.define hij _ (hv.mono grows) }
  · exact .error (.refl P') (.fault (undefinedAt_same h)) hm

theorem follows_defineName (name : String) {v v' : Value} (hv : v.Same K.forgetting P v') :
    Follows K P true (fun _ _ _ => True) (defineName name v) fun _ => defineName name v' :=
  follows_of_steps fun P' grows _ _ hm => .ok (.refl P') trivial
    { hm with store := hm.store.define (hm.innermost rfl) name (hv.mono grows) }

theorem follows_makeFunction (name : Option String) {parameters parameters' : List Token}
    {body body' : List Stmt}
    (hparameters : parameters'.map K.forgetting.name = parameters.map K.forgetting.name)
    (hbody : Stmt.forgetAll K.forgetting body' = Stmt.forgetAll K.forgetting body) :
    Follows K P inner (Value.Same K.forgetting) (makeFunction name parameters body)
      fun _ => makeFunction name parameters' body' := by
  refine follows_of_steps fun P' _ m m' hm => ?_
  refine .ok (.refl P') ?_ { hm with issued := congrArg (· + 1) hm.issued }
  rw [hm.issued]
  exact .script ⟨rfl, K.forgetting.map_lexeme_eq hparameters, hbody, hm.scope⟩

/-! ### Scopes and calls -/

/-- Two scopes, the innermost frames of which stand for each other. -/
def ScopesSame (P : Pairing) (scope scope' : Scope) : Prop :=
  P.Sees scope.chain scope'.chain ∧ P.left[scope.inner]? = some (some scope'.inner)

theorem follows_newScope {outer outer' : Scope} (houter : P.Sees outer.chain outer'.chain)
    {f f' : Frame} (hf : f.Same K.forgetting P f') :
    Follows K P inner ScopesSame (newScope outer f) fun _ => newScope outer' f' := by
  refine follows_of_steps fun P' grows m m' hm => ?_
  refine .ok P'.grows_both ?_
    { hm with
      store := hm.store.addBoth (hf.mono grows)
      scope := hm.scope.mono P'.grows_both
      innermost := fun hinner => getElem?_of_grows P'.grows_both.left (hm.innermost hinner) }
  rw [ScopesSame, Scope.chain_enter, Scope.chain_enter, ← hm.store.left, ← hm.store.right]
  exact ⟨(houter.mono grows).enterBoth, P'.left_both⟩

theorem follows_enterBlock : Follows K P inner ScopesSame enterBlock fun _ => enterBlock := by
  refine follows_of_steps fun P' _ m m' hm => ?_
  refine .ok P'.grows_both ?_
    { hm with
      store := hm.store.addBoth .nil
      scope := hm.scope.mono P'.grows_both
      innermost := fun hinner => getElem?_of_grows P'.grows_both.left (hm.innermost hinner) }
  rw [ScopesSame, Scope.chain_enter, Scope.chain_enter, ← hm.store.left, ← hm.store.right]
  exact ⟨hm.scope.enterBoth, P'.left_both⟩

theorem Follows.within {inner' : Bool} {scope scope' : Scope}
    (h : Follows K P inner' R act act') (hscope : ScopesSame P scope scope') :
    Follows K P inner R (within scope act) fun fuel => within scope' (act' fuel) := by
  intro P' grows m m' hm
  have hact := h P' grows { m with scope } { m' with scope := scope' }
    { hm with
      scope := hscope.1.mono grows
      innermost := fun _ => getElem?_of_grows grows.left hscope.2 }
  rcases hact with ⟨m₁, hfuel⟩ | ⟨r, hr, hsame⟩
  · exact .inl ⟨_, within_error hfuel⟩
  · refine .inr ?_
    generalize hresult : act { m with scope } = result at hsame
    cases hsame with
    | ok grows' hab hm₁ =>
      refine ⟨_, hr.mono fun fuel => within_ok, ?_⟩
      rw [within_ok hresult]
      exact .ok grows' hab (hm.restore grows' hm₁)
    | error grows' he hm₁ =>
      refine ⟨_, hr.mono fun fuel => within_error, ?_⟩
      rw [within_error hresult]
      exact .error grows' he (hm.restore grows' hm₁)

theorem Follows.counted (h : Follows K P inner R act act') :
    Follows K P inner R (counted act) fun fuel => counted (act' fuel) := by
  intro P' grows m m' hm
  have hact := h P' grows { m with callDepth := m.callDepth + 1 }
    { m' with callDepth := m'.callDepth + 1 }
    { hm with callDepth := congrArg (· + 1) hm.callDepth }
  rcases hact with ⟨m₁, hfuel⟩ | ⟨r, hr, hsame⟩
  · exact .inl ⟨_, counted_error hfuel⟩
  · refine .inr ?_
    generalize hresult : act { m with callDepth := m.callDepth + 1 } = result at hsame
    cases hsame with
    | ok grows' hab hm₁ =>
      refine ⟨_, hr.mono fun fuel => counted_ok, ?_⟩
      rw [counted_ok hresult]
      exact .ok grows' hab { hm₁ with callDepth := congrArg (· - 1) hm₁.callDepth }
    | error grows' he hm₁ =>
      refine ⟨_, hr.mono fun fuel => counted_error, ?_⟩
      rw [counted_error hresult]
      exact .error grows' he { hm₁ with callDepth := congrArg (· - 1) hm₁.callDepth }

/-! ### Output, events and the clock -/

theorem follows_write (text : String) :
    Follows K P inner (fun _ _ _ => True) (write text) fun _ => write text := by
  refine follows_of_steps fun P' _ m m' hm => ?_
  unfold write
  rw [hm.sink]
  dsimp only
  cases m.sink.refusal? text.toUTF8 with
  | none => exact .ok (.refl P') trivial { hm with sink := rfl }
  | some fault => exact .error (.refl P') (.io fault) { hm with sink := rfl }

theorem follows_flush : Follows K P inner (fun _ _ _ => True) flush fun _ => flush := by
  refine follows_of_steps fun P' _ m m' hm => ?_
  unfold flush
  rw [hm.sink]
  cases m.sink.flush with
  | none => exact .ok (.refl P') trivial hm
  | some fault => exact .error (.refl P') (.io fault) hm

theorem follows_tellCall (f f' : Closure) (scope scope' : Scope) :
    Follows K P inner (fun _ _ _ => True) (tellCall K.config f scope)
      fun _ => tellCall K.config' f' scope' := by
  refine follows_of_steps fun P' _ m m' hm => ?_
  unfold tellCall
  split <;> split <;> exact .ok (.refl P') trivial { hm with }

theorem follows_newReading : Follows K P inner (fun _ n n' => K.config'.clock n' = K.config.clock n)
    newReading fun _ => newReading := by
  refine follows_of_steps fun P' _ m m' hm => .ok (.refl P') (hm.clock 0) { hm with clock := ?_ }
  intro n
  have hclock := hm.clock (n + 1)
  rwa [← Nat.add_assoc, ← Nat.add_assoc, Nat.add_right_comm, Nat.add_right_comm m.readings]
    at hclock

theorem follows_get :
    Follows K P inner (fun _ m m' => m'.callDepth = m.callDepth) get fun _ => get :=
  follows_of_steps fun P' _ _ _ hm => .ok (.refl P') hm.callDepth hm

/-! ### Lists -/

theorem Follows.mapM {f : γ → Eval α} {f' : Nat → δ → Eval β} {cs : List γ} {ds : List δ}
    (hmono : ∀ P P' a b, P.Grows P' → R P a b → R P' a b)
    (h : List.Forall₂ (fun c d => Follows K P inner R (f c) fun fuel => f' fuel d) cs ds) :
    Follows K P inner (fun P => List.Forall₂ (R P)) (cs.mapM f) fun fuel => ds.mapM (f' fuel) := by
  induction h with
  | nil => simpa using follows_pure fun _ _ => .nil
  | cons hc _ ih =>
    simp only [List.mapM_cons]
    refine hc.bind fun P₁ grows a b hab => (ih.mono grows).bind fun P₂ grows' as bs habs => ?_
    refine follows_pure fun P₃ grows'' => ?_
    exact .cons (hmono _ _ a b (grows'.trans grows'') hab)
      (habs.imp fun a b => hmono _ _ a b grows'')

end Eval

end Scripting
