import Scripting.Proofs.Grammar.Programs
import Scripting.Proofs.ForLoop.Names
import Scripting.Proofs.Same.Runs

/-!
# Loops with three clauses

* `forTurns`, `executeFor` : what a loop with an initial statement, a condition and a step does,
  told without blocks and other loops;
* `Grammar.ForClauses` : the clauses and the body of such a loop, as the grammar has them;
* `Grammar.Statement.bindsNothing` : a statement that is no declaration binds nothing in the scope
  that it stands in;
* `Machine.SeenSame`, `Eval.SeenSame` : machines and ends that look the same from a scope;
* `Grammar.Statement.for_means` : a loop with three clauses ends as `executeFor` tells.

The loop stands for a block with a loop in it, whose body is a block once more if there is a step.
The frames of the inner blocks bind no names, and so they stand for none.
-/

namespace Scripting

set_option autoImplicit false

open Eval

/-! ## What such a loop does -/

/-- The turns of a loop. Behind a turn that ends normally the step is taken, and behind one that is
broken off to continue it is not. -/
def forTurns (condition : Eval Value) (body : Eval Flow) (step : Eval Unit) :
    (turns : Nat) → Eval Flow
  | 0 => throw .outOfFuel
  | turns + 1 => do
    let v ← condition
    if v.isTruthy then
      match ← body with
      | .normal => do
        step
        forTurns condition body step turns
      | .continuing _ => forTurns condition body step turns
      | .breaking _ => pure .normal
      | .returning keyword value => pure (.returning keyword value)
    else pure .normal

/-- The value of a condition, which is true if it is missing. -/
def evaluateCondition (config : Config) (fuel : Nat) : Option Expr → Eval Value
  | some e => evaluate config fuel e
  | none => pure (.bool true)

/-- Takes a step, if there is one. -/
def takeStep (config : Config) (fuel : Nat) : Option Expr → Eval Unit
  | some e => do let _ ← evaluate config fuel e
  | none => pure ()

/-- What a loop with three clauses does: it makes a scope if there is an initial statement and runs
that in it once; then the condition, the body and the step come in turns. -/
def executeFor (config : Config) (fuel : Nat) (initial : Option Stmt)
    (condition step : Option Expr) (body : Stmt) : Eval Flow :=
  let turns := forTurns (evaluateCondition config fuel condition) (execute config fuel body)
    (takeStep config fuel step) fuel
  match initial with
  | some initial => do
    let scope ← enterBlock
    within scope do
      let _ ← execute config fuel initial
      turns
  | none => turns

/-! ### Turns -/

/-- Goes on behind a normal end. -/
def Flow.andThen (flow : Flow) (act : Eval Flow) : Eval Flow :=
  match flow with
  | normal => act
  | flow => pure flow

theorem runAll_cons (run : Stmt → Eval Flow) (s : Stmt) (ss : List Stmt) :
    runAll run (s :: ss) = run s >>= fun flow => flow.andThen (runAll run ss) := by
  rw [runAll]
  refine bind_congr fun flow => ?_
  cases flow <;> rfl

theorem runAll_singleton (run : Stmt → Eval Flow) (s : Stmt) : runAll run [s] = run s := by
  rw [runAll_cons]
  refine (bind_congr fun flow => ?_).trans (bind_pure (run s))
  cases flow <;> rfl

/-- A turn: the body, and the step behind its normal end. -/
def forTurn (body : Eval Flow) (step : Eval Unit) : Eval Flow :=
  body >>= fun flow => flow.andThen do
    step
    pure .normal

theorem forTurns_eq (condition : Eval Value) (body : Eval Flow) (step : Eval Unit) (turns : Nat) :
    forTurns condition body step turns = repeatWhile condition (forTurn body step) turns := by
  induction turns with
  | zero => rfl
  | succ turns ih =>
    rw [forTurns, repeatWhile, forTurn]
    refine bind_congr fun v => ?_
    split
    · rw [bind_assoc]
      refine bind_congr fun flow => ?_
      cases flow with
      | normal =>
        simp only [Flow.andThen, bind_assoc, pure_bind]
        exact bind_congr fun _ => ih
      | continuing =>
        simp only [Flow.andThen, pure_bind]
        exact ih
      | breaking | returning => simp only [Flow.andThen, pure_bind]
    · rfl

/-! ### The statement that it stands for -/

/-- The body of a loop with the step as a second statement. -/
def Stmt.turn (span : Span) (step : Option Expr) (body : Stmt) : Stmt :=
  match step with
  | some step => .block span [body, .expression step.span step]
  | none => body

theorem Stmt.forLoop_none (span : Span) (keyword : Token) (condition step : Option Expr)
    (body : Stmt) : forLoop span keyword none condition step body =
      .loop span (condition.getD (.literal keyword.span (.bool true))) (turn span step body) := rfl

theorem Stmt.forLoop_some (span : Span) (keyword : Token) (initial : Stmt)
    (condition step : Option Expr) (body : Stmt) :
    forLoop span keyword (some initial) condition step body =
      .block span [initial, forLoop span keyword none condition step body] := rfl

/-! ## What the grammar gives -/

namespace Grammar

/-- The tokens are those of the clauses of a loop in parentheses, and of its body. -/
structure ForClauses (dangling : Bool) (d : Nat) (ts : List Token) (initial : Option Stmt)
    (condition step : Option Expr) (body : Stmt) : Prop where
  written : ∃ (opening middle closing : Token) (us vs ws xs : List Token),
    ts = opening :: us ++ vs ++ middle :: ws ++ closing :: xs ∧ opening.kind = .leftParen ∧
      InitialClause d us initial ∧ Clause d vs condition ∧ middle.kind = .semicolon ∧
      Clause d ws step ∧ closing.kind = .rightParen ∧ Statement dangling d xs body

variable {dangling : Bool} {d : Nat} {keyword : Token} {ts : List Token} {s : Stmt}

/-- A statement that begins with the word for such loops is one. -/
theorem StatementForm.exists_forClauses (h : StatementForm dangling d (keyword :: ts) s)
    (hkeyword : keyword.kind = .forWord) : ∃ initial condition step body,
      ForClauses dangling d ts initial condition step body ∧
        s = .forLoop (keyword.span.through body.span) keyword initial condition step body := by
  generalize hts : keyword :: ts = all at h
  cases h with
  | @forLoop _ _ _ opening middle closing us vs ws xs initial condition step body _ hopening first
      second hmiddle third hclosing inside =>
    obtain ⟨rfl, rfl⟩ := List.cons.inj hts
    exact ⟨initial, condition, step, body, ⟨opening, middle, closing, us, vs, ws, xs, rfl, hopening,
      first, second, hmiddle, third, hclosing, inside⟩, rfl⟩
  | branch h | branchElse h | leave h | loop h | breakLoop h | continueLoop h | block h =>
    obtain ⟨rfl, -⟩ := List.cons.inj hts
    rw [hkeyword] at h
    cases h
  | expression whole =>
    obtain ⟨t, us, rfl, ht⟩ := whole.starts
    obtain ⟨rfl, -⟩ := List.cons.inj hts
    rw [hkeyword] at ht
    cases ht

theorem bindsNothing_forLoop {span : Span} {initial : Option Stmt} {condition step : Option Expr}
    {body : Stmt} (h : body.bindsNothing = true) :
    (Stmt.forLoop span keyword initial condition step body).bindsNothing = true := by
  cases initial with
  | some => rfl
  | none =>
    cases step with
    | some => rfl
    | none => exact h

mutual

theorem Statement.bindsNothing {dangling : Bool} {d : Nat} {ts : List Token} {s : Stmt} :
    Statement dangling d ts s → s.bindsNothing = true
  | .nest _ inside => inside.bindsNothing

/-- A statement that is no declaration binds nothing in the scope that it stands in. -/
theorem StatementForm.bindsNothing {dangling : Bool} {d : Nat} {ts : List Token} {s : Stmt} :
    StatementForm dangling d ts s → s.bindsNothing = true
  | .forLoop _ _ _ _ _ _ _ inside => bindsNothing_forLoop inside.bindsNothing
  | .branch _ _ _ _ first => by
    rw [Stmt.bindsNothing, first.bindsNothing]
    rfl
  | .branchElse _ _ _ _ first _ second => by
    rw [Stmt.bindsNothing, first.bindsNothing]
    exact second.bindsNothing
  | .loop _ _ _ _ inside => by
    rw [Stmt.bindsNothing]
    exact inside.bindsNothing
  | .leave .. => rfl
  | .breakLoop .. => rfl
  | .continueLoop .. => rfl
  | .block .. => rfl
  | .expression whole => by
    cases whole
    rfl

end

/-- An initial statement ends normally, if it ends. -/
theorem InitialClause.flow {ts : List Token} {initial : Stmt}
    (h : InitialClause d ts (some initial)) {config : Config} {fuel : Nat} {m m' : Machine}
    {flow : Flow} (hrun : execute config fuel initial m = .ok flow m') : flow = .normal := by
  cases fuel with
  | zero => cases hrun
  | succ fuel =>
    have hdefine {span : Span} {name : Token} {value : Option Expr}
        (hrun : execute config (fuel + 1) (.define span name value) m = .ok flow m') :
        flow = .normal := by
      rw [execute_define] at hrun
      obtain ⟨v, m₁, -, hrun⟩ := bind_eq_ok.1 hrun
      obtain ⟨_, m₂, -, hrun⟩ := bind_eq_ok.1 hrun
      cases hrun
      rfl
    cases h with
    | define _ rest => cases rest <;> exact hdefine hrun
    | expression whole =>
      cases whole
      rw [execute, paced_eq] at hrun
      obtain ⟨v, m₁, -, hrun⟩ := bind_eq_ok.1 hrun
      cases hrun
      rfl

end Grammar

/-! ## Side by side -/

section

variable {K : Setting} {P : Pairing} {inner : Bool}

/-- A turn, and a loop with three clauses, keep the scope. -/
theorem advances_forTurn (config : Config) (fuel : Nat) (body : Stmt) (step : Option Expr) :
    (forTurn (execute config fuel body) (takeStep config fuel step)).Advances := by
  refine ((advancing config fuel).execute body).bind fun flow => ?_
  cases flow with
  | normal =>
    refine Advances.bind ?_ fun _ => advances_pure _
    cases step with
    | none => exact advances_pure _
    | some e => exact ((advancing config fuel).evaluate e).bind fun _ => advances_pure _
  | breaking | continuing | returning => exact advances_pure _

theorem advances_executeFor (config : Config) (fuel : Nat) (initial : Option Stmt)
    (condition step : Option Expr) (body : Stmt) :
    (executeFor config fuel initial condition step body).Advances := by
  have hcondition : (evaluateCondition config fuel condition).Advances := by
    cases condition with
    | none => exact advances_pure _
    | some e => exact (advancing config fuel).evaluate e
  have hturns : (forTurns (evaluateCondition config fuel condition) (execute config fuel body)
      (takeStep config fuel step) fuel).Advances := by
    rw [forTurns_eq]
    exact (closed_advances config).repeatWhile hcondition (advances_forTurn _ _ _ _) fuel
  cases initial with
  | none => exact hturns
  | some initial =>
    refine advances_enterBlock.bind fun scope => Advances.within ?_ scope
    exact ((advancing config fuel).execute initial).bind fun _ => hturns

/-- Behind ends that are the same, what comes may stand for each other. -/
theorem interchangeable_andThen {flow flow' : Flow} (h : flow.Same K.forgetting P flow')
    {act act' : Nat → Eval Flow} (hact : Interchangeable K P inner Flow.Same act act') :
    Interchangeable K P inner Flow.Same (fun fuel => flow.andThen (act fuel))
      fun fuel => flow'.andThen (act' fuel) := by
  cases h with
  | normal => exact hact
  | breaking h => exact .pure lasting_flow (.breaking h)
  | continuing h => exact .pure lasting_flow (.continuing h)
  | returning h hv => exact .pure lasting_flow (.returning h hv)

variable (agrees : K.Agrees)

include agrees

/-- A condition that is missing is the literal that stands for it. -/
theorem interchangeable_condition (span : Span) (condition : Option Expr) :
    Interchangeable K P inner Value.Same
      (fun fuel => evaluate K.config fuel (condition.getD (.literal span (.bool true))))
      fun fuel => evaluateCondition K.config' fuel condition := by
  cases condition with
  | some e => exact interchangeable_evaluate agrees rfl
  | none =>
    refine .of_succ rfl ?_
    simp only [Option.getD_none, evaluate, paced_eq]
    exact .pure lasting_value (.same rfl)

/-- A step is a statement behind the body. -/
theorem interchangeable_step (span : Span) (e : Expr) :
    Interchangeable K P inner Flow.Same (fun fuel => execute K.config fuel (.expression span e))
      fun fuel => takeStep K.config' fuel (some e) >>= fun _ => pure .normal := by
  refine .of_succ rfl ?_
  simp only [execute, paced_eq, takeStep, bind_assoc, pure_bind]
  exact (interchangeable_evaluate agrees rfl).bind lasting_value fun _ _ _ _ _ =>
    .pure lasting_flow .normal

/-- The body with the step is a turn. -/
theorem interchangeable_turn (span : Span) {body : Stmt} (hbody : body.bindsNothing = true)
    (step : Option Expr) :
    Interchangeable K P inner Flow.Same (fun fuel => execute K.config fuel (.turn span step body))
      fun fuel => forTurn (execute K.config' fuel body) (takeStep K.config' fuel step) := by
  have hexecute {inner : Bool} : Interchangeable K P inner Flow.Same
      (fun fuel => execute K.config fuel body) fun fuel => execute K.config' fuel body :=
    interchangeable_execute agrees body (.inr hbody)
  cases step with
  | none =>
    have hturn : (fun fuel => execute K.config fuel body) = fun fuel =>
        execute K.config fuel body >>= fun flow => flow.andThen (pure .normal) := by
      funext fuel
      refine (bind_pure _).symm.trans (bind_congr fun flow => ?_)
      cases flow <;> rfl
    simp only [Stmt.turn, forTurn, takeStep, pure_bind]
    rw [hturn]
    exact hexecute.bind lasting_flow fun _ _ _ _ hflow =>
      interchangeable_andThen hflow (.pure lasting_flow .normal)
  | some e =>
    refine .of_succ rfl ?_
    simp only [Stmt.turn, execute_block, runAll_cons _ body, runAll_singleton]
    refine Interchangeable.aside ?_ fun fuel => ?_
    · exact hexecute.bind lasting_flow fun _ _ _ _ hflow =>
        interchangeable_andThen hflow (interchangeable_step agrees _ e)
    · exact advances_forTurn _ _ _ _

theorem interchangeable_turns (span : Span) (keyword : Token) (condition step : Option Expr)
    {body : Stmt} (hbody : body.bindsNothing = true) :
    Interchangeable K P inner Flow.Same
      (fun fuel => execute K.config fuel (.forLoop span keyword none condition step body))
      fun fuel => executeFor K.config' fuel none condition step body := by
  refine .of_succ rfl ?_
  simp only [Stmt.forLoop_none, execute, paced_eq, executeFor, forTurns_eq]
  exact (interchangeable_condition agrees _ condition).repeatWhile
    (interchangeable_turn agrees span hbody step)

/-- The initial statement ends normally on both sides. -/
theorem interchangeable_initial {d : Nat} {ts : List Token} {initial : Stmt}
    (h : Grammar.InitialClause d ts (some initial)) :
    Interchangeable K P true (fun _ _ flow flow' => flow = .normal ∧ flow' = .normal)
      (fun fuel => execute K.config fuel initial) fun fuel => execute K.config' fuel initial := by
  have hflow {F : Forgetting} {P : Pairing} {flow flow' : Flow} (hsame : flow.Same F P flow')
      (hnormal : flow = .normal) : flow = .normal ∧ flow' = .normal := by
    subst hnormal
    cases hsame
    exact ⟨rfl, rfl⟩
  have hexecute := interchangeable_execute (K := K) (P := P) agrees initial (.inl rfl)
  exact ⟨fun fuel => (hexecute.forth fuel).of_ok fun _ hrun hsame => hflow hsame (h.flow hrun),
    fun fuel => (hexecute.back fuel).of_ok fun _ hrun hsame => hflow hsame (h.flow hrun)⟩

/-- A loop with three clauses may stand for what it does. -/
theorem interchangeable_for {d : Nat} {ts : List Token} {initial : Option Stmt}
    (h : Grammar.InitialClause d ts initial) (span : Span) (keyword : Token)
    (condition step : Option Expr) {body : Stmt} (hbody : body.bindsNothing = true) :
    Interchangeable K P inner Flow.Same
      (fun fuel => execute K.config fuel (.forLoop span keyword initial condition step body))
      fun fuel => executeFor K.config' fuel initial condition step body := by
  cases initial with
  | none => exact interchangeable_turns agrees span keyword condition step hbody
  | some initial =>
    refine .of_succ rfl ?_
    simp only [Stmt.forLoop_some, execute_block, runAll_cons _ initial, runAll_singleton]
    refine Interchangeable.block ?_
    have lasting : Lasting fun _ _ (flow flow' : Flow) => flow = .normal ∧ flow' = .normal :=
      ⟨And.symm, fun h _ => h⟩
    refine (interchangeable_initial agrees h).bind lasting ?_
    rintro P' - flow flow' ⟨rfl, rfl⟩
    exact interchangeable_turns agrees span keyword condition step hbody

end

/-! ## Ends -/

/-- Machines that look the same from the scope of `m`: that is current in both, the output is the
same, and each name that is visible has values that are the same. -/
structure Machine.SeenSame (config : Config) (P : Pairing) (m m₁ m₁' : Machine) : Prop where
  scope : m₁.scope = m.scope
  scope' : m₁'.scope = m.scope
  sink : m₁'.sink = m₁.sink
  visible : ∀ name, Option.Rel (Value.Same .nothing P) (m₁.store.lookup? m.scope name)
    (m₁'.store.lookup? m.scope name)
  same : m₁.Same ⟨.nothing, config, config⟩ P true m₁'

/-- Ends of computations from `m` that look the same: with the same flow or for the same reason, in
machines that look the same. Frames that were there stand for themselves. -/
inductive Eval.SeenSame (config : Config) (m : Machine) :
    EStateM.Result Halt Machine Flow → EStateM.Result Halt Machine Flow → Prop
  | ok {P : Pairing} {flow flow' : Flow} {m₁ m₁' : Machine}
      (grows : (Pairing.same m.store.size).Grows P) (hflow : flow.Same .nothing P flow')
      (seen : Machine.SeenSame config P m m₁ m₁') : SeenSame config m (.ok flow m₁) (.ok flow' m₁')
  | error {P : Pairing} (e : Halt) {m₁ m₁' : Machine}
      (grows : (Pairing.same m.store.size).Grows P)
      (seen : Machine.SeenSame config P m m₁ m₁') : SeenSame config m (.error e m₁) (.error e m₁')

/-- Where nothing is forgotten, halts that are the same are equal. -/
theorem Halt.Same.eq {e e' : Halt} (h : e.Same .nothing e') : e' = e := by
  cases h with
  | fault h =>
    cases h with
    | @mark _ t t' h => rw [show t' = t from h]
    | @name _ t t' h => rw [show t' = t from h]
    | same => rfl
  | io => rfl

theorem Machine.Same.seen {config : Config} {P : Pairing} {m m₁ m₁' : Machine}
    (h : m₁.Same ⟨.nothing, config, config⟩ P true m₁') (hscope : m₁.scope = m.scope)
    (hscope' : m₁'.scope = m.scope) : Machine.SeenSame config P m m₁ m₁' where
  scope := hscope
  scope' := hscope'
  sink := h.sink
  visible name := by
    have hlookup := h.store.lookup? h.scope name
    rwa [hscope, hscope'] at hlookup
  same := h

theorem Eval.ResultSame.seen {config : Config} {act act' : Eval Flow} {m : Machine}
    (h : ResultSame ⟨.nothing, config, config⟩ (.same m.store.size) true (Flow.Same .nothing)
      (act m) (act' m)) (advances : act.Advances) (advances' : act'.Advances) :
    SeenSame config m (act m) (act' m) := by
  generalize hleft : act m = r at h ⊢
  generalize hright : act' m = r' at h ⊢
  cases h with
  | ok grows hflow hm =>
    exact .ok grows hflow (hm.seen (advances.of_ok hleft).scope (advances'.of_ok hright).scope)
  | error grows he hm =>
    obtain rfl := he.eq
    exact .error _ grows
      (hm.seen (advances.of_error hleft).scope (advances'.of_error hright).scope)

/-- What has been written behind a computation that ends normally. -/
def Eval.normalOutput? (act : Eval Flow) (m : Machine) : Option ByteArray :=
  match act m with
  | .ok .normal m' => some m'.sink.written
  | _ => none

theorem Eval.ends_of_normalOutput? {act : Eval Flow} {m : Machine} {output : ByteArray}
    (h : act.normalOutput? m = some output) : act.Ends m := by
  intro m' hfuel
  rw [normalOutput?, hfuel] at h
  cases h

theorem Eval.SeenSame.normalOutput?_eq {config : Config} {act act' : Eval Flow} {m : Machine}
    (h : SeenSame config m (act m) (act' m)) : act'.normalOutput? m = act.normalOutput? m := by
  unfold normalOutput?
  generalize act m = r at h ⊢
  generalize act' m = r' at h ⊢
  cases h with
  | ok grows hflow seen => cases hflow <;> simp [seen.sink]
  | error => rfl

/-- A loop with three clauses, wherever it is accepted and in whatever state it is run, does what is
told of its clauses. And nothing that is declared in its body is seen by its condition or its step:
behind the body, each name is bound where it was bound before. -/
theorem Grammar.Statement.for_means {config : Config}
    (agrees : Setting.Agrees ⟨.nothing, config, config⟩) {dangling : Bool} {d : Nat}
    {keyword : Token} {ts : List Token} {s : Stmt} (h : Statement dangling d (keyword :: ts) s)
    (hkeyword : keyword.kind = .forWord) :
    ∃ initial condition step body,
      ForClauses dangling (d + 1) ts initial condition step body ∧
        ∀ m : Machine, m.Grounded →
          ((∃ fuel, (execute config fuel s).Ends m) ↔
              ∃ fuel, (executeFor config fuel initial condition step body).Ends m) ∧
            (∀ fuel fuel', (execute config fuel s).Ends m →
              (executeFor config fuel' initial condition step body).Ends m →
              Eval.SeenSame config m (execute config fuel s m)
                (executeFor config fuel' initial condition step body m)) ∧
            ∀ fuel name, let m' := (execute config fuel body).final m
              m'.scope = m.scope ∧
                m'.store.binder? m.scope.chain name = m.store.binder? m.scope.chain name := by
  obtain ⟨-, form⟩ := h
  obtain ⟨initial, condition, step, body, written, rfl⟩ := form.exists_forClauses hkeyword
  refine ⟨initial, condition, step, body, written, fun m grounded => ?_⟩
  obtain ⟨_, _, _, _, _, _, _, -, -, first, -, -, -, -, inside⟩ := written
  have hfor : Eval.Interchangeable ⟨.nothing, config, config⟩ (.same m.store.size) true Flow.Same _
      _ := interchangeable_for agrees first (keyword.span.through body.span) keyword condition step
    inside.bindsNothing
  have hends := hfor.ends lasting_flow (Machine.same_refl grounded rfl m.log m.log) ?_
  · refine ⟨hends.1, fun fuel fuel' hends₁ hends₂ => ?_, fun fuel name => ?_⟩
    · exact (hends.2 fuel fuel' hends₁ hends₂).seen ((advancing config fuel).execute _)
        (advances_executeFor _ _ _ _ _ _)
    · have hdeclares : (execute config fuel body).DeclaresIn false :=
        (declaring config fuel).execute body (.inr inside.bindsNothing)
      have hscope := (hdeclares.advances m).scope
      have hbinder := hdeclares.binder? grounded.scope name
      exact ⟨hscope, hscope ▸ hbinder⟩
  · intro fuel fuel' hle hends₁
    rcases (agreeing (.refl _ config) hle fun _ => rfl).execute _ m with heq | ⟨e, m₁, herror, rfl⟩
    · exact heq
    · exact absurd herror (hends₁ m₁)

/-- A loop with all clauses, whose body declares the name that the condition and the step use. It
prints `0`, goes from `1` on to `3` without its step, prints `3` and ends. -/
theorem Grammar.Statement.for_means_declared :
    let source := "for (let i = 0; i < 4; i += 1) \x7b " ++
      "if (i == 1) \x7b i = 3; continue; \x7d print(i); let i = 9; \x7d"
    let m := (Interpreter.new {} "session" {}).machine
    ∃ dangling keyword ts s, keyword :: ts = beforeEnd (scan source).tokens ∧
      Statement dangling 0 (keyword :: ts) s ∧ ∃ initial condition step body,
        ForClauses dangling 1 ts initial condition step body ∧
          ((∃ fuel, (execute {} fuel s).Ends m) ↔
              ∃ fuel, (executeFor {} fuel initial condition step body).Ends m) ∧
            (∀ fuel fuel', (execute {} fuel s).Ends m →
              (executeFor {} fuel' initial condition step body).Ends m →
              Eval.SeenSame {} m (execute {} fuel s m)
                (executeFor {} fuel' initial condition step body m)) ∧
            ∃ fuel fuel', (execute {} fuel s).normalOutput? m = some "0\n3\n".toUTF8 ∧
              (executeFor {} fuel' initial condition step body).normalOutput? m =
                some "0\n3\n".toUTF8 := by
  intro source m
  have hrun : (Program.ofTokens? (scan source).tokens).toOption.map
      (List.map fun s => (execute {} 12 s).normalOutput? m) = some [some "0\n3\n".toUTF8] := by
    decide +kernel
  obtain ⟨ss, hss, hone⟩ := Option.map_eq_some_iff.1 hrun
  obtain ⟨s, rfl, houtput⟩ := List.map_eq_singleton_iff.1 hone
  have hkind : (beforeEnd (scan source).tokens).head?.map Token.kind = some .forWord := by
    decide +kernel
  obtain ⟨keyword, hhead, hkeyword⟩ := Option.map_eq_some_iff.1 hkind
  obtain ⟨ts, hts⟩ := List.head?_eq_some_iff.1 hhead
  have hparsed : Program.ofTokens? (scan source).tokens = .ok [s] := by
    revert hss
    cases Program.ofTokens? (scan source).tokens with
    | error => exact fun h => by cases h
    | ok => exact fun h => congrArg _ (Option.some.inj h)
  have hwritten := Program.declarations_of_ofTokens? hparsed
  rw [hts] at hwritten
  obtain ⟨dangling, hstatement⟩ : ∃ dangling, Statement dangling 0 (keyword :: ts) s := by
    generalize keyword :: ts = all at hwritten hts
    cases hwritten with | cons first others => ?_
    cases others
    rw [List.append_nil] at hts ⊢
    rw [hts] at hhead
    cases first with
    | function h | define h =>
      obtain rfl := Option.some.inj hhead
      rw [h] at hkeyword
      cases hkeyword
    | statement whole => exact ⟨_, whole⟩
  have grounded : m.Grounded := ((@Session.new {} "session" {}).settled rfl).grounded
  have agrees : Setting.Agrees ⟨.nothing, {}, {}⟩ := Setting.agrees_of_standard rfl rfl rfl
  obtain ⟨initial, condition, step, body, written, hmeans⟩ :=
    hstatement.for_means agrees hkeyword
  obtain ⟨hends, hseen, -⟩ := hmeans m grounded
  have ends := Eval.ends_of_normalOutput? houtput
  obtain ⟨fuel', ends'⟩ := hends.1 ⟨12, ends⟩
  have houtput' := (hseen 12 fuel' ends ends').normalOutput?_eq.trans houtput
  exact ⟨dangling, keyword, ts, s, hts.symm, hstatement, initial, condition, step, body, written,
    hends, hseen, 12, fuel', houtput, houtput'⟩

end Scripting
