import Scripting.Proofs.Calls.Depth
import Scripting.Proofs.Control.Faults
import Scripting.Proofs.Machine.Agreement
import Scripting.Proofs.Points.Spread

/-!
# Calls that are one too many

* `Overflows config p paren m q` : evaluating `p` comes to the call `q`, which is one too many: the
  callee and the arguments are evaluated, in the machine `m`, and can be called, but no further call
  may be in progress (`Overflows.halts`);
* `Raises.overflows`, `Halts.overflows` : no other point raises the fault of such a call;
* `Trail.overflow_unique` : there is no more than one such call in a run;
* `Starts.widened`, `Overflows.starts` : where more calls are allowed, the same parts are started,
  and that call too;
* `Departs`, `Starts.departs` : a part that is started there is started here too; or a part before
  it halts here for a call too many; or it is itself such a call;
* `Trail.widened`, `Trail.narrowed`, `Trail.departs` : so a run where more calls are allowed is the
  same up to the call that is one too many, and whatever else is evaluated in it is evaluated in
  that call or behind it.
-/

namespace Scripting

set_option autoImplicit false

open Eval Relation

/-- Evaluating the first point comes to a call that is one too many: the second, which would begin
in the given machine. The fault is at the given parenthesis. -/
inductive Overflows (config : Config) : Point → Token → Machine → Point → Prop
  | call {span : Span} {paren : Token} {callee : Expr} {arguments : List Expr} {n : Nat}
      {m m₁ m₂ : Machine} {f : Value} {vs : List Value} {c : Callable}
      (hcallee : evaluate config n callee m = .ok f m₁)
      (harguments : arguments.mapM (evaluate config n) m₁ = .ok vs m₂)
      (hcallable : f.callable? = some c) (harity : c.arity.accepts vs.length = true)
      (hfull : config.allowsCall m₂.callDepth = false) :
      Overflows config ⟨.expr (.call span paren callee arguments), n + 1, m⟩ paren m₂
        ⟨.call c vs, n, { m₂ with callDepth := m₂.callDepth + 1 }⟩

/-- The part `q` of `p` is started by the first configuration; or a part before it halts there for
a call too many, and by the second one `q` comes behind that; or `q` is itself a call that is one
too many there. -/
inductive Departs (config config' : Config) (p : Point) (vs : List Value) (q : Point) : Prop
  | same (starts : Starts config p vs q)
  | before {ws : List Value} {r : Point} {h : Halt} (starts : Starts config p ws r)
      (halts : Halts config r h) (overflow : h.IsOverflow)
      (follows : TransGen (Follows config' p) r q)
  | here {paren : Token} {m : Machine} (overflows : Overflows config p paren m q)

/-- The fault of a call that is one too many. -/
def Halt.overflowAt (paren : Token) : Halt := .fault (.atToken (.runtime .stackOverflow) paren)

variable {config config' : Config} {p q r start : Point} {vs : List Value} {paren paren' : Token}
  {m m' : Machine} {around around' inner T : List Point} {h : Halt}

/-! ## The fault -/

/-- A fault at a token is that of a call too many if it is caused by one. -/
theorem Halt.isOverflow_atToken {cause : RuntimeFault} {t : Token} :
    (Halt.fault (.atToken (.runtime cause) t)).IsOverflow ↔ cause = .stackOverflow := by
  constructor
  · rintro ⟨t', ht⟩
    exact Cause.runtime.inj (congrArg Diagnostic.cause (Halt.fault.inj ht))
  · rintro rfl
    exact ⟨t, rfl⟩

theorem checkCall_of_full {f : Value} {c : Callable} (hcallable : f.callable? = some c)
    (harity : c.arity.accepts vs.length = true) (hfull : config.allowsCall m.callDepth = false) :
    checkCall config paren f vs m = .error (.overflowAt paren) m := by
  rw [checkCall_of_accepts config paren hcallable harity, hfull, if_neg Bool.false_ne_true]
  rfl

/-- A call too many can be called. -/
theorem checkCall_eq_overflow {f : Value} (hcheck : checkCall config paren f vs m = .error h m')
    (overflow : h.IsOverflow) : h = .overflowAt paren ∧ m' = m ∧
      ∃ c, f.callable? = some c ∧ c.arity.accepts vs.length = true ∧
        config.allowsCall m.callDepth = false := by
  rcases checkCall_spec config paren f vs m with ⟨c, hcallable, harity⟩ | ⟨cause, hcause, heq⟩
  · rw [checkCall_of_accepts config paren hcallable harity] at hcheck
    cases hfull : config.allowsCall m.callDepth with
    | true =>
      rw [hfull] at hcheck
      cases hcheck
    | false =>
      rw [hfull] at hcheck
      cases hcheck
      exact ⟨rfl, rfl, c, hcallable, harity, rfl⟩
  · rw [heq] at hcheck
    cases hcheck
    exact absurd (Halt.isOverflow_atToken.1 overflow) hcause

namespace Overflows

theorem halts (overflows : Overflows config p paren m q) :
    HaltsIn config p (.overflowAt paren) m := by
  obtain ⟨hcallee, harguments, hcallable, harity, hfull⟩ := overflows
  show evaluate config (_ + 1) _ _ = _
  rw [evaluate, paced_eq, bind_of_ok hcallee, bind_of_ok harguments]
  exact bind_of_error (checkCall_of_full hcallable harity hfull)

/-- A call is one too many in one way only. -/
theorem unique {m₁ m₂ : Machine} {q₁ q₂ : Point} (h₁ : Overflows config p paren m₁ q₁)
    (h₂ : Overflows config p paren' m₂ q₂) : paren = paren' ∧ m₁ = m₂ ∧ q₁ = q₂ := by
  cases h₁ with
  | call hcallee harguments hcallable =>
    cases h₂ with
    | call hcallee' harguments' hcallable' =>
      cases hcallee.symm.trans hcallee'
      cases harguments.symm.trans harguments'
      cases hcallable.symm.trans hcallable'
      exact ⟨rfl, rfl, rfl⟩

/-- No part of such a call halts. -/
theorem not_halts (overflows : Overflows config p paren m q) (starts : Starts config p vs r) :
    ¬Halts config r h := by
  rintro ⟨m', halts⟩
  obtain ⟨hcallee, harguments, hcallable, harity, hfull⟩ := overflows
  cases starts with
  | callee => cases hcallee.symm.trans halts
  | arguments hcallee' =>
    cases hcallee.symm.trans hcallee'
    cases harguments.symm.trans halts
  | call hcallee' harguments' hcheck =>
    cases hcallee.symm.trans hcallee'
    cases harguments.symm.trans harguments'
    cases (checkCall_of_full hcallable harity hfull).symm.trans hcheck

end Overflows

/-! ## Where the fault comes from -/

theorem UnaryOp.apply_ne_stackOverflow {op : UnaryOp} {v : Value} :
    op.apply v ≠ .error .stackOverflow := by
  cases op <;> cases v <;> exact nofun

theorem BinaryOp.apply_ne_stackOverflow {op : BinaryOp} {a b : Value} :
    op.apply a b ≠ .error .stackOverflow := by
  intro happly
  cases op <;> simp only [apply, sum, numeric, quotient] at happly
  all_goals repeat' split at happly
  all_goals cases happly

/-- The fault is raised by a call that is one too many only. -/
theorem Raises.overflows (standard : config.host = .standard) (raises : Raises config p h)
    (overflow : h.IsOverflow) : ∃ paren m q, Overflows config p paren m q := by
  cases raises
  case check hcallee harguments hcheck =>
    obtain ⟨-, -, c, hcallable, harity, hfull⟩ := checkCall_eq_overflow hcheck overflow
    exact ⟨_, _, _, .call hcallee harguments hcallable harity hfull⟩
  case read hread =>
    rw [Store.read_eq_error hread] at overflow
    exact absurd (Halt.isOverflow_atToken.1 overflow) nofun
  case write hlocate =>
    rw [Store.locate_eq_error hlocate] at overflow
    exact absurd (Halt.isOverflow_atToken.1 overflow) nofun
  case unary happly =>
    rw [Halt.isOverflow_atToken.1 overflow] at happly
    exact absurd happly UnaryOp.apply_ne_stackOverflow
  case binary happly =>
    rw [Halt.isOverflow_atToken.1 overflow] at happly
    exact absurd happly BinaryOp.apply_ne_stackOverflow
  case result flow _ _ hresult =>
    cases flow <;> cases hresult <;> exact absurd (Halt.isOverflow_atToken.1 overflow) nofun
  case hostFault f vs _ _ d haction =>
    rw [standard] at haction
    rcases Host.standard_eq f vs with heq | ⟨text, heq⟩ | heq <;> rw [heq] at haction <;>
      cases haction
  case strayBreak | strayContinue | strayReturn =>
    exact absurd (Halt.isOverflow_atToken.1 overflow) nofun
  -- The others are no faults of the program.
  all_goals
    obtain ⟨t, ht⟩ := overflow
    cases ht

/-- Where an evaluation halts for a call too many, there is such a call. -/
theorem Halts.overflows (standard : config.host = .standard) (halts : Halts config start h)
    (overflow : h.IsOverflow) : ∃ p around paren m q,
      Trail config start (p :: around) ∧ Overflows config p paren m q := by
  obtain ⟨vs, p, reaches, raises⟩ := halts.origin
  obtain ⟨around, trail⟩ := reaches.trail
  obtain ⟨paren, m, q, overflows⟩ := raises.overflows standard overflow
  exact ⟨p, around, paren, m, q, trail, overflows⟩

/-! ## One call too many -/

namespace Trail

/-- A trail goes on along one that begins where it ends. -/
theorem extend (trail : Trail config start (p :: around)) (trail' : Trail config p T) :
    ∃ inner, T = inner ++ [p] ∧ Trail config start (inner ++ p :: around) := by
  induction trail' with
  | start => exact ⟨[], rfl, trail⟩
  | @part q r around' vs _ starts ih =>
    obtain ⟨inner, hinner, trail⟩ := ih
    refine ⟨r :: inner, by rw [hinner, List.cons_append], ?_⟩
    cases inner with
    | nil =>
      cases hinner
      exact trail.part starts
    | cons a inner =>
      cases hinner
      exact trail.part starts

/-- What the end of a trail halts with, everything around it halts with. -/
theorem halts_around (trail : Trail config start (q :: around')) (halts : Halts config q h)
    (hsuffix : p :: around <:+ q :: around') : Halts config p h := by
  induction around' generalizing q with
  | nil =>
    rcases List.suffix_cons_iff.1 hsuffix with heq | hnil
    · cases heq
      exact halts
    · exact absurd (List.suffix_nil.1 hnil) nofun
  | cons r around' ih =>
    obtain _ | ⟨trail, starts⟩ := trail
    rcases List.suffix_cons_iff.1 hsuffix with heq | hsuffix
    · cases heq
      exact halts
    · obtain ⟨m', halts⟩ := halts
      obtain ⟨m'', halts', -⟩ := starts.halts halts
      exact ih trail ⟨m'', halts'⟩ hsuffix

/-- Of two calls too many in a run, neither is inside the other. -/
theorem overflow_eq_of_suffix (trail : Trail config start (r :: around'))
    (overflows : Overflows config p paren m q)
    {q' : Point} (overflows' : Overflows config r paren' m' q')
    (hsuffix : p :: around <:+ r :: around') : r :: around' = p :: around := by
  obtain ⟨inner, hinner⟩ := hsuffix
  rcases List.eq_nil_or_concat inner with rfl | ⟨inner, z, rfl⟩
  · exact hinner.symm
  · -- A part `z` of the outer call would halt, as the inner one does.
    rw [List.concat_eq_append, List.append_assoc, List.singleton_append] at hinner
    have hz : Halts config z (.overflowAt paren') :=
      trail.halts_around ⟨m', overflows'.halts⟩ ⟨inner, hinner⟩
    rw [← hinner] at trail
    obtain _ | ⟨-, starts⟩ := trail.of_append
    exact absurd hz (overflows.not_halts starts)

/-- There is no more than one call in a run that is one too many. -/
theorem overflow_unique (trail : Trail config start (p :: around))
    (overflows : Overflows config p paren m q) (trail' : Trail config start (r :: around'))
    {q' : Point} (overflows' : Overflows config r paren' m' q') :
    r :: around' = p :: around := by
  obtain ⟨-, hunfollowed⟩ := trail.halts overflows.halts
  obtain ⟨-, hunfollowed'⟩ := trail'.halts overflows'.halts
  rcases trail.compare trail' with hsuffix | hsuffix | hbefore | hbefore
  · exact trail'.overflow_eq_of_suffix overflows overflows' hsuffix
  · exact (trail.overflow_eq_of_suffix overflows' overflows hsuffix).symm
  · exact absurd hbefore hunfollowed.not_before
  · exact absurd hbefore hunfollowed'.not_before

end Trail

/-! ## Where more calls are allowed -/

section

variable (widens : config.Widens Halt.IsOverflow config')

include widens

/-- Evaluations with the same fuel agree unless the first halts for a call too many. -/
theorem Config.Widens.agreeing (n : Nat) : Agreeing Halt.IsOverflow config config' n n :=
  Scripting.agreeing widens (Nat.le_refl n) (absurd · (Nat.lt_irrefl n))

theorem Config.Widens.mapM (n : Nat) (es : List Expr) :
    AgreesUnless Halt.IsOverflow (es.mapM (evaluate config n)) (es.mapM (evaluate config' n)) :=
  .mapM (widens.agreeing n).evaluate es

theorem Config.Widens.enterCall_eq (f : Closure) (vs : List Value) :
    enterCall config' f vs = enterCall config f vs := by
  simp only [enterCall, tellCall, widens.tellsCalls]

/-- What a point starts, it starts where more calls are allowed. -/
theorem Starts.widened (starts : Starts config p vs q) : Starts config' p vs q := by
  have agree := widens.agreeing
  cases starts with
  | group => exact .group
  | operand => exact .operand
  | left => exact .left
  | right hleft => exact .right (((agree _).evaluate _).of_ok hleft)
  | first => exact .first
  | second hleft hopen => exact .second (((agree _).evaluate _).of_ok hleft) hopen
  | assigned => exact .assigned
  | callee => exact .callee
  | arguments hcallee => exact .arguments (((agree _).evaluate _).of_ok hcallee)
  | call hcallee harguments hcheck =>
    exact .call (((agree _).evaluate _).of_ok hcallee) ((widens.mapM _ _).of_ok harguments)
      ((checkCall_agrees widens _ _ _).of_ok hcheck)
  | firstOf => exact .firstOf
  | othersOf hfirst => exact .othersOf (((agree _).evaluate _).of_ok hfirst)
  | block hscope => exact .block hscope
  | expression => exact .expression
  | test => exact .test
  | whenTrue htest hv => exact .whenTrue (((agree _).evaluate _).of_ok htest) hv
  | whenFalse htest hv => exact .whenFalse (((agree _).evaluate _).of_ok htest) hv
  | loop => exact .loop
  | turnTest => exact .turnTest
  | turnBody htest hv => exact .turnBody (((agree _).evaluate _).of_ok htest) hv
  | nextTurn htest hv hbody hflow =>
    exact .nextTurn (((agree _).evaluate _).of_ok htest) hv (((agree _).execute _).of_ok hbody)
      hflow
  | result => exact .result
  | initial => exact .initial
  | firstIn => exact .firstIn
  | othersIn hfirst => exact .othersIn (((agree _).execute _).of_ok hfirst)
  | script hscope => exact .script (widens.enterCall_eq _ _ ▸ hscope)
  | hostCall haction => exact .hostCall (widens.host ▸ haction)
  | firstRun => exact .firstRun
  | othersRun hfirst => exact .othersRun (((agree _).execute _).of_ok hfirst)

/-- The call that is one too many is started where it is allowed. -/
theorem Overflows.starts (overflows : Overflows config p paren m q)
    (hroom : config'.allowsCall m.callDepth = true) : Starts config' p [] q := by
  obtain ⟨hcallee, harguments, hcallable, harity, -⟩ := overflows
  refine .call (((widens.agreeing _).evaluate _).of_ok hcallee)
    ((widens.mapM _ _).of_ok harguments) ?_
  rw [checkCall_of_accepts config' _ hcallable harity, hroom, if_pos rfl]

/-- What gives a value where more calls are allowed does so here, or halts for a call too many. -/
theorem Config.Widens.evaluate_cases {e : Expr} {n : Nat} {v : Value}
    (hok : evaluate config' n e m = .ok v m') :
    evaluate config n e m = .ok v m' ∨ ∃ h, Halts config ⟨.expr e, n, m⟩ h ∧ h.IsOverflow := by
  rcases (widens.agreeing n).evaluate e m with heq | ⟨h, m₁, halts, overflow⟩
  · exact .inl (heq ▸ hok)
  · exact .inr ⟨h, ⟨m₁, halts⟩, overflow⟩

theorem Config.Widens.execute_cases {s : Stmt} {n : Nat} {flow : Flow}
    (hok : execute config' n s m = .ok flow m') :
    execute config n s m = .ok flow m' ∨ ∃ h, Halts config ⟨.stmt s, n, m⟩ h ∧ h.IsOverflow := by
  rcases (widens.agreeing n).execute s m with heq | ⟨h, m₁, halts, overflow⟩
  · exact .inl (heq ▸ hok)
  · exact .inr ⟨h, ⟨m₁, halts⟩, overflow⟩

theorem Config.Widens.mapM_cases {es : List Expr} {n : Nat}
    (hok : es.mapM (evaluate config' n) m = .ok vs m') :
    es.mapM (evaluate config n) m = .ok vs m' ∨
      ∃ h, Halts config ⟨.exprs es, n, m⟩ h ∧ h.IsOverflow := by
  rcases widens.mapM n es m with heq | ⟨h, m₁, halts, overflow⟩
  · exact .inl (heq ▸ hok)
  · exact .inr ⟨h, ⟨m₁, halts⟩, overflow⟩

omit widens in
/-- What is started behind the part `r` departs, if it does where `r` goes on, and if `r` halts for
a call too many where it does not. -/
theorem Departs.behind {goesOn : Prop} {ws : List Value}
    (cases : goesOn ∨ ∃ h, Halts config r h ∧ h.IsOverflow) (starts : Starts config p ws r)
    (follows : TransGen (Follows config' p) r q)
    (departs : goesOn → Departs config config' p vs q) : Departs config config' p vs q := by
  rcases cases with hok | ⟨h, halts, overflow⟩
  · exact departs hok
  · exact .before starts halts overflow follows

/-- A part that is started where more calls are allowed is started here too; or a part before it
halts here for a call too many; or it is itself a call that is one too many here. -/
theorem Starts.departs (starts : Starts config' p vs q) : Departs config config' p vs q := by
  cases starts with
  | group => exact .same .group
  | operand => exact .same .operand
  | left => exact .same .left
  | right hleft =>
    exact .behind (widens.evaluate_cases hleft) .left (.single (.right hleft))
      fun hok => .same (.right hok)
  | first => exact .same .first
  | second hleft hopen =>
    exact .behind (widens.evaluate_cases hleft) .first (.single (.second hleft hopen))
      fun hok => .same (.second hok hopen)
  | assigned => exact .same .assigned
  | callee => exact .same .callee
  | arguments hcallee =>
    exact .behind (widens.evaluate_cases hcallee) .callee (.single (.arguments hcallee))
      fun hok => .same (.arguments hok)
  | @call span paren _ _ _ _ _ _ _ _ _ c hcallee harguments hcheck =>
    have follows := @Follows.call config' span _ _ _ _ _ _ _ _ _ _ _ hcallee harguments hcheck
    refine .behind (widens.evaluate_cases hcallee) .callee
      (.tail (.single (.arguments hcallee)) follows) fun hcallee' => ?_
    refine .behind (widens.mapM_cases harguments) (.arguments hcallee') (.single follows)
      fun harguments' => ?_
    rcases checkCall_agrees widens _ _ _ _ with heq | ⟨h, m', hcheck', overflow⟩
    · exact .same (.call hcallee' harguments' (heq ▸ hcheck))
    · obtain ⟨-, -, c', hcallable, harity, hfull⟩ := checkCall_eq_overflow hcheck' overflow
      obtain ⟨hroom, rfl⟩ := checkCall_eq_ok hcheck
      rw [checkCall_of_accepts config' paren hcallable harity, hroom] at hcheck
      cases hcheck
      exact .here (.call hcallee' harguments' hcallable harity hfull)
  | firstOf => exact .same .firstOf
  | othersOf hfirst =>
    exact .behind (widens.evaluate_cases hfirst) .firstOf (.single (.othersOf hfirst))
      fun hok => .same (.othersOf hok)
  | block hscope => exact .same (.block hscope)
  | expression => exact .same .expression
  | test => exact .same .test
  | whenTrue htest hv =>
    exact .behind (widens.evaluate_cases htest) .test (.single (.whenTrue htest hv))
      fun hok => .same (.whenTrue hok hv)
  | whenFalse htest hv =>
    exact .behind (widens.evaluate_cases htest) .test (.single (.whenFalse htest hv))
      fun hok => .same (.whenFalse hok hv)
  | loop => exact .same .loop
  | turnTest => exact .same .turnTest
  | turnBody htest hv =>
    exact .behind (widens.evaluate_cases htest) .turnTest (.single (.turnBody htest hv))
      fun hok => .same (.turnBody hok hv)
  | @nextTurn count _ _ _ _ _ _ _ _ htest hv hbody hflow =>
    have follows := @Follows.nextTurn config' count _ _ _ _ _ _ _ _ htest hv hbody hflow
    refine .behind (widens.evaluate_cases htest) .turnTest
      (.tail (.single (.turnBody htest hv)) follows) fun htest' => ?_
    exact .behind (widens.execute_cases hbody) (.turnBody htest' hv) (.single follows)
      fun hbody' => .same (.nextTurn htest' hv hbody' hflow)
  | result => exact .same .result
  | initial => exact .same .initial
  | firstIn => exact .same .firstIn
  | othersIn hfirst =>
    exact .behind (widens.execute_cases hfirst) .firstIn (.single (.othersIn hfirst))
      fun hok => .same (.othersIn hok)
  | script hscope => exact .same (.script (widens.enterCall_eq _ _ ▸ hscope))
  | hostCall haction => exact .same (.hostCall (widens.host ▸ haction))
  | firstRun => exact .same .firstRun
  | othersRun hfirst =>
    exact .behind (widens.execute_cases hfirst) .firstRun (.single (.othersRun hfirst))
      fun hok => .same (.othersRun hok)

/-! ## Runs -/

/-- What is evaluated in a run is evaluated where more calls are allowed. -/
theorem Trail.widened (trail : Trail config start T) : Trail config' start T := by
  induction trail with
  | start => exact .start
  | part _ starts ih => exact ih.part (starts.widened widens)

/-- Without a call too many, what is evaluated where more are allowed is evaluated here too. -/
theorem Trail.narrowed (h : ∀ h, Halts config start h → ¬h.IsOverflow)
    (trail : Trail config' start T) : Trail config start T := by
  induction trail with
  | start => exact .start
  | part _ starts ih =>
    cases starts.departs widens with
    | same starts => exact ih.part starts
    | before starts' halts overflow =>
      have trail := ih.part starts'
      exact absurd overflow (h _ (trail.halts_around halts trail.suffix))
    | @here paren m overflows =>
      exact absurd ⟨paren, rfl⟩ (h _ (ih.halts_around ⟨m, overflows.halts⟩ ih.suffix))

/-- What is evaluated where more calls are allowed is evaluated here too, or in the call that is one
too many here, or behind it. -/
theorem Trail.departs (standard : config.host = .standard)
    (trail : Trail config start (p :: around)) (overflows : Overflows config p paren m q)
    (trail' : Trail config' start T) :
    Trail config start T ∨ q :: p :: around <:+ T ∨ Before config' (q :: p :: around) T := by
  induction trail' with
  | start => exact .inl .start
  | @part x y around' vs trail' starts ih =>
    rcases ih with hx | hsuffix | hbefore
    · cases starts.departs widens with
      | same starts => exact .inl (hx.part starts)
      | @before _ r _ starts' halts overflow follows =>
        -- the call too many is inside the part `r`, behind which `y` would come
        obtain ⟨p', around'', paren', m', q', hr, overflows'⟩ := halts.overflows standard overflow
        obtain ⟨inner, hinner, hr'⟩ := (hx.part starts').extend hr
        obtain ⟨behind, hbehind⟩ : ∃ behind, inner ++ r :: x :: around' = p' :: behind := by
          cases inner with
          | nil => exact ⟨_, by rw [(List.cons.inj hinner).1, List.nil_append]⟩
          | cons a inner => exact ⟨_, by rw [(List.cons.inj hinner).1, List.cons_append]⟩
        rw [hbehind] at hr'
        rw [← trail.overflow_unique overflows hr' overflows', ← hbehind]
        exact .inr (.inr (@Before.parts config' x r y (q :: inner) [] around' follows))
      | here overflows' =>
        have heq := trail.overflow_unique overflows hx overflows'
        cases heq
        obtain ⟨-, -, rfl⟩ := overflows.unique overflows'
        exact .inr (.inl (List.suffix_refl _))
    · exact .inr (.inl (hsuffix.trans (List.suffix_cons ..)))
    · exact .inr (.inr (hbefore.append_right [y]))

end

end Scripting
