import Scripting.Proofs.Calls.Overflow
import Scripting.Proofs.Move.Programs

/-!
# Runs with too many calls

* `EndsIn.widened` : what ends with values does so too where more calls are allowed;
* `Interpreter.exists_overflow` : a run that halts for a call too many has as many calls in progress
  there as are allowed, and would have one more without a limit;
* `Interpreter.run_eq_unlimited` : a run that does not halt for a call too many is the one without a
  limit;
* `Interpreter.run_of_overflows` : at a call that is one too many a run ends, as the machine is
  then;
* `Interpreter.limit_cuts_short` : all of this for any text.
-/

namespace Scripting

set_option autoImplicit false

open Eval

/-- What ends with values ends with the same where more calls are allowed. -/
theorem EndsIn.widened {config config' : Config} (widens : config.Widens Halt.IsOverflow config')
    {p : Point} {vs : List Value} {m' : Machine} (ends : EndsIn config p vs m') :
    EndsIn config' p vs m' := by
  obtain ⟨task, n, m⟩ := p
  have agree := widens.agreeing n
  cases task with
  | expr e =>
    obtain ⟨v, hok, hvs⟩ := ends
    exact ⟨v, (agree.evaluate e).of_ok hok, hvs⟩
  | exprs es => exact (widens.mapM n es).of_ok ends
  | stmt s =>
    obtain ⟨flow, hok, hvs⟩ := ends
    exact ⟨flow, (agree.execute s).of_ok hok, hvs⟩
  | stmts ss =>
    obtain ⟨flow, hok, hvs⟩ := ends
    exact ⟨flow, (runAll_agrees agree.execute ss).of_ok hok, hvs⟩
  | turns count condition body =>
    obtain ⟨flow, hok, hvs⟩ := ends
    have hturns := repeatWhile_agrees (agree.evaluate condition) (agree.execute body)
      (Nat.le_refl count) (absurd · (Nat.lt_irrefl count))
    exact ⟨flow, hturns.of_ok hok, hvs⟩
  | call c arguments =>
    obtain ⟨v, hok, hvs⟩ := ends
    exact ⟨v, (agree.invoke c arguments).of_ok hok, hvs⟩
  | program ss =>
    have hprogram := runProgram_agrees widens (Nat.le_refl n) (absurd · (Nat.lt_irrefl n)) ss
    exact ⟨hprogram.of_ok ends.1, ends.2⟩

/-- At a call that is one too many there are as many calls as allowed. -/
theorem Overflows.limit_le {config : Config} {limit : Nat} (limited : config.callLimit = some limit)
    {p q : Point} {paren : Token} {m : Machine} (overflows : Overflows config p paren m q) :
    limit ≤ p.machine.callDepth := by
  obtain ⟨hcallee, harguments, -, -, hfull⟩ := overflows
  rw [callDepth_of_mapM harguments, callDepth_of_evaluate hcallee, Config.allowsCall, limited]
    at hfull
  exact Nat.not_lt.1 (of_decide_eq_false hfull)

namespace Interpreter

variable {i : Interpreter} {fuel limit : Nat} {source : String} {ss : List Stmt}

/-- A run that halts for a call too many has as many calls in progress there as are allowed, and
would have one more without a limit. -/
theorem exists_overflow (standard : i.config.host = .standard)
    (limited : i.config.callLimit = some limit) (idle : i.machine.callDepth = 0) {h : Halt}
    (halts : Halts i.config (i.opening fuel source ss) h) (overflow : h.IsOverflow) :
    ∃ p around paren m q, Trail i.config (i.opening fuel source ss) (p :: around) ∧
      Overflows i.config p paren m q ∧ callsOn (p :: around) = limit ∧
      Trail i.unlimited.config (i.opening fuel source ss) (q :: p :: around) ∧
      callsOn (q :: p :: around) = limit + 1 := by
  obtain ⟨p, around, paren, m, q, trail, overflows⟩ := halts.overflows standard overflow
  have starts := overflows.starts i.unlimited_widens rfl
  have hcalls : callsOn (p :: around) = limit := by
    rw [← trail.callDepth standard rfl idle]
    exact Nat.le_antisymm (trail.callDepth_le standard limited idle) (overflows.limit_le limited)
  have hq : q.task.isCall = true := by
    cases overflows
    rfl
  refine ⟨p, around, paren, m, q, trail, overflows, hcalls,
    (trail.widened i.unlimited_widens).part starts, ?_⟩
  rw [callsOn_cons, hq, hcalls, if_pos rfl]

/-- A run that does not halt for a call too many is the one without a limit. -/
theorem run_eq_unlimited (h : ∀ ss, Program.parse? source = .ok ss →
      ∀ h, Halts i.config (i.opening fuel source ss) h → ¬h.IsOverflow) :
    (i.run fuel source).1 = (i.unlimited.run fuel source).1 ∧
      (i.run fuel source).2.machine = (i.unlimited.run fuel source).2.machine := by
  rcases run_widened i.unlimited_widens (Nat.le_refl fuel) (absurd · (Nat.lt_irrefl fuel))
    i.scriptName i.machine source with ⟨houtcome, hmachine⟩ | ⟨halt, hout, t, rfl⟩
  · exact ⟨houtcome.symm, hmachine.symm⟩
  · cases parsed : Program.parse? source with
    | ok ss => exact absurd ⟨t, rfl⟩ (h ss parsed _ (halts_of_run parsed hout))
    | error ds => exact absurd hout ((i.run_of_rejected fuel parsed).2 _)

/-- A run halts for a call too many if it has more calls in progress without a limit. -/
theorem exists_halts_overflow (standard : i.config.host = .standard)
    (limited : i.config.callLimit = some limit) (idle : i.machine.callDepth = 0) {T : List Point}
    (trail : Trail i.unlimited.config (i.opening fuel source ss) T) (many : limit < callsOn T) :
    ∃ h, Halts i.config (i.opening fuel source ss) h ∧ h.IsOverflow := by
  by_contra hnone
  have hkept := trail.narrowed i.unlimited_widens fun h halts overflow => hnone ⟨h, halts, overflow⟩
  have hle : callsOn T ≤ limit := by
    cases T with
    | nil => exact Nat.zero_le _
    | cons p around =>
      rw [← hkept.callDepth standard rfl idle]
      exact hkept.callDepth_le standard limited idle
  omega

/-- At a call that is one too many, the run ends with its fault and as the machine is then. -/
theorem run_of_overflows (parsed : Program.parse? source = .ok ss) {p q : Point}
    {around : List Point} {paren : Token} {m : Machine}
    (trail : Trail i.config (i.opening fuel source ss) (p :: around))
    (overflows : Overflows i.config p paren m q) :
    i.run fuel source = i.halted (.overflowAt paren)
      { m with scope := i.machine.scope, callDepth := i.machine.callDepth } :=
  run_of_halts parsed (trail.halts overflows.halts).1

/-- The limit on the calls in progress only cuts runs short. At every point of a run that begins
outside all calls, the machine counts the calls that are being executed, and there are no more than
the limit. A run that without a limit has no more calls in progress either ends in the same way and
in the same machine. If it has more without a limit, then there is a call that is one too many: the
run ends there with the fault at its parenthesis, and as the machine is when its callee and its
arguments have been evaluated and it has been found that it can be called. What is evaluated in the
run is evaluated without a limit too, and if it ends it ends in the same way; it is evaluated around
that call, in its callee and its arguments, or before it. Whatever else is evaluated without a limit
is evaluated in that call or behind it. -/
theorem limit_cuts_short (i : Interpreter) (standard : i.config.host = .standard)
    (limited : i.config.callLimit = some limit) (idle : i.machine.callDepth = 0) (fuel : Nat)
    (source : String) :
    (∀ ss, Program.parse? source = .ok ss → ∀ p around vs m,
      Trail i.config (i.opening fuel source ss) (p :: around) → Passes i.config p vs m →
        m.callDepth = callsOn (p :: around) ∧ m.callDepth ≤ limit) ∧
    ((∀ ss, Program.parse? source = .ok ss →
        ∀ T, Trail i.unlimited.config (i.opening fuel source ss) T → callsOn T ≤ limit) →
      (i.run fuel source).1 = (i.unlimited.run fuel source).1 ∧
        (i.run fuel source).2.machine = (i.unlimited.run fuel source).2.machine) ∧
    ∀ ss, Program.parse? source = .ok ss →
      let start := i.opening fuel source ss
      ∀ T, Trail i.unlimited.config start T → limit < callsOn T →
        ∃ p around paren m q, Overflows i.config p paren m q ∧ callsOn (p :: around) = limit ∧
          Trail i.config start (p :: around) ∧ Trail i.unlimited.config start (q :: p :: around) ∧
          i.run fuel source = i.halted (.overflowAt paren)
            { m with scope := i.machine.scope, callDepth := i.machine.callDepth } ∧
          (∀ p' around', Trail i.config start (p' :: around') →
            Trail i.unlimited.config start (p' :: around') ∧
            (∀ vs m', EndsIn i.config p' vs m' → EndsIn i.unlimited.config p' vs m') ∧
            (p' :: around' <:+ p :: around ∨ p :: around <:+ p' :: around' ∨
              Before i.config (p' :: around') (p :: around))) ∧
          ∀ T', Trail i.unlimited.config start T' →
            Trail i.config start T' ∨ q :: p :: around <:+ T' ∨
              Before i.unlimited.config (q :: p :: around) T' := by
  refine ⟨fun ss _ p around vs m trail passes => ?_, fun few => ?_,
    fun ss parsed T trail many => ?_⟩
  · rw [passes.callDepth]
    exact ⟨trail.callDepth standard rfl idle, trail.callDepth_le standard limited idle⟩
  · refine run_eq_unlimited fun ss parsed h halts overflow => ?_
    obtain ⟨p, around, paren, m, q, -, -, -, trail, hcalls⟩ :=
      exists_overflow standard limited idle halts overflow
    have := few ss parsed _ trail
    omega
  · obtain ⟨h, halts, overflow⟩ := exists_halts_overflow standard limited idle trail many
    obtain ⟨p, around, paren, m, q, trail', overflows, hcalls, trail'', -⟩ :=
      exists_overflow standard limited idle halts overflow
    obtain ⟨-, hunfollowed⟩ := trail'.halts overflows.halts
    refine ⟨p, around, paren, m, q, overflows, hcalls, trail', trail'',
      run_of_overflows parsed trail' overflows, fun p' around' trail => ?_, fun T' trail => ?_⟩
    · exact ⟨trail.widened i.unlimited_widens, fun vs m' ends => ends.widened i.unlimited_widens,
        trail'.last hunfollowed trail⟩
    · exact trail'.departs i.unlimited_widens standard overflows trail

/-- A function that calls itself in an argument of another call, where two calls are allowed. -/
theorem limit_cuts_short_in_argument :
    let i := Interpreter.new { callLimit := some 2 } "session" {}
    let source := "fn g(n) \x7b return n; \x7d fn f() \x7b g(1); return g(f()); \x7d f();"
    ∃ ss T p around paren m q, Program.parse? source = .ok ss ∧
      Trail i.unlimited.config (i.opening 40 source ss) T ∧ 2 < callsOn T ∧
      Overflows i.config p paren m q ∧ callsOn (p :: around) = 2 ∧
      i.run 40 source = i.halted (.overflowAt paren) { m with scope := .single 0, callDepth := 0 } ∧
      (i.run 40 source).1.diagnostics.map Diagnostic.message = ["Stack overflow."] := by
  intro i source
  obtain ⟨ss, parsed⟩ : ∃ ss, Program.parse? source = .ok ss :=
    Program.exists_of_isOk (by decide +kernel)
  obtain ⟨-, hsame, hcut⟩ := limit_cuts_short i rfl rfl rfl 40 source
  obtain ⟨T, trail, many⟩ : ∃ T, Trail i.unlimited.config (i.opening 40 source ss) T ∧
      2 < callsOn T := by
    by_contra hnone
    have hfew := hsame fun ss' parsed' T trail => by
      cases parsed.symm.trans parsed'
      exact Nat.not_lt.1 fun many => hnone ⟨T, trail, many⟩
    exact absurd hfew.1 (by decide +kernel)
  obtain ⟨p, around, paren, m, q, overflows, hcalls, -, -, hrun, -⟩ :=
    hcut ss parsed T trail many
  exact ⟨ss, T, p, around, paren, m, q, parsed, trail, many, overflows, hcalls, hrun,
    by decide +kernel⟩

end Interpreter

end Scripting
