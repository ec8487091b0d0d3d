import Scripting.Proofs.Control.Faults
import Scripting.Proofs.Machine.Likeness

/-!
# Stray keywords in runs

* `Host.SilentOnStrays` : no native function reports a fault in the words for a stray keyword;
* `Point.Calls` : the functions that a run calls;
* `Interpreter.stray_keywords_exact` : the words for a stray keyword are reported at stray keywords
  only; and a run in which a stray keyword's statement is executed ends there with its fault.

All this holds from any state of the interpreter.
-/

namespace Scripting

set_option autoImplicit false

/-- No native function reports a fault in the words for a stray keyword. -/
def Host.SilentOnStrays (host : Host) : Prop := ∀ f vs d, host f vs = .fault d → ¬d.IsStray

/-- In the run that begins with a point, a function of the program is called. -/
def Point.Calls (config : Config) (start : Point) (f : Closure) : Prop :=
  ∃ identity vs n m around,
    Trail config start (⟨.call (.script identity f) vs, n, m⟩ :: around)

theorem Trail.callee?_cons {p : Point} {T : List Point} {f : Closure}
    (h : callee? (p :: T) = some f) :
    (∃ identity vs n m, p = ⟨.call (.script identity f) vs, n, m⟩) ∨ callee? T = some f := by
  obtain ⟨task, n, m⟩ := p
  cases task with
  | call c vs =>
    cases c with
    | script identity f' =>
      cases h
      exact .inl ⟨identity, vs, n, m, rfl⟩
    | native => exact .inr h
  | _ => exact .inr h

/-- A trail ends in the body of a function that is called. -/
theorem Trail.calls {config : Config} {start : Point} {T : List Point} {f : Closure}
    (trail : Trail config start T) (hcallee : callee? T = some f) : start.Calls config f := by
  induction trail with
  | start =>
    rcases callee?_cons hcallee with ⟨identity, vs, n, m, rfl⟩ | hnil
    · exact ⟨identity, vs, n, m, [], .start⟩
    · cases hnil
  | part trail starts ih =>
    rcases callee?_cons hcallee with ⟨identity, vs, n, m, rfl⟩ | hcallee
    · exact ⟨identity, vs, n, m, _, trail.part starts⟩
    · exact ih hcallee

namespace Interpreter

variable {i : Interpreter} {fuel : Nat} {source : String} {ss : List Stmt}

/-- What is executed is a statement of the program or of a function that is called, and what is
being executed around it is around it in the text. -/
theorem inBody_of_executes {T : List Point} {s : Stmt} {m' : Machine}
    (executes : Executes i.config (i.opening fuel source ss) T s m') :
    InBody (Trail.body ss T.tail) (Trail.around T.tail) s ∧
      ∀ f, Trail.callee? T.tail = some f → (i.opening fuel source ss).Calls i.config f := by
  obtain ⟨trail, -⟩ := executes
  refine ⟨trail.inBody rfl, fun f hf => ?_⟩
  cases trail with
  | part trail _ => exact trail.calls hf

/-- The words for a stray keyword are reported where one is executed. -/
theorem executes_of_isStray (silent : i.config.host.SilentOnStrays) {d : Diagnostic}
    (hrun : (i.run fuel source).1 = .fault d) (hd : d.IsStray) :
    ∃ ss, Program.parse? source = .ok ss ∧ ∃ T s m' fault keyword,
      Executes i.config (i.opening fuel source ss) T s m' ∧
      s.strayAt? T.tail = some (fault, keyword) ∧ d = .atToken (.runtime fault) keyword := by
  cases parsed : Program.parse? source with
  | error ds => exact absurd hrun ((i.run_of_rejected fuel parsed).2 d)
  | ok ss =>
    refine ⟨ss, rfl, ?_⟩
    rcases (halts_of_run parsed hrun).reported with
      ⟨f, vs, hfault⟩ | ⟨e, n, m, around, cause, mark, -, -, rfl, hcause⟩ | hstray
    · exact absurd hd (silent f vs d hfault)
    · exact absurd hd (Diagnostic.not_isStray hcause mark)
    · exact hstray

/-- Where a stray keyword's statement is executed, the run ends. -/
theorem run_of_executes (parsed : Program.parse? source = .ok ss) {T : List Point} {s : Stmt}
    {m' : Machine} {fault : RuntimeFault} {keyword : Token}
    (executes : Executes i.config (i.opening fuel source ss) T s m')
    (stray : s.strayAt? T.tail = some (fault, keyword)) :
    i.run fuel source = i.halted (.fault (.atToken (.runtime fault) keyword))
      { m' with scope := i.machine.scope, callDepth := i.machine.callDepth } ∧
      Unfollowed i.config T := by
  obtain ⟨trail, ends⟩ := executes
  obtain ⟨halts, hunfollowed⟩ := trail.flows rfl ends (s.flow_of_stray stray ends)
  exact ⟨run_of_halts parsed halts, hunfollowed⟩

/-- Control leaves what the text says. Each statement that is executed stands in the text of the
program or of a function that is called, with the statements around it that are being executed. From
any state, the words for a stray keyword are reported at a stray keyword whose statement is
executed, and so never where there is none. Conversely, where such a statement is executed, the run
ends with the fault of the keyword and as the machine is then, and everything else that is evaluated
in the run is evaluated around the statement, in it, or before it. -/
theorem stray_keywords_exact (i : Interpreter) (silent : i.config.host.SilentOnStrays) (fuel : Nat)
    (source : String) :
    (∀ d, (i.run fuel source).1 = .fault d → d.IsStray →
      ∃ ss, Program.parse? source = .ok ss ∧ ∃ T s m' fault keyword,
        Executes i.config (i.opening fuel source ss) T s m' ∧
        s.strayAt? T.tail = some (fault, keyword) ∧ d = .atToken (.runtime fault) keyword) ∧
    ∀ ss, Program.parse? source = .ok ss →
      let start := i.opening fuel source ss
      (∀ T s m', Executes i.config start T s m' →
        InBody (Trail.body ss T.tail) (Trail.around T.tail) s ∧
          ∀ f, Trail.callee? T.tail = some f → start.Calls i.config f) ∧
      (Strayless false ss → (∀ f, start.Calls i.config f → Strayless true f.body) →
        ∀ d, (i.run fuel source).1 = .fault d → ¬d.IsStray) ∧
      ∀ T s m' fault keyword, Executes i.config start T s m' →
        s.strayAt? T.tail = some (fault, keyword) →
        i.run fuel source = i.halted (.fault (.atToken (.runtime fault) keyword))
          { m' with scope := i.machine.scope, callDepth := i.machine.callDepth } ∧
        ∀ T', Trail i.config start T' → T' <:+ T ∨ T <:+ T' ∨ Before i.config T' T := by
  refine ⟨fun d hrun hd => executes_of_isStray silent hrun hd, fun ss parsed => ⟨?_, ?_, ?_⟩⟩
  · exact fun T s m' executes => inBody_of_executes executes
  · intro strayless strayless' d hrun hd
    obtain ⟨ss', parsed', T, s, m', fault, keyword, executes, stray, -⟩ :=
      executes_of_isStray silent hrun hd
    cases parsed.symm.trans parsed'
    obtain ⟨hbody, hcalls⟩ := inBody_of_executes executes
    unfold Stmt.strayAt? at stray
    unfold Trail.body at hbody
    cases hcallee : Trail.callee? T.tail with
    | none =>
      rw [hcallee] at stray hbody
      exact absurd ((strayless _ s hbody).symm.trans stray) nofun
    | some f =>
      rw [hcallee] at stray hbody
      exact absurd ((strayless' f (hcalls f hcallee) _ s hbody).symm.trans stray) nofun
  · intro T s m' fault keyword executes stray
    obtain ⟨hrun, hunfollowed⟩ := run_of_executes parsed executes stray
    refine ⟨hrun, fun T' trail' => ?_⟩
    obtain ⟨trail, -⟩ := executes
    exact trail.last hunfollowed trail'

/-- A word that leaves a loop, in a function that is called in a loop. -/
theorem stray_keywords_exact_in_loop :
    let source :=
      "while (true) \x7b fn f() \x7b if (true) break; \x7d f(); print(1); \x7d print(2);"
    let i := Interpreter.new {} "session" {}
    ∃ ss T s m' keyword, Program.parse? source = .ok ss ∧
      Executes i.config (i.opening 30 source ss) T s m' ∧
      s.strayAt? T.tail = some (.strayBreak, keyword) ∧ keyword.span = ⟨34, 39⟩ ∧
      m'.sink.written.size = 0 ∧ ∀ T', Trail i.config (i.opening 30 source ss) T' →
        T' <:+ T ∨ T <:+ T' ∨ Before i.config T' T := by
  intro source i
  have silent : i.config.host.SilentOnStrays := by
    intro f vs d hfault
    rcases Host.standard_eq f vs with heq | ⟨text, heq⟩ | heq <;>
      exact absurd (heq.symm.trans hfault) nofun
  have hrun : (i.run 30 source).1 =
      .fault ⟨.runtime .strayBreak, some ⟨34, 39⟩, some 1, some (.lexeme "break"), []⟩ := by
    decide +kernel
  obtain ⟨hreported, hends⟩ := stray_keywords_exact i silent 30 source
  obtain ⟨ss, parsed, T, s, m', fault, keyword, executes, stray, hd⟩ :=
    hreported _ hrun ⟨.strayBreak, by decide, rfl⟩
  obtain ⟨-, -, hends⟩ := hends ss parsed
  obtain ⟨hhalted, hlast⟩ := hends T s m' fault keyword executes stray
  obtain rfl : fault = .strayBreak := (Cause.runtime.inj (Diagnostic.mk.inj hd).1).symm
  have hspan : keyword.span = ⟨34, 39⟩ := (Option.some.inj (Diagnostic.mk.inj hd).2.1).symm
  have hwritten : (i.run 30 source).2.machine.sink.written.size = 0 := by decide +kernel
  rw [hhalted] at hwritten
  exact ⟨ss, T, s, m', keyword, parsed, executes, stray, hspan, hwritten, hlast⟩

end Interpreter

end Scripting
