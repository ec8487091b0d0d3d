import Scripting.Proofs.Control.Flows
import Scripting.Proofs.Places.Formed

/-!
# Where faults are reported

* `RuntimeFault.strays`, `Diagnostic.IsStray` : the faults of stray keywords, and diagnostics in
  their words;
* `Executes config start T s m'` : in the run that begins with `start`, a statement is executed at
  the end of a trail, to its end in a machine;
* `Halts.reported` : a fault is one of a native function; or it is reported at the mark of an
  expression that is evaluated, and not in the words for a stray keyword; or it is that of a stray
  keyword whose statement is executed, and it is reported there.
-/

namespace Scripting

set_option autoImplicit false

open Eval

/-! ## The words for stray keywords -/

/-- The faults of stray keywords. -/
def RuntimeFault.strays : List RuntimeFault := [strayBreak, strayContinue, strayReturn]

/-- A diagnostic in the words for a stray keyword. -/
def Diagnostic.IsStray (d : Diagnostic) : Prop :=
  ∃ fault ∈ RuntimeFault.strays, d.message = fault.message

theorem Text.head?_append {s : String} {c : Char} (h : s.toList.head? = some c) (t : String) :
    (s ++ t).toList.head? = some c := by
  rw [String.toList_append, List.head?_append, h, Option.some_or]

/-- No other fault is in the same words. -/
theorem RuntimeFault.mem_strays_of_message {cause fault : RuntimeFault} (h : fault ∈ strays)
    (hmessage : cause.message = fault.message) : cause ∈ strays := by
  have hhead : cause.message.toList.head? = some 'C' := by
    rw [hmessage]
    exact (by decide : ∀ fault ∈ strays, fault.message.toList.head? = some 'C') fault h
  cases cause with
  | undefinedVariable name =>
    have hhead' : (undefinedVariable name).message.toList.head? = some 'U' :=
      Text.head?_append (Text.head?_append (by decide) name) "'."
    exact absurd (hhead.symm.trans hhead') (by decide)
  | wrongArgumentCount expected given =>
    have hhead' : (wrongArgumentCount expected given).message.toList.head? = some 'E' :=
      Text.head?_append (Text.head?_append (Text.head?_append (Text.head?_append (by decide)
        expected) " arguments but got ") (toString given)) "."
    exact absurd (hhead.symm.trans hhead') (by decide)
  | notCallable =>
    exact absurd hmessage ((by decide : ∀ fault ∈ strays, notCallable.message ≠ fault.message) _ h)
  | strayBreak | strayContinue | strayReturn => decide
  | _ => exact absurd hhead (by decide)

theorem Diagnostic.not_isStray {cause : RuntimeFault} (h : cause ∉ RuntimeFault.strays)
    (t : Token) : ¬(atToken (.runtime cause) t).IsStray := by
  rintro ⟨fault, hfault, hmessage⟩
  exact h (RuntimeFault.mem_strays_of_message hfault hmessage)

theorem UnaryOp.apply_not_stray {op : UnaryOp} {v : Value} {cause : RuntimeFault}
    (h : op.apply v = .error cause) : cause ∉ RuntimeFault.strays := by
  cases op with
  | not => cases h
  | negate => cases v <;> cases h <;> decide

theorem BinaryOp.apply_not_stray {op : BinaryOp} {a b : Value} {cause : RuntimeFault}
    (h : op.apply a b = .error cause) : cause ∉ RuntimeFault.strays := by
  cases op <;> simp only [apply, sum, numeric, quotient] at h
  all_goals repeat' split at h
  all_goals cases h
  all_goals decide

variable {config : Config} {m m' : Machine}

theorem checkCall_fault {paren : Token} {f : Value} {vs : List Value} {h : Halt}
    (hcheck : checkCall config paren f vs m = .error h m') :
    ∃ cause, h = .fault (.atToken (.runtime cause) paren) ∧ cause ∉ RuntimeFault.strays := by
  unfold checkCall at hcheck
  cases hf : f.callable? with
  | none =>
    rw [hf] at hcheck
    cases hcheck
    exact ⟨_, rfl, by decide⟩
  | some c =>
    rw [hf] at hcheck
    dsimp only at hcheck
    split at hcheck
    · rcases bind_eq_error.1 hcheck with hget | ⟨m₀, m₁, hget, hcheck⟩
      · cases hget
      · split at hcheck
        · cases hcheck
        · cases hcheck
          exact ⟨_, rfl, by decide⟩
    · cases hcheck
      exact ⟨_, rfl, by simp [RuntimeFault.strays]⟩

/-! ## Faults of expressions -/

theorem Store.read_eq_error {s : Store} {scope : Scope} {t : Token} {d : Diagnostic}
    (h : s.read scope t = .error d) : d = undefinedAt t := by
  unfold read at h
  split at h
  · cases h
  · cases h
    rfl

theorem Store.locate_eq_error {s : Store} {scope : Scope} {t : Token} {d : Diagnostic}
    (h : s.locate scope t = .error d) : d = undefinedAt t := by
  unfold locate at h
  split at h
  · cases h
  · cases h
    rfl

theorem RuntimeFault.undefinedVariable_not_stray (name : String) :
    undefinedVariable name ∉ strays := by simp [strays]

/-- What an expression reports itself, it reports at its mark, and not in the words for a stray
keyword. -/
theorem Raises.mark {e : Expr} {n : Nat} {d : Diagnostic}
    (raises : Raises config ⟨.expr e, n, m⟩ (.fault d)) :
    ∃ cause mark, e.mark? = some mark ∧ d = .atToken (.runtime cause) mark ∧
      cause ∉ RuntimeFault.strays := by
  cases raises with
  | read hread =>
    exact ⟨_, _, rfl, Store.read_eq_error hread, RuntimeFault.undefinedVariable_not_stray _⟩
  | write _ hlocate =>
    exact ⟨_, _, rfl, Store.locate_eq_error hlocate, RuntimeFault.undefinedVariable_not_stray _⟩
  | unary _ happly => exact ⟨_, _, rfl, rfl, UnaryOp.apply_not_stray happly⟩
  | binary _ _ happly => exact ⟨_, _, rfl, rfl, BinaryOp.apply_not_stray happly⟩
  | check _ _ hcheck =>
    obtain ⟨cause, hd, hcause⟩ := checkCall_fault hcheck
    cases hd
    exact ⟨cause, _, rfl, rfl, hcause⟩

/-! ## Stray keywords that are executed -/

/-- In a run, a statement is executed at the end of a trail, to its end. -/
inductive Executes (config : Config) (start : Point) : List Point → Stmt → Machine → Prop
  | mk {s : Stmt} {n : Nat} {m m' : Machine} {outer : List Point} {flow : Flow}
      (trail : Trail config start (⟨.stmt s, n, m⟩ :: outer))
      (ends : execute config n s m = .ok flow m') :
      Executes config start (⟨.stmt s, n, m⟩ :: outer) s m'

/-- A stray keyword's statement ends with the flow of the keyword. -/
theorem Stmt.flow_of_stray {T : List Point} {s : Stmt} {n : Nat} {flow : Flow}
    {x : RuntimeFault × Token} (stray : s.strayAt? T = some x)
    (ends : execute config n s m = .ok flow m') : flow.strayAt? T = some x := by
  cases n with
  | zero =>
    rw [execute] at ends
    cases ends
  | succ n =>
    cases s
    case breakLoop | continueLoop =>
      rw [execute, paced_eq] at ends
      cases ends
      exact stray
    case leave =>
      rw [execute_leave] at ends
      obtain ⟨v, m₁, -, ends⟩ := bind_eq_ok.1 ends
      cases ends
      exact stray
    all_goals cases stray

/-- Where a fault is reported that does not come from an expression or from a native function, a
stray keyword is executed. -/
theorem Raises.stray {start p : Point} {around : List Point} {d : Diagnostic}
    (trail : Trail config start (p :: around)) (raises : Raises config p (.fault d)) :
    (∃ f vs, config.host f vs = .fault d) ∨ (∃ e, p.task = .expr e) ∨
      ∃ T s m' fault keyword, Executes config start T s m' ∧
        s.strayAt? T.tail = some (fault, keyword) ∧ d = .atToken (.runtime fault) keyword := by
  have horigin {q : Point} {vs : List Value} {flow : Flow} {m₁ : Machine} {fault : RuntimeFault}
      {keyword : Token} (starts : Starts config p vs q) (flows : FlowsIn config q flow m₁)
      (stray : flow.strayAt? (p :: around) = some (fault, keyword)) :
      ∃ T s m' fault' keyword', Executes config start T s m' ∧
        s.strayAt? T.tail = some (fault', keyword') ∧
        Diagnostic.atToken (.runtime fault) keyword = .atToken (.runtime fault') keyword' := by
    obtain ⟨s, n, m, outer, m', trail', hs, ends⟩ := (trail.part starts).origin flows stray
    exact ⟨_, s, m', fault, keyword, ⟨trail', ends⟩, hs, rfl⟩
  cases raises
  case hostFault haction => exact .inl ⟨_, _, haction⟩
  case result flow hscope hbody hresult =>
    refine .inr (.inr ?_)
    obtain ⟨m₁, flows⟩ := within_eq_ok hbody
    cases flow with
    | normal | returning => cases hresult
    | breaking | continuing =>
      cases hresult
      exact horigin (.script hscope) flows rfl
  case strayBreak hfirst | strayContinue hfirst | strayReturn hfirst =>
    refine .inr (.inr (horigin .firstRun hfirst ?_))
    obtain ⟨hcallee, haround⟩ := trail.top
    simp only [Flow.strayAt?, Trail.callee?, Trail.around, hcallee, haround]
    rfl
  all_goals exact .inr (.inl ⟨_, rfl⟩)

/-- A fault of a run is one of a native function; or it is reported at the mark of an expression
that is evaluated; or it is that of a stray keyword that is executed, and it is reported there. -/
theorem Halts.reported {start : Point} {d : Diagnostic} (halts : Halts config start (.fault d)) :
    (∃ f vs, config.host f vs = .fault d) ∨
      (∃ e n m around cause mark, Trail config start (⟨.expr e, n, m⟩ :: around) ∧
        e.mark? = some mark ∧ d = .atToken (.runtime cause) mark ∧ cause ∉ RuntimeFault.strays) ∨
      ∃ T s m' fault keyword, Executes config start T s m' ∧
        s.strayAt? T.tail = some (fault, keyword) ∧ d = .atToken (.runtime fault) keyword := by
  obtain ⟨kept, ⟨task, n, m⟩, reaches, raises⟩ := halts.origin
  obtain ⟨around, trail⟩ := reaches.trail
  rcases raises.stray trail with hhost | ⟨e, rfl⟩ | hstray
  · exact .inl hhost
  · obtain ⟨cause, mark, hmark, hd, hcause⟩ := raises.mark
    exact .inr (.inl ⟨e, n, m, around, cause, mark, trail, hmark, hd, hcause⟩)
  · exact .inr (.inr hstray)

end Scripting
