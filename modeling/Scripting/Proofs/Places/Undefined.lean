import Scripting.Proofs.Places.Declared
import Scripting.Proofs.Places.Sessions
import Scripting.Proofs.Points.Halts

/-!
# Undefined names

* `Halt.IsUndefined`, `Misses` : faults for names that no visible frame binds, and the points where
  a name is looked for in vain;
* `Raises.misses` : such a fault is raised at such a point only;
* `Placed.not_misses` : a placed point of a program whose names are declared is none;
* `Session.run_ne_undefined` : in a session of such programs, no run ends with such a fault.
-/

namespace Scripting

set_option autoImplicit false

open Eval

/-! ## Faults for undefined names -/

/-- The halt is a fault for a name that no visible frame binds. -/
def Halt.IsUndefined (h : Halt) : Prop :=
  ∃ d name, h = .fault d ∧ d.cause = .runtime (.undefinedVariable name)

theorem Halt.not_isUndefined_atToken {cause : RuntimeFault} {t : Token}
    (h : ∀ name, cause ≠ .undefinedVariable name) :
    ¬(Halt.fault (.atToken (.runtime cause) t)).IsUndefined := by
  rintro ⟨d, name, hd, hcause⟩
  cases hd
  exact h name (Cause.runtime.inj hcause)

theorem UnaryOp.ne_undefined {op : UnaryOp} {v : Value} {cause : RuntimeFault}
    (h : op.apply v = .error cause) (name : String) : cause ≠ .undefinedVariable name := by
  cases op with
  | not => cases h
  | negate =>
    cases v <;> cases h
    all_goals exact nofun

theorem BinaryOp.ne_undefined {op : BinaryOp} {a b : Value} {cause : RuntimeFault}
    (h : op.apply a b = .error cause) (name : String) : cause ≠ .undefinedVariable name := by
  rintro rfl
  cases op <;> simp only [apply, sum, numeric, quotient] at h
  all_goals repeat' split at h
  all_goals cases h

variable {config : Config} {m m' : Machine} {h : Halt}

theorem checkCall_not_isUndefined {paren : Token} {f : Value} {vs : List Value}
    (hcheck : checkCall config paren f vs m = .error h m') : ¬h.IsUndefined := by
  unfold checkCall at hcheck
  cases hf : f.callable? with
  | none =>
    rw [hf] at hcheck
    cases hcheck
    exact Halt.not_isUndefined_atToken nofun
  | some c =>
    rw [hf] at hcheck
    dsimp only at hcheck
    split at hcheck
    · rcases bind_eq_error.1 hcheck with hget | ⟨m₀, m₁, hget, hcheck⟩
      · cases hget
      · split at hcheck
        · cases hcheck
        · cases hcheck
          exact Halt.not_isUndefined_atToken nofun
    · cases hcheck
      exact Halt.not_isUndefined_atToken nofun

theorem Flow.result_not_isUndefined {flow : Flow} (hresult : flow.result m = .error h m') :
    ¬h.IsUndefined := by
  cases flow <;> cases hresult
  case breaking => exact Halt.not_isUndefined_atToken nofun
  case continuing => exact Halt.not_isUndefined_atToken nofun

/-- A name is looked for in vain where the point reads or assigns it. -/
inductive Misses (config : Config) : Point → Prop
  | read {name : Token} {n : Nat} {m : Machine} {d : Diagnostic}
      (hread : m.store.read m.scope name = .error d) :
      Misses config ⟨.expr (.read name), n + 1, m⟩
  | write {span : Span} {name : Token} {value : Expr} {n : Nat} {m m' : Machine} {v : Value}
      {d : Diagnostic} (hvalue : evaluate config n value m = .ok v m')
      (hlocate : m'.store.locate m'.scope name = .error d) :
      Misses config ⟨.expr (.assign span name value), n + 1, m⟩

/-- Nothing else raises a fault for an undefined name. -/
theorem Raises.misses {p : Point} (raises : Raises config p h)
    (standard : config.host = .standard) (undefined : h.IsUndefined) : Misses config p := by
  cases raises with
  | read hread => exact .read hread
  | write hvalue hlocate => exact .write hvalue hlocate
  | unary _ happly =>
    exact absurd undefined (Halt.not_isUndefined_atToken (UnaryOp.ne_undefined happly))
  | binary _ _ happly =>
    exact absurd undefined (Halt.not_isUndefined_atToken (BinaryOp.ne_undefined happly))
  | check _ _ hcheck => exact absurd undefined (checkCall_not_isUndefined hcheck)
  | result _ _ hresult => exact absurd undefined (Flow.result_not_isUndefined hresult)
  | strayBreak | strayContinue | strayReturn =>
    exact absurd undefined (Halt.not_isUndefined_atToken nofun)
  | @hostFault _ f vs _ _ _ haction =>
    rw [standard] at haction
    rcases Host.standard_eq f vs with heq | ⟨text, heq⟩ | heq <;> rw [heq] at haction <;>
      cases haction
  | _ =>
    obtain ⟨d, name, hd, -⟩ := undefined
    cases hd

/-! ## Names that are found -/

section

variable {s : Store} {scope : Scope} {t : Token} {id : FrameId} (hid : id ∈ scope.chain)
  (hn : t.lexeme ∈ (s.frame id).names)

include hid hn

theorem Store.locate_ne_error (d : Diagnostic) : s.locate scope t ≠ .error d := by
  unfold locate
  cases hbinder : s.binder? scope.chain t.lexeme with
  | some id' => exact nofun
  | none =>
    have hnone := List.find?_eq_none.1 hbinder id hid
    exact absurd ((Frame.binds_iff ..).2 hn) hnone

theorem Store.read_ne_error (d : Diagnostic) : s.read scope t ≠ .error d := by
  unfold read
  cases hlookup : s.lookup? scope t.lexeme with
  | some v => exact nofun
  | none =>
    have hnone := List.findSome?_eq_none_iff.1 hlookup id hid
    have hbinds := (Frame.binds_iff ..).2 hn
    rw [Frame.binds, hnone] at hbinds
    cases hbinds

end

/-- Names that are known at a place are bound in each scope that fits it. -/
theorem Placed.not_misses {runs : List Run} {kept : List Value} {p : Point}
    (hplacing : ∀ fuel, Placing config runs fuel) (declared : ∀ r ∈ runs, r.WellDeclared)
    (hp : Placed runs kept p) : ¬Misses config p := by
  obtain ⟨W, Γ, stands, hlies, -⟩ := hp
  rintro (hread | ⟨hvalue, hlocate⟩)
  · obtain ⟨r, hr, hlies⟩ := hlies
    obtain ⟨id, hid, hn⟩ := stands.fits.bound ((declared r hr).read Γ _ hlies)
    exact Store.read_ne_error hid hn _ hread
  · obtain ⟨W', onward, -⟩ := ((hplacing _).evaluate stands (hlies.step .assigned)).of_ok hvalue
    obtain ⟨r, hr, hlies⟩ := hlies
    have hknown := (declared r hr).assign Γ _ _ _ hlies
    obtain ⟨id, hid, hn⟩ := (stands.onward onward).fits.bound hknown
    exact Store.locate_ne_error hid hn _ hlocate

/-! ## Sessions -/

theorem Interpreter.halts_of_interpret {i : Interpreter} {fuel : Nat} {ss : List Stmt}
    {log : Array Event} {d : Diagnostic}
    (h : ({ i with machine := { i.machine with log } }.interpret fuel ss).1 = .fault d) :
    Halts i.config (i.beginning ss fuel log) (.fault d) := by
  unfold interpret at h
  dsimp only at h
  cases hrun : runProgram i.config fuel ss { i.machine with log } with
  | ok _ m =>
    rw [hrun] at h
    cases h
  | error halt m =>
    rw [hrun] at h
    cases halt with
    | fault d' =>
      cases h
      exact ⟨m, hrun⟩
    | io | outOfFuel => cases h

/-- In a session of programs, each of whose names is declared before it or global when the program
is run, no run ends with a fault for an undefined name, however the runs before it have ended. -/
theorem Session.run_ne_undefined {config : Config} {runs : List Run} {i : Interpreter}
    (session : Session config runs i) (standard : config.host = .standard)
    (declared : ∀ r ∈ runs, r.WellDeclared) (fuel : Nat) (source : String)
    (declared' : ∀ ss, Program.parse? source = .ok ss → (i.runOf ss).WellDeclared)
    (d : Diagnostic) (name : String) (hcause : d.cause = .runtime (.undefinedVariable name)) :
    (i.run fuel source).1 ≠ .fault d := by
  intro hrun
  cases parsed : Program.parse? source with
  | error ds => exact (i.run_of_rejected fuel parsed).2 d hrun
  | ok ss =>
    obtain ⟨log, hinterpret⟩ := i.run_of_parse? fuel parsed
    rw [hinterpret] at hrun
    have halts := Interpreter.halts_of_interpret hrun
    rw [session.config_eq] at halts
    obtain ⟨kept, q, reaches, raises⟩ := halts.origin
    have hplaced := session.placed standard parsed reaches
    have hdeclared : ∀ r ∈ runs ++ [i.runOf ss], r.WellDeclared :=
      List.forall_mem_append.2 ⟨declared, List.forall_mem_singleton.2 (declared' ss parsed)⟩
    have hplacing := placing standard (session.plain_append parsed)
    exact hplaced.not_misses hplacing hdeclared (raises.misses standard ⟨d, name, rfl, hcause⟩)

/-- A run that ends with a fault, and then a call of a function that it has made. -/
theorem Session.run_ne_undefined_after_fault :
    let p := "let x = 1; fn f() \x7b return x; \x7d 1 / 0; let z = 2;"
    let i := ((Interpreter.new {} "session" {}).run 9 p).2
    ((Interpreter.new {} "session" {}).run 9 p).1 ≠ .success ∧
      (i.run 9 "print(f());").1 ≠ .fault { cause := .runtime (.undefinedVariable "z") } := by
  intro p i
  obtain ⟨first, hfirst⟩ := Program.exists_of_isOk (by decide +kernel :
    (Program.parse? p).isOk = true)
  have session := (@Session.new {} "session" {}).run 9 hfirst
  have hdeclared : (Program.parse? p).toOption.map (fun ss =>
      ((Interpreter.new {} "session" {}).runOf ss).undeclared) = some [] := by decide +kernel
  have hdeclared' : (Program.parse? "print(f());").toOption.map (fun ss =>
      (i.runOf ss).undeclared) = some [] := by decide +kernel
  refine ⟨by decide +kernel, ?_⟩
  refine session.run_ne_undefined rfl ?_ 9 _ (fun ss hss => ?_) _ "z" rfl
  · rw [List.nil_append, List.forall_mem_singleton]
    rw [hfirst] at hdeclared
    exact Run.wellDeclared_iff.2 (Option.some.inj hdeclared)
  · rw [hss] at hdeclared'
    exact Run.wellDeclared_iff.2 (Option.some.inj hdeclared')

end Scripting
