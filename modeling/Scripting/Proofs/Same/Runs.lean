import Scripting.Proofs.Move.Runs
import Scripting.Proofs.Places.Sessions
import Scripting.Proofs.Same.Compound
import Scripting.Proofs.Same.Equality
import Scripting.Proofs.Same.Interchange

/-!
# Runs side by side

* `follows_runProgram` : programs that are equal but for what is forgotten end the same;
* `Interpreter.SameShape` : interpreters that are the same but for parentheses, places and the texts
  of tokens that are no names (`Session.sameShape`);
* `Outcome.SameMessage`, `Interpreter.EndSame` : outcomes of one kind with the same message, and
  runs that end with them and have the same effect;
* `Interpreter.run_endSame` : runs of two texts whose statements have one shape end the same, or
  neither of them ends.
-/

open Filter (atTop eventually_ge_atTop)

namespace Scripting

set_option autoImplicit false

open Eval
open Interpreter (globalFrame)

variable {K : Setting} {P : Pairing}

/-! ## Programs -/

theorem follows_runProgram (agrees : K.Agrees) (fuel : Nat) {ss ss' : List Stmt}
    (hss : Stmt.forgetAll K.forgetting ss' = Stmt.forgetAll K.forgetting ss) :
    Eval.Follows K P true (fun _ _ _ => True) (runProgram K.config fuel ss)
      fun fuel => runProgram K.config' fuel ss' := by
  rw [Stmt.forgetAll_eq, Stmt.forgetAll_eq] at hss
  have hall := forall₂_of_map_eq hss
  clear hss
  induction hall generalizing P with
  | nil => exact follows_flush
  | cons hs _ ih =>
    refine ((following agrees fuel).execute hs (.inl rfl)).bind fun _ _ flow flow' hflow => ?_
    cases hflow with
    | normal => exact ih
    | breaking ht => exact follows_faultAt ht _
    | continuing ht => exact follows_faultAt ht _
    | returning ht _ => exact follows_faultAt ht _

/-! ## Outcomes -/

/-- Outcomes of one kind with the same message; where a fault is does not matter. -/
inductive Outcome.SameMessage : Outcome → Outcome → Prop
  | success : SameMessage success success
  | fault {d d' : Diagnostic} (h : d'.cause = d.cause) : SameMessage (fault d) (fault d')
  | ioFault (fault : IoFault) : SameMessage (ioFault fault) (ioFault fault)

theorem Outcome.SameMessage.ne_outOfFuel {outcome outcome' : Outcome}
    (h : outcome.SameMessage outcome') : outcome' ≠ outOfFuel := by
  cases h <;> exact Outcome.noConfusion

theorem Diagnostic.Same.cause {F : Forgetting} {d d' : Diagnostic} (h : d.Same F d') :
    d'.cause = d.cause := by
  cases h <;> rfl

theorem Outcome.sameMessage_ofHalt {F : Forgetting} {e e' : Halt} (h : e.Same F e') :
    (ofHalt e).SameMessage (ofHalt e') := by
  cases h with
  | fault h => exact .fault h.cause
  | io => exact .ioFault _

/-! ## Interpreters -/

namespace Interpreter

/-- Interpreters with the standard native functions, that allow as many calls and whose machines are
the same, but for parentheses, places, and the texts of tokens that are no names. -/
structure SameShape (i i' : Interpreter) : Prop where
  standard : i.config.host = .standard
  standard' : i'.config.host = .standard
  callLimit : i'.config.callLimit = i.config.callLimit
  machine : ∃ P : Pairing, P.left[globalFrame]? = some (some globalFrame) ∧
    i.machine.Same ⟨.shape, i.config, i'.config⟩ P true i'.machine

/-- Runs whose outcomes are of one kind, with the same message, that have written the same, and that
leave the same global names with the same values as text, in interpreters that are the same but for
parentheses, places, and the texts of tokens that are no names. -/
structure EndSame (r r' : Outcome × Interpreter) : Prop where
  outcome : r.1.SameMessage r'.1
  effect : SameEffect r.2 r'.2
  shape : r.2.SameShape r'.2

variable {i i' : Interpreter}

namespace SameShape

theorem swap (h : i.SameShape i') : i'.SameShape i where
  standard := h.standard'
  standard' := h.standard
  callLimit := h.callLimit.symm
  machine := by
    obtain ⟨P, hglobal, hm⟩ := h.machine
    exact ⟨P.swap, (P.agree ..).1 hglobal, hm.swap⟩

theorem agrees (h : i.SameShape i') : Setting.Agrees ⟨.shape, i.config, i'.config⟩ :=
  Setting.agrees_of_standard h.callLimit h.standard h.standard'

/-- What can be seen of interpreters of one shape is the same. -/
theorem effect (h : i.SameShape i') : SameEffect i i' where
  written := by
    obtain ⟨P, -, hm⟩ := h.machine
    rw [hm.sink]
  globals := by
    obtain ⟨P, hglobal, hm⟩ := h.machine
    exact (hm.store.frame hglobal).shown (fun _ _ h => h) fun _ _ hv => hv.looks

/-- Of two interpreters of one shape, one runs statements and the other those of the same shape. A
run that ends is one that ends the same as the other, if that has enough fuel. -/
theorem interpret (h : i.SameShape i') {fuel : Nat} {ss ss' : List Stmt}
    (hss : Stmt.forgetAll .shape ss' = Stmt.forgetAll .shape ss)
    (hends : (i.interpret fuel ss).1 ≠ .outOfFuel) :
    ∀ᶠ fuel' in atTop, EndSame (i.interpret fuel ss) (i'.interpret fuel' ss') := by
  obtain ⟨P, hglobal, hm⟩ := h.machine
  have hrun := follows_runProgram h.agrees fuel hss P (.refl P) i.machine i'.machine hm
  obtain ⟨config, scriptName, machine⟩ := i
  obtain ⟨config', scriptName', machine'⟩ := i'
  unfold Interpreter.interpret at hends ⊢
  dsimp only at hrun hends ⊢
  rcases hrun with ⟨m₁, hfuel⟩ | ⟨r, hr, hsame⟩
  · rw [hfuel] at hends
    exact absurd rfl hends
  · revert hsame
    generalize runProgram config fuel ss machine = result
    rintro (⟨grows, -, hm⟩ | ⟨grows, he, hm⟩)
    all_goals
      filter_upwards [hr] with fuel' hr'
      rw [hr']
    · rename_i m₁ m₁' P'
      have hshape : SameShape ⟨config, scriptName, m₁⟩ ⟨config', scriptName', m₁'⟩ :=
        { h with machine := ⟨P', getElem?_of_grows grows.left hglobal, hm⟩ }
      exact ⟨.success, hshape.effect, hshape⟩
    · rename_i e e' m₁ m₁' P'
      have hshape : SameShape (tell ⟨config, scriptName, m₁⟩ (.halted (reason e)))
          (tell ⟨config', scriptName', m₁'⟩ (.halted (reason e'))) :=
        { h with machine := ⟨P', getElem?_of_grows grows.left hglobal, { hm with }⟩ }
      exact ⟨Outcome.sameMessage_ofHalt he, hshape.effect, hshape⟩

theorem reading (h : i.SameShape i') (source source' : String) :
    (i.reading source).SameShape (i'.reading source') :=
  { h with
    machine := by
      obtain ⟨P, hglobal, hm⟩ := h.machine
      exact ⟨P, hglobal, { hm with }⟩ }

end SameShape

/-- On interpreters of one shape, of the runs of two texts whose statements have one shape each ends
if the other does, and then they end the same. -/
theorem run_endSame (h : i.SameShape i') {source source' : String} {ss ss' : List Stmt}
    (parsed : Program.parse? source = .ok ss) (parsed' : Program.parse? source' = .ok ss')
    (hss : Stmt.forgetAll .shape ss' = Stmt.forgetAll .shape ss) :
    ((∃ fuel, (i.run fuel source).1 ≠ .outOfFuel) ↔
        ∃ fuel, (i'.run fuel source').1 ≠ .outOfFuel) ∧
      ∀ fuel fuel', (i.run fuel source).1 ≠ .outOfFuel → (i'.run fuel' source').1 ≠ .outOfFuel →
        EndSame (i.run fuel source) (i'.run fuel' source') := by
  have hforth : ∀ {fuel}, (i.run fuel source).1 ≠ .outOfFuel →
      ∀ᶠ fuel' in atTop, EndSame (i.run fuel source) (i'.run fuel' source') := by
    intro fuel
    simp only [run_eq_interpret _ _ parsed, run_eq_interpret _ _ parsed']
    exact (h.reading source source').interpret hss
  have hback : ∀ {fuel'}, (i'.run fuel' source').1 ≠ .outOfFuel →
      ∀ᶠ fuel in atTop, EndSame (i'.run fuel' source') (i.run fuel source) := by
    intro fuel'
    simp only [run_eq_interpret _ _ parsed, run_eq_interpret _ _ parsed']
    exact (h.reading source source').swap.interpret hss.symm
  refine ⟨⟨?_, ?_⟩, fun fuel fuel' hends hends' => ?_⟩
  · rintro ⟨fuel, hends⟩
    exact (hforth hends).exists.imp fun _ hend => hend.outcome.ne_outOfFuel
  · rintro ⟨fuel', hends'⟩
    exact (hback hends').exists.imp fun _ hend => hend.outcome.ne_outOfFuel
  · obtain ⟨more, hend, hle⟩ := ((hforth hends).and (eventually_ge_atTop fuel')).exists
    rwa [i'.run_of_le hle hends'] at hend

end Interpreter

/-! ## Sessions -/

theorem Store.WellPlaced.grounded {runs : List Run} {W : List TextScope} {s : Store}
    (h : s.WellPlaced runs W) : s.Grounded := by
  intro id b hb identity f hf
  have hfits := h.values id b hb (.script identity f) (by rw [hf]; rfl)
  obtain ⟨Γ, part, parameters, -, -, -, hscope⟩ := hfits
  exact hscope.chain_lt

/-- Between runs, a machine sees frames that there are. -/
theorem Settled.grounded {runs : List Run} {m : Machine} (h : Settled runs m) : m.Grounded := by
  obtain ⟨W, hW⟩ := h.placed
  refine ⟨?_, hW.grounded⟩
  rw [h.scope, Scope.chain_single, List.forall_mem_singleton]
  exact hW.globalFrame_lt

/-- So does a machine at any point of a run. -/
theorem Placed.grounded {runs : List Run} {kept : List Value} {p : Point}
    (h : Placed runs kept p) : p.machine.Grounded := by
  obtain ⟨W, Γ, stands, -, -⟩ := h
  exact ⟨stands.fits.chain_lt, stands.placed.grounded⟩

/-- An interpreter in a session has one shape with itself. -/
theorem Session.sameShape {config : Config} {runs : List Run} {i : Interpreter}
    (session : Session config runs i) (standard : config.host = .standard) : i.SameShape i := by
  have grounded := (session.settled standard).grounded
  have hstandard : i.config.host = .standard := session.config_eq ▸ standard
  have hglobal : globalFrame < i.machine.store.size :=
    grounded.scope _ ((session.settled standard).scope ▸ List.mem_cons_self)
  exact ⟨hstandard, hstandard, rfl, _, Pairing.left_same hglobal,
    Machine.same_refl grounded rfl i.machine.log i.machine.log⟩

/-! ## Shape decides -/

/-- Parentheses and places mean nothing. On interpreters of one shape, of the runs of two texts
whose statements have one shape each ends if the other does, and then they end the same. So it is,
among others, with a name that is combined with a value and assigned again, and with the same
written out: the trees of both have one shape, and each gives what the other gives. -/
theorem Interpreter.shape_decides :
    (∀ {i i' : Interpreter}, i.SameShape i' → ∀ {source source' : String} {ss ss' : List Stmt},
      Program.parse? source = .ok ss → Program.parse? source' = .ok ss' →
      Stmt.forgetAll .shape ss' = Stmt.forgetAll .shape ss →
      ((∃ fuel, (i.run fuel source).1 ≠ .outOfFuel) ↔
          ∃ fuel, (i'.run fuel source').1 ≠ .outOfFuel) ∧
        ∀ fuel fuel', (i.run fuel source).1 ≠ .outOfFuel →
          (i'.run fuel' source').1 ≠ .outOfFuel →
          EndSame (i.run fuel source) (i'.run fuel' source')) ∧
      ∀ (C : Combination) {d d' : Nat} {short long : List Token} {t t' : Expr},
        SameTokens C.short short → SameTokens C.long long →
        Grammar.Expression d short t → Grammar.Expression d' long t' →
        t'.forget .shape = t.forget .shape ∧
          ∀ {K : Setting} {P : Pairing} {inner : Bool}, K.forgetting = .shape → K.Agrees →
            Interchangeable K P inner Value.Same (fun fuel => evaluate K.config fuel t)
              fun fuel => evaluate K.config' fuel t' := by
  refine ⟨fun h _ _ _ _ parsed parsed' hss => run_endSame h parsed parsed' hss, ?_⟩
  intro C d d' short long t t' hshort hlong h h'
  have hshape := C.forget_shape hshort hlong h h'
  exact ⟨hshape, fun hK agrees => interchangeable_evaluate agrees (hK ▸ hshape)⟩

/-- A function with more parentheses and one with fewer, called from programs that differ so too:
both print `8` and then call what is no function. And a sum that is assigned in one way and in the
other. -/
theorem Interpreter.shape_decides_sum :
    let i := ((Interpreter.new {} "session" {}).run 20 "fn f(x) \x7b return x * 2; \x7d").2
    let i' := ((Interpreter.new {} "session" {}).run 20
      "fn f(x)\n\x7b return ((x) * (2)); \x7d").2
    let p := "let y = 3; y += f(y) - 1; print(y); y();"
    let p' := "let y = (3); y = y + (f((y)) - 1); print((y)); (y)();"
    let y : Token := ⟨.identifier, "y", none, 1, ⟨0, 1⟩⟩
    let two : Token := ⟨.int, "2", some (.int 2), 1, ⟨5, 6⟩⟩
    let C : Combination :=
      { op := ⟨.add, .plus, "+"⟩, name := y, mark := ⟨.plusEqual, "+=", none, 1, ⟨2, 4⟩⟩
        target := y, assign := ⟨.assign, "=", none, 1, ⟨2, 3⟩⟩, operand := y
        sign := ⟨.plus, "+", none, 1, ⟨6, 7⟩⟩, opening := ⟨.leftParen, "(", none, 1, ⟨8, 9⟩⟩
        closing := ⟨.rightParen, ")", none, 1, ⟨10, 11⟩⟩, value := [two]
        name_kind := rfl, mark_kind := rfl, target_kind := rfl, target_lexeme := rfl
        assign_kind := rfl, operand_kind := rfl, operand_lexeme := rfl, sign_kind := rfl
        opening_kind := rfl, closing_kind := rfl }
    EndSame (i.run 20 p) (i'.run 20 p') ∧
      (i.run 20 p).2.machine.sink.written = "8\n".toUTF8 ∧
      (i'.run 20 p').2.machine.sink.written = "8\n".toUTF8 ∧
      (i.run 20 p).1.diagnostics.map Diagnostic.message =
        ["Can only call functions and classes."] ∧
      (i'.run 20 p').1.diagnostics.map Diagnostic.message =
        ["Can only call functions and classes."] ∧
      ∃ t t', Grammar.Expression 0 C.short t ∧ Grammar.Expression 0 C.long t' ∧
        t'.forget .shape = t.forget .shape ∧ ∀ P inner,
          Interchangeable ⟨.shape, {}, {}⟩ P inner Value.Same (fun fuel => evaluate {} fuel t)
            fun fuel => evaluate {} fuel t' := by
  intro i i' p p' y two C
  have hshape (source source' : String) (h : ((Program.parse? source').toOption.map
        (Stmt.forgetAll .shape)) = (Program.parse? source).toOption.map (Stmt.forgetAll .shape))
      (hok : (Program.parse? source).isOk = true) (hok' : (Program.parse? source').isOk = true) :
      ∃ ss ss', Program.parse? source = .ok ss ∧ Program.parse? source' = .ok ss' ∧
        Stmt.forgetAll .shape ss' = Stmt.forgetAll .shape ss := by
    obtain ⟨ss, hss⟩ := Program.exists_of_isOk hok
    obtain ⟨ss', hss'⟩ := Program.exists_of_isOk hok'
    rw [hss, hss'] at h
    exact ⟨ss, ss', hss, hss', Option.some.inj h⟩
  obtain ⟨ss, ss', hss, hss', hfunction⟩ := hshape "fn f(x) \x7b return x * 2; \x7d"
    "fn f(x)\n\x7b return ((x) * (2)); \x7d" (by decide +kernel) (by decide +kernel)
    (by decide +kernel)
  obtain ⟨rs, rs', hrs, hrs', hcalls⟩ := hshape "let y = 3; y += f(y) - 1; print(y); y();"
    "let y = (3); y = y + (f((y)) - 1); print((y)); (y)();"
    (by decide +kernel) (by decide +kernel) (by decide +kernel)
  have hnew := (@Session.new {} "session" {}).sameShape rfl
  have hfirst := (shape_decides.1 hnew hss hss' hfunction).2 20 20 (by decide +kernel)
    (by decide +kernel)
  refine ⟨?_, by decide +kernel, by decide +kernel, by decide +kernel, by decide +kernel, ?_⟩
  · exact (shape_decides.1 hfirst.shape hrs hrs' hcalls).2 20 20 (by decide +kernel)
      (by decide +kernel)
  · have hvalue {d : Nat} : Grammar.Unary d [two] (.literal two.span (.int 2)) :=
      .call (.primary (.literal rfl))
    have hshort := Grammar.Expression.nest (d := 0) (by decide) (.operand (.compound
      (.combine C.name_kind C.mark_kind (by decide) (.joined (.of_unary hvalue _)))))
    have hinside := Grammar.Expression.nest (d := 2) (by decide)
      (.operand (.compound (.joined (.of_unary hvalue _))))
    have hlong := Grammar.Expression.nest (d := 0) (by decide) (.assign C.target_kind C.assign_kind
      (by decide) (.operand (.compound (.joined (.of_two (.call (.primary (.name C.operand_kind)))
        (.call (.primary (.group C.opening_kind hinside C.closing_kind)))
        (by simp [Joint.levels]) (show Joint.term? C.sign.kind = some _ from rfl))))))
    obtain ⟨hforget, hvalues⟩ := shape_decides.2 C rfl rfl hshort hlong
    have agrees : Setting.Agrees ⟨.shape, {}, {}⟩ := Setting.agrees_of_standard rfl rfl rfl
    exact ⟨_, _, hshort, hlong, hforget, fun P inner => hvalues rfl agrees⟩

end Scripting
