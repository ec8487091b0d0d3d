import Scripting.Proofs.Grammar.Derivation
import Scripting.Proofs.Same.Trees

/-!
# Derivations do not look at places

* `Relabeling` : the same tokens in other places;
* `Grammar.Declaration.relabel` and the like : if tokens write a tree, the same tokens in other
  places write one of the same shape.

Otherwise the second tree is left open: the grammar gives tokens one tree only, so what it is can be
told from anything else that they write.
-/

namespace Scripting

set_option autoImplicit false

/-- Which token takes the place of another; it differs from it in its place only. -/
structure Relabeling where
  token : Token → Token
  kind : ∀ t, (token t).kind = t.kind
  lexeme : ∀ t, (token t).lexeme = t.lexeme
  literal : ∀ t, (token t).literal = t.literal

theorem Relabeling.value? (f : Relabeling) (t : Token) : (f.token t).value? = t.value? := by
  unfold Token.value?
  rw [f.kind, f.literal]

theorem Relabeling.shape_name (f : Relabeling) (t : Token) :
    Forgetting.shape.name (f.token t) = Forgetting.shape.name t :=
  Forgetting.shape_name (f.lexeme t)

theorem Relabeling.map_shape_name (f : Relabeling) (ts : List Token) :
    (ts.map f.token).map Forgetting.shape.name = ts.map Forgetting.shape.name := by
  rw [List.map_map]
  exact List.map_congr_left fun t _ => f.shape_name t

theorem Joint.forget_join (joint : Joint) {mark mark' : Token} {l l' r r' : Expr}
    (hl : l'.forget .shape = l.forget .shape) (hr : r'.forget .shape = r.forget .shape) :
    (joint.join mark' l' r').forget .shape = (joint.join mark l r).forget .shape := by
  cases joint <;> simp [Joint.join, Expr.forget, hl, hr]

namespace Grammar

variable (f : Relabeling)

theorem Names.relabel {ts names : List Token} (h : Names ts names) :
    Names (ts.map f.token) (names.map f.token) := by
  induction h with
  | one hname => exact .one ((f.kind _).trans hname)
  | more hname hcomma _ ih =>
    exact .more ((f.kind _).trans hname) ((f.kind _).trans hcomma) ih

theorem Parameters.relabel {ts names : List Token} (h : Parameters ts names) :
    Parameters (ts.map f.token) (names.map f.token) := by
  cases h with
  | none => exact .none
  | some names few => exact .some (names.relabel f) (by rwa [List.length_map])

mutual

theorem Expression.relabel {d : Nat} {ts : List Token} {e : Expr} :
    Expression d ts e →
      ∃ e', Expression d (ts.map f.token) e' ∧ e'.forget .shape = e.forget .shape
  | .nest room inside => by
    obtain ⟨e', h, hshape⟩ := inside.relabel
    exact ⟨e', .nest room h, hshape⟩

theorem Assignment.relabel {d : Nat} {ts : List Token} {e : Expr} :
    Assignment d ts e →
      ∃ e', Assignment d (ts.map f.token) e' ∧ e'.forget .shape = e.forget .shape
  | .operand whole => by
    obtain ⟨e', h, hshape⟩ := whole.relabel
    exact ⟨e', .operand h, hshape⟩
  | .assign hname hmark room right => by
    obtain ⟨value, h, hshape⟩ := right.relabel
    exact ⟨_, .assign ((f.kind _).trans hname) ((f.kind _).trans hmark) room h,
      by simp [Expr.forget, f.shape_name, hshape]⟩

theorem Operand.relabel {d : Nat} {ts : List Token} {e : Expr} :
    Operand d ts e → ∃ e', Operand d (ts.map f.token) e' ∧ e'.forget .shape = e.forget .shape
  | .function hkeyword part => by
    obtain ⟨body, h, hshape⟩ := part.relabel
    exact ⟨_, .function ((f.kind _).trans hkeyword) h,
      by simp only [Expr.forget, Forgetting.shape_span, f.map_shape_name, hshape]⟩
  | .compound whole => by
    obtain ⟨e', h, hshape⟩ := whole.relabel
    exact ⟨e', .compound h, hshape⟩

theorem Compound.relabel {d : Nat} {ts : List Token} {e : Expr} :
    Compound d ts e → ∃ e', Compound d (ts.map f.token) e' ∧ e'.forget .shape = e.forget .shape
  | .joined whole => by
    obtain ⟨e', h, hshape⟩ := whole.relabel
    exact ⟨e', .joined h, hshape⟩
  | .combine hname hmark room right => by
    obtain ⟨value, h, hshape⟩ := right.relabel
    exact ⟨_, .combine ((f.kind _).trans hname) (by rwa [f.kind]) room h,
      by simp [Expr.forget, f.shape_name, hshape]⟩

theorem Joined.relabel {levels : List (Kind → Option Joint)} {d : Nat} {ts : List Token}
    {e : Expr} : Joined levels d ts e →
      ∃ e', Joined levels d (ts.map f.token) e' ∧ e'.forget .shape = e.forget .shape
  | .unary whole => by
    obtain ⟨e', h, hshape⟩ := whole.relabel
    exact ⟨e', .unary h, hshape⟩
  | .tighter whole => by
    obtain ⟨e', h, hshape⟩ := whole.relabel
    exact ⟨e', .tighter h, hshape⟩
  | .join left hmark right => by
    obtain ⟨l, hl, hlshape⟩ := left.relabel
    obtain ⟨r, hr, hrshape⟩ := right.relabel
    rw [List.map_append, List.map_cons]
    exact ⟨_, .join hl (by rwa [f.kind]) hr, Joint.forget_join _ hlshape hrshape⟩

theorem Unary.relabel {d : Nat} {ts : List Token} {e : Expr} :
    Unary d ts e → ∃ e', Unary d (ts.map f.token) e' ∧ e'.forget .shape = e.forget .shape
  | .operator hmark room operand => by
    obtain ⟨e', h, hshape⟩ := operand.relabel
    exact ⟨_, .operator (by rwa [f.kind]) room h, by simp [Expr.forget, hshape]⟩
  | .call whole => by
    obtain ⟨e', h, hshape⟩ := whole.relabel
    exact ⟨e', .call h, hshape⟩

theorem Call.relabel {d : Nat} {ts : List Token} {e : Expr} :
    Call d ts e → ∃ e', Call d (ts.map f.token) e' ∧ e'.forget .shape = e.forget .shape
  | .primary whole => by
    obtain ⟨e', h, hshape⟩ := whole.relabel
    exact ⟨e', .primary h, hshape⟩
  | .call left hopening right hclosing => by
    obtain ⟨callee, hcallee, hshape⟩ := left.relabel
    obtain ⟨arguments, harguments, hshapes⟩ := right.relabel
    simp only [List.map_append, List.map_cons, List.map_nil]
    exact ⟨_, .call hcallee ((f.kind _).trans hopening) harguments ((f.kind _).trans hclosing),
      by simp [Expr.forget, hshape, hshapes]⟩

theorem Arguments.relabel {d : Nat} {ts : List Token} {arguments : List Expr} :
    Arguments d ts arguments → ∃ arguments', Arguments d (ts.map f.token) arguments' ∧
      Expr.forgetAll .shape arguments' = Expr.forgetAll .shape arguments
  | .none => ⟨_, .none, rfl⟩
  | .some values few => by
    obtain ⟨es, h, hshapes⟩ := values.relabel
    have hlength : es.length = arguments.length := by
      rw [Expr.forgetAll_eq, Expr.forgetAll_eq] at hshapes
      simpa using congrArg List.length hshapes
    exact ⟨es, .some h (hlength ▸ few), hshapes⟩

theorem Values.relabel {d : Nat} {ts : List Token} {es : List Expr} :
    Values d ts es → ∃ es', Values d (ts.map f.token) es' ∧
      Expr.forgetAll .shape es' = Expr.forgetAll .shape es
  | .one value => by
    obtain ⟨e', h, hshape⟩ := value.relabel
    exact ⟨[e'], .one h, by simp only [Expr.forgetAll, hshape]⟩
  | .more value hcomma rest => by
    obtain ⟨e', h, hshape⟩ := value.relabel
    obtain ⟨es', hrest, hshapes⟩ := rest.relabel
    rw [List.map_append, List.map_cons]
    exact ⟨e' :: es', .more h ((f.kind _).trans hcomma) hrest,
      by simp only [Expr.forgetAll, hshape, hshapes]⟩

theorem Primary.relabel {d : Nat} {ts : List Token} {e : Expr} :
    Primary d ts e → ∃ e', Primary d (ts.map f.token) e' ∧ e'.forget .shape = e.forget .shape
  | .literal hvalue => ⟨_, .literal ((f.value? _).trans hvalue), rfl⟩
  | .name hname => ⟨_, .name ((f.kind _).trans hname), congrArg Expr.read (f.shape_name _)⟩
  | .group hopening inside hclosing => by
    obtain ⟨e', h, hshape⟩ := inside.relabel
    simp only [List.map_append, List.map_cons, List.map_nil]
    exact ⟨_, .group ((f.kind _).trans hopening) h ((f.kind _).trans hclosing),
      by simp [Expr.forget, hshape]⟩

theorem FunctionRest.relabel {d : Nat} {ts parameters : List Token} {body : List Stmt}
    {last : Token} : FunctionRest d ts parameters body last →
      ∃ body', FunctionRest d (ts.map f.token) (parameters.map f.token) body' (f.token last) ∧
        Stmt.forgetAll .shape body' = Stmt.forgetAll .shape body
  | .mk hopening names hclosing hbrace rest => by
    obtain ⟨body', h, hshapes⟩ := rest.relabel
    simp only [List.map_append, List.map_cons]
    exact ⟨body', .mk ((f.kind _).trans hopening) (names.relabel f) ((f.kind _).trans hclosing)
      ((f.kind _).trans hbrace) h, hshapes⟩

theorem BlockRest.relabel {d : Nat} {ts : List Token} {body : List Stmt} {closing : Token} :
    BlockRest d ts body closing → ∃ body', BlockRest d (ts.map f.token) body' (f.token closing) ∧
      Stmt.forgetAll .shape body' = Stmt.forgetAll .shape body
  | .mk inside hclosing => by
    obtain ⟨body', h, hshapes⟩ := inside.relabel
    rw [List.map_append, List.map_singleton]
    exact ⟨body', .mk h ((f.kind _).trans hclosing), hshapes⟩

theorem Declarations.relabel {d : Nat} {ts : List Token} {body : List Stmt} :
    Declarations d ts body → ∃ body', Declarations d (ts.map f.token) body' ∧
      Stmt.forgetAll .shape body' = Stmt.forgetAll .shape body
  | .nil => ⟨[], .nil, rfl⟩
  | .cons first others => by
    obtain ⟨s', hs, hshape⟩ := first.relabel
    obtain ⟨rest', hrest, hshapes⟩ := others.relabel
    rw [List.map_append]
    exact ⟨s' :: rest', .cons hs hrest, by simp only [Stmt.forgetAll, hshape, hshapes]⟩

theorem Declaration.relabel {d : Nat} {ts : List Token} {s : Stmt} :
    Declaration d ts s →
      ∃ s', Declaration d (ts.map f.token) s' ∧ s'.forget .shape = s.forget .shape
  | .function hkeyword hname part => by
    obtain ⟨body, h, hshapes⟩ := part.relabel
    exact ⟨_, .function ((f.kind _).trans hkeyword) ((f.kind _).trans hname) h,
      by simp only [Stmt.forget, Forgetting.shape_span, f.shape_name, f.map_shape_name, hshapes]⟩
  | .define hkeyword rest => by
    obtain ⟨s', h, hshape⟩ := rest.relabel
    exact ⟨s', .define ((f.kind _).trans hkeyword) h, hshape⟩
  | .statement whole => by
    obtain ⟨s', h, hshape⟩ := whole.relabel
    exact ⟨s', .statement h, hshape⟩

theorem LetRest.relabel {d : Nat} {keyword : Token} {ts : List Token} {s : Stmt} :
    LetRest d keyword ts s →
      ∃ s', LetRest d (f.token keyword) (ts.map f.token) s' ∧ s'.forget .shape = s.forget .shape
  | .bare hname hclosing =>
    ⟨_, .bare ((f.kind _).trans hname) ((f.kind _).trans hclosing),
      by simp only [Stmt.forget, Forgetting.shape_span, f.shape_name]⟩
  | .initial hname hmark value hclosing => by
    obtain ⟨e', h, hshape⟩ := value.relabel
    simp only [List.map_append, List.map_cons, List.map_nil]
    exact ⟨_, .initial ((f.kind _).trans hname) ((f.kind _).trans hmark) h
      ((f.kind _).trans hclosing), by simp only [Stmt.forget, Expr.forgetOption,
        Forgetting.shape_span, f.shape_name, hshape]⟩

theorem ExpressionStatement.relabel {d : Nat} {ts : List Token} {s : Stmt} :
    ExpressionStatement d ts s →
      ∃ s', ExpressionStatement d (ts.map f.token) s' ∧ s'.forget .shape = s.forget .shape
  | .mk value hclosing => by
    obtain ⟨e', h, hshape⟩ := value.relabel
    rw [List.map_append, List.map_singleton]
    exact ⟨_, .mk h ((f.kind _).trans hclosing), by simp [Stmt.forget, hshape]⟩

theorem Statement.relabel {dangling : Bool} {d : Nat} {ts : List Token} {s : Stmt} :
    Statement dangling d ts s →
      ∃ s', Statement dangling d (ts.map f.token) s' ∧ s'.forget .shape = s.forget .shape
  | .nest room inside => by
    obtain ⟨s', h, hshape⟩ := inside.relabel
    exact ⟨s', .nest room h, hshape⟩

theorem StatementForm.relabel {dangling : Bool} {d : Nat} {ts : List Token} {s : Stmt} :
    StatementForm dangling d ts s →
      ∃ s', StatementForm dangling d (ts.map f.token) s' ∧ s'.forget .shape = s.forget .shape
  | .forLoop hkeyword hopening first second hmiddle third hclosing inside => by
    obtain ⟨initial, hinitial, hfirst⟩ := first.relabel
    obtain ⟨condition, hcondition, hsecond⟩ := second.relabel
    obtain ⟨step, hstep, hthird⟩ := third.relabel
    obtain ⟨body, hbody, hinside⟩ := inside.relabel
    simp only [List.map_append, List.map_cons]
    exact ⟨_, .forLoop ((f.kind _).trans hkeyword) ((f.kind _).trans hopening) hinitial
      hcondition ((f.kind _).trans hmiddle) hstep ((f.kind _).trans hclosing) hbody,
      Stmt.forget_forLoop hfirst hsecond hthird hinside⟩
  | .branch hkeyword hopening test hclosing first => by
    obtain ⟨condition, hcondition, htest⟩ := test.relabel
    obtain ⟨whenTrue, hwhenTrue, hfirst⟩ := first.relabel
    simp only [List.map_append, List.map_cons]
    exact ⟨_, .branch ((f.kind _).trans hkeyword) ((f.kind _).trans hopening) hcondition
      ((f.kind _).trans hclosing) hwhenTrue, by simp [Stmt.forget, htest, hfirst]⟩
  | .branchElse hkeyword hopening test hclosing first hmiddle second => by
    obtain ⟨condition, hcondition, htest⟩ := test.relabel
    obtain ⟨whenTrue, hwhenTrue, hfirst⟩ := first.relabel
    obtain ⟨whenFalse, hwhenFalse, hsecond⟩ := second.relabel
    simp only [List.map_append, List.map_cons]
    exact ⟨_, .branchElse ((f.kind _).trans hkeyword) ((f.kind _).trans hopening) hcondition
      ((f.kind _).trans hclosing) hwhenTrue ((f.kind _).trans hmiddle) hwhenFalse,
      by simp [Stmt.forget, Stmt.forgetOption, htest, hfirst, hsecond]⟩
  | .leave hkeyword result hclosing => by
    obtain ⟨value, hvalue, hshape⟩ := result.relabel
    simp only [List.map_append, List.map_cons, List.map_nil]
    exact ⟨_, .leave ((f.kind _).trans hkeyword) hvalue ((f.kind _).trans hclosing),
      by simp [Stmt.forget, hshape]⟩
  | .loop hkeyword hopening test hclosing inside => by
    obtain ⟨condition, hcondition, htest⟩ := test.relabel
    obtain ⟨body, hbody, hinside⟩ := inside.relabel
    simp only [List.map_append, List.map_cons]
    exact ⟨_, .loop ((f.kind _).trans hkeyword) ((f.kind _).trans hopening) hcondition
      ((f.kind _).trans hclosing) hbody, by simp [Stmt.forget, htest, hinside]⟩
  | .breakLoop hkeyword hclosing =>
    ⟨_, .breakLoop ((f.kind _).trans hkeyword) ((f.kind _).trans hclosing), rfl⟩
  | .continueLoop hkeyword hclosing =>
    ⟨_, .continueLoop ((f.kind _).trans hkeyword) ((f.kind _).trans hclosing), rfl⟩
  | .block hbrace rest => by
    obtain ⟨body, h, hshapes⟩ := rest.relabel
    exact ⟨_, .block ((f.kind _).trans hbrace) h, by simp [Stmt.forget, hshapes]⟩
  | .expression whole => by
    obtain ⟨s', h, hshape⟩ := whole.relabel
    exact ⟨s', .expression h, hshape⟩

theorem InitialClause.relabel {d : Nat} {ts : List Token} {initial : Option Stmt} :
    InitialClause d ts initial → ∃ initial', InitialClause d (ts.map f.token) initial' ∧
      Stmt.forgetOption .shape initial' = Stmt.forgetOption .shape initial
  | .none hclosing => ⟨_, .none ((f.kind _).trans hclosing), rfl⟩
  | .define hkeyword rest => by
    obtain ⟨s', h, hshape⟩ := rest.relabel
    exact ⟨some s', .define ((f.kind _).trans hkeyword) h, congrArg some hshape⟩
  | .expression whole => by
    obtain ⟨s', h, hshape⟩ := whole.relabel
    exact ⟨some s', .expression h, congrArg some hshape⟩

theorem Clause.relabel {d : Nat} {ts : List Token} {value : Option Expr} :
    Clause d ts value → ∃ value', Clause d (ts.map f.token) value' ∧
      Expr.forgetOption .shape value' = Expr.forgetOption .shape value
  | .none => ⟨_, .none, rfl⟩
  | .some value => by
    obtain ⟨e', h, hshape⟩ := value.relabel
    exact ⟨some e', .some h, congrArg some hshape⟩

end

end Grammar

end Scripting
