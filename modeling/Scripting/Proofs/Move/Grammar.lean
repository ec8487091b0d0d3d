import Scripting.Proofs.Grammar.Derivation
import Scripting.Proofs.Move.Basic

/-!
# Derivations of moved texts

* `Grammar.Declarations.move` and the like : moved tokens write the moved tree;
* `Grammar.Declarations.append` : declarations behind declarations are declarations.

No relation of the grammar looks at places, so each derivation can be copied step by step.
-/

namespace Scripting

set_option autoImplicit false

theorem Joint.join_move (σ : Shift) (joint : Joint) (mark : Token) (l r : Expr) :
    (joint.join mark l r).move σ = joint.join (mark.move σ) (l.move σ) (r.move σ) := by
  cases joint <;> simp [Joint.join, Expr.move]

namespace Grammar

variable (σ : Shift)

theorem Names.move {ts names : List Token} :
    Names ts names → Names (ts.map (Token.move σ)) (names.map (Token.move σ))
  | @Names.one name hname => @Names.one (name.move σ) hname
  | @Names.more name comma _ _ hname hcomma rest =>
    @Names.more (name.move σ) (comma.move σ) _ _ hname hcomma rest.move

theorem Parameters.move {ts names : List Token} :
    Parameters ts names → Parameters (ts.map (Token.move σ)) (names.map (Token.move σ))
  | .none => .none
  | .some names few => .some (names.move σ) (by rwa [List.length_map])

mutual

theorem Expression.move {d : Nat} {ts : List Token} {e : Expr} :
    Expression d ts e → Expression d (ts.map (Token.move σ)) (e.move σ)
  | .nest room inside => .nest room inside.move

theorem Assignment.move {d : Nat} {ts : List Token} {e : Expr} :
    Assignment d ts e → Assignment d (ts.map (Token.move σ)) (e.move σ)
  | .operand whole => .operand whole.move
  | @Assignment.assign _ name mark _ _ hname hmark room right => by
    have h := @Assignment.assign _ (name.move σ) (mark.move σ) _ _ hname hmark room right.move
    simpa [Expr.move] using h

theorem Operand.move {d : Nat} {ts : List Token} {e : Expr} :
    Operand d ts e → Operand d (ts.map (Token.move σ)) (e.move σ)
  | @Operand.function _ keyword _ _ _ _ hkeyword part => by
    have h := @Operand.function _ (keyword.move σ) _ _ _ _ hkeyword part.move
    simpa [Expr.move] using h
  | .compound whole => .compound whole.move

theorem Compound.move {d : Nat} {ts : List Token} {e : Expr} :
    Compound d ts e → Compound d (ts.map (Token.move σ)) (e.move σ)
  | .joined whole => .joined whole.move
  | @Compound.combine _ name mark _ _ _ hname hmark room right => by
    have h := @Compound.combine _ (name.move σ) (mark.move σ) _ _ _ hname hmark room right.move
    simpa [Expr.move] using h

theorem Joined.move {levels : List (Kind → Option Joint)} {d : Nat} {ts : List Token} {e : Expr} :
    Joined levels d ts e → Joined levels d (ts.map (Token.move σ)) (e.move σ)
  | .unary whole => .unary whole.move
  | .tighter whole => .tighter whole.move
  | @Joined.join _ _ _ _ _ mark _ _ _ left hmark right => by
    have h := @Joined.join _ _ _ _ _ (mark.move σ) _ _ _ left.move hmark right.move
    simpa [Joint.join_move] using h

theorem Unary.move {d : Nat} {ts : List Token} {e : Expr} :
    Unary d ts e → Unary d (ts.map (Token.move σ)) (e.move σ)
  | @Unary.operator _ mark _ _ _ hmark room operand => by
    have h := @Unary.operator _ (mark.move σ) _ _ _ hmark room operand.move
    simpa [Expr.move] using h
  | .call whole => .call whole.move

theorem Call.move {d : Nat} {ts : List Token} {e : Expr} :
    Call d ts e → Call d (ts.map (Token.move σ)) (e.move σ)
  | .primary whole => .primary whole.move
  | @Call.call _ _ _ opening closing _ _ left hopening right hclosing => by
    have h := @Call.call _ _ _ (opening.move σ) (closing.move σ) _ _ left.move hopening right.move
      hclosing
    simpa [Expr.move] using h

theorem Arguments.move {d : Nat} {ts : List Token} {arguments : List Expr} :
    Arguments d ts arguments → Arguments d (ts.map (Token.move σ)) (arguments.map (Expr.move σ))
  | .none => .none
  | .some values few => .some values.move (by rwa [List.length_map])

theorem Values.move {d : Nat} {ts : List Token} {es : List Expr} :
    Values d ts es → Values d (ts.map (Token.move σ)) (es.map (Expr.move σ))
  | .one value => .one value.move
  | @Values.more _ _ _ comma _ _ value hcomma rest => by
    have h := @Values.more _ _ _ (comma.move σ) _ _ value.move hcomma rest.move
    simpa using h

theorem Primary.move {d : Nat} {ts : List Token} {e : Expr} :
    Primary d ts e → Primary d (ts.map (Token.move σ)) (e.move σ)
  | @Primary.literal _ t _ hvalue => @Primary.literal _ (t.move σ) _ hvalue
  | @Primary.name _ t hname => @Primary.name _ (t.move σ) hname
  | @Primary.group _ opening closing _ _ hopening inside hclosing => by
    have h := @Primary.group _ (opening.move σ) (closing.move σ) _ _ hopening inside.move hclosing
    simpa [Expr.move] using h

theorem FunctionRest.move {d : Nat} {ts parameters : List Token} {body : List Stmt} {last : Token} :
    FunctionRest d ts parameters body last →
      FunctionRest d (ts.map (Token.move σ)) (parameters.map (Token.move σ))
        (body.map (Stmt.move σ)) (last.move σ)
  | @FunctionRest.mk _ opening closing brace _ _ _ _ _ hopening names hclosing hbrace rest => by
    have h := @FunctionRest.mk _ (opening.move σ) (closing.move σ) (brace.move σ) _ _ _ _ _ hopening
      (names.move σ) hclosing hbrace rest.move
    simpa using h

theorem BlockRest.move {d : Nat} {ts : List Token} {body : List Stmt} {closing : Token} :
    BlockRest d ts body closing →
      BlockRest d (ts.map (Token.move σ)) (body.map (Stmt.move σ)) (closing.move σ)
  | @BlockRest.mk _ _ _ closing inside hclosing => by
    have h := @BlockRest.mk _ _ _ (closing.move σ) inside.move hclosing
    simpa using h

theorem Declarations.move {d : Nat} {ts : List Token} {body : List Stmt} :
    Declarations d ts body → Declarations d (ts.map (Token.move σ)) (body.map (Stmt.move σ))
  | .nil => .nil
  | .cons first others => by
    have h := Declarations.cons first.move others.move
    simpa using h

theorem Declaration.move {d : Nat} {ts : List Token} {s : Stmt} :
    Declaration d ts s → Declaration d (ts.map (Token.move σ)) (s.move σ)
  | @Declaration.function _ keyword name _ _ _ _ hkeyword hname part => by
    have h := @Declaration.function _ (keyword.move σ) (name.move σ) _ _ _ _ hkeyword hname
      part.move
    simpa [Stmt.move] using h
  | @Declaration.define _ keyword _ _ hkeyword rest =>
    @Declaration.define _ (keyword.move σ) _ _ hkeyword rest.move
  | .statement whole => .statement whole.move

theorem LetRest.move {d : Nat} {keyword : Token} {ts : List Token} {s : Stmt} :
    LetRest d keyword ts s → LetRest d (keyword.move σ) (ts.map (Token.move σ)) (s.move σ)
  | @LetRest.bare _ keyword name closing hname hclosing =>
    @LetRest.bare _ (keyword.move σ) (name.move σ) (closing.move σ) hname hclosing
  | @LetRest.initial _ keyword name mark closing _ _ hname hmark value hclosing => by
    have h := @LetRest.initial _ (keyword.move σ) (name.move σ) (mark.move σ) (closing.move σ) _ _
      hname hmark value.move hclosing
    simpa [Stmt.move, Expr.moveOption] using h

theorem ExpressionStatement.move {d : Nat} {ts : List Token} {s : Stmt} :
    ExpressionStatement d ts s → ExpressionStatement d (ts.map (Token.move σ)) (s.move σ)
  | @ExpressionStatement.mk _ _ _ closing value hclosing => by
    have h := @ExpressionStatement.mk _ _ _ (closing.move σ) value.move hclosing
    simpa [Stmt.move] using h

theorem Statement.move {dangling : Bool} {d : Nat} {ts : List Token} {s : Stmt} :
    Statement dangling d ts s → Statement dangling d (ts.map (Token.move σ)) (s.move σ)
  | .nest room inside => .nest room inside.move

theorem StatementForm.move {dangling : Bool} {d : Nat} {ts : List Token} {s : Stmt} :
    StatementForm dangling d ts s → StatementForm dangling d (ts.map (Token.move σ)) (s.move σ)
  | @StatementForm.forLoop _ _ keyword opening middle closing _ _ _ _ _ _ _ _ hkeyword hopening
      first second hmiddle third hclosing inside => by
    have h := @StatementForm.forLoop _ _ (keyword.move σ) (opening.move σ) (middle.move σ)
      (closing.move σ) _ _ _ _ _ _ _ _ hkeyword hopening first.move second.move hmiddle third.move
      hclosing inside.move
    simpa [Stmt.forLoop_move] using h
  | @StatementForm.branch _ _ keyword opening closing _ _ _ _ hkeyword hopening test hclosing
      first => by
    have h := @StatementForm.branch _ _ (keyword.move σ) (opening.move σ) (closing.move σ) _ _ _ _
      hkeyword hopening test.move hclosing first.move
    simpa [Stmt.move] using h
  | @StatementForm.branchElse _ _ keyword opening closing middle _ _ _ _ _ _ hkeyword hopening test
      hclosing first hmiddle second => by
    have h := @StatementForm.branchElse _ _ (keyword.move σ) (opening.move σ) (closing.move σ)
      (middle.move σ) _ _ _ _ _ _ hkeyword hopening test.move hclosing first.move hmiddle
      second.move
    simpa [Stmt.move] using h
  | @StatementForm.leave _ keyword closing _ _ hkeyword result hclosing => by
    have h := @StatementForm.leave _ (keyword.move σ) (closing.move σ) _ _ hkeyword result.move
      hclosing
    simpa [Stmt.move] using h
  | @StatementForm.loop _ _ keyword opening closing _ _ _ _ hkeyword hopening test hclosing
      inside => by
    have h := @StatementForm.loop _ _ (keyword.move σ) (opening.move σ) (closing.move σ) _ _ _ _
      hkeyword hopening test.move hclosing inside.move
    simpa [Stmt.move] using h
  | @StatementForm.breakLoop _ keyword closing hkeyword hclosing =>
    @StatementForm.breakLoop _ (keyword.move σ) (closing.move σ) hkeyword hclosing
  | @StatementForm.continueLoop _ keyword closing hkeyword hclosing =>
    @StatementForm.continueLoop _ (keyword.move σ) (closing.move σ) hkeyword hclosing
  | @StatementForm.block _ brace _ _ _ hbrace rest => by
    have h := @StatementForm.block _ (brace.move σ) _ _ _ hbrace rest.move
    simpa [Stmt.move] using h
  | .expression whole => .expression whole.move

theorem InitialClause.move {d : Nat} {ts : List Token} {initial : Option Stmt} :
    InitialClause d ts initial →
      InitialClause d (ts.map (Token.move σ)) (initial.map (Stmt.move σ))
  | @InitialClause.none _ closing hclosing => @InitialClause.none _ (closing.move σ) hclosing
  | @InitialClause.define _ keyword _ _ hkeyword rest =>
    @InitialClause.define _ (keyword.move σ) _ _ hkeyword rest.move
  | .expression whole => .expression whole.move

theorem Clause.move {d : Nat} {ts : List Token} {value : Option Expr} :
    Clause d ts value → Clause d (ts.map (Token.move σ)) (value.map (Expr.move σ))
  | .none => .none
  | .some value => .some value.move

end

/-- Declarations behind declarations are declarations. -/
theorem Declarations.append {d : Nat} {ts us : List Token} {p q : List Stmt}
    (hp : Declarations d ts p) (hq : Declarations d us q) : Declarations d (ts ++ us) (p ++ q) := by
  match hp with
  | .nil => exact hq
  | .cons first others =>
    rw [List.append_assoc, List.cons_append]
    exact .cons first (others.append hq)

end Grammar

end Scripting
