import Scripting.Proofs.Grammar.Derivation
import Scripting.Proofs.Places.Basic

/-!
# Trees that the grammar makes

* `Part.Everywhere Q` : `Q` holds of a part and of all that lies in it, as deep as may be;
* `Expr.mark?`, `Stmt.keyword?` : the tokens at which expressions and statements report their own
  faults;
* `Token.Marks S mark` : the mark is a token with `S`, or the operator alone of one that also
  assigns;
* `Part.Tidy`, `Part.Marked S` : a part declares no name where there is no list of a scope, and it
  reports its faults at tokens with `S`;
* `Grammar.Declarations.formed` : so it is everywhere in what the grammar makes of tokens with `S`.
-/

namespace Scripting

set_option autoImplicit false

open Relation

/-! ## Where faults are reported -/

/-- The token at which an expression reports its own faults. -/
def Expr.mark? : Expr → Option Token
  | read name => some name
  | unary _ _ mark _ => some mark
  | binary _ _ mark _ _ => some mark
  | assign _ name _ => some name
  | call _ paren _ _ => some paren
  | _ => none

/-- The keyword of a statement that leaves a loop or a function. -/
def Stmt.keyword? : Stmt → Option Token
  | leave _ keyword _ => some keyword
  | breakLoop _ keyword => some keyword
  | continueLoop _ keyword => some keyword
  | _ => none

/-- The mark is a token with `S` that does not combine and assign, or it is the operator alone of
one that does. -/
def Token.Marks (S : Token → Prop) (mark : Token) : Prop :=
  S mark ∧ CompoundOp.ofKind? mark.kind = none ∨
    ∃ t op, S t ∧ CompoundOp.ofKind? t.kind = some op ∧ mark = t.standIn op.kind op.lexeme

theorem Token.Marks.of_kind {S : Token → Prop} {mark : Token} {kind : Kind} (hmark : S mark)
    (hkind : mark.kind = kind) (hnone : CompoundOp.ofKind? kind = none) : mark.Marks S :=
  .inl ⟨hmark, hkind ▸ hnone⟩

/-! ## Parts -/

namespace Part

/-- `Q` holds of the part and of all that lies in it. -/
def Everywhere (Q : Part → Prop) (part : Part) : Prop :=
  ∀ Γ σ, ReflTransGen Encloses ⟨Γ, part⟩ σ → Q σ.part

theorem everywhere_of_parts {Q : Part → Prop} {part : Part} (here : Q part)
    (h : ∀ Γ σ, Encloses ⟨Γ, part⟩ σ → σ.part.Everywhere Q) : part.Everywhere Q := by
  intro Γ σ hσ
  rcases hσ.cases_head with rfl | ⟨τ, hτ, hσ⟩
  · exact here
  · exact h Γ τ hτ τ.place σ hσ

theorem Everywhere.mono {Q Q' : Part → Prop} {part : Part} (h : part.Everywhere Q)
    (himp : ∀ p, Q p → Q' p) : part.Everywhere Q' :=
  fun Γ σ hσ => himp _ (h Γ σ hσ)

/-- The statements of a branch and the body of a loop declare no names. -/
def Tidy : Part → Prop
  | stmt (.branch _ _ whenTrue whenFalse) =>
    whenTrue.declared? = none ∧ ∀ s ∈ whenFalse, s.declared? = none
  | stmt (.loop _ _ body) => body.declared? = none
  | _ => True

/-- The part reports its own faults at tokens with `S`. -/
def Marked (S : Token → Prop) : Part → Prop
  | expr e => ∀ mark ∈ e.mark?, mark.Marks S
  | stmt s => ∀ keyword ∈ s.keyword?, S keyword ∧ CompoundOp.ofKind? keyword.kind = none
  | stmts _ => True

/-- The part is as the grammar makes it of tokens with `S`. -/
structure Formed (S : Token → Prop) (part : Part) : Prop where
  tidy : part.Tidy
  marked : part.Marked S

variable {S : Token → Prop}

theorem unmarked_expr {e : Expr} (h : e.mark? = none) : (expr e).Marked S := by
  intro mark hmark
  rw [h] at hmark
  cases hmark

theorem marked_expr {e : Expr} {mark : Token} (h : e.mark? = some mark) (hmark : mark.Marks S) :
    (expr e).Marked S := by
  intro mark' hmark'
  rw [h] at hmark'
  exact Option.some.inj hmark' ▸ hmark

theorem unmarked_stmt {s : Stmt} (h : s.keyword? = none) : (stmt s).Marked S := by
  intro keyword hkeyword
  rw [h] at hkeyword
  cases hkeyword

theorem marked_stmt {s : Stmt} {keyword : Token} (h : s.keyword? = some keyword)
    (hkeyword : S keyword) (hnone : CompoundOp.ofKind? keyword.kind = none) :
    (stmt s).Marked S := by
  intro keyword' hkeyword'
  rw [h] at hkeyword'
  exact Option.some.inj hkeyword' ▸ ⟨hkeyword, hnone⟩

/-! ## Forms of parts -/

theorem formed_nil : (stmts []).Everywhere (Formed S) :=
  everywhere_of_parts ⟨trivial, trivial⟩ nofun

theorem formed_cons {s : Stmt} {ss : List Stmt} (hs : (stmt s).Everywhere (Formed S))
    (hss : (stmts ss).Everywhere (Formed S)) : (stmts (s :: ss)).Everywhere (Formed S) := by
  refine everywhere_of_parts ⟨trivial, trivial⟩ fun Γ σ h => ?_
  cases h with
  | head => exact hs
  | tail => exact hss

theorem formed_block {span : Span} {body : List Stmt} (h : (stmts body).Everywhere (Formed S)) :
    (stmt (.block span body)).Everywhere (Formed S) := by
  refine everywhere_of_parts ⟨trivial, unmarked_stmt rfl⟩ fun Γ σ hσ => ?_
  cases hσ
  exact h

theorem formed_expression {span : Span} {value : Expr} (h : (expr value).Everywhere (Formed S)) :
    (stmt (.expression span value)).Everywhere (Formed S) := by
  refine everywhere_of_parts ⟨trivial, unmarked_stmt rfl⟩ fun Γ σ hσ => ?_
  cases hσ
  exact h

theorem formed_loop {span : Span} {condition : Expr} {body : Stmt}
    (hc : (expr condition).Everywhere (Formed S)) (hbody : (stmt body).Everywhere (Formed S))
    (hnone : body.declared? = none) :
    (stmt (.loop span condition body)).Everywhere (Formed S) := by
  refine everywhere_of_parts ⟨hnone, unmarked_stmt rfl⟩ fun Γ σ h => ?_
  cases h with
  | condition => exact hc
  | turn => exact hbody

theorem formed_branch {span : Span} {condition : Expr} {whenTrue : Stmt} {whenFalse : Option Stmt}
    (hc : (expr condition).Everywhere (Formed S)) (htrue : (stmt whenTrue).Everywhere (Formed S))
    (htrue' : whenTrue.declared? = none)
    (hfalse : ∀ s ∈ whenFalse, (stmt s).Everywhere (Formed S))
    (hfalse' : ∀ s ∈ whenFalse, s.declared? = none) :
    (stmt (.branch span condition whenTrue whenFalse)).Everywhere (Formed S) := by
  refine everywhere_of_parts ⟨⟨htrue', hfalse'⟩, unmarked_stmt rfl⟩ fun Γ σ h => ?_
  cases h with
  | test => exact hc
  | whenTrue => exact htrue
  | whenFalse => exact hfalse _ rfl

theorem formed_literal {span : Span} {value : Literal} :
    (expr (.literal span value)).Everywhere (Formed S) :=
  everywhere_of_parts ⟨trivial, unmarked_expr rfl⟩ nofun

theorem formed_read {name : Token} (h : name.Marks S) :
    (expr (.read name)).Everywhere (Formed S) :=
  everywhere_of_parts ⟨trivial, marked_expr rfl h⟩ nofun

theorem formed_assign {span : Span} {name : Token} {value : Expr} (hname : name.Marks S)
    (hvalue : (expr value).Everywhere (Formed S)) :
    (expr (.assign span name value)).Everywhere (Formed S) := by
  refine everywhere_of_parts ⟨trivial, marked_expr rfl hname⟩ fun Γ σ h => ?_
  cases h
  exact hvalue

theorem formed_binary {span : Span} {op : BinaryOp} {mark : Token} {left right : Expr}
    (hmark : mark.Marks S) (hleft : (expr left).Everywhere (Formed S))
    (hright : (expr right).Everywhere (Formed S)) :
    (expr (.binary span op mark left right)).Everywhere (Formed S) := by
  refine everywhere_of_parts ⟨trivial, marked_expr rfl hmark⟩ fun Γ σ h => ?_
  cases h with
  | left => exact hleft
  | right => exact hright

/-- The blocks of a loop with three clauses declare what the first clause does, and no more. -/
theorem formed_forLoop {span : Span} {keyword : Token} {initial : Option Stmt}
    {condition step : Option Expr} {body : Stmt}
    (hinitial : ∀ s ∈ initial, (stmt s).Everywhere (Formed S))
    (hcondition : ∀ e ∈ condition, (expr e).Everywhere (Formed S))
    (hstep : ∀ e ∈ step, (expr e).Everywhere (Formed S))
    (hbody : (stmt body).Everywhere (Formed S)) (hnone : body.declared? = none) :
    (stmt (.forLoop span keyword initial condition step body)).Everywhere (Formed S) := by
  have hturning : (expr (condition.getD (.literal keyword.span (.bool true)))).Everywhere
      (Formed S) := by
    cases condition with
    | none => exact formed_literal
    | some condition => exact hcondition _ rfl
  have hloop : (stmt (.forLoop span keyword none condition step body)).Everywhere (Formed S) := by
    cases step with
    | none => exact formed_loop hturning hbody hnone
    | some step =>
      have hlast : (stmt (.expression step.span step)).Everywhere (Formed S) :=
        formed_expression (hstep step rfl)
      exact formed_loop hturning
        (formed_block (formed_cons hbody (formed_cons hlast formed_nil))) rfl
  cases initial with
  | none => exact hloop
  | some initial =>
    exact formed_block (formed_cons (hinitial _ rfl) (formed_cons hloop formed_nil))

end Part

/-! ## What the grammar derives -/

namespace Grammar

open Scripting.Part

/-- A statement that is no declaration declares no name. -/
theorem Statement.declared?_eq_none {dangling : Bool} {d : Nat} {ts : List Token} {s : Stmt}
    (h : Statement dangling d ts s) : s.declared? = none := by
  obtain ⟨-, form⟩ := h
  cases form with
  | @forLoop _ _ _ _ _ _ _ _ _ _ initial => cases initial <;> rfl
  | expression whole =>
    cases whole
    rfl
  | branch | branchElse | leave | loop | breakLoop | continueLoop | block => rfl

/-- The levels are of operators that do not assign. -/
def Combining (levels : List (Kind → Option Joint)) : Prop :=
  ∀ op? ∈ levels, ∀ kind joint, op? kind = some joint → CompoundOp.ofKind? kind = none

theorem combining_levels : Combining Joint.levels := by
  unfold Combining Joint.levels
  simp only [List.forall_mem_cons]
  refine ⟨?_, ?_, ?_, ?_, ?_, ?_, List.forall_mem_nil _⟩ <;> intro kind joint h <;> cases kind <;>
    first | rfl | cases h

theorem CompoundOp.ofKind?_of_unary {kind : Kind} {op : UnaryOp}
    (h : UnaryOp.ofKind? kind = some op) : CompoundOp.ofKind? kind = none := by
  cases kind <;> first | rfl | cases h

variable {S : Token → Prop}

mutual

theorem Expression.formed {d : Nat} {ts : List Token} {e : Expr} :
    Expression d ts e → (∀ t ∈ ts, S t) → (expr e).Everywhere (Formed S)
  | .nest _ inside, hS => inside.formed hS

theorem Assignment.formed {d : Nat} {ts : List Token} {e : Expr} :
    Assignment d ts e → (∀ t ∈ ts, S t) → (expr e).Everywhere (Formed S)
  | .operand whole, hS => whole.formed hS
  | .assign hname _ _ right, hS => by
    rw [List.forall_mem_cons, List.forall_mem_cons] at hS
    exact formed_assign (.of_kind hS.1 hname rfl) (right.formed hS.2.2)

theorem Operand.formed {d : Nat} {ts : List Token} {e : Expr} :
    Operand d ts e → (∀ t ∈ ts, S t) → (expr e).Everywhere (Formed S)
  | .function _ part, hS => by
    have hbody := part.formed (List.forall_mem_cons.1 hS).2
    refine everywhere_of_parts ⟨trivial, unmarked_expr rfl⟩ fun Γ σ h => ?_
    cases h
    exact hbody
  | .compound whole, hS => whole.formed hS

theorem Compound.formed {d : Nat} {ts : List Token} {e : Expr} :
    Compound d ts e → (∀ t ∈ ts, S t) → (expr e).Everywhere (Formed S)
  | .joined whole, hS => whole.formed combining_levels hS
  | .combine hname hmark _ right, hS => by
    rw [List.forall_mem_cons, List.forall_mem_cons] at hS
    have hname' := Token.Marks.of_kind hS.1 hname rfl
    exact formed_assign hname' (formed_binary (.inr ⟨_, _, hS.2.1, hmark, rfl⟩)
      (formed_read hname') (right.formed hS.2.2))

theorem Joined.formed {levels : List (Kind → Option Joint)} {d : Nat} {ts : List Token} {e : Expr} :
    Joined levels d ts e → Combining levels → (∀ t ∈ ts, S t) → (expr e).Everywhere (Formed S)
  | .unary whole, _, hS => whole.formed hS
  | .tighter whole, hlevels, hS => whole.formed (List.forall_mem_cons.1 hlevels).2 hS
  | @Joined.join _ _ _ _ _ _ joint _ _ left hmark right, hlevels, hS => by
    rw [List.forall_mem_append, List.forall_mem_cons] at hS
    have hleft := left.formed hlevels hS.1
    have hright := right.formed (List.forall_mem_cons.1 hlevels).2 hS.2.2
    cases joint with
    | binary op =>
      have hnone := hlevels _ List.mem_cons_self _ _ hmark
      exact formed_binary (.inl ⟨hS.2.1, hnone⟩) hleft hright
    | logical op =>
      refine everywhere_of_parts ⟨trivial, unmarked_expr rfl⟩ fun Γ σ h => ?_
      cases h with
      | first => exact hleft
      | second => exact hright

theorem Unary.formed {d : Nat} {ts : List Token} {e : Expr} :
    Unary d ts e → (∀ t ∈ ts, S t) → (expr e).Everywhere (Formed S)
  | .operator hmark _ operand, hS => by
    rw [List.forall_mem_cons] at hS
    have hoperand := operand.formed hS.2
    have hmark' := Token.Marks.of_kind hS.1 rfl (CompoundOp.ofKind?_of_unary hmark)
    refine everywhere_of_parts ⟨trivial, marked_expr rfl hmark'⟩ fun Γ σ h => ?_
    cases h
    exact hoperand
  | .call whole, hS => whole.formed hS

theorem Call.formed {d : Nat} {ts : List Token} {e : Expr} :
    Call d ts e → (∀ t ∈ ts, S t) → (expr e).Everywhere (Formed S)
  | .primary whole, hS => whole.formed hS
  | .call left _ right hclosing, hS => by
    rw [List.forall_mem_append, List.forall_mem_append, List.forall_mem_cons,
      List.forall_mem_singleton] at hS
    have hcallee := left.formed hS.1.1
    have harguments := right.formed hS.1.2.2
    have hparen := Token.Marks.of_kind hS.2 hclosing rfl
    refine everywhere_of_parts ⟨trivial, marked_expr rfl hparen⟩ fun Γ σ h => ?_
    cases h with
    | callee => exact hcallee
    | argument he => exact harguments _ he

theorem Arguments.formed {d : Nat} {ts : List Token} {arguments : List Expr} :
    Arguments d ts arguments → (∀ t ∈ ts, S t) →
      ∀ e ∈ arguments, (expr e).Everywhere (Formed S)
  | .none, _ => List.forall_mem_nil _
  | .some values _, hS => values.formed hS

theorem Values.formed {d : Nat} {ts : List Token} {es : List Expr} :
    Values d ts es → (∀ t ∈ ts, S t) → ∀ e ∈ es, (expr e).Everywhere (Formed S)
  | .one value, hS => by
    rw [List.forall_mem_singleton]
    exact value.formed hS
  | .more value _ rest, hS => by
    rw [List.forall_mem_append, List.forall_mem_cons] at hS
    rw [List.forall_mem_cons]
    exact ⟨value.formed hS.1, rest.formed hS.2.2⟩

theorem Primary.formed {d : Nat} {ts : List Token} {e : Expr} :
    Primary d ts e → (∀ t ∈ ts, S t) → (expr e).Everywhere (Formed S)
  | .literal _, _ => formed_literal
  | .name hname, hS => formed_read (.of_kind (List.forall_mem_singleton.1 hS) hname rfl)
  | .group _ inside _, hS => by
    rw [List.forall_mem_append, List.forall_mem_cons] at hS
    have hinner := inside.formed hS.1.2
    refine everywhere_of_parts ⟨trivial, unmarked_expr rfl⟩ fun Γ σ h => ?_
    cases h
    exact hinner

theorem FunctionRest.formed {d : Nat} {ts parameters : List Token} {body : List Stmt}
    {last : Token} : FunctionRest d ts parameters body last → (∀ t ∈ ts, S t) →
      (stmts body).Everywhere (Formed S)
  | .mk _ _ _ _ rest, hS => by
    simp only [List.forall_mem_append, List.forall_mem_cons] at hS
    exact rest.formed hS.2.2.2

theorem BlockRest.formed {d : Nat} {ts : List Token} {body : List Stmt} {closing : Token} :
    BlockRest d ts body closing → (∀ t ∈ ts, S t) → (stmts body).Everywhere (Formed S)
  | .mk inside _, hS => inside.formed (List.forall_mem_append.1 hS).1

theorem Declarations.formed {d : Nat} {ts : List Token} {ss : List Stmt} :
    Declarations d ts ss → (∀ t ∈ ts, S t) → (stmts ss).Everywhere (Formed S)
  | .nil, _ => formed_nil
  | .cons first others, hS => by
    rw [List.forall_mem_append] at hS
    exact formed_cons (first.formed hS.1) (others.formed hS.2)

theorem Declaration.formed {d : Nat} {ts : List Token} {s : Stmt} :
    Declaration d ts s → (∀ t ∈ ts, S t) → (stmt s).Everywhere (Formed S)
  | .function _ _ part, hS => by
    rw [List.forall_mem_cons, List.forall_mem_cons] at hS
    have hbody := part.formed hS.2.2
    refine everywhere_of_parts ⟨trivial, unmarked_stmt rfl⟩ fun Γ σ h => ?_
    cases h
    exact hbody
  | .define _ rest, hS => rest.formed (List.forall_mem_cons.1 hS).2
  | .statement whole, hS => whole.formed hS

theorem LetRest.formed {d : Nat} {keyword : Token} {ts : List Token} {s : Stmt} :
    LetRest d keyword ts s → (∀ t ∈ ts, S t) → (stmt s).Everywhere (Formed S)
  | .bare _ _, _ => everywhere_of_parts ⟨trivial, unmarked_stmt rfl⟩ nofun
  | .initial _ _ value _, hS => by
    rw [List.forall_mem_append, List.forall_mem_cons, List.forall_mem_cons] at hS
    have hvalue := value.formed hS.1.2.2
    refine everywhere_of_parts ⟨trivial, unmarked_stmt rfl⟩ fun Γ σ h => ?_
    cases h
    exact hvalue

theorem ExpressionStatement.formed {d : Nat} {ts : List Token} {s : Stmt} :
    ExpressionStatement d ts s → (∀ t ∈ ts, S t) → (stmt s).Everywhere (Formed S)
  | .mk value _, hS => formed_expression (value.formed (List.forall_mem_append.1 hS).1)

theorem Statement.formed {dangling : Bool} {d : Nat} {ts : List Token} {s : Stmt} :
    Statement dangling d ts s → (∀ t ∈ ts, S t) → (stmt s).Everywhere (Formed S)
  | .nest _ inside, hS => inside.formed hS

theorem StatementForm.formed {dangling : Bool} {d : Nat} {ts : List Token} {s : Stmt} :
    StatementForm dangling d ts s → (∀ t ∈ ts, S t) → (stmt s).Everywhere (Formed S)
  | .forLoop _ _ first second _ third _ inside, hS => by
    simp only [List.forall_mem_append, List.forall_mem_cons] at hS
    obtain ⟨⟨⟨⟨-, -, hfirst⟩, hsecond⟩, -, hthird⟩, -, hinside⟩ := hS
    exact formed_forLoop (first.formed hfirst) (second.formed hsecond) (third.formed hthird)
      (inside.formed hinside) inside.declared?_eq_none
  | .branch _ _ test _ first, hS => by
    simp only [List.forall_mem_append, List.forall_mem_cons] at hS
    obtain ⟨⟨-, -, htest⟩, -, hfirst⟩ := hS
    exact formed_branch (test.formed htest) (first.formed hfirst) first.declared?_eq_none
      (by simp) (by simp)
  | .branchElse _ _ test _ first _ second, hS => by
    simp only [List.forall_mem_append, List.forall_mem_cons] at hS
    obtain ⟨⟨⟨-, -, htest⟩, -, hfirst⟩, -, hsecond⟩ := hS
    have hsecond' := second.formed hsecond
    refine formed_branch (test.formed htest) (first.formed hfirst) first.declared?_eq_none ?_ ?_
    · rintro _ ⟨⟩
      exact hsecond'
    · rintro _ ⟨⟩
      exact second.declared?_eq_none
  | .leave hkeyword result _, hS => by
    rw [List.forall_mem_append, List.forall_mem_cons] at hS
    have hresult := result.formed hS.1.2
    refine everywhere_of_parts ⟨trivial, marked_stmt rfl hS.1.1 (hkeyword ▸ rfl)⟩ fun Γ σ h => ?_
    cases h
    exact hresult _ rfl
  | .loop _ _ test _ inside, hS => by
    simp only [List.forall_mem_append, List.forall_mem_cons] at hS
    obtain ⟨⟨-, -, htest⟩, -, hinside⟩ := hS
    exact formed_loop (test.formed htest) (inside.formed hinside) inside.declared?_eq_none
  | .breakLoop hkeyword _, hS =>
    have hmarked := marked_stmt rfl (hS _ List.mem_cons_self) (hkeyword ▸ rfl)
    everywhere_of_parts ⟨trivial, hmarked⟩ nofun
  | .continueLoop hkeyword _, hS =>
    have hmarked := marked_stmt rfl (hS _ List.mem_cons_self) (hkeyword ▸ rfl)
    everywhere_of_parts ⟨trivial, hmarked⟩ nofun
  | .block _ rest, hS => formed_block (rest.formed (List.forall_mem_cons.1 hS).2)
  | .expression whole, hS => whole.formed hS

theorem InitialClause.formed {d : Nat} {ts : List Token} {initial : Option Stmt} :
    InitialClause d ts initial → (∀ t ∈ ts, S t) →
      ∀ s ∈ initial, (stmt s).Everywhere (Formed S)
  | .none _, _ => by simp
  | .define _ rest, hS => by
    have hs := rest.formed (List.forall_mem_cons.1 hS).2
    rintro _ ⟨⟩
    exact hs
  | .expression whole, hS => by
    have hs := whole.formed hS
    rintro _ ⟨⟩
    exact hs

theorem Clause.formed {d : Nat} {ts : List Token} {value : Option Expr} :
    Clause d ts value → (∀ t ∈ ts, S t) → ∀ e ∈ value, (expr e).Everywhere (Formed S)
  | .none, _ => by simp
  | .some value, hS => by
    have hvalue := value.formed hS
    rintro _ ⟨⟩
    exact hvalue

end

end Grammar

end Scripting
