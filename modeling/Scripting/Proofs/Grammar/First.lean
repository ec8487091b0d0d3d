import Scripting.Proofs.Grammar.Derivation

/-!
# First tokens

* `Kind.startsPrimary`, `Kind.startsUnary`, `Kind.startsExpression`, `Kind.startsForm`,
  `Kind.startsDeclaration` : the kinds with which constructs begin;
* `StartsWith p ts` : the tokens `ts` begin with a token whose kind has the property `p`
  (`Expression.starts`, `Declaration.starts` and the like);
* `BlockRest.getLast?`, `FunctionRest.getLast?` : the last token is the brace that closes the body;
* `Operand.read_inv`, `Joined.read_inv` : what is no more than a name has no other tokens.
-/

namespace Scripting

set_option autoImplicit false

/-! ## Kinds that begin a construct -/

namespace Kind

/-- The kinds with which a primary expression begins. -/
def startsPrimary : Kind → Bool
  | identifier | int | float | string | falseWord | trueWord | nullWord | leftParen => true
  | _ => false

/-- The kinds with which an operand with operators before it begins. -/
def startsUnary (k : Kind) : Bool := k.startsPrimary || k = bang || k = minus

/-- The kinds with which an expression begins. -/
def startsExpression (k : Kind) : Bool := k.startsUnary || k = fnWord

/-- The kinds with which a statement begins. -/
def startsForm : Kind → Bool
  | forWord | ifWord | returnWord | whileWord | breakWord | continueWord | leftBrace => true
  | k => k.startsExpression

/-- The kinds with which a declaration begins. -/
def startsDeclaration (k : Kind) : Bool := k.startsForm || k = letWord

theorem startsUnary_of_startsPrimary {k : Kind} (h : k.startsPrimary = true) :
    k.startsUnary = true := by
  simp [startsUnary, h]

theorem startsExpression_of_startsUnary {k : Kind} (h : k.startsUnary = true) :
    k.startsExpression = true := by
  simp [startsExpression, h]

theorem startsForm_of_startsExpression {k : Kind} (h : k.startsExpression = true) :
    k.startsForm = true := by
  unfold startsForm
  split <;> first | rfl | exact h

theorem startsDeclaration_of_startsForm {k : Kind} (h : k.startsForm = true) :
    k.startsDeclaration = true := by
  simp [startsDeclaration, h]

/-- A kind with a property is none of the kinds without it. -/
theorem ne_of_property {p : Kind → Bool} {k k' : Kind} (h : p k = true) (h' : p k' = false) :
    k ≠ k' := by
  rintro rfl
  simp [h] at h'

end Kind

namespace Grammar

/-- The tokens begin with one whose kind has the property `p`. -/
def StartsWith (p : Kind → Bool) (ts : List Token) : Prop := ∃ t us, ts = t :: us ∧ p t.kind = true

theorem startsWith_cons {p : Kind → Bool} {t : Token} {us : List Token} (h : p t.kind = true) :
    StartsWith p (t :: us) :=
  ⟨t, us, rfl, h⟩

namespace StartsWith

variable {p q : Kind → Bool} {ts us : List Token}

theorem append (h : StartsWith p ts) : StartsWith p (ts ++ us) := by
  obtain ⟨t, vs, rfl, ht⟩ := h
  exact startsWith_cons ht

theorem mono (h : StartsWith p ts) (hpq : ∀ k, p k = true → q k = true) : StartsWith q ts := by
  obtain ⟨t, vs, rfl, ht⟩ := h
  exact startsWith_cons (hpq _ ht)

theorem length_pos (h : StartsWith p ts) : 0 < ts.length := by
  obtain ⟨t, vs, rfl, -⟩ := h
  exact Nat.succ_pos _

end StartsWith

/-! ## How constructs begin -/

theorem startsPrimary_of_value? {t : Token} {value : Literal} (h : t.value? = some value) :
    t.kind.startsPrimary = true := by
  unfold Token.value? at h
  split at h <;> simp_all [Kind.startsPrimary]

section

variable {d : Nat} {ts : List Token} {e : Expr}

theorem Primary.starts : Primary d ts e → StartsWith Kind.startsPrimary ts
  | .literal hvalue => startsWith_cons (startsPrimary_of_value? hvalue)
  | .name hname => startsWith_cons (by rw [hname]; rfl)
  | .group hopening _ _ => startsWith_cons (by rw [hopening]; rfl)

theorem Call.starts {d : Nat} {ts : List Token} {e : Expr} :
    Call d ts e → StartsWith Kind.startsPrimary ts
  | .primary whole => whole.starts
  | .call left _ _ _ => left.starts.append.append

theorem Unary.starts : Unary d ts e → StartsWith Kind.startsUnary ts
  | .operator hmark _ _ => startsWith_cons (by
      unfold UnaryOp.ofKind? at hmark
      split at hmark <;> simp_all [Kind.startsUnary])
  | .call whole => whole.starts.mono fun _ => Kind.startsUnary_of_startsPrimary

theorem Joined.starts {levels : List (Kind → Option Joint)} {d : Nat} {ts : List Token}
    {e : Expr} : Joined levels d ts e → StartsWith Kind.startsUnary ts
  | .unary whole => whole.starts
  | .tighter whole => whole.starts
  | .join left _ _ => left.starts.append

theorem Compound.starts : Compound d ts e → StartsWith Kind.startsUnary ts
  | .joined whole => whole.starts
  | .combine hname _ _ _ => startsWith_cons (by rw [hname]; rfl)

theorem Operand.starts : Operand d ts e → StartsWith Kind.startsExpression ts
  | .function hkeyword _ => startsWith_cons (by rw [hkeyword]; rfl)
  | .compound whole => whole.starts.mono fun _ => Kind.startsExpression_of_startsUnary

theorem Assignment.starts : Assignment d ts e → StartsWith Kind.startsExpression ts
  | .operand whole => whole.starts
  | .assign hname _ _ _ => startsWith_cons (by rw [hname]; rfl)

theorem Expression.starts : Expression d ts e → StartsWith Kind.startsExpression ts
  | .nest _ inside => inside.starts

theorem Values.starts {es : List Expr} : Values d ts es → StartsWith Kind.startsExpression ts
  | .one value => value.starts
  | .more value _ _ => value.starts.append

end

section

variable {dangling : Bool} {d : Nat} {ts : List Token} {s : Stmt}

theorem ExpressionStatement.starts :
    ExpressionStatement d ts s → StartsWith Kind.startsExpression ts
  | .mk value _ => value.starts.append

theorem StatementForm.starts (h : StatementForm dangling d ts s) :
    StartsWith Kind.startsForm ts := by
  cases h with
  | expression whole => exact whole.starts.mono fun _ => Kind.startsForm_of_startsExpression
  | forLoop hkeyword | branch hkeyword | branchElse hkeyword | leave hkeyword | loop hkeyword
  | breakLoop hkeyword | continueLoop hkeyword | block hkeyword =>
    exact startsWith_cons (by rw [hkeyword]; rfl)

theorem Statement.starts : Statement dangling d ts s → StartsWith Kind.startsForm ts
  | .nest _ inside => inside.starts

theorem Declaration.starts : Declaration d ts s → StartsWith Kind.startsDeclaration ts
  | .function hkeyword _ _ => startsWith_cons (by rw [hkeyword]; rfl)
  | .define hkeyword _ => startsWith_cons (by rw [hkeyword]; rfl)
  | .statement whole => whole.starts.mono fun _ => Kind.startsDeclaration_of_startsForm

end

/-! ## How constructs end -/

theorem BlockRest.getLast? {d : Nat} {ts : List Token} {body : List Stmt} {closing : Token} :
    BlockRest d ts body closing → ts.getLast? = some closing
  | .mk _ _ => List.getLast?_concat

theorem FunctionRest.getLast? {d : Nat} {ts parameters : List Token} {body : List Stmt}
    {last : Token} : FunctionRest d ts parameters body last → ts.getLast? = some last
  | .mk _ _ _ _ rest => by
    rw [List.getLast?_append, List.getLast?_cons, List.getLast?_cons, rest.getLast?]
    rfl

/-! ## Functions in the place of an expression -/

/-- What begins with the word for functions and is an expression, has a parenthesis next. -/
theorem Expression.second_of_fnWord {d : Nat} {t : Token} {ts : List Token} {e : Expr}
    (h : Expression d (t :: ts) e) (ht : t.kind = .fnWord) : StartsWith (· = .leftParen) ts := by
  obtain ⟨-, inside⟩ := h
  cases inside with
  | assign hname => simp [ht] at hname
  | operand whole =>
    cases whole with
    | function _ part =>
      obtain ⟨hopening, -, -, -, -⟩ := part
      exact startsWith_cons (by simp [hopening])
    | compound whole =>
      obtain ⟨u, us, hu, hk⟩ := whole.starts
      simp only [List.cons.injEq] at hu
      rw [← hu.1, ht] at hk
      simp [Kind.startsUnary, Kind.startsPrimary] at hk

/-! ## Bare names -/

theorem Joint.join_ne_read (joint : Joint) (mark name : Token) (l r : Expr) :
    joint.join mark l r ≠ .read name := by
  cases joint <;> simp [Joint.join]

theorem Unary.read_inv {d : Nat} {ts : List Token} {name : Token}
    (h : Unary d ts (.read name)) : ts = [name] ∧ name.kind = .identifier := by
  cases h with
  | call whole =>
    cases whole with
    | primary whole =>
      cases whole with
      | name hname => exact ⟨rfl, hname⟩

theorem Joined.read_inv {levels : List (Kind → Option Joint)} {d : Nat} {ts : List Token}
    {name : Token} (h : Joined levels d ts (.read name)) :
    ts = [name] ∧ name.kind = .identifier := by
  generalize he : Expr.read name = e at h
  induction levels with
  | nil =>
    cases h with
    | unary whole => exact (he ▸ whole).read_inv
  | cons op? levels ih =>
    cases h with
    | tighter whole => exact ih whole
    | join => exact absurd he.symm (Joint.join_ne_read _ _ _ _ _)

theorem Operand.read_inv {d : Nat} {ts : List Token} {name : Token}
    (h : Operand d ts (.read name)) : ts = [name] ∧ name.kind = .identifier := by
  cases h with
  | compound whole =>
    cases whole with
    | joined whole => exact whole.read_inv

end Grammar

end Scripting
