import Scripting.Proofs.Prediction.Expectation

/-!
# What the productions tell of the texts that were possible

* `Kind.extendingExpression` and the like : the kinds that make a construct longer;
* `texts_primary`, `texts_statement` and the like : what stands in a production, the parts put
  before the texts `V` that may stand behind it;
* `ElseSafe V` : if `else` may follow a statement, it is the one of the branch that ends there;
* `RulesExpect n r` : the rules `r` read fewer than `n` tokens as the grammar says;
* `expects_primary`, `expects_statement`, `expects_declarationForm` and the like : the productions
  around such rules read one token more as it says.

The grammar is ambiguous only in what an `else` belongs to. One token tells how to go on, except for
the word `fn`, behind which a name tells a declaration from a statement.
-/

namespace Scripting

set_option autoImplicit false

open Scripting.Parser
open scoped Computability

/-! ## What makes a construct longer -/

namespace Kind

/-- The kinds that make operands and operators longer. -/
def extendingJoined (levels : List (List Kind)) : List Kind := leftParen :: levels.flatten

/-- The kinds that make an operand of an assignment longer. -/
def extendingCompound : List Kind := extendingJoined operatorLevels ++ compoundOperators

/-- The kinds that make an expression longer. -/
def extendingExpression : List Kind := assign :: extendingCompound

end Kind

namespace Prediction

open Ebnf Production

variable {n m : Nat} {V : Language Kind} {r : Rules}

/-- If `else` may follow a statement, then a statement and such a text behind it. -/
def ElseSafe (V : Language Kind) : Prop :=
  ∀ w, .elseWord :: w ∈ V → w ∈ (part .statement).texts * V

theorem elseSafe_of_avoids (h : Avoids V (· = .elseWord)) : ElseSafe V :=
  fun w hw => absurd (h _ w hw) (by simp)

/-- The rules read fewer than `n` tokens as the grammar says, before anything that does not make the
construct longer. -/
structure RulesExpect (n : Nat) (r : Rules) : Prop where
  bound : n ≤ r.bound
  expression : ∀ {V}, Feasible V → Avoids V (· ∈ Kind.extendingExpression) →
    ExpectsAll n ((part .expression).texts * V) r.expression V
  assignment : ∀ {V}, Feasible V → Avoids V (· ∈ Kind.extendingExpression) →
    ExpectsAll n ((part .assignment).texts * V) r.assignment V
  compound : ∀ {V}, Feasible V → Avoids V (· ∈ Kind.extendingCompound) →
    ExpectsAll n ((part .compound).texts * V) r.compound V
  unary : ∀ {V}, Feasible V → Avoids V (· ∈ [.leftParen]) →
    ExpectsAll n ((part .unary).texts * V) r.unary V
  statement : ∀ {V}, Feasible V → ElseSafe V →
    ExpectsAll n ((part .statement).texts * V) r.statement V
  declaration : ∀ {V}, Feasible V → Avoids V (· = .elseWord) →
    ExpectsAll n ((part .declaration).texts * V) r.declaration V
  takes : ∀ s ts, Ready n s ts → (ts.headD s.ending).kind ≠ .endOfInput →
    (r.declaration s ts).rest.length < ts.length

/-! ## What stands in the productions -/

section

variable (V)

theorem texts_primary : (part .primary).texts * V =
    letters Kind.atoms * V +
      letters [.leftParen] * ((part .expression).texts * (letters [.rightParen] * V)) := by
  conv_lhs => rw [texts_part]
  simp [-add_eq_sup, Nonterminal.rule, add_mul, mul_assoc]

theorem texts_call : (part .call).texts * V =
    (part .primary).texts * ((letters [.leftParen] *
      ((part .expression).texts * (letters [.comma] * (part .expression).texts)∗ + 1) *
      letters [.rightParen])∗ * V) := by
  conv_lhs => rw [texts_part]
  simp [-add_eq_sup, Nonterminal.rule, mul_assoc]

theorem texts_unary : (part .unary).texts * V =
    letters Kind.unaryOperators * ((part .unary).texts * V) + (part .call).texts * V := by
  conv_lhs => rw [texts_part]
  rw [add_comm]
  simp [-add_eq_sup, Nonterminal.rule, add_mul, mul_assoc]

theorem texts_compound : (part .compound).texts * V =
    (Kind.operatorLevels.foldr separated (part .unary)).texts *
      (letters Kind.compoundOperators * ((part .compound).texts * V) + V) := by
  conv_lhs => rw [texts_part]
  simp [-add_eq_sup, Nonterminal.rule, add_mul, mul_assoc]

theorem texts_assignment : (part .assignment).texts * V =
    letters [.fnWord] * ((part .function).texts *
        (letters [.assign] * ((part .assignment).texts * V) + V)) +
      (part .compound).texts * (letters [.assign] * ((part .assignment).texts * V) + V) := by
  conv_lhs => rw [texts_part]
  rw [add_comm]
  simp [-add_eq_sup, Nonterminal.rule, add_mul, mul_assoc]

theorem texts_expression : (part .expression).texts * V = (part .assignment).texts * V := by
  rw [texts_part, Nonterminal.rule]

theorem texts_binding : (part .binding).texts * V =
    letters [.identifier] * (letters [.assign] * ((part .expression).texts *
      (letters [.semicolon] * V)) + letters [.semicolon] * V) := by
  conv_lhs => rw [texts_part]
  simp [-add_eq_sup, Nonterminal.rule, add_mul, mul_assoc]

theorem texts_block : (part .block).texts * V =
    letters [.leftBrace] * ((part .declaration).texts∗ * (letters [.rightBrace] * V)) := by
  conv_lhs => rw [texts_part]
  simp [-add_eq_sup, Nonterminal.rule, mul_assoc]

theorem texts_function : (part .function).texts * V =
    letters [.leftParen] *
      ((letters [.identifier] * (letters [.comma] * letters [.identifier])∗ + 1) *
        (letters [.rightParen] * ((part .block).texts * V))) := by
  conv_lhs => rw [texts_part]
  simp [-add_eq_sup, Nonterminal.rule, mul_assoc]

/-- What stands behind the token that begins a form of statement. -/
def formRest : Kind → Language Kind
  | .forWord => letters [.leftParen] * ((letters [.semicolon] +
      letters [.letWord] * (part .binding).texts +
      (part .expression).texts * letters [.semicolon]) *
      (((part .expression).texts + 1) * (letters [.semicolon] *
      (((part .expression).texts + 1) * (letters [.rightParen] * ((part .statement).texts * V))))))
  | .ifWord => letters [.leftParen] * ((part .expression).texts * (letters [.rightParen] *
      ((part .statement).texts * (letters [.elseWord] * ((part .statement).texts * V) + V))))
  | .whileWord => letters [.leftParen] * ((part .expression).texts * (letters [.rightParen] *
      ((part .statement).texts * V)))
  | .returnWord => ((part .expression).texts + 1) * (letters [.semicolon] * V)
  | .breakWord | .continueWord => letters [.semicolon] * V
  | .leftBrace => (part .declaration).texts∗ * (letters [.rightBrace] * V)
  | _ => 0

theorem texts_statement : (part .statement).texts * V =
    (part .expression).texts * (letters [.semicolon] * V) +
      letters [.forWord] * formRest V .forWord +
      letters [.ifWord] * formRest V .ifWord +
      letters [.whileWord] * formRest V .whileWord +
      letters [.returnWord] * formRest V .returnWord +
      letters [.breakWord] * formRest V .breakWord +
      letters [.continueWord] * formRest V .continueWord +
      letters [.leftBrace] * formRest V .leftBrace := by
  conv_lhs => rw [texts_part]
  simp [-add_eq_sup, Nonterminal.rule, formRest, add_mul, mul_assoc, texts_block]

theorem texts_declaration : (part .declaration).texts * V =
    letters [.fnWord] * (letters [.identifier] * ((part .function).texts * V)) +
      (letters [.letWord] * ((part .binding).texts * V) + (part .statement).texts * V) := by
  conv_lhs => rw [texts_part]
  rw [add_comm, add_comm (letters [.letWord] * _)]
  simp [-add_eq_sup, Nonterminal.rule, add_mul, mul_assoc]

end

theorem avoids_part (name : Nonterminal) {p : Kind → Bool}
    (hp : ∀ k, partStarts name k = true → p k = false) (W : Language Kind) :
    Avoids ((part name).texts * W) p :=
  avoids_texts_mul rfl hp

theorem avoids_expression {kind : Kind} (hk : kind.startsExpression = false) (W : Language Kind) :
    Avoids ((part .expression).texts * W) (· = kind) :=
  avoids_part .expression (fun k (hk' : k.startsExpression = true) =>
    decide_eq_false (Kind.ne_of_property hk' hk)) W

theorem cons_not_mem_expression {kind : Kind} (hk : kind.startsExpression = false) (w : List Kind)
    (W : Language Kind) : kind :: w ∉ (part .expression).texts * W :=
  fun hw => absurd rfl (of_decide_eq_false (avoids_expression hk W kind w hw))

/-- The token that begins a statement tells its form, unless it begins an expression. -/
theorem cons_mem_statement {k : Kind} (V : Language Kind) (hk : k.startsExpression = false)
    (w : List Kind) : k :: w ∈ (part .statement).texts * V ↔ w ∈ formRest V k := by
  simp only [texts_statement, Language.mem_add, cons_not_mem_expression hk, false_or,
    cons_mem_letters_mul, List.mem_singleton]
  cases k <;> simp [formRest, Language.notMem_zero]

/-- A statement that begins with the word `fn` begins with a function that has no name. -/
theorem cons_mem_statement_fn (V : Language Kind) (w : List Kind) :
    .fnWord :: w ∈ (part .statement).texts * V ↔ w ∈ (part .function).texts *
      (letters [.assign] * ((part .assignment).texts * (letters [.semicolon] * V)) +
        letters [.semicolon] * V) := by
  have hcompound (W : Language Kind) : .fnWord :: w ∉ (part .compound).texts * W := fun hw =>
    absurd rfl (of_decide_eq_false (avoids_part .compound (p := (· = .fnWord))
      (fun k hk => decide_eq_false (Kind.ne_of_property hk rfl)) W _ w hw))
  rw [texts_statement, texts_expression]
  conv_lhs => rw [texts_assignment]
  simp [-add_eq_sup, Language.mem_add, cons_mem_letters_mul, hcompound]

theorem exists_cons_mem_statement (hV : Feasible V) :
    ∃ w, .fnWord :: w ∈ (part .statement).texts * V := by
  have hfeasible : Feasible ((part .function).texts *
      (letters [.assign] * ((part .assignment).texts * (letters [.semicolon] * V)) +
        letters [.semicolon] * V)) := by simp [-add_eq_sup, hV]
  obtain ⟨w, hw⟩ := hfeasible
  exact ⟨w, (cons_mem_statement_fn V w).2 hw⟩

/-! ## Expressions -/

theorem mem_atoms_of_value? {t : Token} {value : Literal} (h : t.value? = some value) :
    t.kind ∈ Kind.atoms := by
  unfold Token.value? at h
  split at h <;> simp_all [Kind.atoms]

theorem not_mem_atoms {t : Token} (hvalued : t.Valued) (h : t.value? = none)
    (hname : t.kind ≠ .identifier) : t.kind ∉ Kind.atoms := by
  unfold Token.value? at h
  unfold Token.Valued at hvalued
  split at h <;> simp_all [Kind.atoms]

section

variable (h : RulesExpect n r)

include h

theorem expects_primary (hV : Feasible V) :
    ExpectsAll (n + 1) ((part .primary).texts * V) (primary r) V := by
  rw [texts_primary]
  refine expects_peek_bind fun t _ hvalued => ?_
  have hparen : Kind.leftParen ∉ Kind.atoms := by decide
  have hatom (hk : t.kind ∈ Kind.atoms) (w : List Kind) : t.kind :: w ∈ letters Kind.atoms * V +
      letters [.leftParen] * ((part .expression).texts * (letters [.rightParen] * V)) ↔ w ∈ V := by
    have hne : t.kind ≠ .leftParen := fun he => hparen (he ▸ hk)
    simp [-add_eq_sup, Language.mem_add, cons_mem_letters_mul, hk, hne]
  split
  · rename_i value hvalue
    have hk := mem_atoms_of_value? hvalue
    exact expects_skip_bind (fun he => by simp [he, Kind.atoms] at hk) (hatom hk)
      (expects_pure _)
  · rename_i hvalue
    split
    · rename_i hk
      exact expects_skip_bind (by simp [hk]) (hatom (by simp [hk, Kind.atoms])) (expects_pure _)
    · rename_i hk
      refine expects_skip_bind (V := (part .expression).texts * (letters [.rightParen] * V))
        (by simp [hk]) (fun w => ?_) ?_
      · simp [-add_eq_sup, Language.mem_add, cons_mem_letters_mul, hk, hparen]
      · refine (h.expression (by simp [hV]) (avoids_letters_mul (by decide))).bind fun inside => ?_
        exact expects_consume_bind (by decide) hV fun _ => expects_pure _
    · rename_i hname hopen
      have hk := not_mem_atoms hvalued hvalue hname
      refine expects_failAt (by decide) (by simp [-add_eq_sup, hV, Kind.atoms]) fun w hw => ?_
      simp only [Language.mem_add, cons_mem_letters_mul, hk, false_and, false_or,
        List.mem_singleton] at hw
      exact hopen hw.1

theorem expects_callFrom {b : Nat} (hn : m ≤ n + 1) (hb : m ≤ b) (hV : Feasible V)
    (hparen : Avoids V (· ∈ [.leftParen])) (callee : Expr) :
    ExpectsAll m ((letters [.leftParen] *
      ((part .expression).texts * (letters [.comma] * (part .expression).texts)∗ + 1) *
      letters [.rightParen])∗ * V) (callFrom r b callee) V := by
  induction b generalizing m callee with
  | zero => exact fun _ _ hts _ => absurd hts.short (by omega)
  | succ b ih =>
    have hbound : m - 1 ≤ r.bound + 1 := by have := h.bound; omega
    rw [kstar_mul, callFrom, mul_assoc, mul_assoc]
    refine expects_optional_bind (by decide) (by simpa using hparen) (fun _ => ?_) (expects_pure _)
    refine (expects_items (· ∈ Kind.extendingExpression) rfl (by decide) (by decide)
      (avoids_part _ fun k hk => decide_eq_false (Kind.ne_of_property hk rfl))
      (fun V hV hbad => (h.expression hV hbad).fewer (by omega)) hbound (by simp [hV])).bind
      fun arguments => ?_
    refine expects_consume_bind (by decide) (by simp [hV]) fun closing => ?_
    exact (ih (by omega) (by omega) _).fewer (Nat.sub_le _ _)

theorem expects_unary (hV : Feasible V) (hparen : Avoids V (· ∈ [.leftParen])) :
    ExpectsAll (n + 1) ((part .unary).texts * V) (unary r) V := by
  rw [texts_unary]
  refine expects_operator_bind (fun k => ?_) (by decide) (avoids_part _ (fun k hk => ?_) V)
    (fun x => ?_) ?_
  · cases k <;> decide
  · revert hk
    cases k <;> decide
  · exact (expects_nested (h.unary hV hparen)).bind fun _ => expects_pure _
  · rw [texts_call]
    refine ExpectsAll.next ?_
    refine (expects_primary h (by simp [hV])).bind fun callee => ?_
    exact expects_callFrom h (Nat.le_refl _) (Nat.succ_le_succ h.bound) hV hparen callee

/-- Operators of some levels, of which no two share one. -/
theorem expects_levels {kss : List (List Kind)} {levels : List (Kind → Option Joint)}
    (hlevels : List.Forall₂ (fun ks op? => ∀ k, k ∈ ks ↔ (op? k).isSome = true) kss levels)
    (hdistinct : (Kind.extendingJoined kss).Nodup) (hend : .endOfInput ∉ kss.flatten)
    (hV : Feasible V) (hbehind : Avoids V (· ∈ Kind.extendingJoined kss)) :
    ExpectsAll (n + 1) ((kss.foldr separated (part .unary)).texts * V)
      (levels.foldr (chain (r.bound + 1) · Joint.join ·) (unary r)) V := by
  induction hlevels generalizing V with
  | nil => exact expects_unary h hV hbehind
  | @cons ks op? kss levels hks _ ih =>
    obtain ⟨hparen, hnodup⟩ := List.nodup_cons.1 hdistinct
    obtain ⟨-, hinner, hdisjoint⟩ := List.nodup_append.1 hnodup
    simp only [List.flatten_cons, List.mem_append, not_or] at hparen hend
    rw [List.foldr_cons, List.foldr_cons, separated, texts_mul, texts_many, texts_mul, texts_oneOf,
      mul_assoc]
    refine expects_chain (· ∈ Kind.extendingJoined kss) hks hend.1 (fun k hk => ?_)
      (fun V hV hbad => ih (List.nodup_cons.2 ⟨hparen.2, hinner⟩) hend.2 hV hbad)
      (Nat.succ_le_succ h.bound) hV (hbehind.mono fun k hk => ?_) (hbehind.mono fun k hk => ?_)
    · simp only [Kind.extendingJoined, List.mem_cons, decide_eq_false_iff_not, not_or]
      exact ⟨fun he => hparen.1 (he ▸ hk), fun hk' => hdisjoint k hk k hk' rfl⟩
    all_goals
      simp only [Kind.extendingJoined, List.flatten_cons, List.mem_cons, List.mem_append,
        decide_eq_true_eq] at hk ⊢
      tauto

theorem expects_joined (hV : Feasible V)
    (hbehind : Avoids V (· ∈ Kind.extendingJoined Kind.operatorLevels)) :
    ExpectsAll (n + 1) ((Kind.operatorLevels.foldr separated (part .unary)).texts * V)
      (Production.joined r) V := by
  refine expects_levels h ?_ (by decide) (by decide) hV hbehind
  simp only [Kind.operatorLevels, Joint.levels, List.forall₂_cons, List.forall₂_nil_left_iff,
    and_true]
  refine ⟨?_, ?_, ?_, ?_, ?_, ?_⟩ <;> (intro k; cases k <;> decide)

theorem expects_compound (hV : Feasible V) (hbehind : Avoids V (· ∈ Kind.extendingCompound)) :
    ExpectsAll (n + 1) ((part .compound).texts * V) (compound r) V := by
  rw [texts_compound]
  refine (expects_joined h (by simp [-add_eq_sup, hV]) ?_).bind fun target => ?_
  · refine (avoids_letters_mul (by decide)).add (hbehind.mono fun k hk => ?_)
    simp only [Kind.extendingCompound, List.mem_append, decide_eq_true_eq] at hk ⊢
    exact .inl hk
  · refine expects_operator_bind (fun k => ?_) (by decide) (hbehind.mono fun k hk => ?_)
      (fun x => ?_) (expects_pure _)
    · cases k <;> decide
    · simp only [Kind.extendingCompound, List.mem_append, decide_eq_true_eq] at hk ⊢
      exact .inr hk
    · refine (expects_nested ((h.compound hV hbehind).fewer (by omega))).bind fun value => ?_
      cases target with
      | read name => exact expects_pure _
      | _ => exact (expects_reportAt rfl _).bind fun _ => expects_pure _

/-! ## Functions -/

theorem expects_blockRest (hV : Feasible V) :
    ExpectsAll n ((part .declaration).texts∗ * (letters [.rightBrace] * V)) (blockRest r) V := by
  have hbound : n ≤ r.bound + 1 := Nat.le_succ_of_le h.bound
  refine (expects_declarations (· = .elseWord) (avoids_part _ fun k hk => ?_)
    (avoids_part _ fun k hk => ?_) (fun V hV hbad => h.declaration hV hbad) h.takes hbound
    (by simp [hV]) (avoids_letters_mul (by simp)) (avoids_letters_mul (by decide))).bind
      fun body => ?_
  · revert hk
    cases k <;> decide
  · revert hk
    cases k <;> decide
  · exact expects_consume_bind (by decide) hV fun _ => (expects_pure _).fewer (Nat.sub_le _ _)

theorem expects_functionRest {beforeParameters beforeBody : ParseFault}
    (hfaults : beforeParameters.sideCondition = false ∧ beforeBody.sideCondition = false)
    (hV : Feasible V) :
    ExpectsAll n ((part .function).texts * V) (functionRest r beforeParameters beforeBody) V := by
  have hbound : n - 1 ≤ r.bound + 1 := by have := h.bound; omega
  rw [texts_function, texts_block]
  refine expects_consume_bind ⟨by decide, hfaults.1⟩ (by simp [-add_eq_sup, hV]) fun _ => ?_
  refine (expects_items (fun _ => false) rfl rfl rfl
    (fun W => avoids_letters_mul (by decide)) (fun V hV _ => expects_consume (by decide) hV)
    hbound (by simp [hV])).bind fun parameters => ?_
  refine expects_consume_bind (by decide) (by simp [hV]) fun _ => ?_
  refine expects_consume_bind ⟨by decide, hfaults.2⟩ (by simp [hV]) fun _ => ?_
  exact ((expects_blockRest h hV).fewer (by omega)).bind fun _ => expects_pure _

/-! ## Assignments -/

theorem expects_operand (hV : Feasible V) (hbehind : Avoids V (· ∈ Kind.extendingCompound)) :
    ExpectsAll (n + 1)
      (letters [.fnWord] * ((part .function).texts * V) + (part .compound).texts * V)
      (operand r) V := by
  refine expects_optional_bind (by decide) (avoids_part _ (fun k hk => ?_) V) (fun keyword => ?_)
    (expects_compound h hV hbehind).next
  · exact decide_eq_false (Kind.ne_of_property hk rfl)
  · exact (expects_functionRest h (by decide) hV).bind fun _ => expects_pure _

theorem expects_assignment (hV : Feasible V)
    (hbehind : Avoids V (· ∈ Kind.extendingExpression)) :
    ExpectsAll (n + 1) ((part .assignment).texts * V) (assignment r) V := by
  rw [texts_assignment]
  refine (expects_operand h (by simp [-add_eq_sup, hV]) ?_).bind fun target => ?_
  · refine (avoids_letters_mul (by decide)).add (hbehind.mono fun k hk => ?_)
    simp only [Kind.extendingExpression, List.mem_cons, decide_eq_true_eq] at hk ⊢
    exact .inr hk
  · refine expects_optional_bind (by decide) (hbehind.mono fun k hk => ?_) (fun mark => ?_)
      (expects_pure _)
    · simp only [Kind.extendingExpression, List.mem_cons, decide_eq_true_eq] at hk ⊢
      exact .inl hk
    · refine (expects_nested ((h.assignment hV hbehind).fewer (by omega))).bind fun value => ?_
      cases target with
      | read name => exact expects_pure _
      | _ => exact (expects_reportAt rfl _).bind fun _ => expects_pure _

theorem expects_expression (hV : Feasible V)
    (hbehind : Avoids V (· ∈ Kind.extendingExpression)) :
    ExpectsAll (n + 1) ((part .expression).texts * V) (expression r) V := by
  rw [texts_expression]
  exact expects_nested (expects_assignment h hV hbehind)

/-! ## Statements -/

theorem expects_expressionStatement (hV : Feasible V) :
    ExpectsAll (n + 1) ((part .expression).texts * (letters [.semicolon] * V))
      (expressionStatement r) V := by
  refine (expects_expression h (by simp [hV]) (avoids_letters_mul (by decide))).bind fun _ => ?_
  exact expects_consume_bind (by decide) hV fun _ => expects_pure _

theorem expects_letRest (hV : Feasible V) (keyword : Token) :
    ExpectsAll n ((part .binding).texts * V) (letRest r keyword) V := by
  rw [texts_binding]
  refine expects_consume_bind (by decide) (by simp [-add_eq_sup, hV]) fun name => ?_
  refine Expects.bind (V := letters [.semicolon] * V) ?_ fun initial =>
    expects_consume_bind (by decide) hV fun _ => expects_pure _
  refine expects_optional_bind (by decide) (avoids_letters_mul (by decide)) (fun _ => ?_)
    (expects_pure _)
  exact ((h.expression (by simp [hV]) (avoids_letters_mul (by decide))).fewer (by omega)).bind
    fun _ => expects_pure _

/-- An expression that may be missing, before a token that ends it. -/
theorem expects_clause {ending : Kind} (hending : ending ∉ Kind.extendingExpression)
    (hstarts : ending.startsExpression = false) (hV : Feasible V) :
    ExpectsAll n (((part .expression).texts + 1) * (letters [ending] * V)) (clause r ending)
      (letters [ending] * V) := by
  rw [add_mul, one_mul]
  refine expects_peek_bind fun t _ _ => ?_
  split
  · rename_i hk
    refine (expects_pure _).widen (fun w hw => (Language.mem_add _ _ _).2 (.inr hw)) ?_
    rintro _ rfl w hw
    exact ((Language.mem_add _ _ _).1 hw).resolve_left
      (cons_not_mem_expression (by rwa [hk]) _ _)
  · rename_i hk
    refine (((h.expression (by simp [hV])
      (avoids_letters_mul (by simpa using hending))).next).bind fun _ => expects_pure _).widen
        (fun w hw => (Language.mem_add _ _ _).2 (.inl hw)) ?_
    rintro _ rfl w hw
    refine ((Language.mem_add _ _ _).1 hw).resolve_right fun hw => hk ?_
    exact List.mem_singleton.1 (cons_mem_letters_mul.1 hw).1

theorem expects_initialClause (hV : Feasible V) :
    ExpectsAll n ((letters [.semicolon] + letters [.letWord] * (part .binding).texts +
      (part .expression).texts * letters [.semicolon]) * V) (initialClause r) V := by
  simp only [add_mul, mul_assoc, add_assoc]
  refine expects_optional_bind (by decide) ((avoids_letters_mul (by decide)).add
    (avoids_expression rfl _)) (fun _ => expects_pure _) (expects_optional_bind (by decide)
    (avoids_expression rfl _) (fun keyword => ?_) (ExpectsAll.next ?_))
  · exact ((expects_letRest h hV keyword).fewer (by omega)).bind fun _ => expects_pure _
  · exact ((expects_expressionStatement h hV).fewer (Nat.le_succ n)).bind fun _ => expects_pure _

theorem expects_forRest (hV : Feasible V) (helse : ElseSafe V) (keyword : Token) :
    ExpectsAll n (formRest V .forWord) (forRest r keyword) V := by
  refine expects_consume_bind (by decide) (by simp [-add_eq_sup, hV]) fun _ => ?_
  refine ((expects_initialClause h (by simp [-add_eq_sup, hV])).fewer (by omega)).bind fun _ => ?_
  refine ((expects_clause h (by decide) rfl (by simp [-add_eq_sup, hV])).fewer (by omega)).bind
    fun _ => expects_consume_bind (by decide) (by simp [-add_eq_sup, hV]) fun _ => ?_
  refine ((expects_clause h (by decide) rfl (by simp [hV])).fewer (by omega)).bind
    fun _ => expects_consume_bind (by decide) (by simp [hV]) fun _ => ?_
  exact ((h.statement hV helse).fewer (by omega)).bind fun _ => expects_pure _

theorem expects_ifRest (hV : Feasible V) (helse : ElseSafe V) (keyword : Token) :
    ExpectsAll n (formRest V .ifWord) (ifRest r keyword) V := by
  have hbehind (w : List Kind) :
      .elseWord :: w ∈ letters [.elseWord] * ((part .statement).texts * V) + V ↔
        w ∈ (part .statement).texts * V := by
    rw [Language.mem_add, cons_mem_letters_mul]
    exact ⟨fun hw => hw.elim And.right (helse w), fun hw => .inl ⟨List.mem_singleton_self _, hw⟩⟩
  -- An `else` belongs to this branch, even if it could belong to one around it.
  have hsafe : ElseSafe (letters [.elseWord] * ((part .statement).texts * V) + V) := by
    intro w hw
    obtain ⟨ks, hks, ks', hks', rfl⟩ := Language.mem_mul.1 ((hbehind w).1 hw)
    exact Language.append_mem_mul hks ((Language.mem_add _ _ _).2 (.inr hks'))
  refine expects_consume_bind (by decide) (by simp [-add_eq_sup, hV]) fun _ => ?_
  refine ((h.expression (by simp [-add_eq_sup, hV])
    (avoids_letters_mul (by decide))).fewer (by omega)).bind fun _ =>
      expects_consume_bind (by decide) (by simp [-add_eq_sup, hV]) fun _ => ?_
  refine ((h.statement (by simp [-add_eq_sup, hV]) hsafe).fewer (by omega)).bind fun _ => ?_
  refine expects_accept_bind (by decide) hbehind (fun _ => ?_) ?_
  · exact ((h.statement hV helse).fewer (by omega)).bind fun _ => expects_pure _
  · refine (expects_pure _).widen (fun w hw => (Language.mem_add _ _ _).2 (.inr hw))
      fun t ht w hw => ?_
    refine ((Language.mem_add _ _ _).1 hw).resolve_left fun hw => ht.2 ?_
    exact List.mem_singleton.1 (cons_mem_letters_mul.1 hw).1

theorem expects_whileRest (hV : Feasible V) (helse : ElseSafe V) (keyword : Token) :
    ExpectsAll n (formRest V .whileWord) (whileRest r keyword) V := by
  refine expects_consume_bind (by decide) (by simp [hV]) fun _ => ?_
  refine ((h.expression (by simp [hV]) (avoids_letters_mul (by decide))).fewer (by omega)).bind
    fun _ => expects_consume_bind (by decide) (by simp [hV]) fun _ => ?_
  exact ((h.statement hV helse).fewer (by omega)).bind fun _ => expects_pure _

theorem expects_returnRest (hV : Feasible V) (keyword : Token) :
    ExpectsAll n (formRest V .returnWord) (returnRest r keyword) V :=
  (expects_clause h (by decide) rfl hV).bind fun _ =>
    expects_consume_bind (by decide) hV fun _ => expects_pure _

theorem expects_statement (hV : Feasible V) (helse : ElseSafe V) :
    ExpectsAll (n + 1) ((part .statement).texts * V) (statement r) V := by
  refine expects_nested (expects_peek_bind fun t _ _ => ?_)
  have hform {k : Kind} {f : Unit → Parser Stmt} (hk : t.kind = k)
      (hk' : k ≠ .endOfInput ∧ k.startsExpression = false)
      (hf : ExpectsAll n (formRest V k) (f ()) V) :
      Expects (· = t) (n + 1) ((part .statement).texts * V) (skip >>= f) V :=
    expects_skip_bind (hk ▸ hk'.1) (cons_mem_statement V (hk ▸ hk'.2)) (hk ▸ hf)
  split
  all_goals try rename_i hk
  · exact hform hk (by decide) (expects_forRest h hV helse t)
  · exact hform hk (by decide) (expects_ifRest h hV helse t)
  · exact hform hk (by decide) (expects_returnRest h hV t)
  · exact hform hk (by decide) (expects_whileRest h hV helse t)
  · exact hform hk (by decide) (expects_consume_bind (by decide) hV fun _ => expects_pure _)
  · exact hform hk (by decide) (expects_consume_bind (by decide) hV fun _ => expects_pure _)
  · exact hform hk (by decide) ((expects_blockRest h hV).bind fun _ => expects_pure _)
  · rw [texts_statement]
    refine (expects_expressionStatement h hV).next.widen (fun w hw => ?_) ?_
    · simp [-add_eq_sup, Language.mem_add, hw]
    · rintro _ rfl w hw
      simp_all [-add_eq_sup, Language.mem_add, cons_mem_letters_mul]

/-! ## Declarations -/

omit h in
/-- If no name follows the word `fn`, a statement is possible, but not a function with a name. -/
theorem cons_cons_mem_declaration {k : Kind} (hk : k ≠ .identifier) (w : List Kind) :
    .fnWord :: k :: w ∈ (part .declaration).texts * V ↔
      .fnWord :: k :: w ∈ (part .statement).texts * V := by
  simp [-add_eq_sup, texts_declaration, Language.mem_add, cons_mem_letters_mul, hk]

omit h in
/-- Only a function with a name begins with the word `fn` and a name. -/
theorem cons_identifier_mem_declaration (w : List Kind) :
    .fnWord :: .identifier :: w ∈ (part .declaration).texts * V ↔
      w ∈ (part .function).texts * V := by
  have hnot (W : Language Kind) : .identifier :: w ∉ (part .function).texts * W := fun hw =>
    absurd rfl (of_decide_eq_false (avoids_part .function (p := (· = .identifier))
      (fun k (hk : decide (k = _) = true) => by simp_all) _ _ w hw))
  simp [-add_eq_sup, texts_declaration, Language.mem_add, cons_mem_letters_mul,
    cons_mem_statement_fn, hnot]

omit h in
/-- Where no name follows the word `fn`, a reading of a statement is one of a declaration. -/
theorem Foretells.of_statement {α : Type} {ending keyword : Token} {ts : List Token}
    {reading : Reading α} (hV : Feasible V) (hkeyword : keyword.kind = .fnWord)
    (hname : (ts.headD ending).kind ≠ .identifier)
    (htakes : ∀ a, reading.result = .ok a → reading.rest ≠ keyword :: ts)
    (h : Foretells ((part .statement).texts * V) V ending (keyword :: ts) reading) :
    Foretells ((part .declaration).texts * V) V ending (keyword :: ts) reading := by
  have hle {w : List Kind} (hw : w ∈ (part .statement).texts * V) :
      w ∈ (part .declaration).texts * V := by
    simp [-add_eq_sup, texts_declaration, Language.mem_add, hw]
  have hback {us vs : List Token} {w : List Kind} (hsplit : ts = us ++ vs)
      (hw : (keyword :: us).map Token.kind ++ (vs.headD ending).kind :: w ∈
        (part .declaration).texts * V) :
      (keyword :: us).map Token.kind ++ (vs.headD ending).kind :: w ∈
        (part .statement).texts * V := by
    obtain ⟨w', hw'⟩ := exists_next ending hsplit w
    rw [List.map_cons, List.cons_append, hw', hkeyword] at hw ⊢
    exact (cons_cons_mem_declaration hname w').1 hw
  cases h with
  | @leads a us trouble result split texts =>
    obtain _ | ⟨u, us⟩ := us
    · exact absurd split.symm (htakes a result)
    obtain ⟨rfl, hsplit⟩ := List.cons.inj split
    exact .leads _ trouble result split
      ⟨fun w hw => hle (texts.sound w hw), fun w hw => texts.complete w (hback hsplit hw)⟩
  | stops us vs fault trouble split texts =>
    obtain _ | ⟨u, us⟩ := us
    · obtain rfl : keyword :: ts = vs := split
      obtain ⟨w, hw⟩ := exists_cons_mem_statement hV
      exact absurd (hkeyword ▸ hw) (texts.dead w)
    obtain ⟨rfl, hsplit⟩ := List.cons.inj split
    obtain ⟨w, hw⟩ := texts.viable
    exact .stops _ vs fault trouble split
      ⟨⟨w, hle hw⟩, fun w hw => texts.dead w (hback hsplit hw)⟩
  | deep trouble cause => exact .deep trouble cause

theorem expects_declarationForm (hV : Feasible V) (helse : Avoids V (· = .elseWord))
    (htakes : ∀ s ts a, Ready (n + 1) s ts → (statement r s ts).result = .ok a →
      (statement r s ts).rest ≠ ts) :
    ExpectsAll (n + 1) ((part .declaration).texts * V) (declarationForm r) V := by
  have hstatement := expects_statement h hV (elseSafe_of_avoids helse)
  intro s ts hts _
  by_cases hstart : ∃ keyword name rest, ts = keyword :: name :: rest ∧
      keyword.kind = .fnWord ∧ name.kind = .identifier
  · obtain ⟨keyword, name, rest, rfl, hkeyword, hname⟩ := hstart
    rw [declarationForm_of_function hkeyword hname]
    refine Foretells.behind [keyword, name] (V := (part .function).texts * V) ?_
      (((expects_functionRest h (by decide) hV).bind fun part => expects_pure _) s rest
        (hts.tail.tail.fewer (by omega)) trivial) rfl rfl rfl
    simp only [List.map_cons, List.map_nil, hkeyword, hname]
    exact ⟨fun w hw => (cons_identifier_mem_declaration w).2 hw,
      fun w hw => (cons_identifier_mem_declaration _).1 hw⟩
  have hother : ∀ keyword name rest, ts = keyword :: name :: rest →
      ¬ (keyword.kind = .fnWord ∧ name.kind = .identifier) := fun keyword name rest h h' =>
    hstart ⟨keyword, name, rest, h, h'⟩
  by_cases hfn : (ts.headD s.ending).kind = .fnWord
  · obtain _ | ⟨keyword, rest⟩ := ts
    · simp [hts.ending] at hfn
    have hkeyword : keyword.kind = .fnWord := hfn
    have hname : (rest.headD s.ending).kind ≠ .identifier := by
      cases rest with
      | nil => simp [hts.ending]
      | cons name rest => exact fun hk => hother keyword name rest rfl ⟨hfn, hk⟩
    rw [declarationForm_of_not_let hother (by simp [hkeyword])]
    exact .of_statement hV hfn hname (fun a ha => htakes s _ a hts ha) (hstatement s _ hts trivial)
  · rw [declarationForm_of_not_function hother]
    have hstarts := avoids_part .statement (p := (· = .letWord)) (fun k hk =>
      decide_eq_false (Kind.ne_of_property hk rfl)) V
    refine Expects.widen (P := fun t => t.kind ≠ .fnWord)
      (B := letters [.letWord] * ((part .binding).texts * V) + (part .statement).texts * V) ?_
      (fun w hw => ?_) (fun t ht w hw => ?_) s ts hts hfn
    · exact expects_optional_bind (by decide) hstarts (expects_letRest h hV) hstatement.next
    all_goals rw [texts_declaration] at *
    · exact (Language.mem_add _ _ _).2 (.inr hw)
    · exact ((Language.mem_add _ _ _).1 hw).resolve_left fun hw =>
        ht (List.mem_singleton.1 (cons_mem_letters_mul.1 hw).1)

end

end Prediction

end Scripting
