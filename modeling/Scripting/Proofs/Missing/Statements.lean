import Scripting.Proofs.Missing.Brackets
import Scripting.Proofs.Missing.Merging

/-!
# Statements without their semicolon

* `Ahead d more rest` : what stands behind a semicolon that is missing; if that is an expression
  with a semicolon, then `rest` stands behind these;
* `Parser.Mends p s ts more rest` : the parser stops with a fault at `more`, or it goes on with the
  expression there and leaves `rest`;
* `Grammar.Expression.closes`, `Grammar.Clause.closes` : an expression before a missing semicolon;
* `Mending p s before behind` : so it is whatever follows the tokens `before`, of which the
  semicolon is missing (`Grammar.Statement.mending`, `Grammar.Declaration.mending`);
* `Grammar.Declaration.ahead` : a declaration may stand behind a semicolon.

A semicolon of a statement that lies in none of its brackets is the last token, or an `else` follows
it. The statement without it is the same up to there, and then reading depends on what follows.
-/

namespace Scripting

set_option autoImplicit false

open Scripting.Parser Scripting.Grammar

variable {α β : Type}

/-! ## What stands behind a missing semicolon -/

/-- What may stand behind a semicolon: something that no expression goes on with, a function with a
name, or an expression with a semicolon, behind which `rest` stands. -/
inductive Ahead (d : Nat) : List Token → List Token → Prop
  | other {more rest : List Token} (hstarts : ∀ k ∈ nextKind? more, k.startsExpression = false)
      (hstops : Stops Kind.continuesExpression more) (hmore : nextKind? more ≠ some .semicolon) :
      Ahead d more rest
  | function {keyword name : Token} {behind rest : List Token} (hkeyword : keyword.kind = .fnWord)
      (hname : name.kind = .identifier) : Ahead d (keyword :: name :: behind) rest
  | expression {us rest : List Token} {f : Expr} {closing : Token} (value : Expression d us f)
      (hclosing : closing.kind = .semicolon) : Ahead d (us ++ closing :: rest) rest

theorem Kind.not_continues_of_starts {k : Kind} (h : k.startsExpression = true)
    (hne : k ≠ .leftParen ∧ k ≠ .minus) : k.continuesExpression = false := by
  obtain ⟨hparen, hminus⟩ := hne
  cases k <;> first | rfl | exact absurd rfl hparen | exact absurd rfl hminus | cases h

theorem Ahead.next {d : Nat} {more rest : List Token} (h : Ahead d more rest) :
    nextKind? more ≠ some .semicolon ∧ nextKind? more ≠ some .assign := by
  cases h with
  | other _ hstops hmore => exact ⟨hmore, hstops.not_assign⟩
  | function hkeyword => simp [hkeyword]
  | expression value =>
    rw [value.starts.nextKind?_append]
    obtain ⟨t, ts, rfl, ht⟩ := value.starts
    have hne (k : Kind) (hk : k.startsExpression = false) : t.kind ≠ k := Kind.ne_of_property ht hk
    simp [hne .semicolon rfl, hne .assign rfl]

/-- The tokens `left` are all of `more`, or those behind the word for functions at their front. -/
def NextOrBehindFn (more left : List Token) : Prop :=
  left = more ∨ ∃ keyword, keyword.kind = .fnWord ∧ more = keyword :: left

theorem NextOrBehindFn.subset {more left : List Token} (h : NextOrBehindFn more left) :
    left ⊆ more := by
  rcases h with rfl | ⟨keyword, -, rfl⟩
  · exact List.Subset.refl _
  · exact List.subset_cons_self _ _

/-! ## Faults at the next token -/

namespace Parser

/-- The parser stops with a fault at the first of the tokens `left`. -/
def Fails (p : Parser α) (s : Surroundings) (ts left : List Token) : Prop :=
  ∃ fault, p s ts = ⟨.error (.atToken (.parse fault) (left.headD s.ending)), left, []⟩

variable {s : Surroundings} {ts mid left more rest : List Token}

theorem fails_fail (fault : ParseFault) : (fail fault : Parser α).Fails s ts ts := ⟨fault, rfl⟩

theorem Fails.bind {p : Parser α} (h : p.Fails s ts left) (f : α → Parser β) :
    (p >>= f).Fails s ts left := by
  obtain ⟨fault, hp⟩ := h
  refine ⟨fault, ?_⟩
  rw [run_bind, hp]

theorem Reads.andThen_fails {p : Parser α} {f : α → Parser β} {a : α} (h : p.Reads s ts a mid)
    (hf : (f a).Fails s mid left) : (p >>= f).Fails s ts left := by
  unfold Fails
  rwa [h.andThen]

theorem fails_consume {kind : Kind} {fault : ParseFault} (h : nextKind? ts ≠ some kind) :
    (consume kind fault).Fails s ts ts :=
  Reads.andThen_fails ((reads_accept _ _).2 (.inr ⟨rfl, rfl, h⟩)) (fails_fail fault)

/-- The construct may lie too deep; else the parser stops at the fault in it. -/
theorem fails_nested {p : Parser α} (h : p.Fails { s with depth := s.depth + 1 } ts left) :
    (nested p s ts).TooDeep ∨ (nested p).Fails s ts left := by
  unfold Fails nested
  split
  · exact .inl ⟨_, List.mem_singleton_self _, rfl⟩
  · exact .inr h

/-! ## Parsers before a missing semicolon -/

/-- A value is read up to `more`, or up to a semicolon in it behind which `rest` stands, or the
parser stops at a fault there, or one behind the word for functions; or something is nested too
deep. -/
inductive Closes (p : Parser α) (s : Surroundings) (ts more rest : List Token) : Prop
  | deep (h : (p s ts).TooDeep)
  | stops {a : α} (h : p.Reads s ts a more)
  | passes {closing : Token} (hclosing : closing.kind = .semicolon)
      (h : p.Passes s ts (closing :: rest))
  | fails {left : List Token} (h : p.Fails s ts left)
      (hleft : NextOrBehindFn more left)

/-- The parser leaves `rest`, unless something is nested too deep, or it stops at a fault at `more`,
or at one behind the word for functions. -/
inductive Mends (p : Parser α) (s : Surroundings) (ts more rest : List Token) : Prop
  | passes (h : p.Passes s ts rest)
  | fails {left : List Token} (h : p.Fails s ts left)
      (hleft : NextOrBehindFn more left)

theorem Reads.andThen_mends {p : Parser α} {f : α → Parser β} {a : α} (h : p.Reads s ts a mid)
    (hf : (f a).Mends s mid more rest) : (p >>= f).Mends s ts more rest := by
  cases hf with
  | passes hf => exact .passes (h.andThen_passes hf)
  | fails hf hleft => exact .fails (h.andThen_fails hf) hleft

theorem Mends.bind {p : Parser α} {f : α → Parser β} (h : p.Mends s ts more mid)
    (hf : ∀ a, (f a).Passes s mid rest) : (p >>= f).Mends s ts more rest := by
  cases h with
  | passes h => exact .passes (h.bind hf)
  | fails h hleft => exact .fails (h.bind f) hleft

theorem mends_nested {p : Parser α} (h : p.Mends { s with depth := s.depth + 1 } ts more rest) :
    (nested p).Mends s ts more rest := by
  cases h with
  | passes h => exact .passes (passes_nested h)
  | fails h hleft =>
    rcases fails_nested h with hdeep | hfails
    · exact .passes (.inr hdeep)
    · exact .fails hfails hleft

theorem Mends.congr {p q : Parser α} (h : q.Mends s ts more rest) (heq : p s ts = q s ts) :
    p.Mends s ts more rest := by
  cases h with
  | passes h =>
    refine .passes ?_
    unfold Passes Reads at h ⊢
    rwa [heq]
  | fails h hleft =>
    refine .fails ?_ hleft
    unfold Fails at h ⊢
    rwa [heq]

theorem Reads.andThen_closes {p : Parser α} {f : α → Parser β} {a : α} (h : p.Reads s ts a mid)
    (hf : (f a).Closes s mid more rest) : (p >>= f).Closes s ts more rest := by
  cases hf with
  | deep hf => exact .deep (by rwa [h.andThen])
  | stops hf => exact .stops (h.bind hf)
  | passes hclosing hf => exact .passes hclosing (h.andThen_passes hf)
  | fails hf hleft => exact .fails (h.andThen_fails hf) hleft

theorem Closes.andThen_pure {p : Parser α} {f : α → β} (h : p.Closes s ts more rest) :
    (p >>= fun a => pure (f a)).Closes s ts more rest := by
  cases h with
  | deep h => exact .deep (TooDeep.bind h)
  | stops h => exact .stops (h.bind ((reads_pure _ _).2 ⟨rfl, rfl⟩))
  | passes hclosing h => exact .passes hclosing (h.bind fun a => passes_pure _)
  | fails h hleft => exact .fails (h.bind _) hleft

/-- Behind the value, the semicolon is missing, or another one is taken. -/
theorem Closes.mends {p : Parser α} (h : p.Closes s ts more rest) {fault : ParseFault}
    (f : α → Token → β) (hmore : nextKind? more ≠ some .semicolon) :
    (p >>= fun a => consume .semicolon fault >>= fun closing => pure (f a closing)).Mends s ts more
      rest := by
  cases h with
  | deep h => exact .passes (.inr (TooDeep.bind h))
  | stops h =>
    exact .fails (h.andThen_fails ((fails_consume hmore).bind _)) (.inl rfl)
  | passes hclosing h =>
    refine .passes (h.bind fun a => ?_)
    exact Reads.andThen_passes ((reads_consume _ _ _).2 ⟨hclosing, rfl⟩) (passes_pure _)
  | fails h hleft => exact .fails (h.bind _) hleft

end Parser

/-! ## Expressions -/

section

variable {inner : Rules} {s : Surroundings} {ts : List Token}

theorem fails_primary (h : (ts.headD s.ending).kind.startsPrimary = false) :
    (Production.primary inner).Fails s ts ts := by
  refine Reads.andThen_fails ((reads_peek _).2 ⟨rfl, rfl⟩) ?_
  cases hvalue : (ts.headD s.ending).value? with
  | some value =>
    rw [startsPrimary_of_value? hvalue] at h
    cases h
  | none =>
    dsimp only
    split
    · rename_i hkind
      rw [hkind] at h
      cases h
    · rename_i hkind
      rw [hkind] at h
      cases h
    · exact ⟨.expectedExpression, rfl⟩

theorem fails_unary (h : (ts.headD s.ending).kind.startsUnary = false) :
    (Production.unary inner).Fails s ts ts := by
  have hprimary : (ts.headD s.ending).kind.startsPrimary = false := by
    simp only [Kind.startsUnary, Bool.or_eq_false_iff] at h
    exact h.1.1
  refine Reads.andThen_fails ((reads_accept? _ _).2 (.inr ⟨rfl, rfl, fun k hk => ?_⟩)) ?_
  · rw [headD_kind_of_nextKind? hk] at h
    cases k <;> first | rfl | cases h
  · exact (fails_primary hprimary).bind _

theorem fails_joined (h : (ts.headD s.ending).kind.startsUnary = false) :
    (Production.joined inner).Fails s ts ts := by
  unfold Production.joined
  dsimp only
  induction Joint.levels with
  | nil => exact fails_unary h
  | cons op? levels ih => exact ih.bind _

/-- Where no expression begins, an expression is at fault, unless it would lie too deep. -/
theorem fails_expression (h : (ts.headD s.ending).kind.startsExpression = false) (n : Nat) :
    ((Rules.level n).expression s ts).TooDeep ∨ (Rules.level n).expression.Fails s ts ts := by
  cases n with
  | zero => exact .inr (fails_fail .expectedExpression)
  | succ n =>
    simp only [Kind.startsExpression, Bool.or_eq_false_iff, decide_eq_false_iff_not] at h
    refine fails_nested (Fails.bind ?_ _)
    refine Reads.andThen_fails ((reads_accept _ _).2 (.inr ⟨rfl, rfl, fun hk => h.2 ?_⟩)) ?_
    · exact headD_kind_of_nextKind? hk
    · show (Production.compound _).Fails _ _ _
      exact (fails_joined (s := ⟨s.ending, s.depth + 1⟩) h.1).bind _

/-- Where a function with a name begins, an expression is at fault at the name. -/
theorem fails_expression_function {keyword name : Token} (hkeyword : keyword.kind = .fnWord)
    (hname : name.kind = .identifier) (n : Nat) :
    ((Rules.level (n + 1)).expression s (keyword :: name :: ts)).TooDeep ∨
      (Rules.level (n + 1)).expression.Fails s (keyword :: name :: ts) (name :: ts) := by
  refine fails_nested (Fails.bind ?_ _)
  refine Reads.andThen_fails ((reads_accept _ _).2 (.inl ⟨keyword, rfl, hkeyword, rfl⟩)) ?_
  exact ((fails_consume (by simp [hname])).bind _).bind _

end

theorem exists_cons_of_nextKind? {ts : List Token} {k : Kind} (h : nextKind? ts = some k) :
    ∃ t us, ts = t :: us ∧ t.kind = k := by
  cases ts with
  | nil => cases h
  | cons t us => exact ⟨t, us, rfl, Option.some.inj h⟩

theorem nextKind?_semicolon {t : Token} {ts : List Token} (ht : t.kind = .semicolon) :
    nextKind? (t :: ts) = some .semicolon := congrArg some ht

section

variable {e : Token} (hend : e.kind = .endOfInput) {d d' n : Nat} {us more rest : List Token}
  {f : Expr}

include hend

/-- An expression before a missing semicolon ends there, or goes on with the one that follows. -/
theorem Grammar.Expression.closes (h : Expression d us f) (hmore : Ahead d' more rest)
    (hlen : (us ++ more).length < n) :
    (Rules.level n).expression.Closes ⟨e, d⟩ (us ++ more) more rest := by
  have hshort := hlen
  rw [List.length_append] at hshort
  have hstops (hs : Stops Kind.continuesExpression more) :
      (Rules.level n).expression.Closes ⟨e, d⟩ (us ++ more) more rest :=
    .stops (h.reads more (by omega) rfl hs)
  cases hmore with
  | other _ hs _ => exact hstops hs
  | function hkeyword => exact hstops (stops_cons (by rw [hkeyword]; rfl))
  | @expression vs _ g closing value hclosing =>
    by_cases hnext : nextKind? vs = some .leftParen ∨ nextKind? vs = some .minus
    · have hjoined := value.joined hnext
      rcases h.goes_on hend hjoined hnext (nextKind?_semicolon hclosing) hlen with hr | hpasses
      · exact .stops hr
      · exact .passes hclosing hpasses
    · refine hstops ?_
      obtain ⟨t, vs, rfl, ht⟩ := value.starts
      simp only [nextKind?_cons, Option.some.injEq, not_or] at hnext
      exact stops_cons (Kind.not_continues_of_starts ht hnext)

/-- An expression that stands where a value is missing. -/
theorem Ahead.closes (hmore : Ahead d more rest) (hlen : more.length < n) (d' : Nat) :
    (Rules.level n).expression.Closes ⟨e, d'⟩ more more rest := by
  cases hmore with
  | other hstarts =>
    have hkind : (more.headD e).kind.startsExpression = false := by
      cases more with
      | nil => rw [List.headD_nil, hend]; rfl
      | cons t more => exact hstarts _ rfl
    rcases fails_expression (s := ⟨e, d'⟩) hkind n with hdeep | hfails
    · exact .deep hdeep
    · exact .fails hfails (.inl rfl)
  | function hkeyword hname =>
    obtain ⟨n, rfl⟩ := Nat.exists_eq_succ_of_ne_zero (Nat.ne_zero_of_lt hlen)
    rcases fails_expression_function (s := ⟨e, d'⟩) hkeyword hname n with hdeep | hfails
    · exact .deep hdeep
    · exact .fails hfails (.inr ⟨_, hkeyword, rfl⟩)
  | @expression vs _ g closing value hclosing =>
    have hshort := hlen
    rw [List.length_append] at hshort
    have hr : (Rules.level n).expression.Reads ⟨e, d⟩ (vs ++ closing :: rest) g (closing :: rest) :=
      value.reads _ (by omega) rfl (stops_continuesExpression (.inl hclosing))
    exact .passes hclosing
      (hr.passes_at hend (rulesAgree_shallower n).expression hlen d')

/-- A value that may be missing, before a missing semicolon. -/
theorem Grammar.Clause.closes {value : Option Expr} (h : Clause d us value)
    (hmore : Ahead d' more rest)
    (hlen : (us ++ more).length < n) :
    (Production.clause (.level n) .semicolon).Closes ⟨e, d⟩ (us ++ more) more rest := by
  have hopen : ((us ++ more).headD e).kind ≠ .semicolon := by
    cases h with
    | none =>
      cases more with
      | nil => simp [hend]
      | cons t more => simpa using hmore.next.1
    | some value =>
      obtain ⟨t, us, rfl, ht⟩ := value.starts
      exact Kind.ne_of_property ht rfl
  refine Reads.andThen_closes ((reads_peek _).2 ⟨rfl, rfl⟩) ?_
  simp only [hopen, if_false]
  refine Closes.andThen_pure ?_
  cases h with
  | none => exact hmore.closes hend hlen d
  | some value => exact value.closes hend hmore hlen

end

/-! ## Statements -/

/-- Behind a semicolon of the tokens `before`, the construct ends, or an `else` is next. If the
semicolon is missing, the parser stops at what is next then, or reads up to `rest`. -/
structure Mending (p : Rules → Parser α) (s : Surroundings) (before behind : List Token) :
    Prop where
  last : behind = [] ∨ nextKind? behind = some .elseWord
  mends : ∀ {n d more rest}, (before ++ more).length ≤ n → Ahead d more rest →
    nextKind? rest ≠ some .elseWord → (p (.level n)).Mends s (before ++ more) more rest

theorem Mending.mends_level {s : Surroundings} {before behind more rest : List Token} {d n : Nat}
    (h : Mending Production.statement s before behind) (hlen : (before ++ more).length < n)
    (hmore : Ahead d more rest) (hrest : nextKind? rest ≠ some .elseWord) :
    (Rules.level n).statement.Mends s (before ++ more) more rest := by
  obtain ⟨n, rfl⟩ := Nat.exists_eq_succ_of_ne_zero (Nat.ne_zero_of_lt hlen)
  exact h.mends (Nat.le_of_lt_succ hlen) hmore hrest

section

variable {inner : Rules} {s : Surroundings} {us vs more rest : List Token} {opening closing : Token}
  {condition : Expr} (hopening : opening.kind = .leftParen)
  (hcondition : inner.expression.Reads s us condition (closing :: vs))
  (hclosing : closing.kind = .rightParen)

include hopening hcondition hclosing

/-- Behind a condition in parentheses. -/
theorem mends_test {before behind : ParseFault} {f : Token → Expr → Token → Parser α}
    (h : (f opening condition closing).Mends s vs more rest) :
    (consume .leftParen before >>= fun opening => inner.expression >>= fun condition =>
      consume .rightParen behind >>= f opening condition).Mends s (opening :: us) more rest := by
  refine Reads.andThen_mends ((reads_consume _ _ _).2 ⟨hopening, rfl⟩) ?_
  refine hcondition.andThen_mends ?_
  exact Reads.andThen_mends ((reads_consume _ _ _).2 ⟨hclosing, rfl⟩) h

/-- The first part of a branch. -/
theorem mends_ifRest (keyword : Token) (hfirst : inner.statement.Mends s vs more rest)
    (hrest : nextKind? rest ≠ some .elseWord) :
    (Production.ifRest inner keyword).Mends s (opening :: us) more rest := by
  refine mends_test hopening hcondition hclosing (hfirst.bind fun _ => ?_)
  exact Reads.andThen_passes ((reads_accept _ _).2 (.inr ⟨rfl, rfl, hrest⟩)) (passes_pure _)

/-- The second part of a branch. -/
theorem mends_ifRest_else {ws : List Token} {middle : Token} {whenTrue : Stmt} (keyword : Token)
    (hfirst : inner.statement.Reads s vs whenTrue (middle :: ws))
    (hmiddle : middle.kind = .elseWord) (hsecond : inner.statement.Mends s ws more rest) :
    (Production.ifRest inner keyword).Mends s (opening :: us) more rest := by
  refine mends_test hopening hcondition hclosing (hfirst.andThen_mends ?_)
  refine Reads.andThen_mends ((reads_accept _ _).2 (.inl ⟨middle, rfl, hmiddle, rfl⟩)) ?_
  exact hsecond.bind fun _ => passes_pure _

/-- The body of a loop with a condition. -/
theorem mends_whileRest (keyword : Token) (hbody : inner.statement.Mends s vs more rest) :
    (Production.whileRest inner keyword).Mends s (opening :: us) more rest :=
  mends_test hopening hcondition hclosing (hbody.bind fun _ => passes_pure _)

end

/-- The body of a loop with three clauses. -/
theorem mends_forRest {inner : Rules} {s : Surroundings} {us vs ws xs more rest : List Token}
    {opening middle closing : Token} {initial : Option Stmt} {condition step : Option Expr}
    (keyword : Token) (hopening : opening.kind = .leftParen)
    (hinitial : (Production.initialClause inner).Reads s us initial vs)
    (hcondition : (Production.clause inner .semicolon).Reads s vs condition (middle :: ws))
    (hmiddle : middle.kind = .semicolon)
    (hstep : (Production.clause inner .rightParen).Reads s ws step (closing :: xs))
    (hclosing : closing.kind = .rightParen) (hbody : inner.statement.Mends s xs more rest) :
    (Production.forRest inner keyword).Mends s (opening :: us) more rest := by
  refine Reads.andThen_mends ((reads_consume _ _ _).2 ⟨hopening, rfl⟩) ?_
  refine hinitial.andThen_mends (hcondition.andThen_mends ?_)
  refine Reads.andThen_mends ((reads_consume _ _ _).2 ⟨hmiddle, rfl⟩) (hstep.andThen_mends ?_)
  refine Reads.andThen_mends ((reads_consume _ _ _).2 ⟨hclosing, rfl⟩) ?_
  exact hbody.bind fun _ => passes_pure _

theorem mends_statement {inner : Rules} {s : Surroundings} {keyword : Token}
    {us more rest : List Token} {form : Rules → Token → Parser Stmt} {k : Kind}
    (hkeyword : keyword.kind = k) (hform : Production.statementRest? k = some form)
    (h : (form inner keyword).Mends { s with depth := s.depth + 1 } us more rest) :
    (Production.statement inner).Mends s (keyword :: us) more rest := by
  refine Mends.congr ?_ (Production.statement_of_rest inner s us hkeyword hform)
  exact mends_nested (Reads.andThen_mends ((reads_skip ()).2 rfl) h)

theorem mends_statement_expression {inner : Rules} {s : Surroundings} {us more rest : List Token}
    (h : StartsWith Kind.startsExpression us)
    (hst : (Production.expressionStatement inner).Mends { s with depth := s.depth + 1 } us more
      rest) : (Production.statement inner).Mends s us more rest := by
  obtain ⟨t, us, rfl, ht⟩ := h
  exact (mends_nested hst).congr
    (Production.statement_of_no_rest inner s us (Production.statementRest?_eq_none ht))

/-- What begins with other tokens than `t` begins before it. -/
theorem Grammar.StartsWith.before {p : Kind → Bool} {front behind : List Token} {t : Token}
    (h : StartsWith p (front ++ t :: behind)) (ht : p t.kind = false) : StartsWith p front := by
  obtain ⟨u, us, heq, hu⟩ := h
  cases front with
  | nil =>
    obtain ⟨rfl, -⟩ := List.cons.inj heq
    exact absurd hu (by simp [ht])
  | cons v front =>
    obtain ⟨rfl, -⟩ := List.cons.inj heq
    exact startsWith_cons hu

section

variable {e : Token} (hend : e.kind = .endOfInput)

include hend

theorem Grammar.LetRest.mending {d : Nat} {keyword semi : Token} {ts before behind : List Token}
    {st : Stmt} (h : LetRest d keyword ts st) (hts : ts = before ++ semi :: behind)
    (hsemi : semi.kind = .semicolon) (hbefore : Balanced before) :
    Mending (Production.letRest · keyword) ⟨e, d⟩ before behind := by
  have hname' {name : Token} {us : List Token} (hname : name.kind = .identifier)
      (others : Nested false us) : Nested false (name :: us) := .inner (by rw [hname]; rfl) others
  cases h with
  | bare hname hclosing =>
    obtain ⟨rfl, rfl⟩ := (hname' hname .nil).split_last hts hsemi hbefore
    refine ⟨.inl rfl, fun {n d' more rest} _ hmore _ => ?_⟩
    refine Reads.andThen_mends ((reads_consume _ _ _).2 ⟨hname, rfl⟩)
      (Closes.mends (.stops (a := none) ?_) _ hmore.next.1)
    exact Reads.bind ((reads_accept _ _).2 (.inr ⟨rfl, rfl, hmore.next.2⟩))
      ((reads_pure _ _).2 ⟨rfl, rfl⟩)
  | initial hname hmark value hclosing =>
    obtain ⟨rfl, rfl⟩ := (hname' hname (.inner (by rw [hmark]; rfl) value.nested)).split_last hts
      hsemi hbefore
    refine ⟨.inl rfl, fun {n d' more rest} hlen hmore _ => ?_⟩
    simp only [List.cons_append, List.length_cons] at hlen
    refine Reads.andThen_mends ((reads_consume _ _ _).2 ⟨hname, rfl⟩)
      (Closes.mends ?_ _ hmore.next.1)
    refine Reads.andThen_closes ((reads_accept _ _).2 (.inl ⟨_, rfl, hmark, rfl⟩)) ?_
    exact (value.closes hend hmore (by omega)).andThen_pure

theorem Grammar.ExpressionStatement.mending {d : Nat} {semi : Token}
    {ts before behind : List Token} {st : Stmt} (h : ExpressionStatement d ts st)
    (hts : ts = before ++ semi :: behind) (hsemi : semi.kind = .semicolon)
    (hbefore : Balanced before) :
    Mending Production.expressionStatement ⟨e, d⟩ before behind := by
  obtain ⟨value, hclosing⟩ := h
  obtain ⟨rfl, rfl⟩ := value.nested.split_last hts hsemi hbefore
  refine ⟨.inl rfl, fun {n d' more rest} hlen hmore _ => ?_⟩
  exact Closes.mends (value.closes (n := n + 1) hend hmore (Nat.lt_succ_of_le hlen)) _ hmore.next.1

end

/-! ### Forms -/

namespace Grammar

mutual

theorem StatementForm.mending {e : Token} (hend : e.kind = .endOfInput) {dangling : Bool}
    {d d' : Nat} {semi : Token} {ts before behind : List Token} {st : Stmt} :
    StatementForm dangling d ts st → d' + 1 = d → ts = before ++ semi :: behind →
      semi.kind = .semicolon → Balanced before →
        Mending Production.statement ⟨e, d'⟩ before behind
  | @StatementForm.forLoop _ _ _ _ middle closing _ vs ws _ _ _ _ _ hkeyword hopening first second
      hmiddle third hclosing inside, hd, hts, hsemi, hbefore => by
    have hclauses := (first.nested.append (second.nested.mono.append
      ((Nested.semicolon hmiddle).append third.nested.mono))).balanced
    obtain ⟨front, rfl, hfront, hbalanced⟩ := split_behind_parens (by simpa using hts) hsemi
      (by rw [hkeyword]; rfl) hopening hclosing hclauses hbefore
    have hinside := inside.mending hend hfront hsemi hbalanced
    subst hd
    refine ⟨hinside.last, fun {n d more rest} hlen hmore hrest => ?_⟩
    simp only [List.cons_append, List.append_assoc, List.nil_append, List.length_cons,
      List.length_append] at hlen ⊢
    have hstep := third.reads (n := n) (s := ⟨e, d' + 1⟩) .rightParen (closing :: (front ++ more))
      (by omega) rfl (.inr rfl) (congrArg some hclosing)
    have hcondition := second.reads (n := n) (s := ⟨e, d' + 1⟩) .semicolon
      (middle :: (ws ++ closing :: (front ++ more))) (by omega) rfl (.inl rfl)
      (congrArg some hmiddle)
    have hinitial := first.reads (n := n) (s := ⟨e, d' + 1⟩)
      (vs ++ middle :: (ws ++ closing :: (front ++ more))) (by omega) rfl
    refine mends_statement hkeyword rfl
      (mends_forRest _ hopening hinitial hcondition hmiddle hstep hclosing ?_)
    exact hinside.mends_level (by simp only [List.length_append]; omega) hmore hrest
  | @StatementForm.branch _ _ _ _ closing _ us _ _ hkeyword hopening test hclosing first, hd, hts,
      hsemi, hbefore => by
    obtain ⟨front, rfl, hfront, hbalanced⟩ := split_behind_parens hts hsemi
      (by rw [hkeyword]; rfl) hopening hclosing test.nested.balanced hbefore
    have hfirst := first.mending hend hfront hsemi hbalanced
    subst hd
    refine ⟨hfirst.last, fun {n d more rest} hlen hmore hrest => ?_⟩
    simp only [List.cons_append, List.append_assoc, List.nil_append, List.length_cons,
      List.length_append] at hlen ⊢
    have hcondition := test.reads (n := n) (s := ⟨e, d' + 1⟩) (closing :: (front ++ more))
      (by omega) rfl (stops_continuesExpression (.inr (.inl hclosing)))
    refine mends_statement hkeyword rfl (mends_ifRest hopening hcondition hclosing _ ?_ hrest)
    exact hfirst.mends_level (by simp only [List.length_append]; omega) hmore hrest
  | @StatementForm.branchElse _ _ _ _ closing middle _ us vs _ _ _ hkeyword hopening test hclosing
      first hmiddle second, hd, hts, hsemi, hbefore => by
    obtain ⟨front, rfl, hfront, hbalanced⟩ := split_behind_parens (by simpa using hts) hsemi
      (by rw [hkeyword]; rfl) hopening hclosing test.nested.balanced hbefore
    rcases split_append hfront with ⟨left, hleft, rfl⟩ | ⟨front, rfl, hsecond⟩
    · -- the semicolon is one of the first part
      have hfirst := first.mending hend hleft hsemi hbalanced
      subst hd
      refine ⟨.inr ?_, fun {n d more rest} hlen hmore hrest => ?_⟩
      · rcases hfirst.last with rfl | hnext
        · simp [hmiddle]
        · obtain ⟨t, left, rfl, ht⟩ := exists_cons_of_nextKind? hnext
          exact congrArg some ht
      simp only [List.cons_append, List.append_assoc, List.nil_append, List.length_cons,
        List.length_append] at hlen ⊢
      have hcondition := test.reads (n := n) (s := ⟨e, d' + 1⟩) (closing :: (front ++ more))
        (by omega) rfl (stops_continuesExpression (.inr (.inl hclosing)))
      refine mends_statement hkeyword rfl (mends_ifRest hopening hcondition hclosing _ ?_ hrest)
      exact hfirst.mends_level (by simp only [List.length_append]; omega) hmore hrest
    · have hword : middle.kind ≠ semi.kind := by rw [hmiddle, hsemi]; decide
      obtain ⟨front, rfl, hright⟩ := split_cons hsecond hword
      have hboth := first.nested.balanced.of_append hbalanced
      have hlast := second.mending hend hright hsemi (hboth.of_plain (by rw [hmiddle]; rfl))
      subst hd
      refine ⟨hlast.last, fun {n d more rest} hlen hmore hrest => ?_⟩
      simp only [List.cons_append, List.append_assoc, List.nil_append, List.length_cons,
        List.length_append] at hlen ⊢
      have hcondition := test.reads (n := n) (s := ⟨e, d' + 1⟩)
        (closing :: (us ++ middle :: (front ++ more))) (by omega) rfl
        (stops_continuesExpression (.inr (.inl hclosing)))
      have hfirst := first.reads (n := n) (s := ⟨e, d' + 1⟩) (middle :: (front ++ more))
        (by omega) rfl nofun
      refine mends_statement hkeyword rfl
        (mends_ifRest_else hopening hcondition hclosing _ hfirst hmiddle ?_)
      exact hlast.mends_level (by simp only [List.length_append]; omega) hmore hrest
  | .leave hkeyword result hclosing, hd, hts, hsemi, hbefore => by
    obtain ⟨rfl, rfl⟩ := (Nested.inner (by rw [hkeyword]; rfl) result.nested).split_last hts hsemi
      hbefore
    subst hd
    refine ⟨.inl rfl, fun {n d more rest} hlen hmore hrest => ?_⟩
    simp only [List.cons_append, List.length_cons] at hlen
    refine mends_statement hkeyword rfl (Closes.mends ?_ _ hmore.next.1)
    exact result.closes hend hmore (by omega)
  | @StatementForm.loop _ _ _ _ closing _ _ _ _ hkeyword hopening test hclosing inside, hd, hts,
      hsemi, hbefore => by
    obtain ⟨front, rfl, hfront, hbalanced⟩ := split_behind_parens hts hsemi
      (by rw [hkeyword]; rfl) hopening hclosing test.nested.balanced hbefore
    have hinside := inside.mending hend hfront hsemi hbalanced
    subst hd
    refine ⟨hinside.last, fun {n d more rest} hlen hmore hrest => ?_⟩
    simp only [List.cons_append, List.append_assoc, List.nil_append, List.length_cons,
      List.length_append] at hlen ⊢
    have hcondition := test.reads (n := n) (s := ⟨e, d' + 1⟩) (closing :: (front ++ more))
      (by omega) rfl (stops_continuesExpression (.inr (.inl hclosing)))
    refine mends_statement hkeyword rfl (mends_whileRest hopening hcondition hclosing _ ?_)
    exact hinside.mends_level (by simp only [List.length_append]; omega) hmore hrest
  | .breakLoop hkeyword hclosing, hd, hts, hsemi, hbefore
  | .continueLoop hkeyword hclosing, hd, hts, hsemi, hbefore => by
    obtain ⟨rfl, rfl⟩ := (Nested.inner (by rw [hkeyword]; rfl) .nil).split_last hts hsemi hbefore
    refine ⟨.inl rfl, fun {n d more rest} hlen hmore hrest => ?_⟩
    refine mends_statement hkeyword rfl (.fails ?_ (.inl rfl))
    exact (fails_consume hmore.next.1).bind _
  | .block hbrace inside, hd, hts, hsemi, hbefore => by
    exact absurd hbefore ((inside.nested hbrace).not_balanced hts hsemi)
  | .expression whole, hd, hts, hsemi, hbefore => by
    have hwhole := whole.mending hend hts hsemi hbefore
    have hstarts := (hts ▸ whole.starts).before (by rw [hsemi]; rfl)
    subst hd
    refine ⟨hwhole.last, fun {n d more rest} hlen hmore hrest => ?_⟩
    exact mends_statement_expression hstarts.append (hwhole.mends hlen hmore hrest)

theorem Statement.mending {e : Token} (hend : e.kind = .endOfInput) {dangling : Bool} {d : Nat}
    {semi : Token} {ts before behind : List Token} {st : Stmt} :
    Statement dangling d ts st → ts = before ++ semi :: behind → semi.kind = .semicolon →
      Balanced before → Mending Production.statement ⟨e, d⟩ before behind
  | .nest _ inside, hts, hsemi, hbefore => inside.mending hend rfl hts hsemi hbefore

end

/-! ### Declarations -/

/-- A statement that begins with the word for functions has a parenthesis next. -/
theorem Statement.second_of_fnWord {dangling : Bool} {d : Nat} {t : Token} {ts : List Token}
    {st : Stmt} (h : Statement dangling d (t :: ts) st) (ht : t.kind = .fnWord) :
    StartsWith (· = .leftParen) ts := by
  generalize hus : t :: ts = us at h
  obtain ⟨-, inside⟩ := h
  cases inside with
  | expression whole =>
    obtain ⟨value, -⟩ := whole
    obtain ⟨u, vs, rfl, -⟩ := value.starts
    obtain ⟨rfl, rfl⟩ := List.cons.inj hus
    exact (value.second_of_fnWord ht).append
  | forLoop hkeyword | branch hkeyword | branchElse hkeyword | leave hkeyword | loop hkeyword
  | breakLoop hkeyword | continueLoop hkeyword | block hkeyword =>
    obtain ⟨rfl, -⟩ := List.cons.inj hus
    rw [hkeyword] at ht
    cases ht

/-- Without its semicolon, a statement is still no function with a name and no variable. -/
theorem Statement.declarationForm_eq {dangling : Bool} {d : Nat} {semi : Token}
    {before behind more : List Token} {st : Stmt}
    (h : Statement dangling d (before ++ semi :: behind) st) (hsemi : semi.kind = .semicolon)
    (inner : Rules) (s : Surroundings) :
    Production.declarationForm inner s (before ++ more) =
      Production.statement inner s (before ++ more) := by
  obtain ⟨t, us, rfl, ht⟩ := h.starts.before (by rw [hsemi]; rfl)
  refine Production.declarationForm_of_not_let ?_ (Kind.ne_of_property ht rfl)
  rintro keyword name rest heq ⟨hkeyword, hname⟩
  obtain ⟨rfl, hrest⟩ := List.cons.inj heq
  obtain ⟨u, vs, rfl, hu⟩ := (h.second_of_fnWord hkeyword).before (by rw [hsemi]; rfl)
  obtain ⟨rfl, -⟩ := List.cons.inj hrest
  simp [hname] at hu

theorem Declaration.mending {e : Token} (hend : e.kind = .endOfInput) {d : Nat} {semi : Token}
    {before behind : List Token} {st : Stmt} (h : Declaration d (before ++ semi :: behind) st)
    (hsemi : semi.kind = .semicolon) (hbefore : Balanced before) :
    Mending Production.declarationForm ⟨e, d⟩ before behind := by
  generalize hts : before ++ semi :: behind = ts at h
  cases h with
  | function hkeyword hname part =>
    refine absurd hbefore (Nested.not_balanced ?_ hts.symm hsemi)
    exact .inner (by rw [hkeyword]; rfl) (.inner (by rw [hname]; rfl) part.nested)
  | @define _ keyword _ _ hkeyword definition =>
    have hword : keyword.kind ≠ semi.kind := by rw [hkeyword, hsemi]; decide
    obtain ⟨front, rfl, hfront⟩ := split_cons hts.symm hword
    have hrest := definition.mending hend hfront hsemi (hbefore.of_plain (by rw [hkeyword]; rfl))
    refine ⟨hrest.last, fun {n d' more rest} hlen hmore helse => ?_⟩
    refine Mends.congr ?_ (Production.declarationForm_of_not_function ?_)
    · refine Reads.andThen_mends ((reads_accept _ _).2 (.inl ⟨keyword, rfl, hkeyword, rfl⟩)) ?_
      exact hrest.mends (Nat.le_of_lt hlen) hmore helse
    · rintro t name us heq ⟨ht, -⟩
      obtain ⟨rfl, -⟩ := List.cons.inj heq
      rw [hkeyword] at ht
      cases ht
  | statement whole =>
    have hrest := whole.mending hend hts.symm hsemi hbefore
    refine ⟨hrest.last, fun {n d' more rest} hlen hmore helse => ?_⟩
    exact (hrest.mends hlen hmore helse).congr ((hts ▸ whole).declarationForm_eq hsemi _ _)

end Grammar

/-! ### What stands behind a declaration -/

theorem Ahead.of_kind {d : Nat} {t : Token} {ts rest : List Token}
    (hstarts : t.kind.startsExpression = false) (hstops : t.kind.continuesExpression = false)
    (ht : t.kind ≠ .semicolon) : Ahead d (t :: ts) rest := by
  refine .other (fun k hk => ?_) (stops_cons hstops) (by simpa using ht)
  obtain rfl := Option.some.inj hk
  exact hstarts

theorem Grammar.Declaration.ahead {d : Nat} {ts : List Token} {st : Stmt}
    (h : Declaration d ts st) (rest : List Token) : Ahead (d + 1) (ts ++ rest) rest := by
  have hword {k : Kind} (hk : k.startsExpression = false ∧ k.continuesExpression = false ∧
      k ≠ .semicolon) {t : Token} {us : List Token} (ht : t.kind = k) :
      Ahead (d + 1) (t :: us) rest := by
    subst ht
    exact .of_kind hk.1 hk.2.1 hk.2.2
  cases h with
  | function hkeyword hname => exact .function hkeyword hname
  | define hkeyword => exact hword (by decide) hkeyword
  | statement whole =>
    obtain ⟨-, inside⟩ := whole
    cases inside with
    | expression whole =>
      obtain ⟨value, hclosing⟩ := whole
      rw [List.append_assoc]
      exact .expression value hclosing
    | forLoop hkeyword | branch hkeyword | branchElse hkeyword | leave hkeyword | loop hkeyword
    | breakLoop hkeyword | continueLoop hkeyword | block hkeyword =>
      exact hword (by decide) hkeyword

end Scripting
