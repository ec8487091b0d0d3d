import Scripting.Proofs.Grammar.First
import Scripting.Proofs.Grammar.Reading

/-!
# What is derived is read

* `Stops p rest` : the next token is of no kind with the property `p`;
* `Kind.continuesJoined`, `Kind.continuesCompound`, `Kind.continuesExpression` : the kinds that
  would make a construct longer if they came behind it;
* `Expression.reads`, `Statement.reads`, `Declarations.reads` and the like : the tokens of a
  construct are read as this construct, up to what follows, if that would not make it longer.

The proof is by the derivation, for all levels above the number of tokens. Left recursion is read by
a loop, so what is shown of a chain is that reading it from the start comes down to going on with
the loop behind it (`ChainReads`, `Call.reads`).
-/

namespace Scripting

set_option autoImplicit false

open Scripting.Parser Scripting.Grammar

/-! ## What follows a construct -/

namespace Kind

/-- The kinds that make operands and operators of the levels longer. -/
def continuesJoined (levels : List (Kind → Option Joint)) (k : Kind) : Bool :=
  k = leftParen || levels.any fun op? => (op? k).isSome

/-- The kinds that make an operand of an assignment longer. -/
def continuesCompound (k : Kind) : Bool :=
  k.continuesJoined Joint.levels || (CompoundOp.ofKind? k).isSome

/-- The kinds that make an expression longer. -/
def continuesExpression (k : Kind) : Bool := k.continuesCompound || k = assign

end Kind

/-- The next token is of no kind with the property `p`. -/
def Stops (p : Kind → Bool) (rest : List Token) : Prop := ∀ k ∈ nextKind? rest, p k = false

theorem stops_cons {p : Kind → Bool} {t : Token} {ts : List Token} (h : p t.kind = false) :
    Stops p (t :: ts) := by
  intro k hk
  obtain rfl := Option.some.inj hk
  exact h

namespace Stops

variable {op? : Kind → Option Joint} {levels : List (Kind → Option Joint)} {rest : List Token}

theorem mono {p q : Kind → Bool} (h : Stops p rest) (hpq : ∀ k, p k = false → q k = false) :
    Stops q rest :=
  fun k hk => hpq k (h k hk)

theorem tighter (h : Stops (Kind.continuesJoined (op? :: levels)) rest) :
    Stops (Kind.continuesJoined levels) rest :=
  h.mono fun k hk => by
    simp only [Kind.continuesJoined, List.any_cons, Bool.or_eq_false_iff] at hk ⊢
    exact ⟨hk.1, hk.2.2⟩

theorem not_operator (h : Stops (Kind.continuesJoined (op? :: levels)) rest) :
    ∀ k ∈ nextKind? rest, op? k = none := by
  intro k hk
  have := h k hk
  simp only [Kind.continuesJoined, List.any_cons, Bool.or_eq_false_iff] at this
  simpa using this.2.1

theorem not_leftParen (h : Stops (Kind.continuesJoined levels) rest) :
    nextKind? rest ≠ some .leftParen := by
  intro hk
  simpa [Kind.continuesJoined] using h _ hk

theorem joined (h : Stops Kind.continuesCompound rest) :
    Stops (Kind.continuesJoined Joint.levels) rest :=
  h.mono fun k hk => by
    simp only [Kind.continuesCompound, Bool.or_eq_false_iff] at hk
    exact hk.1

theorem not_compoundOp (h : Stops Kind.continuesCompound rest) :
    ∀ k ∈ nextKind? rest, CompoundOp.ofKind? k = none := by
  intro k hk
  have := h k hk
  simp only [Kind.continuesCompound, Bool.or_eq_false_iff] at this
  simpa using this.2

theorem compound (h : Stops Kind.continuesExpression rest) : Stops Kind.continuesCompound rest :=
  h.mono fun k hk => by
    simp only [Kind.continuesExpression, Bool.or_eq_false_iff] at hk
    exact hk.1

theorem not_assign (h : Stops Kind.continuesExpression rest) :
    nextKind? rest ≠ some .assign := by
  intro hk
  have := h _ hk
  simp [Kind.continuesExpression] at this

end Stops

theorem stops_of_nextKind? {p : Kind → Bool} {rest : List Token} {k : Kind}
    (hrest : nextKind? rest = some k) (h : p k = false) : Stops p rest := by
  intro k' hk
  rw [hrest] at hk
  obtain rfl := Option.some.inj hk
  exact h

/-- A semicolon, a closing parenthesis or a comma ends an expression. -/
theorem stops_continuesExpression {t : Token} {ts : List Token}
    (h : t.kind = .semicolon ∨ t.kind = .rightParen ∨ t.kind = .comma) :
    Stops Kind.continuesExpression (t :: ts) :=
  stops_cons (by rcases h with h | h | h <;> rw [h] <;> rfl)

/-! ## Levels of operators -/

/-- No kind is an operator of two of the levels, and a parenthesis is none. -/
structure SeparateLevels (levels : List (Kind → Option Joint)) : Prop where
  pairwise : levels.Pairwise fun op? tighter? => ∀ k, (op? k).isSome → tighter? k = none
  leftParen : ∀ op? ∈ levels, op? .leftParen = none

theorem SeparateLevels.tail {op? : Kind → Option Joint} {levels : List (Kind → Option Joint)}
    (h : SeparateLevels (op? :: levels)) : SeparateLevels levels :=
  ⟨(List.pairwise_cons.1 h.pairwise).2, fun _ hm => h.leftParen _ (List.mem_cons_of_mem _ hm)⟩

theorem separateLevels : SeparateLevels Joint.levels where
  pairwise := by
    simp only [Joint.levels, List.pairwise_cons, List.mem_cons, List.not_mem_nil, or_false,
      false_implies, implies_true, List.Pairwise.nil, and_true, forall_eq_or_imp, forall_eq]
    refine ⟨⟨?_, ?_, ?_, ?_, ?_⟩, ⟨?_, ?_, ?_, ?_⟩, ⟨?_, ?_, ?_⟩, ⟨?_, ?_⟩, ?_⟩ <;>
      (intro k hk; cases k <;> first | rfl | exact absurd hk nofun)
  leftParen := by simp [Joint.levels, Joint.or?, Joint.and?, Joint.equality?, Joint.comparison?,
    Joint.term?, Joint.factor?]

/-- An operator of a level ends an operand of the tighter ones. -/
theorem stops_operator {levels : List (Kind → Option Joint)} {op? : Kind → Option Joint}
    (hlevels : SeparateLevels (op? :: levels)) {t : Token} {ts : List Token} {joint : Joint}
    (h : op? t.kind = some joint) : Stops (Kind.continuesJoined levels) (t :: ts) := by
  refine stops_cons ?_
  simp only [Kind.continuesJoined, Bool.or_eq_false_iff, decide_eq_false_iff_not,
    List.any_eq_false]
  constructor
  · intro hk
    rw [hk, hlevels.leftParen _ List.mem_cons_self] at h
    cases h
  · intro tighter? hm
    rw [(List.pairwise_cons.1 hlevels.pairwise).1 _ hm _ (by rw [h]; rfl)]
    simp

/-! ## Repetitions -/

theorem headD_kind_of_nextKind? {s : Surroundings} {ts : List Token} {k : Kind}
    (h : nextKind? ts = some k) : (ts.headD s.ending).kind = k := by
  cases ts with
  | nil => simp at h
  | cons t ts => exact Option.some.inj h

section

variable {s : Surroundings} {rest : List Token}

/-- A chain ends where no operator is next. -/
theorem reads_chainFrom_stop {op? : Kind → Option Joint} {operand : Parser Expr} {bound : Nat}
    {left : Expr} (h : ∀ k ∈ nextKind? rest, op? k = none) :
    (chainFrom op? Joint.join operand bound left).Reads s rest left rest := by
  cases bound with
  | zero => exact (reads_pure _ _).2 ⟨rfl, rfl⟩
  | succ bound => exact (reads_chainFrom_succ _ _ _ _ _ _).2 (.inr ⟨h, rfl, rfl⟩)

/-- The parser of operands and operators of the levels. -/
def joinedWith (inner : Rules) (levels : List (Kind → Option Joint)) : Parser Expr :=
  levels.foldr (fun op? operand => chain (inner.bound + 1) op? Joint.join operand)
    (Production.unary inner)

/-- What reads as an operand of prefix operators reads as one of any level. -/
theorem reads_joinedWith_of_unary {inner : Rules} {ts : List Token} {e : Expr} :
    ∀ {levels : List (Kind → Option Joint)}, (Production.unary inner).Reads s ts e rest →
      Stops (Kind.continuesJoined levels) rest → (joinedWith inner levels).Reads s ts e rest
  | [], h, _ => h
  | _ :: _, h, stops =>
    (reads_joinedWith_of_unary h stops.tighter).bind (reads_chainFrom_stop stops.not_operator)

/-- The loop behind a callee ends where no parenthesis is next. -/
theorem reads_callFrom_stop {inner : Rules} {bound : Nat} {callee : Expr}
    (h : nextKind? rest ≠ some .leftParen) :
    (Production.callFrom inner bound callee).Reads s rest callee rest := by
  cases bound with
  | zero => exact (reads_pure _ _).2 ⟨rfl, rfl⟩
  | succ bound =>
    rw [Production.callFrom]
    exact Reads.bind ((reads_accept _ _).2 (.inr ⟨rfl, rfl, h⟩)) ((reads_pure _ _).2 ⟨rfl, rfl⟩)

/-- A call is read by one turn of the loop behind the callee. -/
theorem reads_callFrom_succ {inner : Rules} {bound : Nat} {callee a : Expr}
    {opening closing : Token} {us vs : List Token} {arguments : List Expr}
    (hopening : opening.kind = .leftParen)
    (harguments : (items (inner.bound + 1) inner.expression .tooManyArguments).Reads s us arguments
      (closing :: vs)) (hclosing : closing.kind = .rightParen)
    (hr : (Production.callFrom inner bound
      (.call (callee.span.through closing.span) closing callee arguments)).Reads s vs a rest) :
    (Production.callFrom inner (bound + 1) callee).Reads s (opening :: us) a rest := by
  rw [Production.callFrom]
  refine Reads.bind ((reads_accept _ _).2 (.inl ⟨opening, rfl, hopening, rfl⟩)) ?_
  simp only [reads_bind, reads_consume]
  exact ⟨arguments, _, harguments, closing, vs, ⟨hclosing, rfl⟩, hr⟩

/-! ## Names -/

section

variable {inner : Rules} {name : Token} {ts : List Token} (hname : name.kind = .identifier)

include hname

theorem reads_primary_name : (Production.primary inner).Reads s (name :: ts) (.read name) ts := by
  simp only [Production.primary, reads_bind, reads_peek]
  refine ⟨name, name :: ts, ⟨rfl, rfl⟩, ?_⟩
  simp only [Token.value?, hname]
  exact Reads.bind ((reads_skip ()).2 rfl) ((reads_pure _ _).2 ⟨rfl, rfl⟩)

theorem reads_unary_name (stops : nextKind? ts ≠ some .leftParen) :
    (Production.unary inner).Reads s (name :: ts) (.read name) ts := by
  refine Reads.bind ((reads_accept? _ _).2 (.inr ⟨rfl, rfl, ?_⟩)) ?_
  · simp [hname, UnaryOp.ofKind?]
  · exact (reads_primary_name hname).bind (reads_callFrom_stop stops)

theorem reads_joined_name (stops : Stops (Kind.continuesJoined Joint.levels) ts) :
    (Production.joined inner).Reads s (name :: ts) (.read name) ts :=
  reads_joinedWith_of_unary (reads_unary_name hname stops.not_leftParen) stops

theorem reads_operand_name (stops : Stops Kind.continuesCompound ts) :
    (Production.operand inner).Reads s (name :: ts) (.read name) ts := by
  refine Reads.bind ((reads_accept _ _).2 (.inr ⟨rfl, rfl, by simp [hname]⟩)) ?_
  refine (reads_joined_name hname stops.joined).bind ?_
  exact Reads.bind ((reads_accept? _ _).2 (.inr ⟨rfl, rfl, stops.not_compoundOp⟩))
    ((reads_pure _ _).2 ⟨rfl, rfl⟩)

end

/-- Names are read as items, if there are not too many. -/
theorem Grammar.Names.reads {ts names : List Token} (h : Names ts names) :
    ∀ {bound count : Nat}, names.length ≤ bound → count + names.length ≤ maxItems →
      nextKind? rest ≠ some .comma →
      (itemsFrom (consume .identifier .expectedParameterName) .tooManyParameters bound count).Reads
        s (ts ++ rest) names rest := by
  induction h with
  | one hname =>
    intro bound count hbound hfew stops
    obtain ⟨bound, rfl⟩ := Nat.exists_eq_succ_of_ne_zero (Nat.ne_of_gt hbound)
    refine (reads_itemsFrom_succ _ _ _ _ _).2 ⟨hfew, _, rest, ?_, .inr ⟨stops, rfl, rfl⟩⟩
    exact (reads_consume _ _ _).2 ⟨hname, rfl⟩
  | more hname hcomma _ ih =>
    intro bound count hbound hfew stops
    simp only [List.length_cons] at hbound hfew
    obtain ⟨bound, rfl⟩ := Nat.exists_eq_succ_of_ne_zero (by omega : bound ≠ 0)
    refine (reads_itemsFrom_succ _ _ _ _ _).2 ⟨by omega, _, _, ?_,
      .inl ⟨_, _, _, hcomma, rfl, ih (by omega) (by omega) stops, rfl⟩⟩
    exact (reads_consume _ _ _).2 ⟨hname, rfl⟩

theorem Grammar.Names.length_le {ts names : List Token} (h : Names ts names) :
    names.length ≤ ts.length := by
  induction h with
  | one => simp
  | more => simp only [List.length_cons]; omega

/-- Names begin with one. -/
theorem Grammar.Names.starts {ts names : List Token} (h : Names ts names) :
    StartsWith (· = .identifier) ts := by
  cases h with
  | one hname => exact startsWith_cons (by simp [hname])
  | more hname => exact startsWith_cons (by simp [hname])

theorem Grammar.Parameters.reads {bound : Nat} {ts names : List Token} (h : Parameters ts names)
    (hbound : ts.length ≤ bound) (hrest : nextKind? rest = Option.some .rightParen) :
    (items bound (consume .identifier .expectedParameterName) .tooManyParameters).Reads s
      (ts ++ rest) names rest := by
  rw [reads_items]
  cases h with
  | none =>
    rw [List.nil_append, if_pos (headD_kind_of_nextKind? hrest)]
    exact ⟨rfl, rfl⟩
  | some hnames hfew =>
    obtain ⟨t, us, rfl, ht⟩ := hnames.starts
    rw [if_neg (by simp only [decide_eq_true_eq] at ht; simp [ht])]
    exact hnames.reads (Nat.le_trans hnames.length_le hbound) (by omega) (by simp [hrest])

end

theorem Rules.bound_level (n : Nat) : (level n).bound = n := by
  induction n with
  | zero => rfl
  | succ n ih => rw [level_succ, next, ih]

/-! ## Productions -/

namespace Production

section

variable {inner : Rules} {s : Surroundings} {us vs ws xs rest : List Token}

theorem reads_blockRest {body : List Stmt} {closing : Token}
    (rbody : (declarations inner.declaration true (inner.bound + 1)).Reads s us body
      (closing :: rest)) (hclosing : closing.kind = .rightBrace) :
    (blockRest inner).Reads s us (body, closing) rest := by
  simp only [blockRest, reads_bind, reads_consume, reads_pure]
  exact ⟨body, _, rbody, closing, rest, ⟨hclosing, rfl⟩, rfl, rfl⟩

theorem reads_functionRest {beforeParameters beforeBody : ParseFault}
    {opening closing brace last : Token} {names : List Token} {body : List Stmt}
    (hopening : opening.kind = .leftParen)
    (rnames : (items (inner.bound + 1) (consume .identifier .expectedParameterName)
      .tooManyParameters).Reads s us names (closing :: brace :: vs))
    (hclosing : closing.kind = .rightParen) (hbrace : brace.kind = .leftBrace)
    (rbody : (blockRest inner).Reads s vs (body, last) rest) :
    (functionRest inner beforeParameters beforeBody).Reads s (opening :: us) ⟨names, body, last⟩
      rest := by
  simp only [functionRest, reads_bind, reads_consume, reads_pure]
  exact ⟨opening, us, ⟨hopening, rfl⟩, names, _, rnames, closing, _, ⟨hclosing, rfl⟩, brace, vs,
    ⟨hbrace, rfl⟩, (body, last), rest, rbody, rfl, rfl⟩

theorem reads_expressionStatement {e : Expr} {closing : Token}
    (re : (expression inner).Reads s us e (closing :: rest))
    (hclosing : closing.kind = .semicolon) :
    (expressionStatement inner).Reads s us (.expression (e.span.through closing.span) e) rest := by
  simp only [expressionStatement, reads_bind, reads_consume, reads_pure]
  exact ⟨e, _, re, closing, rest, ⟨hclosing, rfl⟩, rfl, rfl⟩

theorem reads_letRest {keyword : Token} {name mark closing : Token} {e : Expr}
    (hname : name.kind = .identifier)
    (hmark : mark.kind = .assign) (re : inner.expression.Reads s us e (closing :: rest))
    (hclosing : closing.kind = .semicolon) :
    (letRest inner keyword).Reads s (name :: mark :: us)
      (.define (keyword.span.through closing.span) name (some e)) rest := by
  simp only [letRest, reads_bind, reads_consume, reads_pure]
  refine ⟨name, _, ⟨hname, rfl⟩, some e, closing :: rest, ?_, closing, rest, ⟨hclosing, rfl⟩, rfl,
    rfl⟩
  refine ⟨some mark, us, (reads_accept _ _).2 (.inl ⟨mark, rfl, hmark, rfl⟩), ?_⟩
  exact re.bind ((reads_pure _ _).2 ⟨rfl, rfl⟩)

theorem reads_letRest_bare {keyword : Token} {name closing : Token}
    (hname : name.kind = .identifier)
    (hclosing : closing.kind = .semicolon) :
    (letRest inner keyword).Reads s (name :: closing :: rest)
      (.define (keyword.span.through closing.span) name none) rest := by
  simp only [letRest, reads_bind, reads_consume, reads_pure]
  refine ⟨name, _, ⟨hname, rfl⟩, none, closing :: rest, ?_, closing, rest, ⟨hclosing, rfl⟩, rfl,
    rfl⟩
  exact ⟨none, _, (reads_accept _ _).2 (.inr ⟨rfl, rfl, by simp [hclosing]⟩),
    (reads_pure _ _).2 ⟨rfl, rfl⟩⟩

theorem reads_clause_none {ending : Kind} (h : nextKind? rest = some ending) :
    (clause inner ending).Reads s rest none rest := by
  simp only [clause, reads_bind, reads_peek]
  refine ⟨_, _, ⟨rfl, rfl⟩, ?_⟩
  rw [if_pos (headD_kind_of_nextKind? h)]
  exact (reads_pure _ _).2 ⟨rfl, rfl⟩

theorem reads_clause_some {ending : Kind} {e : Expr} (h : StartsWith (· ≠ ending) us)
    (re : inner.expression.Reads s us e rest) :
    (clause inner ending).Reads s us (some e) rest := by
  obtain ⟨t, us, rfl, ht⟩ := h
  simp only [clause, reads_bind, reads_peek]
  refine ⟨_, _, ⟨rfl, rfl⟩, ?_⟩
  rw [if_neg (by simpa using ht)]
  exact re.bind ((reads_pure _ _).2 ⟨rfl, rfl⟩)

theorem reads_forRest (keyword : Token) {opening middle closing : Token} {initial : Option Stmt}
    {condition step : Option Expr} {body : Stmt} (hopening : opening.kind = .leftParen)
    (rinitial : (initialClause inner).Reads s us initial vs)
    (rcondition : (clause inner .semicolon).Reads s vs condition (middle :: ws))
    (hmiddle : middle.kind = .semicolon)
    (rstep : (clause inner .rightParen).Reads s ws step (closing :: xs))
    (hclosing : closing.kind = .rightParen) (rbody : inner.statement.Reads s xs body rest) :
    (forRest inner keyword).Reads s (opening :: us)
      (.forLoop (keyword.span.through body.span) keyword initial condition step body) rest := by
  simp only [forRest, reads_bind, reads_consume, reads_pure]
  exact ⟨opening, us, ⟨hopening, rfl⟩, initial, vs, rinitial, condition, _, rcondition, middle, ws,
    ⟨hmiddle, rfl⟩, step, _, rstep, closing, xs, ⟨hclosing, rfl⟩, body, rest, rbody, rfl, rfl⟩

theorem reads_ifRest (keyword : Token) {opening closing : Token} {condition : Expr}
    {whenTrue : Stmt}
    (hopening : opening.kind = .leftParen)
    (rcondition : inner.expression.Reads s us condition (closing :: vs))
    (hclosing : closing.kind = .rightParen) (rtrue : inner.statement.Reads s vs whenTrue rest)
    (hrest : nextKind? rest ≠ some .elseWord) :
    (ifRest inner keyword).Reads s (opening :: us)
      (.branch (keyword.span.through whenTrue.span) condition whenTrue none) rest := by
  simp only [ifRest, reads_bind, reads_consume]
  exact ⟨opening, us, ⟨hopening, rfl⟩, condition, _, rcondition, closing, vs, ⟨hclosing, rfl⟩,
    whenTrue, rest, rtrue, none, rest, (reads_accept _ _).2 (.inr ⟨rfl, rfl, hrest⟩),
    (reads_pure _ _).2 ⟨rfl, rfl⟩⟩

theorem reads_ifRest_else (keyword : Token) {opening closing middle : Token} {condition : Expr}
    {whenTrue whenFalse : Stmt} (hopening : opening.kind = .leftParen)
    (rcondition : inner.expression.Reads s us condition (closing :: vs))
    (hclosing : closing.kind = .rightParen)
    (rtrue : inner.statement.Reads s vs whenTrue (middle :: ws)) (hmiddle : middle.kind = .elseWord)
    (rfalse : inner.statement.Reads s ws whenFalse rest) :
    (ifRest inner keyword).Reads s (opening :: us)
      (.branch (keyword.span.through whenFalse.span) condition whenTrue (some whenFalse)) rest := by
  simp only [ifRest, reads_bind, reads_consume]
  exact ⟨opening, us, ⟨hopening, rfl⟩, condition, _, rcondition, closing, vs, ⟨hclosing, rfl⟩,
    whenTrue, _, rtrue, some middle, ws, (reads_accept _ _).2 (.inl ⟨middle, rfl, hmiddle, rfl⟩),
    rfalse.bind ((reads_pure _ _).2 ⟨rfl, rfl⟩)⟩

theorem reads_whileRest (keyword : Token) {opening closing : Token} {condition : Expr} {body : Stmt}
    (hopening : opening.kind = .leftParen)
    (rcondition : inner.expression.Reads s us condition (closing :: vs))
    (hclosing : closing.kind = .rightParen) (rbody : inner.statement.Reads s vs body rest) :
    (whileRest inner keyword).Reads s (opening :: us)
      (.loop (keyword.span.through body.span) condition body) rest := by
  simp only [whileRest, reads_bind, reads_consume, reads_pure]
  exact ⟨opening, us, ⟨hopening, rfl⟩, condition, _, rcondition, closing, vs, ⟨hclosing, rfl⟩, body,
    rest, rbody, rfl, rfl⟩

theorem reads_returnRest (keyword : Token) {closing : Token} {value : Option Expr}
    (rvalue : (clause inner .semicolon).Reads s us value (closing :: rest))
    (hclosing : closing.kind = .semicolon) :
    (returnRest inner keyword).Reads s us (.leave (keyword.span.through closing.span) keyword value)
      rest := by
  simp only [returnRest, reads_bind, reads_consume, reads_pure]
  exact ⟨value, _, rvalue, closing, rest, ⟨hclosing, rfl⟩, rfl, rfl⟩

theorem reads_initialClause_none {closing : Token} (hclosing : closing.kind = .semicolon) :
    (initialClause inner).Reads s (closing :: rest) none rest :=
  Reads.bind ((reads_accept _ _).2 (.inl ⟨closing, rfl, hclosing, rfl⟩))
    ((reads_pure _ _).2 ⟨rfl, rfl⟩)

theorem reads_initialClause_define {keyword : Token} {st : Stmt}
    (hkeyword : keyword.kind = .letWord)
    (rst : (letRest inner keyword).Reads s us st rest) :
    (initialClause inner).Reads s (keyword :: us) (some st) rest := by
  refine Reads.bind ((reads_accept _ _).2 (.inr ⟨rfl, rfl, by simp [hkeyword]⟩)) ?_
  refine Reads.bind ((reads_accept _ _).2 (.inl ⟨keyword, rfl, hkeyword, rfl⟩)) ?_
  exact rst.bind ((reads_pure _ _).2 ⟨rfl, rfl⟩)

theorem reads_initialClause_expression {st : Stmt} (h : StartsWith Kind.startsExpression us)
    (rst : (expressionStatement inner).Reads s us st rest) :
    (initialClause inner).Reads s us (some st) rest := by
  obtain ⟨t, us, rfl, ht⟩ := h
  have hsemi : t.kind ≠ .semicolon := Kind.ne_of_property ht rfl
  have hlet : t.kind ≠ .letWord := Kind.ne_of_property ht rfl
  refine Reads.bind ((reads_accept _ _).2 (.inr ⟨rfl, rfl, by simpa using hsemi⟩)) ?_
  refine Reads.bind ((reads_accept _ _).2 (.inr ⟨rfl, rfl, by simpa using hlet⟩)) ?_
  exact rst.bind ((reads_pure _ _).2 ⟨rfl, rfl⟩)

/-- Where there is room, a statement is read if its rest is read behind the first token. -/
theorem reads_statement {form : Rules → Token → Parser Stmt} {t : Token} {k : Kind} {st : Stmt}
    (room : s.depth < maxNesting) (hk : t.kind = k) (hform : statementRest? k = some form)
    (rst : (form inner t).Reads { s with depth := s.depth + 1 } us st rest) :
    (statement inner).Reads s (t :: us) st rest := by
  unfold Reads
  rw [statement_of_rest inner s us hk hform]
  exact (reads_nested _ _).2 ⟨room, Reads.bind ((reads_skip ()).2 rfl) rst⟩

theorem statementRest?_eq_none {k : Kind} (h : k.startsExpression = true) :
    statementRest? k = none := by
  revert h
  cases k <;> first | exact fun _ => rfl | exact nofun

/-- What begins like an expression is read as a statement made of one. -/
theorem reads_statement_expression {st : Stmt} (room : s.depth < maxNesting)
    (h : StartsWith Kind.startsExpression us)
    (rst : (expressionStatement inner).Reads { s with depth := s.depth + 1 } us st rest) :
    (statement inner).Reads s us st rest := by
  obtain ⟨t, us, rfl, ht⟩ := h
  unfold Reads
  rw [statement_of_no_rest inner s us (statementRest?_eq_none ht)]
  exact (reads_nested _ _).2 ⟨room, rst⟩

/-- What begins like a statement is read as a declaration that is one, unless a function begins. -/
theorem reads_declaration_statement {st : Stmt} (h : StartsWith Kind.startsForm us)
    (hfn : ∀ t ts, us = t :: ts → t.kind = .fnWord → nextKind? ts ≠ some .identifier)
    (rst : (statement inner).Reads s us st rest) :
    (declaration inner).Reads s us (some st) rest := by
  obtain ⟨t, us, rfl, ht⟩ := h
  have hlet : t.kind ≠ .letWord := Kind.ne_of_property ht rfl
  refine (reads_recovering _ _).2 ⟨st, rfl, ?_⟩
  refine Reads.bind ((reads_functionStart? _).2 (.inr ⟨rfl, rfl, ?_⟩)) ?_
  · rintro ⟨keyword, name, vs, hts, hkeyword, hname⟩
    obtain ⟨rfl, rfl⟩ := List.cons.inj hts
    exact hfn _ _ rfl hkeyword (by simp [hname])
  · exact Reads.bind ((reads_accept _ _).2 (.inr ⟨rfl, rfl, by simpa using hlet⟩)) rst

end

end Production

/-! ## Derivations -/

/-- Operands and operators of the levels are read by level `n` of the rules. Where there are
operators to come, reading them comes down to going on behind them. -/
def ChainReads (n : Nat) (s : Surroundings) (ts : List Token) (e : Expr) :
    List (Kind → Option Joint) → Prop
  | [] => ∀ {rest}, nextKind? rest ≠ some .leftParen →
    (Production.unary (.level n)).Reads s (ts ++ rest) e rest
  | op? :: levels => ∃ k ≤ ts.length, ∀ bound rest a last,
    Stops (Kind.continuesJoined levels) rest →
    (chainFrom op? Joint.join (joinedWith (.level n) levels) bound e).Reads s rest a last →
    (chain (bound + k) op? Joint.join (joinedWith (.level n) levels)).Reads s (ts ++ rest) a last

theorem ChainReads.reads {n : Nat} {s : Surroundings} {ts rest : List Token} {e : Expr}
    {levels : List (Kind → Option Joint)} (h : ChainReads n s ts e levels) (hlen : ts.length ≤ n)
    (stops : Stops (Kind.continuesJoined levels) rest) :
    (joinedWith (.level n) levels).Reads s (ts ++ rest) e rest := by
  cases levels with
  | nil => exact h stops.not_leftParen
  | cons op? levels =>
    obtain ⟨k, hk, h⟩ := h
    have hr := h (n + 1 - k) _ _ _ stops.tighter (reads_chainFrom_stop stops.not_operator)
    rw [Nat.sub_add_cancel (by omega)] at hr
    simpa only [joinedWith, List.foldr_cons, Rules.bound_level] using hr

namespace Grammar

/-- Behind declarations, no `else` is next before the end, or before the end of the block. -/
theorem Declarations.next_ne_elseWord {d : Nat} {inBlock : Bool} {s : Surroundings}
    {ts rest : List Token} {body : List Stmt} (h : Declarations d ts body)
    (hrest : (rest.headD s.ending).kind = .endOfInput ∨
      (inBlock ∧ (rest.headD s.ending).kind = .rightBrace)) :
    nextKind? (ts ++ rest) ≠ some .elseWord := by
  cases h with
  | nil =>
    cases rest with
    | nil => simp
    | cons t rest =>
      simp only [List.headD_cons] at hrest
      rcases hrest with h | ⟨-, h⟩ <;> simp [h]
  | cons first =>
    obtain ⟨t, us, hus, ht⟩ := first.starts.append.append
    have helse : t.kind ≠ .elseWord := Kind.ne_of_property ht rfl
    rw [hus]
    simpa using helse

/-- Where an expression begins with the word for functions, no name is next. -/
theorem ExpressionStatement.next_of_fnWord {d : Nat} {ts rest : List Token} {st : Stmt}
    (h : ExpressionStatement d ts st) :
    ∀ t us, ts ++ rest = t :: us → t.kind = .fnWord → nextKind? us ≠ some .identifier := by
  intro t us hts ht
  obtain ⟨value, hclosing⟩ := h
  obtain ⟨t', vs, rfl, -⟩ := value.starts
  obtain ⟨rfl, rfl⟩ := List.cons.inj hts
  obtain ⟨u, ws, rfl, hu⟩ := value.second_of_fnWord ht
  have hparen : u.kind = .leftParen := by simpa using hu
  simp [hparen]

/-- Where a statement begins with the word for functions, no name is next. -/
theorem Statement.next_of_fnWord {dangling : Bool} {d : Nat} {ts rest : List Token} {st : Stmt}
    (h : Statement dangling d ts st) :
    ∀ t us, ts ++ rest = t :: us → t.kind = .fnWord → nextKind? us ≠ some .identifier := by
  intro t us hts ht
  obtain ⟨-, inside⟩ := h
  cases inside with
  | expression whole => exact whole.next_of_fnWord t us hts ht
  | forLoop hkeyword | branch hkeyword | branchElse hkeyword | leave hkeyword | loop hkeyword
  | breakLoop hkeyword | continueLoop hkeyword | block hkeyword =>
    obtain ⟨rfl, -⟩ := List.cons.inj hts
    rw [hkeyword] at ht
    cases ht

mutual

theorem Expression.reads {d n : Nat} {s : Surroundings} {ts : List Token} (rest : List Token)
    {e : Expr} :
    Expression d ts e → ts.length < n → s.depth = d → Stops Kind.continuesExpression rest →
      (Rules.level n).expression.Reads s (ts ++ rest) e rest
  | .nest room inside, hlen, hdepth, stops => by
    obtain ⟨n, rfl⟩ := Nat.exists_eq_succ_of_ne_zero (Nat.ne_zero_of_lt hlen)
    exact (reads_nested _ _).2 ⟨hdepth ▸ room,
      inside.reads_level (Nat.le_of_lt_succ hlen) (congrArg (· + 1) hdepth) stops⟩

theorem Assignment.reads_level {d n : Nat} {s : Surroundings} {ts rest : List Token} {e : Expr} :
    Assignment d ts e → ts.length ≤ n → s.depth = d → Stops Kind.continuesExpression rest →
      (Production.assignment (.level n)).Reads s (ts ++ rest) e rest
  | .operand whole, hlen, hdepth, stops =>
    (whole.reads hlen hdepth stops.compound).bind <|
      Reads.bind ((reads_accept _ _).2 (.inr ⟨rfl, rfl, stops.not_assign⟩))
        ((reads_pure _ _).2 ⟨rfl, rfl⟩)
  | @Assignment.assign _ _ mark _ _ hname hmark room right, hlen, hdepth, stops => by
    obtain ⟨n, rfl⟩ := Nat.exists_eq_succ_of_ne_zero (Nat.ne_zero_of_lt hlen)
    simp only [List.length_cons] at hlen
    refine (reads_operand_name hname (stops_cons (by rw [hmark]; rfl))).bind ?_
    refine Reads.bind ((reads_accept _ _).2 (.inl ⟨mark, rfl, hmark, rfl⟩)) ?_
    refine Reads.bind ((reads_nested _ _).2 ⟨hdepth ▸ room, right.reads_level (by omega)
      (congrArg (· + 1) hdepth) stops⟩) ?_
    exact (reads_pure _ _).2 ⟨rfl, rfl⟩

theorem Operand.reads {d n : Nat} {s : Surroundings} {ts rest : List Token} {e : Expr} :
    Operand d ts e → ts.length ≤ n → s.depth = d → Stops Kind.continuesCompound rest →
      (Production.operand (.level n)).Reads s (ts ++ rest) e rest
  | @Operand.function _ keyword _ _ _ _ hkeyword part, hlen, hdepth, _ =>
    Reads.bind ((reads_accept _ _).2 (.inl ⟨keyword, rfl, hkeyword, rfl⟩)) <|
      (part.reads (Nat.le_of_lt hlen) hdepth).bind ((reads_pure _ _).2 ⟨rfl, rfl⟩)
  | .compound whole, hlen, hdepth, stops => by
    have hwhole := whole.reads_level hlen hdepth stops
    obtain ⟨t, us, rfl, ht⟩ := whole.starts
    have hfn : t.kind ≠ .fnWord := Kind.ne_of_property ht rfl
    exact Reads.bind ((reads_accept _ _).2 (.inr ⟨rfl, rfl, by simpa using hfn⟩)) hwhole

theorem Compound.reads_level {d n : Nat} {s : Surroundings} {ts rest : List Token} {e : Expr} :
    Compound d ts e → ts.length ≤ n → s.depth = d → Stops Kind.continuesCompound rest →
      (Production.compound (.level n)).Reads s (ts ++ rest) e rest
  | .joined whole, hlen, hdepth, stops =>
    ((whole.reads separateLevels hlen hdepth).reads hlen stops.joined).bind <|
      Reads.bind ((reads_accept? _ _).2 (.inr ⟨rfl, rfl, stops.not_compoundOp⟩))
        ((reads_pure _ _).2 ⟨rfl, rfl⟩)
  | @Compound.combine _ _ mark op _ _ hname hmark room right, hlen, hdepth, stops => by
    obtain ⟨n, rfl⟩ := Nat.exists_eq_succ_of_ne_zero (Nat.ne_zero_of_lt hlen)
    simp only [List.length_cons] at hlen
    refine (reads_joined_name hname (stops_cons ?_)).bind ?_
    · revert hmark
      cases mark.kind <;> first | exact fun _ => rfl | exact fun h => absurd h nofun
    refine Reads.bind ((reads_accept? _ _).2 (.inl ⟨op, mark, rfl, hmark, rfl⟩)) ?_
    refine Reads.bind ((reads_nested _ _).2 ⟨hdepth ▸ room, right.reads_level (by omega)
      (congrArg (· + 1) hdepth) stops⟩) ?_
    exact (reads_pure _ _).2 ⟨rfl, rfl⟩

theorem Joined.reads {levels : List (Kind → Option Joint)} {d n : Nat} {s : Surroundings}
    {ts : List Token} {e : Expr} :
    Joined levels d ts e → SeparateLevels levels → ts.length ≤ n → s.depth = d →
      ChainReads n s ts e levels
  | .unary whole, _, hlen, hdepth => whole.reads_level hlen hdepth
  | .tighter whole, hlevels, hlen, hdepth => by
    refine ⟨0, Nat.zero_le _, fun _ _ _ _ stops hr => ?_⟩
    exact ((whole.reads hlevels.tail hlen hdepth).reads hlen stops).bind hr
  | @Joined.join _ _ _ ts us mark _ _ _ left hmark right, hlevels, hlen, hdepth => by
    simp only [List.length_append, List.length_cons] at hlen
    obtain ⟨k, hk, hleft⟩ := left.reads hlevels (n := n) (s := s) (by omega) hdepth
    refine ⟨k + 1, by simp only [List.length_append, List.length_cons]; omega,
      fun bound rest a last stops hr => ?_⟩
    have hright := (right.reads hlevels.tail (n := n) (s := s) (by omega) hdepth).reads
      (by omega) stops
    have hturn := hleft (bound + 1) (mark :: us ++ rest) a last (stops_operator hlevels hmark)
      ((reads_chainFrom_succ _ _ _ _ _ _).2 (.inl ⟨_, mark, _, _, _, hmark, rfl, hright, hr⟩))
    rw [List.append_assoc, show bound + (k + 1) = bound + 1 + k by omega]
    exact hturn

theorem Unary.reads_level {d n : Nat} {s : Surroundings} {ts rest : List Token} {e : Expr} :
    Unary d ts e → ts.length ≤ n → s.depth = d → nextKind? rest ≠ some .leftParen →
      (Production.unary (.level n)).Reads s (ts ++ rest) e rest
  | @Unary.operator _ mark op _ _ hmark room operand, hlen, hdepth, stops => by
    obtain ⟨n, rfl⟩ := Nat.exists_eq_succ_of_ne_zero (Nat.ne_zero_of_lt hlen)
    simp only [List.length_cons] at hlen
    refine Reads.bind ((reads_accept? _ _).2 (.inl ⟨op, mark, rfl, hmark, rfl⟩)) ?_
    refine Reads.bind ((reads_nested _ _).2 ⟨hdepth ▸ room, operand.reads_level (by omega)
      (congrArg (· + 1) hdepth) stops⟩) ?_
    exact (reads_pure _ _).2 ⟨rfl, rfl⟩
  | .call whole, hlen, hdepth, stops => by
    obtain ⟨k, hk, hcall⟩ := whole.reads hlen hdepth
    have hr := hcall (n + 1 - k) _ _ _ (reads_callFrom_stop stops)
    rw [Nat.sub_add_cancel (by omega)] at hr
    obtain ⟨t, us, rfl, ht⟩ := whole.starts
    refine Reads.bind ((reads_accept? _ _).2 (.inr ⟨rfl, rfl, ?_⟩)) ?_
    · rintro k hk
      obtain rfl := Option.some.inj hk
      revert ht
      cases t.kind <;> first | exact fun _ => rfl | exact fun h => absurd h nofun
    · rw [Production.call, Rules.bound_level]
      exact hr

theorem Call.reads {d n : Nat} {s : Surroundings} {ts : List Token} {e : Expr} :
    Call d ts e → ts.length ≤ n → s.depth = d → ∃ k ≤ ts.length, ∀ bound rest a last,
      (Production.callFrom (.level n) bound e).Reads s rest a last →
      (Production.primary (.level n) >>= Production.callFrom (.level n) (bound + k)).Reads s
        (ts ++ rest) a last
  | .primary whole, hlen, hdepth =>
    ⟨0, Nat.zero_le _, fun _ _ _ _ hr => (whole.reads hlen hdepth).bind hr⟩
  | @Call.call _ ts us opening closing _ _ left hopening right
      hclosing, hlen, hdepth => by
    simp only [List.length_append, List.length_cons, List.length_nil] at hlen
    obtain ⟨k, hk, hleft⟩ := left.reads (n := n) (s := s) (by omega) hdepth
    refine ⟨k + 1, by simp only [List.length_append, List.length_cons]; omega,
      fun bound rest a last hr => ?_⟩
    have hright := right.reads (n := n) (s := s) (closing :: rest) (by omega) hdepth
      (congrArg some hclosing)
    have hturn := hleft (bound + 1) (opening :: (us ++ closing :: rest)) a last
      (reads_callFrom_succ hopening (by rwa [Rules.bound_level]) hclosing hr)
    simpa [show bound + (k + 1) = bound + 1 + k by omega] using hturn

theorem Arguments.reads {d n : Nat} {s : Surroundings} {ts : List Token} (rest : List Token)
    {arguments : List Expr} :
    Arguments d ts arguments → ts.length < n → s.depth = d →
      nextKind? rest = Option.some .rightParen →
      (items (n + 1) (Rules.level n).expression .tooManyArguments).Reads s (ts ++ rest) arguments
        rest
  | .none, _, _, hrest => by
    rw [reads_items, List.nil_append, if_pos (headD_kind_of_nextKind? hrest)]
    exact ⟨rfl, rfl⟩
  | .some values few, hlen, hdepth, hrest => by
    have hr := values.reads (n + 1) 0 hlen hdepth (by omega) (by omega) hrest
    obtain ⟨t, us, rfl, ht⟩ := values.starts
    have hparen : t.kind ≠ .rightParen := Kind.ne_of_property ht rfl
    rw [reads_items, List.cons_append, List.headD_cons, if_neg hparen]
    exact hr

theorem Values.reads {d n : Nat} (bound count : Nat) {s : Surroundings} {ts rest : List Token}
    {es : List Expr} :
    Values d ts es → ts.length < n → s.depth = d → ts.length < bound →
      count + es.length ≤ maxItems → nextKind? rest = some .rightParen →
      (itemsFrom (Rules.level n).expression .tooManyArguments bound count).Reads s (ts ++ rest) es
        rest
  | .one value, hlen, hdepth, hbound, hfew, hrest => by
    obtain ⟨bound, rfl⟩ := Nat.exists_eq_succ_of_ne_zero (Nat.ne_zero_of_lt hbound)
    have hvalue := value.reads rest hlen hdepth (stops_of_nextKind? hrest rfl)
    exact (reads_itemsFrom_succ _ _ _ _ _).2 ⟨hfew, _, rest, hvalue,
      .inr ⟨by simp [hrest], rfl, rfl⟩⟩
  | @Values.more _ ts us comma _ _ value hcomma others, hlen, hdepth, hbound, hfew,
      hrest => by
    obtain ⟨bound, rfl⟩ := Nat.exists_eq_succ_of_ne_zero (Nat.ne_zero_of_lt hbound)
    simp only [List.length_append, List.length_cons] at hlen hbound hfew
    have hvalue := value.reads (n := n) (s := s) (comma :: us ++ rest) (by omega) hdepth
      (stops_continuesExpression (.inr (.inr hcomma)))
    have hothers := others.reads bound (count + 1) (n := n) (s := s) (by omega) hdepth
      (by omega) (by omega) hrest
    rw [List.append_assoc]
    exact (reads_itemsFrom_succ _ _ _ _ _).2 ⟨by omega, _, _, hvalue,
      .inl ⟨comma, us ++ rest, _, hcomma, rfl, hothers, rfl⟩⟩

theorem Primary.reads {d n : Nat} {s : Surroundings} {ts rest : List Token} {e : Expr} :
    Primary d ts e → ts.length ≤ n → s.depth = d →
      (Production.primary (.level n)).Reads s (ts ++ rest) e rest
  | @Primary.literal _ t _ hvalue, _, _ => by
    refine Reads.bind ((reads_peek t).2 ⟨rfl, rfl⟩) ?_
    simp only [hvalue]
    exact Reads.bind ((reads_skip ()).2 rfl) ((reads_pure _ _).2 ⟨rfl, rfl⟩)
  | .name hname, _, _ => reads_primary_name hname
  | @Primary.group _ opening closing ts _ hopening inside hclosing, hlen,
      hdepth => by
    simp only [List.length_append, List.length_cons] at hlen
    have hinside := inside.reads (n := n) (s := s) (closing :: rest) (by omega) hdepth
      (stops_continuesExpression (.inr (.inl hclosing)))
    refine Reads.bind ((reads_peek opening).2 ⟨rfl, rfl⟩) ?_
    simp only [Token.value?, hopening]
    refine Reads.bind ((reads_skip ()).2 rfl) ?_
    rw [List.append_assoc, List.cons_append, List.tail_cons]
    refine hinside.bind (Reads.bind ((reads_consume _ _ closing).2 ⟨hclosing, rfl⟩) ?_)
    exact (reads_pure _ _).2 ⟨rfl, rfl⟩

theorem FunctionRest.reads {d n : Nat} {s : Surroundings} {ts parameters rest : List Token}
    {body : List Stmt} {closing : Token} {beforeParameters beforeBody : ParseFault} :
    FunctionRest d ts parameters body closing → ts.length ≤ n → s.depth = d →
      (Production.functionRest (.level n) beforeParameters beforeBody).Reads s (ts ++ rest)
        ⟨parameters, body, closing⟩ rest
  | @FunctionRest.mk _ opening closing brace _ ts us _ _ hopening names hclosing hbrace inside,
      hlen, hdepth => by
    simp only [List.length_append, List.length_cons] at hlen
    have hbody := inside.reads (n := n) (s := s) rest (by omega) hdepth
    have hnext : nextKind? (closing :: brace :: us ++ rest) = some .rightParen :=
      congrArg some hclosing
    have hnames := names.reads (s := s) (by omega : ts.length ≤ n + 1) hnext
    rw [List.append_assoc]
    exact Production.reads_functionRest hopening (by rwa [Rules.bound_level]) hclosing hbrace hbody

theorem BlockRest.reads {d n : Nat} {s : Surroundings} {ts : List Token} (rest : List Token)
    {body : List Stmt} {closing : Token} :
    BlockRest d ts body closing → ts.length ≤ n → s.depth = d →
      (Production.blockRest (.level n)).Reads s (ts ++ rest) (body, closing) rest
  | @BlockRest.mk _ _ _ closing inside hclosing, hlen, hdepth => by
    simp only [List.length_append, List.length_cons, List.length_nil] at hlen
    have hbody := inside.reads (n := n) (n + 1) true (s := s) (closing :: rest) (by omega) hdepth
      (by omega) (.inr ⟨rfl, hclosing⟩)
    rw [List.append_assoc]
    exact Production.reads_blockRest (by rwa [Rules.bound_level]) hclosing

theorem Declarations.reads {d n : Nat} (bound : Nat) (inBlock : Bool) {s : Surroundings}
    {ts : List Token} (rest : List Token) {body : List Stmt} :
    Declarations d ts body → ts.length < n → s.depth = d → ts.length < bound →
      ((rest.headD s.ending).kind = .endOfInput ∨
        (inBlock ∧ (rest.headD s.ending).kind = .rightBrace)) →
      (declarations (Rules.level n).declaration inBlock bound).Reads s (ts ++ rest) body rest
  | .nil, _, _, hbound, hrest => by
    obtain ⟨bound, rfl⟩ := Nat.exists_eq_succ_of_ne_zero (Nat.ne_zero_of_lt hbound)
    rw [reads_declarations_succ, List.nil_append, if_pos hrest]
    exact ⟨rfl, rfl⟩
  | @Declarations.cons _ ts us st others first following, hlen, hdepth, hbound,
      hrest => by
    obtain ⟨bound, rfl⟩ := Nat.exists_eq_succ_of_ne_zero (Nat.ne_zero_of_lt hbound)
    have hpos := first.starts.length_pos
    simp only [List.length_append] at hlen hbound
    have hfirst := first.reads (n := n) (s := s) (by omega) hdepth
      (following.next_ne_elseWord hrest)
    have hothers := following.reads (n := n) bound inBlock (s := s) rest (by omega) hdepth
      (by omega)
      hrest
    obtain ⟨t, ts, rfl, ht⟩ := first.starts
    have hend : t.kind ≠ .endOfInput := Kind.ne_of_property ht rfl
    have hbrace : t.kind ≠ .rightBrace := Kind.ne_of_property ht rfl
    rw [reads_declarations_succ, List.append_assoc, List.cons_append, List.headD_cons,
      if_neg (by simp [hend, hbrace])]
    exact ⟨some st, us ++ rest, others, hfirst, hothers, rfl⟩

theorem Declaration.reads {d n : Nat} {s : Surroundings} {ts rest : List Token} {st : Stmt} :
    Declaration d ts st → ts.length < n → s.depth = d → nextKind? rest ≠ some .elseWord →
      (Rules.level n).declaration.Reads s (ts ++ rest) (some st) rest
  | @Declaration.function _ keyword name _ _ _ _ hkeyword hname part, hlen, hdepth, _ => by
    obtain ⟨n, rfl⟩ := Nat.exists_eq_succ_of_ne_zero (Nat.ne_zero_of_lt hlen)
    simp only [List.length_cons] at hlen
    refine (reads_recovering _ _).2 ⟨_, rfl, ?_⟩
    refine Reads.bind ((Production.reads_functionStart? _).2
      (.inl ⟨keyword, name, rfl, hkeyword, hname, rfl⟩)) ?_
    exact (part.reads (by omega) hdepth).bind ((reads_pure _ _).2 ⟨rfl, rfl⟩)
  | @Declaration.define _ keyword _ _ hkeyword definition, hlen, hdepth, _ => by
    obtain ⟨n, rfl⟩ := Nat.exists_eq_succ_of_ne_zero (Nat.ne_zero_of_lt hlen)
    simp only [List.length_cons] at hlen
    refine (reads_recovering _ _).2 ⟨_, rfl, ?_⟩
    refine Reads.bind ((Production.reads_functionStart? _).2 (.inr ⟨rfl, rfl, ?_⟩)) ?_
    · rintro ⟨t, u, vs, hts, ht, -⟩
      obtain ⟨rfl, -⟩ := List.cons.inj hts
      rw [hkeyword] at ht
      cases ht
    · exact Reads.bind ((reads_accept _ _).2 (.inl ⟨keyword, rfl, hkeyword, rfl⟩))
        (definition.reads (by omega) hdepth)
  | .statement whole, hlen, hdepth, hrest => by
    have hst := whole.reads rest hlen hdepth fun _ => hrest
    obtain ⟨n, rfl⟩ := Nat.exists_eq_succ_of_ne_zero (Nat.ne_zero_of_lt hlen)
    refine Production.reads_declaration_statement whole.starts.append ?_ hst
    exact whole.next_of_fnWord

theorem LetRest.reads {d n : Nat} {s : Surroundings} {keyword : Token} {ts rest : List Token}
    {st : Stmt} :
    LetRest d keyword ts st → ts.length ≤ n → s.depth = d →
      (Production.letRest (.level n) keyword).Reads s (ts ++ rest) st rest
  | .bare hname hclosing, _, _ => Production.reads_letRest_bare hname hclosing
  | @LetRest.initial _ _ _ _ closing _ _ hname hmark value hclosing, hlen, hdepth => by
    simp only [List.length_append, List.length_cons] at hlen
    have hvalue := value.reads (n := n) (s := s) (closing :: rest) (by omega) hdepth
      (stops_continuesExpression (.inl hclosing))
    rw [List.append_assoc]
    exact Production.reads_letRest hname hmark hvalue hclosing

theorem ExpressionStatement.reads {d n : Nat} {s : Surroundings} {ts rest : List Token}
    {st : Stmt} :
    ExpressionStatement d ts st → ts.length ≤ n → s.depth = d →
      (Production.expressionStatement (.level n)).Reads s (ts ++ rest) st rest
  | @ExpressionStatement.mk _ _ _ closing value hclosing, hlen, hdepth => by
    simp only [List.length_append, List.length_cons] at hlen
    have hvalue := value.reads (n := n + 1) (s := s) (closing :: rest) (by omega) hdepth
      (stops_continuesExpression (.inl hclosing))
    rw [List.append_assoc]
    exact Production.reads_expressionStatement hvalue hclosing

theorem Statement.reads {dangling : Bool} {d n : Nat} {s : Surroundings} {ts : List Token}
    (rest : List Token) {st : Stmt} :
    Statement dangling d ts st → ts.length < n → s.depth = d →
      (dangling = true → nextKind? rest ≠ some .elseWord) →
      (Rules.level n).statement.Reads s (ts ++ rest) st rest
  | .nest room inside, hlen, hdepth, hrest => by
    obtain ⟨n, rfl⟩ := Nat.exists_eq_succ_of_ne_zero (Nat.ne_zero_of_lt hlen)
    exact inside.reads (Nat.le_of_lt_succ hlen) (congrArg (· + 1) hdepth) (hdepth ▸ room) hrest

theorem StatementForm.reads {dangling : Bool} {d n : Nat} {s : Surroundings}
    {ts rest : List Token} {st : Stmt} :
    StatementForm dangling d ts st → ts.length ≤ n → s.depth + 1 = d → s.depth < maxNesting →
      (dangling = true → nextKind? rest ≠ some .elseWord) →
      (Production.statement (.level n)).Reads s (ts ++ rest) st rest
  | @StatementForm.forLoop _ _ keyword opening middle closing _ us vs ws _ _ _ _ hkeyword hopening
      first second hmiddle third hclosing inside,
      hlen, hdepth, room, hrest => by
    simp only [List.length_append, List.length_cons] at hlen
    have hbody := inside.reads (n := n) (s := { s with depth := s.depth + 1 }) rest (by omega)
      hdepth hrest
    have hstep := third.reads (n := n) (s := { s with depth := s.depth + 1 }) .rightParen
      (closing :: ws ++ rest) (by omega) hdepth (.inr rfl) (congrArg some hclosing)
    have hcondition := second.reads (n := n) (s := { s with depth := s.depth + 1 }) .semicolon
      (middle :: (vs ++ (closing :: ws ++ rest))) (by omega) hdepth
      (.inl rfl) (congrArg some hmiddle)
    have hinitial := first.reads (n := n) (s := { s with depth := s.depth + 1 })
      (us ++ middle :: (vs ++ (closing :: ws ++ rest))) (by omega) hdepth
    have hwhole := Production.reads_forRest keyword hopening hinitial hcondition hmiddle
      hstep hclosing hbody
    exact Production.reads_statement room hkeyword rfl (by simpa using hwhole)
  | @StatementForm.branch _ _ keyword _ closing _ us _ _ hkeyword hopening test hclosing
      first, hlen, hdepth, room, hrest => by
    simp only [List.length_append, List.length_cons] at hlen
    have htrue := first.reads (n := n) (s := { s with depth := s.depth + 1 }) rest
      (by omega) hdepth fun _ => hrest rfl
    have hcondition := test.reads (n := n) (s := { s with depth := s.depth + 1 })
      (closing :: us ++ rest) (by omega) hdepth
      (stops_continuesExpression (.inr (.inl hclosing)))
    have hwhole := Production.reads_ifRest keyword hopening hcondition hclosing htrue
      (hrest rfl)
    exact Production.reads_statement room hkeyword rfl (by simpa using hwhole)
  | @StatementForm.branchElse _ _ keyword _ closing middle _ us vs _ _ _
      hkeyword hopening test hclosing first hmiddle second, hlen, hdepth, room, hrest => by
    simp only [List.length_append, List.length_cons] at hlen
    have hfalse := second.reads (n := n) (s := { s with depth := s.depth + 1 }) rest
      (by omega) hdepth hrest
    have htrue := first.reads (n := n) (s := { s with depth := s.depth + 1 })
      (middle :: vs ++ rest) (by omega) hdepth nofun
    have hcondition := test.reads (n := n) (s := { s with depth := s.depth + 1 })
      (closing :: us ++ (middle :: vs ++ rest)) (by omega) hdepth
      (stops_continuesExpression (.inr (.inl hclosing)))
    have hwhole := Production.reads_ifRest_else keyword hopening hcondition hclosing
      htrue hmiddle hfalse
    exact Production.reads_statement room hkeyword rfl (by simpa using hwhole)
  | @StatementForm.leave _ keyword closing _ _ hkeyword result hclosing, hlen, hdepth, room,
      _ => by
    simp only [List.length_append, List.length_cons] at hlen
    have hvalue := result.reads (n := n) (s := { s with depth := s.depth + 1 }) .semicolon
      (closing :: rest) (by omega) hdepth (.inl rfl)
      (congrArg some hclosing)
    have hwhole := Production.reads_returnRest keyword hvalue hclosing
    exact Production.reads_statement room hkeyword rfl (by simpa using hwhole)
  | @StatementForm.loop _ _ keyword _ closing _ us _ _ hkeyword hopening test hclosing
      inside, hlen, hdepth, room, hrest => by
    simp only [List.length_append, List.length_cons] at hlen
    have hbody := inside.reads (n := n) (s := { s with depth := s.depth + 1 }) rest (by omega)
      hdepth hrest
    have hcondition := test.reads (n := n) (s := { s with depth := s.depth + 1 })
      (closing :: us ++ rest) (by omega) hdepth
      (stops_continuesExpression (.inr (.inl hclosing)))
    have hwhole := Production.reads_whileRest keyword hopening hcondition hclosing hbody
    exact Production.reads_statement room hkeyword rfl (by simpa using hwhole)
  | @StatementForm.breakLoop _ keyword closing hkeyword hclosing, _, _, room, _ => by
    refine Production.reads_statement room hkeyword rfl ?_
    exact Reads.bind ((reads_consume _ _ closing).2 ⟨hclosing, rfl⟩) ((reads_pure _ _).2 ⟨rfl, rfl⟩)
  | @StatementForm.continueLoop _ keyword closing hkeyword hclosing, _, _, room, _ => by
    refine Production.reads_statement room hkeyword rfl ?_
    exact Reads.bind ((reads_consume _ _ closing).2 ⟨hclosing, rfl⟩) ((reads_pure _ _).2 ⟨rfl, rfl⟩)
  | @StatementForm.block _ brace _ _ _ hbrace inside, hlen, hdepth, room, _ => by
    have hbody := inside.reads (n := n) (s := { s with depth := s.depth + 1 }) rest
      (Nat.le_of_lt hlen) hdepth
    refine Production.reads_statement room hbrace rfl ?_
    exact hbody.bind ((reads_pure _ _).2 ⟨rfl, rfl⟩)
  | .expression whole, hlen, hdepth, room, _ =>
    Production.reads_statement_expression room whole.starts.append
      (whole.reads (s := { s with depth := s.depth + 1 }) hlen hdepth)

theorem InitialClause.reads {d n : Nat} {s : Surroundings} {ts : List Token} (rest : List Token)
    {initial : Option Stmt} :
    InitialClause d ts initial → ts.length ≤ n → s.depth = d →
      (Production.initialClause (.level n)).Reads s (ts ++ rest) initial rest
  | .none hclosing, _, _ => Production.reads_initialClause_none hclosing
  | .define hkeyword definition, hlen, hdepth =>
    Production.reads_initialClause_define hkeyword (definition.reads (Nat.le_of_lt hlen) hdepth)
  | .expression whole, hlen, hdepth =>
    Production.reads_initialClause_expression whole.starts.append (whole.reads hlen hdepth)

theorem Clause.reads {d n : Nat} (ending : Kind) {s : Surroundings} {ts : List Token}
    (rest : List Token) {value : Option Expr} :
    Clause d ts value → ts.length < n → s.depth = d → (ending = .semicolon ∨ ending = .rightParen) →
      nextKind? rest = Option.some ending →
      (Production.clause (.level n) ending).Reads s (ts ++ rest) value rest
  | .none, _, _, _, hrest => Production.reads_clause_none hrest
  | .some value, hlen, hdepth, hending, hrest => by
    have hvalue := value.reads rest hlen hdepth
      (stops_of_nextKind? hrest (by rcases hending with rfl | rfl <;> rfl))
    refine Production.reads_clause_some (value.starts.append.mono fun k hk => ?_) hvalue
    have hne : k ≠ ending :=
      Kind.ne_of_property hk (by rcases hending with rfl | rfl <;> rfl)
    simpa using hne

end

end Grammar

end Scripting
