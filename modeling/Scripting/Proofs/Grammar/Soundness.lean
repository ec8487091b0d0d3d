import Scripting.Proofs.Grammar.First
import Scripting.Proofs.Grammar.Reading

/-!
# What is read is derived

* `Takes R ts rest` : the tokens `ts` are some with the property `R`, and `rest` behind them;
* `Rules.Sound r n` : what the rules `r` read without a fault from fewer than `n` tokens is derived
  in the grammar from the tokens taken (`Rules.sound_level`);
* `sound_declarations` : the same of declarations one behind the other.

The proof is by the level of the rules. Each production is sound if the rules for the constructs
inside it are; these are used behind a token that was taken, and so with fewer tokens ahead.
-/

namespace Scripting

set_option autoImplicit false

open Scripting.Parser Scripting.Grammar

/-- The tokens `ts` are some with the property `R`, and `rest` behind them. -/
def Takes (R : List Token → Prop) (ts rest : List Token) : Prop := ∃ us, ts = us ++ rest ∧ R us

/-- What is left after a construct that has a token is shorter. -/
theorem Takes.length_lt {R : List Token → Prop} {ts rest : List Token} {p : Kind → Bool}
    (h : Takes R ts rest) (hR : ∀ us, R us → StartsWith p us) : rest.length < ts.length := by
  obtain ⟨us, rfl, hus⟩ := h
  have := (hR us hus).length_pos
  simp
  omega

/-- A statement that may be followed by `rest`: if it ends with a branch that has no second part,
no `else` is next. -/
def StatementBefore (rest : List Token) (d : Nat) (ts : List Token) (s : Stmt) : Prop :=
  ∃ dangling, Statement dangling d ts s ∧ (dangling = true → nextKind? rest ≠ some .elseWord)

/-- What the rules read without a fault from fewer than `n` tokens is derived. -/
structure Rules.Sound (r : Rules) (n : Nat) : Prop where
  bound : r.bound = n
  expression : ∀ {s ts e rest}, s.ending.kind = .endOfInput → ts.length < n →
    r.expression.Reads s ts e rest → Takes (Expression s.depth · e) ts rest
  assignment : ∀ {s ts e rest}, s.ending.kind = .endOfInput → ts.length < n →
    r.assignment.Reads s ts e rest → Takes (Assignment s.depth · e) ts rest
  compound : ∀ {s ts e rest}, s.ending.kind = .endOfInput → ts.length < n →
    r.compound.Reads s ts e rest → Takes (Compound s.depth · e) ts rest
  unary : ∀ {s ts e rest}, s.ending.kind = .endOfInput → ts.length < n →
    r.unary.Reads s ts e rest → Takes (Unary s.depth · e) ts rest
  statement : ∀ {s ts st rest}, s.ending.kind = .endOfInput → ts.length < n →
    r.statement.Reads s ts st rest → Takes (StatementBefore rest s.depth · st) ts rest
  declaration : ∀ {s ts o rest}, s.ending.kind = .endOfInput → ts.length < n →
    r.declaration.Reads s ts o rest →
      ∃ st, o = some st ∧ Takes (Declaration s.depth · st) ts rest

section

variable {inner : Rules} {n : Nat} {s : Surroundings} {ts rest : List Token}

/-! ## Lists -/

/-- The declarations read are derived; outside a block and with a bound above the number of tokens,
they are read up to the end. -/
theorem sound_declarations (sound : inner.Sound n) (hend : s.ending.kind = .endOfInput)
    (inBlock : Bool) {bound : Nat} :
    ∀ {ts : List Token} {body : List Stmt}, ts.length < n →
      (declarations inner.declaration inBlock bound).Reads s ts body rest →
      Takes (Declarations s.depth · body) ts rest ∧
        (inBlock = false → ts.length < bound → ∀ k ∈ nextKind? rest, k = .endOfInput) := by
  induction bound with
  | zero =>
    intro ts body _ hr
    obtain ⟨rfl, rfl⟩ := (reads_pure _ _).1 hr
    exact ⟨⟨[], rfl, .nil⟩, fun _ h => absurd h (Nat.not_lt_zero _)⟩
  | succ bound ih =>
    intro ts body hlen hr
    rw [reads_declarations_succ] at hr
    split at hr
    · rename_i hnext
      obtain ⟨rfl, rfl⟩ := hr
      refine ⟨⟨[], rfl, .nil⟩, fun hblock _ k hk => ?_⟩
      subst hblock
      cases ts with
      | nil => simp at hk
      | cons t ts => simpa [← Option.some.inj hk] using hnext
    · obtain ⟨o, us, others, ho, hothers, rfl⟩ := hr
      obtain ⟨first, rfl, hfirst⟩ := sound.declaration hend hlen ho
      have hlt := hfirst.length_lt fun _ h => h.starts
      obtain ⟨⟨vs, rfl, hrest⟩, hlast⟩ := ih (by omega) hothers
      obtain ⟨us, rfl, hfirst⟩ := hfirst
      exact ⟨⟨us ++ vs, by simp, .cons hfirst hrest⟩, fun hblock hbound => hlast hblock (by omega)⟩

/-- Items read with a bound above the number of tokens stand one behind the other with commas
between them, and there are no more of them than allowed. -/
theorem sound_itemsFrom {α : Type} {item : Parser α} {tooMany : ParseFault}
    (R : List Token → α → Prop) (Rs : List Token → List α → Prop)
    (one : ∀ {us a}, R us a → Rs us [a])
    (more : ∀ {us a comma vs as}, R us a → comma.kind = .comma → Rs vs as →
      Rs (us ++ comma :: vs) (a :: as))
    (sound : ∀ {ts a rest}, ts.length < n → item.Reads s ts a rest → Takes (R · a) ts rest)
    {bound : Nat} :
    ∀ {count : Nat} {ts : List Token} {as : List α}, ts.length < n → ts.length < bound →
      (itemsFrom item tooMany bound count).Reads s ts as rest →
      Takes (Rs · as) ts rest ∧ count + as.length ≤ maxItems := by
  induction bound with
  | zero => exact fun _ h => absurd h (Nat.not_lt_zero _)
  | succ bound ih =>
    intro count ts as hlen hbound hr
    rw [reads_itemsFrom_succ] at hr
    obtain ⟨hcount, a, us, ra, hr⟩ := hr
    obtain ⟨pre, rfl, ha⟩ := sound hlen ra
    rcases hr with ⟨comma, vs, others, hcomma, rfl, rothers, rfl⟩ | ⟨-, rfl, rfl⟩
    · simp only [List.length_append, List.length_cons] at hlen hbound
      obtain ⟨⟨ws, rfl, hothers⟩, hfew⟩ := ih (by omega) (by omega) rothers
      refine ⟨⟨pre ++ comma :: ws, by simp, more ha hcomma hothers⟩, ?_⟩
      simp only [List.length_cons]
      omega
    · refine ⟨⟨pre, rfl, one ha⟩, ?_⟩
      simp only [List.length_cons, List.length_nil]
      omega

namespace Production

/-! ## Functions and blocks -/

theorem sound_blockRest (sound : inner.Sound n) (hend : s.ending.kind = .endOfInput)
    {body : List Stmt} {closing : Token} (hlen : ts.length < n)
    (hr : (blockRest inner).Reads s ts (body, closing) rest) :
    Takes (BlockRest s.depth · body closing) ts rest := by
  simp only [blockRest, reads_bind, reads_consume, reads_pure, Prod.mk.injEq] at hr
  obtain ⟨_, _, rbody, _, _, ⟨hclosing, rfl⟩, ⟨rfl, rfl⟩, rfl⟩ := hr
  obtain ⟨⟨us, rfl, hbody⟩, -⟩ := sound_declarations sound hend true hlen rbody
  exact ⟨us ++ [_], by simp, .mk hbody hclosing⟩

theorem sound_parameters {bound : Nat} {names : List Token} (hbound : ts.length < bound)
    (hr : (items bound (consume .identifier .expectedParameterName) .tooManyParameters).Reads s ts
      names rest) : Takes (Parameters · names) ts rest := by
  rw [reads_items] at hr
  split at hr
  · obtain ⟨rfl, rfl⟩ := hr
    exact ⟨[], rfl, .none⟩
  · obtain ⟨⟨us, rfl, hnames⟩, hfew⟩ := sound_itemsFrom (n := bound)
      (fun us t => us = [t] ∧ t.kind = .identifier) Names
      (by rintro us t ⟨rfl, ht⟩; exact .one ht)
      (by rintro us t comma vs names ⟨rfl, ht⟩ hcomma others; exact .more ht hcomma others)
      (by
        intro ts t rest _ rt
        obtain ⟨hk, rfl⟩ := (reads_consume _ _ _).1 rt
        exact ⟨[t], rfl, rfl, hk⟩)
      hbound hbound hr
    exact ⟨us, rfl, .some hnames (by omega)⟩

theorem sound_functionRest (sound : inner.Sound n) (hend : s.ending.kind = .endOfInput)
    {part : FunctionPart} {beforeParameters beforeBody : ParseFault} (hlen : ts.length < n)
    (hr : (functionRest inner beforeParameters beforeBody).Reads s ts part rest) :
    Takes (FunctionRest s.depth · part.parameters part.body part.closing) ts rest := by
  simp only [functionRest, reads_bind, reads_consume, reads_pure] at hr
  obtain ⟨opening, us, ⟨hopening, rfl⟩, names, vs, rnames, closing, ws, ⟨hclosing, rfl⟩, brace, xs,
    ⟨hbrace, rfl⟩, ⟨body, last⟩, ys, rbody, rfl, rfl⟩ := hr
  have hbound := sound.bound
  simp only [List.length_cons] at hlen
  obtain ⟨us, rfl, hnames⟩ := sound_parameters (by omega) rnames
  simp only [List.length_append, List.length_cons] at hlen
  obtain ⟨xs, rfl, hbody⟩ := sound_blockRest sound hend (by omega) rbody
  exact ⟨opening :: us ++ closing :: brace :: xs, by simp,
    .mk hopening hnames hclosing hbrace hbody⟩

/-! ## Expressions -/

theorem sound_primary (sound : inner.Sound n) (hend : s.ending.kind = .endOfInput) {e : Expr}
    (hlen : ts.length ≤ n) (hr : (primary inner).Reads s ts e rest) :
    Takes (Primary s.depth · e) ts rest := by
  simp only [primary, reads_bind, reads_peek] at hr
  obtain ⟨_, _, ⟨rfl, rfl⟩, hr⟩ := hr
  cases ts with
  | nil =>
    simp only [List.headD_nil, Token.value?, hend] at hr
    exact absurd hr (not_reads_failAt _ _ _)
  | cons t ts =>
    simp only [List.headD_cons] at hr
    simp only [List.length_cons] at hlen
    split at hr
    · rename_i value hvalue
      simp only [reads_bind, reads_skip, reads_pure] at hr
      obtain ⟨_, _, rfl, rfl, rfl⟩ := hr
      exact ⟨[t], rfl, .literal hvalue⟩
    · split at hr
      · rename_i hname
        simp only [reads_bind, reads_skip, reads_pure] at hr
        obtain ⟨_, _, rfl, rfl, rfl⟩ := hr
        exact ⟨[t], rfl, .name hname⟩
      · rename_i hopening
        simp only [reads_bind, reads_skip, reads_consume, reads_pure] at hr
        obtain ⟨_, _, rfl, inside, us, rinside, closing, vs, ⟨hclosing, rfl⟩, rfl, rfl⟩ := hr
        obtain ⟨us, rfl, hinside⟩ := sound.expression hend hlen rinside
        exact ⟨t :: us ++ [closing], by simp, .group hopening hinside hclosing⟩
      · exact absurd hr (not_reads_failAt _ _ _)

theorem sound_arguments (sound : inner.Sound n) (hend : s.ending.kind = .endOfInput) {bound : Nat}
    {arguments : List Expr} (hlen : ts.length < n) (hbound : ts.length < bound)
    (hr : (items bound inner.expression .tooManyArguments).Reads s ts arguments rest) :
    Takes (Arguments s.depth · arguments) ts rest := by
  rw [reads_items] at hr
  split at hr
  · obtain ⟨rfl, rfl⟩ := hr
    exact ⟨[], rfl, .none⟩
  · obtain ⟨⟨us, rfl, hvalues⟩, hfew⟩ := sound_itemsFrom (Expression s.depth)
      (Values s.depth) .one .more (sound.expression hend) hlen hbound hr
    exact ⟨us, rfl, .some hvalues (by omega)⟩

theorem sound_callFrom (sound : inner.Sound n) (hend : s.ending.kind = .endOfInput) {bound : Nat} :
    ∀ {pre ts : List Token} {callee e : Expr}, Call s.depth pre callee → ts.length ≤ n →
      (callFrom inner bound callee).Reads s ts e rest →
      Takes (fun us => Call s.depth (pre ++ us) e) ts rest := by
  induction bound with
  | zero =>
    intro pre ts callee e hcallee _ hr
    obtain ⟨rfl, rfl⟩ := (reads_pure _ _).1 hr
    exact ⟨[], rfl, by simpa using hcallee⟩
  | succ bound ih =>
    intro pre ts callee e hcallee hlen hr
    rw [callFrom, reads_bind] at hr
    obtain ⟨o, us, ho, hr⟩ := hr
    rcases (reads_accept _ _).1 ho with ⟨opening, rfl, hopening, rfl⟩ | ⟨rfl, rfl, -⟩
    · simp only [reads_bind, reads_consume] at hr
      obtain ⟨arguments, vs, rarguments, closing, ws, ⟨hclosing, rfl⟩, hr⟩ := hr
      have hbound := sound.bound
      simp only [List.length_cons] at hlen
      obtain ⟨us, rfl, harguments⟩ := sound_arguments sound hend (by omega) (by omega) rarguments
      simp only [List.length_append, List.length_cons] at hlen
      obtain ⟨vs, rfl, hwhole⟩ := ih (.call hcallee hopening harguments hclosing) (by omega) hr
      exact ⟨opening :: us ++ closing :: vs, by simp, by simpa using hwhole⟩
    · obtain ⟨rfl, rfl⟩ := (reads_pure _ _).1 hr
      exact ⟨[], rfl, by simpa using hcallee⟩

theorem sound_call (sound : inner.Sound n) (hend : s.ending.kind = .endOfInput) {e : Expr}
    (hlen : ts.length ≤ n) (hr : (call inner).Reads s ts e rest) :
    Takes (Call s.depth · e) ts rest := by
  rw [call, reads_bind] at hr
  obtain ⟨callee, us, rcallee, hr⟩ := hr
  obtain ⟨pre, rfl, hcallee⟩ := sound_primary sound hend hlen rcallee
  simp only [List.length_append] at hlen
  obtain ⟨us, rfl, hwhole⟩ := sound_callFrom sound hend (.primary hcallee) (by omega) hr
  exact ⟨pre ++ us, by simp, hwhole⟩

theorem sound_unary (sound : inner.Sound n) (hend : s.ending.kind = .endOfInput) {e : Expr}
    (hlen : ts.length ≤ n) (hr : (unary inner).Reads s ts e rest) :
    Takes (Unary s.depth · e) ts rest := by
  rw [unary, reads_bind] at hr
  obtain ⟨o, us, ho, hr⟩ := hr
  rcases (reads_accept? _ _).1 ho with ⟨op, mark, rfl, hmark, rfl⟩ | ⟨rfl, rfl, -⟩
  · simp only [reads_bind, reads_nested, reads_pure] at hr
    obtain ⟨operand, vs, ⟨room, roperand⟩, rfl, rfl⟩ := hr
    obtain ⟨us, rfl, hoperand⟩ := sound.unary (s := { s with depth := s.depth + 1 }) hend hlen
      roperand
    exact ⟨mark :: us, rfl, .operator hmark room hoperand⟩
  · obtain ⟨us, rfl, hwhole⟩ := sound_call sound hend hlen hr
    exact ⟨us, rfl, .call hwhole⟩

theorem sound_chainFrom {op? : Kind → Option Joint} {levels : List (Kind → Option Joint)}
    {operand : Parser Expr}
    (sound : ∀ {ts e rest}, ts.length ≤ n → operand.Reads s ts e rest →
      Takes (Joined levels s.depth · e) ts rest) {bound : Nat} :
    ∀ {pre ts : List Token} {left e : Expr}, Joined (op? :: levels) s.depth pre left →
      ts.length ≤ n → (chainFrom op? Joint.join operand bound left).Reads s ts e rest →
      Takes (fun us => Joined (op? :: levels) s.depth (pre ++ us) e) ts rest := by
  induction bound with
  | zero =>
    intro pre ts left e hleft _ hr
    obtain ⟨rfl, rfl⟩ := (reads_pure _ _).1 hr
    exact ⟨[], rfl, by simpa using hleft⟩
  | succ bound ih =>
    intro pre ts left e hleft hlen hr
    rw [reads_chainFrom_succ] at hr
    rcases hr with
      ⟨op, mark, us, right, vs, hmark, rfl, rright, hr⟩ | ⟨-, rfl, rfl⟩
    · simp only [List.length_cons] at hlen
      obtain ⟨us, rfl, hright⟩ := sound (by omega) rright
      simp only [List.length_append] at hlen
      obtain ⟨vs, rfl, hwhole⟩ := ih (.join hleft hmark hright) (by omega) hr
      exact ⟨mark :: us ++ vs, by simp, by simpa using hwhole⟩
    · exact ⟨[], rfl, by simpa using hleft⟩

/-- The induction is on the levels, from the tightest, whose operands are those of the prefix
operators. -/
theorem sound_joined (sound : inner.Sound n) (hend : s.ending.kind = .endOfInput) {bound : Nat} :
    ∀ {levels : List (Kind → Option Joint)} {ts rest : List Token} {e : Expr}, ts.length ≤ n →
      (levels.foldr (fun op? operand => chain bound op? Joint.join operand)
        (unary inner)).Reads s ts e rest →
      Takes (Joined levels s.depth · e) ts rest := by
  intro levels
  induction levels with
  | nil =>
    intro ts rest e hlen hr
    obtain ⟨us, rfl, hwhole⟩ := sound_unary sound hend hlen hr
    exact ⟨us, rfl, .unary hwhole⟩
  | cons op? levels ih =>
    intro ts rest e hlen hr
    rw [List.foldr_cons, chain, reads_bind] at hr
    obtain ⟨left, us, rleft, hr⟩ := hr
    obtain ⟨pre, rfl, hleft⟩ := ih hlen rleft
    simp only [List.length_append] at hlen
    obtain ⟨us, rfl, hwhole⟩ := sound_chainFrom ih (.tighter hleft) (by omega) hr
    exact ⟨pre ++ us, by simp, hwhole⟩

theorem sound_compound (sound : inner.Sound n) (hend : s.ending.kind = .endOfInput) {e : Expr}
    (hlen : ts.length ≤ n) (hr : (compound inner).Reads s ts e rest) :
    Takes (Compound s.depth · e) ts rest := by
  rw [compound, reads_bind] at hr
  obtain ⟨target, us, rtarget, hr⟩ := hr
  obtain ⟨pre, rfl, htarget⟩ := sound_joined sound hend hlen rtarget
  rw [reads_bind] at hr
  obtain ⟨o, vs, ho, hr⟩ := hr
  rcases (reads_accept? _ _).1 ho with ⟨op, mark, rfl, hmark, rfl⟩ | ⟨rfl, rfl, -⟩
  · simp only [reads_bind, reads_nested] at hr
    obtain ⟨value, us, ⟨room, rvalue⟩, hr⟩ := hr
    simp only [List.length_append, List.length_cons] at hlen
    obtain ⟨vs, rfl, hvalue⟩ := sound.compound (s := { s with depth := s.depth + 1 }) hend
      (by omega) rvalue
    split at hr
    · obtain ⟨rfl, rfl⟩ := (reads_pure _ _).1 hr
      obtain ⟨rfl, hname⟩ := htarget.read_inv
      exact ⟨_ :: mark :: vs, by simp, .combine hname hmark room hvalue⟩
    · obtain ⟨_, _, hreport, -⟩ := (reads_bind _ _ _).1 hr
      exact absurd hreport (not_reads_reportAt _ _ _)
  · obtain ⟨rfl, rfl⟩ := (reads_pure _ _).1 hr
    exact ⟨pre, rfl, .joined htarget⟩

theorem sound_operand (sound : inner.Sound n) (hend : s.ending.kind = .endOfInput) {e : Expr}
    (hlen : ts.length ≤ n) (hr : (operand inner).Reads s ts e rest) :
    Takes (Operand s.depth · e) ts rest := by
  rw [operand, reads_bind] at hr
  obtain ⟨o, us, ho, hr⟩ := hr
  rcases (reads_accept _ _).1 ho with ⟨keyword, rfl, hkeyword, rfl⟩ | ⟨rfl, rfl, -⟩
  · simp only [reads_bind, reads_pure] at hr
    obtain ⟨part, vs, rpart, rfl, rfl⟩ := hr
    obtain ⟨us, rfl, hpart⟩ := sound_functionRest sound hend hlen rpart
    exact ⟨keyword :: us, rfl, .function hkeyword hpart⟩
  · obtain ⟨us, rfl, hwhole⟩ := sound_compound sound hend hlen hr
    exact ⟨us, rfl, .compound hwhole⟩

theorem sound_assignment (sound : inner.Sound n) (hend : s.ending.kind = .endOfInput) {e : Expr}
    (hlen : ts.length ≤ n) (hr : (assignment inner).Reads s ts e rest) :
    Takes (Assignment s.depth · e) ts rest := by
  rw [assignment, reads_bind] at hr
  obtain ⟨target, us, rtarget, hr⟩ := hr
  obtain ⟨pre, rfl, htarget⟩ := sound_operand sound hend hlen rtarget
  rw [reads_bind] at hr
  obtain ⟨o, vs, ho, hr⟩ := hr
  rcases (reads_accept _ _).1 ho with ⟨mark, rfl, hmark, rfl⟩ | ⟨rfl, rfl, -⟩
  · simp only [reads_bind, reads_nested] at hr
    obtain ⟨value, us, ⟨room, rvalue⟩, hr⟩ := hr
    simp only [List.length_append, List.length_cons] at hlen
    obtain ⟨vs, rfl, hvalue⟩ := sound.assignment (s := { s with depth := s.depth + 1 }) hend
      (by omega) rvalue
    split at hr
    · obtain ⟨rfl, rfl⟩ := (reads_pure _ _).1 hr
      obtain ⟨rfl, hname⟩ := htarget.read_inv
      exact ⟨_ :: mark :: vs, by simp, .assign hname hmark room hvalue⟩
    · obtain ⟨_, _, hreport, -⟩ := (reads_bind _ _ _).1 hr
      exact absurd hreport (not_reads_reportAt _ _ _)
  · obtain ⟨rfl, rfl⟩ := (reads_pure _ _).1 hr
    exact ⟨pre, rfl, .operand htarget⟩

theorem sound_expression (sound : inner.Sound n) (hend : s.ending.kind = .endOfInput) {e : Expr}
    (hlen : ts.length ≤ n) (hr : (expression inner).Reads s ts e rest) :
    Takes (Expression s.depth · e) ts rest := by
  rw [expression, reads_nested] at hr
  obtain ⟨room, hr⟩ := hr
  obtain ⟨us, rfl, hinside⟩ :=
    sound_assignment (s := { s with depth := s.depth + 1 }) sound hend hlen hr
  exact ⟨us, rfl, .nest room hinside⟩

/-! ## Statements -/

theorem sound_expressionStatement (sound : inner.Sound n) (hend : s.ending.kind = .endOfInput)
    {st : Stmt} (hlen : ts.length ≤ n) (hr : (expressionStatement inner).Reads s ts st rest) :
    Takes (ExpressionStatement s.depth · st) ts rest := by
  simp only [expressionStatement, reads_bind, reads_consume, reads_pure] at hr
  obtain ⟨value, us, rvalue, closing, vs, ⟨hclosing, rfl⟩, rfl, rfl⟩ := hr
  obtain ⟨us, rfl, hvalue⟩ := sound_expression sound hend hlen rvalue
  exact ⟨us ++ [closing], by simp, .mk hvalue hclosing⟩

theorem sound_clause (sound : inner.Sound n) (hend : s.ending.kind = .endOfInput) {ending : Kind}
    {value : Option Expr} (hlen : ts.length < n)
    (hr : (clause inner ending).Reads s ts value rest) :
    Takes (Clause s.depth · value) ts rest := by
  simp only [clause, reads_bind, reads_peek] at hr
  obtain ⟨_, _, ⟨rfl, rfl⟩, hr⟩ := hr
  split at hr
  · obtain ⟨rfl, rfl⟩ := (reads_pure _ _).1 hr
    exact ⟨[], rfl, .none⟩
  · simp only [reads_bind, reads_pure] at hr
    obtain ⟨e, us, re, rfl, rfl⟩ := hr
    obtain ⟨us, rfl, he⟩ := sound.expression hend hlen re
    exact ⟨us, rfl, .some he⟩

theorem sound_letRest (sound : inner.Sound n) (hend : s.ending.kind = .endOfInput)
    {keyword : Token} {st : Stmt} (hlen : ts.length < n)
    (hr : (letRest inner keyword).Reads s ts st rest) :
    Takes (LetRest s.depth keyword · st) ts rest := by
  simp only [letRest, reads_bind, reads_consume, reads_pure] at hr
  obtain ⟨name, us, ⟨hname, rfl⟩, initial, vs, ⟨o, ws, ho, hr⟩, closing, xs, ⟨hclosing, rfl⟩, rfl,
    rfl⟩ := hr
  rcases (reads_accept _ _).1 ho with ⟨mark, rfl, hmark, rfl⟩ | ⟨rfl, rfl, -⟩
  · simp only [reads_bind, reads_pure] at hr
    obtain ⟨e, us, re, rfl, rfl⟩ := hr
    simp only [List.length_cons] at hlen
    obtain ⟨us, rfl, he⟩ := sound.expression hend (by omega) re
    exact ⟨name :: mark :: us ++ [closing], by simp, .initial hname hmark he hclosing⟩
  · obtain ⟨rfl, rfl⟩ := (reads_pure _ _).1 hr
    exact ⟨[name, closing], rfl, .bare hname hclosing⟩

theorem sound_initialClause (sound : inner.Sound n) (hend : s.ending.kind = .endOfInput)
    {initial : Option Stmt} (hlen : ts.length < n)
    (hr : (initialClause inner).Reads s ts initial rest) :
    Takes (InitialClause s.depth · initial) ts rest := by
  rw [initialClause, reads_bind] at hr
  obtain ⟨o, us, ho, hr⟩ := hr
  rcases (reads_accept _ _).1 ho with ⟨closing, rfl, hclosing, rfl⟩ | ⟨rfl, rfl, -⟩
  · obtain ⟨rfl, rfl⟩ := (reads_pure _ _).1 hr
    exact ⟨[closing], rfl, .none hclosing⟩
  · simp only [reads_bind] at hr
    obtain ⟨o, us, ho, hr⟩ := hr
    rcases (reads_accept _ _).1 ho with ⟨keyword, rfl, hkeyword, rfl⟩ | ⟨rfl, rfl, -⟩
    · simp only [reads_bind, reads_pure] at hr
      obtain ⟨st, vs, rst, rfl, rfl⟩ := hr
      simp only [List.length_cons] at hlen
      obtain ⟨us, rfl, hst⟩ := sound_letRest sound hend (by omega) rst
      exact ⟨keyword :: us, rfl, .define hkeyword hst⟩
    · simp only [reads_bind, reads_pure] at hr
      obtain ⟨st, vs, rst, rfl, rfl⟩ := hr
      obtain ⟨us, rfl, hst⟩ := sound_expressionStatement sound hend (by omega) rst
      exact ⟨us, rfl, .expression hst⟩

/-- The form of a statement that may be followed by `rest`. -/
def FormBefore (rest : List Token) (d : Nat) (ts : List Token) (st : Stmt) : Prop :=
  ∃ dangling, StatementForm dangling d ts st ∧
    (dangling = true → nextKind? rest ≠ some .elseWord)

theorem sound_forRest (sound : inner.Sound n) (hend : s.ending.kind = .endOfInput)
    {keyword : Token} {st : Stmt} (hkeyword : keyword.kind = .forWord) (hlen : ts.length < n)
    (hr : (forRest inner keyword).Reads s ts st rest) :
    Takes (fun us => FormBefore rest s.depth (keyword :: us) st) ts rest := by
  simp only [forRest, reads_bind, reads_consume, reads_pure] at hr
  obtain ⟨opening, us, ⟨hopening, rfl⟩, initial, vs, rinitial, condition, ws, rcondition, middle,
    xs, ⟨hmiddle, rfl⟩, step, ys, rstep, closing, zs, ⟨hclosing, rfl⟩, body, rest, rbody, rfl,
    rfl⟩ := hr
  simp only [List.length_cons] at hlen
  obtain ⟨us, rfl, hinitial⟩ := sound_initialClause sound hend (by omega) rinitial
  simp only [List.length_append] at hlen
  obtain ⟨vs, rfl, hcondition⟩ := sound_clause sound hend (by omega) rcondition
  simp only [List.length_append, List.length_cons] at hlen
  obtain ⟨ws, rfl, hstep⟩ := sound_clause sound hend (by omega) rstep
  simp only [List.length_append, List.length_cons] at hlen
  obtain ⟨xs, rfl, dangling, hbody, hnext⟩ := sound.statement hend (by omega) rbody
  exact ⟨opening :: us ++ vs ++ middle :: ws ++ closing :: xs, by simp, dangling,
    .forLoop hkeyword hopening hinitial hcondition hmiddle hstep hclosing hbody, hnext⟩

theorem sound_ifRest (sound : inner.Sound n) (hend : s.ending.kind = .endOfInput)
    {keyword : Token} {st : Stmt} (hkeyword : keyword.kind = .ifWord) (hlen : ts.length < n)
    (hr : (ifRest inner keyword).Reads s ts st rest) :
    Takes (fun us => FormBefore rest s.depth (keyword :: us) st) ts rest := by
  simp only [ifRest, reads_bind, reads_consume] at hr
  obtain ⟨opening, us, ⟨hopening, rfl⟩, condition, vs, rcondition, closing, ws, ⟨hclosing, rfl⟩,
    whenTrue, xs, rtrue, o, ys, ho, hr⟩ := hr
  simp only [List.length_cons] at hlen
  obtain ⟨us, rfl, hcondition⟩ := sound.expression hend (by omega) rcondition
  simp only [List.length_append, List.length_cons] at hlen
  obtain ⟨vs, rfl, dangling, htrue, hnext⟩ := sound.statement hend (by omega) rtrue
  rcases (reads_accept _ _).1 ho with ⟨middle, rfl, hmiddle, rfl⟩ | ⟨rfl, rfl, helse⟩
  · simp only [reads_bind, reads_pure] at hr
    obtain ⟨whenFalse, zs, rfalse, rfl, rfl⟩ := hr
    simp only [List.length_append, List.length_cons] at hlen
    obtain ⟨xs, rfl, dangling', hfalse, hnext'⟩ := sound.statement hend (by omega) rfalse
    -- an `else` is next, so the first part cannot be one that would take it
    obtain rfl : dangling = false := by
      cases dangling
      · rfl
      · exact absurd (by simp [hmiddle]) (hnext rfl)
    exact ⟨opening :: us ++ closing :: vs ++ middle :: xs, by simp, dangling',
      .branchElse hkeyword hopening hcondition hclosing htrue hmiddle hfalse, hnext'⟩
  · obtain ⟨rfl, rfl⟩ := (reads_pure _ _).1 hr
    exact ⟨opening :: us ++ closing :: vs, by simp, true,
      .branch hkeyword hopening hcondition hclosing htrue, fun _ => helse⟩

theorem sound_whileRest (sound : inner.Sound n) (hend : s.ending.kind = .endOfInput)
    {keyword : Token} {st : Stmt} (hkeyword : keyword.kind = .whileWord) (hlen : ts.length < n)
    (hr : (whileRest inner keyword).Reads s ts st rest) :
    Takes (fun us => FormBefore rest s.depth (keyword :: us) st) ts rest := by
  simp only [whileRest, reads_bind, reads_consume, reads_pure] at hr
  obtain ⟨opening, us, ⟨hopening, rfl⟩, condition, vs, rcondition, closing, ws, ⟨hclosing, rfl⟩,
    body, rest, rbody, rfl, rfl⟩ := hr
  simp only [List.length_cons] at hlen
  obtain ⟨us, rfl, hcondition⟩ := sound.expression hend (by omega) rcondition
  simp only [List.length_append, List.length_cons] at hlen
  obtain ⟨vs, rfl, dangling, hbody, hnext⟩ := sound.statement hend (by omega) rbody
  exact ⟨opening :: us ++ closing :: vs, by simp, dangling,
    .loop hkeyword hopening hcondition hclosing hbody, hnext⟩

theorem sound_returnRest (sound : inner.Sound n) (hend : s.ending.kind = .endOfInput)
    {keyword : Token} {st : Stmt} (hkeyword : keyword.kind = .returnWord) (hlen : ts.length < n)
    (hr : (returnRest inner keyword).Reads s ts st rest) :
    Takes (fun us => StatementForm false s.depth (keyword :: us) st) ts rest := by
  simp only [returnRest, reads_bind, reads_consume, reads_pure] at hr
  obtain ⟨value, us, rvalue, closing, vs, ⟨hclosing, rfl⟩, rfl, rfl⟩ := hr
  obtain ⟨us, rfl, hvalue⟩ := sound_clause sound hend hlen rvalue
  exact ⟨us ++ [closing], by simp, .leave hkeyword hvalue hclosing⟩

/-- A form without an open branch may be followed by anything. -/
theorem formBefore_of_closed {d : Nat} {us : List Token} {st : Stmt}
    (h : StatementForm false d us st) : FormBefore rest d us st :=
  ⟨false, h, nofun⟩

theorem sound_statementRest (sound : inner.Sound n) (hend : s.ending.kind = .endOfInput)
    {form : Rules → Token → Parser Stmt} {t : Token} {st : Stmt}
    (hform : statementRest? t.kind = some form) (hlen : ts.length < n)
    (hr : (form inner t).Reads s ts st rest) :
    Takes (fun us => FormBefore rest s.depth (t :: us) st) ts rest := by
  unfold statementRest? at hform
  split at hform
  case h_8 => cases hform
  all_goals
    rename_i hk
    obtain rfl := Option.some.inj hform
  case h_1 => exact sound_forRest sound hend hk hlen hr
  case h_2 => exact sound_ifRest sound hend hk hlen hr
  case h_3 =>
    obtain ⟨us, rfl, hst⟩ := sound_returnRest sound hend hk hlen hr
    exact ⟨us, rfl, formBefore_of_closed hst⟩
  case h_4 => exact sound_whileRest sound hend hk hlen hr
  case h_5 =>
    simp only [reads_bind, reads_consume, reads_pure] at hr
    obtain ⟨closing, us, ⟨hclosing, rfl⟩, rfl, rfl⟩ := hr
    exact ⟨[closing], rfl, formBefore_of_closed (.breakLoop hk hclosing)⟩
  case h_6 =>
    simp only [reads_bind, reads_consume, reads_pure] at hr
    obtain ⟨closing, us, ⟨hclosing, rfl⟩, rfl, rfl⟩ := hr
    exact ⟨[closing], rfl, formBefore_of_closed (.continueLoop hk hclosing)⟩
  case h_7 =>
    simp only [reads_bind, reads_pure] at hr
    obtain ⟨⟨body, closing⟩, us, rbody, rfl, rfl⟩ := hr
    obtain ⟨us, rfl, hbody⟩ := sound_blockRest sound hend hlen rbody
    exact ⟨us, rfl, formBefore_of_closed (.block hk hbody)⟩

theorem sound_statement (sound : inner.Sound n) (hend : s.ending.kind = .endOfInput) {st : Stmt}
    (hlen : ts.length ≤ n) (hr : (statement inner).Reads s ts st rest) :
    Takes (StatementBefore rest s.depth · st) ts rest := by
  have hnest (room : s.depth < maxNesting)
      (h : Takes (FormBefore rest (s.depth + 1) · st) ts rest) :
      Takes (StatementBefore rest s.depth · st) ts rest := by
    obtain ⟨us, rfl, dangling, hform, hnext⟩ := h
    exact ⟨us, rfl, dangling, .nest room hform, hnext⟩
  have hexpression {s : Surroundings} (hend : s.ending.kind = .endOfInput)
      (hr : (expressionStatement inner).Reads s ts st rest) :
      Takes (FormBefore rest s.depth · st) ts rest := by
    obtain ⟨us, rfl, hst⟩ := sound_expressionStatement sound hend hlen hr
    exact ⟨us, rfl, formBefore_of_closed (.expression hst)⟩
  cases ts with
  | nil =>
    obtain ⟨room, hr⟩ := (reads_nested _ _).1 hr
    simp only [reads_bind, reads_peek] at hr
    obtain ⟨_, _, ⟨rfl, rfl⟩, hr⟩ := hr
    simp only [List.headD_nil, hend] at hr
    exact hnest room (hexpression (s := { s with depth := s.depth + 1 }) hend hr)
  | cons t ts =>
    unfold Reads at hr
    rw [statement_cons] at hr
    obtain ⟨room, hr⟩ := (reads_nested _ _).1 hr
    refine hnest room ?_
    cases hform : statementRest? t.kind with
    | some form =>
      simp only [hform, reads_bind, reads_skip] at hr
      obtain ⟨_, _, rfl, hr⟩ := hr
      obtain ⟨us, rfl, hst⟩ := sound_statementRest (s := { s with depth := s.depth + 1 }) sound hend
        hform hlen hr
      exact ⟨t :: us, rfl, hst⟩
    | none =>
      rw [hform] at hr
      exact hexpression (s := { s with depth := s.depth + 1 }) hend hr

theorem sound_declaration (sound : inner.Sound n) (hend : s.ending.kind = .endOfInput)
    {o : Option Stmt} (hlen : ts.length ≤ n) (hr : (declaration inner).Reads s ts o rest) :
    ∃ st, o = some st ∧ Takes (Declaration s.depth · st) ts rest := by
  rw [declaration, reads_recovering] at hr
  obtain ⟨st, rfl, hr⟩ := hr
  refine ⟨st, rfl, ?_⟩
  rw [declarationForm, reads_bind] at hr
  obtain ⟨o, us, ho, hr⟩ := hr
  rcases (reads_functionStart? _).1 ho with ⟨keyword, name, rfl, hkeyword, hname, rfl⟩ |
    ⟨rfl, rfl, -⟩
  · simp only [reads_bind, reads_pure] at hr
    obtain ⟨part, vs, rpart, rfl, rfl⟩ := hr
    simp only [List.length_cons] at hlen
    obtain ⟨us, rfl, hpart⟩ := sound_functionRest sound hend (by omega) rpart
    exact ⟨keyword :: name :: us, rfl, .function hkeyword hname hpart⟩
  · simp only [reads_bind] at hr
    obtain ⟨o, us, ho, hr⟩ := hr
    rcases (reads_accept _ _).1 ho with ⟨keyword, rfl, hkeyword, rfl⟩ | ⟨rfl, rfl, -⟩
    · obtain ⟨us, rfl, hst⟩ := sound_letRest sound hend hlen hr
      exact ⟨keyword :: us, rfl, .define hkeyword hst⟩
    · obtain ⟨us, rfl, dangling, hst, -⟩ := sound_statement sound hend hlen hr
      exact ⟨us, rfl, .statement hst⟩

end Production

end

/-! ## Levels -/

namespace Rules

theorem sound_ground : ground.Sound 0 where
  bound := rfl
  expression _ h := absurd h (Nat.not_lt_zero _)
  assignment _ h := absurd h (Nat.not_lt_zero _)
  compound _ h := absurd h (Nat.not_lt_zero _)
  unary _ h := absurd h (Nat.not_lt_zero _)
  statement _ h := absurd h (Nat.not_lt_zero _)
  declaration _ h := absurd h (Nat.not_lt_zero _)

theorem Sound.next {inner : Rules} {n : Nat} (sound : inner.Sound n) :
    inner.next.Sound (n + 1) where
  bound := congrArg (· + 1) sound.bound
  expression hend h hr := Production.sound_expression sound hend (Nat.le_of_lt_succ h) hr
  assignment hend h hr := Production.sound_assignment sound hend (Nat.le_of_lt_succ h) hr
  compound hend h hr := Production.sound_compound sound hend (Nat.le_of_lt_succ h) hr
  unary hend h hr := Production.sound_unary sound hend (Nat.le_of_lt_succ h) hr
  statement hend h hr := Production.sound_statement sound hend (Nat.le_of_lt_succ h) hr
  declaration hend h hr := Production.sound_declaration sound hend (Nat.le_of_lt_succ h) hr

/-- Level `n` reads fewer than `n` tokens soundly. -/
theorem sound_level : ∀ n, (level n).Sound n
  | 0 => sound_ground
  | n + 1 => (sound_level n).next

end Rules

end Scripting
