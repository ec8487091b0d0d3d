import Scripting.Proofs.Spans.Alone

/-!
# Assignments that combine

* `Combination` : the tokens of a name combined with a value and assigned again (`short`), and those
  of the same written out with the value in parentheses (`long`);
* `Grammar.Compound.of_combination`, `Grammar.Assignment.of_assign` : how a name with such an
  operator behind it is written;
* `Parser.Reads.behind_operator`, `Parser.Reads.inside_parentheses` : what is read inside operands
  and operators;
* `SameTokens` : the same tokens, perhaps in other places;
* `Combination.forget_shape` : the trees of both have one shape, wherever the tokens stand.

The value is nested less deep in the first than in the second, so the grammar alone cannot carry it
from one to the other. The parser can: it reads the value of the second inside the parentheses, and
what it reads of these tokens where fewer constructs are open is the same.
-/

namespace Scripting

set_option autoImplicit false

open Scripting.Parser Scripting.Grammar Scripting.Production

/-! ## One reading only -/

theorem Parser.Reads.unique {α : Type} {p : Parser α} {s : Surroundings}
    {ts rest rest' : List Token} {a a' : α} (h : p.Reads s ts a rest)
    (h' : p.Reads s ts a' rest') : a' = a ∧ rest' = rest := by
  rw [Reads, h] at h'
  simp only [Reading.mk.injEq, Except.ok.injEq, and_true] at h'
  exact ⟨h'.1.symm, h'.2.symm⟩

/-- However many constructs are open, tokens are read as one expression only. -/
theorem Rules.expression_unique {n d d' : Nat} {ending : Token} {us rest rest' : List Token}
    {e e' : Expr} (hending : ending.kind = .endOfInput) (hlen : us.length < n)
    (h : (level n).expression.Reads ⟨ending, d⟩ us e rest)
    (h' : (level n).expression.Reads ⟨ending, d'⟩ us e' rest') : e' = e ∧ rest' = rest := by
  have agree := (Comparison.shallower.rulesAgree_level (Nat.le_refl n) (Nat.le_refl n)).expression
  rcases Nat.le_total d' d with hle | hle
  · have hsame := agree ⟨ending, d⟩ ⟨ending, d'⟩ us ⟨rfl, hending, hle⟩ hlen trivial
    exact (hsame.reads h).unique h'
  · have hsame := agree ⟨ending, d'⟩ ⟨ending, d⟩ us ⟨rfl, hending, hle⟩ hlen trivial
    exact h.unique (hsame.reads h')

theorem stops_nil {p : Kind → Bool} : Stops p [] := by
  intro k hk
  cases hk

/-! ## Names with an operator behind them -/

namespace CompoundOp

variable {k : Kind} {op : CompoundOp}

/-- What such an operator computes is an operator between operands. -/
theorem exists_level (h : ofKind? k = some op) :
    ∃ op? ∈ Joint.levels, op? op.kind = some (.binary op.op) := by
  cases k <;> cases h
  case minusEqual | plusEqual => exact ⟨Joint.term?, by simp [Joint.levels], rfl⟩
  case slashEqual | starEqual => exact ⟨Joint.factor?, by simp [Joint.levels], rfl⟩

theorem stops_joined (h : ofKind? k = some op) : k.continuesJoined Joint.levels = false := by
  cases k <;> cases h <;> rfl

theorem ne_assign (h : ofKind? k = some op) : k ≠ .assign := by
  cases k <;> cases h <;> exact Kind.noConfusion

theorem kind_ne_assign (h : ofKind? k = some op) : op.kind ≠ .assign := by
  cases k <;> cases h <;> exact Kind.noConfusion

theorem ofKind?_kind (h : ofKind? k = some op) : ofKind? op.kind = none := by
  cases k <;> cases h <;> rfl

end CompoundOp

namespace Grammar

variable {d : Nat} {name mark : Token} {ts : List Token} {e : Expr}

theorem Operand.of_name (hname : name.kind = .identifier) (h : Operand d (name :: ts) e) :
    Compound d (name :: ts) e := by
  cases h with
  | function hkeyword => rw [hkeyword] at hname; cases hname
  | compound whole => exact whole

theorem Assignment.of_name (hname : name.kind = .identifier) (hmark : mark.kind ≠ .assign)
    (h : Assignment d (name :: mark :: ts) e) : Compound d (name :: mark :: ts) e := by
  cases h with
  | operand whole => exact whole.of_name hname
  | assign _ hmark' => exact absurd hmark' hmark

/-- Behind a name, an operator that combines it with a value and assigns it again has the value
behind it. -/
theorem Compound.of_combination {op : CompoundOp} (hname : name.kind = .identifier)
    (hmark : CompoundOp.ofKind? mark.kind = some op) (h : Compound d (name :: mark :: ts) e) :
    d < maxNesting ∧ ∃ value, Compound (d + 1) ts value ∧
      e = .assign (name.span.through value.span) name
        (.binary (name.span.through value.span) op.op (mark.standIn op.kind op.lexeme)
          (.read name) value) := by
  cases h with
  | joined whole =>
    -- operands and operators end before the mark, and so they are not all of the tokens
    have hwhole := (whole.reads separateLevels (s := ⟨default, d⟩) (Nat.le_refl _) rfl).reads
      (Nat.le_refl _) stops_nil
    have hread : (Production.joined (.level (name :: mark :: ts).length)).Reads ⟨default, d⟩
        (name :: mark :: ts) (.read name) (mark :: ts) :=
      reads_joined_name hname (stops_cons (CompoundOp.stops_joined hmark))
    rw [List.append_nil] at hwhole
    cases (hread.unique hwhole).2
  | combine _ hmark' room right =>
    obtain rfl := Option.some.inj (hmark'.symm.trans hmark)
    exact ⟨room, _, right, rfl⟩

/-- Behind a name, the sign that assigns has the value behind it. -/
theorem Assignment.of_assign (hname : name.kind = .identifier) (hmark : mark.kind = .assign)
    (h : Assignment d (name :: mark :: ts) e) :
    ∃ value, Assignment (d + 1) ts value ∧
      e = .assign (name.span.through value.span) name value := by
  cases h with
  | operand whole =>
    -- an operand ends before the sign
    have hwhole := whole.reads (s := ⟨default, d⟩) (Nat.le_refl _) rfl stops_nil
    have hread : (Production.operand (.level (name :: mark :: ts).length)).Reads ⟨default, d⟩
        (name :: mark :: ts) (.read name) (mark :: ts) :=
      reads_operand_name hname (stops_cons (by rw [hmark]; rfl))
    rw [List.append_nil] at hwhole
    cases (hread.unique hwhole).2
  | assign _ _ _ right => exact ⟨_, right, rfl⟩

/-- A name with an operator behind it that does not assign is the first of operands joined by
operators. -/
theorem Assignment.joined_of_name (hname : name.kind = .identifier)
    (hassign : mark.kind ≠ .assign) (hcombine : CompoundOp.ofKind? mark.kind = none)
    (h : Assignment d (name :: mark :: ts) e) : Joined Joint.levels d (name :: mark :: ts) e := by
  cases h.of_name hname hassign with
  | joined whole => exact whole
  | combine _ hmark => rw [hcombine] at hmark; cases hmark

/-! ## Two operands -/

theorem Joined.of_unary (h : Unary d ts e) (levels : List (Kind → Option Joint)) :
    Joined levels d ts e := by
  induction levels with
  | nil => exact .unary h
  | cons _ _ ih => exact .tighter ih

/-- Two operands with an operator of any level between them. -/
theorem Joined.of_two {us : List Token} {l r : Expr} {joint : Joint}
    {levels : List (Kind → Option Joint)} (left : Unary d ts l) (right : Unary d us r)
    {op? : Kind → Option Joint} (hop : op? ∈ levels) (hmark : op? mark.kind = some joint) :
    Joined levels d (ts ++ mark :: us) (joint.join mark l r) := by
  induction levels with
  | nil => cases hop
  | cons op?' levels ih =>
    rcases List.mem_cons.1 hop with rfl | hop
    · exact .join (.of_unary left _) hmark (.of_unary right _)
    · exact .tighter (ih hop)

theorem Joined.unique {e' : Expr} (h : Joined Joint.levels d ts e)
    (h' : Joined Joint.levels d ts e') : e' = e := by
  have hr {e : Expr} (h : Joined Joint.levels d ts e) :
      (joinedWith (.level ts.length) Joint.levels).Reads ⟨default, d⟩ (ts ++ []) e [] :=
    (h.reads separateLevels (Nat.le_refl _) rfl).reads (Nat.le_refl _) stops_nil
  exact ((hr h).unique (hr h')).1

end Grammar

/-! ## Inside operands and operators -/

section

variable {inner : Rules} {s : Surroundings} {us rest : List Token} {e : Expr}
  {levels : List (Kind → Option Joint)}

/-- Behind a name and an operator, an operand of the tighter levels is read. -/
theorem Parser.Reads.behind_operator (hlevels : SeparateLevels levels) {name mark : Token}
    (hname : name.kind = .identifier) {op? : Kind → Option Joint} {joint : Joint}
    (hop : op? ∈ levels) (hmark : op? mark.kind = some joint)
    (h : (joinedWith inner levels).Reads s (name :: mark :: us) e rest) :
    ∃ levels' r vs, (joinedWith inner levels').Reads s us r vs := by
  induction levels generalizing e rest with
  | nil => cases hop
  | cons op?' levels ih =>
    obtain ⟨left, vs, hleft, hchain⟩ := (reads_bind _ _ _).1 h
    rcases List.mem_cons.1 hop with rfl | hop
    · -- the operand before the operator is the name
      have stops : Stops (Kind.continuesJoined levels) (mark :: us) :=
        stops_operator hlevels hmark
      have hread :
          (joinedWith inner levels).Reads s (name :: mark :: us) (.read name) (mark :: us) :=
        reads_joinedWith_of_unary (reads_unary_name hname stops.not_leftParen) stops
      obtain ⟨rfl, rfl⟩ := hread.unique hleft
      rcases (reads_chainFrom_succ _ _ _ _ _ _).1 hchain with
        ⟨joint', mark', us', r, vs, -, heq, hr, -⟩ | ⟨hnone, -, -⟩
      · cases heq
        exact ⟨levels, r, vs, hr⟩
      · rw [hnone mark.kind rfl] at hmark
        cases hmark
    · exact ih hlevels.tail hop hleft

/-- Operands and operators begin with an operand of the prefix operators. -/
theorem Parser.Reads.first_operand (h : (joinedWith inner levels).Reads s us e rest) :
    ∃ l vs, (Production.unary inner).Reads s us l vs := by
  induction levels generalizing e rest with
  | nil => exact ⟨e, rest, h⟩
  | cons op? levels ih =>
    obtain ⟨left, vs, hleft, -⟩ := (reads_bind _ _ _).1 h
    exact ih hleft

/-- Behind an opening parenthesis, an expression is read. -/
theorem Parser.Reads.inside_parentheses {opening : Token} (hopening : opening.kind = .leftParen)
    (h : (joinedWith inner levels).Reads s (opening :: us) e rest) :
    ∃ b vs, inner.expression.Reads s us b vs := by
  obtain ⟨l, vs, hunary⟩ := h.first_operand
  obtain ⟨o, vs', ho, hcall⟩ := (reads_bind _ _ _).1 hunary
  rcases (reads_accept? _ _).1 ho with ⟨op, mark, rfl, hop, heq⟩ | ⟨rfl, rfl, -⟩
  · cases heq
    rw [hopening] at hop
    cases hop
  obtain ⟨callee, ws, hprimary, -⟩ := (reads_bind _ _ _).1 hcall
  obtain ⟨t, ts, ht, hprimary⟩ := (reads_bind _ _ _).1 hprimary
  obtain ⟨rfl, rfl⟩ := (reads_peek t).1 ht
  simp only [List.headD_cons, Token.value?, hopening] at hprimary
  simp only [reads_bind, reads_skip, List.tail_cons] at hprimary
  obtain ⟨-, _, rfl, b, vs, hinside, -⟩ := hprimary
  exact ⟨b, vs, hinside⟩

end

/-! ## Tokens in other places -/

/-- All tokens in one place. -/
def Relabeling.unplaced : Relabeling where
  token t := { t with line := 1, span := ⟨0, 0⟩ }
  kind _ := rfl
  lexeme _ := rfl
  literal _ := rfl

/-- The same tokens, perhaps in other places. -/
def SameTokens (ts ts' : List Token) : Prop :=
  ts'.map Relabeling.unplaced.token = ts.map Relabeling.unplaced.token

/-! ## Combinations -/

/-- The tokens of a name combined with a value and assigned again, and those of the same written
out. -/
structure Combination where
  op : CompoundOp
  name : Token
  mark : Token
  target : Token
  assign : Token
  operand : Token
  sign : Token
  opening : Token
  closing : Token
  value : List Token
  name_kind : name.kind = .identifier
  mark_kind : CompoundOp.ofKind? mark.kind = some op
  target_kind : target.kind = .identifier
  target_lexeme : target.lexeme = name.lexeme
  assign_kind : assign.kind = .assign
  operand_kind : operand.kind = .identifier
  operand_lexeme : operand.lexeme = name.lexeme
  sign_kind : sign.kind = op.kind
  opening_kind : opening.kind = .leftParen
  closing_kind : closing.kind = .rightParen

namespace Combination

variable (C : Combination)

/-- The name, the operator that combines and assigns, and the value. -/
def short : List Token := C.name :: C.mark :: C.value

/-- The name, the sign that assigns, the name again, the operator, and the value in parentheses. -/
def long : List Token :=
  C.target :: C.assign :: C.operand :: C.sign :: C.opening :: (C.value ++ [C.closing])

variable {C} {d d' : Nat} {t t' : Expr}

/-- A value that may stand behind the operator that assigns may stand in the parentheses, if these
may stand where they do. -/
theorem expression_value {e v : Expr} (hvalue : Expression d C.value e)
    (h : Joined Joint.levels d' (C.operand :: C.sign :: C.opening :: (C.value ++ [C.closing])) v) :
    Expression d' C.value e := by
  obtain ⟨n, hn⟩ : ∃ n, n = C.value.length + 4 := ⟨_, rfl⟩
  have hlen : (C.value ++ [C.closing]).length < n := by simp [hn]
  obtain ⟨op?, hop, hsign⟩ := CompoundOp.exists_level C.mark_kind
  -- the parser reads the value inside the parentheses
  have hle : (C.operand :: C.sign :: C.opening :: (C.value ++ [C.closing])).length ≤ n := by
    simp [hn]
  have hwhole := (h.reads separateLevels (s := ⟨default, d'⟩) hle rfl).reads hle stops_nil
  rw [List.append_nil] at hwhole
  obtain ⟨levels', r, vs, hbehind⟩ :=
    hwhole.behind_operator separateLevels C.operand_kind hop (C.sign_kind ▸ hsign)
  obtain ⟨b, vs, hinside⟩ := hbehind.inside_parentheses C.opening_kind
  -- where fewer or more constructs are open, it reads the same
  have hstops : Stops Kind.continuesExpression [C.closing] :=
    stops_continuesExpression (.inr (.inl C.closing_kind))
  have hread := hvalue.reads [C.closing] (n := n) (s := ⟨default, d⟩) (by omega) rfl hstops
  obtain ⟨rfl, rfl⟩ := Rules.expression_unique rfl hlen hread hinside
  obtain ⟨ws, heq, hws⟩ := (Rules.sound_level n).expression rfl hlen hinside
  rwa [← List.append_cancel_right heq] at hws

theorem forget_eq (h : Expression d C.short t) (h' : Expression d' C.long t') :
    t'.forget .shape = t.forget .shape := by
  obtain ⟨room, inside⟩ := h
  obtain ⟨-, inside'⟩ := h'
  have hcompound := inside.of_name C.name_kind (CompoundOp.ne_assign C.mark_kind)
  obtain ⟨room, e, hvalue, rfl⟩ := hcompound.of_combination C.name_kind C.mark_kind
  obtain ⟨v, hright, rfl⟩ := inside'.of_assign C.target_kind C.assign_kind
  have hassign : C.sign.kind ≠ .assign := C.sign_kind ▸ CompoundOp.kind_ne_assign C.mark_kind
  have hcombine : CompoundOp.ofKind? C.sign.kind = none :=
    C.sign_kind ▸ CompoundOp.ofKind?_kind C.mark_kind
  have hjoined := hright.joined_of_name C.operand_kind hassign hcombine
  have hinside := expression_value (.nest room (.operand (.compound hvalue))) hjoined
  obtain ⟨op?, hop, hsign⟩ := CompoundOp.exists_level C.mark_kind
  have htwo := Joined.of_two (.call (.primary (.name C.operand_kind)))
    (.call (.primary (.group C.opening_kind hinside C.closing_kind))) hop (C.sign_kind ▸ hsign)
  obtain rfl := htwo.unique hjoined
  simp [Expr.forget, Joint.join, Forgetting.shape_name C.target_lexeme,
    Forgetting.shape_name C.operand_lexeme]

variable (C) in
/-- The same combination in other places. -/
def relabel (f : Relabeling) : Combination where
  op := C.op
  name := f.token C.name
  mark := f.token C.mark
  target := f.token C.target
  assign := f.token C.assign
  operand := f.token C.operand
  sign := f.token C.sign
  opening := f.token C.opening
  closing := f.token C.closing
  value := C.value.map f.token
  name_kind := (f.kind _).trans C.name_kind
  mark_kind := by rw [f.kind, C.mark_kind]
  target_kind := (f.kind _).trans C.target_kind
  target_lexeme := by rw [f.lexeme, f.lexeme, C.target_lexeme]
  assign_kind := (f.kind _).trans C.assign_kind
  operand_kind := (f.kind _).trans C.operand_kind
  operand_lexeme := by rw [f.lexeme, f.lexeme, C.operand_lexeme]
  sign_kind := (f.kind _).trans C.sign_kind
  opening_kind := (f.kind _).trans C.opening_kind
  closing_kind := (f.kind _).trans C.closing_kind

theorem map_short (f : Relabeling) : C.short.map f.token = (C.relabel f).short := rfl

theorem map_long (f : Relabeling) : C.long.map f.token = (C.relabel f).long := by
  simp [long, relabel]

/-- The trees of both have one shape, wherever the tokens stand. -/
theorem forget_shape {short long : List Token} (hshort : SameTokens C.short short)
    (hlong : SameTokens C.long long) (h : Expression d short t) (h' : Expression d' long t') :
    t'.forget .shape = t.forget .shape := by
  obtain ⟨u, hu, hshape⟩ := h.relabel .unplaced
  obtain ⟨u', hu', hshape'⟩ := h'.relabel .unplaced
  rw [hshort, map_short] at hu
  rw [hlong, map_long] at hu'
  rw [← hshape, ← hshape', forget_eq hu hu']

end Combination

end Scripting
