import Scripting.Parser.Program

/-!
# Where faults of the arrangement are reported

* `Diagnostic.PointsFrom S` : the diagnostic tells a fault of the arrangement at a token with `S`;
* `Parser.Blames S Q p` : reading tokens with `S`, a parser reports and stops at such tokens only,
  leaves such tokens, and gives a result with `Q` (`Blames.bind`, and one lemma for each parser);
* `Rules.blames_level` : so it is for the rules of the grammar;
* `Program.read_blames` : the faults of a program are at its tokens.
-/

namespace Scripting

set_option autoImplicit false

/-- The diagnostic tells a fault of the arrangement of tokens at one with `S`. -/
def Diagnostic.PointsFrom (S : Token → Prop) (d : Diagnostic) : Prop :=
  ∃ fault t, S t ∧ d = .atToken (.parse fault) t

/-- The result has `Q`, or the fault in its place is at a token with `S`, as all reports are; what
is left are tokens with `S`. -/
structure Reading.Blames {α : Type} (S : Token → Prop) (Q : α → Prop) (r : Reading α) : Prop where
  ok : ∀ a, r.result = .ok a → Q a
  error : ∀ d, r.result = .error d → d.PointsFrom S
  rest : ∀ t ∈ r.rest, S t
  reports : ∀ d ∈ r.reports, d.PointsFrom S

namespace Reading.Blames

variable {α : Type} {S : Token → Prop} {Q : α → Prop} {rest : List Token}
  {reports : List Diagnostic}

theorem of_ok {a : α} (ha : Q a) (hrest : ∀ t ∈ rest, S t)
    (hreports : ∀ d ∈ reports, d.PointsFrom S) : Blames S Q ⟨.ok a, rest, reports⟩ where
  ok b hb := Except.ok.inj hb ▸ ha
  error _ hd := by cases hd
  rest := hrest
  reports := hreports

theorem of_error {d : Diagnostic} (hd : d.PointsFrom S) (hrest : ∀ t ∈ rest, S t)
    (hreports : ∀ d ∈ reports, d.PointsFrom S) : Blames S Q ⟨.error d, rest, reports⟩ where
  ok _ ha := by cases ha
  error e he := Except.error.inj he ▸ hd
  rest := hrest
  reports := hreports

end Reading.Blames

namespace Parser

open Reading.Blames (of_ok of_error)

variable {α β ω : Type} {S : Token → Prop} {Q : α → Prop} {R : β → Prop}

/-- Reading tokens with `S`, the parser reports and stops at such tokens only, leaves such tokens,
and gives a result with `Q`. -/
def Blames (S : Token → Prop) (Q : α → Prop) (p : Parser α) : Prop :=
  ∀ s ts, S s.ending → (∀ t ∈ ts, S t) → (p s ts).Blames S Q

/-- A parser of which only the faults matter. -/
abbrev Blameless (S : Token → Prop) (p : Parser α) : Prop := p.Blames S fun _ => True

/-! ## Sequences -/

theorem Blames.pure {a : α} (ha : Q a) : (Pure.pure a : Parser α).Blames S Q :=
  fun _ _ _ hts => of_ok ha hts (List.forall_mem_nil _)

theorem Blames.bind {p : Parser α} {f : α → Parser β} (hp : p.Blames S Q)
    (hf : ∀ a, Q a → (f a).Blames S R) : (p >>= f).Blames S R := by
  intro s ts hend hts
  obtain ⟨hok, herror, hrest, hreports⟩ := hp s ts hend hts
  simp only [Bind.bind]
  rcases hr : p s ts with ⟨d | a, rest, reports⟩
  · rw [hr] at herror hrest hreports
    exact of_error (herror d rfl) hrest hreports
  · rw [hr] at hok hrest hreports
    obtain ⟨hok', herror', hrest', hreports'⟩ := hf a (hok a rfl) s rest hend hrest
    exact ⟨hok', herror', hrest', List.forall_mem_append.2 ⟨hreports, hreports'⟩⟩

/-! ## The next token -/

theorem blames_peek : peek.Blames S S := by
  intro s ts hend hts
  refine of_ok ?_ hts (List.forall_mem_nil _)
  cases ts with
  | nil => exact hend
  | cons t ts => exact hts t List.mem_cons_self

theorem blames_accept? (f : Kind → Option ω) : (accept? f).Blames S fun o => ∀ x ∈ o, S x.2 := by
  intro s ts _ hts
  have hnone : ∀ x ∈ (none : Option (ω × Token)), S x.2 := by simp
  cases ts with
  | nil => exact of_ok hnone hts (List.forall_mem_nil _)
  | cons t ts =>
    unfold accept?
    dsimp only
    cases f t.kind with
    | some a =>
      rw [List.forall_mem_cons] at hts
      exact of_ok (by simpa using hts.1) hts.2 (List.forall_mem_nil _)
    | none => exact of_ok hnone hts (List.forall_mem_nil _)

theorem blames_accept (kind : Kind) : (accept kind).Blames S fun o => ∀ t ∈ o, S t := by
  intro s ts _ hts
  have hnone : ∀ t ∈ (none : Option Token), S t := by simp
  cases ts with
  | nil => exact of_ok hnone hts (List.forall_mem_nil _)
  | cons t ts =>
    unfold accept
    dsimp only
    split
    · rw [List.forall_mem_cons] at hts
      exact of_ok (by simpa using hts.1) hts.2 (List.forall_mem_nil _)
    · exact of_ok hnone hts (List.forall_mem_nil _)

theorem blames_skip : skip.Blameless S := fun _ _ _ hts =>
  of_ok trivial (fun t ht => hts t (List.mem_of_mem_tail ht)) (List.forall_mem_nil _)

theorem blames_failAt (fault : ParseFault) {t : Token} (ht : S t) :
    (failAt fault t : Parser α).Blames S Q :=
  fun _ _ _ hts => of_error ⟨fault, t, ht, rfl⟩ hts (List.forall_mem_nil _)

theorem blames_reportAt (fault : ParseFault) {t : Token} (ht : S t) :
    (reportAt fault t).Blameless S :=
  fun _ _ _ hts => of_ok trivial hts (List.forall_mem_singleton.2 ⟨fault, t, ht, rfl⟩)

theorem blames_fail (fault : ParseFault) : (fail fault : Parser α).Blames S Q :=
  blames_peek.bind fun _ ht => blames_failAt fault ht

theorem blames_consume (kind : Kind) (fault : ParseFault) : (consume kind fault).Blames S S := by
  refine (blames_accept kind).bind fun o ho => ?_
  cases o with
  | some t => exact .pure (ho t rfl)
  | none => exact blames_fail fault

/-! ## Depth and recovery -/

theorem blames_nested {p : Parser α} (hp : p.Blames S Q) : (nested p).Blames S Q := by
  intro s ts hend hts
  unfold nested
  split
  · exact blames_fail _ s ts hend hts
  · exact hp _ ts hend hts

theorem mem_of_mem_resumeAfter {last t : Token} {ts : List Token} (h : t ∈ resumeAfter last ts) :
    t ∈ ts := by
  fun_induction resumeAfter last ts with
  | case1 => exact h
  | case2 => exact h
  | case3 _ _ _ _ ih => exact List.mem_cons_of_mem _ (ih h)

theorem mem_of_mem_resume {t : Token} {ts : List Token} (h : t ∈ resume ts) : t ∈ ts := by
  cases ts with
  | nil => exact h
  | cons u us => exact List.mem_cons_of_mem _ (mem_of_mem_resumeAfter h)

/-- The fault at which a parser stops becomes a report. -/
theorem blames_recovering {p : Parser α} (hp : p.Blames S Q) : (recovering p).Blameless S := by
  intro s ts hend hts
  obtain ⟨-, herror, hrest, hreports⟩ := hp s ts hend hts
  unfold recovering
  rcases hr : p s ts with ⟨d | a, rest, reports⟩
  · rw [hr] at herror hrest hreports
    refine of_ok trivial (fun t ht => hrest t (mem_of_mem_resume ht)) ?_
    exact List.forall_mem_append.2 ⟨hreports, List.forall_mem_singleton.2 (herror d rfl)⟩
  · rw [hr] at hrest hreports
    exact of_ok trivial hrest hreports

/-! ## Repetition -/

theorem blames_chainFrom {op? : Kind → Option ω} {join : ω → Token → α → α → α}
    {operand : Parser α} (hoperand : operand.Blameless S) (bound : Nat) (left : α) :
    (chainFrom op? join operand bound left).Blameless S := by
  induction bound generalizing left with
  | zero => exact .pure trivial
  | succ bound ih =>
    refine (blames_accept? op?).bind fun o _ => ?_
    cases o with
    | some x => exact hoperand.bind fun right _ => ih _
    | none => exact .pure trivial

theorem blames_chain {op? : Kind → Option ω} {join : ω → Token → α → α → α} {operand : Parser α}
    (hoperand : operand.Blameless S) (bound : Nat) :
    (chain bound op? join operand).Blameless S :=
  hoperand.bind fun left _ => blames_chainFrom hoperand bound left

theorem blames_itemsFrom {item : Parser α} (hitem : item.Blames S Q) (tooMany : ParseFault)
    (bound count : Nat) : (itemsFrom item tooMany bound count).Blameless S := by
  induction bound generalizing count with
  | zero => exact .pure trivial
  | succ bound ih =>
    rw [itemsFrom]
    split
    -- Both branches take the same turn, the first behind a report.
    focus refine blames_peek.bind fun t ht => (blames_reportAt tooMany ht).bind fun _ _ => ?_
    all_goals
      refine hitem.bind fun first _ => (blames_accept .comma).bind fun o _ => ?_
      cases o with
      | some comma => exact (ih (count + 1)).bind fun _ _ => .pure trivial
      | none => exact .pure trivial

theorem blames_items {item : Parser α} (hitem : item.Blames S Q) (bound : Nat)
    (tooMany : ParseFault) : (items bound item tooMany).Blameless S := by
  refine blames_peek.bind fun t _ => ?_
  split
  · exact .pure trivial
  · exact blames_itemsFrom hitem tooMany bound 0

theorem blames_declarations {declaration : Parser (Option α)}
    (hdeclaration : declaration.Blameless S) (inBlock : Bool) (bound : Nat) :
    (declarations declaration inBlock bound).Blameless S := by
  induction bound with
  | zero => exact .pure trivial
  | succ bound ih =>
    refine blames_peek.bind fun t _ => ?_
    split
    · exact .pure trivial
    · exact hdeclaration.bind fun _ _ => ih.bind fun _ _ => .pure trivial

end Parser

/-! ## Productions -/

open Scripting.Parser

/-- The rules report and stop at tokens with `S` only. -/
structure Rules.Blames (S : Token → Prop) (rules : Rules) : Prop where
  expression : rules.expression.Blameless S
  assignment : rules.assignment.Blameless S
  compound : rules.compound.Blameless S
  unary : rules.unary.Blameless S
  statement : rules.statement.Blameless S
  declaration : rules.declaration.Blameless S

namespace Production

variable {S : Token → Prop} {inner : Rules} (h : inner.Blames S)

include h

theorem blames_blockRest : (blockRest inner).Blameless S :=
  (blames_declarations h.declaration true _).bind fun _ _ =>
    (blames_consume _ _).bind fun _ _ => .pure trivial

theorem blames_functionRest (beforeParameters beforeBody : ParseFault) :
    (functionRest inner beforeParameters beforeBody).Blameless S :=
  (blames_consume _ _).bind fun _ _ => (blames_items (blames_consume _ _) _ _).bind fun _ _ =>
    (blames_consume _ _).bind fun _ _ => (blames_consume _ _).bind fun _ _ =>
      (blames_blockRest h).bind fun _ _ => .pure trivial

/-! ### Expressions -/

theorem blames_primary : (primary inner).Blameless S := by
  refine blames_peek.bind fun t ht => ?_
  split
  · exact blames_skip.bind fun _ _ => .pure trivial
  · split
    · exact blames_skip.bind fun _ _ => .pure trivial
    · exact blames_skip.bind fun _ _ => h.expression.bind fun _ _ =>
        (blames_consume _ _).bind fun _ _ => .pure trivial
    · exact blames_failAt _ ht

theorem blames_callFrom (bound : Nat) (callee : Expr) :
    (callFrom inner bound callee).Blameless S := by
  induction bound generalizing callee with
  | zero => exact .pure trivial
  | succ bound ih =>
    refine (blames_accept _).bind fun o _ => ?_
    cases o with
    | some opening =>
      exact (blames_items h.expression _ _).bind fun _ _ =>
        (blames_consume _ _).bind fun _ _ => ih _
    | none => exact .pure trivial

theorem blames_unary : (unary inner).Blameless S := by
  refine (blames_accept? _).bind fun o _ => ?_
  cases o with
  | some x => exact (blames_nested h.unary).bind fun _ _ => .pure trivial
  | none => exact (blames_primary h).bind fun callee _ => blames_callFrom h _ callee

theorem blames_joined : (joined inner).Blameless S := by
  unfold joined
  dsimp only
  induction Joint.levels with
  | nil => exact blames_unary h
  | cons op? levels ih => exact blames_chain ih _

theorem blames_compound : (compound inner).Blameless S := by
  refine (blames_joined h).bind fun target _ => (blames_accept? _).bind fun o ho => ?_
  cases o with
  | none => exact .pure trivial
  | some x =>
    refine (blames_nested h.compound).bind fun value _ => ?_
    cases target with
    | read name => exact .pure trivial
    | _ => exact (blames_reportAt _ (ho x rfl)).bind fun _ _ => .pure trivial

theorem blames_operand : (operand inner).Blameless S := by
  refine (blames_accept _).bind fun o _ => ?_
  cases o with
  | some keyword => exact (blames_functionRest h _ _).bind fun _ _ => .pure trivial
  | none => exact blames_compound h

theorem blames_assignment : (assignment inner).Blameless S := by
  refine (blames_operand h).bind fun target _ => (blames_accept _).bind fun o ho => ?_
  cases o with
  | none => exact .pure trivial
  | some mark =>
    refine (blames_nested h.assignment).bind fun value _ => ?_
    cases target with
    | read name => exact .pure trivial
    | _ => exact (blames_reportAt _ (ho mark rfl)).bind fun _ _ => .pure trivial

theorem blames_expression : (expression inner).Blameless S := blames_nested (blames_assignment h)

/-! ### Statements -/

theorem blames_expressionStatement : (expressionStatement inner).Blameless S :=
  (blames_expression h).bind fun _ _ => (blames_consume _ _).bind fun _ _ => .pure trivial

theorem blames_letRest (keyword : Token) : (letRest inner keyword).Blameless S := by
  refine (blames_consume _ _).bind fun name _ => Blames.bind (Q := fun _ => True) ?_ fun _ _ =>
    (blames_consume _ _).bind fun _ _ => .pure trivial
  refine (blames_accept _).bind fun o _ => ?_
  cases o with
  | some mark => exact h.expression.bind fun _ _ => .pure trivial
  | none => exact .pure trivial

theorem blames_clause (ending : Kind) : (clause inner ending).Blameless S := by
  refine blames_peek.bind fun t _ => ?_
  split
  · exact .pure trivial
  · exact h.expression.bind fun _ _ => .pure trivial

theorem blames_initialClause : (initialClause inner).Blameless S := by
  refine (blames_accept _).bind fun o _ => ?_
  cases o with
  | some semicolon => exact .pure trivial
  | none =>
    refine (blames_accept _).bind fun o _ => ?_
    cases o with
    | some keyword => exact (blames_letRest h keyword).bind fun _ _ => .pure trivial
    | none => exact (blames_expressionStatement h).bind fun _ _ => .pure trivial

theorem blames_forRest (keyword : Token) : (forRest inner keyword).Blameless S :=
  (blames_consume _ _).bind fun _ _ => (blames_initialClause h).bind fun _ _ =>
    (blames_clause h _).bind fun _ _ => (blames_consume _ _).bind fun _ _ =>
      (blames_clause h _).bind fun _ _ => (blames_consume _ _).bind fun _ _ =>
        h.statement.bind fun _ _ => .pure trivial

theorem blames_ifRest (keyword : Token) : (ifRest inner keyword).Blameless S := by
  refine (blames_consume _ _).bind fun _ _ => h.expression.bind fun _ _ =>
    (blames_consume _ _).bind fun _ _ => h.statement.bind fun _ _ =>
      (blames_accept _).bind fun o _ => ?_
  cases o with
  | some mark => exact h.statement.bind fun _ _ => .pure trivial
  | none => exact .pure trivial

theorem blames_whileRest (keyword : Token) : (whileRest inner keyword).Blameless S :=
  (blames_consume _ _).bind fun _ _ => h.expression.bind fun _ _ =>
    (blames_consume _ _).bind fun _ _ => h.statement.bind fun _ _ => .pure trivial

theorem blames_returnRest (keyword : Token) : (returnRest inner keyword).Blameless S :=
  (blames_clause h _).bind fun _ _ => (blames_consume _ _).bind fun _ _ => .pure trivial

theorem blames_statement : (statement inner).Blameless S := by
  refine blames_nested (blames_peek.bind fun t _ => ?_)
  split
  · exact blames_skip.bind fun _ _ => blames_forRest h t
  · exact blames_skip.bind fun _ _ => blames_ifRest h t
  · exact blames_skip.bind fun _ _ => blames_returnRest h t
  · exact blames_skip.bind fun _ _ => blames_whileRest h t
  · exact blames_skip.bind fun _ _ => (blames_consume _ _).bind fun _ _ => .pure trivial
  · exact blames_skip.bind fun _ _ => (blames_consume _ _).bind fun _ _ => .pure trivial
  · exact blames_skip.bind fun _ _ => (blames_blockRest h).bind fun _ _ => .pure trivial
  · exact blames_expressionStatement h

omit h in
theorem blames_functionStart? : functionStart?.Blameless S := by
  intro s ts _ hts
  unfold functionStart?
  split
  · split
    · simp only [List.forall_mem_cons] at hts
      exact .of_ok trivial hts.2.2 (List.forall_mem_nil _)
    · exact .of_ok trivial hts (List.forall_mem_nil _)
  · exact .of_ok trivial hts (List.forall_mem_nil _)

theorem blames_declarationForm : (declarationForm inner).Blameless S := by
  refine blames_functionStart?.bind fun o _ => ?_
  cases o with
  | some x => exact (blames_functionRest h _ _).bind fun _ _ => .pure trivial
  | none =>
    refine (blames_accept _).bind fun o _ => ?_
    cases o with
    | some keyword => exact blames_letRest h keyword
    | none => exact blames_statement h

end Production

/-! ## Programs -/

/-- The rules of all levels report and stop at tokens that they read, or at the end. -/
theorem Rules.blames_level {S : Token → Prop} (n : Nat) : (level n).Blames S := by
  induction n with
  | zero =>
    exact
      { expression := blames_fail _
        assignment := blames_fail _
        compound := blames_fail _
        unary := blames_fail _
        statement := blames_fail _
        declaration := blames_recovering (Q := fun _ => True) (blames_fail _) }
  | succ n ih =>
    exact
      { expression := Production.blames_expression ih
        assignment := Production.blames_assignment ih
        compound := Production.blames_compound ih
        unary := Production.blames_unary ih
        statement := Production.blames_statement ih
        declaration := blames_recovering (Production.blames_declarationForm ih) }

/-- The faults of a program are at its tokens, or at the token that ends it. -/
theorem Program.read_blames {S : Token → Prop} {ts : List Token} (hend : S (endOf ts))
    (hts : ∀ t ∈ beforeEnd ts, S t) : ∀ d ∈ (read ts).diagnostics, d.PointsFrom S := by
  unfold read readAhead
  dsimp only
  obtain ⟨-, herror, -, hreports⟩ := blames_declarations (Rules.blames_level _).declaration false
    (Rules.level ((beforeEnd ts).length + 1)).bound ⟨endOf ts, 0⟩ (beforeEnd ts) hend hts
  split
  · exact hreports
  · rename_i d hd
    exact List.forall_mem_append.2 ⟨hreports, List.forall_mem_singleton.2 (herror d hd)⟩

end Scripting
