import Scripting.Parser.Grammar

/-!
# Readings without faults

* `Parser.Reads p s ts a rest` : `p` reads `a` from the tokens `ts`, leaves `rest`, and reports
  nothing;
* `reads_bind`, `reads_accept`, `reads_consume`, `reads_nested`, `reads_recovering` and the like :
  when the primitives and the combinators read without a fault;
* `nextKind?` : the kind of the next token;
* `Production.statementRest?` : what is read behind the token with which a statement begins
  (`statement_of_rest`, `statement_of_no_rest`).
-/

namespace Scripting

set_option autoImplicit false

/-- The kind of the next token. -/
def nextKind? (ts : List Token) : Option Kind := ts.head?.map Token.kind

@[simp] theorem nextKind?_nil : nextKind? [] = none := rfl

@[simp] theorem nextKind?_cons (t : Token) (ts : List Token) : nextKind? (t :: ts) = some t.kind :=
  rfl

namespace Parser

variable {α β ω : Type}

/-- The parser reads `a` from the tokens `ts`, leaves `rest`, and reports nothing. -/
def Reads (p : Parser α) (s : Surroundings) (ts : List Token) (a : α) (rest : List Token) : Prop :=
  p s ts = ⟨.ok a, rest, []⟩

variable {s : Surroundings} {ts rest : List Token}

/-! ## Sequences -/

theorem reads_pure (a b : α) : Reads (pure a) s ts b rest ↔ a = b ∧ ts = rest := by
  simp [Reads, pure]

theorem reads_bind (p : Parser α) (f : α → Parser β) (b : β) :
    Reads (p >>= f) s ts b rest ↔ ∃ a us, p.Reads s ts a us ∧ (f a).Reads s us b rest := by
  unfold Reads
  simp only [bind]
  rcases p s ts with ⟨_ | a, us, reports⟩
  · simp
  · rcases hr : f a s us with ⟨r, vs, more⟩
    constructor
    · intro h
      simp only [hr, Reading.mk.injEq, List.append_eq_nil_iff] at h
      obtain ⟨rfl, rfl, rfl, rfl⟩ := h
      exact ⟨a, us, rfl, hr⟩
    · rintro ⟨a', us', h, h'⟩
      simp only [Reading.mk.injEq, Except.ok.injEq] at h
      obtain ⟨rfl, rfl, rfl⟩ := h
      rw [hr] at h'
      simp only [Reading.mk.injEq] at h'
      simp [hr, h']

/-- Reading one thing and then another. -/
theorem Reads.bind {p : Parser α} {f : α → Parser β} {a : α} {b : β} {us : List Token}
    (h : p.Reads s ts a us) (h' : (f a).Reads s us b rest) : Reads (p >>= f) s ts b rest :=
  (reads_bind p f b).2 ⟨a, us, h, h'⟩

/-! ## The next token -/

theorem reads_peek (t : Token) : peek.Reads s ts t rest ↔ ts.headD s.ending = t ∧ ts = rest := by
  simp [Reads, peek]

theorem reads_skip (u : Unit) : skip.Reads s ts u rest ↔ ts.tail = rest := by
  simp [Reads, skip]

/-- A token is taken if its kind is the one asked for, and only then. -/
theorem reads_accept? (f : Kind → Option ω) (o : Option (ω × Token)) :
    (accept? f).Reads s ts o rest ↔
      (∃ a t, o = some (a, t) ∧ f t.kind = some a ∧ ts = t :: rest) ∨
        o = none ∧ ts = rest ∧ ∀ k ∈ nextKind? ts, f k = none := by
  cases ts with
  | nil => simp [Reads, accept?, eq_comm]
  | cons t us =>
    cases hf : f t.kind with
    | none =>
      have hr : (accept? f).Reads s (t :: us) o rest ↔ none = o ∧ t :: us = rest := by
        simp [Reads, accept?, hf]
      rw [hr]
      constructor
      · rintro ⟨rfl, rfl⟩
        exact .inr ⟨rfl, rfl, by simpa using hf⟩
      · rintro (⟨a, t', -, hf', h⟩ | ⟨rfl, rfl, -⟩)
        · obtain ⟨rfl, -⟩ := List.cons.inj h
          simp [hf] at hf'
        · exact ⟨rfl, rfl⟩
    | some a =>
      have hr : (accept? f).Reads s (t :: us) o rest ↔ some (a, t) = o ∧ us = rest := by
        simp [Reads, accept?, hf]
      rw [hr]
      constructor
      · rintro ⟨rfl, rfl⟩
        exact .inl ⟨a, t, rfl, hf, rfl⟩
      · rintro (⟨a', t', rfl, hf', h⟩ | ⟨-, -, h⟩)
        · obtain ⟨rfl, rfl⟩ := List.cons.inj h
          rw [hf] at hf'
          cases hf'
          exact ⟨rfl, rfl⟩
        · simp [hf] at h

/-- A token is taken if it has the kind asked for, and only then. -/
theorem reads_accept (kind : Kind) (o : Option Token) :
    (accept kind).Reads s ts o rest ↔
      (∃ t, o = some t ∧ t.kind = kind ∧ ts = t :: rest) ∨
        o = none ∧ ts = rest ∧ nextKind? ts ≠ some kind := by
  cases ts with
  | nil => simp [Reads, accept, eq_comm]
  | cons t us =>
    by_cases hk : t.kind = kind
    · have hr : (accept kind).Reads s (t :: us) o rest ↔ some t = o ∧ us = rest := by
        simp [Reads, accept, hk]
      rw [hr]
      constructor
      · rintro ⟨rfl, rfl⟩
        exact .inl ⟨t, rfl, hk, rfl⟩
      · rintro (⟨t', rfl, -, h⟩ | ⟨-, -, h⟩)
        · obtain ⟨rfl, rfl⟩ := List.cons.inj h
          exact ⟨rfl, rfl⟩
        · simp [hk] at h
    · have hr : (accept kind).Reads s (t :: us) o rest ↔ none = o ∧ t :: us = rest := by
        simp [Reads, accept, hk]
      rw [hr]
      constructor
      · rintro ⟨rfl, rfl⟩
        exact .inr ⟨rfl, rfl, by simpa using hk⟩
      · rintro (⟨t', rfl, hk', h⟩ | ⟨rfl, rfl, -⟩)
        · obtain ⟨rfl, -⟩ := List.cons.inj h
          exact absurd hk' hk
        · exact ⟨rfl, rfl⟩

theorem not_reads_failAt (fault : ParseFault) (t : Token) (a : α) :
    ¬ (failAt fault t).Reads s ts a rest := by
  simp [Reads, failAt]

theorem not_reads_reportAt (fault : ParseFault) (t : Token) (u : Unit) :
    ¬ (reportAt fault t).Reads s ts u rest := by
  simp [Reads, reportAt]

theorem not_reads_fail (fault : ParseFault) (a : α) : ¬ (fail fault).Reads s ts a rest := by
  simp only [fail, reads_bind, not_exists, not_and]
  exact fun _ _ _ => not_reads_failAt _ _ _

theorem reads_consume (kind : Kind) (fault : ParseFault) (t : Token) :
    (consume kind fault).Reads s ts t rest ↔ t.kind = kind ∧ ts = t :: rest := by
  unfold consume
  rw [reads_bind]
  constructor
  · rintro ⟨o, us, h, h'⟩
    rcases (reads_accept _ _).1 h with ⟨t', rfl, hk, rfl⟩ | ⟨rfl, -, -⟩
    · obtain ⟨rfl, rfl⟩ := (reads_pure _ _).1 h'
      exact ⟨hk, rfl⟩
    · exact absurd h' (not_reads_fail _ _)
  · rintro ⟨hk, rfl⟩
    exact ⟨some t, rest, (reads_accept _ _).2 (.inl ⟨t, rfl, hk, rfl⟩), (reads_pure _ _).2
      ⟨rfl, rfl⟩⟩

/-! ## Depth and recovery -/

theorem reads_nested (p : Parser α) (a : α) :
    (nested p).Reads s ts a rest ↔
      s.depth < maxNesting ∧ p.Reads { s with depth := s.depth + 1 } ts a rest := by
  unfold nested
  by_cases h : maxNesting ≤ s.depth
  · have hn := @not_reads_fail α s ts rest .tooMuchNesting a
    constructor
    · intro hr
      simp only [Reads, if_pos h] at hr
      exact absurd hr hn
    · intro hr
      omega
  · simp only [Reads, if_neg h]
    exact ⟨fun hr => ⟨by omega, hr⟩, fun hr => hr.2⟩

theorem reads_recovering (p : Parser α) (o : Option α) :
    (recovering p).Reads s ts o rest ↔ ∃ a, o = some a ∧ p.Reads s ts a rest := by
  unfold Reads recovering
  rcases p s ts with ⟨_ | a, us, reports⟩
  · simp
  · simp only [Reading.mk.injEq, Except.ok.injEq]
    constructor
    · rintro ⟨rfl, rfl, rfl⟩
      exact ⟨a, rfl, rfl, rfl, rfl⟩
    · rintro ⟨b, rfl, rfl, rfl, rfl⟩
      exact ⟨rfl, rfl, rfl⟩

/-! ## One turn of a repetition -/

/-- Behind an operand comes an operator with another operand, or the chain ends. -/
theorem reads_chainFrom_succ (op? : Kind → Option ω) (join : ω → Token → α → α → α)
    (operand : Parser α) (bound : Nat) (left a : α) :
    (chainFrom op? join operand (bound + 1) left).Reads s ts a rest ↔
      (∃ op mark us right vs, op? mark.kind = some op ∧ ts = mark :: us ∧
        operand.Reads s us right vs ∧
        (chainFrom op? join operand bound (join op mark left right)).Reads s vs a rest) ∨
        (∀ k ∈ nextKind? ts, op? k = none) ∧ left = a ∧ ts = rest := by
  rw [chainFrom, reads_bind]
  constructor
  · rintro ⟨o, us, ho, hr⟩
    rcases (reads_accept? _ _).1 ho with ⟨op, mark, rfl, hop, rfl⟩ | ⟨rfl, rfl, hnext⟩
    · obtain ⟨right, vs, hright, hr⟩ := (reads_bind _ _ _).1 hr
      exact .inl ⟨op, mark, us, right, vs, hop, rfl, hright, hr⟩
    · exact .inr ⟨hnext, (reads_pure _ _).1 hr⟩
  · rintro (⟨op, mark, us, right, vs, hop, rfl, hright, hr⟩ | ⟨hnext, hr⟩)
    · exact ⟨_, us, (reads_accept? _ _).2 (.inl ⟨op, mark, rfl, hop, rfl⟩), hright.bind hr⟩
    · exact ⟨_, ts, (reads_accept? _ _).2 (.inr ⟨rfl, rfl, hnext⟩), (reads_pure _ _).2 hr⟩

/-- There is an item, if no more have been read than allowed; behind it comes a comma with others,
or the list ends. -/
theorem reads_itemsFrom_succ (item : Parser α) (tooMany : ParseFault) (bound count : Nat)
    (as : List α) :
    (itemsFrom item tooMany (bound + 1) count).Reads s ts as rest ↔
      count < maxItems ∧ ∃ a us, item.Reads s ts a us ∧
        ((∃ comma vs others, comma.kind = .comma ∧ us = comma :: vs ∧
          (itemsFrom item tooMany bound (count + 1)).Reads s vs others rest ∧ as = a :: others) ∨
          nextKind? us ≠ some .comma ∧ us = rest ∧ as = [a]) := by
  rw [itemsFrom]
  by_cases hcount : maxItems ≤ count
  · simp only [if_pos hcount, reads_bind, not_reads_reportAt, false_and, exists_false, and_false,
      Nat.not_lt.2 hcount]
  · simp only [if_neg hcount, reads_bind, Nat.lt_of_not_le hcount, true_and]
    refine exists_congr fun a => exists_congr fun us => and_congr_right fun _ => ?_
    constructor
    · rintro ⟨o, vs, ho, hr⟩
      rcases (reads_accept _ _).1 ho with ⟨comma, rfl, hcomma, rfl⟩ | ⟨rfl, rfl, hnext⟩
      · simp only [reads_bind, reads_pure] at hr
        obtain ⟨others, ws, hothers, rfl, rfl⟩ := hr
        exact .inl ⟨comma, vs, others, hcomma, rfl, hothers, rfl⟩
      · obtain ⟨rfl, rfl⟩ := (reads_pure _ _).1 hr
        exact .inr ⟨hnext, rfl, rfl⟩
    · rintro (⟨comma, vs, others, hcomma, rfl, hothers, rfl⟩ | ⟨hnext, rfl, rfl⟩)
      · exact ⟨_, vs, (reads_accept _ _).2 (.inl ⟨comma, rfl, hcomma, rfl⟩),
          hothers.bind ((reads_pure _ _).2 ⟨rfl, rfl⟩)⟩
      · exact ⟨_, us, (reads_accept _ _).2 (.inr ⟨rfl, rfl, hnext⟩), (reads_pure _ _).2 ⟨rfl, rfl⟩⟩

/-- Before a closing parenthesis there are no items, before anything else one or more. -/
theorem reads_items (bound : Nat) (item : Parser α) (tooMany : ParseFault) (as : List α) :
    (items bound item tooMany).Reads s ts as rest ↔
      if (ts.headD s.ending).kind = .rightParen then as = [] ∧ ts = rest
      else (itemsFrom item tooMany bound 0).Reads s ts as rest := by
  unfold items
  simp only [reads_bind, reads_peek]
  constructor
  · rintro ⟨t, us, ⟨rfl, rfl⟩, hr⟩
    split at hr
    · rename_i hk
      obtain ⟨rfl, rfl⟩ := (reads_pure _ _).1 hr
      rw [if_pos hk]
      exact ⟨rfl, rfl⟩
    · rename_i hk
      rwa [if_neg hk]
  · intro hr
    refine ⟨_, _, ⟨rfl, rfl⟩, ?_⟩
    split
    · rename_i hk
      rw [if_pos hk] at hr
      exact (reads_pure _ _).2 ⟨hr.1.symm, hr.2⟩
    · rename_i hk
      rwa [if_neg hk] at hr

/-- There are no more declarations at the end, or at a closing brace in a block; else there is one
and others behind it. -/
theorem reads_declarations_succ (declaration : Parser (Option α)) (inBlock : Bool) (bound : Nat)
    (as : List α) :
    (declarations declaration inBlock (bound + 1)).Reads s ts as rest ↔
      if (ts.headD s.ending).kind = .endOfInput ∨
          (inBlock ∧ (ts.headD s.ending).kind = .rightBrace) then as = [] ∧ ts = rest
      else ∃ o us others, declaration.Reads s ts o us ∧
        (declarations declaration inBlock bound).Reads s us others rest ∧
          as = o.toList ++ others := by
  rw [declarations]
  simp only [reads_bind, reads_peek]
  constructor
  · rintro ⟨t, us, ⟨rfl, rfl⟩, hr⟩
    split at hr
    · rename_i hend
      obtain ⟨rfl, rfl⟩ := (reads_pure _ _).1 hr
      rw [if_pos hend]
      exact ⟨rfl, rfl⟩
    · rename_i hend
      simp only [reads_bind, reads_pure] at hr
      obtain ⟨o, us, ho, others, vs, hothers, rfl, rfl⟩ := hr
      rw [if_neg hend]
      exact ⟨o, us, others, ho, hothers, rfl⟩
  · intro hr
    refine ⟨_, _, ⟨rfl, rfl⟩, ?_⟩
    split
    · rename_i hend
      rw [if_pos hend] at hr
      exact (reads_pure _ _).2 ⟨hr.1.symm, hr.2⟩
    · rename_i hend
      rw [if_neg hend] at hr
      obtain ⟨o, us, others, ho, hothers, rfl⟩ := hr
      exact ho.bind (hothers.bind ((reads_pure _ _).2 ⟨rfl, rfl⟩))

end Parser

open Scripting.Parser in
/-- The word that begins a function and its name are taken if both are next, and only then. -/
theorem Production.reads_functionStart? {s : Surroundings} {ts rest : List Token}
    (o : Option (Token × Token)) :
    functionStart?.Reads s ts o rest ↔
      (∃ keyword name, o = some (keyword, name) ∧ keyword.kind = .fnWord ∧
        name.kind = .identifier ∧ ts = keyword :: name :: rest) ∨
        o = none ∧ ts = rest ∧ ¬ ∃ keyword name us, ts = keyword :: name :: us ∧
          keyword.kind = .fnWord ∧ name.kind = .identifier := by
  rcases ts with _ | ⟨t, _ | ⟨u, us⟩⟩
  · simp [Reads, functionStart?, eq_comm]
  · simp [Reads, functionStart?, eq_comm]
  · by_cases h : t.kind = .fnWord ∧ u.kind = .identifier
    · have hr : functionStart?.Reads s (t :: u :: us) o rest ↔ some (t, u) = o ∧ us = rest := by
        simp [Reads, functionStart?, h]
      rw [hr]
      constructor
      · rintro ⟨rfl, rfl⟩
        exact .inl ⟨t, u, rfl, h.1, h.2, rfl⟩
      · rintro (⟨t', u', rfl, -, -, h'⟩ | ⟨-, -, h'⟩)
        · cases h'
          exact ⟨rfl, rfl⟩
        · exact absurd ⟨t, u, us, rfl, h⟩ h'
    · have hr : functionStart?.Reads s (t :: u :: us) o rest ↔
          none = o ∧ t :: u :: us = rest := by
        simp [Reads, functionStart?, h]
      rw [hr]
      constructor
      · rintro ⟨rfl, rfl⟩
        refine .inr ⟨rfl, rfl, ?_⟩
        rintro ⟨t', u', us', h', hk⟩
        cases h'
        exact h hk
      · rintro (⟨t', u', rfl, ht, hu, h'⟩ | ⟨rfl, rfl, -⟩)
        · cases h'
          exact absurd ⟨ht, hu⟩ h
        · exact ⟨rfl, rfl⟩

/-! ## Forms of statements -/

namespace Production

open Scripting.Parser

/-- What is read behind the token with which a statement begins, unless it is one of an
expression. -/
def statementRest? : Kind → Option (Rules → Token → Parser Stmt)
  | .forWord => some forRest
  | .ifWord => some ifRest
  | .returnWord => some returnRest
  | .whileWord => some whileRest
  | .breakWord => some fun _ keyword => do
    let closing ← consume .semicolon .expectedSemicolonAfterBreak
    pure (.breakLoop (keyword.span.through closing.span) keyword)
  | .continueWord => some fun _ keyword => do
    let closing ← consume .semicolon .expectedSemicolonAfterContinue
    pure (.continueLoop (keyword.span.through closing.span) keyword)
  | .leftBrace => some fun inner opening => do
    let (body, closing) ← blockRest inner
    pure (.block (opening.span.through closing.span) body)
  | _ => none

/-- The token with which a statement begins tells its form. -/
theorem statement_cons (inner : Rules) (s : Surroundings) (t : Token) (ts : List Token) :
    statement inner s (t :: ts) = nested (match statementRest? t.kind with
      | some form => skip >>= fun _ => form inner t
      | none => expressionStatement inner) s (t :: ts) := by
  unfold statement nested
  split
  · rfl
  · show (bind peek _) _ _ = _
    simp only [bind, peek, List.headD_cons]
    cases t.kind <;> rfl

theorem statement_of_rest {form : Rules → Token → Parser Stmt} (inner : Rules) (s : Surroundings)
    {t : Token} {k : Kind} (ts : List Token) (hk : t.kind = k)
    (hform : statementRest? k = some form) :
    statement inner s (t :: ts) = nested (skip >>= fun _ => form inner t) s (t :: ts) := by
  rw [statement_cons, hk, hform]

theorem statement_of_no_rest (inner : Rules) (s : Surroundings) {t : Token} (ts : List Token)
    (hform : statementRest? t.kind = none) :
    statement inner s (t :: ts) = nested (expressionStatement inner) s (t :: ts) := by
  rw [statement_cons, hform]

end Production

end Scripting
