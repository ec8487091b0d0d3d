import Scripting.Proofs.Confinement.Comparison
import Scripting.Proofs.Grammar.Relabel
import Scripting.Proofs.Move.Programs

/-!
# Constructs by themselves

* `Comparison.shallower` : readings where fewer constructs are open, which find the same unless
  something is nested too deep (`Program.parse?_of_declaration`);
* `Grammar.Declaration.unique`, `Grammar.Expression.unique` : tokens write one tree only;
* `Grammar.Declaration.unmove`, `Grammar.Expression.unmove` : what moved tokens write is a moved
  tree that the tokens write;
* `Program.parse?_of_expression` : an expression by itself is read, or it is nested too deep there.
-/

namespace Scripting

set_option autoImplicit false

open Scripting.Parser Scripting.Grammar

/-! ## Fewer open constructs -/

/-- Readings of which the second one lies no deeper than the first one; a difference is excused if
the first one finds something nested too deep. -/
def Comparison.shallower : Comparison where
  Alike s s' _ := s'.ending = s.ending ∧ s.ending.kind = .endOfInput ∧ s'.depth ≤ s.depth
  Excuse d := d.cause = .parse .tooMuchNesting
  ending h := ⟨h.1, h.2.1⟩
  suffix h _ := h
  tooDeep _ _ := .inr fun _ => rfl
  deeper h hroom := ⟨Nat.lt_of_le_of_lt h.2.2 hroom, h.1, h.2.1, Nat.succ_le_succ h.2.2⟩

/-- What is read without a fault is read so where fewer constructs are open. -/
theorem Comparison.Same.reads {α : Type} {p : Parser α} {s s' : Surroundings} {j : Nat}
    {us rest : List Token} {a : α} (h : shallower.Same j us (p s us) (p s' us))
    (hr : p.Reads s us a rest) : p.Reads s' us a rest := by
  rcases h with ⟨d, hd, -⟩ | ⟨heq, -, -⟩
  · rw [hr] at hd
    cases hd
  · exact heq.symm.trans hr

namespace Grammar

variable {d : Nat} {ts : List Token}

/-! ## One tree only -/

section

variable {ending : Token} {s s' : Stmt} {e e' : Expr}

theorem Declaration.reads_alone (h : Declaration d ts s) (ending : Token) :
    (Rules.level (ts.length + 1)).declaration.Reads ⟨ending, d⟩ ts (some s) [] := by
  have hr : (Rules.level (ts.length + 1)).declaration.Reads ⟨ending, d⟩ (ts ++ []) (some s) [] :=
    h.reads (Nat.lt_succ_self _) rfl nofun
  rwa [List.append_nil] at hr

theorem Declaration.unique (h : Declaration d ts s) (h' : Declaration d ts s') : s = s' := by
  have hr := h.reads_alone default
  have hr' := h'.reads_alone default
  rw [Reads, hr] at hr'
  simpa using hr'

theorem Expression.unique (h : Expression d ts e) (h' : Expression d ts e') : e = e' := by
  have hr {e : Expr} (h : Expression d ts e) :
      (Rules.level (ts.length + 1)).expression.Reads ⟨default, d⟩ (ts ++ []) e [] :=
    h.reads [] (Nat.lt_succ_self _) rfl nofun
  have hr' := hr h'
  rw [Reads, hr h] at hr'
  simpa using hr'

end

theorem Declaration.of_reads {ending : Token} {s : Stmt} (hending : ending.kind = .endOfInput)
    (h : (Rules.level (ts.length + 1)).declaration.Reads ⟨ending, d⟩ ts (some s) []) :
    Declaration d ts s := by
  obtain ⟨_, hs, us, hus, hdeclaration⟩ :=
    (Rules.sound_level _).declaration hending (Nat.lt_succ_self _) h
  obtain rfl := Option.some.inj hs
  rw [List.append_nil] at hus
  exact hus ▸ hdeclaration

/-- A declaration may stand where no construct is open. -/
theorem Declaration.top {s : Stmt} (h : Declaration d ts s) : Declaration 0 ts s := by
  obtain ⟨t, us, rfl, ht⟩ := h.starts
  have hnext : t.kind ≠ .endOfInput := Kind.ne_of_property ht rfl
  have hrules := Comparison.shallower.rulesAgree_level (Nat.le_refl ((t :: us).length + 1))
    (Nat.le_refl _)
  have hagree := hrules.declaration ⟨default, d⟩ ⟨default, 0⟩ (t :: us) ⟨rfl, rfl, Nat.zero_le d⟩
    (Nat.lt_succ_self _) hnext
  exact .of_reads rfl (hagree.reads (h.reads_alone default))

/-! ## Tokens moved back -/

/-- The tokens of a text before it was moved. -/
def back (σ : Shift) : Relabeling where
  token t :=
    { t with
      line := t.line - σ.lines
      span := ⟨t.span.start - σ.bytes, t.span.stop - σ.bytes⟩ }
  kind _ := rfl
  lexeme _ := rfl
  literal _ := rfl

theorem back_move (σ : Shift) (t : Token) : (back σ).token (t.move σ) = t := by
  simp [back, Token.move, Span.move]

theorem map_back_move (σ : Shift) (ts : List Token) :
    (ts.map (Token.move σ)).map (back σ).token = ts := by
  rw [List.map_map, show (back σ).token ∘ Token.move σ = id from funext (back_move σ), List.map_id]

/-- What moved tokens write is a tree that was written before, and moved. -/
theorem Declaration.unmove {σ : Shift} {s : Stmt} (h : Declaration d (ts.map (Token.move σ)) s) :
    ∃ s', Declaration d ts s' ∧ s'.move σ = s := by
  obtain ⟨s', hs', -⟩ := h.relabel (back σ)
  rw [map_back_move] at hs'
  exact ⟨s', hs', (hs'.move σ).unique h⟩

theorem Expression.unmove {σ : Shift} {e : Expr} (h : Expression d (ts.map (Token.move σ)) e) :
    ∃ e', Expression d ts e' ∧ e'.move σ = e := by
  obtain ⟨e', he', -⟩ := h.relabel (back σ)
  rw [map_back_move] at he'
  exact ⟨e', he', (he'.move σ).unique h⟩

end Grammar

/-! ## Texts of one construct -/

theorem Parser.run_peek_bind {α : Type} (f : Token → Parser α) (s : Surroundings)
    (us : List Token) : (peek >>= f) s us = f (us.headD s.ending) s us := rfl

/-- Going on after a fault reports it. -/
theorem Parser.faults_recovering {α : Type} (p : Parser α) (s : Surroundings) (us : List Token) :
    (recovering p s us).faults = (p s us).faults := by
  unfold recovering
  rcases p s us with ⟨_ | _, rest, reports⟩
  · exact List.append_nil _
  · rfl

/-- What begins like an expression is read as a statement made of one, unless a function begins. -/
theorem Production.declarationForm_of_expression {r : Rules} {s : Surroundings} {us : List Token}
    (room : s.depth < maxNesting) (h : StartsWith Kind.startsExpression us)
    (hus : ∀ keyword name rest, us = keyword :: name :: rest →
      ¬ (keyword.kind = .fnWord ∧ name.kind = .identifier)) :
    declarationForm r s us = expressionStatement r { s with depth := s.depth + 1 } us := by
  obtain ⟨t, us, rfl, ht⟩ := h
  rw [declarationForm_of_not_let hus (Kind.ne_of_property ht rfl), statement, nested,
    if_neg (Nat.not_le.2 room), run_peek_bind, List.headD_cons]
  generalize t.kind = k at ht
  cases k <;> first | rfl | cases ht

namespace Program

/-- The faults of a program are those found when its declarations are read. -/
theorem diagnostics_readAhead (ending : Token) (ahead : List Token) :
    (readAhead ending ahead).diagnostics =
      (declarations (Rules.level (ahead.length + 1)).declaration false (ahead.length + 1)
        ⟨ending, 0⟩ ahead).faults := by
  unfold readAhead Reading.faults
  simp only [Rules.bound_level]
  generalize declarations _ _ _ _ _ = reading
  rcases reading with ⟨_ | statements, rest, reports⟩
  · rfl
  · exact (List.append_nil _).symm

/-- A fault in the first declaration is one of the program. -/
theorem mem_diagnostics_readAhead {ending t : Token} {ts : List Token} (ht : t.kind ≠ .endOfInput)
    {d : Diagnostic} (hd : d ∈ (Production.declarationForm (Rules.level (t :: ts).length)
      ⟨ending, 0⟩ (t :: ts)).faults) : d ∈ (readAhead ending (t :: ts)).diagnostics := by
  rw [← faults_recovering] at hd
  rw [diagnostics_readAhead, declarations, run_peek_bind, List.headD_cons,
    if_neg (by simpa using ht)]
  exact Comparison.faults_subset_bind _ _ _ _ hd

variable {source : String} (hscan : (scan source).diagnostics = [])

include hscan

/-- A declaration by itself is accepted, however deep it was found. -/
theorem parse?_of_declaration {d : Nat} {s : Stmt}
    (h : Declaration d (Scan.words .origin (pieces source.toList)) s) :
    parse? source = .ok [s] := by
  have hs := Declarations.cons h.top .nil
  rw [List.append_nil] at hs
  exact (parse?_eq_ok source [s]).2 ⟨hscan, hs⟩

/-- A fault in the first declaration rejects the text. -/
theorem parse?_of_fault {us : List Token} (hne : us ≠ [])
    (hwords : Scan.words .origin (pieces source.toList) = us) {x : Diagnostic}
    (hx : x ∈ (Production.declarationForm (Rules.level us.length) ⟨endOf (scan source).tokens, 0⟩
      us).faults) : ∃ ds, parse? source = .error ds ∧ x ∈ ds := by
  obtain ⟨t, ts, rfl⟩ := List.exists_cons_of_ne_nil hne
  have ht : t.kind ≠ .endOfInput :=
    Scan.kind_of_mem_words (fun _ => isInside_pieces) (hwords ▸ List.mem_cons_self)
  have hmem := mem_diagnostics_readAhead ht hx
  have hparse : parse? source = (readAhead (endOf (scan source).tokens) (t :: ts)).result := by
    rw [← hwords, ← beforeEnd_tokens_scan, parse?, tokens?]
    simp only [hscan, List.isEmpty_nil, if_true]
    rfl
  refine ⟨_, hparse.trans (if_neg ?_), hmem⟩
  rw [List.isEmpty_iff]
  exact List.ne_nil_of_mem hmem

/-- An expression with a semicolon behind it is accepted, unless it was found where no construct was
open. Then it may be nested too deep inside of a statement. -/
theorem parse?_of_expression {d : Nat} {ts : List Token} {closing : Token} {e : Expr}
    (hwords : Scan.words .origin (pieces source.toList) = ts ++ [closing])
    (hclosing : closing.kind = .semicolon) (h : Expression d ts e) :
    parse? source = .ok [.expression (e.span.through closing.span) e] ∨
      d = 0 ∧ ∃ ds, parse? source = .error ds ∧ ∃ x ∈ ds, x.cause = .parse .tooMuchNesting := by
  have hstatement := ExpressionStatement.mk h hclosing
  cases d with
  | succ d =>
    obtain ⟨room, -⟩ := h
    refine .inl (parse?_of_declaration (d := d) hscan ?_)
    rw [hwords]
    exact .statement (.nest (Nat.lt_of_succ_lt room) (.expression hstatement))
  | zero =>
    have hread : (Production.expressionStatement (.level (ts ++ [closing]).length)).Reads
        ⟨endOf (scan source).tokens, 0⟩ (ts ++ [closing] ++ []) _ [] :=
      hstatement.reads (Nat.le_refl _) rfl
    rw [List.append_nil] at hread
    -- as a statement, the same tokens are read with one construct open
    have hform := Production.declarationForm_of_expression
      (r := Rules.level (ts ++ [closing]).length) (s := ⟨endOf (scan source).tokens, 0⟩)
      (Nat.zero_lt_succ _) hstatement.starts fun keyword name rest hts hfn =>
        hstatement.next_of_fnWord keyword (name :: rest)
          ((List.append_nil (ts ++ [closing])).trans hts) hfn.1 (congrArg some hfn.2)
    rcases Production.agree_expressionStatement
      (Comparison.shallower.rulesAgree_level (Nat.le_refl (ts ++ [closing]).length) (Nat.le_refl _))
      ⟨endOf (scan source).tokens, 1⟩ ⟨endOf (scan source).tokens, 0⟩ (ts ++ [closing])
      ⟨rfl, kind_endOf _, Nat.zero_le 1⟩ (Nat.lt_succ_self _) trivial with
      ⟨x, hx, hcause⟩ | ⟨heq, -, -⟩
    · refine .inr ⟨rfl, ?_⟩
      obtain ⟨ds, hds, hmem⟩ := parse?_of_fault hscan (by simp) hwords (hform ▸ hx)
      exact ⟨ds, hds, x, hmem, hcause⟩
    · refine .inl (parse?_of_declaration hscan (d := 0) ?_)
      rw [hwords]
      exact .of_reads (kind_endOf _) ((reads_recovering _ _).2
        ⟨_, rfl, hform.trans (heq.trans hread)⟩)

end Program

end Scripting
