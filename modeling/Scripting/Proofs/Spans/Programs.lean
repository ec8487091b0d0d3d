import Scripting.Proofs.Move.Programs
import Scripting.Proofs.Spans.Alone
import Scripting.Proofs.Spans.Parts
import Scripting.Proofs.Token.Cut

/-!
# The spans of trees

* `Node.IsAlone before text n` : the text by itself is the node `n`, moved behind the text `before`;
* `Program.spans_faithful` : the text that the span of a node marks is that node.
-/

namespace Scripting

set_option autoImplicit false

open Scripting.Grammar

/-! ## Texts of nodes -/

/-- A statement is what its text is by itself, moved behind the text `before`; an expression is what
its text is in a statement by itself. -/
def Node.IsAlone (before text : String) : Node → Prop
  | expr e => ∃ span e', Program.parse? (text ++ ";") = .ok [.expression span e'] ∧
      e'.move (.behind before.toList) = e
  | stmt s => ∃ s', Program.parse? text = .ok [s'] ∧ s'.move (.behind before.toList) = s

namespace CutOut

variable {source before text behind : String} {us : List Token}
  (h : CutOut source us before text behind)

include h

theorem span_eq {span : Span} (hspan : Covers us span) :
    span = ⟨before.utf8ByteSize, before.utf8ByteSize + text.utf8ByteSize⟩ := by
  obtain ⟨first, last, hfirst, hlast, rfl⟩ := hspan
  have hstart := h.start
  have hstop := h.stop
  rw [hfirst] at hstart
  rw [hlast] at hstop
  exact congrArg₂ Span.mk (Option.some.inj hstart) (Option.some.inj hstop)

variable (hscan : (scan source).diagnostics = [])

include hscan

theorem diagnostics_text : (scan text).diagnostics = [] := by
  rw [diagnostics_scan, Scan.faults_eq_nil_iff] at hscan ⊢
  exact fun piece hpiece => hscan piece (h.pieces_subset hpiece)

theorem diagnostics_semicolon : (scan (text ++ ";")).diagnostics = [] := by
  have htext := h.diagnostics_text hscan
  rw [diagnostics_scan, Scan.faults_eq_nil_iff] at htext ⊢
  rw [h.semicolon]
  intro piece hpiece
  rcases List.mem_append.1 hpiece with hpiece | hpiece
  · exact htext piece hpiece
  · rw [List.mem_singleton.1 hpiece]
    exact nofun

omit hscan in
theorem words_semicolon : ∃ closing : Token, closing.kind = .semicolon ∧
    Scan.words .origin (pieces (text ++ ";").toList) =
      Scan.words .origin (pieces text.toList) ++ [closing] := by
  refine ⟨_, ?_, by rw [h.semicolon, Scan.words_append]; rfl⟩
  rfl

end CutOut

/-! ## Programs -/

namespace Program

/-- Cut out of an accepted source, the text that the span of a node marks is that node, moved back,
unless the node was made for the one around it. Only for an expression that lies in no construct
that counts as nested, the text in a statement may be nested too deep. -/
theorem spans_faithful {source : String} {ss : List Stmt} (parsed : parse? source = .ok ss)
    {around : Option Node} {n : Node} (hn : Occurs ss around n)
    (hwritten : ∀ p ∈ around, ¬ Made p n) :
    ∃ before text behind : String, source = before ++ text ++ behind ∧
      n.span = ⟨before.utf8ByteSize, before.utf8ByteSize + text.utf8ByteSize⟩ ∧
      (n.IsAlone before text ∨ ∃ e ds, n = .expr e ∧ Bare ss n ∧
        parse? (text ++ ";") = .error ds ∧ ∃ d ∈ ds, d.cause = .parse .tooMuchNesting) := by
  obtain ⟨hscan, hss⟩ := (parse?_eq_ok source ss).1 parsed
  have hstatement {d : Nat} {ts : List Token} {s : Stmt} (h : Declaration d ts s)
      (hts : ts <:+: Scan.words .origin (pieces source.toList)) :
      ∃ before text behind : String, source = before ++ text ++ behind ∧
        s.span = ⟨before.utf8ByteSize, before.utf8ByteSize + text.utf8ByteSize⟩ ∧
        (Node.stmt s).IsAlone before text := by
    obtain ⟨before, text, behind, cut⟩ :=
      exists_cutOut hts (List.length_pos_iff.1 h.starts.length_pos)
    refine ⟨before, text, behind, cut.split, cut.span_eq h.covers, ?_⟩
    rw [cut.words] at h
    obtain ⟨s', hs', hmove⟩ := h.unmove
    exact ⟨s', parse?_of_declaration (cut.diagnostics_text hscan) hs', hmove⟩
  cases (hss.rooted hn).of_not_made hwritten with
  | declared h hts _ =>
    obtain ⟨before, text, behind, hsplit, hspan, halone⟩ := hstatement h hts
    exact ⟨before, text, behind, hsplit, hspan, .inl halone⟩
  | stated h hts =>
    obtain ⟨before, text, behind, hsplit, hspan, halone⟩ := hstatement (.statement h) hts
    exact ⟨before, text, behind, hsplit, hspan, .inl halone⟩
  | expr h hts hdeep =>
    obtain ⟨before, text, behind, cut⟩ :=
      exists_cutOut hts (List.length_pos_iff.1 h.starts.length_pos)
    refine ⟨before, text, behind, cut.split, cut.span_eq h.covers, ?_⟩
    rw [cut.words] at h
    obtain ⟨e', he', hmove⟩ := h.unmove
    obtain ⟨closing, hclosing, hwords⟩ := cut.words_semicolon
    rcases parse?_of_expression (cut.diagnostics_semicolon hscan) hwords hclosing he' with
      halone | ⟨rfl, ds, hds, htoo⟩
    · exact .inl ⟨_, e', halone, hmove⟩
    · exact .inr ⟨_, ds, rfl, hdeep.resolve_left (Nat.lt_irrefl 0), hds, htoo⟩

theorem exists_of_toOption {ε α β : Type} {r : Except ε α} {f : α → Option β} {b : β}
    (h : r.toOption.bind f = some b) : ∃ a, r = .ok a ∧ f a = some b := by
  cases r with
  | error => cases h
  | ok a => exact ⟨a, rfl, h⟩

/-- The span of an assignment that is the step of a loop behind one other statement. -/
def stepSpan? : List Stmt → Option Span
  | [_, .loop _ _ (.block _ [_, .expression _ (.assign span _ _)])] => some span
  | _ => none

/-- In a loop without a condition and without an initial statement, the step is no part of the body,
and the operation that `+=` stands for was made. The assignment is read alone all the same. -/
theorem spans_faithful_step :
    let source := "let s = 0;\nfor (;; s += 2) \x7b print(s); \x7d"
    ∃ (ss : List Stmt) (around n : Node), parse? source = .ok ss ∧ Occurs ss (some around) n ∧
      ¬ Made around n ∧ n.span = ⟨19, 25⟩ ∧ ∃ before text behind : String,
        source = before ++ text ++ behind ∧
        n.span = ⟨before.utf8ByteSize, before.utf8ByteSize + text.utf8ByteSize⟩ ∧
        (n.IsAlone before text ∨ ∃ e ds, n = .expr e ∧ Bare ss n ∧
          parse? (text ++ ";") = .error ds ∧ ∃ d ∈ ds, d.cause = .parse .tooMuchNesting) := by
  intro source
  have hshape : (parse? source).toOption.bind stepSpan? = some ⟨19, 25⟩ := by decide +kernel
  obtain ⟨ss, parsed, hspan⟩ := exists_of_toOption hshape
  unfold stepSpan? at hspan
  split at hspan
  · rename_i first whole condition turn body step span name value
    have hloop := Occurs.top (List.mem_cons_of_mem first (List.mem_singleton_self
      (Stmt.loop whole condition
        (.block turn [body, .expression step (.assign span name value)]))))
    have hblock := hloop.inside (List.mem_cons_of_mem _ (List.mem_singleton_self _))
    have hstatement := hblock.inside (List.mem_cons_of_mem _ (List.mem_singleton_self _))
    have hstep := hstatement.inside (List.mem_singleton_self _)
    obtain ⟨before, text, behind, h⟩ := spans_faithful parsed hstep (by rintro p ⟨⟩ ⟨⟩)
    exact ⟨_, _, _, parsed, hstep, by rintro ⟨⟩, Option.some.inj hspan, before, text, behind, h⟩
  · cases hspan

/-- What the parser makes of a text is decided by its pieces. -/
theorem parse?_of_pieces {source : String} {ps : List Piece} (h : pieces source.toList = ps) :
    parse? source = (if (Scan.ofPieces .origin ps).diagnostics.isEmpty then
      ofTokens? (Scan.ofPieces .origin ps).tokens
    else .error (Scan.ofPieces .origin ps).diagnostics) := by
  rw [parse?, tokens?, scan, h]
  split <;> rfl

/-- Any number of exclamation marks in a row are words of their own, unless `=` is behind them. -/
theorem pieces_not {cs : List Char} (h : ∀ c ∈ cs.head?, c ≠ '=') (n : Nat) :
    pieces (List.replicate n '!' ++ cs) =
      List.replicate n ⟨.word .bang none, ['!']⟩ ++ pieces cs := by
  induction n with
  | zero => rfl
  | succ n ih =>
    have hnext : ∀ d ∈ (List.replicate n '!' ++ cs).head?, Piece.joined? '!' d = none := by
      intro d hd
      have hne : d ≠ '=' := by
        cases n with
        | zero => exact h d hd
        | succ n => exact Option.some.inj hd ▸ (by decide)
      unfold Piece.joined?
      split <;> simp_all
    have hread : Piece.read '!' (List.replicate n '!' ++ cs) =
        (⟨.word .bang none, ['!']⟩, List.replicate n '!' ++ cs) :=
      Piece.readSymbol_of_not_joined? hnext
    rw [List.replicate_succ, List.cons_append, pieces, hread, ih]
    rfl

/-- The text of `n` negations of the same number, as it stands in a statement. -/
theorem pieces_negations (n : Nat) :
    pieces (String.ofList (List.replicate n '!' ++ ['1']) ++ ";").toList =
      List.replicate n ⟨.word .bang none, ['!']⟩ ++ pieces ['1', ';'] := by
  have hone : ∀ c ∈ ['1', ';'].head?, c ≠ '=' := by simp
  rw [String.toList_append, String.toList_ofList, List.append_assoc]
  exact pieces_not hone n

/-- The span of the first value of the only variable of a program, if that is an operation on one
operand. -/
def initialSpan? : List Stmt → Option Span
  | [.define _ _ (some (.unary span ..))] => some span
  | _ => none

/-- The first value of a variable may be nested as deep as the limit allows. In a statement, which
is nested itself, the same text is too deep. -/
theorem span_too_deep :
    let before := "let x =\n"
    let text := String.ofList (List.replicate 511 '!' ++ ['1'])
    ∃ (ss : List Stmt) (around : Node) (e : Expr), parse? (before ++ text ++ ";") = .ok ss ∧
      Occurs ss (some around) (.expr e) ∧ ¬ Made around (.expr e) ∧
      e.span = ⟨before.utf8ByteSize, before.utf8ByteSize + text.utf8ByteSize⟩ ∧
      ∀ ss', parse? (text ++ ";") ≠ .ok ss' := by
  intro before text
  have htext := parse?_of_pieces (pieces_negations 511)
  have hsource := parse?_of_pieces ((pieces_joined (p := "let x =") (by decide +kernel)
    (by decide +kernel)).trans (congrArg (_ ++ _ :: ·) (pieces_negations 511)))
  have hdeep : (parse? (text ++ ";")).isOk = false := by
    rw [htext]
    decide +kernel
  rw [joined, ← String.append_assoc, show "let x =" ++ "\n" = before by decide +kernel] at hsource
  have hshape : (parse? (before ++ text ++ ";")).toOption.bind initialSpan? =
      some ⟨before.utf8ByteSize, before.utf8ByteSize + text.utf8ByteSize⟩ := by
    rw [hsource]
    decide +kernel
  obtain ⟨ss, parsed, hspan⟩ := exists_of_toOption hshape
  unfold initialSpan? at hspan
  split at hspan
  · rename_i whole name span op mark operand
    refine ⟨_, _, _, parsed, (Occurs.top (List.mem_singleton_self _)).inside
      (List.mem_singleton_self _), by rintro ⟨⟩, Option.some.inj hspan, fun ss' hss' => ?_⟩
    rw [hss'] at hdeep
    cases hdeep
  · cases hspan

end Program

end Scripting
