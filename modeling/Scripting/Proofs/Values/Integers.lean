import Mathlib
import Scripting.Proofs.Grammar.Programs
import Scripting.Proofs.Machine.Equations
import Scripting.Proofs.Token.Numbers

/-!
# Integers as text

* `Program.Writes` : a text is one expression, which has the same value in every state
  (`Program.writes_int`, `Program.writes_negated`);
* `toList_text_int` : the text of an integer;
* `writes_text_int`, `tokens?_text_minValue` : the text of an integer is an expression with its
  value, unless it is the least one;
* `integers_exact` : integers are read and written back exactly.
-/

namespace Scripting

set_option autoImplicit false

open Scripting.Grammar

/-! ## Operands as programs -/

namespace Program

/-- An operand and the semicolon behind it are one statement. -/
theorem parse?_of_unary {source : String} {ts : List Token} {closing : Token} {e : Expr}
    (hwords : Scan.words .origin (pieces source.toList) = ts ++ [closing])
    (hfaults : Scan.faults .origin (pieces source.toList) = [])
    (hclosing : closing.kind = .semicolon) (operand : Unary 2 ts e) :
    parse? source = .ok [.expression (e.span.through closing.span) e] := by
  have hjoined : ∀ levels, Joined levels 2 ts e := by
    intro levels
    induction levels with
    | nil => exact .unary operand
    | cons op? levels ih => exact .tighter ih
  have hexpression : Expression 1 ts e :=
    .nest (by decide) (.operand (.compound (.joined (hjoined _))))
  have hstatement : Statement false 0 (ts ++ [closing])
      (.expression (e.span.through closing.span) e) :=
    .nest (by decide) (.expression (.mk hexpression hclosing))
  have hdeclarations := Declarations.cons (.statement hstatement) .nil
  rw [List.append_nil, ← hwords, ← beforeEnd_tokens_scan] at hdeclarations
  have htokens : tokens? source = .ok (scan source).tokens := by
    rw [tokens?, diagnostics_scan, hfaults]
    rfl
  rw [parse?, htokens]
  exact ofTokens?_of_declarations hdeclarations

/-- The text is one expression with a semicolon behind it, and in every state that is its value. -/
def Writes (source : String) (v : Value) : Prop :=
  ∃ span e, parse? source = .ok [.expression span e] ∧
    ∀ config fuel m, evaluate config (fuel + 2) e m = .ok v m

/-- The piece that writes the integer `n`. -/
def intPiece (n : Int64) (digits : List Char) : Piece := ⟨.word .int (some (.int n)), digits⟩

theorem unary_int {d : Nat} {t : Token} {n : Int64} (ht : t.value? = some (.int n)) :
    Unary d [t] (.literal t.span (.int n)) := .call (.primary (.literal ht))

theorem evaluate_int (config : Config) (fuel : Nat) (span : Span) (n : Int64) (m : Machine) :
    evaluate config (fuel + 1) (.literal span (.int n)) m = .ok (.int n) m := by
  rw [evaluate, Eval.paced_eq]
  rfl

/-- An integer with a semicolon behind it. -/
theorem writes_int {source : String} {n : Int64} {digits : List Char}
    (h : pieces source.toList = [intPiece n digits, ⟨.word .semicolon none, [';']⟩]) :
    Writes source (.int n) :=
  ⟨_, _, parse?_of_unary (by rw [h]; rfl) (by rw [h]; rfl) rfl (unary_int rfl),
    fun config fuel m => evaluate_int config (fuel + 1) _ n m⟩

/-- A minus, an integer and a semicolon. -/
theorem writes_negated {source : String} {n : Int64} {digits : List Char}
    (h : pieces source.toList =
      [⟨.word .minus none, ['-']⟩, intPiece n digits, ⟨.word .semicolon none, [';']⟩]) :
    Writes source (.int (-n)) := by
  have hminus : UnaryOp.ofKind? .minus = some .negate := rfl
  refine ⟨_, _, parse?_of_unary (by rw [h]; rfl) (by rw [h]; rfl) rfl
    (.operator hminus (by decide) (unary_int rfl)), fun config fuel m => ?_⟩
  rw [evaluate, Eval.paced_eq]
  exact Eval.bind_of_ok (evaluate_int config fuel _ n m)

end Program

/-! ## The texts of integers -/

/-- The pieces of a number with a semicolon behind it. -/
theorem pieces_toDigits (n : Nat) : pieces (Nat.toDigits 10 n ++ [';']) =
    [⟨Piece.intRole (Nat.toDigits 10 n), Nat.toDigits 10 n⟩, ⟨.word .semicolon none, [';']⟩] := by
  rw [pieces_run, pieces_semicolon]
  refine ⟨IsDigits.toDigits n, ?_, ?_⟩
  · rintro _ ⟨⟩
    decide
  · rintro _ ⟨⟩

/-- A minus before digits is a piece of its own. -/
theorem pieces_minus {digits : List Char} (h : IsDigits digits) (behind : List Char) :
    pieces ('-' :: (digits ++ behind)) =
      ⟨.word .minus none, ['-']⟩ :: pieces (digits ++ behind) := by
  obtain ⟨c, cs, rfl⟩ := List.exists_cons_of_ne_nil h.1
  have hc : c ≠ '=' := by
    rintro rfl
    exact absurd (h.2 _ List.mem_cons_self) (by decide)
  have hread : Piece.read '-' (c :: cs ++ behind) = Piece.readSymbol '-' (c :: cs ++ behind) := by
    rw [Piece.read, if_neg (by decide), if_neg (by decide), if_neg (by decide),
      if_neg (by decide), if_neg (by decide)]
  rw [pieces, hread, Piece.readSymbol_of_not_joined?]
  · rfl
  · rintro _ ⟨⟩
    unfold Piece.joined?
    split <;> simp_all

/-- The text of an integer is its digits, with a minus before them if it is below zero. -/
theorem toList_text_int (v : Int64) : (Value.int v).text.toList =
    (if v.toInt < 0 then ['-'] else []) ++ Nat.toDigits 10 v.toInt.natAbs := by
  show (toString v.toInt).toList = _
  cases v.toInt with
  | ofNat n =>
    rw [if_neg (Int.not_lt.2 (Int.natCast_nonneg n) : ¬ Int.ofNat n < 0), List.nil_append]
    exact Nat.toList_repr
  | negSucc n =>
    rw [if_pos (Int.negSucc_lt_zero n)]
    show ("-" ++ (n + 1).repr).toList = _
    rw [String.toList_append, Nat.toList_repr]
    rfl

theorem toList_semicolon (text : String) : (text ++ ";").toList = text.toList ++ [';'] :=
  String.toList_append

theorem intRole_toDigits {n : Nat} (h : n ≤ Piece.maxInt) :
    Piece.intRole (Nat.toDigits 10 n) = .word .int (some (.int (.ofNat n))) := by
  rw [Piece.intRole, Piece.digitsValue_eq, decimal_toDigits, if_pos h]

theorem natAbs_toInt_le {v : Int64} (h : v ≠ Int64.minValue) : v.toInt.natAbs ≤ Piece.maxInt := by
  have hlow := v.le_toInt
  have hhigh := v.toInt_lt
  have hne : v.toInt ≠ -2 ^ 63 := fun heq =>
    h (Int64.toInt_inj.1 (heq.trans Int64.toInt_minValue.symm))
  unfold Piece.maxInt
  omega

/-- Every integer but the least is written back as itself. -/
theorem writes_text_int {v : Int64} (h : v ≠ Int64.minValue) :
    Program.Writes ((Value.int v).text ++ ";") (.int v) := by
  have htext := toList_text_int v
  have hrole := intRole_toDigits (natAbs_toInt_le h)
  have hvalue : Int64.ofNat v.toInt.natAbs = .ofInt v.toInt.natAbs := Int64.ofInt_eq_ofNat.symm
  by_cases hneg : v.toInt < 0
  · rw [if_pos hneg, List.singleton_append] at htext
    have hpieces := pieces_minus (IsDigits.toDigits v.toInt.natAbs) [';']
    rw [pieces_toDigits, hrole, ← List.cons_append, ← htext, ← toList_semicolon] at hpieces
    have hwrites := Program.writes_negated hpieces
    rwa [hvalue, Int.natCast_natAbs, abs_of_neg hneg, Int64.ofInt_neg, Int64.neg_neg,
      Int64.ofInt_toInt] at hwrites
  · rw [if_neg hneg, List.nil_append] at htext
    have hpieces := pieces_toDigits v.toInt.natAbs
    rw [hrole, ← htext, ← toList_semicolon] at hpieces
    have hwrites := Program.writes_int hpieces
    rwa [hvalue, Int.natCast_natAbs, abs_of_nonneg (Int.not_lt.1 hneg),
      Int64.ofInt_toInt] at hwrites

/-- The amount of the least integer is too large for a literal. -/
theorem tokens?_text_minValue :
    ∃ d, tokens? ((Value.int Int64.minValue).text ++ ";") = .error [d] ∧
      d.message = "Invalid number literal." := by
  have hpieces := pieces_minus (IsDigits.toDigits 9223372036854775808) [';']
  have htext := toList_text_int Int64.minValue
  have hrole : Piece.intRole (Nat.toDigits 10 9223372036854775808) = .fault .invalidNumber := by
    rw [Piece.intRole, Piece.digitsValue_eq, decimal_toDigits, if_neg (by decide)]
  rw [pieces_toDigits, hrole] at hpieces
  rw [show Int64.minValue.toInt = -9223372036854775808 from rfl, if_pos (by decide)] at htext
  have hfaults : (scan ((Value.int Int64.minValue).text ++ ";")).diagnostics =
      [.invalidNumber "-" "9223372036854775808"] := by
    rw [diagnostics_scan, toList_semicolon, htext]
    exact (congrArg (Scan.faults .origin) hpieces).trans (by decide +kernel)
  exact ⟨_, by rw [tokens?, hfaults]; rfl, rfl⟩

/-! ## Reading and writing -/

/-- Integers are read and written back exactly. Where the scanner comes to digits that do not go on,
they are one integer if their number is not too large, and else one fault, and nothing else is said
of them. The text of every integer but the least is an expression with this value, and the text of
the least one is refused. -/
theorem integers_exact :
    (∀ {source before digits behind : String}, NumberAt source before digits behind →
      (decimal digits.toList ≤ 9223372036854775807 →
        ∃ n : Int64, n.toInt = decimal digits.toList ∧
          (scan source).touching (.behind before digits) = ⟨[.int before digits n], []⟩) ∧
      (9223372036854775807 < decimal digits.toList →
        ∃ d, (scan source).touching (.behind before digits) = ⟨[], [d]⟩ ∧
          d.message = "Invalid number literal." ∧ d.span = some (.behind before digits))) ∧
    (∀ v : Int64, v ≠ -9223372036854775808 →
      Program.Writes ((Value.int v).text ++ ";") (.int v)) ∧
    ∃ d, tokens? ((Value.int (-9223372036854775808)).text ++ ";") = .error [d] ∧
      d.message = "Invalid number literal." := by
  refine ⟨fun h => ⟨fun hle => ⟨_, ?_, h.touching_of_le hle⟩, fun hlt => ?_⟩,
    fun v hv => writes_text_int hv, tokens?_text_minValue⟩
  · exact Int64.toInt_ofNat_of_lt (Nat.lt_succ_of_le hle)
  · exact ⟨_, h.touching_of_lt hlt, rfl, rfl⟩

/-- Digits with zeros before them, behind which a dot and a name stand, digits whose number is too
large, and an integer below zero. -/
theorem integers_exact_edges :
    (∃ n : Int64, n.toInt = 17 ∧
      (scan "x = 0017.a;").touching ⟨4, 8⟩ = ⟨[.int "x = " "0017" n], []⟩) ∧
    (∃ d, (scan "9223372036854775808").touching ⟨0, 19⟩ = ⟨[], [d]⟩ ∧
      d.message = "Invalid number literal." ∧ d.span = some ⟨0, 19⟩) ∧
    Program.Writes "-17;" (.int (-17)) := by
  have hzeros : NumberAt "x = 0017.a;" "x = " "0017" ".a;" := by
    refine ⟨by decide, ⟨_, List.take_prefix 4 _, by decide +kernel⟩,
      ⟨by decide, List.all_eq_true.1 (by decide)⟩, ?_, ?_⟩
    · rintro _ ⟨⟩
      decide
    · rintro _ ⟨⟩ _ ⟨⟩
      decide
  have hlarge : NumberAt "9223372036854775808" "" "9223372036854775808" "" :=
    ⟨by decide, ⟨[], List.nil_prefix, rfl⟩, ⟨by decide, List.all_eq_true.1 (by decide)⟩, nofun,
      nofun⟩
  exact ⟨(integers_exact.1 hzeros).1 (by decide), (integers_exact.1 hlarge).2 (by decide),
    integers_exact.2.1 (-17) (by decide)⟩

end Scripting
