import Mathlib
import Scripting.Proofs.Machine.Equations

/-!
# What operators make of values

* `Value.IsNumber`, `Numbers.of?_eq_none_iff` : the values that can be brought to one type;
* `BinaryOp.Typed`, `UnaryOp.Typed` : which operands an operator takes, and the type of what it
  makes of them;
* `Wraps` : the 64-bit integer that is congruent to a number (`wraps_of_toInt`);
* `IntegerLaws` : operators on integers as arithmetic modulo the 64th power of two;
* `ReportsAtMark` : an operator that fails does so at its own token;
* `operators_exact` : all of this holds of all values.
-/

namespace Scripting

set_option autoImplicit false

namespace Value

/-- The value is an integer. -/
def IsInt (v : Value) : Prop := ∃ n, v = int n

/-- The value is a float. -/
def IsFloat (v : Value) : Prop := ∃ x, v = float x

/-- The value is an integer or a float. -/
def IsNumber (v : Value) : Prop := v.IsInt ∨ v.IsFloat

/-- The value is a text. -/
def IsString (v : Value) : Prop := ∃ s, v = string s

end Value

/-! ## Numbers of one type -/

/-- Two values are numbers, and then both are integers or they become floats, or one of them is no
number. -/
inductive Numbers.Cases (l r : Value) : Option Numbers → Prop
  | ints {a b : Int64} (hl : l = .int a) (hr : r = .int b) : Cases l r (some (.ints a b))
  | floats {x y : Float} (hl : l.IsNumber) (hr : r.IsNumber) (float : l.IsFloat ∨ r.IsFloat) :
      Cases l r (some (.floats x y))
  | none (h : ¬ (l.IsNumber ∧ r.IsNumber)) : Cases l r none

theorem Numbers.cases (l r : Value) : Cases l r (of? l r) := by
  unfold of?
  split
  · exact .ints rfl rfl
  · exact .floats (.inl ⟨_, rfl⟩) (.inr ⟨_, rfl⟩) (.inr ⟨_, rfl⟩)
  · exact .floats (.inr ⟨_, rfl⟩) (.inl ⟨_, rfl⟩) (.inl ⟨_, rfl⟩)
  · exact .floats (.inr ⟨_, rfl⟩) (.inr ⟨_, rfl⟩) (.inl ⟨_, rfl⟩)
  · rename_i hints hintFloat hfloatInt hfloats
    refine .none ?_
    rintro ⟨⟨a, rfl⟩ | ⟨x, rfl⟩, ⟨b, rfl⟩ | ⟨y, rfl⟩⟩
    · exact hints a b rfl rfl
    · exact hintFloat a y rfl rfl
    · exact hfloatInt x b rfl rfl
    · exact hfloats x y rfl rfl

theorem Value.not_isInt_of_isFloat {v : Value} (h : v.IsFloat) : ¬ v.IsInt := by
  rintro ⟨n, rfl⟩
  obtain ⟨x, hx⟩ := h
  cases hx

theorem Value.not_isNumber_of_isString {v : Value} (h : v.IsString) : ¬ v.IsNumber := by
  obtain ⟨s, rfl⟩ := h
  rintro (⟨n, hn⟩ | ⟨x, hx⟩)
  · cases hn
  · cases hx

/-! ## Operands and results -/

/-- The value is an integer if both operands are, and else a float. -/
def Value.OfType (l r v : Value) : Prop :=
  (v.IsInt ↔ l.IsInt ∧ r.IsInt) ∧ (v.IsFloat ↔ l.IsFloat ∨ r.IsFloat)

theorem Value.ofType_int {l r : Value} {a b : Int64} (hl : l = .int a) (hr : r = .int b)
    (n : Int64) : OfType l r (.int n) := by
  subst hl hr
  refine ⟨⟨fun _ => ⟨⟨a, rfl⟩, b, rfl⟩, fun _ => ⟨n, rfl⟩⟩, ?_, ?_⟩
  · rintro ⟨x, hx⟩
    cases hx
  · rintro (⟨x, hx⟩ | ⟨x, hx⟩) <;> cases hx

theorem Value.ofType_float {l r : Value} (h : l.IsFloat ∨ r.IsFloat) (x : Float) :
    OfType l r (.float x) := by
  refine ⟨⟨?_, ?_⟩, fun _ => h, fun _ => ⟨x, rfl⟩⟩
  · rintro ⟨n, hn⟩
    cases hn
  · rintro ⟨hl, hr⟩
    rcases h with h | h
    · exact absurd hl (not_isInt_of_isFloat h)
    · exact absurd hr (not_isInt_of_isFloat h)

namespace BinaryOp

/-- The operators that compute with numbers, and nothing else. -/
def arithmetic : List BinaryOp := [subtract, multiply]

/-- The operators that compare numbers. -/
def orderings : List BinaryOp := [less, lessEqual, greater, greaterEqual]

/-- Which operands an operator between two takes, and the type of what it makes of them. -/
structure Typed (l r : Value) : Prop where
  /-- Comparing for equality never fails, and for inequality it gives the opposite. -/
  equal : ∃ b, equal.apply l r = .ok (.bool b) ∧ notEqual.apply l r = .ok (.bool !b)
  /-- Only two numbers and two texts can be added. -/
  add : ∀ cause, add.apply l r = .error cause ↔ cause = .operandsNotAddable ∧
    ¬ (l.IsNumber ∧ r.IsNumber) ∧ ¬ (l.IsString ∧ r.IsString)
  /-- All other operators take numbers. -/
  numeric : ∀ op ∈ arithmetic ++ orderings, ∀ cause, op.apply l r = .error cause ↔
    cause = .operandsNotNumbers ∧ ¬ (l.IsNumber ∧ r.IsNumber)
  /-- An integer cannot be divided by the integer zero. -/
  divide : ∀ cause, divide.apply l r = .error cause ↔
    cause = .operandsNotNumbers ∧ ¬ (l.IsNumber ∧ r.IsNumber) ∨
      cause = .divisionByZero ∧ l.IsInt ∧ r = .int 0
  /-- What is computed from numbers is an integer if both are, and else a float. -/
  type : ∀ op ∈ BinaryOp.add :: BinaryOp.divide :: arithmetic, l.IsNumber → r.IsNumber →
    ∀ v, op.apply l r = .ok v → l.OfType r v
  /-- What comes of comparing is a truth value. -/
  ordering : ∀ op ∈ orderings, ∀ v, op.apply l r = .ok v → ∃ b, v = .bool b

theorem numeric_eq_error_iff (onInts : Int64 → Int64 → Value) (onFloats : Float → Float → Value)
    (l r : Value) (cause : RuntimeFault) : numeric onInts onFloats l r = .error cause ↔
      cause = .operandsNotNumbers ∧ ¬ (l.IsNumber ∧ r.IsNumber) := by
  unfold numeric
  have hcases := Numbers.cases l r
  generalize Numbers.of? l r = numbers at hcases ⊢
  cases hcases with
  | ints hl hr => simp [hl, hr, Value.IsNumber, Value.IsInt]
  | floats hl hr => simp [hl, hr]
  | none h => simp [h, eq_comm]

theorem sum_eq_error_iff (l r : Value) (cause : RuntimeFault) : sum l r = .error cause ↔
    cause = .operandsNotAddable ∧ ¬ (l.IsNumber ∧ r.IsNumber) ∧ ¬ (l.IsString ∧ r.IsString) := by
  unfold sum
  have hcases := Numbers.cases l r
  generalize Numbers.of? l r = numbers at hcases ⊢
  cases hcases with
  | ints hl hr => simp [hl, hr, Value.IsNumber, Value.IsInt]
  | floats hl hr => simp [hl, hr]
  | none h =>
    dsimp only
    split
    · simp [Value.IsString]
    · rename_i htexts
      have hstrings : ¬ (l.IsString ∧ r.IsString) := by
        rintro ⟨⟨s, rfl⟩, t, rfl⟩
        exact htexts s t rfl rfl
      simp [h, hstrings, eq_comm]

theorem quotient_eq_error_iff (l r : Value) (cause : RuntimeFault) :
    quotient l r = .error cause ↔
      cause = .operandsNotNumbers ∧ ¬ (l.IsNumber ∧ r.IsNumber) ∨
        cause = .divisionByZero ∧ l.IsInt ∧ r = .int 0 := by
  unfold quotient
  have hcases := Numbers.cases l r
  generalize Numbers.of? l r = numbers at hcases ⊢
  cases hcases with
  | @ints a b hl hr =>
    subst hl hr
    by_cases hb : b = 0
    · simp [hb, Value.IsNumber, Value.IsInt, eq_comm]
    · simp [hb, Value.IsNumber, Value.IsInt]
  | floats hl hr float =>
    have hzero : ¬ (l.IsInt ∧ r = .int 0) := by
      rintro ⟨hint, rfl⟩
      rcases float with float | float
      · exact Value.not_isInt_of_isFloat float hint
      · exact Value.not_isInt_of_isFloat float ⟨0, rfl⟩
    simp [hl, hr, hzero]
  | none h =>
    have hzero : ¬ (l.IsInt ∧ r = .int 0) := by
      rintro ⟨hint, rfl⟩
      exact h ⟨.inl hint, .inl ⟨0, rfl⟩⟩
    simp [h, hzero, eq_comm]

/-- An operation that gives an integer for integers and a float for floats. -/
theorem numeric_ofType {f : Int64 → Int64 → Int64} {g : Float → Float → Float} {l r v : Value}
    (h : numeric (fun a b => .int (f a b)) (fun x y => .float (g x y)) l r = .ok v) :
    l.OfType r v := by
  unfold numeric at h
  have hcases := Numbers.cases l r
  generalize Numbers.of? l r = numbers at hcases h
  cases hcases with
  | ints hl hr =>
    cases h
    exact Value.ofType_int hl hr _
  | floats _ _ float =>
    cases h
    exact Value.ofType_float float _
  | none => cases h

theorem sum_ofType {l r v : Value} (hl : l.IsNumber) (h : sum l r = .ok v) : l.OfType r v := by
  unfold sum at h
  have hcases := Numbers.cases l r
  generalize Numbers.of? l r = numbers at hcases h
  cases hcases with
  | ints hl hr =>
    cases h
    exact Value.ofType_int hl hr _
  | floats _ _ float =>
    cases h
    exact Value.ofType_float float _
  | none =>
    dsimp only at h
    split at h
    · exact absurd hl (Value.not_isNumber_of_isString ⟨_, rfl⟩)
    · cases h

theorem quotient_ofType {l r v : Value} (h : quotient l r = .ok v) : l.OfType r v := by
  unfold quotient at h
  have hcases := Numbers.cases l r
  generalize Numbers.of? l r = numbers at hcases h
  cases hcases with
  | ints hl hr =>
    dsimp only at h
    split at h
    · cases h
    · cases h
      exact Value.ofType_int hl hr _
  | floats _ _ float =>
    cases h
    exact Value.ofType_float float _
  | none => cases h

theorem numeric_bool {f : Int64 → Int64 → Bool} {g : Float → Float → Bool} {l r v : Value}
    (h : numeric (fun a b => .bool (f a b)) (fun x y => .bool (g x y)) l r = .ok v) :
    ∃ b, v = .bool b := by
  unfold numeric at h
  split at h
  · cases h
    exact ⟨_, rfl⟩
  · cases h
    exact ⟨_, rfl⟩
  · cases h

theorem typed (l r : Value) : Typed l r where
  equal := ⟨l.equals r, rfl, rfl⟩
  add := sum_eq_error_iff l r
  numeric := by
    simp only [arithmetic, orderings, List.cons_append, List.nil_append, List.forall_mem_cons]
    refine ⟨?_, ?_, ?_, ?_, ?_, ?_, List.forall_mem_nil _⟩ <;>
      exact numeric_eq_error_iff _ _ l r
  divide := quotient_eq_error_iff l r
  type := by
    simp only [arithmetic, List.forall_mem_cons]
    refine ⟨fun hl _ v => sum_ofType hl, fun _ _ v => quotient_ofType, ?_, ?_,
      List.forall_mem_nil _⟩
    · exact fun _ _ v => numeric_ofType
    · exact fun _ _ v => numeric_ofType
  ordering := by
    simp only [orderings, List.forall_mem_cons]
    refine ⟨?_, ?_, ?_, ?_, List.forall_mem_nil _⟩ <;> exact fun v => numeric_bool

end BinaryOp

/-- Which operands an operator before one takes. -/
structure UnaryOp.Typed (v : Value) : Prop where
  not : not.apply v = .ok (.bool !v.isTruthy)
  negate : ∀ cause, negate.apply v = .error cause ↔ cause = .operandNotNumber ∧ ¬ v.IsNumber
  type : ∀ w, UnaryOp.negate.apply v = .ok w → (w.IsInt ↔ v.IsInt) ∧ (w.IsFloat ↔ v.IsFloat)

theorem UnaryOp.typed (v : Value) : Typed v where
  not := rfl
  negate cause := by
    cases v <;> simp [apply, Value.IsNumber, Value.IsInt, Value.IsFloat, eq_comm]
  type w hw := by
    cases v <;> cases hw <;> simp [Value.IsInt, Value.IsFloat]

/-! ## Integers -/

/-- The 64-bit integer is congruent to the number modulo the 64th power of two, and no other is. -/
def Wraps (x : Int) (c : Int64) : Prop := ∀ d : Int64, d.toInt ≡ x [ZMOD 2 ^ 64] ↔ d = c

theorem bmod_modEq (x : Int) : x.bmod (2 ^ 64) ≡ x [ZMOD 2 ^ 64] := Int.bmod_emod

theorem wraps_of_toInt {x : Int} {c : Int64} (h : c.toInt = x.bmod (2 ^ 64)) : Wraps x c := by
  intro d
  constructor
  · intro hd
    apply Int64.toInt_inj.1
    calc d.toInt = d.toInt.bmod (2 ^ 64) := d.toInt_bmod.symm
      _ = x.bmod (2 ^ 64) := by
        rw [← Int.emod_bmod, ← Int.emod_bmod x]
        exact congrArg (Int.bmod · _) hd
      _ = c.toInt := h.symm
  · rintro rfl
    rw [h]
    exact bmod_modEq x

/-- Operators make of integers what arithmetic makes of them modulo the 64th power of two, and a
quotient is rounded toward zero. -/
structure IntegerLaws (a b : Int64) : Prop where
  add : ∃ c, BinaryOp.add.apply (.int a) (.int b) = .ok (.int c) ∧ Wraps (a.toInt + b.toInt) c
  subtract : ∃ c, BinaryOp.subtract.apply (.int a) (.int b) = .ok (.int c) ∧
    Wraps (a.toInt - b.toInt) c
  multiply : ∃ c, BinaryOp.multiply.apply (.int a) (.int b) = .ok (.int c) ∧
    Wraps (a.toInt * b.toInt) c
  negate : ∃ c, UnaryOp.negate.apply (.int a) = .ok (.int c) ∧ Wraps (-a.toInt) c
  /-- What a quotient leaves over is smaller than the divisor, and has the sign of the dividend. -/
  divide : b ≠ 0 → ∃ c, BinaryOp.divide.apply (.int a) (.int b) = .ok (.int c) ∧
    Wraps (a.toInt.tdiv b.toInt) c ∧
    ∃ m : Int, a.toInt ≡ b.toInt * c.toInt + m [ZMOD 2 ^ 64] ∧ |m| < |b.toInt| ∧
      (m = 0 ∨ m.sign = a.toInt.sign)
  /-- The least integer has no opposite, and so dividing it by minus one gives itself. -/
  least : BinaryOp.divide.apply (.int Int64.minValue) (.int (-1)) = .ok (.int Int64.minValue)

/-- A number is the product of divisor and quotient, and a remainder. -/
theorem exists_remainder {a b c : Int64} (hb : b ≠ 0)
    (hc : c.toInt = (a.toInt.tdiv b.toInt).bmod (2 ^ 64)) :
    ∃ m : Int, a.toInt ≡ b.toInt * c.toInt + m [ZMOD 2 ^ 64] ∧ |m| < |b.toInt| ∧
      (m = 0 ∨ m.sign = a.toInt.sign) := by
  refine ⟨a.toInt.tmod b.toInt, ?_, ?_, ?_⟩
  · have hquotient := (bmod_modEq (a.toInt.tdiv b.toInt)).symm
    rw [← hc] at hquotient
    calc a.toInt = b.toInt * a.toInt.tdiv b.toInt + a.toInt.tmod b.toInt :=
          (Int.mul_tdiv_add_tmod _ _).symm
      _ ≡ b.toInt * c.toInt + a.toInt.tmod b.toInt [ZMOD 2 ^ 64] :=
          (hquotient.mul_left _).add_right _
  · have hpos : 0 < b.toInt.natAbs := by
      apply Int.natAbs_pos.2
      intro hzero
      exact hb (Int64.toInt_inj.1 hzero)
    rw [Int.abs_eq_natAbs, Int.abs_eq_natAbs, Int.natAbs_tmod]
    exact Int.ofNat_lt.2 (Nat.mod_lt _ hpos)
  · rw [Int.sign_tmod]
    split
    · rename_i hdvd
      exact .inl (Int.tmod_eq_zero_of_dvd hdvd)
    · exact .inr rfl

theorem integerLaws (a b : Int64) : IntegerLaws a b where
  add := ⟨_, rfl, wraps_of_toInt (Int64.toInt_add a b)⟩
  subtract := ⟨_, rfl, wraps_of_toInt (Int64.toInt_sub a b)⟩
  multiply := ⟨_, rfl, wraps_of_toInt (Int64.toInt_mul a b)⟩
  negate := ⟨_, rfl, wraps_of_toInt (Int64.toInt_neg a)⟩
  divide hb := by
    have hc := Int64.toInt_div a b
    refine ⟨a / b, ?_, wraps_of_toInt hc, exists_remainder hb hc⟩
    show BinaryOp.quotient (.int a) (.int b) = _
    unfold BinaryOp.quotient
    exact if_neg hb
  least := rfl

/-! ## Evaluation -/

/-- What comes of an operator, or its fault at the mark. -/
def Eval.atMark (mark : Token) (r : Except RuntimeFault Value) (m : Machine) :
    EStateM.Result Halt Machine Value :=
  match r with
  | .ok v => .ok v m
  | .error cause => .error (.fault (.atToken (.runtime cause) mark)) m

/-- An operator with these operands gives what it makes of them, or reports its fault at its own
token. -/
structure ReportsAtMark (l r : Value) : Prop where
  binary : ∀ (config : Config) (fuel : Nat) (span : Span) (op : BinaryOp) (mark : Token)
    (left right : Expr) (m m₁ m₂ : Machine), evaluate config fuel left m = .ok l m₁ →
      evaluate config fuel right m₁ = .ok r m₂ →
        evaluate config (fuel + 1) (.binary span op mark left right) m =
          Eval.atMark mark (op.apply l r) m₂
  unary : ∀ (config : Config) (fuel : Nat) (span : Span) (op : UnaryOp) (mark : Token)
    (operand : Expr) (m m₁ : Machine), evaluate config fuel operand m = .ok l m₁ →
      evaluate config (fuel + 1) (.unary span op mark operand) m =
        Eval.atMark mark (op.apply l) m₁

theorem Eval.liftAt_eq_atMark (mark : Token) (r : Except RuntimeFault Value) (m : Machine) :
    liftAt mark r m = atMark mark r m := by
  cases r <;> rfl

theorem reportsAtMark (l r : Value) : ReportsAtMark l r where
  binary config fuel span op mark left right m m₁ m₂ hl hr := by
    rw [evaluate, Eval.paced_eq, Eval.bind_of_ok hl, Eval.bind_of_ok hr, Eval.liftAt_eq_atMark]
  unary config fuel span op mark operand m m₁ hl := by
    rw [evaluate, Eval.paced_eq, Eval.bind_of_ok hl, Eval.liftAt_eq_atMark]

/-- Operators fail on exactly the operands that they do not take, and at their own tokens; else they
give values of the right types, and on integers they compute modulo the 64th power of two. -/
theorem operators_exact (l r : Value) (a b : Int64) :
    BinaryOp.Typed l r ∧ UnaryOp.Typed l ∧ IntegerLaws a b ∧ ReportsAtMark l r :=
  ⟨BinaryOp.typed l r, UnaryOp.typed l, integerLaws a b, reportsAtMark l r⟩

end Scripting
