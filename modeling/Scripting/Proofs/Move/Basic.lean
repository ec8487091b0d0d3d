import Scripting.Tree

/-!
# Texts moved behind others

* `Shift` : how many bytes and how many lines stand in front of a text (`Shift.behind`);
* `Position.move`, `Span.move`, `Token.move` : the same places in the text where it stands;
* `Expr.move`, `Stmt.move` : trees with all places in them moved;
* `Expr.tokens`, `Stmt.tokens` : the tokens that a tree keeps.

Moving changes places only: kinds, words and literals stay, and so does the form of a tree.
-/

namespace Scripting

set_option autoImplicit false

/-! ## Places -/

/-- How many bytes and how many lines a text is moved. -/
structure Shift where
  bytes : Nat
  lines : Nat

namespace Shift

/-- No move at all. -/
def none : Shift := ⟨0, 0⟩

/-- The move of a text that is put behind the text `cs`. -/
def behind (cs : List Char) : Shift := ⟨Position.byteCount cs, cs.count '\n'⟩

end Shift

variable (σ : Shift)

/-- The place in the moved text. -/
def Position.move (p : Position) : Position := ⟨p.offset + σ.bytes, p.line + σ.lines⟩

/-- The range in the moved text. -/
def Span.move (s : Span) : Span := ⟨s.start + σ.bytes, s.stop + σ.bytes⟩

/-- The token of the moved text. -/
def Token.move (t : Token) : Token := { t with line := t.line + σ.lines, span := t.span.move σ }

namespace Position

theorem next_move (p : Position) (c : Char) : (p.move σ).next c = (p.next c).move σ := by
  unfold next move
  split
  · simp only [Nat.add_right_comm]
  · simp only [Nat.add_right_comm]

theorem after_move (p : Position) (cs : List Char) :
    (p.move σ).after cs = (p.after cs).move σ := by
  induction cs generalizing p with
  | nil => rfl
  | cons c cs ih => rw [after_cons, after_cons, next_move, ih]

/-- Behind a text, places are those of a text that begins at the origin, moved. -/
theorem after_eq_move (p : Position) (cs : List Char) : p.after cs = p.move (.behind cs) := by
  have hoffset := offset_after p cs
  have hline := line_after p cs
  cases h : p.after cs with
  | mk offset line =>
    rw [h] at hoffset hline
    rw [move, Shift.behind, ← hoffset, ← hline]

end Position

@[simp] theorem Span.move_through (s t : Span) :
    (s.through t).move σ = (s.move σ).through (t.move σ) := rfl

@[simp] theorem Span.move_none (s : Span) : s.move .none = s := rfl

namespace Token

@[simp] theorem kind_move (t : Token) : (t.move σ).kind = t.kind := rfl

@[simp] theorem lexeme_move (t : Token) : (t.move σ).lexeme = t.lexeme := rfl

@[simp] theorem literal_move (t : Token) : (t.move σ).literal = t.literal := rfl

@[simp] theorem span_move (t : Token) : (t.move σ).span = t.span.move σ := rfl

@[simp] theorem move_none (t : Token) : t.move .none = t := rfl

@[simp] theorem standIn_move (t : Token) (kind : Kind) (lexeme : String) :
    (t.standIn kind lexeme).move σ = (t.move σ).standIn kind lexeme := rfl

@[simp] theorem map_move_none (ts : List Token) : ts.map (move .none) = ts :=
  List.map_id ts

end Token

/-! ## Trees -/

mutual

/-- The expression of the moved text. -/
def Expr.move : Expr → Expr
  | .literal span value => .literal (span.move σ) value
  | .read name => .read (name.move σ)
  | .group span inner => .group (span.move σ) (Expr.move inner)
  | .unary span op mark operand => .unary (span.move σ) op (mark.move σ) (Expr.move operand)
  | .binary span op mark left right =>
    .binary (span.move σ) op (mark.move σ) (Expr.move left) (Expr.move right)
  | .logical span op mark left right =>
    .logical (span.move σ) op (mark.move σ) (Expr.move left) (Expr.move right)
  | .assign span name value => .assign (span.move σ) (name.move σ) (Expr.move value)
  | .call span paren callee arguments =>
    .call (span.move σ) (paren.move σ) (Expr.move callee) (Expr.moveAll arguments)
  | .function span parameters body =>
    .function (span.move σ) (parameters.map (Token.move σ)) (Stmt.moveAll body)

/-- The expressions of the moved text. -/
def Expr.moveAll : List Expr → List Expr
  | [] => []
  | e :: es => Expr.move e :: Expr.moveAll es

/-- The expression of the moved text, if there is one. -/
def Expr.moveOption : Option Expr → Option Expr
  | none => none
  | some e => some (Expr.move e)

/-- The statement of the moved text. -/
def Stmt.move : Stmt → Stmt
  | .block span body => .block (span.move σ) (Stmt.moveAll body)
  | .expression span value => .expression (span.move σ) (Expr.move value)
  | .function span name parameters body =>
    .function (span.move σ) (name.move σ) (parameters.map (Token.move σ)) (Stmt.moveAll body)
  | .branch span condition whenTrue whenFalse =>
    .branch (span.move σ) (Expr.move condition) (Stmt.move whenTrue) (Stmt.moveOption whenFalse)
  | .loop span condition body => .loop (span.move σ) (Expr.move condition) (Stmt.move body)
  | .leave span keyword value => .leave (span.move σ) (keyword.move σ) (Expr.moveOption value)
  | .define span name initial => .define (span.move σ) (name.move σ) (Expr.moveOption initial)
  | .breakLoop span keyword => .breakLoop (span.move σ) (keyword.move σ)
  | .continueLoop span keyword => .continueLoop (span.move σ) (keyword.move σ)

/-- The statements of the moved text. -/
def Stmt.moveAll : List Stmt → List Stmt
  | [] => []
  | s :: rest => Stmt.move s :: Stmt.moveAll rest

/-- The statement of the moved text, if there is one. -/
def Stmt.moveOption : Option Stmt → Option Stmt
  | none => none
  | some s => some (Stmt.move s)

end

@[simp] theorem Expr.moveAll_eq (es : List Expr) : Expr.moveAll σ es = es.map (Expr.move σ) := by
  induction es with
  | nil => rfl
  | cons e es ih => rw [moveAll, ih, List.map_cons]

@[simp] theorem Expr.moveOption_eq (e : Option Expr) :
    Expr.moveOption σ e = e.map (Expr.move σ) := by
  cases e <;> rfl

@[simp] theorem Stmt.moveAll_eq (ss : List Stmt) : Stmt.moveAll σ ss = ss.map (Stmt.move σ) := by
  induction ss with
  | nil => rfl
  | cons s rest ih => rw [moveAll, ih, List.map_cons]

@[simp] theorem Stmt.moveOption_eq (s : Option Stmt) :
    Stmt.moveOption σ s = s.map (Stmt.move σ) := by
  cases s <;> rfl

@[simp] theorem Expr.span_move (e : Expr) : (e.move σ).span = e.span.move σ := by
  cases e <;> rfl

@[simp] theorem Stmt.span_move (s : Stmt) : (s.move σ).span = s.span.move σ := by
  cases s <;> rfl

/-- The parts of a loop are moved each for itself. -/
theorem Stmt.forLoop_move (span : Span) (keyword : Token) (initial : Option Stmt)
    (condition step : Option Expr) (body : Stmt) :
    (forLoop span keyword initial condition step body).move σ =
      forLoop (span.move σ) (keyword.move σ) (initial.map (Stmt.move σ))
        (condition.map (Expr.move σ)) (step.map (Expr.move σ)) (body.move σ) := by
  cases initial <;> cases condition <;> cases step <;>
    simp [forLoop, Stmt.move, Stmt.moveAll, Expr.move]

mutual

theorem Expr.move_none : (e : Expr) → e.move .none = e
  | .literal .. | .read .. => rfl
  | .group _ inner => by rw [Expr.move, Expr.move_none inner, Span.move_none]
  | .unary _ _ _ operand => by rw [Expr.move, Expr.move_none operand]; rfl
  | .binary _ _ _ left right => by rw [Expr.move, Expr.move_none left, Expr.move_none right]; rfl
  | .logical _ _ _ left right => by rw [Expr.move, Expr.move_none left, Expr.move_none right]; rfl
  | .assign _ _ value => by rw [Expr.move, Expr.move_none value]; rfl
  | .call _ _ callee arguments => by
    rw [Expr.move, Expr.move_none callee, Expr.moveAll_none arguments]; rfl
  | .function _ parameters body => by
    rw [Expr.move, Token.map_move_none, Stmt.moveAll_none body, Span.move_none]

theorem Expr.moveAll_none : (es : List Expr) → Expr.moveAll .none es = es
  | [] => rfl
  | e :: es => by rw [Expr.moveAll, Expr.move_none e, Expr.moveAll_none es]

theorem Expr.moveOption_none : (e : Option Expr) → Expr.moveOption .none e = e
  | none => rfl
  | some e => by rw [Expr.moveOption, Expr.move_none e]

theorem Stmt.move_none : (s : Stmt) → s.move .none = s
  | .block _ body => by rw [Stmt.move, Stmt.moveAll_none body, Span.move_none]
  | .expression _ value => by rw [Stmt.move, Expr.move_none value, Span.move_none]
  | .function _ _ parameters body => by
    rw [Stmt.move, Token.map_move_none, Stmt.moveAll_none body]; rfl
  | .branch _ condition whenTrue whenFalse => by
    rw [Stmt.move, Expr.move_none condition, Stmt.move_none whenTrue,
      Stmt.moveOption_none whenFalse]; rfl
  | .loop _ condition body => by rw [Stmt.move, Expr.move_none condition, Stmt.move_none body]; rfl
  | .leave _ _ value => by rw [Stmt.move, Expr.moveOption_none value]; rfl
  | .define _ _ initial => by rw [Stmt.move, Expr.moveOption_none initial]; rfl
  | .breakLoop .. | .continueLoop .. => rfl

theorem Stmt.moveAll_none : (ss : List Stmt) → Stmt.moveAll .none ss = ss
  | [] => rfl
  | s :: rest => by rw [Stmt.moveAll, Stmt.move_none s, Stmt.moveAll_none rest]

theorem Stmt.moveOption_none : (s : Option Stmt) → Stmt.moveOption .none s = s
  | none => rfl
  | some s => by rw [Stmt.moveOption, Stmt.move_none s]

end

/-! ## The tokens that a tree keeps -/

mutual

/-- The tokens that an expression keeps. -/
def Expr.tokens : Expr → List Token
  | .literal .. => []
  | .read name => [name]
  | .group _ inner => Expr.tokens inner
  | .unary _ _ mark operand => mark :: Expr.tokens operand
  | .binary _ _ mark left right => mark :: (Expr.tokens left ++ Expr.tokens right)
  | .logical _ _ mark left right => mark :: (Expr.tokens left ++ Expr.tokens right)
  | .assign _ name value => name :: Expr.tokens value
  | .call _ paren callee arguments => paren :: (Expr.tokens callee ++ Expr.tokensOfAll arguments)
  | .function _ parameters body => parameters ++ Stmt.tokensOfAll body

/-- The tokens that expressions keep. -/
def Expr.tokensOfAll : List Expr → List Token
  | [] => []
  | e :: es => Expr.tokens e ++ Expr.tokensOfAll es

/-- The tokens that an expression keeps, if there is one. -/
def Expr.tokensOfOption : Option Expr → List Token
  | none => []
  | some e => Expr.tokens e

/-- The tokens that a statement keeps. -/
def Stmt.tokens : Stmt → List Token
  | .block _ body => Stmt.tokensOfAll body
  | .expression _ value => Expr.tokens value
  | .function _ name parameters body => name :: (parameters ++ Stmt.tokensOfAll body)
  | .branch _ condition whenTrue whenFalse =>
    Expr.tokens condition ++ (Stmt.tokens whenTrue ++ Stmt.tokensOfOption whenFalse)
  | .loop _ condition body => Expr.tokens condition ++ Stmt.tokens body
  | .leave _ keyword value => keyword :: Expr.tokensOfOption value
  | .define _ name initial => name :: Expr.tokensOfOption initial
  | .breakLoop _ keyword => [keyword]
  | .continueLoop _ keyword => [keyword]

/-- The tokens that statements keep. -/
def Stmt.tokensOfAll : List Stmt → List Token
  | [] => []
  | s :: rest => Stmt.tokens s ++ Stmt.tokensOfAll rest

/-- The tokens that a statement keeps, if there is one. -/
def Stmt.tokensOfOption : Option Stmt → List Token
  | none => []
  | some s => Stmt.tokens s

end

end Scripting
