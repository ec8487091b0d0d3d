import Scripting.Proofs.Move.Programs

/-!
# Texts without loops

* `Expr.hasLoop`, `Stmt.hasLoop` : whether there is a loop in a tree, in the bodies of its functions
  too;
* `LoopFree` : a text without the words that begin loops;
* `Program.hasLoop_of_parse?` : a program that was read from such a text has no loop.
-/

namespace Scripting

set_option autoImplicit false

/-! ## Trees -/

mutual

/-- Whether there is a loop in an expression, that is, in the body of a function in it. -/
def Expr.hasLoop : Expr → Bool
  | .literal _ _ => false
  | .read _ => false
  | .group _ inner => inner.hasLoop
  | .unary _ _ _ operand => operand.hasLoop
  | .binary _ _ _ left right => left.hasLoop || right.hasLoop
  | .logical _ _ _ left right => left.hasLoop || right.hasLoop
  | .assign _ _ value => value.hasLoop
  | .call _ _ callee arguments => callee.hasLoop || Expr.anyHasLoop arguments
  | .function _ _ body => Stmt.anyHasLoop body

/-- Whether there is a loop in one of the expressions. -/
def Expr.anyHasLoop : List Expr → Bool
  | [] => false
  | e :: es => e.hasLoop || Expr.anyHasLoop es

/-- Whether there is a loop in an expression that may be missing. -/
def Expr.optionHasLoop : Option Expr → Bool
  | none => false
  | some e => e.hasLoop

/-- Whether there is a loop in a statement. -/
def Stmt.hasLoop : Stmt → Bool
  | .block _ body => Stmt.anyHasLoop body
  | .expression _ value => value.hasLoop
  | .function _ _ _ body => Stmt.anyHasLoop body
  | .branch _ condition whenTrue whenFalse =>
    condition.hasLoop || whenTrue.hasLoop || Stmt.optionHasLoop whenFalse
  | .loop _ _ _ => true
  | .leave _ _ value => Expr.optionHasLoop value
  | .define _ _ initial => Expr.optionHasLoop initial
  | .breakLoop _ _ => false
  | .continueLoop _ _ => false

/-- Whether there is a loop in one of the statements. -/
def Stmt.anyHasLoop : List Stmt → Bool
  | [] => false
  | s :: ss => s.hasLoop || Stmt.anyHasLoop ss

/-- Whether there is a loop in a statement that may be missing. -/
def Stmt.optionHasLoop : Option Stmt → Bool
  | none => false
  | some s => s.hasLoop

end

theorem Expr.hasLoop_of_mem {e : Expr} {es : List Expr} (h : Expr.anyHasLoop es = false)
    (he : e ∈ es) : e.hasLoop = false := by
  induction es with
  | nil => cases he
  | cons e' es ih =>
    rw [anyHasLoop, Bool.or_eq_false_iff] at h
    rcases List.mem_cons.1 he with rfl | he
    · exact h.1
    · exact ih h.2 he

/-! ## Words -/

/-- The words that begin a loop. -/
def Kind.startsLoop : Kind → Bool
  | forWord | whileWord => true
  | _ => false

/-- None of the tokens begins a loop. -/
def NoLoopWord (ts : List Token) : Prop := ∀ t ∈ ts, t.kind.startsLoop = false

/-- The text has no word that begins a loop. -/
def LoopFree (source : String) : Prop := NoLoopWord (scan source).tokens

instance (ts : List Token) : Decidable (NoLoopWord ts) :=
  inferInstanceAs (Decidable (∀ t ∈ ts, t.kind.startsLoop = false))

instance (source : String) : Decidable (LoopFree source) :=
  inferInstanceAs (Decidable (NoLoopWord (scan source).tokens))

theorem noLoopWord_cons {t : Token} {ts : List Token} :
    NoLoopWord (t :: ts) ↔ t.kind.startsLoop = false ∧ NoLoopWord ts :=
  List.forall_mem_cons

theorem noLoopWord_append {ts us : List Token} :
    NoLoopWord (ts ++ us) ↔ NoLoopWord ts ∧ NoLoopWord us :=
  List.forall_mem_append

/-! ## What the grammar derives -/

namespace Grammar

mutual

theorem Expression.hasLoop {d : Nat} {ts : List Token} {e : Expr} :
    Expression d ts e → NoLoopWord ts → e.hasLoop = false
  | .nest _ inside => inside.hasLoop

theorem Assignment.hasLoop {d : Nat} {ts : List Token} {e : Expr} :
    Assignment d ts e → NoLoopWord ts → e.hasLoop = false
  | .operand whole => whole.hasLoop
  | .assign _ _ _ right => fun free => by
    rw [noLoopWord_cons, noLoopWord_cons] at free
    exact right.hasLoop free.2.2

theorem Operand.hasLoop {d : Nat} {ts : List Token} {e : Expr} :
    Operand d ts e → NoLoopWord ts → e.hasLoop = false
  | .function _ part => fun free => by
    rw [noLoopWord_cons] at free
    exact part.hasLoop free.2
  | .compound whole => whole.hasLoop

theorem Compound.hasLoop {d : Nat} {ts : List Token} {e : Expr} :
    Compound d ts e → NoLoopWord ts → e.hasLoop = false
  | .joined whole => whole.hasLoop
  | .combine _ _ _ right => fun free => by
    rw [noLoopWord_cons, noLoopWord_cons] at free
    exact right.hasLoop free.2.2

theorem Joined.hasLoop {levels : List (Kind → Option Joint)} {d : Nat} {ts : List Token}
    {e : Expr} : Joined levels d ts e → NoLoopWord ts → e.hasLoop = false
  | .unary whole => whole.hasLoop
  | .tighter whole => whole.hasLoop
  | @Joined.join _ _ _ _ _ _ joint _ _ left _ right => fun free => by
    rw [noLoopWord_append, noLoopWord_cons] at free
    have hleft := left.hasLoop free.1
    have hright := right.hasLoop free.2.2
    cases joint with
    | binary => exact Bool.or_eq_false_iff.2 ⟨hleft, hright⟩
    | logical => exact Bool.or_eq_false_iff.2 ⟨hleft, hright⟩

theorem Unary.hasLoop {d : Nat} {ts : List Token} {e : Expr} :
    Unary d ts e → NoLoopWord ts → e.hasLoop = false
  | .operator _ _ operand => fun free => by
    rw [noLoopWord_cons] at free
    exact operand.hasLoop free.2
  | .call whole => whole.hasLoop

theorem Call.hasLoop {d : Nat} {ts : List Token} {e : Expr} :
    Call d ts e → NoLoopWord ts → e.hasLoop = false
  | .primary whole => whole.hasLoop
  | .call left _ right _ => fun free => by
    rw [noLoopWord_append, noLoopWord_append, noLoopWord_cons] at free
    exact Bool.or_eq_false_iff.2 ⟨left.hasLoop free.1.1, right.hasLoop free.1.2.2⟩

theorem Arguments.hasLoop {d : Nat} {ts : List Token} {arguments : List Expr} :
    Arguments d ts arguments → NoLoopWord ts → Expr.anyHasLoop arguments = false
  | .none => fun _ => rfl
  | .some values _ => values.hasLoop

theorem Values.hasLoop {d : Nat} {ts : List Token} {es : List Expr} :
    Values d ts es → NoLoopWord ts → Expr.anyHasLoop es = false
  | .one value => fun free => Bool.or_eq_false_iff.2 ⟨value.hasLoop free, rfl⟩
  | .more value _ rest => fun free => by
    rw [noLoopWord_append, noLoopWord_cons] at free
    exact Bool.or_eq_false_iff.2 ⟨value.hasLoop free.1, rest.hasLoop free.2.2⟩

theorem Primary.hasLoop {d : Nat} {ts : List Token} {e : Expr} :
    Primary d ts e → NoLoopWord ts → e.hasLoop = false
  | .literal _ => fun _ => rfl
  | .name _ => fun _ => rfl
  | .group _ inside _ => fun free => by
    rw [noLoopWord_append, noLoopWord_cons] at free
    exact inside.hasLoop free.1.2

theorem FunctionRest.hasLoop {d : Nat} {ts parameters : List Token} {body : List Stmt}
    {last : Token} :
    FunctionRest d ts parameters body last → NoLoopWord ts → Stmt.anyHasLoop body = false
  | .mk _ _ _ _ rest => fun free => by
    simp only [noLoopWord_append, noLoopWord_cons] at free
    exact rest.hasLoop free.2.2.2

theorem BlockRest.hasLoop {d : Nat} {ts : List Token} {body : List Stmt} {closing : Token} :
    BlockRest d ts body closing → NoLoopWord ts → Stmt.anyHasLoop body = false
  | .mk inside _ => fun free => inside.hasLoop (noLoopWord_append.1 free).1

theorem Declarations.hasLoop {d : Nat} {ts : List Token} {ss : List Stmt} :
    Declarations d ts ss → NoLoopWord ts → Stmt.anyHasLoop ss = false
  | .nil => fun _ => rfl
  | .cons first others => fun free => by
    rw [noLoopWord_append] at free
    exact Bool.or_eq_false_iff.2 ⟨first.hasLoop free.1, others.hasLoop free.2⟩

theorem Declaration.hasLoop {d : Nat} {ts : List Token} {s : Stmt} :
    Declaration d ts s → NoLoopWord ts → s.hasLoop = false
  | .function _ _ part => fun free => by
    rw [noLoopWord_cons, noLoopWord_cons] at free
    exact part.hasLoop free.2.2
  | .define _ rest => fun free => rest.hasLoop (noLoopWord_cons.1 free).2
  | .statement whole => whole.hasLoop

theorem LetRest.hasLoop {d : Nat} {keyword : Token} {ts : List Token} {s : Stmt} :
    LetRest d keyword ts s → NoLoopWord ts → s.hasLoop = false
  | .bare _ _ => fun _ => rfl
  | .initial _ _ value _ => fun free => by
    rw [noLoopWord_append, noLoopWord_cons, noLoopWord_cons] at free
    exact value.hasLoop free.1.2.2

theorem ExpressionStatement.hasLoop {d : Nat} {ts : List Token} {s : Stmt} :
    ExpressionStatement d ts s → NoLoopWord ts → s.hasLoop = false
  | .mk value _ => fun free => value.hasLoop (noLoopWord_append.1 free).1

theorem Statement.hasLoop {dangling : Bool} {d : Nat} {ts : List Token} {s : Stmt} :
    Statement dangling d ts s → NoLoopWord ts → s.hasLoop = false
  | .nest _ inside => inside.hasLoop

/-- A loop begins with a word that the tokens do not have. -/
theorem StatementForm.hasLoop {dangling : Bool} {d : Nat} {ts : List Token} {s : Stmt} :
    StatementForm dangling d ts s → NoLoopWord ts → s.hasLoop = false
  | .forLoop hkeyword .. => fun free => by
    have hfor := free _ List.mem_cons_self
    rw [hkeyword] at hfor
    cases hfor
  | .branch _ _ test _ first => fun free => by
    rw [noLoopWord_append, noLoopWord_cons, noLoopWord_cons, noLoopWord_cons] at free
    rw [Stmt.hasLoop, test.hasLoop free.1.2.2, first.hasLoop free.2.2]
    rfl
  | .branchElse _ _ test _ first _ second => fun free => by
    simp only [noLoopWord_append, noLoopWord_cons] at free
    rw [Stmt.hasLoop, test.hasLoop free.1.1.2.2, first.hasLoop free.1.2.2]
    exact second.hasLoop free.2.2
  | .leave _ result _ => fun free => by
    rw [noLoopWord_append, noLoopWord_cons] at free
    exact result.hasLoop free.1.2
  | .loop hkeyword .. => fun free => by
    have hwhile := free _ List.mem_cons_self
    rw [hkeyword] at hwhile
    cases hwhile
  | .breakLoop _ _ => fun _ => rfl
  | .continueLoop _ _ => fun _ => rfl
  | .block _ rest => fun free => rest.hasLoop (noLoopWord_cons.1 free).2
  | .expression whole => whole.hasLoop

theorem Clause.hasLoop {d : Nat} {ts : List Token} {value : Option Expr} :
    Clause d ts value → NoLoopWord ts → Expr.optionHasLoop value = false
  | .none => fun _ => rfl
  | .some value => value.hasLoop

end

end Grammar

/-- A program that was read from a text without loops has none. -/
theorem Program.hasLoop_of_parse? {source : String} {ss : List Stmt}
    (h : parse? source = .ok ss) (free : LoopFree source) : Stmt.anyHasLoop ss = false := by
  refine ((parse?_eq_ok source ss).1 h).2.hasLoop fun t ht => free t ?_
  rw [← beforeEnd_tokens_scan] at ht
  exact (List.takeWhile_subset _) ht

end Scripting
