import Mathlib.Data.List.Forall2
import Scripting.Tree

/-!
# Programs with a name replaced in a function

* `FunctionText` : a function of a program, with the part of the text that its parameters and its
  body are in (`Expr.functions`, `Stmt.functions`);
* `Renaming`, `Renaming.name` : a name and the one that replaces it inside the function;
* `Token.Keeps`, `Renaming.Names`, `Renaming.Writes` : tokens with the same word, names of which one
  may replace the other, and tokens of which one may stand in the place of the other;
* `Expr.Renames`, `Stmt.Renames` : trees that are the same but for spans and names replaced.

A tree is inside the function or around it. A function may lie inside though the tree that makes it
does not, if the name is one of its parameters (`Renaming.Enters`).
-/

namespace Scripting

set_option autoImplicit false

/-! ## Functions of a program -/

/-- A function of a program. The range holds its parameters and its body, and no other name; if the
function has no name, the word that begins it is in the range too. -/
structure FunctionText where
  range : Span
  name : Option String
  parameters : List Token
  body : List Stmt

mutual

/-- The functions that an expression makes, those inside of others too. -/
def Expr.functions : Expr → List FunctionText
  | .literal .. | .read .. => []
  | .group _ inner => Expr.functions inner
  | .unary _ _ _ operand => Expr.functions operand
  | .binary _ _ _ left right => Expr.functions left ++ Expr.functions right
  | .logical _ _ _ left right => Expr.functions left ++ Expr.functions right
  | .assign _ _ value => Expr.functions value
  | .call _ _ callee arguments => Expr.functions callee ++ Expr.functionsOfAll arguments
  | .function span parameters body => ⟨span, none, parameters, body⟩ :: Stmt.functionsOfAll body

/-- The functions that expressions make. -/
def Expr.functionsOfAll : List Expr → List FunctionText
  | [] => []
  | e :: es => Expr.functions e ++ Expr.functionsOfAll es

/-- The functions that an expression makes, if there is one. -/
def Expr.functionsOfOption : Option Expr → List FunctionText
  | none => []
  | some e => Expr.functions e

/-- The functions that a statement makes, those inside of others too. -/
def Stmt.functions : Stmt → List FunctionText
  | .block _ body => Stmt.functionsOfAll body
  | .expression _ value => Expr.functions value
  | .function span name parameters body =>
    ⟨⟨name.span.stop, span.stop⟩, some name.lexeme, parameters, body⟩ :: Stmt.functionsOfAll body
  | .branch _ condition whenTrue whenFalse =>
    Expr.functions condition ++ (Stmt.functions whenTrue ++ Stmt.functionsOfOption whenFalse)
  | .loop _ condition body => Expr.functions condition ++ Stmt.functions body
  | .leave _ _ value => Expr.functionsOfOption value
  | .define _ _ initial => Expr.functionsOfOption initial
  | .breakLoop .. | .continueLoop .. => []

/-- The functions that statements make. -/
def Stmt.functionsOfAll : List Stmt → List FunctionText
  | [] => []
  | s :: rest => Stmt.functions s ++ Stmt.functionsOfAll rest

/-- The functions that a statement makes, if there is one. -/
def Stmt.functionsOfOption : Option Stmt → List FunctionText
  | none => []
  | some s => Stmt.functions s

end

/-- The functions of a loop are those of its parts. -/
theorem Stmt.mem_functions_forLoop {span : Span} {keyword : Token} {initial : Option Stmt}
    {condition step : Option Expr} {body : Stmt} {F : FunctionText} :
    F ∈ (forLoop span keyword initial condition step body).functions ↔
      F ∈ functionsOfOption initial ∨ F ∈ Expr.functionsOfOption condition ∨
        F ∈ Expr.functionsOfOption step ∨ F ∈ body.functions := by
  cases initial <;> cases condition <;> cases step <;>
    simp [forLoop, functions, functionsOfAll, functionsOfOption, Expr.functions,
      Expr.functionsOfOption, or_comm]

/-! ## Names -/

/-- A name of a function and the one that replaces it there. -/
structure Renaming where
  old : String
  new : String

namespace Renaming

variable (r : Renaming)

/-- The name that stands for `n`, inside the function or around it. -/
def name (inside : Bool) (n : String) : String := if inside = true ∧ n = r.old then r.new else n

/-- The name is not the new one where that would make a difference. -/
def Free (inside : Bool) (n : String) : Prop := inside = true → n ≠ r.new

variable {r} {inside : Bool} {m n : String}

@[simp] theorem name_false (n : String) : r.name false n = n := by
  simp [name]

theorem name_of_ne (h : n ≠ r.old) : r.name inside n = n := by
  simp [name, h]

theorem name_eq_self (h : inside = true → n ≠ r.old) : r.name inside n = n := by
  cases inside with
  | false => exact name_false n
  | true => exact name_of_ne (h rfl)

theorem free_false (n : String) : r.Free false n := nofun

theorem name_inj (hm : r.Free inside m) (hn : r.Free inside n) :
    r.name inside m = r.name inside n ↔ m = n := by
  cases inside with
  | false => simp
  | true =>
    have hm := hm rfl
    have hn := hn rfl
    unfold name
    split <;> split <;> simp_all [eq_comm]

/-- The function with these parameters is inside if the tree that makes it is, or if one of its
parameters has the name. -/
def Enters (r : Renaming) (inside inner : Bool) (parameters : List Token) : Prop :=
  inner = inside ∨ inner = true ∧ r.old ∈ parameters.map Token.lexeme

end Renaming

/-! ## Tokens -/

/-- Tokens with the same word, on the same line. -/
structure Token.Keeps (t t' : Token) : Prop where
  kind : t'.kind = t.kind
  lexeme : t'.lexeme = t.lexeme
  line : t'.line = t.line

theorem Token.Keeps.refl (t : Token) : t.Keeps t := ⟨rfl, rfl, rfl⟩

theorem Token.Keeps.standIn {t t' : Token} (h : t.Keeps t') (kind : Kind) (lexeme : String) :
    (t.standIn kind lexeme).Keeps (t'.standIn kind lexeme) := ⟨rfl, rfl, h.line⟩

namespace Renaming

variable (r : Renaming) (inside : Bool)

/-- The second token is a name that stands for the first one. -/
structure Names (t t' : Token) : Prop where
  kind : t'.kind = t.kind
  lexeme : t'.lexeme = r.name inside t.lexeme
  line : t'.line = t.line
  free : r.Free inside t.lexeme

/-- The second token stands in the place of the first one, with another word if that is a name. -/
structure Writes (t t' : Token) : Prop where
  kind : t'.kind = t.kind
  lexeme : t'.lexeme = if t.kind = .identifier then r.name inside t.lexeme else t.lexeme
  literal : t'.literal = t.literal
  line : t'.line = t.line
  free : r.Free inside t.lexeme

variable {r inside} {t t' : Token}

theorem Names.keeps (h : r.Names inside t t') (hname : r.name inside t.lexeme = t.lexeme) :
    t.Keeps t' := ⟨h.kind, h.lexeme.trans hname, h.line⟩

theorem Names.refl (t : Token) : r.Names false t t := ⟨rfl, by simp, rfl, free_false _⟩

theorem Writes.names (h : r.Writes inside t t') (hkind : t.kind = .identifier) :
    r.Names inside t t' := ⟨h.kind, by rw [h.lexeme, if_pos hkind], h.line, h.free⟩

theorem Writes.keeps (h : r.Writes inside t t') (hkind : t.kind ≠ .identifier) : t.Keeps t' :=
  ⟨h.kind, by rw [h.lexeme, if_neg hkind], h.line⟩

end Renaming

/-! ## Trees -/

variable (r : Renaming)

mutual

/-- Expressions that are the same but for spans and names replaced, inside or around. -/
inductive Expr.Renames : Bool → Expr → Expr → Prop
  | literal {inside : Bool} {span span' : Span} {value : Literal} :
      Expr.Renames inside (.literal span value) (.literal span' value)
  | read {inside : Bool} {name name' : Token} (hname : r.Names inside name name') :
      Expr.Renames inside (.read name) (.read name')
  | group {inside : Bool} {span span' : Span} {inner inner' : Expr}
      (hinner : Expr.Renames inside inner inner') :
      Expr.Renames inside (.group span inner) (.group span' inner')
  | unary {inside : Bool} {span span' : Span} {op : UnaryOp} {mark mark' : Token}
      {operand operand' : Expr} (hmark : mark.Keeps mark')
      (hoperand : Expr.Renames inside operand operand') :
      Expr.Renames inside (.unary span op mark operand) (.unary span' op mark' operand')
  | binary {inside : Bool} {span span' : Span} {op : BinaryOp} {mark mark' : Token}
      {left left' right right' : Expr} (hmark : mark.Keeps mark')
      (hleft : Expr.Renames inside left left') (hright : Expr.Renames inside right right') :
      Expr.Renames inside (.binary span op mark left right) (.binary span' op mark' left' right')
  | logical {inside : Bool} {span span' : Span} {op : LogicalOp} {mark mark' : Token}
      {left left' right right' : Expr} (hleft : Expr.Renames inside left left')
      (hright : Expr.Renames inside right right') :
      Expr.Renames inside (.logical span op mark left right) (.logical span' op mark' left' right')
  | assign {inside : Bool} {span span' : Span} {name name' : Token} {value value' : Expr}
      (hname : r.Names inside name name') (hvalue : Expr.Renames inside value value') :
      Expr.Renames inside (.assign span name value) (.assign span' name' value')
  | call {inside : Bool} {span span' : Span} {paren paren' : Token} {callee callee' : Expr}
      {arguments arguments' : List Expr} (hparen : paren.Keeps paren')
      (hcallee : Expr.Renames inside callee callee')
      (harguments : Expr.RenamesAll inside arguments arguments') :
      Expr.Renames inside (.call span paren callee arguments)
        (.call span' paren' callee' arguments')
  | function {inside inner : Bool} {span span' : Span} {parameters parameters' : List Token}
      {body body' : List Stmt} (enters : r.Enters inside inner parameters)
      (hparameters : List.Forall₂ (r.Names inner) parameters parameters')
      (hbody : Stmt.RenamesAll inner body body') :
      Expr.Renames inside (.function span parameters body) (.function span' parameters' body')

/-- Expressions, each the same but for spans and names replaced. -/
inductive Expr.RenamesAll : Bool → List Expr → List Expr → Prop
  | nil {inside : Bool} : Expr.RenamesAll inside [] []
  | cons {inside : Bool} {e e' : Expr} {es es' : List Expr} (first : Expr.Renames inside e e')
      (others : Expr.RenamesAll inside es es') : Expr.RenamesAll inside (e :: es) (e' :: es')

/-- Both expressions are missing, or they are the same but for spans and names replaced. -/
inductive Expr.RenamesOption : Bool → Option Expr → Option Expr → Prop
  | none {inside : Bool} : Expr.RenamesOption inside none none
  | some {inside : Bool} {e e' : Expr} (h : Expr.Renames inside e e') :
      Expr.RenamesOption inside (some e) (some e')

/-- Statements that are the same but for spans and names replaced, inside or around. The name of a
function is kept. -/
inductive Stmt.Renames : Bool → Stmt → Stmt → Prop
  | block {inside : Bool} {span span' : Span} {body body' : List Stmt}
      (hbody : Stmt.RenamesAll inside body body') :
      Stmt.Renames inside (.block span body) (.block span' body')
  | expression {inside : Bool} {span span' : Span} {value value' : Expr}
      (hvalue : Expr.Renames inside value value') :
      Stmt.Renames inside (.expression span value) (.expression span' value')
  | function {inside inner : Bool} {span span' : Span} {name name' : Token}
      {parameters parameters' : List Token} {body body' : List Stmt}
      (hname : r.Names inside name name') (kept : inside = true → name.lexeme ≠ r.old)
      (enters : r.Enters inside inner parameters)
      (hparameters : List.Forall₂ (r.Names inner) parameters parameters')
      (hbody : Stmt.RenamesAll inner body body') :
      Stmt.Renames inside (.function span name parameters body)
        (.function span' name' parameters' body')
  | branch {inside : Bool} {span span' : Span} {condition condition' : Expr}
      {whenTrue whenTrue' : Stmt} {whenFalse whenFalse' : Option Stmt}
      (hcondition : Expr.Renames inside condition condition')
      (hwhenTrue : Stmt.Renames inside whenTrue whenTrue')
      (hwhenFalse : Stmt.RenamesOption inside whenFalse whenFalse') :
      Stmt.Renames inside (.branch span condition whenTrue whenFalse)
        (.branch span' condition' whenTrue' whenFalse')
  | loop {inside : Bool} {span span' : Span} {condition condition' : Expr} {body body' : Stmt}
      (hcondition : Expr.Renames inside condition condition')
      (hbody : Stmt.Renames inside body body') :
      Stmt.Renames inside (.loop span condition body) (.loop span' condition' body')
  | leave {inside : Bool} {span span' : Span} {keyword keyword' : Token}
      {value value' : Option Expr} (hkeyword : keyword.Keeps keyword')
      (hvalue : Expr.RenamesOption inside value value') :
      Stmt.Renames inside (.leave span keyword value) (.leave span' keyword' value')
  | define {inside : Bool} {span span' : Span} {name name' : Token}
      {initial initial' : Option Expr} (hname : r.Names inside name name')
      (hinitial : Expr.RenamesOption inside initial initial') :
      Stmt.Renames inside (.define span name initial) (.define span' name' initial')
  | breakLoop {inside : Bool} {span span' : Span} {keyword keyword' : Token}
      (hkeyword : keyword.Keeps keyword') :
      Stmt.Renames inside (.breakLoop span keyword) (.breakLoop span' keyword')
  | continueLoop {inside : Bool} {span span' : Span} {keyword keyword' : Token}
      (hkeyword : keyword.Keeps keyword') :
      Stmt.Renames inside (.continueLoop span keyword) (.continueLoop span' keyword')

/-- Statements, each the same but for spans and names replaced. -/
inductive Stmt.RenamesAll : Bool → List Stmt → List Stmt → Prop
  | nil {inside : Bool} : Stmt.RenamesAll inside [] []
  | cons {inside : Bool} {s s' : Stmt} {ss ss' : List Stmt} (first : Stmt.Renames inside s s')
      (others : Stmt.RenamesAll inside ss ss') : Stmt.RenamesAll inside (s :: ss) (s' :: ss')

/-- Both statements are missing, or they are the same but for spans and names replaced. -/
inductive Stmt.RenamesOption : Bool → Option Stmt → Option Stmt → Prop
  | none {inside : Bool} : Stmt.RenamesOption inside none none
  | some {inside : Bool} {s s' : Stmt} (h : Stmt.Renames inside s s') :
      Stmt.RenamesOption inside (some s) (some s')

end

variable {r}

theorem Expr.RenamesAll.length_eq {inside : Bool} {es es' : List Expr}
    (h : Expr.RenamesAll r inside es es') : es'.length = es.length := by
  induction es generalizing es' with
  | nil => cases h; rfl
  | cons e es ih =>
    cases h with
    | cons _ others => rw [List.length_cons, List.length_cons, ih others]

/-- In a loop names are replaced if they are in its parts. -/
theorem Stmt.Renames.forLoop {inside : Bool} {span span' : Span} {keyword keyword' : Token}
    {initial initial' : Option Stmt} {condition condition' step step' : Option Expr}
    {body body' : Stmt} (hinitial : Stmt.RenamesOption r inside initial initial')
    (hcondition : Expr.RenamesOption r inside condition condition')
    (hstep : Expr.RenamesOption r inside step step')
    (hbody : body.Renames r inside body') :
    (Stmt.forLoop span keyword initial condition step body).Renames r inside
      (Stmt.forLoop span' keyword' initial' condition' step' body') := by
  have htest : Expr.Renames r inside
      (condition.getD (.literal keyword.span (.bool true)))
      (condition'.getD (.literal keyword'.span (.bool true))) := by
    cases hcondition with
    | some hcondition => exact hcondition
    | none => exact .literal
  have hturn : ∀ {e e' : Expr}, e.Renames r inside e' →
      Stmt.Renames r inside (.block span [body, .expression e.span e])
        (.block span' [body', .expression e'.span e']) :=
    fun he => .block (.cons hbody (.cons (.expression he) .nil))
  cases hstep with
  | some hstep =>
    cases hinitial with
    | some hinitial => exact .block (.cons hinitial (.cons (.loop htest (hturn hstep)) .nil))
    | none => exact .loop htest (hturn hstep)
  | none =>
    cases hinitial with
    | some hinitial => exact .block (.cons hinitial (.cons (.loop htest hbody) .nil))
    | none => exact .loop htest hbody

/-! ## Trees as they are -/

theorem Renaming.enters_false (parameters : List Token) : r.Enters false false parameters :=
  .inl rfl

theorem Renaming.names_refl (ts : List Token) : List.Forall₂ (r.Names false) ts ts :=
  List.forall₂_same.2 fun t _ => .refl t

mutual

/-- Around the function, nothing is replaced. -/
theorem Expr.renames_refl : (e : Expr) → e.Renames r false e
  | .literal .. => .literal
  | .read _ => .read (.refl _)
  | .group _ inner => .group (Expr.renames_refl inner)
  | .unary _ _ _ operand => .unary (.refl _) (Expr.renames_refl operand)
  | .binary _ _ _ left right =>
    .binary (.refl _) (Expr.renames_refl left) (Expr.renames_refl right)
  | .logical _ _ _ left right => .logical (Expr.renames_refl left) (Expr.renames_refl right)
  | .assign _ _ value => .assign (.refl _) (Expr.renames_refl value)
  | .call _ _ callee arguments =>
    .call (.refl _) (Expr.renames_refl callee) (Expr.renamesAll_refl arguments)
  | .function _ parameters body =>
    .function (Renaming.enters_false parameters) (Renaming.names_refl parameters)
      (Stmt.renamesAll_refl body)

theorem Expr.renamesAll_refl : (es : List Expr) → Expr.RenamesAll r false es es
  | [] => .nil
  | e :: es => .cons (Expr.renames_refl e) (Expr.renamesAll_refl es)

theorem Expr.renamesOption_refl : (e : Option Expr) → Expr.RenamesOption r false e e
  | none => .none
  | some e => .some (Expr.renames_refl e)

theorem Stmt.renames_refl : (s : Stmt) → s.Renames r false s
  | .block _ body => .block (Stmt.renamesAll_refl body)
  | .expression _ value => .expression (Expr.renames_refl value)
  | .function _ _ parameters body =>
    .function (.refl _) nofun (Renaming.enters_false parameters) (Renaming.names_refl parameters)
      (Stmt.renamesAll_refl body)
  | .branch _ condition whenTrue whenFalse =>
    .branch (Expr.renames_refl condition) (Stmt.renames_refl whenTrue)
      (Stmt.renamesOption_refl whenFalse)
  | .loop _ condition body => .loop (Expr.renames_refl condition) (Stmt.renames_refl body)
  | .leave _ _ value => .leave (.refl _) (Expr.renamesOption_refl value)
  | .define _ _ initial => .define (.refl _) (Expr.renamesOption_refl initial)
  | .breakLoop .. => .breakLoop (.refl _)
  | .continueLoop .. => .continueLoop (.refl _)

theorem Stmt.renamesAll_refl : (ss : List Stmt) → Stmt.RenamesAll r false ss ss
  | [] => .nil
  | s :: rest => .cons (Stmt.renames_refl s) (Stmt.renamesAll_refl rest)

theorem Stmt.renamesOption_refl : (s : Option Stmt) → Stmt.RenamesOption r false s s
  | none => .none
  | some s => .some (Stmt.renames_refl s)

end

end Scripting
