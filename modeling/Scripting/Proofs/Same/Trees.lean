import Mathlib.Data.List.Forall2
import Scripting.Tree

/-!
# What of a tree is forgotten

* `Forgetting` : what of trees is forgotten; nothing (`Forgetting.nothing`), or all but their form
  (`Forgetting.shape`);
* `Expr.forget`, `Stmt.forget` : trees without what is forgotten;
* `Expr.core` : an expression without the parentheses around it, if these are forgotten;
* `Expr.Akin`, `Stmt.Akin` : trees of one form, whose parts are equal but for what is forgotten
  (`Expr.akin_of_forget`, `Stmt.akin_of_forget`);
* `Stmt.bindsNothing` : the statement binds no name in the scope that it stands in.
-/

namespace Scripting

set_option autoImplicit false

/-! ## Forgetting -/

/-- What of trees is forgotten: what is left of a span, of a token at which faults are reported, and
of a token that is a name, and whether parentheses are left out. The word of a name stays. -/
structure Forgetting where
  span : Span → Span
  mark : Token → Token
  name : Token → Token
  groups : Bool
  lexeme_name : ∀ t, (name t).lexeme = t.lexeme

namespace Forgetting

/-- Nothing is forgotten. -/
def nothing : Forgetting := ⟨id, id, id, false, fun _ => rfl⟩

/-- Parentheses and places are forgotten, and all of a token but the word of a name. -/
def shape : Forgetting where
  span _ := ⟨0, 0⟩
  mark _ := default
  name t := { (default : Token) with lexeme := t.lexeme }
  groups := true
  lexeme_name _ := rfl

@[simp] theorem shape_span (span : Span) : shape.span span = ⟨0, 0⟩ := rfl

@[simp] theorem shape_mark (t : Token) : shape.mark t = default := rfl

@[simp] theorem shape_groups : shape.groups = true := rfl

theorem shape_name {t t' : Token} (h : t'.lexeme = t.lexeme) : shape.name t' = shape.name t :=
  congrArg (fun lexeme => { (default : Token) with lexeme }) h

variable (F : Forgetting)

theorem lexeme_eq {t t' : Token} (h : F.name t' = F.name t) : t'.lexeme = t.lexeme := by
  rw [← F.lexeme_name, h, F.lexeme_name]

theorem map_lexeme_eq {ts ts' : List Token} (h : ts'.map F.name = ts.map F.name) :
    ts'.map Token.lexeme = ts.map Token.lexeme := by
  have hlexeme : Token.lexeme = Token.lexeme ∘ F.name := funext fun t => (F.lexeme_name t).symm
  rw [hlexeme, ← List.map_map, h, List.map_map]

end Forgetting

/-! ## Trees -/

variable (F : Forgetting)

mutual

/-- The expression without what is forgotten. -/
def Expr.forget : Expr → Expr
  | .literal span value => .literal (F.span span) value
  | .read name => .read (F.name name)
  | .group span inner =>
    if F.groups then Expr.forget inner else .group (F.span span) (Expr.forget inner)
  | .unary span op mark operand => .unary (F.span span) op (F.mark mark) (Expr.forget operand)
  | .binary span op mark left right =>
    .binary (F.span span) op (F.mark mark) (Expr.forget left) (Expr.forget right)
  | .logical span op mark left right =>
    .logical (F.span span) op (F.mark mark) (Expr.forget left) (Expr.forget right)
  | .assign span name value => .assign (F.span span) (F.name name) (Expr.forget value)
  | .call span paren callee arguments =>
    .call (F.span span) (F.mark paren) (Expr.forget callee) (Expr.forgetAll arguments)
  | .function span parameters body =>
    .function (F.span span) (parameters.map F.name) (Stmt.forgetAll body)

/-- The expressions without what is forgotten. -/
def Expr.forgetAll : List Expr → List Expr
  | [] => []
  | e :: es => Expr.forget e :: Expr.forgetAll es

/-- The expression without what is forgotten, if there is one. -/
def Expr.forgetOption : Option Expr → Option Expr
  | none => none
  | some e => some (Expr.forget e)

/-- The statement without what is forgotten. -/
def Stmt.forget : Stmt → Stmt
  | .block span body => .block (F.span span) (Stmt.forgetAll body)
  | .expression span value => .expression (F.span span) (Expr.forget value)
  | .function span name parameters body =>
    .function (F.span span) (F.name name) (parameters.map F.name) (Stmt.forgetAll body)
  | .branch span condition whenTrue whenFalse =>
    .branch (F.span span) (Expr.forget condition) (Stmt.forget whenTrue)
      (Stmt.forgetOption whenFalse)
  | .loop span condition body => .loop (F.span span) (Expr.forget condition) (Stmt.forget body)
  | .leave span keyword value =>
    .leave (F.span span) (F.mark keyword) (Expr.forgetOption value)
  | .define span name initial => .define (F.span span) (F.name name) (Expr.forgetOption initial)
  | .breakLoop span keyword => .breakLoop (F.span span) (F.mark keyword)
  | .continueLoop span keyword => .continueLoop (F.span span) (F.mark keyword)

/-- The statements without what is forgotten. -/
def Stmt.forgetAll : List Stmt → List Stmt
  | [] => []
  | s :: ss => Stmt.forget s :: Stmt.forgetAll ss

/-- The statement without what is forgotten, if there is one. -/
def Stmt.forgetOption : Option Stmt → Option Stmt
  | none => none
  | some s => some (Stmt.forget s)

end

theorem Expr.forgetAll_eq (es : List Expr) : Expr.forgetAll F es = es.map (Expr.forget F) := by
  induction es with
  | nil => rfl
  | cons e es ih => rw [forgetAll, ih, List.map_cons]

theorem Stmt.forgetAll_eq (ss : List Stmt) : Stmt.forgetAll F ss = ss.map (Stmt.forget F) := by
  induction ss with
  | nil => rfl
  | cons s ss ih => rw [forgetAll, ih, List.map_cons]

/-- The parts of a loop with three clauses decide its shape. -/
theorem Stmt.forget_forLoop {span span' : Span} {keyword keyword' : Token}
    {initial initial' : Option Stmt} {condition condition' step step' : Option Expr}
    {body body' : Stmt}
    (hinitial : Stmt.forgetOption .shape initial' = Stmt.forgetOption .shape initial)
    (hcondition : Expr.forgetOption .shape condition' = Expr.forgetOption .shape condition)
    (hstep : Expr.forgetOption .shape step' = Expr.forgetOption .shape step)
    (hbody : body'.forget .shape = body.forget .shape) :
    (forLoop span' keyword' initial' condition' step' body').forget .shape =
      (forLoop span keyword initial condition step body).forget .shape := by
  cases initial <;> cases initial' <;> cases condition <;> cases condition' <;> cases step <;>
    cases step' <;>
    simp_all [forLoop, Stmt.forget, Stmt.forgetAll, Stmt.forgetOption, Expr.forgetOption,
      Expr.forget]

/-! ## One form -/

/-- The expression without the parentheses around it, if these are forgotten. -/
def Expr.core : Expr → Expr
  | .group span inner => if F.groups then Expr.core inner else .group span inner
  | e => e

variable {F}

theorem Expr.forget_core (e : Expr) : (e.core F).forget F = e.forget F := by
  fun_induction Expr.core F e with
  | case1 span inner hgroups ih => rw [ih, forget, if_pos hgroups]
  | case2 => rfl
  | case3 => rfl

theorem Expr.core_ne_group (hgroups : F.groups = true) (e : Expr) (span : Span) (inner : Expr) :
    e.core F ≠ .group span inner := by
  fun_induction Expr.core F e with
  | case1 _ _ _ ih => exact ih
  | case2 _ _ h => exact absurd hgroups h
  | case3 e h => exact h span inner

variable (F) in
/-- Expressions of one form, with parts that are equal but for what is forgotten. -/
inductive Expr.Akin : Expr → Expr → Prop
  | literal {span span' : Span} (value : Literal) :
      Akin (.literal span value) (.literal span' value)
  | read {name name' : Token} (h : F.name name' = F.name name) : Akin (.read name) (.read name')
  | group {span span' : Span} {inner inner' : Expr} (hgroups : F.groups = false)
      (h : inner'.forget F = inner.forget F) : Akin (.group span inner) (.group span' inner')
  | unary {span span' : Span} (op : UnaryOp) {mark mark' : Token} {operand operand' : Expr}
      (hmark : F.mark mark' = F.mark mark) (h : operand'.forget F = operand.forget F) :
      Akin (.unary span op mark operand) (.unary span' op mark' operand')
  | binary {span span' : Span} (op : BinaryOp) {mark mark' : Token}
      {left left' right right' : Expr} (hmark : F.mark mark' = F.mark mark)
      (hleft : left'.forget F = left.forget F) (hright : right'.forget F = right.forget F) :
      Akin (.binary span op mark left right) (.binary span' op mark' left' right')
  | logical {span span' : Span} (op : LogicalOp) {mark mark' : Token}
      {left left' right right' : Expr} (hleft : left'.forget F = left.forget F)
      (hright : right'.forget F = right.forget F) :
      Akin (.logical span op mark left right) (.logical span' op mark' left' right')
  | assign {span span' : Span} {name name' : Token} {value value' : Expr}
      (hname : F.name name' = F.name name) (h : value'.forget F = value.forget F) :
      Akin (.assign span name value) (.assign span' name' value')
  | call {span span' : Span} {paren paren' : Token} {callee callee' : Expr}
      {arguments arguments' : List Expr} (hparen : F.mark paren' = F.mark paren)
      (hcallee : callee'.forget F = callee.forget F)
      (harguments : List.Forall₂ (fun e e' => Expr.forget F e' = e.forget F) arguments arguments') :
      Akin (.call span paren callee arguments) (.call span' paren' callee' arguments')
  | function {span span' : Span} {parameters parameters' : List Token} {body body' : List Stmt}
      (hparameters : parameters'.map F.name = parameters.map F.name)
      (hbody : Stmt.forgetAll F body' = Stmt.forgetAll F body) :
      Akin (.function span parameters body) (.function span' parameters' body')

theorem forall₂_of_map_eq {α β : Type} {f : α → β} {as as' : List α} (h : as'.map f = as.map f) :
    List.Forall₂ (fun a a' => f a' = f a) as as' := by
  rwa [eq_comm, ← List.forall₂_eq_eq_eq, List.forall₂_map_left_iff,
    List.forall₂_map_right_iff, funext fun a => funext fun a' => propext eq_comm] at h

/-- Expressions that are equal but for what is forgotten are of one form, unless one of them is in
parentheses that are forgotten. -/
theorem Expr.akin_of_kept {c c' : Expr} (h : c'.forget F = c.forget F)
    (kept : ∀ span inner, c = .group span inner ∨ c' = .group span inner → F.groups = false) :
    Akin F c c' := by
  by_cases hgroup : ∃ span inner, c = .group span inner ∨ c' = .group span inner
  · obtain ⟨span, inner, heq⟩ := hgroup
    have hgroups := kept span inner heq
    rcases heq with rfl | rfl
    · cases c' <;> simp [forget, hgroups] at h
      exact .group hgroups h.2
    · cases c <;> simp [forget, hgroups] at h
      exact .group hgroups h.2
  · cases c <;> cases c' <;> first
      | exact absurd ⟨_, _, .inl rfl⟩ hgroup
      | exact absurd ⟨_, _, .inr rfl⟩ hgroup
      | simp only [forget, reduceCtorEq, literal.injEq, read.injEq, unary.injEq, binary.injEq,
          logical.injEq, assign.injEq, call.injEq, function.injEq] at h
    case literal =>
      obtain ⟨-, rfl⟩ := h
      exact .literal _
    case read => exact .read h
    case unary =>
      obtain ⟨-, rfl, hmark, h⟩ := h
      exact .unary _ hmark h
    case binary =>
      obtain ⟨-, rfl, hmark, hleft, hright⟩ := h
      exact .binary _ hmark hleft hright
    case logical =>
      obtain ⟨-, rfl, -, hleft, hright⟩ := h
      exact .logical _ hleft hright
    case assign => exact .assign h.2.1 h.2.2
    case call =>
      obtain ⟨-, hparen, hcallee, harguments⟩ := h
      rw [forgetAll_eq, forgetAll_eq] at harguments
      exact .call hparen hcallee (forall₂_of_map_eq harguments)
    case function => exact .function h.2.1 h.2.2

/-- Expressions that are equal but for what is forgotten are of one form, apart from parentheses
around them that are forgotten. -/
theorem Expr.akin_of_forget {e e' : Expr} (h : e'.forget F = e.forget F) :
    Akin F (e.core F) (e'.core F) := by
  refine akin_of_kept (by rw [forget_core, forget_core, h]) fun span inner heq => ?_
  refine Bool.eq_false_iff.2 fun hgroups => ?_
  rcases heq with heq | heq
  · exact core_ne_group hgroups _ _ _ heq
  · exact core_ne_group hgroups _ _ _ heq

variable (F) in
/-- Statements of one form, with parts that are equal but for what is forgotten. -/
inductive Stmt.Akin : Stmt → Stmt → Prop
  | block {span span' : Span} {body body' : List Stmt}
      (h : forgetAll F body' = forgetAll F body) : Akin (.block span body) (.block span' body')
  | expression {span span' : Span} {value value' : Expr} (h : value'.forget F = value.forget F) :
      Akin (.expression span value) (.expression span' value')
  | function {span span' : Span} {name name' : Token} {parameters parameters' : List Token}
      {body body' : List Stmt} (hname : F.name name' = F.name name)
      (hparameters : parameters'.map F.name = parameters.map F.name)
      (hbody : forgetAll F body' = forgetAll F body) :
      Akin (.function span name parameters body) (.function span' name' parameters' body')
  | branch {span span' : Span} {condition condition' : Expr} {whenTrue whenTrue' : Stmt}
      {whenFalse whenFalse' : Option Stmt} (hcondition : condition'.forget F = condition.forget F)
      (htrue : forget F whenTrue' = forget F whenTrue)
      (hfalse : forgetOption F whenFalse' = forgetOption F whenFalse) :
      Akin (.branch span condition whenTrue whenFalse)
        (.branch span' condition' whenTrue' whenFalse')
  | loop {span span' : Span} {condition condition' : Expr} {body body' : Stmt}
      (hcondition : condition'.forget F = condition.forget F)
      (hbody : forget F body' = forget F body) :
      Akin (.loop span condition body) (.loop span' condition' body')
  | leave {span span' : Span} {keyword keyword' : Token} {value value' : Option Expr}
      (hkeyword : F.mark keyword' = F.mark keyword)
      (h : Expr.forgetOption F value' = Expr.forgetOption F value) :
      Akin (.leave span keyword value) (.leave span' keyword' value')
  | define {span span' : Span} {name name' : Token} {initial initial' : Option Expr}
      (hname : F.name name' = F.name name)
      (h : Expr.forgetOption F initial' = Expr.forgetOption F initial) :
      Akin (.define span name initial) (.define span' name' initial')
  | breakLoop {span span' : Span} {keyword keyword' : Token}
      (hkeyword : F.mark keyword' = F.mark keyword) :
      Akin (.breakLoop span keyword) (.breakLoop span' keyword')
  | continueLoop {span span' : Span} {keyword keyword' : Token}
      (hkeyword : F.mark keyword' = F.mark keyword) :
      Akin (.continueLoop span keyword) (.continueLoop span' keyword')

/-- Statements that are equal but for what is forgotten are of one form. -/
theorem Stmt.akin_of_forget {s s' : Stmt} (h : s'.forget F = s.forget F) : Akin F s s' := by
  cases s <;> cases s' <;>
    simp only [forget, reduceCtorEq, block.injEq, expression.injEq, function.injEq, branch.injEq,
      loop.injEq, leave.injEq, define.injEq, breakLoop.injEq, continueLoop.injEq] at h
  case block => exact .block h.2
  case expression => exact .expression h.2
  case function => exact .function h.2.1 h.2.2.1 h.2.2.2
  case branch => exact .branch h.2.1 h.2.2.1 h.2.2.2
  case loop => exact .loop h.2.1 h.2.2
  case leave => exact .leave h.2.1 h.2.2
  case define => exact .define h.2.1 h.2.2
  case breakLoop => exact .breakLoop h.2
  case continueLoop => exact .continueLoop h.2

/-! ## Statements that bind nothing -/

mutual

/-- Whether the statement binds no name in the scope that it stands in. -/
def Stmt.bindsNothing : Stmt → Bool
  | .function .. | .define .. => false
  | .branch _ _ whenTrue whenFalse =>
    Stmt.bindsNothing whenTrue && Stmt.optionBindsNothing whenFalse
  | .loop _ _ body => Stmt.bindsNothing body
  | .block .. | .expression .. | .leave .. | .breakLoop .. | .continueLoop .. => true

/-- Whether the statement, if there is one, binds no name in the scope that it stands in. -/
def Stmt.optionBindsNothing : Option Stmt → Bool
  | none => true
  | some s => Stmt.bindsNothing s

end

end Scripting
