import Mathlib
import Scripting.Tree

/-!
# Trees that are the same

* `Expr.equals`, `Stmt.equals` : whether two trees are the same, told by comparing them part by part
  (`Expr.equals_iff`, `Stmt.equals_iff`);
* so equality of expressions, and of statements, is decidable.
-/

namespace Scripting

set_option autoImplicit false

mutual

/-- Whether two expressions are the same. -/
def Expr.equals : Expr → Expr → Bool
  | .literal s v, .literal s' v' => (s, v) = (s', v')
  | .read t, .read t' => t = t'
  | .group s e, .group s' e' => s = s' && e.equals e'
  | .unary s op t e, .unary s' op' t' e' => (s, op, t) = (s', op', t') && e.equals e'
  | .binary s op t l r, .binary s' op' t' l' r' =>
    (s, op, t) = (s', op', t') && l.equals l' && r.equals r'
  | .logical s op t l r, .logical s' op' t' l' r' =>
    (s, op, t) = (s', op', t') && l.equals l' && r.equals r'
  | .assign s t e, .assign s' t' e' => (s, t) = (s', t') && e.equals e'
  | .call s t f es, .call s' t' f' es' =>
    (s, t) = (s', t') && f.equals f' && Expr.allEqual es es'
  | .function s ts body, .function s' ts' body' =>
    (s, ts) = (s', ts') && Stmt.allEqual body body'
  | _, _ => false

/-- Whether two lists of expressions are the same. -/
def Expr.allEqual : List Expr → List Expr → Bool
  | [], [] => true
  | e :: es, e' :: es' => e.equals e' && Expr.allEqual es es'
  | _, _ => false

/-- Whether two expressions that may be missing are the same. -/
def Expr.optionEqual : Option Expr → Option Expr → Bool
  | none, none => true
  | some e, some e' => e.equals e'
  | _, _ => false

/-- Whether two statements are the same. -/
def Stmt.equals : Stmt → Stmt → Bool
  | .block s body, .block s' body' => s = s' && Stmt.allEqual body body'
  | .expression s e, .expression s' e' => s = s' && e.equals e'
  | .function s t ts body, .function s' t' ts' body' =>
    (s, t, ts) = (s', t', ts') && Stmt.allEqual body body'
  | .branch s c st o, .branch s' c' st' o' =>
    s = s' && c.equals c' && st.equals st' && Stmt.optionEqual o o'
  | .loop s c st, .loop s' c' st' => s = s' && c.equals c' && st.equals st'
  | .leave s t o, .leave s' t' o' => (s, t) = (s', t') && Expr.optionEqual o o'
  | .define s t o, .define s' t' o' => (s, t) = (s', t') && Expr.optionEqual o o'
  | .breakLoop s t, .breakLoop s' t' => (s, t) = (s', t')
  | .continueLoop s t, .continueLoop s' t' => (s, t) = (s', t')
  | _, _ => false

/-- Whether two lists of statements are the same. -/
def Stmt.allEqual : List Stmt → List Stmt → Bool
  | [], [] => true
  | s :: ss, s' :: ss' => s.equals s' && Stmt.allEqual ss ss'
  | _, _ => false

/-- Whether two statements that may be missing are the same. -/
def Stmt.optionEqual : Option Stmt → Option Stmt → Bool
  | none, none => true
  | some s, some s' => s.equals s'
  | _, _ => false

end

mutual

/-- Comparing part by part tells whether two expressions are the same. -/
theorem Expr.equals_iff : (e e' : Expr) → (e.equals e' = true ↔ e = e')
  | .literal .., e' => by cases e' <;> grind [Expr.equals]
  | .read .., e' => by cases e' <;> grind [Expr.equals]
  | .group _ e, e' => by
    have he := e.equals_iff
    cases e' <;> grind [Expr.equals]
  | .unary _ _ _ e, e' => by
    have he := e.equals_iff
    cases e' <;> grind [Expr.equals]
  | .binary _ _ _ l r, e' => by
    have hl := l.equals_iff
    have hr := r.equals_iff
    cases e' <;> grind [Expr.equals]
  | .logical _ _ _ l r, e' => by
    have hl := l.equals_iff
    have hr := r.equals_iff
    cases e' <;> grind [Expr.equals]
  | .assign _ _ e, e' => by
    have he := e.equals_iff
    cases e' <;> grind [Expr.equals]
  | .call _ _ f es, e' => by
    have hf := f.equals_iff
    have hes := Expr.allEqual_iff es
    cases e' <;> grind [Expr.equals]
  | .function _ _ body, e' => by
    have hbody := Stmt.allEqual_iff body
    cases e' <;> grind [Expr.equals]

theorem Expr.allEqual_iff : (es es' : List Expr) → (Expr.allEqual es es' = true ↔ es = es')
  | [], es' => by cases es' <;> grind [Expr.allEqual]
  | e :: es, es' => by
    have he := e.equals_iff
    have hes := Expr.allEqual_iff es
    cases es' <;> grind [Expr.allEqual]

theorem Expr.optionEqual_iff : (o o' : Option Expr) → (Expr.optionEqual o o' = true ↔ o = o')
  | none, o' => by cases o' <;> grind [Expr.optionEqual]
  | some e, o' => by
    have he := e.equals_iff
    cases o' <;> grind [Expr.optionEqual]

/-- And whether two statements are. -/
theorem Stmt.equals_iff : (s s' : Stmt) → (s.equals s' = true ↔ s = s')
  | .block _ body, s' => by
    have hbody := Stmt.allEqual_iff body
    cases s' <;> grind [Stmt.equals]
  | .expression _ e, s' => by
    have he := e.equals_iff
    cases s' <;> grind [Stmt.equals]
  | .function _ _ _ body, s' => by
    have hbody := Stmt.allEqual_iff body
    cases s' <;> grind [Stmt.equals]
  | .branch _ c st o, s' => by
    have hc := c.equals_iff
    have hst := st.equals_iff
    have ho := Stmt.optionEqual_iff o
    cases s' <;> grind [Stmt.equals]
  | .loop _ c st, s' => by
    have hc := c.equals_iff
    have hst := st.equals_iff
    cases s' <;> grind [Stmt.equals]
  | .leave _ _ o, s' => by
    have ho := Expr.optionEqual_iff o
    cases s' <;> grind [Stmt.equals]
  | .define _ _ o, s' => by
    have ho := Expr.optionEqual_iff o
    cases s' <;> grind [Stmt.equals]
  | .breakLoop .., s' => by cases s' <;> grind [Stmt.equals]
  | .continueLoop .., s' => by cases s' <;> grind [Stmt.equals]

theorem Stmt.allEqual_iff : (ss ss' : List Stmt) → (Stmt.allEqual ss ss' = true ↔ ss = ss')
  | [], ss' => by cases ss' <;> grind [Stmt.allEqual]
  | s :: ss, ss' => by
    have hs := s.equals_iff
    have hss := Stmt.allEqual_iff ss
    cases ss' <;> grind [Stmt.allEqual]

theorem Stmt.optionEqual_iff : (o o' : Option Stmt) → (Stmt.optionEqual o o' = true ↔ o = o')
  | none, o' => by cases o' <;> grind [Stmt.optionEqual]
  | some s, o' => by
    have hs := s.equals_iff
    cases o' <;> grind [Stmt.optionEqual]

end

instance : DecidableEq Expr := fun e e' => decidable_of_iff _ (e.equals_iff e')

instance : DecidableEq Stmt := fun s s' => decidable_of_iff _ (s.equals_iff s')

end Scripting
