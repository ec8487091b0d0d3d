import Mathlib.Tactic.ByContra
import Scripting.Proofs.Places.Basic

/-!
# Programs whose names are declared

* `Run.WellDeclared` : each name that is read or assigned is declared before it, in a scope around
  it, or it is global when the program is run;
* `Stmt.undeclaredIn`, `Run.undeclared` : the tokens for which that is not so;
* `Run.wellDeclared_iff` : a program is well declared if there are no such tokens, so that this can
  be computed.
-/

namespace Scripting

set_option autoImplicit false

open Relation

/-! ## Names that are declared -/

/-- Each name that is read or assigned is declared before, in a scope around it or as global. -/
structure Run.WellDeclared (r : Run) : Prop where
  read : ∀ Γ t, r.Lies ⟨Γ, .expr (.read t)⟩ → t.lexeme ∈ Γ.known
  assign : ∀ Γ span t value, r.Lies ⟨Γ, .expr (.assign span t value)⟩ → t.lexeme ∈ Γ.known

/-- The token, unless its name is declared before the place. -/
def Place.undeclared (Γ : Place) (t : Token) : List Token :=
  if t.lexeme ∈ Γ.known then [] else [t]

theorem Place.mem_undeclared {Γ : Place} {t u : Token} :
    u ∈ Γ.undeclared t ↔ u = t ∧ t.lexeme ∉ Γ.known := by
  unfold undeclared
  split <;> simp [*]

mutual

/-- The tokens of an expression whose names are not declared before them. -/
def Expr.undeclaredIn (Γ : Place) : Expr → List Token
  | .literal _ _ => []
  | .read name => Γ.undeclared name
  | .group _ inner => inner.undeclaredIn Γ
  | .unary _ _ _ operand => operand.undeclaredIn Γ
  | .binary _ _ _ left right => left.undeclaredIn Γ ++ right.undeclaredIn Γ
  | .logical _ _ _ left right => left.undeclaredIn Γ ++ right.undeclaredIn Γ
  | .assign _ name value => Γ.undeclared name ++ value.undeclaredIn Γ
  | .call _ _ callee arguments => callee.undeclaredIn Γ ++ Expr.undeclaredInAll Γ arguments
  | .function _ parameters body =>
    Stmt.undeclaredInAll (Γ.enter (.function parameters body) (parameters.map Token.lexeme)) body

/-- The tokens of expressions whose names are not declared before them. -/
def Expr.undeclaredInAll (Γ : Place) : List Expr → List Token
  | [] => []
  | e :: es => e.undeclaredIn Γ ++ Expr.undeclaredInAll Γ es

/-- The tokens of an expression that may be missing. -/
def Expr.undeclaredInOption (Γ : Place) : Option Expr → List Token
  | none => []
  | some e => e.undeclaredIn Γ

/-- The tokens of a statement whose names are not declared before them. -/
def Stmt.undeclaredIn (Γ : Place) : Stmt → List Token
  | .block _ body => Stmt.undeclaredInAll (Γ.enter (.block body) []) body
  | .expression _ value => value.undeclaredIn Γ
  | .function _ name parameters body =>
    Stmt.undeclaredInAll ((Γ.declare name.lexeme).enter (.function parameters body)
      (parameters.map Token.lexeme)) body
  | .branch _ condition whenTrue whenFalse =>
    condition.undeclaredIn Γ ++ whenTrue.undeclaredIn Γ ++ Stmt.undeclaredInOption Γ whenFalse
  | .loop _ condition body => condition.undeclaredIn Γ ++ body.undeclaredIn Γ
  | .leave _ _ value => Expr.undeclaredInOption Γ value
  | .define _ _ initial => Expr.undeclaredInOption Γ initial
  | .breakLoop _ _ => []
  | .continueLoop _ _ => []

/-- The tokens of statements, each behind the declarations of those before it. -/
def Stmt.undeclaredInAll (Γ : Place) : List Stmt → List Token
  | [] => []
  | s :: ss => s.undeclaredIn Γ ++ Stmt.undeclaredInAll (Γ.declare s.declared?) ss

/-- The tokens of a statement that may be missing. -/
def Stmt.undeclaredInOption (Γ : Place) : Option Stmt → List Token
  | none => []
  | some s => s.undeclaredIn Γ

end

/-- The tokens at a site whose names are not declared before them. -/
def Site.undeclared (σ : Site) : List Token :=
  match σ.part with
  | .expr e => e.undeclaredIn σ.place
  | .stmt s => s.undeclaredIn σ.place
  | .stmts ss => Stmt.undeclaredInAll σ.place ss

/-- The tokens of a program whose names are not declared before them. -/
def Run.undeclared (r : Run) : List Token :=
  Stmt.undeclaredInAll (.top r.globals) r.statements

/-! ## Sites with names that are not declared -/

/-- The name that the site reads or assigns is not declared before it. -/
inductive Site.Lacks : Site → Token → Prop
  | read {Γ : Place} {t : Token} (h : t.lexeme ∉ Γ.known) : Lacks ⟨Γ, .expr (.read t)⟩ t
  | assign {Γ : Place} {span : Span} {t : Token} {value : Expr} (h : t.lexeme ∉ Γ.known) :
      Lacks ⟨Γ, .expr (.assign span t value)⟩ t

theorem Expr.undeclaredIn_subset {Γ : Place} {e : Expr} {es : List Expr} (h : e ∈ es) :
    e.undeclaredIn Γ ⊆ Expr.undeclaredInAll Γ es := by
  induction es with
  | nil => cases h
  | cons e' es ih =>
    rw [undeclaredInAll]
    rcases List.mem_cons.1 h with rfl | h
    · exact List.subset_append_left ..
    · exact List.subset_append_of_subset_right _ (ih h)

/-- What is undeclared in a part is so in the whole. -/
theorem Encloses.undeclared_subset {σ τ : Site} (h : Encloses σ τ) :
    τ.undeclared ⊆ σ.undeclared := by
  cases h <;> simp only [Site.undeclared, Expr.undeclaredIn, Stmt.undeclaredIn,
    Stmt.undeclaredInAll, Expr.undeclaredInOption, Stmt.undeclaredInOption]
  case inner | operand | anonymous | named | block | expression | result | initial =>
    exact List.Subset.refl _
  case left | first | callee | condition | head => exact List.subset_append_left ..
  case right | second | assigned | turn | tail => exact List.subset_append_right ..
  case argument he => exact List.subset_append_of_subset_right _ (Expr.undeclaredIn_subset he)
  case test => exact List.subset_append_of_subset_left _ (List.subset_append_left ..)
  case whenTrue => exact List.subset_append_of_subset_left _ (List.subset_append_right ..)
  case whenFalse => exact List.subset_append_right ..

theorem Run.undeclared_subset {r : Run} {σ : Site} (h : r.Lies σ) :
    σ.undeclared ⊆ r.undeclared := by
  induction h with
  | refl => exact List.Subset.refl _
  | tail _ encloses ih => exact List.Subset.trans encloses.undeclared_subset ih

theorem Site.Lacks.mem_undeclared {σ : Site} {t : Token} (h : σ.Lacks t) : t ∈ σ.undeclared := by
  cases h with
  | read hknown => exact Place.mem_undeclared.2 ⟨rfl, hknown⟩
  | assign hknown => exact List.mem_append_left _ (Place.mem_undeclared.2 ⟨rfl, hknown⟩)

theorem Encloses.sizeOf_lt {σ τ : Site} (h : Encloses σ τ) : sizeOf τ.part < sizeOf σ.part := by
  cases h <;> decreasing_tactic

theorem Expr.exists_of_mem_undeclaredInAll {Γ : Place} {es : List Expr} {t : Token}
    (h : t ∈ Expr.undeclaredInAll Γ es) : ∃ e ∈ es, t ∈ e.undeclaredIn Γ := by
  induction es with
  | nil => cases h
  | cons e es ih =>
    rw [undeclaredInAll, List.mem_append] at h
    rcases h with h | h
    · exact ⟨e, List.mem_cons_self, h⟩
    · obtain ⟨e', he, h⟩ := ih h
      exact ⟨e', List.mem_cons_of_mem _ he, h⟩

theorem Site.lacks_or_inside_expr {Γ : Place} {e : Expr} {t : Token} (h : t ∈ e.undeclaredIn Γ) :
    Lacks ⟨Γ, .expr e⟩ t ∨ ∃ τ, Encloses ⟨Γ, .expr e⟩ τ ∧ t ∈ τ.undeclared := by
  cases e <;> rw [Expr.undeclaredIn] at h
  case literal => cases h
  case read =>
    obtain ⟨rfl, hknown⟩ := Place.mem_undeclared.1 h
    exact .inl (.read hknown)
  case group => exact .inr ⟨_, .inner, h⟩
  case unary => exact .inr ⟨_, .operand, h⟩
  case binary =>
    rcases List.mem_append.1 h with h | h
    · exact .inr ⟨_, .left, h⟩
    · exact .inr ⟨_, .right, h⟩
  case logical =>
    rcases List.mem_append.1 h with h | h
    · exact .inr ⟨_, .first, h⟩
    · exact .inr ⟨_, .second, h⟩
  case assign =>
    rcases List.mem_append.1 h with h | h
    · obtain ⟨rfl, hknown⟩ := Place.mem_undeclared.1 h
      exact .inl (.assign hknown)
    · exact .inr ⟨_, .assigned, h⟩
  case call =>
    rcases List.mem_append.1 h with h | h
    · exact .inr ⟨_, .callee, h⟩
    · obtain ⟨e, he, h⟩ := Expr.exists_of_mem_undeclaredInAll h
      exact .inr ⟨_, .argument he, h⟩
  case function => exact .inr ⟨_, .anonymous, h⟩

theorem Site.inside_stmt {Γ : Place} {s : Stmt} {t : Token} (h : t ∈ s.undeclaredIn Γ) :
    ∃ τ, Encloses ⟨Γ, .stmt s⟩ τ ∧ t ∈ τ.undeclared := by
  cases s <;> rw [Stmt.undeclaredIn] at h
  case block => exact ⟨_, .block, h⟩
  case expression => exact ⟨_, .expression, h⟩
  case function => exact ⟨_, .named, h⟩
  case branch _ _ _ whenFalse =>
    rcases List.mem_append.1 h with h | h
    · rcases List.mem_append.1 h with h | h
      · exact ⟨_, .test, h⟩
      · exact ⟨_, .whenTrue, h⟩
    · cases whenFalse with
      | none => cases h
      | some whenFalse => exact ⟨_, .whenFalse, h⟩
  case loop =>
    rcases List.mem_append.1 h with h | h
    · exact ⟨_, .condition, h⟩
    · exact ⟨_, .turn, h⟩
  case leave _ _ value =>
    cases value with
    | none => cases h
    | some value => exact ⟨_, .result, h⟩
  case define _ _ initial =>
    cases initial with
    | none => cases h
    | some initial => exact ⟨_, .initial, h⟩
  case breakLoop | continueLoop => cases h

/-- What is undeclared at a site is read or assigned there, or it is undeclared in a part. -/
theorem Site.lacks_or_inside {σ : Site} {t : Token} (h : t ∈ σ.undeclared) :
    σ.Lacks t ∨ ∃ τ, Encloses σ τ ∧ t ∈ τ.undeclared := by
  obtain ⟨Γ, part⟩ := σ
  cases part with
  | expr => exact lacks_or_inside_expr h
  | stmt => exact .inr (inside_stmt h)
  | stmts ss =>
    cases ss with
    | nil => cases h
    | cons s ss =>
      change t ∈ s.undeclaredIn Γ ++ Stmt.undeclaredInAll (Γ.declare s.declared?) ss at h
      rcases List.mem_append.1 h with h | h
      · exact .inr ⟨_, .head, h⟩
      · exact .inr ⟨_, .tail, h⟩

theorem Site.exists_lacks {σ : Site} {t : Token} (h : t ∈ σ.undeclared) :
    ∃ τ, ReflTransGen Encloses σ τ ∧ τ.Lacks t := by
  rcases lacks_or_inside h with hlacks | ⟨τ, hτ, h⟩
  · exact ⟨σ, .refl, hlacks⟩
  · obtain ⟨υ, hυ, hlacks⟩ := exists_lacks h
    exact ⟨υ, .head hτ hυ, hlacks⟩
termination_by sizeOf σ.part
decreasing_by exact hτ.sizeOf_lt

/-- A program is well declared if no token in it is undeclared. -/
theorem Run.wellDeclared_iff {r : Run} : r.WellDeclared ↔ r.undeclared = [] := by
  constructor
  · intro h
    by_contra hne
    obtain ⟨t, ht⟩ := List.exists_mem_of_ne_nil _ hne
    obtain ⟨τ, hlies, hlacks⟩ := @Site.exists_lacks ⟨.top r.globals, .stmts r.statements⟩ t ht
    cases hlacks with
    | read hknown => exact hknown (h.read _ _ hlies)
    | assign hknown => exact hknown (h.assign _ _ _ _ hlies)
  · intro h
    have hnone : ∀ σ t, r.Lies σ → ¬σ.Lacks t := by
      intro σ t hlies hlacks
      have hmem := r.undeclared_subset hlies hlacks.mem_undeclared
      rw [h] at hmem
      cases hmem
    refine ⟨fun Γ t hlies => ?_, fun Γ span t value hlies => ?_⟩
    · by_contra hknown
      exact hnone _ t hlies (.read hknown)
    · by_contra hknown
      exact hnone _ t hlies (.assign hknown)

instance (r : Run) : Decidable r.WellDeclared := decidable_of_iff _ Run.wellDeclared_iff.symm

end Scripting
