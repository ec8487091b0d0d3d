import Scripting.Proofs.Points.Trails

/-!
# Stray keywords

* `InBody body around s` : `s` is a statement in the text of a body, and `around` are the statements
  of that body around it, the innermost first;
* `Stmt.stray?`, `Strayless` : the fault of a keyword that leaves a loop or a function though none
  is around it, and bodies without such keywords;
* `Trail.callee?`, `Trail.around` : the function in whose body a trail ends, and the statements of
  that body that are being executed around the end of the trail;
* `Trail.inBody` : what is executed at the end of a trail is a statement of the body, and what is
  being executed around it is what stands around it in the text.

A body is that of a program or of a function. Functions that are made in it have bodies of their
own, so a loop around a function is not around the statements of the function.
-/

namespace Scripting

set_option autoImplicit false

/-! ## Texts -/

/-- The statement is a loop. -/
def Stmt.isLoop : Stmt → Bool
  | loop .. => true
  | _ => false

/-- The statement is one of a body, with these statements of the body around it. -/
inductive InBody (body : List Stmt) : List Stmt → Stmt → Prop
  | top {s : Stmt} (h : s ∈ body) : InBody body [] s
  | block {around : List Stmt} {span : Span} {inner : List Stmt} {s : Stmt}
      (whole : InBody body around (.block span inner)) (h : s ∈ inner) :
      InBody body (.block span inner :: around) s
  | whenTrue {around : List Stmt} {span : Span} {condition : Expr} {whenTrue : Stmt}
      {whenFalse : Option Stmt}
      (whole : InBody body around (.branch span condition whenTrue whenFalse)) :
      InBody body (.branch span condition whenTrue whenFalse :: around) whenTrue
  | whenFalse {around : List Stmt} {span : Span} {condition : Expr} {whenTrue whenFalse : Stmt}
      (whole : InBody body around (.branch span condition whenTrue (some whenFalse))) :
      InBody body (.branch span condition whenTrue (some whenFalse) :: around) whenFalse
  | turn {around : List Stmt} {span : Span} {condition : Expr} {s : Stmt}
      (whole : InBody body around (.loop span condition s)) :
      InBody body (.loop span condition s :: around) s

/-- The fault of a statement that leaves a loop, or a function, though none is around it, and the
keyword of the statement. -/
def Stmt.stray? (inFunction : Bool) (around : List Stmt) : Stmt → Option (RuntimeFault × Token)
  | breakLoop _ keyword => if around.any isLoop then none else some (.strayBreak, keyword)
  | continueLoop _ keyword => if around.any isLoop then none else some (.strayContinue, keyword)
  | leave _ keyword _ => if inFunction then none else some (.strayReturn, keyword)
  | _ => none

/-- No keyword of a body is stray. -/
def Strayless (inFunction : Bool) (body : List Stmt) : Prop :=
  ∀ around s, InBody body around s → s.stray? inFunction around = none

/-! ## Trails -/

namespace Trail

/-- The function in whose body a trail ends; none is for the program. -/
def callee? : List Point → Option Closure
  | [] => none
  | ⟨.call (.script _ f) _, _, _⟩ :: _ => some f
  | _ :: T => callee? T

/-- The statements that are being executed around the end of a trail, as far as they are in the same
body. -/
def around : List Point → List Stmt
  | ⟨.stmt s, _, _⟩ :: T => s :: around T
  | ⟨.stmts _, _, _⟩ :: T | ⟨.turns _ _ _, _, _⟩ :: T | ⟨.program _, _, _⟩ :: T => around T
  | _ => []

/-- The body in which a trail ends, in the run of a program. -/
def body (program : List Stmt) (T : List Point) : List Stmt :=
  ((callee? T).map Closure.body).getD program

end Trail

/-- What the task executes by itself are statements of a body, with these around them. -/
def Task.InBody (body around : List Stmt) : Task → Prop
  | stmt s | turns _ _ s => Scripting.InBody body around s
  | stmts ss | program ss => ∀ s ∈ ss, Scripting.InBody body around s
  | expr _ | exprs _ | call _ _ => True

namespace Trail

variable {config : Config} {program : List Stmt} {fuel : Nat} {m : Machine}

/-- What is executed at the end of a trail is a statement of the body in which the trail ends, and
the statements of the trail around it are those around it in the text. -/
theorem inBody {start p : Point} {T : List Point} (hstart : start.task = .program program)
    (trail : Trail config start (p :: T)) : p.task.InBody (body program T) (around T) := by
  induction T generalizing p with
  | nil =>
    cases trail
    rw [hstart]
    exact fun s hs => .top hs
  | cons q T ih =>
    obtain _ | ⟨trail, starts⟩ := trail
    have hq := ih trail
    cases starts
    case block => exact fun s hs => .block hq hs
    case whenTrue => exact .whenTrue hq
    case whenFalse => exact .whenFalse hq
    case loop => exact .turn hq
    case turnBody | nextTurn => exact hq
    case firstIn | firstRun => exact (List.forall_mem_cons.1 hq).1
    case othersIn | othersRun => exact (List.forall_mem_cons.1 hq).2
    case script => exact fun s hs => .top hs
    all_goals trivial

/-- Where a loop turns, it is around. -/
theorem any_isLoop {start : Point} {T : List Point} {count n : Nat} {condition : Expr}
    {turn : Stmt} {m : Machine} (hstart : start.task = .program program)
    (trail : Trail config start (⟨.turns count condition turn, n, m⟩ :: T)) :
    (around T).any Stmt.isLoop = true := by
  induction T generalizing count n m with
  | nil =>
    cases trail
    cases hstart
  | cons q T ih =>
    obtain _ | ⟨trail, starts⟩ := trail
    cases starts with
    | loop => rfl
    | nextTurn => exact ih trail

/-- Around the statements of the program there is nothing. -/
theorem top {start : Point} {T : List Point} {ss : List Stmt} {n : Nat} {m : Machine}
    (trail : Trail config start (⟨.program ss, n, m⟩ :: T)) :
    callee? T = none ∧ around T = [] := by
  induction T generalizing ss n m with
  | nil => exact ⟨rfl, rfl⟩
  | cons q T ih =>
    obtain _ | ⟨trail, starts⟩ := trail
    cases starts
    exact ih trail

end Trail

end Scripting
