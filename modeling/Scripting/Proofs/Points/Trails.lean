import Mathlib.Logic.Relation
import Scripting.Proofs.Points.Basic

/-!
# Trails to the points of a run

* `Trail config start T` : `T` is a point of the run that begins with `start`, with all the points
  that it is a part of behind it (`Reaches.trail`);
* `Follows config p q r` : `p` starts `r` when `q`, which it has started before, has come to its
  end;
* `Point.first?`, `Follows.right_unique`, `Starts.ordered` : the parts of a point come one after the
  other;
* `Before config T T'` : the last point of `T` has come to its end when that of `T'` starts;
* `Trail.compare` : of any two trails of a run, one lies on the other, or one is before the other.

Two evaluations of a run may be equal as points, such as two turns of a loop that changes nothing.
Their trails tell what is around them.
-/

namespace Scripting

set_option autoImplicit false

open Eval Relation

variable (config : Config)

/-- A point of a run and the points that it is a part of, the innermost first. -/
inductive Trail (start : Point) : List Point → Prop
  | start : Trail start [start]
  | part {p q : Point} {around : List Point} {vs : List Value} (trail : Trail start (p :: around))
      (starts : Starts config p vs q) : Trail start (q :: p :: around)

/-- The first point starts the second, and starts the third when that has come to its end. -/
inductive Follows : Point → Point → Point → Prop
  | right {span : Span} {op : BinaryOp} {mark : Token} {left right : Expr} {n : Nat}
      {m m' : Machine} {l : Value} (hleft : evaluate config n left m = .ok l m') :
      Follows ⟨.expr (.binary span op mark left right), n + 1, m⟩ ⟨.expr left, n, m⟩
        ⟨.expr right, n, m'⟩
  | second {span : Span} {op : LogicalOp} {mark : Token} {left right : Expr} {n : Nat}
      {m m' : Machine} {l : Value} (hleft : evaluate config n left m = .ok l m')
      (hopen : op.decides l = false) :
      Follows ⟨.expr (.logical span op mark left right), n + 1, m⟩ ⟨.expr left, n, m⟩
        ⟨.expr right, n, m'⟩
  | arguments {span : Span} {paren : Token} {callee : Expr} {arguments : List Expr} {n : Nat}
      {m m' : Machine} {f : Value} (hcallee : evaluate config n callee m = .ok f m') :
      Follows ⟨.expr (.call span paren callee arguments), n + 1, m⟩ ⟨.expr callee, n, m⟩
        ⟨.exprs arguments, n, m'⟩
  | call {span : Span} {paren : Token} {callee : Expr} {arguments : List Expr} {n : Nat}
      {m m₁ m₂ m₃ : Machine} {f : Value} {vs : List Value} {c : Callable}
      (hcallee : evaluate config n callee m = .ok f m₁)
      (harguments : arguments.mapM (evaluate config n) m₁ = .ok vs m₂)
      (hcheck : checkCall config paren f vs m₂ = .ok c m₃) :
      Follows ⟨.expr (.call span paren callee arguments), n + 1, m⟩ ⟨.exprs arguments, n, m₁⟩
        ⟨.call c vs, n, { m₃ with callDepth := m₃.callDepth + 1 }⟩
  | othersOf {e : Expr} {es : List Expr} {n : Nat} {m m' : Machine} {v : Value}
      (hfirst : evaluate config n e m = .ok v m') :
      Follows ⟨.exprs (e :: es), n, m⟩ ⟨.expr e, n, m⟩ ⟨.exprs es, n, m'⟩
  | whenTrue {span : Span} {condition : Expr} {whenTrue : Stmt} {whenFalse : Option Stmt} {n : Nat}
      {m m' : Machine} {v : Value} (htest : evaluate config n condition m = .ok v m')
      (hv : v.isTruthy = true) :
      Follows ⟨.stmt (.branch span condition whenTrue whenFalse), n + 1, m⟩ ⟨.expr condition, n, m⟩
        ⟨.stmt whenTrue, n, m'⟩
  | whenFalse {span : Span} {condition : Expr} {whenTrue whenFalse : Stmt} {n : Nat}
      {m m' : Machine} {v : Value} (htest : evaluate config n condition m = .ok v m')
      (hv : v.isTruthy = false) :
      Follows ⟨.stmt (.branch span condition whenTrue (some whenFalse)), n + 1, m⟩
        ⟨.expr condition, n, m⟩ ⟨.stmt whenFalse, n, m'⟩
  | turnBody {count : Nat} {condition : Expr} {body : Stmt} {n : Nat} {m m' : Machine} {v : Value}
      (htest : evaluate config n condition m = .ok v m') (hv : v.isTruthy = true) :
      Follows ⟨.turns (count + 1) condition body, n, m⟩ ⟨.expr condition, n, m⟩ ⟨.stmt body, n, m'⟩
  | nextTurn {count : Nat} {condition : Expr} {body : Stmt} {n : Nat} {m m₁ m₂ : Machine}
      {v : Value} {flow : Flow} (htest : evaluate config n condition m = .ok v m₁)
      (hv : v.isTruthy = true) (hbody : execute config n body m₁ = .ok flow m₂)
      (hflow : flow = .normal ∨ ∃ keyword, flow = .continuing keyword) :
      Follows ⟨.turns (count + 1) condition body, n, m⟩ ⟨.stmt body, n, m₁⟩
        ⟨.turns count condition body, n, m₂⟩
  | othersIn {s : Stmt} {ss : List Stmt} {n : Nat} {m m' : Machine}
      (hfirst : execute config n s m = .ok .normal m') :
      Follows ⟨.stmts (s :: ss), n, m⟩ ⟨.stmt s, n, m⟩ ⟨.stmts ss, n, m'⟩
  | othersRun {s : Stmt} {ss : List Stmt} {n : Nat} {m m' : Machine}
      (hfirst : execute config n s m = .ok .normal m') :
      Follows ⟨.program (s :: ss), n, m⟩ ⟨.stmt s, n, m⟩ ⟨.program ss, n, m'⟩

/-- The trails part at a point, which goes on to a part on the second trail when the part on the
first one has come to its end. -/
inductive Before : List Point → List Point → Prop
  | parts {p q r : Point} {inner inner' around : List Point}
      (follows : TransGen (Follows config p) q r) :
      Before (inner ++ q :: p :: around) (inner' ++ r :: p :: around)

variable {config}

namespace Before

variable {T T' : List Point}

theorem append_left (h : Before config T T') (inner : List Point) :
    Before config (inner ++ T) T' := by
  obtain @⟨p, q, r, inner₁, inner', around, follows⟩ := h
  rw [← List.append_assoc]
  exact ⟨follows⟩

theorem append_right (h : Before config T T') (inner : List Point) :
    Before config T (inner ++ T') := by
  obtain @⟨p, q, r, inner₁, inner', around, follows⟩ := h
  rw [← List.append_assoc]
  exact ⟨follows⟩

end Before

/-! ## The order of the parts of a point -/

variable (config) in
/-- The part that a point starts first. -/
def Point.first? (p : Point) : Option Point :=
  match p.task, p.fuel with
  | .expr (.group _ inner), n + 1 => some ⟨.expr inner, n, p.machine⟩
  | .expr (.unary _ _ _ operand), n + 1 => some ⟨.expr operand, n, p.machine⟩
  | .expr (.binary _ _ _ left _), n + 1 => some ⟨.expr left, n, p.machine⟩
  | .expr (.logical _ _ _ left _), n + 1 => some ⟨.expr left, n, p.machine⟩
  | .expr (.assign _ _ value), n + 1 => some ⟨.expr value, n, p.machine⟩
  | .expr (.call _ _ callee _), n + 1 => some ⟨.expr callee, n, p.machine⟩
  | .exprs (e :: _), n => some ⟨.expr e, n, p.machine⟩
  | .stmt (.block _ body), n + 1 =>
    match newScope p.machine.scope .empty p.machine with
    | .ok scope m => some ⟨.stmts body, n, { m with scope }⟩
    | .error _ _ => none
  | .stmt (.expression _ value), n + 1 => some ⟨.expr value, n, p.machine⟩
  | .stmt (.branch _ condition _ _), n + 1 => some ⟨.expr condition, n, p.machine⟩
  | .stmt (.loop _ condition body), n + 1 => some ⟨.turns n condition body, n, p.machine⟩
  | .stmt (.leave _ _ (some value)), n + 1 => some ⟨.expr value, n, p.machine⟩
  | .stmt (.define _ _ (some value)), n + 1 => some ⟨.expr value, n, p.machine⟩
  | .stmts (s :: _), n => some ⟨.stmt s, n, p.machine⟩
  | .turns (_ + 1) condition _, n => some ⟨.expr condition, n, p.machine⟩
  | .call (.script _ f) vs, n + 1 =>
    match enterCall config f vs p.machine with
    | .ok scope m => some ⟨.stmts f.body, n, { m with scope }⟩
    | .error _ _ => none
  | .call (.native _ f) vs, n + 1 =>
    match config.host f vs with
    | .call c vs' => some ⟨.call c vs', n, p.machine⟩
    | _ => none
  | .program (s :: _), n => some ⟨.stmt s, n, p.machine⟩
  | _, _ => none

/-- Every part of a point comes behind its first one. -/
theorem Starts.from_first {p q : Point} {vs : List Value} (starts : Starts config p vs q) :
    ∃ first, p.first? config = some first ∧ ReflTransGen (Follows config p) first q := by
  cases starts
  case group | operand | left | first | assigned | callee | firstOf | expression | test | loop
      | turnTest | result | initial | firstIn | firstRun =>
    exact ⟨_, rfl, .refl⟩
  case block hscope | script hscope =>
    refine ⟨_, ?_, .refl⟩
    simp only [Point.first?, hscope]
  case hostCall haction =>
    refine ⟨_, ?_, .refl⟩
    simp only [Point.first?, haction]
  case right hleft => exact ⟨_, rfl, .single (.right hleft)⟩
  case second hleft hopen => exact ⟨_, rfl, .single (.second hleft hopen)⟩
  case arguments hcallee => exact ⟨_, rfl, .single (.arguments hcallee)⟩
  case call hcallee harguments hcheck =>
    exact ⟨_, rfl, .tail (.single (.arguments hcallee)) (.call hcallee harguments hcheck)⟩
  case othersOf hfirst => exact ⟨_, rfl, .single (.othersOf hfirst)⟩
  case whenTrue htest hv => exact ⟨_, rfl, .single (.whenTrue htest hv)⟩
  case whenFalse htest hv => exact ⟨_, rfl, .single (.whenFalse htest hv)⟩
  case turnBody htest hv => exact ⟨_, rfl, .single (.turnBody htest hv)⟩
  case nextTurn htest hv hbody hflow =>
    exact ⟨_, rfl, .tail (.single (.turnBody htest hv)) (.nextTurn htest hv hbody hflow)⟩
  case othersIn hfirst => exact ⟨_, rfl, .single (.othersIn hfirst)⟩
  case othersRun hfirst => exact ⟨_, rfl, .single (.othersRun hfirst)⟩

/-- At most one part follows another. -/
theorem Follows.right_unique {p q r r' : Point} (h : Follows config p q r)
    (h' : Follows config p q r') : r = r' := by
  cases h
  case right hend | arguments hend | othersOf hend | othersIn hend | othersRun hend =>
    cases h'
    rename_i hend'
    cases hend.symm.trans hend'
    rfl
  case second hleft _ =>
    cases h' with
    | second hleft' =>
      cases hleft.symm.trans hleft'
      rfl
  case turnBody htest _ =>
    cases h' with
    | turnBody htest' =>
      cases htest.symm.trans htest'
      rfl
  case call hcallee harguments hcheck =>
    cases h' with
    | call hcallee' harguments' hcheck' =>
      cases hcallee.symm.trans hcallee'
      cases harguments.symm.trans harguments'
      cases hcheck.symm.trans hcheck'
      rfl
  case whenTrue htest hv =>
    cases h' with
    | whenTrue htest' =>
      cases htest.symm.trans htest'
      rfl
    | whenFalse htest' hv' =>
      cases htest.symm.trans htest'
      cases hv.symm.trans hv'
  case whenFalse htest hv =>
    cases h' with
    | whenTrue htest' hv' =>
      cases htest.symm.trans htest'
      cases hv.symm.trans hv'
    | whenFalse htest' =>
      cases htest.symm.trans htest'
      rfl
  case nextTurn hbody hflow =>
    cases h' with
    | nextTurn _ _ hbody' =>
      cases hbody.symm.trans hbody'
      rfl

/-- Of two parts of a point, one follows the other: there is a first part, and at most one that
follows each. -/
theorem Starts.ordered {p q r : Point} {vs ws : List Value} (hq : Starts config p vs q)
    (hr : Starts config p ws r) :
    q = r ∨ TransGen (Follows config p) q r ∨ TransGen (Follows config p) r q := by
  obtain ⟨first, hfirst, hfirstq⟩ := hq.from_first
  obtain ⟨first', hfirst', hfirstr⟩ := hr.from_first
  cases hfirst.symm.trans hfirst'
  have hunique : Relator.RightUnique (Follows config p) := fun _ _ _ => Follows.right_unique
  rcases hfirstq.total_of_right_unique hunique hfirstr with h | h
  · exact (reflTransGen_iff_eq_or_transGen.1 h).imp Eq.symm .inl
  · exact (reflTransGen_iff_eq_or_transGen.1 h).imp id .inr

/-! ## Trails of a run -/

/-- Every point that is reached is at the end of a trail. -/
theorem Reaches.trail {p q : Point} {vs : List Value} (reaches : Reaches config p vs q) :
    ∃ around, Trail config p (q :: around) := by
  induction reaches with
  | refl => exact ⟨[], .start⟩
  | tail _ starts ih =>
    obtain ⟨around, trail⟩ := ih
    exact ⟨_, trail.part starts⟩

namespace Trail

variable {start p q : Point} {around T T' : List Point}

theorem reaches (trail : Trail config start (q :: around)) :
    ∃ vs, Reaches config start vs q := by
  induction around generalizing q with
  | nil =>
    cases trail
    exact ⟨[], .refl⟩
  | cons p around ih =>
    obtain _ | ⟨trail, starts⟩ := trail
    obtain ⟨vs, reaches⟩ := ih trail
    exact ⟨_, reaches.tail starts⟩

theorem of_append {inner : List Point} (trail : Trail config start (inner ++ p :: around)) :
    Trail config start (p :: around) := by
  induction inner with
  | nil => exact trail
  | cons q inner ih =>
    rw [List.cons_append] at trail
    generalize hT : inner ++ p :: around = T at trail ih
    cases trail with
    | start => exact absurd hT (List.append_ne_nil_of_right_ne_nil _ nofun)
    | part trail _ => exact ih trail

/-- A point that starts no part is the end of every trail along its own. -/
theorem eq_of_suffix (hp : ∀ vs q, ¬Starts config p vs q) (trail : Trail config start T)
    (hsuffix : p :: around <:+ T) : T = p :: around := by
  obtain ⟨inner, rfl⟩ := hsuffix
  rcases List.eq_nil_or_concat inner with rfl | ⟨inner, q, rfl⟩
  · rfl
  · rw [List.concat_eq_append, List.append_assoc, List.singleton_append] at trail
    obtain _ | ⟨-, starts⟩ := trail.of_append
    exact absurd starts (hp _ q)

/-- Every trail of a run begins where the run does. -/
theorem suffix (trail : Trail config start T) : [start] <:+ T := by
  induction trail with
  | start => exact List.suffix_refl _
  | part _ _ ih => exact ih.trans (List.suffix_cons ..)

/-- Of two trails of a run, one lies on the other, or one is before the other. -/
theorem compare (trail : Trail config start T) (trail' : Trail config start T') :
    T <:+ T' ∨ T' <:+ T ∨ Before config T T' ∨ Before config T' T := by
  induction trail with
  | start => exact .inl trail'.suffix
  | @part p q around vs _ starts ih =>
    rcases ih with ⟨inner, rfl⟩ | hsuffix | hbefore | hbefore
    · -- The other trail passes through `p`: what counts is which part of it comes next there.
      rcases List.eq_nil_or_concat inner with rfl | ⟨inner', r, rfl⟩
      · exact .inr (.inl (List.suffix_cons ..))
      · rw [List.concat_eq_append, List.append_assoc, List.singleton_append] at trail' ⊢
        obtain _ | ⟨-, starts'⟩ := trail'.of_append
        rcases starts.ordered starts' with rfl | hqr | hrq
        · exact .inl (List.suffix_append ..)
        · exact .inr (.inr (.inl (@Before.parts config p q r [] inner' around hqr)))
        · exact .inr (.inr (.inr (@Before.parts config p r q inner' [] around hrq)))
    · exact .inr (.inl (hsuffix.trans (List.suffix_cons ..)))
    · exact .inr (.inr (.inl (hbefore.append_left [q])))
    · exact .inr (.inr (.inr (hbefore.append_right [q])))

end Trail

end Scripting
