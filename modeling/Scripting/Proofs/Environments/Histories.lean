import Mathlib
import Scripting.Proofs.Machine.Later

/-!
# Histories of environments

* `History n` : what has been done to `n` environments, which are numbered as they were made;
* `History.parent?`, `History.above` : the environment in which one was made, and all around one
  (`above_eq`, `pairwise_above`);
* `History.last?` : the value stored last under a name in the own scope of an environment;
* `History.nearest?` : the innermost scope around an environment that binds a name
  (`nearest?_eq_some_iff`, `nearest?_eq_none_iff`);
* `History.defined` : the names that were defined in an environment, in order;
* `History.Until` : the histories that go on from one.

Histories are all that is said here: nothing looks at a store.
-/

namespace Scripting

set_option autoImplicit false

/-! ## Histories -/

/-- What has been done to `n` environments. Each has the number of those made before it. -/
inductive History : Nat → Type
  | start : History 0
  | new {n : Nat} (before : History n) : History (n + 1)
  | child {n : Nat} (before : History n) (parent : Fin n) : History (n + 1)
  | define {n : Nat} (before : History n) (e : Fin n) (name : String) (v : Value) : History n
  | assign {n : Nat} (before : History n) (e : Fin n) (t : Token) (v : Value) : History n
  | get {n : Nat} (before : History n) (e : Fin n) (t : Token) : History n

namespace History

/-- The environment in which an environment was made, if there is one. -/
def parent? : {n : Nat} → History n → Nat → Option Nat
  | _, start, _ => none
  | _, new before, e => before.parent? e
  | n + 1, child before parent, e => if e = n then some parent else before.parent? e
  | _, define before _ _ _, e => before.parent? e
  | _, assign before _ _ _, e => before.parent? e
  | _, get before _ _, e => before.parent? e

/-- The environments from `e` outwards: `e` itself, the one in which it was made, and so on. -/
def above : {n : Nat} → History n → Nat → List Nat
  | _, start, _ => []
  | n + 1, new before, e => if e = n then [n] else before.above e
  | n + 1, child before parent, e => if e = n then n :: before.above parent else before.above e
  | _, define before _ _ _, e => before.above e
  | _, assign before _ _ _, e => before.above e
  | _, get before _ _, e => before.above e

/-- The value stored last under a name in the own scope of an environment. A value assigned from `e`
is stored in the first scope from `e` outwards in which something is stored under the name. -/
def last? : {n : Nat} → History n → (scope : Nat) → (name : String) → Option Value
  | _, start, _, _ => none
  | _, new before, s, x => before.last? s x
  | _, child before _, s, x => before.last? s x
  | _, define before e name v, s, x => if s = e ∧ x = name then some v else before.last? s x
  | _, assign before e t v, s, x =>
    if (before.above e).find? (fun s => (before.last? s t.lexeme).isSome) = some s ∧ x = t.lexeme
    then some v
    else before.last? s x
  | _, get before _ _, s, x => before.last? s x

/-- The first scope from `e` outwards in which something is stored under the name. -/
def nearest? {n : Nat} (h : History n) (e : Nat) (name : String) : Option Nat :=
  (h.above e).find? fun s => (h.last? s name).isSome

/-- The names that were defined in an environment, in order, each as often as it was. -/
def defined : {n : Nat} → History n → Nat → List String
  | _, start, _ => []
  | _, new before, e => before.defined e
  | _, child before _, e => before.defined e
  | _, define before e' name _, e =>
    if e = e' then before.defined e ++ [name] else before.defined e
  | _, assign before _ _ _, e => before.defined e
  | _, get before _ _, e => before.defined e

/-- The second history goes on from the first. -/
inductive Until {m : Nat} (h : History m) : {n : Nat} → History n → Prop
  | refl : Until h h
  | new {n : Nat} {h' : History n} (later : Until h h') : Until h h'.new
  | child {n : Nat} {h' : History n} (later : Until h h') (parent : Fin n) :
      Until h (h'.child parent)
  | define {n : Nat} {h' : History n} (later : Until h h') (e : Fin n) (name : String) (v : Value) :
      Until h (h'.define e name v)
  | assign {n : Nat} {h' : History n} (later : Until h h') (e : Fin n) (t : Token) (v : Value) :
      Until h (h'.assign e t v)
  | get {n : Nat} {h' : History n} (later : Until h h') (e : Fin n) (t : Token) :
      Until h (h'.get e t)

variable {n : Nat}

/-! ## Scopes around each other -/

theorem parent?_of_le (h : History n) {e : Nat} (he : n ≤ e) : h.parent? e = none := by
  induction h with
  | start => rfl
  | new before ih => exact ih (Nat.le_of_succ_le he)
  | child before parent ih =>
    rw [parent?, if_neg (Nat.ne_of_gt he)]
    exact ih (Nat.le_of_succ_le he)
  | define before _ _ _ ih => exact ih he
  | assign before _ _ _ ih => exact ih he
  | get before _ _ ih => exact ih he

/-- An environment is made in an older one. -/
theorem parent?_lt (h : History n) {e p : Nat} (hp : h.parent? e = some p) : p < e := by
  induction h with
  | start => cases hp
  | new before ih => exact ih hp
  | @child n before parent ih =>
    rw [parent?] at hp
    split at hp
    · rename_i he
      cases hp
      rw [he]
      exact parent.isLt
    · exact ih hp
  | define before _ _ _ ih => exact ih hp
  | assign before _ _ _ ih => exact ih hp
  | get before _ _ ih => exact ih hp

/-- What is above an environment is the environment itself and what is above its parent. -/
theorem above_eq (h : History n) {e : Nat} (he : e < n) :
    h.above e = e :: ((h.parent? e).map h.above).getD [] := by
  induction h with
  | start => exact absurd he (Nat.not_lt_zero e)
  | @new n before ih =>
    by_cases heq : e = n
    · subst heq
      rw [above, if_pos rfl, parent?, before.parent?_of_le (Nat.le_refl e)]
      rfl
    · have hlt : e < n := by omega
      rw [above, if_neg heq, ih hlt, parent?]
      cases hp : before.parent? e with
      | none => rfl
      | some p =>
        have := before.parent?_lt hp
        simp only [Option.map_some, Option.getD_some, above]
        rw [if_neg (by omega)]
  | @child n before parent ih =>
    have hparent := parent.isLt
    by_cases heq : e = n
    · subst heq
      rw [above, if_pos rfl, parent?, if_pos rfl]
      simp only [Option.map_some, Option.getD_some, above]
      rw [if_neg (by omega)]
    · have hlt : e < n := by omega
      rw [above, if_neg heq, ih hlt, parent?, if_neg heq]
      cases hp : before.parent? e with
      | none => rfl
      | some p =>
        have := before.parent?_lt hp
        simp only [Option.map_some, Option.getD_some, above]
        rw [if_neg (by omega)]
  | define before _ _ _ ih => exact ih he
  | assign before _ _ _ ih => exact ih he
  | get before _ _ ih => exact ih he

/-- Going outwards, one comes to older and older environments, and so never to the same again. -/
theorem pairwise_above (h : History n) (e : Nat) :
    (h.above e).Pairwise (· > ·) ∧ ∀ s ∈ h.above e, s < n := by
  induction h generalizing e with
  | start => exact ⟨.nil, nofun⟩
  | @new n before ih =>
    rw [above]
    split
    · exact ⟨List.pairwise_singleton .., by simp⟩
    · exact ⟨(ih e).1, fun s hs => Nat.lt_succ_of_lt ((ih e).2 s hs)⟩
  | @child n before parent ih =>
    rw [above]
    split
    · have habove := ih parent
      refine ⟨.cons habove.2 habove.1, ?_⟩
      rintro s (_ | ⟨_, hs⟩)
      · exact Nat.lt_succ_self n
      · exact Nat.lt_succ_of_lt (habove.2 s hs)
    · exact ⟨(ih e).1, fun s hs => Nat.lt_succ_of_lt ((ih e).2 s hs)⟩
  | define before _ _ _ ih => exact ih e
  | assign before _ _ _ ih => exact ih e
  | get before _ _ ih => exact ih e

/-! ## The nearest scope -/

/-- The nearest scope that binds a name is on the way outwards, and no scope before it binds it. -/
theorem nearest?_eq_some_iff (h : History n) {e s : Nat} {name : String} :
    h.nearest? e name = some s ↔ ∃ inside outside, h.above e = inside ++ s :: outside ∧
      (∀ s' ∈ inside, h.last? s' name = none) ∧ ∃ v, h.last? s name = some v := by
  unfold nearest?
  rw [List.find?_eq_some_iff_append]
  constructor
  · rintro ⟨hs, inside, outside, hsplit, hinside⟩
    exact ⟨inside, outside, hsplit, fun s' hs' => by simpa using hinside s' hs',
      Option.isSome_iff_exists.1 hs⟩
  · rintro ⟨inside, outside, hsplit, hinside, hs⟩
    exact ⟨Option.isSome_iff_exists.2 hs, inside, outside, hsplit,
      fun s' hs' => by simp [hinside s' hs']⟩

theorem nearest?_eq_none_iff (h : History n) {e : Nat} {name : String} :
    h.nearest? e name = none ↔ ∀ s ∈ h.above e, h.last? s name = none := by
  unfold nearest?
  rw [List.find?_eq_none]
  simp

theorem exists_last?_of_nearest? {h : History n} {e s : Nat} {name : String}
    (hs : h.nearest? e name = some s) : ∃ v, h.last? s name = some v := by
  obtain ⟨_, _, -, -, hv⟩ := h.nearest?_eq_some_iff.1 hs
  exact hv

theorem nearest?_lt {h : History n} {e s : Nat} {name : String}
    (hs : h.nearest? e name = some s) : s < n := by
  obtain ⟨inside, outside, hsplit, -⟩ := h.nearest?_eq_some_iff.1 hs
  exact (h.pairwise_above e).2 s (by simp [hsplit])

theorem last?_assign (h : History n) (e : Fin n) (t : Token) (v : Value) (s : Nat) (x : String) :
    (h.assign e t v).last? s x =
      if h.nearest? e t.lexeme = some s ∧ x = t.lexeme then some v else h.last? s x := rfl

end History

end Scripting
