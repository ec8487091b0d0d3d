import Scripting.Proofs.Machine.Likeness
import Scripting.Proofs.Same.Trees

/-!
# Stores side by side

* `Pairing` : which frames of two stores stand for each other (`Pairing.both`, `Pairing.alone`,
  `Pairing.swap`);
* `Pairing.Sees` : scopes with frames that stand for each other, in the same order, and others
  between them;
* `Closure.Same`, `Value.Same`, `Frame.Same`, `Store.Same` : the same, but for what is forgotten of
  the bodies of functions, and for frames that stand for none, which are without names;
* `Store.Same.binder?`, `Store.Same.lookup?`, `Store.Same.define`, `Store.Same.addBoth`,
  `Store.Same.addAlone` : the operations on such stores;
* `Value.Same.swap`, `Store.Same.swap` : the stores the other way round;
* `Store.Grounded` : functions see frames that there are; such a store is the same as itself
  (`Store.same_refl`).

A pairing only grows, since frames are added and never removed.
-/

namespace Scripting

set_option autoImplicit false

/-! ## Frames that stand for each other -/

theorem getElem?_concat_eq_some {α : Type} {as : List α} {a b : α} {i : Nat} :
    (as ++ [a])[i]? = some b ↔ as[i]? = some b ∨ i = as.length ∧ a = b := by
  rcases Nat.lt_trichotomy i as.length with hlt | rfl | hgt
  · simp [List.getElem?_append_left hlt, Nat.ne_of_lt hlt]
  · simp
  · rw [List.getElem?_eq_none (by simpa using Nat.succ_le_of_lt hgt),
      List.getElem?_eq_none (Nat.le_of_lt hgt)]
    simp [Nat.ne_of_gt hgt]

/-- Frames of two stores side by side: the frame that each one stands for in the other store, if it
stands for one. -/
structure Pairing where
  left : List (Option FrameId)
  right : List (Option FrameId)
  agree : ∀ i j : FrameId, left[i]? = some (some j) ↔ right[j]? = some (some i)

namespace Pairing

/-- Each of the first frames stands for itself. -/
def same (size : Nat) : Pairing where
  left := (List.range size).map some
  right := (List.range size).map some
  agree i j := by
    simp only [List.getElem?_map, Option.map_eq_some_iff, Option.some.injEq, exists_eq_right,
      List.getElem?_eq_some_iff, List.length_range, List.getElem_range]
    constructor
    · rintro ⟨h, rfl⟩
      exact ⟨h, rfl⟩
    · rintro ⟨h, rfl⟩
      exact ⟨h, rfl⟩

theorem left_same {size : Nat} {i : FrameId} (h : i < size) :
    (same size).left[i]? = some (some i) := by
  simp [same, List.getElem?_map, List.getElem?_range h]

theorem length_left_same (size : Nat) : (same size).left.length = size := by simp [same]

theorem eq_of_left_same {size : Nat} {i j : FrameId}
    (h : (same size).left[i]? = some (some j)) : i = j := by
  have hi : i < size := length_left_same size ▸ (List.getElem?_eq_some_iff.1 h).1
  simpa [left_same hi] using h

theorem left_same_ne_none {size : Nat} (i : FrameId) : (same size).left[i]? ≠ some none := by
  intro h
  have hi : i < size := length_left_same size ▸ (List.getElem?_eq_some_iff.1 h).1
  simp [left_same hi] at h

/-- The stores the other way round. -/
def swap (P : Pairing) : Pairing := ⟨P.right, P.left, fun i j => (P.agree j i).symm⟩

/-- Frames come, and those that there are keep what they stand for. -/
structure Grows (P P' : Pairing) : Prop where
  left : P.left <+: P'.left
  right : P.right <+: P'.right

variable {P P' P'' : Pairing}

theorem Grows.refl (P : Pairing) : P.Grows P := ⟨List.prefix_refl _, List.prefix_refl _⟩

theorem Grows.trans (h : P.Grows P') (h' : P'.Grows P'') : P.Grows P'' :=
  ⟨h.left.trans h'.left, h.right.trans h'.right⟩

theorem Grows.swap (h : P.Grows P') : P.swap.Grows P'.swap := ⟨h.right, h.left⟩

/-- A frame stands for one that there is. -/
theorem lt_right {i j : FrameId} (h : P.left[i]? = some (some j)) : j < P.right.length :=
  (List.getElem?_eq_some_iff.1 ((P.agree i j).1 h)).1

theorem lt_left {i j : FrameId} (h : P.left[i]? = some (some j)) : i < P.left.length :=
  (List.getElem?_eq_some_iff.1 h).1

variable (P) in
/-- A new frame in both stores. -/
def both : Pairing where
  left := P.left ++ [some P.right.length]
  right := P.right ++ [some P.left.length]
  agree i j := by
    rw [getElem?_concat_eq_some, getElem?_concat_eq_some, P.agree i j]
    simp only [Option.some.injEq, eq_comm, and_comm]

variable (P) in
/-- A new frame in the first store only. -/
def alone : Pairing where
  left := P.left ++ [none]
  right := P.right
  agree i j := by
    simp only [getElem?_concat_eq_some, P.agree i j, reduceCtorEq, and_false, or_false]

theorem grows_both : P.Grows P.both := ⟨List.prefix_append .., List.prefix_append ..⟩

theorem grows_alone : P.Grows P.alone := ⟨List.prefix_append .., List.prefix_refl _⟩

theorem left_both : P.both.left[P.left.length]? = some (some P.right.length) :=
  List.getElem?_concat_length

theorem left_alone : P.alone.left[P.left.length]? = some none := List.getElem?_concat_length

/-! ## Scopes -/

variable (P) in
/-- The frames of two scopes: those that stand for each other are in the same order, and any others
are between them. -/
inductive Sees : List FrameId → List FrameId → Prop
  | nil : Sees [] []
  | both {i j : FrameId} {is js : List FrameId} (h : P.left[i]? = some (some j))
      (rest : Sees is js) : Sees (i :: is) (j :: js)
  | left {i : FrameId} {is js : List FrameId} (h : P.left[i]? = some none) (rest : Sees is js) :
      Sees (i :: is) js
  | right {j : FrameId} {is js : List FrameId} (h : P.right[j]? = some none) (rest : Sees is js) :
      Sees is (j :: js)

variable {is js : List FrameId}

theorem Sees.mono (h : P.Sees is js) (grows : P.Grows P') : P'.Sees is js := by
  induction h with
  | nil => exact .nil
  | both h _ ih => exact .both (getElem?_of_grows grows.left h) ih
  | left h _ ih => exact .left (getElem?_of_grows grows.left h) ih
  | right h _ ih => exact .right (getElem?_of_grows grows.right h) ih

theorem Sees.swap (h : P.Sees is js) : P.swap.Sees js is := by
  induction h with
  | nil => exact .nil
  | both h _ ih => exact .both ((P.agree ..).1 h) ih
  | left h _ ih => exact .right h ih
  | right h _ ih => exact .left h ih

theorem Sees.enterBoth (h : P.Sees is js) :
    P.both.Sees (P.left.length :: is) (P.right.length :: js) :=
  .both left_both (h.mono grows_both)

theorem Sees.enterAlone (h : P.Sees is js) : P.alone.Sees (P.left.length :: is) js :=
  .left left_alone (h.mono grows_alone)

theorem sees_same {size : Nat} (h : ∀ i ∈ is, i < size) : (same size).Sees is is := by
  induction is with
  | nil => exact .nil
  | cons i is ih =>
    rw [List.forall_mem_cons] at h
    exact .both (left_same h.1) (ih h.2)

end Pairing

/-! ## Values -/

section

variable (F : Forgetting) (P : Pairing)

/-- Functions with bodies that are equal but for what is forgotten, and scopes that stand for each
other. -/
structure Closure.Same (f f' : Closure) : Prop where
  name : f'.name = f.name
  parameters : f'.parameters = f.parameters
  body : Stmt.forgetAll F f'.body = Stmt.forgetAll F f.body
  scope : P.Sees f.scope.chain f'.scope.chain

/-- Values that are equal, but for what is forgotten of the body of a function, and for its scope.
-/
inductive Value.Same : Value → Value → Prop
  | script {identity : Nat} {f f' : Closure} (h : f.Same F P f') :
      Same (callable (.script identity f)) (callable (.script identity f'))
  | same {v : Value} (h : v.isScript = false) : Same v v

/-- Frames with the same names in the same order, and values that are the same. -/
def Frame.Same (f f' : Frame) : Prop := f.Matches (fun n n' => n' = n) (Value.Same F P) f'

/-- Stores in which frames that stand for each other are the same, and the others are without names.
-/
structure Store.Same (s s' : Store) : Prop where
  left : P.left.length = s.size
  right : P.right.length = s'.size
  frame : ∀ {i j : FrameId}, P.left[i]? = some (some j) → (s.frame i).Same F P (s'.frame j)
  leftEmpty : ∀ {i : FrameId}, P.left[i]? = some none → s.frame i = .empty
  rightEmpty : ∀ {j : FrameId}, P.right[j]? = some none → s'.frame j = .empty

end

variable {F : Forgetting} {P P' : Pairing}

namespace Value.Same

variable {v v' : Value}

theorem mono (h : v.Same F P v') (grows : P.Grows P') : v.Same F P' v' := by
  cases h with
  | script h => exact .script { h with scope := h.scope.mono grows }
  | same h => exact .same h

/-- Neither bodies nor scopes are anything that values show. -/
theorem looks (h : v.Same F P v') : v.Looks v' := by
  cases h with
  | script h => exact .script h.name
  | same => exact .same _

theorem swap (h : v.Same F P v') : v'.Same F P.swap v := by
  cases h with
  | script h => exact .script ⟨h.name.symm, h.parameters.symm, h.body.symm, h.scope.swap⟩
  | same h => exact .same h

end Value.Same

namespace Frame.Same

variable {f f' : Frame}

theorem biUnique_name : Relator.BiUnique fun n n' : String => n' = n :=
  ⟨fun _ _ _ h h' => h.symm.trans h', fun _ _ _ h h' => h.trans h'.symm⟩

theorem mono (h : f.Same F P f') (grows : P.Grows P') : f.Same F P' f' :=
  h.imp fun _ _ hb => ⟨hb.1, hb.2.mono grows⟩

theorem swap (h : f.Same F P f') : f'.Same F P.swap f :=
  h.flip.imp fun _ _ hb => ⟨hb.1.symm, hb.2.swap⟩

theorem lookup? (h : f.Same F P f') (name : String) :
    Option.Rel (Value.Same F P) (f.lookup? name) (f'.lookup? name) :=
  Frame.Matches.lookup? biUnique_name h rfl

theorem binds (h : f.Same F P f') (name : String) : f'.binds name = f.binds name :=
  Frame.Matches.binds biUnique_name h rfl

theorem define (h : f.Same F P f') (name : String) {v v' : Value} (hv : v.Same F P v') :
    (f.define name v).Same F P (f'.define name v') :=
  Frame.Matches.define biUnique_name h rfl hv

end Frame.Same

/-! ## Stores -/

namespace Store.Same

variable {s s' : Store}

theorem swap (h : s.Same F P s') : s'.Same F P.swap s where
  left := h.right
  right := h.left
  frame hij := (h.frame ((P.agree ..).2 hij)).swap
  leftEmpty := h.rightEmpty
  rightEmpty := h.leftEmpty

/-- Between frames of the same stores, a name is bound in those that stand for each other only. -/
theorem binder? (h : s.Same F P s') {is js : List FrameId} (sees : P.Sees is js) (name : String) :
    Option.Rel (fun i j => P.left[i]? = some (some j)) (s.binder? is name)
      (s'.binder? js name) := by
  unfold Store.binder?
  induction sees with
  | nil => exact .none
  | both hij _ ih =>
    rw [List.find?_cons, List.find?_cons, (h.frame hij).binds name]
    split
    · exact .some hij
    · exact ih
  | left hi _ ih =>
    rw [List.find?_cons, h.leftEmpty hi]
    exact ih
  | right hj _ ih =>
    rw [List.find?_cons, h.rightEmpty hj]
    exact ih

theorem lookup? (h : s.Same F P s') {scope scope' : Scope}
    (sees : P.Sees scope.chain scope'.chain) (name : String) :
    Option.Rel (Value.Same F P) (s.lookup? scope name) (s'.lookup? scope' name) := by
  have hbinder := h.binder? sees name
  rw [lookup?_eq, lookup?_eq]
  revert hbinder
  generalize s.binder? scope.chain name = found
  generalize s'.binder? scope'.chain name = found'
  rintro (hij | _)
  · exact (h.frame hij).lookup? name
  · exact .none

theorem define (h : s.Same F P s') {i j : FrameId} (hij : P.left[i]? = some (some j))
    (name : String) {v v' : Value} (hv : v.Same F P v') :
    (s.define i name v).Same F P (s'.define j name v') where
  left := by rw [size_define, h.left]
  right := by rw [size_define, h.right]
  frame {k l} hkl := by
    have hi : i < s.size := h.left ▸ P.lt_left hij
    have hj : j < s'.size := h.right ▸ P.lt_right hij
    rw [frame_define _ _ _ _ _ hi, frame_define _ _ _ _ _ hj]
    by_cases hk : k = i
    · subst hk
      obtain rfl : l = j := by simpa [hij] using hkl.symm
      rw [if_pos rfl, if_pos rfl]
      exact (h.frame hij).define name hv
    · have hl : l ≠ j := by
        rintro rfl
        have hright := (P.agree ..).1 hkl
        rw [(P.agree ..).1 hij] at hright
        exact hk (by simpa using hright.symm)
      rw [if_neg hk, if_neg hl]
      exact h.frame hkl
  leftEmpty {k} hk := by
    rw [frame_define_of_ne s fun heq => by simp [heq, hij] at hk]
    exact h.leftEmpty hk
  rightEmpty {l} hl := by
    rw [frame_define_of_ne s' fun heq => by simp [heq, (P.agree ..).1 hij] at hl]
    exact h.rightEmpty hl

theorem addBoth (h : s.Same F P s') {f f' : Frame} (hf : f.Same F P f') :
    (s.add f).Same F P.both (s'.add f') where
  left := by rw [Pairing.both, List.length_append, h.left, size_add, List.length_singleton]
  right := by rw [Pairing.both, List.length_append, h.right, size_add, List.length_singleton]
  frame {i j} hij := by
    rcases getElem?_concat_eq_some.1 hij with hij | ⟨rfl, heq⟩
    · have hi : i ≠ s.size := h.left ▸ Nat.ne_of_lt (P.lt_left hij)
      have hj : j ≠ s'.size := h.right ▸ Nat.ne_of_lt (P.lt_right hij)
      rw [frame_add, frame_add, if_neg hi, if_neg hj]
      exact (h.frame hij).mono P.grows_both
    · obtain rfl : P.right.length = j := by simpa using heq
      rw [frame_add, frame_add, if_pos h.left, if_pos h.right]
      exact hf.mono P.grows_both
  leftEmpty {i} hi := by
    rcases getElem?_concat_eq_some.1 hi with hi | ⟨-, heq⟩
    · have hne : i ≠ s.size := h.left ▸ Nat.ne_of_lt (List.getElem?_eq_some_iff.1 hi).1
      rw [frame_add, if_neg hne]
      exact h.leftEmpty hi
    · cases heq
  rightEmpty {j} hj := by
    rcases getElem?_concat_eq_some.1 hj with hj | ⟨-, heq⟩
    · have hne : j ≠ s'.size := h.right ▸ Nat.ne_of_lt (List.getElem?_eq_some_iff.1 hj).1
      rw [frame_add, if_neg hne]
      exact h.rightEmpty hj
    · cases heq

theorem addAlone (h : s.Same F P s') : (s.add .empty).Same F P.alone s' where
  left := by rw [Pairing.alone, List.length_append, h.left, size_add, List.length_singleton]
  right := h.right
  frame {i j} hij := by
    rcases getElem?_concat_eq_some.1 hij with hij | ⟨-, heq⟩
    · have hi : i ≠ s.size := h.left ▸ Nat.ne_of_lt (P.lt_left hij)
      rw [frame_add, if_neg hi]
      exact (h.frame hij).mono P.grows_alone
    · cases heq
  leftEmpty {i} hi := by
    rw [frame_add]
    rcases getElem?_concat_eq_some.1 hi with hi | ⟨rfl, -⟩
    · have hne : i ≠ s.size := h.left ▸ Nat.ne_of_lt (List.getElem?_eq_some_iff.1 hi).1
      rw [if_neg hne]
      exact h.leftEmpty hi
    · rw [if_pos h.left]
  rightEmpty hj := h.rightEmpty hj

end Store.Same

/-! ## A store beside itself -/

/-- Functions in the store see frames that there are. -/
def Store.Grounded (s : Store) : Prop :=
  ∀ id, ∀ b ∈ (s.frame id).bindings, ∀ identity f, b.2 = .callable (.script identity f) →
    ∀ id' ∈ f.scope.chain, id' < s.size

theorem Value.same_refl {size : Nat} {v : Value} (h : ∀ identity f,
    v = .callable (.script identity f) → ∀ id ∈ f.scope.chain, id < size) :
    v.Same F (.same size) v := by
  rcases v with _ | _ | _ | _ | _ | ⟨identity, f⟩ | ⟨identity, f⟩
  case callable.script => exact .script ⟨rfl, rfl, rfl, Pairing.sees_same (h identity f rfl)⟩
  all_goals exact .same rfl

/-- Each frame of a store stands for itself. -/
theorem Store.same_refl {s : Store} (h : s.Grounded) : s.Same F (.same s.size) s where
  left := Pairing.length_left_same s.size
  right := Pairing.length_left_same s.size
  frame {i j} hij := by
    obtain rfl : i = j := Pairing.eq_of_left_same hij
    exact List.forall₂_same.2 fun b hb => ⟨rfl, Value.same_refl (h i b hb)⟩
  leftEmpty hi := absurd hi (Pairing.left_same_ne_none _)
  rightEmpty hj := absurd hj (Pairing.left_same_ne_none _)

end Scripting
