import Mathlib.Data.List.Forall2
import Scripting.Proofs.Machine.Later

/-!
# Values and frames side by side

* `Value.Looks` : values that no operator tells apart, and no text of them (`Looks.text`,
  `Looks.binary`, `Looks.unary`);
* `UnaryOp.callable?_apply`, `BinaryOp.callable?_apply` : no operator gives a function;
* `Host.standard_eq`, `Host.standard_looks` : the standard native functions look at texts only;
* `Frame.Matches` : frames whose names and values are related one by one (`Matches.lookup?`,
  `Matches.define`, `Matches.callFrame`).
-/

namespace Scripting

set_option autoImplicit false

/-! ## Values -/

/-- Values that are the same, or functions of a program with the same identity and name. -/
inductive Value.Looks : Value → Value → Prop
  | script {identity : Nat} {f f' : Closure} (name : f'.name = f.name) :
      Looks (callable (.script identity f)) (callable (.script identity f'))
  | same (v : Value) : Looks v v

namespace Value.Looks

variable {v v' w w' : Value}

theorem isTruthy (h : v.Looks v') : v'.isTruthy = v.isTruthy := by
  cases h <;> rfl

theorem text (h : v.Looks v') : v'.text = v.text := by
  cases h with
  | script name => simp only [Value.text, Callable.text, name]
  | same => rfl

theorem equals (hv : v.Looks v') (hw : w.Looks w') : v'.equals w' = v.equals w := by
  cases hv with
  | script =>
    cases hw with
    | script => rfl
    | same => rcases w with _ | _ | _ | _ | _ | ⟨_ | _⟩ <;> rfl
  | same =>
    cases hw with
    | script => rcases v with _ | _ | _ | _ | _ | ⟨_ | _⟩ <;> rfl
    | same => rfl

theorem numbers (hv : v.Looks v') (hw : w.Looks w') : Numbers.of? v' w' = Numbers.of? v w := by
  cases hv with
  | script => cases hw <;> rfl
  | same =>
    cases hw with
    | script => cases v <;> rfl
    | same => rfl

theorem sum (hv : v.Looks v') (hw : w.Looks w') : BinaryOp.sum v' w' = BinaryOp.sum v w := by
  unfold BinaryOp.sum
  rw [hv.numbers hw]
  cases hv with
  | script => cases hw <;> rfl
  | same =>
    cases hw with
    | script => cases v <;> rfl
    | same => rfl

theorem binary (op : BinaryOp) (hv : v.Looks v') (hw : w.Looks w') :
    op.apply v' w' = op.apply v w := by
  cases op <;>
    simp only [BinaryOp.apply, BinaryOp.numeric, BinaryOp.quotient, hv.equals hw, hv.numbers hw,
      hv.sum hw]

theorem unary (op : UnaryOp) (hv : v.Looks v') : op.apply v' = op.apply v := by
  cases hv with
  | script => cases op <;> rfl
  | same => rfl

theorem decides (op : LogicalOp) (hv : v.Looks v') : op.decides v' = op.decides v := by
  cases op <;> simp only [LogicalOp.decides, hv.isTruthy]

end Value.Looks

/-! ## Operators and native functions -/

/-- Whether the value is a function of a program. -/
def Value.isScript : Value → Bool
  | callable (.script _ _) => true
  | _ => false

theorem Value.isScript_of_callable? {v : Value} (h : v.callable? = none) : v.isScript = false := by
  cases v with
  | callable => cases h
  | _ => rfl

theorem UnaryOp.callable?_apply {op : UnaryOp} {v r : Value} (h : op.apply v = .ok r) :
    r.callable? = none := by
  unfold apply at h
  split at h <;> cases h <;> rfl

theorem BinaryOp.callable?_apply {op : BinaryOp} {a b r : Value} (h : op.apply a b = .ok r) :
    r.callable? = none := by
  cases op <;> simp only [apply, sum, numeric, quotient] at h <;> (repeat' split at h) <;>
    cases h <;> rfl

theorem UnaryOp.isScript_apply {op : UnaryOp} {v u : Value} (h : op.apply v = .ok u) :
    u.isScript = false :=
  Value.isScript_of_callable? (callable?_apply h)

theorem BinaryOp.isScript_apply {op : BinaryOp} {v w u : Value} (h : op.apply v w = .ok u) :
    u.isScript = false :=
  Value.isScript_of_callable? (callable?_apply h)

theorem Value.callable?_ofLiteral (value : Literal) : (ofLiteral value).callable? = none := by
  cases value <;> rfl

/-- The standard native functions read the clock or write a text, and no more. -/
theorem Host.standard_eq (f : Native) (vs : List Value) :
    standard f vs = .readClock ∨ (∃ text, standard f vs = .write text .null) ∨
      standard f vs = .value .null := by
  unfold standard
  split
  · exact .inl rfl
  · split
    · exact .inr (.inl ⟨_, rfl⟩)
    · exact .inr (.inr rfl)

/-- What the standard native functions do depends on the texts of values only. -/
theorem Host.standard_looks (f : Native) {vs vs' : List Value}
    (h : List.Forall₂ Value.Looks vs vs') : standard f vs' = standard f vs := by
  have htexts : vs'.map Value.text = vs.map Value.text := by
    induction h with
    | nil => rfl
    | cons hv _ ih => rw [List.map_cons, List.map_cons, hv.text, ih]
  unfold standard
  rw [htexts]

/-! ## Frames -/

/-- What a list that only grows holds, it keeps. -/
theorem getElem?_of_grows {α : Type} {as bs : List α} (h : as <+: bs) {i : Nat} {a : α}
    (ha : as[i]? = some a) : bs[i]? = some a := by
  obtain ⟨cs, rfl⟩ := h
  rw [List.getElem?_append_left (List.getElem?_eq_some_iff.1 ha).1, ha]

/-- Frames with names and values that are related, in the same order. -/
def Frame.Matches (N : String → String → Prop) (R : Value → Value → Prop) (f f' : Frame) : Prop :=
  List.Forall₂ (fun b b' => N b.1 b'.1 ∧ R b.2 b'.2) f.bindings f'.bindings

namespace Frame.Matches

variable {N : String → String → Prop} {R : Value → Value → Prop} {f f' : Frame} {n n' : String}
  {v v' : Value} (hN : Relator.BiUnique N)

include hN

theorem lookup? (h : f.Matches N R f') (hn : N n n') :
    Option.Rel R (f.lookup? n) (f'.lookup? n') := by
  obtain ⟨bs⟩ := f
  obtain ⟨bs'⟩ := f'
  change List.Forall₂ _ bs bs' at h
  unfold Frame.lookup?
  dsimp only
  induction h with
  | nil => exact .none
  | @cons b b' _ _ hb _ ih =>
    obtain ⟨m, u⟩ := b
    obtain ⟨m', u'⟩ := b'
    simp only [Frame.get?, Relator.rel_eq hN hb.1 hn]
    split
    · exact .some hb.2
    · exact ih

theorem binds (h : f.Matches N R f') (hn : N n n') : f'.binds n' = f.binds n := by
  have hl := h.lookup? hN hn
  unfold Frame.binds
  revert hl
  generalize f.lookup? n = a
  generalize f'.lookup? n' = a'
  rintro (_ | _) <;> rfl

theorem define (h : f.Matches N R f') (hn : N n n') (hv : R v v') :
    (f.define n v).Matches N R (f'.define n' v') := by
  obtain ⟨bs⟩ := f
  obtain ⟨bs'⟩ := f'
  change List.Forall₂ _ bs bs' at h
  change List.Forall₂ _ (Frame.put n v bs) (Frame.put n' v' bs')
  induction h with
  | nil => exact .cons ⟨hn, hv⟩ .nil
  | @cons b b' _ _ hb hrest ih =>
    obtain ⟨m, u⟩ := b
    obtain ⟨m', u'⟩ := b'
    simp only [Frame.put, Relator.rel_eq hN hb.1 hn]
    split
    · exact .cons ⟨hb.1, hv⟩ hrest
    · exact .cons hb ih

/-- Parameters and arguments that are related are bound in frames that match. -/
theorem callFrame {ps ps' : List String} {vs vs' : List Value} (hps : List.Forall₂ N ps ps')
    (hvs : List.Forall₂ R vs vs') :
    (Scripting.callFrame ps vs).Matches N R (Scripting.callFrame ps' vs') := by
  have hframe : ∀ f f' : Frame, f.Matches N R f' →
      (f.defineAll (ps.zip vs)).Matches N R (f'.defineAll (ps'.zip vs')) := by
    induction hvs generalizing ps ps' with
    | nil => intro f f' hf; simpa [Frame.defineAll] using hf
    | cons hv _ ih =>
      intro f f' hf
      cases hps with
      | nil => exact hf
      | cons hp hps => exact ih hps _ _ (hf.define hN hp hv)
  rw [callFrame_eq, callFrame_eq]
  exact hframe _ _ .nil

end Frame.Matches

end Scripting
