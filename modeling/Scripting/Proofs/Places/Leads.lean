import Scripting.Proofs.Places.Fits

/-!
# Computations among places

* `Machine.Onward` : a later machine whose frames are well placed, some of them new;
* `Leads` : however a computation ends, the machine is such a one, and a result has a property;
* `Leads.bind`, `Leads.within`, `Leads.counted`, and a lemma for each operation;
* `Machine.Stands` : the scope of the machine fits a place;
* `leads_enterCall` : the scope of a call fits the beginning of the function's body.
-/

namespace Scripting

set_option autoImplicit false

open Eval
open Interpreter (globalFrame)

variable {runs : List Run} {W W' W'' : List TextScope} {m m' m'' : Machine} {Γ : Place}

/-! ## Machines -/

/-- The second machine is a later one. Frames may have come, and all are well placed. -/
structure Machine.Onward (runs : List Run) (W : List TextScope) (m : Machine)
    (W' : List TextScope) (m' : Machine) : Prop where
  grows : W <+: W'
  later : m.Later m'
  placed : m'.store.WellPlaced runs W'

theorem Machine.Onward.trans (h : m.Onward runs W W' m') (h' : m'.Onward runs W' W'' m'') :
    m.Onward runs W W'' m'' where
  grows := h.grows.trans h'.grows
  later := h.later.trans h'.later
  placed := h'.placed

theorem Value.Fits.onward {v : Value} (hv : v.Fits runs W m.store) (h : m.Onward runs W W' m') :
    v.Fits runs W' m'.store :=
  hv.mono h.grows h.later.store

/-- The frames of the machine are well placed, and its scope fits the place. -/
structure Machine.Stands (runs : List Run) (W : List TextScope) (m : Machine) (Γ : Place) :
    Prop where
  placed : m.store.WellPlaced runs W
  fits : Γ.Fits W m.store m.scope

/-- The scope of the later machine is that of the former one. -/
theorem Machine.Onward.stands (h : m.Onward runs W W' m') (hfits : Γ.Fits W' m'.store m.scope) :
    m'.Stands runs W' Γ where
  placed := h.placed
  fits := by rwa [h.later.scope]

theorem Machine.Stands.onward (h : m.Stands runs W Γ) (onward : m.Onward runs W W' m') :
    m'.Stands runs W' Γ :=
  onward.stands (h.fits.mono onward.grows onward.later.store)

/-! ## Computations -/

variable {α β : Type} {R : List TextScope → Store → α → Prop}
  {S : List TextScope → Store → β → Prop}

/-- However the computation ends, the machine is a later one with well placed frames; a result has
the property `R` then. -/
def Leads (runs : List Run) (W : List TextScope) (m : Machine) (act : Eval α)
    (R : List TextScope → Store → α → Prop) : Prop :=
  match act m with
  | .ok a m' => ∃ W', m.Onward runs W W' m' ∧ R W' m'.store a
  | .error _ m' => ∃ W', m.Onward runs W W' m'

namespace Leads

variable {act : Eval α} {next : α → Eval β}

theorem of_ok (h : Leads runs W m act R) {a : α} (hact : act m = .ok a m') :
    ∃ W', m.Onward runs W W' m' ∧ R W' m'.store a := by
  rwa [Leads, hact] at h

theorem of_error (h : Leads runs W m act R) {halt : Halt} (hact : act m = .error halt m') :
    ∃ W', m.Onward runs W W' m' := by
  rwa [Leads, hact] at h

theorem final (h : Leads runs W m act R) : ∃ W', m.Onward runs W W' (act.final m) := by
  unfold Leads at h
  unfold Eval.final
  cases hact : act m with
  | ok a m' =>
    rw [hact] at h
    obtain ⟨W', onward, -⟩ := h
    exact ⟨W', onward⟩
  | error halt m' => rwa [hact] at h

theorem imp {R' : List TextScope → Store → α → Prop} (h : Leads runs W m act R)
    (hR : ∀ W' m' a, m.Onward runs W W' m' → R W' m'.store a → R' W' m'.store a) :
    Leads runs W m act R' := by
  unfold Leads at *
  cases hact : act m with
  | ok a m' =>
    rw [hact] at h
    obtain ⟨W', onward, ha⟩ := h
    exact ⟨W', onward, hR W' m' a onward ha⟩
  | error halt m' => rwa [hact] at h

theorem bind (h : Leads runs W m act R)
    (hnext : ∀ W' m' a, m.Onward runs W W' m' → R W' m'.store a →
      Leads runs W' m' (next a) S) : Leads runs W m (act >>= next) S := by
  unfold Leads
  rw [bind_apply]
  cases hact : act m with
  | error halt m' => exact h.of_error hact
  | ok a m' =>
    obtain ⟨W', onward, ha⟩ := h.of_ok hact
    have hrest := hnext W' m' a onward ha
    dsimp only
    cases hb : next a m' with
    | ok b m'' =>
      obtain ⟨W'', onward', hb⟩ := hrest.of_ok hb
      exact ⟨W'', onward.trans onward', hb⟩
    | error halt m'' =>
      obtain ⟨W'', onward'⟩ := hrest.of_error hb
      exact ⟨W'', onward.trans onward'⟩

theorem within {scope : Scope} (h : Leads runs W { m with scope } act R) :
    Leads runs W m (Eval.within scope act) R := by
  unfold Leads Eval.within at *
  cases hact : act { m with scope } with
  | ok a m' =>
    rw [hact] at h
    obtain ⟨W', ⟨grows, later, placed⟩, ha⟩ := h
    exact ⟨W', ⟨grows, { later with scope := rfl }, placed⟩, ha⟩
  | error halt m' =>
    rw [hact] at h
    obtain ⟨W', grows, later, placed⟩ := h
    exact ⟨W', grows, { later with scope := rfl }, placed⟩

theorem counted (h : Leads runs W { m with callDepth := m.callDepth + 1 } act R) :
    Leads runs W m (Eval.counted act) R := by
  unfold Leads Eval.counted at *
  cases hact : act { m with callDepth := m.callDepth + 1 } with
  | ok a m' =>
    rw [hact] at h
    obtain ⟨W', ⟨grows, later, placed⟩, ha⟩ := h
    have hdepth : m'.callDepth - 1 = m.callDepth := by simp [later.callDepth]
    exact ⟨W', ⟨grows, { later with callDepth := hdepth }, placed⟩, ha⟩
  | error halt m' =>
    rw [hact] at h
    obtain ⟨W', grows, later, placed⟩ := h
    have hdepth : m'.callDepth - 1 = m.callDepth := by simp [later.callDepth]
    exact ⟨W', grows, { later with callDepth := hdepth }, placed⟩

end Leads

theorem leads_get_bind {next : Machine → Eval β} (h : Leads runs W m (next m) S) :
    Leads runs W m (get >>= next) S := by
  unfold Leads at *
  rwa [bind_apply]

/-! ## Operations -/

section

variable (h : m.store.WellPlaced runs W)

include h

/-- Nothing has happened. -/
theorem Machine.Onward.refl : m.Onward runs W W m := ⟨List.prefix_refl W, .refl m, h⟩

theorem leads_pure {a : α} (ha : R W m.store a) : Leads runs W m (pure a) R :=
  ⟨W, .refl h, ha⟩

theorem leads_throw (halt : Halt) : Leads runs W m (throw halt) R := ⟨W, .refl h⟩

/-- An operation that leaves the store as it is. -/
theorem leads_of_advances {act : Eval α} (advances : act.Advances)
    (hstore : (act.final m).store = m.store) :
    Leads runs W m act fun W' s _ => W' = W ∧ s = m.store := by
  have onward : m.Onward runs W W (act.final m) :=
    ⟨List.prefix_refl W, advances m, by rwa [hstore]⟩
  unfold Leads
  unfold final at onward hstore
  cases hact : act m with
  | ok a m' =>
    rw [hact] at onward hstore
    exact ⟨W, onward, rfl, hstore⟩
  | error halt m' =>
    rw [hact] at onward
    exact ⟨W, onward⟩

theorem leads_write (text : String) :
    Leads runs W m (write text) fun W' s _ => W' = W ∧ s = m.store := by
  refine leads_of_advances h (advances_write text) ?_
  unfold final write
  dsimp only
  cases m.sink.refusal? text.toUTF8 <;> rfl

theorem leads_flush : Leads runs W m flush fun W' s _ => W' = W ∧ s = m.store := by
  refine leads_of_advances h advances_flush ?_
  unfold final flush
  cases m.sink.flush <;> rfl

theorem leads_newReading : Leads runs W m newReading fun W' s _ => W' = W ∧ s = m.store :=
  leads_of_advances h advances_newReading rfl

theorem leads_tellCall (config : Config) (f : Closure) (scope : Scope) :
    Leads runs W m (tellCall config f scope) fun W' s _ => W' = W ∧ s = m.store := by
  refine leads_of_advances h ((closed_advances config).tellCall f scope) ?_
  unfold final tellCall
  cases config.tellsCalls <;> rfl

theorem leads_checkCall (config : Config) (paren : Token) (f : Value) (vs : List Value) :
    Leads runs W m (checkCall config paren f vs) fun _ _ c =>
      f.callable? = some c ∧ c.arity.accepts vs.length = true := by
  unfold checkCall
  cases hf : f.callable? with
  | none => exact leads_throw h _
  | some c =>
    dsimp only
    split
    · rename_i harity
      refine leads_get_bind ?_
      split
      · exact leads_pure h ⟨rfl, harity⟩
      · exact leads_throw h _
    · exact leads_throw h _

theorem leads_liftAt {t : Token} {r : Except RuntimeFault α}
    (hr : ∀ a, r = .ok a → R W m.store a) : Leads runs W m (liftAt t r) R := by
  cases r with
  | ok a => exact leads_pure h (hr a rfl)
  | error cause => exact leads_throw h _

end

theorem Store.WellPlaced.fits_of_read {s : Store} (h : s.WellPlaced runs W) {scope : Scope}
    {t : Token} {v : Value} (hread : s.read scope t = .ok v) : v.Fits runs W s := by
  unfold read lookup? at hread
  split at hread
  · rename_i v' hv
    cases hread
    obtain ⟨id, -, hid⟩ := List.exists_of_findSome?_eq_some hv
    exact h.values id _ (Frame.mem_of_get? hid)
  · cases hread

theorem leads_readName (h : m.store.WellPlaced runs W) (t : Token) :
    Leads runs W m (readName t) fun W' s v => v.Fits runs W' s := by
  unfold Leads readName
  cases hread : m.store.read m.scope t with
  | ok v => exact ⟨W, .refl h, h.fits_of_read hread⟩
  | error d => exact ⟨W, .refl h⟩

/-- Assigning binds no new name. -/
theorem leads_writeName (h : m.store.WellPlaced runs W) (t : Token) {v : Value}
    (hv : v.Fits runs W m.store) : Leads runs W m (writeName t v) fun _ _ _ => True := by
  have hlater := advances_writeName t v m
  unfold Leads
  unfold final writeName at *
  cases hlocate : m.store.locate m.scope t with
  | error d => exact ⟨W, .refl h⟩
  | ok id =>
    rw [hlocate] at hlater
    have hbound := (Store.mem_of_locate hlocate).2
    have hfits := hv.mono (List.prefix_refl W) (m.store.extends_define id t.lexeme v)
    have hplaced := h.define (Store.lt_size_of_mem hbound) (h.binds_of_mem hbound) hfits
    exact ⟨W, ⟨List.prefix_refl W, hlater, hplaced⟩, trivial⟩

/-- Behind a declaration of the innermost scope, the name is bound. -/
theorem leads_defineName (h : m.Stands runs W Γ) {n : String} {v : Value}
    (hn : n ∈ Γ.names (globalNames runs))
    (hv : v.Fits runs W (m.store.define m.scope.inner n v)) :
    Leads runs W m (defineName n v) fun W' s _ => (Γ.declare n).Fits W' s m.scope := by
  have hplaced := h.placed.define h.fits.inner_lt (Store.WellPlaced.binds_inner h.fits hn) hv
  have onward : m.Onward runs W W { m with store := m.store.define m.scope.inner n v } :=
    ⟨List.prefix_refl W, advances_defineName n v m, hplaced⟩
  exact ⟨W, onward, h.fits.declare n v⟩

theorem leads_makeFunction (h : m.store.WellPlaced runs W) (name : Option String)
    (parameters : List Token) (body : List Stmt) :
    Leads runs W m (makeFunction name parameters body) fun W' s v => W' = W ∧ s = m.store ∧
      v = .callable (.script m.issued ⟨name, parameters.map Token.lexeme, body, m.scope⟩) := by
  have onward : m.Onward runs W W { m with issued := m.issued + 1 } :=
    ⟨List.prefix_refl W, advances_makeFunction name parameters body m, h⟩
  exact ⟨W, onward, rfl, rfl, rfl⟩

/-- A new scope fits the beginning of the scope that its frame is made for. -/
theorem leads_newScope (h : m.store.WellPlaced runs W) {outer : Scope}
    (hΓ : Γ.Fits W m.store outer) (inner : TextScope) {earlier : List String} {f : Frame}
    (hf : f.names ⊆ inner.names) (hearlier : earlier ⊆ f.names)
    (hvalues : ∀ b ∈ f.bindings, b.2.Fits runs W m.store) :
    Leads runs W m (newScope outer f) fun W' s scope =>
      (Γ.enter inner earlier).Fits W' s scope := by
  have onward : m.Onward runs W (W ++ [inner]) { m with store := m.store.add f } :=
    ⟨List.prefix_append .., advances_newScope outer f m, h.add hf hvalues⟩
  exact ⟨_, onward, hΓ.enter h.size inner hearlier⟩

/-- The frame of a block is empty at first. -/
theorem leads_newScope_block (h : m.Stands runs W Γ) (body : List Stmt) :
    Leads runs W m (newScope m.scope .empty) fun W' s scope =>
      (Γ.enter (.block body) []).Fits W' s scope :=
  leads_newScope h.placed h.fits (.block body) nofun nofun nofun

/-! ## Calls -/

namespace Frame

theorem mem_defineAll {f : Frame} {bs : List (String × Value)} {b : String × Value}
    (h : b ∈ (f.defineAll bs).bindings) : b.2 ∈ bs.map Prod.snd ∨ b ∈ f.bindings := by
  induction bs generalizing f with
  | nil => exact .inr h
  | cons b' bs ih =>
    rcases ih (f := f.define b'.1 b'.2) h with h | h
    · exact .inl (List.mem_cons_of_mem _ h)
    · rcases mem_put h with h | h
      · exact .inl (h ▸ List.mem_cons_self)
      · exact .inr h

theorem mem_callFrame {parameters : List String} {vs : List Value} {b : String × Value}
    (h : b ∈ (callFrame parameters vs).bindings) : b.2 ∈ vs := by
  rw [callFrame_eq] at h
  rcases mem_defineAll h with h | h
  · obtain ⟨b', hb', heq⟩ := List.mem_map.1 h
    rw [← heq]
    exact (List.of_mem_zip hb').2
  · cases h

end Frame

/-- The scope of a call fits the beginning of the body of the function. -/
theorem leads_enterCall (h : m.store.WellPlaced runs W) (config : Config) {f : Closure}
    {vs : List Value} (hf : f.Fits runs W m.store) (hvs : ∀ v ∈ vs, v.Fits runs W m.store)
    (hlen : f.parameters.length = vs.length) :
    Leads runs W m (enterCall config f vs) fun W' s scope =>
      ∃ Γ, LiesIn runs ⟨Γ, .stmts f.body⟩ ∧ Γ.Fits W' s scope := by
  obtain ⟨Γ, part, parameters, hlies, hmakes, hparameters, hfits⟩ := hf
  have hnames : ∀ n, n ∈ (callFrame f.parameters vs).names ↔ n ∈ parameters.map Token.lexeme := by
    intro n
    rw [Frame.mem_names_callFrame hlen, hparameters]
  have hscope := leads_newScope h hfits (.function parameters f.body)
    (fun n hn => List.mem_append_left _ ((hnames n).1 hn)) (fun n hn => (hnames n).2 hn)
    (fun b hb => hvs b.2 (Frame.mem_callFrame hb))
  refine hscope.bind fun W' m' scope onward hscope => ?_
  refine (leads_tellCall onward.placed config f scope).bind fun W'' m'' _ onward' hsame => ?_
  obtain ⟨rfl, hstore⟩ := hsame
  rw [← hstore] at hscope
  exact leads_pure onward'.placed ⟨_, hlies.step (hmakes.encloses Γ), hscope⟩

end Scripting
