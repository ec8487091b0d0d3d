import Mathlib.Data.List.Forall2
import Scripting.Interpreter
import Scripting.Proofs.Machine.Later
import Scripting.Proofs.Places.Plain

/-!
# Scopes that fit a place

* `Place.names`, `Site.Proper` : the names of the innermost scope, among which are those that the
  statements of a list declare (`LiesIn.proper`);
* `Place.Fits` : the frames of a scope are those of the scopes around a place, and bind what is
  declared before it (`mono`, `declare`, `enter`);
* `Closure.Fits`, `Value.Fits` : functions whose scope fits the place where they were made;
* `Store.WellPlaced` : frames bind names of their scopes only, and values that fit (`add`,
  `define`).

All of them look at a list `W` that tells for which scope each frame was made. It begins with the
frame behind the global one and only grows. Without it one frame might serve for two scopes, and a
name that one of them declares would be foreign to the other.
-/

namespace Scripting

set_option autoImplicit false

open Interpreter (globalFrame)

/-! ## Names of scopes -/

/-- The names that may be bound in the global frame: those of the native functions, and those that
a program declares at its top. -/
def globalNames (runs : List Run) : List String :=
  Native.standard.map Native.name ++ runs.flatMap fun r => declaredNames r.statements

namespace Place

/-- The names of the innermost scope around a place; `top` are those of the global one. -/
def names (top : List String) (Γ : Place) : List String :=
  match Γ.enclosures with
  | [] => top
  | c :: _ => c.scope.names

theorem names_declare (top : List String) (n : Option String) (Γ : Place) :
    (Γ.declare n).names top = Γ.names top := by
  obtain ⟨enclosures, globals⟩ := Γ
  cases n with
  | none => rfl
  | some n => cases enclosures <;> rfl

end Place

/-- Declarations at the site are declarations of the innermost scope around it. -/
def Site.Proper (top : List String) (σ : Site) : Prop :=
  match σ.part with
  | .expr _ => True
  | .stmt s => ∀ n ∈ s.declared?, n ∈ σ.place.names top
  | .stmts ss => declaredNames ss ⊆ σ.place.names top

theorem declaredNames_cons (s : Stmt) (ss : List Stmt) :
    declaredNames (s :: ss) = s.declared?.toList ++ declaredNames ss := by
  unfold declaredNames
  rw [List.filterMap_cons]
  cases s.declared? <;> rfl

/-- A statement that declares no name is no declaration, wherever it stands. -/
theorem Site.proper_of_declared? {top : List String} {Γ : Place} {s : Stmt}
    (h : s.declared? = none) : Site.Proper top ⟨Γ, .stmt s⟩ := by
  intro n hn
  change n ∈ s.declared? at hn
  rw [h] at hn
  cases hn

theorem Encloses.proper {top : List String} {σ τ : Site} (h : Encloses σ τ)
    (tidy : σ.part.Tidy) (proper : σ.Proper top) : τ.Proper top := by
  cases h with
  | anonymous | named => exact List.subset_append_right _ _
  | block => exact List.Subset.refl _
  | whenTrue => exact Site.proper_of_declared? tidy.1
  | whenFalse => exact Site.proper_of_declared? (tidy.2 _ rfl)
  | turn => exact Site.proper_of_declared? tidy
  | @head Γ s ss =>
    change declaredNames (s :: ss) ⊆ Γ.names top at proper
    rw [declaredNames_cons] at proper
    exact fun n hn => proper (List.mem_append_left _ (Option.mem_toList.2 hn))
  | @tail Γ s ss =>
    change declaredNames (s :: ss) ⊆ Γ.names top at proper
    rw [declaredNames_cons] at proper
    intro n hn
    show n ∈ (Γ.declare s.declared?).names top
    rw [Place.names_declare]
    exact proper (List.mem_append_right _ hn)
  | _ => trivial

variable {runs : List Run}

/-- What lies in plain programs is tidy, and its declarations are those of the scopes around it. -/
theorem LiesIn.proper (plain : ∀ r ∈ runs, (Part.stmts r.statements).Plain) {σ : Site}
    (h : LiesIn runs σ) : σ.part.Tidy ∧ σ.Proper (globalNames runs) := by
  obtain ⟨r, hr, hlies⟩ := h
  refine ⟨plain r hr _ σ hlies, ?_⟩
  induction hlies with
  | refl =>
    intro n hn
    exact List.mem_append_right _ (List.mem_flatMap.2 ⟨r, hr, hn⟩)
  | tail hlies encloses ih => exact encloses.proper (plain r hr _ _ hlies) ih

/-! ## Scopes -/

variable {W W' : List TextScope} {s s' : Store}

/-- The frame was made for the scope, and binds the names declared so far. -/
structure Enclosure.Fits (W : List TextScope) (s : Store) (c : Enclosure) (id : FrameId) :
    Prop where
  made : ∃ k, id = k + 1 ∧ W[k]? = some c.scope
  inside : id < s.size
  bound : c.earlier ⊆ (s.frame id).names

theorem Enclosure.Fits.mono {c : Enclosure} {id : FrameId} (h : c.Fits W s id) (hW : W <+: W')
    (hs : s.Extends s') : c.Fits W' s' id where
  made := by
    obtain ⟨k, hid, hk⟩ := h.made
    obtain ⟨hlt, hget⟩ := List.getElem?_eq_some_iff.1 hk
    obtain ⟨added, rfl⟩ := hW
    exact ⟨k, hid, by rw [List.getElem?_append_left hlt, hk]⟩
  inside := Nat.lt_of_lt_of_le h.inside hs.size
  bound _ hn := hs.mem h.inside (h.bound hn)

/-- The frames of the scope are those of the scopes around the place, from the inside out, and then
the global one. They bind what is declared before the place, and each is younger than the next. -/
structure Place.Fits (W : List TextScope) (s : Store) (Γ : Place) (scope : Scope) : Prop where
  frames : ∃ ids, scope.chain = ids ++ [globalFrame] ∧
    List.Forall₂ (Enclosure.Fits W s) Γ.enclosures ids
  ordered : scope.chain.Pairwise (· > ·)
  size : globalFrame < s.size
  globals : Γ.globals ⊆ (s.frame globalFrame).names

theorem Enclosure.bound_of_forall₂ {cs : List Enclosure} {ids : List FrameId}
    (h : List.Forall₂ (Enclosure.Fits W s) cs ids) {n : String}
    (hn : n ∈ cs.flatMap Enclosure.earlier) : ∃ id ∈ ids, n ∈ (s.frame id).names := by
  induction h with
  | nil => cases hn
  | @cons c id cs ids hc _ ih =>
    rw [List.flatMap_cons, List.mem_append] at hn
    rcases hn with hn | hn
    · exact ⟨id, List.mem_cons_self, hc.bound hn⟩
    · obtain ⟨i, hi, hn⟩ := ih hn
      exact ⟨i, List.mem_cons_of_mem _ hi, hn⟩

theorem Enclosure.lt_of_forall₂ {cs : List Enclosure} {ids : List FrameId}
    (h : List.Forall₂ (Enclosure.Fits W s) cs ids) : ∀ id ∈ ids, id < s.size := by
  induction h with
  | nil => exact nofun
  | cons hc _ ih => exact List.forall_mem_cons.2 ⟨hc.inside, ih⟩

namespace Place.Fits

variable {Γ : Place} {scope : Scope}

theorem mono (h : Γ.Fits W s scope) (hW : W <+: W') (hs : s.Extends s') : Γ.Fits W' s' scope where
  frames := by
    obtain ⟨ids, hchain, hids⟩ := h.frames
    exact ⟨ids, hchain, hids.imp fun _ _ hc => hc.mono hW hs⟩
  ordered := h.ordered
  size := Nat.lt_of_lt_of_le h.size hs.size
  globals _ hn := hs.mem h.size (h.globals hn)

/-- The innermost frame is the global one at the top of a program, and else that of the innermost
scope around the place. -/
theorem inner (h : Γ.Fits W s scope) :
    (Γ.enclosures = [] ∧ scope = .single globalFrame) ∨
      ∃ c cs ids, Γ.enclosures = c :: cs ∧ c.Fits W s scope.inner ∧
        scope.outer = ids ++ [globalFrame] ∧ List.Forall₂ (Enclosure.Fits W s) cs ids := by
  obtain ⟨ids, hchain, hids⟩ := h.frames
  obtain ⟨enclosures, globals⟩ := Γ
  obtain ⟨inner, outer⟩ := scope
  change List.Forall₂ _ enclosures ids at hids
  cases hids with
  | nil =>
    cases hchain
    exact .inl ⟨rfl, rfl⟩
  | cons hc hcs =>
    cases hchain
    exact .inr ⟨_, _, _, rfl, hc, rfl, hcs⟩

theorem inner_lt (h : Γ.Fits W s scope) : scope.inner < s.size := by
  rcases h.inner with ⟨-, rfl⟩ | ⟨c, _, _, -, hc, -, -⟩
  · exact h.size
  · exact hc.inside

/-- All frames of the scope are in the store. -/
theorem chain_lt (h : Γ.Fits W s scope) : ∀ id ∈ scope.chain, id < s.size := by
  obtain ⟨ids, hchain, hids⟩ := h.frames
  rw [hchain, List.forall_mem_append, List.forall_mem_singleton]
  exact ⟨Enclosure.lt_of_forall₂ hids, h.size⟩

/-- Behind the declaration of a name, the innermost frame binds it. -/
theorem declare (h : Γ.Fits W s scope) (n : String) (v : Value) :
    (Γ.declare n).Fits W (s.define scope.inner n v) scope := by
  have hbinds : n ∈ ((s.define scope.inner n v).frame scope.inner).names := by
    rw [Store.frame_define _ _ _ _ _ h.inner_lt, if_pos rfl]
    exact (Frame.mem_names_define ..).2 (.inl rfl)
  have hmono := h.mono (List.prefix_refl W) (s.extends_define scope.inner n v)
  obtain ⟨enclosures, globals⟩ := Γ
  rcases h.inner with ⟨rfl, rfl⟩ | ⟨c, cs, ids, rfl, -, -, -⟩
  · exact { hmono with globals := List.cons_subset.2 ⟨hbinds, hmono.globals⟩ }
  · obtain ⟨ids, hchain, hids⟩ := hmono.frames
    obtain ⟨inner, outer⟩ := scope
    cases hids with
    | cons hc hcs =>
      cases hchain
      have hc' : Enclosure.Fits W _ ⟨c.scope, n :: c.earlier⟩ inner :=
        { hc with bound := List.cons_subset.2 ⟨hbinds, hc.bound⟩ }
      exact { hmono with frames := ⟨_, rfl, .cons hc' hcs⟩ }

/-- At the beginning of a scope, the innermost frame is a new one that was made for it. -/
theorem enter (h : Γ.Fits W s scope) (hsize : s.size = W.length + 1) (inner : TextScope)
    {earlier : List String} {f : Frame} (hf : earlier ⊆ f.names) :
    (Γ.enter inner earlier).Fits (W ++ [inner]) (s.add f) (scope.enter s.size) := by
  have hmono := h.mono (List.prefix_append W [inner]) (s.extends_add f)
  have hnew : Enclosure.Fits (W ++ [inner]) (s.add f) ⟨inner, earlier⟩ s.size :=
    { made := ⟨W.length, hsize, List.getElem?_concat_length⟩
      inside := by
        rw [Store.size_add]
        exact Nat.lt_succ_self _
      bound := by
        rw [Store.frame_add, if_pos rfl]
        exact hf }
  obtain ⟨ids, hchain, hids⟩ := hmono.frames
  refine { hmono with frames := ⟨s.size :: ids, ?_, .cons hnew hids⟩, ordered := ?_ }
  · rw [Scope.chain_enter, hchain]
    rfl
  · rw [Scope.chain_enter, List.pairwise_cons]
    refine ⟨fun id hid => ?_, h.ordered⟩
    -- the frames around the innermost one are older still
    rcases List.mem_cons.1 hid with rfl | hid
    · exact h.inner_lt
    · exact Nat.lt_trans ((List.pairwise_cons.1 h.ordered).1 id hid) h.inner_lt

/-- A name that is known is bound in some frame of the scope. -/
theorem bound (h : Γ.Fits W s scope) {n : String} (hn : n ∈ Γ.known) :
    ∃ id ∈ scope.chain, n ∈ (s.frame id).names := by
  obtain ⟨ids, hchain, hids⟩ := h.frames
  rw [hchain]
  rcases List.mem_append.1 hn with hn | hn
  · obtain ⟨id, hid, hn⟩ := Enclosure.bound_of_forall₂ hids hn
    exact ⟨id, List.mem_append_left _ hid, hn⟩
  · exact ⟨globalFrame, List.mem_append_right _ (List.mem_singleton.2 rfl), h.globals hn⟩

end Place.Fits

/-! ## Functions -/

/-- The function was made at a place in one of the programs, and its scope fits that place behind
the function's own name. -/
def Closure.Fits (runs : List Run) (W : List TextScope) (s : Store) (f : Closure) : Prop :=
  ∃ Γ part parameters, LiesIn runs ⟨Γ, part⟩ ∧ part.Makes f.name parameters f.body ∧
    f.parameters = parameters.map Token.lexeme ∧ (Γ.declare f.name).Fits W s f.scope

/-- A function of a program fits. -/
def Callable.Fits (runs : List Run) (W : List TextScope) (s : Store) : Callable → Prop
  | script _ f => f.Fits runs W s
  | native _ _ => True

/-- The value fits if it is a function. -/
def Value.Fits (runs : List Run) (W : List TextScope) (s : Store) (v : Value) : Prop :=
  ∀ c ∈ v.callable?, c.Fits runs W s

theorem Callable.Fits.mono {c : Callable} (h : c.Fits runs W s) (hW : W <+: W')
    (hs : s.Extends s') : c.Fits runs W' s' := by
  cases c with
  | script identity f =>
    obtain ⟨Γ, part, parameters, hlies, hmakes, hparameters, hfits⟩ := h
    exact ⟨Γ, part, parameters, hlies, hmakes, hparameters, hfits.mono hW hs⟩
  | native => trivial

theorem Value.Fits.mono {v : Value} (h : v.Fits runs W s) (hW : W <+: W') (hs : s.Extends s') :
    v.Fits runs W' s' :=
  fun c hc => (h c hc).mono hW hs

theorem Value.fits_of_callable? {v : Value} (h : v.callable? = none) : v.Fits runs W s := by
  intro c hc
  rw [h] at hc
  cases hc

/-! ## Stores -/

namespace Frame

theorem mem_of_get? {name : String} {v : Value} {bs : List (String × Value)}
    (h : get? name bs = some v) : (name, v) ∈ bs := by
  induction bs with
  | nil => cases h
  | cons b bs ih =>
    obtain ⟨n, u⟩ := b
    rw [get?] at h
    split at h
    · rename_i hn
      cases h
      rw [hn]
      exact List.mem_cons_self
    · exact List.mem_cons_of_mem _ (ih h)

theorem mem_put {name : String} {v : Value} {bs : List (String × Value)} {b : String × Value}
    (h : b ∈ put name v bs) : b.2 = v ∨ b ∈ bs := by
  induction bs with
  | nil =>
    rw [put, List.mem_singleton] at h
    exact .inl (congrArg Prod.snd h)
  | cons b' bs ih =>
    obtain ⟨n, u⟩ := b'
    rw [put] at h
    split at h
    · rcases List.mem_cons.1 h with rfl | h
      · exact .inl rfl
      · exact .inr (List.mem_cons_of_mem _ h)
    · rcases List.mem_cons.1 h with rfl | h
      · exact .inr List.mem_cons_self
      · exact (ih h).imp_right (List.mem_cons_of_mem _)

end Frame

/-- There is a frame for each scope in the list and a global one before them, each frame binds names
of its scope only, and all values fit. -/
structure Store.WellPlaced (runs : List Run) (W : List TextScope) (s : Store) : Prop where
  size : s.size = W.length + 1
  globals : (s.frame globalFrame).names ⊆ globalNames runs
  names : ∀ k scope, W[k]? = some scope → (s.frame (k + 1)).names ⊆ scope.names
  values : ∀ id, ∀ b ∈ (s.frame id).bindings, b.2.Fits runs W s

theorem Store.WellPlaced.globalFrame_lt (h : s.WellPlaced runs W) : globalFrame < s.size := by
  rw [h.size]
  exact Nat.succ_pos _

theorem Store.lt_size_of_mem {id : FrameId} {n : String} (hn : n ∈ (s.frame id).names) :
    id < s.size := by
  by_contra hid
  rw [s.frame_of_size_le (Nat.le_of_not_lt hid)] at hn
  cases hn

theorem Store.mem_of_locate {scope : Scope} {t : Token} {id : FrameId}
    (h : s.locate scope t = .ok id) : id ∈ scope.chain ∧ t.lexeme ∈ (s.frame id).names := by
  unfold locate at h
  split at h
  · rename_i id' hbinder
    cases h
    have hbinds := @List.find?_some _ (fun i => (s.frame i).binds t.lexeme) _ _ hbinder
    exact ⟨List.mem_of_find?_eq_some hbinder, (Frame.binds_iff ..).1 hbinds⟩
  · cases h

namespace Store.WellPlaced

/-- A new frame binds names of the scope that it is made for. -/
theorem add (h : s.WellPlaced runs W) {scope : TextScope} {f : Frame} (hf : f.names ⊆ scope.names)
    (hvalues : ∀ b ∈ f.bindings, b.2.Fits runs W s) :
    (s.add f).WellPlaced runs (W ++ [scope]) where
  size := by rw [size_add, h.size, List.length_append, List.length_singleton]
  globals := by
    rw [frame_add, if_neg (by rw [h.size]; exact nofun)]
    exact h.globals
  names k inner hk := by
    rw [frame_add]
    split
    · rename_i hsize
      obtain rfl : k = W.length := by rw [h.size] at hsize; exact Nat.succ.inj hsize
      rw [List.getElem?_concat_length] at hk
      cases hk
      exact hf
    · rename_i hsize
      refine h.names k inner ?_
      rw [h.size, Nat.add_right_cancel_iff] at hsize
      rwa [List.getElem?_append_left] at hk
      have := (List.getElem?_eq_some_iff.1 hk).1
      rw [List.length_append, List.length_singleton] at this
      omega
  values id b hb := by
    have hfits : b.2.Fits runs W s := by
      rw [frame_add] at hb
      split at hb
      · exact hvalues b hb
      · exact h.values id b hb
    exact hfits.mono (List.prefix_append ..) (s.extends_add f)

/-- The frame may bind the name. -/
def Binds (runs : List Run) (W : List TextScope) (id : FrameId) (n : String) : Prop :=
  (id = globalFrame → n ∈ globalNames runs) ∧
    ∀ k scope, id = k + 1 → W[k]? = some scope → n ∈ scope.names

/-- A name may be bound if it is one of the scope; the value must fit when it is bound. -/
theorem define (h : s.WellPlaced runs W) {id : FrameId} (hid : id < s.size) {n : String}
    {v : Value} (hn : Binds runs W id n) (hv : v.Fits runs W (s.define id n v)) :
    (s.define id n v).WellPlaced runs W where
  size := by rw [size_define, h.size]
  globals m hm := by
    rw [frame_define _ _ _ _ _ hid] at hm
    split at hm
    · rename_i heq
      subst heq
      rcases (Frame.mem_names_define ..).1 hm with rfl | hm
      · exact hn.1 rfl
      · exact h.globals hm
    · exact h.globals hm
  names k scope hk m hm := by
    rw [frame_define _ _ _ _ _ hid] at hm
    split at hm
    · rename_i heq
      subst heq
      rcases (Frame.mem_names_define ..).1 hm with rfl | hm
      · exact hn.2 k scope rfl hk
      · exact h.names k scope hk hm
    · exact h.names k scope hk hm
  values i b hb := by
    have hmono {u : Value} (hu : u.Fits runs W s) : u.Fits runs W (s.define id n v) :=
      hu.mono (List.prefix_refl W) (s.extends_define id n v)
    rw [frame_define _ _ _ _ _ hid] at hb
    split at hb
    · rcases Frame.mem_put hb with heq | hb
      · rw [heq]
        exact hv
      · exact hmono (h.values id b hb)
    · exact hmono (h.values i b hb)

theorem binds_of_mem (h : s.WellPlaced runs W) {id : FrameId} {n : String}
    (hn : n ∈ (s.frame id).names) : Binds runs W id n := by
  constructor
  · rintro rfl
    exact h.globals hn
  · rintro k scope rfl hk
    exact h.names k scope hk hn

/-- The names of the innermost scope around a place may be bound there. -/
theorem binds_inner {Γ : Place} {scope : Scope} (h : Γ.Fits W s scope) {n : String}
    (hn : n ∈ Γ.names (globalNames runs)) : Binds runs W scope.inner n := by
  unfold Place.names at hn
  rcases h.inner with ⟨hnil, rfl⟩ | ⟨c, cs, _, hcons, hc, -, -⟩
  · rw [hnil] at hn
    exact ⟨fun _ => hn, fun k _ hk => absurd hk (Nat.succ_ne_zero k).symm⟩
  · rw [hcons] at hn
    obtain ⟨k, hid, hk⟩ := hc.made
    rw [hid]
    refine ⟨fun h => absurd h (Nat.succ_ne_zero k), fun k' inner hk' hscope => ?_⟩
    obtain rfl := Nat.succ.inj hk'
    rw [hk] at hscope
    cases hscope
    exact hn

end Store.WellPlaced

end Scripting
