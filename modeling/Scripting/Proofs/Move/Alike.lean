import Scripting.Proofs.Machine.Likeness
import Scripting.Proofs.Move.Basic

/-!
# Machines that differ in places only

* `Value.Alike`, `Frame.Alike`, `Store.Alike`, `Machine.Alike` : the same, but for the places in the
  bodies of functions, and for the events told;
* `Diagnostic.Alike`, `Halt.Alike`, `Flow.Alike` : faults and words at tokens that are moved;
* `Eval.Alike` : from machines that are alike, two computations end alike (`Alike.bind` and the
  like);
* `Host.IgnoresPlaces` : a host that does alike with arguments that are alike.

`M σ t` says that the token `t` is one of those moved by `σ`. A tree is moved as a whole, so that
all tokens in it are moved alike; several trees may be moved differently.
-/

namespace Scripting

set_option autoImplicit false

variable (M : Shift → Token → Prop)

/-! ## Values -/

/-- Functions that differ in the places of their bodies only. -/
structure Closure.Alike (f f' : Closure) : Prop where
  name : f'.name = f.name
  parameters : f'.parameters = f.parameters
  scope : f'.scope = f.scope
  body : ∃ σ, f'.body = f.body.map (Stmt.move σ) ∧ ∀ t ∈ Stmt.tokensOfAll f.body, M σ t

/-- Values that are the same, but for the places in the body of a function. -/
inductive Value.Alike : Value → Value → Prop
  | script {identity : Nat} {f f' : Closure} (h : f.Alike M f') :
      Alike (callable (.script identity f)) (callable (.script identity f'))
  | same {v : Value} (h : v.isScript = false) : Alike v v

/-- Places are nothing that values show. -/
theorem Value.Alike.looks {M : Shift → Token → Prop} {v v' : Value} (h : v.Alike M v') :
    v.Looks v' := by
  cases h with
  | script h => exact .script h.name
  | same => exact .same _

/-! ## Stores -/

/-- Frames with the same names in the same order, and values that are alike. -/
def Frame.Alike (f f' : Frame) : Prop :=
  List.Forall₂ (fun b b' => b'.1 = b.1 ∧ b.2.Alike M b'.2) f.bindings f'.bindings

namespace Frame.Alike

variable {M} {f f' : Frame}

/-- The names are the same. -/
theorem frame_matches (h : f.Alike M f') : f.Matches (fun n n' => n' = n) (Value.Alike M) f' := h

theorem biUnique_same : Relator.BiUnique fun n n' : String => n' = n :=
  ⟨fun _ _ _ h h' => h.symm.trans h', fun _ _ _ h h' => h.trans h'.symm⟩

theorem lookup? (h : f.Alike M f') (name : String) :
    Option.Rel (Value.Alike M) (f.lookup? name) (f'.lookup? name) :=
  h.frame_matches.lookup? biUnique_same rfl

theorem binds (h : f.Alike M f') (name : String) : f'.binds name = f.binds name :=
  h.frame_matches.binds biUnique_same rfl

theorem define (h : f.Alike M f') (name : String) {v v' : Value} (hv : v.Alike M v') :
    (f.define name v).Alike M (f'.define name v') :=
  h.frame_matches.define biUnique_same rfl hv

end Frame.Alike

/-- Stores with the same frames, in which values are alike. -/
structure Store.Alike (s s' : Store) : Prop where
  size : s'.size = s.size
  frame : ∀ id, (s.frame id).Alike M (s'.frame id)

namespace Store.Alike

variable {M} {s s' : Store}

theorem add (h : s.Alike M s') {f f' : Frame} (hf : f.Alike M f') :
    (s.add f).Alike M (s'.add f') where
  size := by rw [size_add, size_add, h.size]
  frame id := by
    rw [frame_add, frame_add, h.size]
    split
    · exact hf
    · exact h.frame id

theorem define (h : s.Alike M s') (i : FrameId) (name : String) {v v' : Value}
    (hv : v.Alike M v') : (s.define i name v).Alike M (s'.define i name v') where
  size := by rw [size_define, size_define, h.size]
  frame id := by
    by_cases hid : id = i
    · subst hid
      by_cases hsize : id < s.size
      · rw [frame_define _ _ _ _ _ hsize, frame_define _ _ _ _ _ (h.size ▸ hsize), if_pos rfl,
          if_pos rfl]
        exact (h.frame id).define name hv
      · have hle := Nat.le_of_not_lt hsize
        rw [frame_of_size_le _ (by rwa [size_define]),
          frame_of_size_le _ (by rwa [size_define, h.size])]
        exact .nil
    · rw [frame_define_of_ne s hid, frame_define_of_ne s' hid]
      exact h.frame id

theorem binder? (h : s.Alike M s') (chain : List FrameId) (name : String) :
    s'.binder? chain name = s.binder? chain name := by
  unfold Store.binder?
  simp only [(h.frame _).binds name]

theorem lookup? (h : s.Alike M s') (scope : Scope) (name : String) :
    Option.Rel (Value.Alike M) (s.lookup? scope name) (s'.lookup? scope name) := by
  rw [lookup?_eq, lookup?_eq, h.binder?]
  cases s.binder? scope.chain name with
  | none => exact .none
  | some id => exact (h.frame id).lookup? name

end Store.Alike

/-! ## Machines and halts -/

/-- Machines that differ in places, and in the events told, only. -/
structure Machine.Alike (m m' : Machine) : Prop where
  store : m.store.Alike M m'.store
  scope : m'.scope = m.scope
  callDepth : m'.callDepth = m.callDepth
  issued : m'.issued = m.issued
  readings : m'.readings = m.readings
  sink : m'.sink = m.sink

/-- What native functions are asked to do, alike. -/
inductive Action.Alike : Action → Action → Prop
  | value {v v' : Value} (h : v.Alike M v') : Alike (.value v) (.value v')
  | fault (d : Diagnostic) : Alike (.fault d) (.fault d)
  | ioFault (fault : IoFault) : Alike (.ioFault fault) (.ioFault fault)
  | write (text : String) {v v' : Value} (h : v.Alike M v') : Alike (.write text v) (.write text v')
  | call {c c' : Callable} {vs vs' : List Value}
      (hcallee : (Value.callable c).Alike M (.callable c'))
      (harguments : List.Forall₂ (Value.Alike M) vs vs') : Alike (.call c vs) (.call c' vs')
  | readClock : Alike .readClock .readClock

/-- What native functions do does not depend on the places in the functions that they are given. -/
def Host.IgnoresPlaces (host : Host) : Prop :=
  ∀ (M : Shift → Token → Prop) (f : Native) (vs vs' : List Value),
    List.Forall₂ (Value.Alike M) vs vs' → (host f vs).Alike M (host f vs')

/-- The standard native functions look at nothing but the texts of values. -/
theorem Host.standard_ignoresPlaces : Host.standard.IgnoresPlaces := by
  intro M f vs vs' h
  rw [standard_looks f (h.imp fun _ _ hv => hv.looks)]
  rcases standard_eq f vs with heq | ⟨text, heq⟩ | heq <;> rw [heq]
  · exact .readClock
  · exact .write text (.same rfl)
  · exact .value (.same rfl)

variable (host : Host)

/-- Faults that are the same, but at a token that is moved, or that a native function reports. -/
inductive Diagnostic.Alike : Diagnostic → Diagnostic → Prop
  | atToken (cause : Cause) {t : Token} {σ : Shift} (h : M σ t) :
      Alike (.atToken cause t) (.atToken cause (t.move σ))
  | reported {f : Native} {vs : List Value} {d : Diagnostic} (h : host f vs = .fault d) : Alike d d

/-- Reasons to stop that differ in the place of the fault only. -/
inductive Halt.Alike : Halt → Halt → Prop
  | fault {d d' : Diagnostic} (h : d.Alike M host d') : Alike (.fault d) (.fault d')
  | io (fault : IoFault) : Alike (.io fault) (.io fault)
  | outOfFuel : Alike .outOfFuel .outOfFuel

/-- Ends of statements that differ in the place of a word only. -/
inductive Flow.Alike : Flow → Flow → Prop
  | normal : Alike normal normal
  | breaking {t : Token} {σ : Shift} (h : M σ t) : Alike (breaking t) (breaking (t.move σ))
  | continuing {t : Token} {σ : Shift} (h : M σ t) : Alike (continuing t) (continuing (t.move σ))
  | returning {t : Token} {σ : Shift} {v v' : Value} (h : M σ t) (hv : v.Alike M v') :
      Alike (returning t v) (returning (t.move σ) v')

/-! ## Computations -/

namespace Eval

variable {α β γ δ : Type}

/-- Results in machines that are alike: two values in the relation `R`, or halts that are alike. -/
inductive ResultAlike (R : α → β → Prop) :
    EStateM.Result Halt Machine α → EStateM.Result Halt Machine β → Prop
  | ok {a : α} {b : β} {m m' : Machine} (h : R a b) (hm : m.Alike M m') :
      ResultAlike R (.ok a m) (.ok b m')
  | error {e e' : Halt} {m m' : Machine} (h : e.Alike M host e') (hm : m.Alike M m') :
      ResultAlike R (.error e m) (.error e' m')

/-- From machines that are alike, two computations end alike. -/
def Alike (R : α → β → Prop) (act : Eval α) (act' : Eval β) : Prop :=
  ∀ m m' : Machine, m.Alike M m' → ResultAlike M host R (act m) (act' m')

variable {M host} {R : α → β → Prop} {S : γ → δ → Prop}

theorem alike_pure {a : α} {b : β} (h : R a b) : Alike M host R (pure a) (pure b) :=
  fun _ _ hm => .ok h hm

theorem alike_throw {e e' : Halt} (h : e.Alike M host e') :
    Alike M host R (throw e) (throw e') :=
  fun _ _ hm => .error h hm

theorem Alike.bind {act : Eval α} {act' : Eval β} {next : α → Eval γ} {next' : β → Eval δ}
    (h : Alike M host R act act') (hnext : ∀ a b, R a b → Alike M host S (next a) (next' b)) :
    Alike M host S (act >>= next) (act' >>= next') := by
  intro m m' hm
  rw [bind_apply, bind_apply]
  have hact := h m m' hm
  revert hact
  generalize act m = r
  generalize act' m' = r'
  rintro (⟨hab, hm⟩ | ⟨he, hm⟩)
  · exact hnext _ _ hab _ _ hm
  · exact .error he hm

theorem alike_faultAt {t : Token} {σ : Shift} (h : M σ t) (cause : RuntimeFault) :
    Alike M host R (faultAt t cause) (faultAt (t.move σ) cause) :=
  alike_throw (.fault (.atToken _ h))

theorem alike_readName {t : Token} {σ : Shift} (h : M σ t) :
    Alike M host (Value.Alike M) (readName t) (readName (t.move σ)) := by
  intro m m' hm
  have hl := hm.store.lookup? m.scope t.lexeme
  unfold readName Store.read
  rw [hm.scope, Token.lexeme_move]
  revert hl
  generalize m.store.lookup? m.scope t.lexeme = a
  generalize m'.store.lookup? m.scope t.lexeme = a'
  rintro (hv | _)
  · exact .ok hv hm
  · exact .error (.fault (.atToken _ h)) hm

theorem alike_writeName {t : Token} {σ : Shift} (h : M σ t) {v v' : Value} (hv : v.Alike M v') :
    Alike M host (fun _ _ => True) (writeName t v) (writeName (t.move σ) v') := by
  intro m m' hm
  unfold writeName Store.locate
  rw [hm.scope, Token.lexeme_move, hm.store.binder?]
  cases m.store.binder? m.scope.chain t.lexeme with
  | none => exact .error (.fault (.atToken _ h)) hm
  | some id => exact .ok trivial { hm with store := hm.store.define id _ hv, scope := rfl }

theorem alike_defineName (name : String) {v v' : Value} (hv : v.Alike M v') :
    Alike M host (fun _ _ => True) (defineName name v) (defineName name v') := by
  intro m m' hm
  refine .ok trivial { hm with store := ?_ }
  show Store.Alike M (m.store.define m.scope.inner name v) (m'.store.define m'.scope.inner name v')
  rw [hm.scope]
  exact hm.store.define _ name hv

theorem alike_makeFunction (name : Option String) {parameters : List Token} {body : List Stmt}
    {σ : Shift} (h : ∀ t ∈ Stmt.tokensOfAll body, M σ t) :
    Alike M host (Value.Alike M) (makeFunction name parameters body)
      (makeFunction name (parameters.map (Token.move σ)) (body.map (Stmt.move σ))) := by
  intro m m' hm
  have hnames : (parameters.map (Token.move σ)).map Token.lexeme = parameters.map Token.lexeme := by
    rw [List.map_map]
    rfl
  have hvalue : (Value.callable (.script m.issued
      ⟨name, parameters.map Token.lexeme, body, m.scope⟩)).Alike M
      (.callable (.script m'.issued ⟨name, (parameters.map (Token.move σ)).map Token.lexeme,
        body.map (Stmt.move σ), m'.scope⟩)) := by
    rw [hm.issued, hm.scope]
    exact .script ⟨rfl, hnames, rfl, σ, rfl, h⟩
  exact .ok hvalue { hm with issued := congrArg (· + 1) hm.issued }

theorem alike_newScope (outer : Scope) {f f' : Frame} (hf : f.Alike M f') :
    Alike M host Eq (newScope outer f) (newScope outer f') := by
  intro m m' hm
  refine .ok ?_ { hm with store := hm.store.add hf }
  rw [hm.store.size]

theorem Alike.within {act : Eval α} {act' : Eval β} (h : Alike M host R act act') (scope : Scope) :
    Alike M host R (within scope act) (within scope act') := by
  intro m m' hm
  have hact := h { m with scope } { m' with scope } { hm with scope := rfl }
  unfold Eval.within
  revert hact
  generalize act { m with scope } = r
  generalize act' { m' with scope } = r'
  rintro (⟨hab, hr⟩ | ⟨he, hr⟩)
  · exact .ok hab { hr with scope := hm.scope }
  · exact .error he { hr with scope := hm.scope }

theorem Alike.counted {act : Eval α} {act' : Eval β} (h : Alike M host R act act') :
    Alike M host R (counted act) (counted act') := by
  intro m m' hm
  have hact := h { m with callDepth := m.callDepth + 1 } { m' with callDepth := m'.callDepth + 1 }
    { hm with callDepth := congrArg (· + 1) hm.callDepth }
  unfold Eval.counted
  revert hact
  generalize act { m with callDepth := m.callDepth + 1 } = r
  generalize act' { m' with callDepth := m'.callDepth + 1 } = r'
  rintro (⟨hab, hr⟩ | ⟨he, hr⟩)
  · exact .ok hab { hr with callDepth := congrArg (· - 1) hr.callDepth }
  · exact .error he { hr with callDepth := congrArg (· - 1) hr.callDepth }

theorem alike_write (text : String) :
    Alike M host (fun _ _ => True) (write text) (write text) := by
  intro m m' hm
  unfold write
  rw [hm.sink]
  dsimp only
  cases m.sink.refusal? text.toUTF8 with
  | none => exact .ok trivial { hm with sink := rfl }
  | some fault => exact .error (.io fault) { hm with sink := rfl }

theorem alike_flush : Alike M host (fun _ _ => True) flush flush := by
  intro m m' hm
  unfold flush
  rw [hm.sink]
  cases m.sink.flush with
  | none => exact .ok trivial hm
  | some fault => exact .error (.io fault) hm

theorem alike_tell (e e' : Event) : Alike M host (fun _ _ => True) (tell e) (tell e') :=
  fun _ _ hm => .ok trivial { hm with }

theorem alike_newReading : Alike M host Eq newReading newReading :=
  fun _ _ hm => .ok hm.readings.symm { hm with readings := congrArg (· + 1) hm.readings }

theorem alike_get : Alike M host (Machine.Alike M) get get := fun _ _ hm => .ok hm hm

theorem Alike.mapM {f : γ → Eval α} {f' : δ → Eval β} {cs : List γ} {ds : List δ}
    (h : List.Forall₂ (fun c d => Alike M host R (f c) (f' d)) cs ds) :
    Alike M host (List.Forall₂ R) (cs.mapM f) (ds.mapM f') := by
  induction h with
  | nil => exact alike_pure .nil
  | cons hc _ ih =>
    rw [List.mapM_cons, List.mapM_cons]
    exact hc.bind fun a b hab => ih.bind fun as bs habs => alike_pure (.cons hab habs)

end Eval

end Scripting
