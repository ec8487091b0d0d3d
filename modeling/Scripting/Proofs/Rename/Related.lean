import Scripting.Proofs.Machine.Likeness
import Scripting.Proofs.Rename.Basic

/-!
# Machines with a name replaced in a function

* `Mark` : whether a frame is around the function, of a call of it, or of a part inside of it
  (`Mark.part`);
* `Visible` : the frames of a scope inside the function are those of parts inside, then one of a
  call, then others around it (`Visible.enter`);
* `Closure.Renames`, `Value.Renames`, `Frame.Renames`, `Store.Renames`, `Machine.Renames` : the
  same, but for the name replaced in frames inside and in bodies inside;
* `Store.Renames.found` : a name is found in the same frame as the one that stands for it;
* `Eval.Renames` : from such machines, two computations end alike (`Renames.bind` and the like).

The marks of frames only grow. Inside the function the old name is bound in the frame of the call at
the latest, so that it is never looked for around the function, where it is not replaced.
-/

namespace Scripting

set_option autoImplicit false

open Eval

/-! ## Marks of frames -/

/-- What a frame was made for: for a part around the function, for a call of the function, or for a
part inside of it. -/
inductive Mark
  | outer | holder | inner

namespace Mark

/-- Whether names are replaced in the frame. -/
def inside : Mark → Bool
  | outer => false
  | _ => true

/-- The mark of a part around the function, or inside of it. -/
def part (inside : Bool) : Mark := if inside then inner else outer

theorem inside_part (inside : Bool) : (part inside).inside = inside := by
  cases inside <;> rfl

theorem part_ne_holder (inside : Bool) : part inside ≠ holder := by
  cases inside <;> intro h <;> cases h

end Mark

variable {r : Renaming} {W W' W'' : List Mark} {inside : Bool}

/-- The frames of a scope around the function, or inside of it. -/
inductive Visible (W : List Mark) : Bool → List FrameId → Prop
  | outer {ids : List FrameId} (h : ∀ id ∈ ids, W[id]? = some .outer) : Visible W false ids
  | holder {id : FrameId} {ids : List FrameId} (h : W[id]? = some .holder)
      (rest : Visible W false ids) : Visible W true (id :: ids)
  | inner {id : FrameId} {ids : List FrameId} (h : W[id]? = some .inner)
      (rest : Visible W true ids) : Visible W true (id :: ids)

theorem Visible.mono {ids : List FrameId} (h : Visible W inside ids) (grows : W <+: W') :
    Visible W' inside ids := by
  induction h with
  | outer h => exact .outer fun id hid => getElem?_of_grows grows (h id hid)
  | holder h _ ih => exact .holder (getElem?_of_grows grows h) ih
  | inner h _ ih => exact .inner (getElem?_of_grows grows h) ih

/-- A new frame of a part on the same side. -/
theorem Visible.enter {ids : List FrameId} (h : Visible W inside ids) :
    Visible (W ++ [.part inside]) inside (W.length :: ids) := by
  have hnew : ∀ mark : Mark, (W ++ [mark])[W.length]? = some mark := fun mark => by simp
  cases inside with
  | false =>
    cases h with
    | outer h =>
      refine .outer fun id hid => ?_
      rcases List.mem_cons.1 hid with rfl | hid
      · exact hnew .outer
      · exact getElem?_of_grows (List.prefix_append ..) (h id hid)
  | true => exact .inner (hnew .inner) (h.mono (List.prefix_append ..))

/-- A new frame of a call. If the call leads inside, as only a call of the function does, the frame
is marked as one that holds the name, for a reason `P`. -/
theorem Visible.enterCall {ids : List FrameId} (h : Visible W inside ids) {inner : Bool} {P : Prop}
    (enters : inner = inside ∨ inner = true ∧ P) :
    ∃ mark : Mark, mark.inside = inner ∧ (mark = .holder → P) ∧
      ∀ W', W <+: W' → Visible (W' ++ [mark]) inner (W'.length :: ids) := by
  by_cases hsame : inner = inside
  · subst hsame
    refine ⟨.part inner, Mark.inside_part inner, fun hmark => ?_, fun W' grows => ?_⟩
    · exact absurd hmark (Mark.part_ne_holder inner)
    · exact (h.mono grows).enter
  · obtain ⟨rfl, hP⟩ := enters.resolve_left hsame
    obtain rfl : inside = false := by
      simpa using Ne.symm hsame
    exact ⟨.holder, rfl, fun _ => hP, fun W' grows =>
      .holder (by simp) (h.mono (grows.trans (List.prefix_append ..)))⟩

/-- Names are replaced in the innermost frame if it is inside. -/
theorem Visible.head {id : FrameId} {ids : List FrameId} (h : Visible W inside (id :: ids)) :
    ∃ mark, W[id]? = some mark ∧ mark.inside = inside := by
  cases h with
  | outer h => exact ⟨.outer, h id List.mem_cons_self, rfl⟩
  | holder h => exact ⟨.holder, h, rfl⟩
  | inner h => exact ⟨.inner, h, rfl⟩

/-! ## Names -/

namespace Renaming

/-- The second name stands for the first one. -/
def Stands (r : Renaming) (inside : Bool) (n n' : String) : Prop :=
  n' = r.name inside n ∧ r.Free inside n

/-- Around the function each name stands for itself. -/
theorem stands_refl (n : String) : r.Stands false n n := ⟨(name_false n).symm, free_false n⟩

theorem biUnique_stands (r : Renaming) (inside : Bool) : Relator.BiUnique (r.Stands inside) := by
  refine ⟨?_, ?_⟩
  · rintro m n _ ⟨hm, hfree⟩ ⟨hn, hfree'⟩
    exact (name_inj hfree hfree').1 (hm.symm.trans hn)
  · rintro m _ _ ⟨rfl, -⟩ ⟨rfl, -⟩
    rfl

theorem Names.stands {t t' : Token} (h : r.Names inside t t') :
    r.Stands inside t.lexeme t'.lexeme := ⟨h.lexeme, h.free⟩

/-- Another name than the one that is replaced stands for itself around the function too. -/
theorem Stands.around {n n' : String} (h : r.Stands inside n n') (hn : n ≠ r.old) :
    r.Stands false n n' := by
  obtain ⟨rfl, -⟩ := h
  exact ⟨by rw [name_of_ne hn, name_of_ne hn], free_false n⟩

end Renaming

/-! ## Values -/

variable (r W) in
/-- Functions that differ in names replaced, and in spans, only. -/
structure Closure.Renames (f f' : Closure) : Prop where
  name : f'.name = f.name
  scope : f'.scope = f.scope
  body : ∃ inside inner, Visible W inside f.scope.chain ∧
    (inner = inside ∨ inner = true ∧ r.old ∈ f.parameters) ∧
    List.Forall₂ (r.Stands inner) f.parameters f'.parameters ∧
    Stmt.RenamesAll r inner f.body f'.body

variable (r W) in
/-- Values that are the same, but for names replaced in the body of a function. -/
inductive Value.Renames : Value → Value → Prop
  | script {identity : Nat} {f f' : Closure} (h : f.Renames r W f') :
      Renames (callable (.script identity f)) (callable (.script identity f'))
  | same {v : Value} (h : v.isScript = false) : Renames v v

namespace Value.Renames

variable {v v' : Value}

theorem mono (h : v.Renames r W v') (grows : W <+: W') : v.Renames r W' v' := by
  cases h with
  | script h =>
    obtain ⟨inside, inner, hvisible, hrest⟩ := h.body
    exact .script { h with body := ⟨inside, inner, hvisible.mono grows, hrest⟩ }
  | same h => exact .same h

theorem looks (h : v.Renames r W v') : v.Looks v' := by
  cases h with
  | script h => exact .script h.name
  | same => exact .same _

end Value.Renames

/-! ## Stores -/

variable (r W) in
/-- Frames with the same names in the same order, but for the name replaced if the frame is inside,
and values that are the same but for names replaced. The frame of a call of the function binds the
name. -/
structure Frame.Renames (mark : Mark) (f f' : Frame) : Prop where
  bindings : f.Matches (r.Stands mark.inside) (Value.Renames r W) f'
  holds : mark = .holder → r.old ∈ f.names

theorem Frame.Renames.mono {mark : Mark} {f f' : Frame} (h : f.Renames r W mark f')
    (grows : W <+: W') : f.Renames r W' mark f' where
  bindings := h.bindings.imp fun _ _ hb => ⟨hb.1, hb.2.mono grows⟩
  holds := h.holds

variable (r W) in
/-- Stores with the same frames, but for names replaced. -/
structure Store.Renames (s s' : Store) : Prop where
  size : W.length = s.size
  size_eq : s'.size = s.size
  frame : ∀ id mark, W[id]? = some mark → (s.frame id).Renames r W mark (s'.frame id)

namespace Store.Renames

variable {s s' : Store}

theorem add (h : s.Renames r W s') {mark : Mark} {f f' : Frame}
    (hf : f.Renames r W mark f') : (s.add f).Renames r (W ++ [mark]) (s'.add f') where
  size := by rw [List.length_append, h.size, size_add, List.length_singleton]
  size_eq := by rw [size_add, size_add, h.size_eq]
  frame id mark' hid := by
    rw [frame_add, frame_add, h.size_eq]
    split
    · rename_i heq
      rw [heq, ← h.size, List.getElem?_concat_length] at hid
      cases hid
      exact hf.mono (List.prefix_append ..)
    · rename_i hne
      have hlt : id < W.length := by
        have := (List.getElem?_eq_some_iff.1 hid).1
        rw [List.length_append, List.length_singleton, h.size] at this
        rw [h.size]
        exact Nat.lt_of_le_of_ne (Nat.le_of_lt_succ this) hne
      rw [List.getElem?_append_left hlt] at hid
      exact (h.frame id mark' hid).mono (List.prefix_append ..)

theorem define (h : s.Renames r W s') {i : FrameId} {mark : Mark} (hi : W[i]? = some mark)
    {n n' : String} (hn : r.Stands mark.inside n n') {v v' : Value} (hv : v.Renames r W v') :
    (s.define i n v).Renames r W (s'.define i n' v') where
  size := by rw [size_define, h.size]
  size_eq := by rw [size_define, size_define, h.size_eq]
  frame id mark' hid := by
    have hlt : i < s.size := by
      rw [← h.size]
      exact (List.getElem?_eq_some_iff.1 hi).1
    rw [frame_define _ _ _ _ _ hlt, frame_define _ _ _ _ _ (h.size_eq ▸ hlt)]
    split
    · rename_i heq
      rw [heq, hi] at hid
      cases hid
      have hframe := h.frame i mark hi
      exact
        { bindings := hframe.bindings.define (r.biUnique_stands _) hn hv
          holds := fun hmark =>
            (Frame.mem_names_define ..).2 (.inr (hframe.holds hmark)) }
    · exact h.frame id mark' hid

variable (r W s s') in
/-- The name is bound in no frame, and is not replaced then, or it is found in the same frame as the
name that stands for it. -/
def Found (ids : List FrameId) (n n' : String) : Prop :=
  (n' = n ∧ s.binder? ids n = none ∧ s'.binder? ids n' = none) ∨
    ∃ id mark, W[id]? = some mark ∧ r.Stands mark.inside n n' ∧
      s.binder? ids n = some id ∧ s'.binder? ids n' = some id

/-- A name is found in the innermost frame, or else in the others. -/
theorem found_cons (h : s.Renames r W s') {id : FrameId} {ids : List FrameId} {mark : Mark}
    (hid : W[id]? = some mark) {n n' : String} (hn : r.Stands mark.inside n n')
    (hrest : n ∉ (s.frame id).names → Found r W s s' ids n n') :
    Found r W s s' (id :: ids) n n' := by
  have hbinds := (h.frame id mark hid).bindings.binds (r.biUnique_stands _) hn
  unfold Found binder?
  rw [List.find?_cons, List.find?_cons, hbinds]
  cases hmem : (s.frame id).binds n with
  | true => exact .inr ⟨id, mark, hid, hn, rfl, rfl⟩
  | false =>
    refine hrest fun hn => ?_
    rw [(Frame.binds_iff ..).2 hn] at hmem
    cases hmem

theorem found (h : s.Renames r W s') {ids : List FrameId} (hids : Visible W inside ids)
    {n n' : String} (hn : r.Stands inside n n') : Found r W s s' ids n n' := by
  induction hids with
  | @outer ids hids =>
    induction ids with
    | nil => exact .inl ⟨hn.1.trans (Renaming.name_false n), rfl, rfl⟩
    | cons id ids ih =>
      rw [List.forall_mem_cons] at hids
      exact h.found_cons hids.1 hn fun _ => ih hids.2
  | @holder id ids hid _ ih =>
    -- the frame of the call binds the name that is replaced
    refine h.found_cons hid hn fun hmem => ih (hn.around ?_)
    rintro rfl
    exact hmem ((h.frame id _ hid).holds rfl)
  | inner hid _ ih => exact h.found_cons hid hn fun _ => ih hn

end Store.Renames

/-! ## Machines, faults and ends -/

variable (r W) in
/-- Machines in a scope on the given side that differ in names replaced, and in the events told,
only. -/
structure Machine.Renames (inside : Bool) (m m' : Machine) : Prop where
  store : m.store.Renames r W m'.store
  visible : Visible W inside m.scope.chain
  scope : m'.scope = m.scope
  callDepth : m'.callDepth = m.callDepth
  issued : m'.issued = m.issued
  readings : m'.readings = m.readings
  sink : m'.sink = m.sink

/-- The same fault, but for its span. -/
def Diagnostic.SameButSpan (d d' : Diagnostic) : Prop := d' = { d with span := d'.span }

theorem Token.Keeps.sameButSpan {t t' : Token} (h : t.Keeps t') (cause : Cause) :
    (Diagnostic.atToken cause t).SameButSpan (.atToken cause t') := by
  simp only [Diagnostic.SameButSpan, Diagnostic.atToken, Diagnostic.pointingAt, Location.ofToken,
    h.kind, h.lexeme, h.line]

/-- The same reason to stop, but for the span of the fault. -/
inductive Halt.SameButSpan : Halt → Halt → Prop
  | fault {d d' : Diagnostic} (h : d.SameButSpan d') : SameButSpan (fault d) (fault d')
  | io (fault : IoFault) : SameButSpan (io fault) (io fault)
  | outOfFuel : SameButSpan outOfFuel outOfFuel

variable (r W) in
/-- Ends of statements that differ in the place of a word, and in names replaced, only. -/
inductive Flow.Renames : Flow → Flow → Prop
  | normal : Renames normal normal
  | breaking {t t' : Token} (h : t.Keeps t') : Renames (breaking t) (breaking t')
  | continuing {t t' : Token} (h : t.Keeps t') : Renames (continuing t) (continuing t')
  | returning {t t' : Token} {v v' : Value} (h : t.Keeps t') (hv : v.Renames r W v') :
      Renames (returning t v) (returning t' v')

/-! ## Computations -/

namespace Eval

variable {α β γ δ : Type} {R : List Mark → α → β → Prop} {S : List Mark → γ → δ → Prop}
  {act : Eval α} {act' : Eval β}

variable (r W inside R) in
/-- Results in machines that differ in names replaced, perhaps with new frames: two values in the
relation `R`, or the same reason to stop. -/
inductive ResultRenames :
    EStateM.Result Halt Machine α → EStateM.Result Halt Machine β → Prop
  | ok {a : α} {b : β} {m m' : Machine} {W' : List Mark} (grows : W <+: W') (h : R W' a b)
      (hm : m.Renames r W' inside m') : ResultRenames (.ok a m) (.ok b m')
  | error {e e' : Halt} {m m' : Machine} {W' : List Mark} (grows : W <+: W')
      (h : e.SameButSpan e') (hm : m.Renames r W' inside m') :
      ResultRenames (.error e m) (.error e' m')

variable (r W inside R) in
/-- From machines that differ in names replaced, now or with more frames, two computations end so.
-/
def Renames (act : Eval α) (act' : Eval β) : Prop :=
  ∀ W', W <+: W' → ∀ m m' : Machine, m.Renames r W' inside m' →
    ResultRenames r W' inside R (act m) (act' m')

theorem renames_pure {a : α} {b : β} (h : ∀ W', W <+: W' → R W' a b) :
    Renames r W inside R (pure a) (pure b) :=
  fun W' grows _ _ hm => .ok (List.prefix_refl W') (h W' grows) hm

theorem renames_value {v v' : Value} (h : v.Renames r W v') :
    Renames r W inside (Value.Renames r) (pure v) (pure v') := renames_pure fun _ => h.mono

theorem renames_throw {e e' : Halt} (h : e.SameButSpan e') :
    Renames r W inside R (throw e) (throw e') :=
  fun W' _ _ _ hm => .error (List.prefix_refl W') h hm

theorem Renames.bind {next : α → Eval γ} {next' : β → Eval δ}
    (h : Renames r W inside R act act')
    (hnext : ∀ W', W <+: W' → ∀ a b, R W' a b → Renames r W' inside S (next a) (next' b)) :
    Renames r W inside S (act >>= next) (act' >>= next') := by
  intro W₁ grows m m' hm
  rw [bind_apply, bind_apply]
  have hact := h W₁ grows m m' hm
  revert hact
  generalize act m = result
  generalize act' m' = result'
  rintro (⟨grows', hab, hm⟩ | ⟨grows', he, hm⟩)
  · rename_i a b m m' W₂
    have hrest := hnext W₂ (grows.trans grows') a b hab W₂ (List.prefix_refl W₂) m m' hm
    dsimp only
    revert hrest
    generalize next a m = result
    generalize next' b m' = result'
    rintro (⟨grows'', h, hm⟩ | ⟨grows'', he, hm⟩)
    · exact .ok (grows'.trans grows'') h hm
    · exact .error (grows'.trans grows'') he hm
  · exact .error grows' he hm

theorem renames_faultAt {t t' : Token} (h : t.Keeps t') (cause : RuntimeFault) :
    Renames r W inside R (faultAt t cause) (faultAt t' cause) :=
  renames_throw (.fault (h.sameButSpan _))

theorem renames_liftAt {t t' : Token} (ht : t.Keeps t') {result : Except RuntimeFault Value}
    (h : ∀ u, result = .ok u → u.isScript = false) :
    Renames r W inside (Value.Renames r) (liftAt t result) (liftAt t' result) := by
  cases result with
  | ok u => exact renames_value (.same (h u rfl))
  | error cause => exact renames_faultAt ht cause

/-- A name that is bound in no frame is the same token, so that its fault is the same too. -/
theorem renames_undefined {t t' : Token} (h : r.Names inside t t') (hname : t'.lexeme = t.lexeme) :
    (Store.undefinedAt t).SameButSpan (Store.undefinedAt t') := by
  have hkeeps := h.keeps (h.lexeme.symm.trans hname)
  unfold Store.undefinedAt
  rw [hname]
  exact hkeeps.sameButSpan _

theorem renames_readName {t t' : Token} (h : r.Names inside t t') :
    Renames r W inside (Value.Renames r) (readName t) (readName t') := by
  intro W' _ m m' hm
  unfold readName Store.read
  rw [hm.scope, Store.lookup?_eq, Store.lookup?_eq]
  rcases hm.store.found hm.visible h.stands with
    ⟨hname, hnone, hnone'⟩ | ⟨id, mark, hid, hn, hsome, hsome'⟩
  · rw [hnone, hnone']
    exact .error (List.prefix_refl W') (.fault (renames_undefined h hname)) hm
  · have hlookup := (hm.store.frame id mark hid).bindings.lookup? (r.biUnique_stands _) hn
    have hbinds : ((m.store.frame id).lookup? t.lexeme).isSome = true :=
      List.find?_some (p := fun id => (m.store.frame id).binds t.lexeme) hsome
    rw [hsome, hsome', Option.bind_some, Option.bind_some]
    revert hlookup hbinds
    generalize (m.store.frame id).lookup? t.lexeme = a
    generalize (m'.store.frame id).lookup? t'.lexeme = a'
    rintro (hv | _) hbinds
    · exact .ok (List.prefix_refl W') hv hm
    · cases hbinds

theorem renames_writeName {t t' : Token} (h : r.Names inside t t') {v v' : Value}
    (hv : v.Renames r W v') :
    Renames r W inside (fun _ _ _ => True) (writeName t v) (writeName t' v') := by
  intro W' grows m m' hm
  unfold writeName Store.locate
  rw [hm.scope]
  rcases hm.store.found hm.visible h.stands with
    ⟨hname, hnone, hnone'⟩ | ⟨id, mark, hid, hn, hsome, hsome'⟩
  · rw [hnone, hnone']
    exact .error (List.prefix_refl W') (.fault (renames_undefined h hname)) hm
  · rw [hsome, hsome']
    refine .ok (List.prefix_refl W') trivial { hm with store := ?_, scope := rfl }
    exact hm.store.define hid hn (hv.mono grows)

theorem renames_defineName {n n' : String} (hn : r.Stands inside n n') {v v' : Value}
    (hv : v.Renames r W v') :
    Renames r W inside (fun _ _ _ => True) (defineName n v) (defineName n' v') := by
  intro W' grows m m' hm
  obtain ⟨mark, hmark, rfl⟩ := hm.visible.head
  refine .ok (List.prefix_refl W') trivial { hm with store := ?_ }
  show Store.Renames r W' (m.store.define m.scope.inner n v) (m'.store.define m'.scope.inner n' v')
  rw [hm.scope]
  exact hm.store.define hmark hn (hv.mono grows)

theorem renames_makeFunction (name : Option String) {inner : Bool}
    {parameters parameters' : List Token} {body body' : List Stmt}
    (enters : r.Enters inside inner parameters)
    (hparameters : List.Forall₂ (r.Names inner) parameters parameters')
    (hbody : Stmt.RenamesAll r inner body body') :
    Renames r W inside (Value.Renames r) (makeFunction name parameters body)
      (makeFunction name parameters' body') := by
  intro W' _ m m' hm
  have hnames : List.Forall₂ (r.Stands inner) (parameters.map Token.lexeme)
      (parameters'.map Token.lexeme) := by
    rw [List.forall₂_map_left_iff, List.forall₂_map_right_iff]
    exact hparameters.imp fun _ _ h => h.stands
  have hclosure : Closure.Renames r W' ⟨name, parameters.map Token.lexeme, body, m.scope⟩
      ⟨name, parameters'.map Token.lexeme, body', m'.scope⟩ :=
    ⟨rfl, hm.scope, inside, inner, hm.visible, enters, hnames, hbody⟩
  refine .ok (List.prefix_refl W') ?_ { hm with issued := congrArg (· + 1) hm.issued }
  rw [hm.issued]
  exact .script hclosure

/-- A new frame, and the scope that it is the innermost of. -/
theorem renames_newScope (outer : Scope) {mark : Mark} {inner : Bool} {f f' : Frame}
    (hf : ∀ W', W <+: W' → f.Renames r W' mark f')
    (hvisible : ∀ W', W <+: W' → Visible (W' ++ [mark]) inner (W'.length :: outer.chain)) :
    Renames r W inside (fun W' scope scope' => scope' = scope ∧ Visible W' inner scope.chain)
      (newScope outer f) (newScope outer f') := by
  intro W' grows m m' hm
  have hscope : Visible (W' ++ [mark]) inner (outer.enter m.store.size).chain := by
    rw [Scope.chain_enter, ← hm.store.size]
    exact hvisible W' grows
  refine .ok (List.prefix_append W' [mark]) ⟨?_, hscope⟩
    { hm with
      store := hm.store.add (hf W' grows)
      visible := hm.visible.mono (List.prefix_append ..) }
  rw [hm.store.size_eq]

theorem Renames.within {inner : Bool} {scope : Scope} (h : Renames r W inner R act act')
    (hvisible : Visible W inner scope.chain) :
    Renames r W inside R (within scope act) (within scope act') := by
  intro W' grows m m' hm
  have hact := h W' grows { m with scope } { m' with scope }
    { hm with scope := rfl, visible := hvisible.mono grows }
  unfold Eval.within
  revert hact
  generalize act { m with scope } = result
  generalize act' { m' with scope } = result'
  rintro (⟨grows', hab, hr⟩ | ⟨grows', he, hr⟩)
  · exact .ok grows' hab { hr with scope := hm.scope, visible := hm.visible.mono grows' }
  · exact .error grows' he { hr with scope := hm.scope, visible := hm.visible.mono grows' }

theorem Renames.counted (h : Renames r W inside R act act') :
    Renames r W inside R (counted act) (counted act') := by
  intro W' grows m m' hm
  have hact := h W' grows { m with callDepth := m.callDepth + 1 }
    { m' with callDepth := m'.callDepth + 1 }
    { hm with callDepth := congrArg (· + 1) hm.callDepth }
  unfold Eval.counted
  revert hact
  generalize act { m with callDepth := m.callDepth + 1 } = result
  generalize act' { m' with callDepth := m'.callDepth + 1 } = result'
  rintro (⟨grows', hab, hr⟩ | ⟨grows', he, hr⟩)
  · exact .ok grows' hab { hr with callDepth := congrArg (· - 1) hr.callDepth }
  · exact .error grows' he { hr with callDepth := congrArg (· - 1) hr.callDepth }

theorem renames_write (text : String) :
    Renames r W inside (fun _ _ _ => True) (write text) (write text) := by
  intro W' _ m m' hm
  unfold write
  rw [hm.sink]
  dsimp only
  cases m.sink.refusal? text.toUTF8 with
  | none => exact .ok (List.prefix_refl W') trivial { hm with sink := rfl }
  | some fault => exact .error (List.prefix_refl W') (.io fault) { hm with sink := rfl }

theorem renames_flush : Renames r W inside (fun _ _ _ => True) flush flush := by
  intro W' _ m m' hm
  unfold flush
  rw [hm.sink]
  cases m.sink.flush with
  | none => exact .ok (List.prefix_refl W') trivial hm
  | some fault => exact .error (List.prefix_refl W') (.io fault) hm

theorem renames_tell (e e' : Event) :
    Renames r W inside (fun _ _ _ => True) (tell e) (tell e') :=
  fun W' _ _ _ hm => .ok (List.prefix_refl W') trivial { hm with }

theorem renames_newReading : Renames r W inside (fun _ n n' => n' = n) newReading newReading :=
  fun W' _ _ _ hm => .ok (List.prefix_refl W') hm.readings
    { hm with readings := congrArg (· + 1) hm.readings }

theorem renames_get : Renames r W inside (fun W' => Machine.Renames r W' inside) get get :=
  fun W' _ _ _ hm => .ok (List.prefix_refl W') hm hm

end Eval

end Scripting
