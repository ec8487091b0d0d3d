import Mathlib
import Scripting.Proofs.Places.Sessions

/-!
# Lexical scope

* `Scope.Mirrors` : the frames of a scope are one for each scope around a place, in the same order,
  and bind names of that scope only;
* `Closure.Mirrors`, `Machine.Holds` : the functions of a machine, and the places where they were
  made;
* `Touches` : the frame in which a name is read or assigned;
* `Reaches.behind_define`, `Reaches.body` : what is behind a declaration in a block, and the body of
  a function that is called;
* `Session.scopes_mirror_places` : at each point of each run of a session, the scope mirrors the
  place of what is evaluated, functions mirror their own places, and names are those of the scopes
  around.

So a function that is called sees nothing of the scopes around the call, and what it declares cannot
be seen from there.
-/

namespace Scripting

set_option autoImplicit false

open Interpreter (globalFrame)

variable {runs : List Run} {W : List TextScope} {s : Store} {Γ : Place} {scope : Scope}

/-! ## Scopes that mirror a place -/

/-- The names declared in each scope around the place, the innermost first; the last ones are the
global names. -/
def Place.scopes (runs : List Run) (Γ : Place) : List (List String) :=
  Γ.enclosures.map (fun c => c.scope.names) ++ [globalNames runs]

/-- The frames of the scope are one for each scope around the place, in the same order. Each binds
names of its scope only, and the last one is the global frame. -/
structure Scope.Mirrors (runs : List Run) (s : Store) (Γ : Place) (scope : Scope) : Prop where
  frames : List.Forall₂ (fun names id => id < s.size ∧ (s.frame id).names ⊆ names)
    (Γ.scopes runs) scope.chain
  distinct : scope.chain.Nodup
  globals : scope.chain.getLast? = some globalFrame

theorem Enclosure.Fits.subset {c : Enclosure} {id : FrameId} (h : c.Fits W s id)
    (placed : s.WellPlaced runs W) : (s.frame id).names ⊆ c.scope.names := by
  obtain ⟨k, rfl, hk⟩ := h.made
  exact placed.names k c.scope hk

theorem Place.Fits.mirrors (h : Γ.Fits W s scope) (placed : s.WellPlaced runs W) :
    scope.Mirrors runs s Γ := by
  obtain ⟨ids, hchain, hids⟩ := h.frames
  refine ⟨?_, h.ordered.imp Nat.ne_of_gt, ?_⟩
  · rw [hchain]
    refine List.rel_append ?_ (.cons ⟨h.size, placed.globals⟩ .nil)
    exact List.forall₂_map_left_iff.2 (hids.imp fun c id hc => ⟨hc.inside, hc.subset placed⟩)
  · rw [hchain, List.getLast?_concat]

theorem Place.scopes_declare (n : Option String) (Γ : Place) :
    (Γ.declare n).scopes runs = Γ.scopes runs := by
  obtain ⟨enclosures, globals⟩ := Γ
  cases n with
  | none => rfl
  | some n => cases enclosures <;> rfl

/-- A name that is found is one of a scope around the place. -/
theorem Scope.Mirrors.mem_of_locate (h : scope.Mirrors runs s Γ) {t : Token} {id : FrameId}
    (hlocate : s.locate scope t = .ok id) :
    ∃ names, (names, id) ∈ (Γ.scopes runs).zip scope.chain ∧ t.lexeme ∈ names := by
  obtain ⟨hid, hn⟩ := Store.mem_of_locate hlocate
  have hframes := h.frames
  generalize Γ.scopes runs = scopes at hframes ⊢
  generalize scope.chain = chain at hframes hid ⊢
  revert hid
  induction hframes with
  | nil => exact nofun
  | @cons names id' scopes chain hnames _ ih =>
    intro hid
    rcases List.mem_cons.1 hid with rfl | hid
    · exact ⟨names, List.mem_cons_self, hnames.2 hn⟩
    · obtain ⟨names', hmem, hn⟩ := ih hid
      exact ⟨names', List.mem_cons_of_mem _ hmem, hn⟩

/-! ## Functions -/

/-- The function was made at a place in one of the programs, which its scope mirrors. -/
def Closure.Mirrors (runs : List Run) (s : Store) (f : Closure) : Prop :=
  ∃ Γ part parameters, LiesIn runs ⟨Γ, part⟩ ∧ part.Makes f.name parameters f.body ∧
    f.parameters = parameters.map Token.lexeme ∧ f.scope.Mirrors runs s Γ

/-- The function is bound in some frame of the machine, or it is among the values. -/
def Machine.Holds (m : Machine) (values : List Value) (f : Closure) : Prop :=
  ∃ identity, .callable (.script identity f) ∈ values ∨
    ∃ id name, (name, .callable (.script identity f)) ∈ (m.store.frame id).bindings

theorem Closure.Fits.mirrors {f : Closure} (h : f.Fits runs W s) (placed : s.WellPlaced runs W) :
    f.Mirrors runs s := by
  obtain ⟨Γ, part, parameters, hlies, hmakes, hparameters, hfits⟩ := h
  obtain ⟨hframes, hdistinct, hglobals⟩ := hfits.mirrors placed
  rw [Place.scopes_declare] at hframes
  exact ⟨Γ, part, parameters, hlies, hmakes, hparameters, hframes, hdistinct, hglobals⟩

theorem Machine.Holds.mirrors {m : Machine} {values : List Value} {f : Closure}
    (h : m.Holds values f) (placed : m.store.WellPlaced runs W)
    (hvalues : ∀ v ∈ values, v.Fits runs W m.store) : f.Mirrors runs m.store := by
  obtain ⟨identity, h | ⟨id, name, h⟩⟩ := h
  · have hfits := hvalues _ h _ rfl
    exact Closure.Fits.mirrors hfits placed
  · have hfits := placed.values id _ h _ rfl
    exact Closure.Fits.mirrors hfits placed

/-! ## Names that are read and assigned -/

/-- A name is read as bound in the frame that is found for it. -/
theorem Store.read_eq_ok {t : Token} {v : Value} (h : s.read scope t = .ok v) :
    ∃ id, s.locate scope t = .ok id ∧ (s.frame id).lookup? t.lexeme = some v := by
  unfold read at h
  split at h
  · rename_i v' hfind
    cases h
    rw [lookup?_eq, Option.bind_eq_some_iff] at hfind
    obtain ⟨id, hbinder, hlookup⟩ := hfind
    refine ⟨id, ?_, hlookup⟩
    rw [locate, hbinder]
  · cases h

/-- Evaluating the point reads or assigns the name that the token is, in the frame. -/
inductive Touches (config : Config) : Point → Token → FrameId → Prop
  | read {name : Token} {n : Nat} {m : Machine} {id : FrameId}
      (hframe : m.store.locate m.scope name = .ok id) :
      Touches config ⟨.expr (.read name), n + 1, m⟩ name id
  | write {span : Span} {name : Token} {value : Expr} {n : Nat} {m m' : Machine} {v : Value}
      {id : FrameId} (hvalue : evaluate config n value m = .ok v m')
      (hframe : m'.store.locate m'.scope name = .ok id) :
      Touches config ⟨.expr (.assign span name value), n + 1, m⟩ name id

namespace Touches

variable {config : Config} {n : Nat} {m m' : Machine} {name : Token} {v : Value}

/-- The value of a name is that in the frame that is touched. -/
theorem exists_of_read (h : evaluate config (n + 1) (.read name) m = .ok v m') :
    ∃ id, Touches config ⟨.expr (.read name), n + 1, m⟩ name id ∧
      (m.store.frame id).lookup? name.lexeme = some v := by
  rw [evaluate, Eval.paced_eq, Eval.readName] at h
  split at h
  · rename_i v' hread
    cases h
    obtain ⟨id, hframe, hlookup⟩ := Store.read_eq_ok hread
    exact ⟨id, .read hframe, hlookup⟩
  · cases h

/-- Behind the evaluation of the value, an assignment changes the frame that is touched, and nothing
else. -/
theorem exists_of_assign {span : Span} {value : Expr}
    (h : evaluate config (n + 1) (.assign span name value) m = .ok v m') :
    ∃ id m₁, Touches config ⟨.expr (.assign span name value), n + 1, m⟩ name id ∧
      evaluate config n value m = .ok v m₁ ∧
      m' = { m₁ with store := m₁.store.define id name.lexeme v } := by
  rw [evaluate, Eval.paced_eq] at h
  obtain ⟨u, m₁, hvalue, h⟩ := Eval.bind_eq_ok.1 h
  obtain ⟨_, m₂, hwrite, h⟩ := Eval.bind_eq_ok.1 h
  cases h
  unfold Eval.writeName at hwrite
  split at hwrite
  · rename_i id hframe
    cases hwrite
    exact ⟨id, m₁, .write hvalue hframe, hvalue, rfl⟩
  · cases hwrite

end Touches

/-! ## Into the body of a function -/

/-- The body of a function that is called starts in a new frame, inside the scope in which the
function was made. -/
theorem Reaches.body {config : Config} {p : Point} {kept : List Value} {span : Span} {paren : Token}
    {callee : Expr} {arguments : List Expr} {n identity : Nat} {m m₁ m₂ : Machine} {f : Closure}
    {vs : List Value}
    (reaches : Reaches config p kept ⟨.expr (.call span paren callee arguments), n + 2, m⟩)
    (hcallee : evaluate config (n + 1) callee m = .ok (.callable (.script identity f)) m₁)
    (harguments : arguments.mapM (evaluate config (n + 1)) m₁ = .ok vs m₂)
    (harity : f.parameters.length = vs.length) (hroom : config.allowsCall m₂.callDepth = true) :
    ∃ m', Reaches config p (.callable (.script identity f) :: kept) ⟨.stmts f.body, n, m'⟩ ∧
      m'.scope = f.scope.enter m₂.store.size ∧
      m'.store = m₂.store.add (callFrame f.parameters vs) := by
  have haccepts : (Callable.script identity f).arity.accepts vs.length = true := by
    simp [Callable.arity, Arity.accepts, harity]
  have hcheck : checkCall config paren (.callable (.script identity f)) vs m₂ = .ok _ m₂ :=
    (checkCall_of_accepts config paren rfl haccepts m₂).trans (if_pos hroom)
  obtain ⟨log, henter⟩ := enterCall_eq config f vs { m₂ with callDepth := m₂.callDepth + 1 }
  exact ⟨_, .tail (.tail reaches (.call hcallee harguments hcheck)) (.script henter), rfl, rfl⟩

/-- To bind a name in a new frame comes to adding the frame with the name. -/
theorem Store.define_add (s : Store) (f : Frame) (name : String) (v : Value) :
    (s.add f).define s.size name v = s.add (f.define name v) := by
  refine congrArg Store.mk (Array.ext (by simp [add]) fun k hk hk' => ?_)
  rw [Array.size_push] at hk'
  simp only [add, size, Array.getElem_modify, Array.getElem_push]
  by_cases h : s.frames.size = k
  · simp [h]
  · simp [h, (by omega : k < s.frames.size)]

/-- What is behind a declaration at the beginning of a block starts in the frame of the block, which
binds the name. -/
theorem Reaches.behind_define {config : Config} {p : Point} {kept : List Value} {outer span : Span}
    {name : Token} {value : Expr} {ss : List Stmt} {n : Nat} {m : Machine} {v : Value}
    (reaches : Reaches config p kept
      ⟨.stmt (.block outer (.define span name (some value) :: ss)), n + 2, m⟩)
    (hvalue : ∀ m', evaluate config n value m' = .ok v m') :
    ∃ m', Reaches config p kept ⟨.stmts ss, n + 1, m'⟩ ∧ m'.callDepth = m.callDepth ∧
      m'.scope = m.scope.enter m.store.size ∧
      m'.store = m.store.add (Frame.empty.define name.lexeme v) := by
  let inside : Machine :=
    { m with store := m.store.add .empty, scope := m.scope.enter m.store.size }
  have hdefine : execute config (n + 1) (.define span name (some value)) inside =
      .ok .normal { inside with store := inside.store.define m.store.size name.lexeme v } := by
    rw [execute_define]
    exact Eval.bind_of_ok (hvalue inside)
  exact ⟨_, .tail (.tail reaches (.block rfl)) (.othersIn hdefine), rfl, rfl,
    m.store.define_add _ _ _⟩

/-- What a new frame does not bind is looked up around it. -/
theorem Store.lookup?_enter (s : Store) {scope : Scope} (inside : ∀ id ∈ scope.chain, id < s.size)
    {f : Frame} {name : String} (hname : f.lookup? name = none) :
    (s.add f).lookup? (scope.enter s.size) name = s.lookup? scope name := by
  have houter (id : FrameId) (hid : id ∈ scope.chain) :
      ((s.add f).frame id).lookup? name = (s.frame id).lookup? name := by
    rw [frame_add, if_neg (Nat.ne_of_lt (inside id hid))]
  have hmap (g : FrameId → Option Value) :
      scope.chain.findSome? g = (scope.chain.map g).findSome? id := by
    rw [List.findSome?_map, Function.id_comp]
  rw [lookup?, Scope.chain_enter, List.findSome?_cons, frame_add, if_pos rfl, hname]
  rw [hmap, List.map_congr_left houter, ← hmap]
  rfl

/-! ## Points of sessions -/

/-- The parts of programs that a task evaluates by itself. -/
def Task.parts : Task → List Part
  | expr e => [.expr e]
  | exprs es => es.map .expr
  | stmt s => [.stmt s]
  | stmts ss | program ss => [.stmts ss]
  | turns _ condition body => [.expr condition, .stmt body]
  | call _ _ => []

theorem Task.LiesAt.of_mem_parts {task : Task} (h : task.LiesAt runs W s Γ) {part : Part}
    (hpart : part ∈ task.parts) : LiesIn runs ⟨Γ, part⟩ := by
  cases task with
  | exprs es =>
    obtain ⟨e, he, rfl⟩ := List.mem_map.1 hpart
    exact h e he
  | turns count condition body =>
    rcases List.mem_cons.1 hpart with rfl | hpart
    · exact h.1
    · rw [List.mem_singleton.1 hpart]
      exact h.2
  | call => cases hpart
  | _ =>
    rw [List.mem_singleton.1 hpart]
    exact h

/-- At each point of each run of a session there is a place where what is evaluated lies. Where the
evaluation begins, and however it ends, the scope mirrors that place, and each function that is
bound, passed or kept mirrors the place where it was made. A name that is read or assigned is one of
the scopes around. -/
theorem Session.scopes_mirror_places {config : Config} {i : Interpreter}
    (session : Session config runs i) (standard : config.host = .standard) {source : String}
    {ss : List Stmt} (parsed : Program.parse? source = .ok ss) {fuel : Nat} {log : Array Event}
    {kept : List Value} {p : Point} (reaches : Reaches config (i.beginning ss fuel log) kept p) :
    ∃ Γ, (∀ part ∈ p.task.parts, LiesIn (runs ++ [i.runOf ss]) ⟨Γ, part⟩) ∧
      (∀ vs m, Passes config p vs m → m.scope.Mirrors (runs ++ [i.runOf ss]) m.store Γ ∧
        ∀ f, m.Holds (vs ++ kept) f → f.Mirrors (runs ++ [i.runOf ss]) m.store) ∧
      ∀ t id, Touches config p t id →
        ∃ names, (names, id) ∈ (Γ.scopes (runs ++ [i.runOf ss])).zip p.machine.scope.chain ∧
          t.lexeme ∈ names := by
  have hplacing := placing standard (session.plain_append parsed)
  obtain ⟨W, Γ, stands, hlies, hkept⟩ := session.placed standard parsed reaches
  refine ⟨Γ, fun part hpart => hlies.of_mem_parts hpart, fun vs m passes => ?_, ?_⟩
  · obtain ⟨W', onward, hvs⟩ := passes.onward hplacing stands hlies
    refine ⟨(stands.onward onward).fits.mirrors onward.placed, fun f hf => ?_⟩
    exact hf.mirrors onward.placed (List.forall_mem_append.2 ⟨hvs, fits_onward hkept onward⟩)
  · intro t id touches
    cases touches with
    | read hframe => exact (stands.fits.mirrors stands.placed).mem_of_locate hframe
    | write hvalue hframe =>
      have hassigned := hlies.step .assigned
      obtain ⟨W', onward, -⟩ := ((hplacing _).evaluate stands hassigned).of_ok hvalue
      have hmirrors := (stands.onward onward).fits.mirrors onward.placed
      rw [← onward.later.scope]
      exact hmirrors.mem_of_locate hframe

/-- The function `f` of an earlier run is called in a block that declares an `x` of its own. Where
the body of `f` reads `x`, the scope is a new frame and the global one, and `x` is the `1` of the
global frame. -/
theorem Session.scopes_mirror_places_function :
    let i := ((Interpreter.new {} "session" {}).run 9 "let x = 1; fn f() \x7b return x; \x7d").2
    let source := "\x7b let x = 2; f(); \x7d"
    let name : Token := ⟨.identifier, "x", none, 1, ⟨27, 28⟩⟩
    ∃ runs ss kept n m Γ names, Session {} runs i ∧ Program.parse? source = .ok ss ∧
      Reaches {} (i.beginning ss 9 #[]) kept ⟨.expr (.read name), n, m⟩ ∧
      LiesIn (runs ++ [i.runOf ss]) ⟨Γ, .expr (.read name)⟩ ∧
      m.scope.chain = [2, globalFrame] ∧ m.scope.Mirrors (runs ++ [i.runOf ss]) m.store Γ ∧
      (∀ f, m.Holds kept f → f.Mirrors (runs ++ [i.runOf ss]) m.store) ∧
      Touches {} ⟨.expr (.read name), n, m⟩ name globalFrame ∧
      evaluate {} n (.read name) m = .ok (.int 1) m ∧
      (names, globalFrame) ∈ (Γ.scopes (runs ++ [i.runOf ss])).zip m.scope.chain ∧
      "x" ∈ names := by
  intro i source name
  let leave : Stmt := .leave ⟨20, 29⟩ ⟨.returnWord, "return", none, 1, ⟨20, 26⟩⟩ (some (.read name))
  let first : List Stmt := [
    .define ⟨0, 10⟩ ⟨.identifier, "x", none, 1, ⟨4, 5⟩⟩ (some (.literal ⟨8, 9⟩ (.int 1))),
    .function ⟨11, 31⟩ ⟨.identifier, "f", none, 1, ⟨14, 15⟩⟩ [] [leave]]
  have hfirst : Program.parse? "let x = 1; fn f() \x7b return x; \x7d" = .ok first := by cbv
  have session := (@Session.new {} "session" {}).run 9 hfirst
  let bound : Token := ⟨.identifier, "x", none, 1, ⟨6, 7⟩⟩
  let callee : Token := ⟨.identifier, "f", none, 1, ⟨13, 14⟩⟩
  let paren : Token := ⟨.rightParen, ")", none, 1, ⟨15, 16⟩⟩
  let ss : List Stmt := [.block ⟨0, 19⟩ [.define ⟨2, 12⟩ bound (some (.literal ⟨10, 11⟩ (.int 2))),
    .expression ⟨13, 17⟩ (.call ⟨13, 16⟩ paren (.read callee) [])]]
  have hss : Program.parse? source = .ok ss := by cbv
  -- what the first run leaves
  let p : Point := i.beginning ss 9 #[]
  let f : Closure := ⟨some "f", [], [leave], .single globalFrame⟩
  obtain ⟨hscope, hsize, hdepth, hx, hf⟩ :
      p.machine.scope = .single globalFrame ∧ p.machine.store.size = 1 ∧
        p.machine.callDepth = 0 ∧
        (p.machine.store.frame globalFrame).lookup? "x" = some (.int 1) ∧
        p.machine.store.lookup? p.machine.scope "f" = some (.callable (.script 2 f)) := by
    obtain ⟨log, hrun⟩ := (Interpreter.new {} "session" {}).run_of_parse? 9 hfirst
    simp only [p, i, hrun]
    exact ⟨rfl, rfl, rfl, rfl, rfl⟩
  -- from the block to the body of `f`
  have begun : Reaches {} p [] ⟨.stmt _, 9, p.machine⟩ := .tail .refl .firstRun
  obtain ⟨m₁, defined, hdepth₁, hscope₁, hstore₁⟩ :=
    begun.behind_define (v := .int 2) fun _ => rfl
  have hcallee : evaluate {} 6 (.read callee) m₁ = .ok (.callable (.script 2 f)) m₁ := by
    have hinside : ∀ id ∈ p.machine.scope.chain, id < p.machine.store.size := by
      simp [hscope, hsize, globalFrame]
    have hlookup : m₁.store.lookup? m₁.scope "f" = some (.callable (.script 2 f)) := by
      rw [hstore₁, hscope₁, Store.lookup?_enter _ hinside rfl, hf]
    rw [evaluate, Eval.paced_eq, Eval.readName, Store.read, hlookup]
  have hroom : Config.allowsCall {} m₁.callDepth = true := by
    rw [hdepth₁, hdepth]
    rfl
  obtain ⟨m, entered, hscope₂, hstore₂⟩ :=
    Reaches.body (.tail (.tail defined .firstIn) .expression) hcallee rfl rfl hroom
  have reaches := Reaches.tail (.tail entered .firstIn) .result
  have hsize₁ : m₁.store.size = 2 := by simp [hstore₁, hsize]
  have hchain : m.scope.chain = [2, globalFrame] := by simp [hscope₂, hsize₁, f]
  have hinner : (m.store.frame 2).lookup? "x" = none := by
    rw [hstore₂, Store.frame_add, if_pos hsize₁.symm]
    rfl
  have hglobal : (m.store.frame globalFrame).lookup? "x" = some (.int 1) := by
    rw [hstore₂, Store.frame_add, if_neg (by simp [hsize₁, globalFrame]), hstore₁,
      Store.frame_add, if_neg (by simp [hsize, globalFrame])]
    exact hx
  have hlocate : m.store.locate m.scope name = .ok globalFrame := by
    simp [Store.locate, Store.binder?, Frame.binds, hchain, hinner, hglobal, name]
  have hvalue : evaluate {} 4 (.read name) m = .ok (.int 1) m := by
    rw [evaluate, Eval.paced_eq, Eval.readName, Store.read]
    simp [Store.lookup?, hchain, hinner, hglobal, name]
  obtain ⟨Γ, hlies, hpasses, htouches⟩ := session.scopes_mirror_places rfl hss reaches
  have touches : Touches {} ⟨.expr (.read name), 4, m⟩ name globalFrame := .read hlocate
  obtain ⟨names, hmem, hname⟩ := htouches name globalFrame touches
  have hpassed := hpasses _ _ .start
  exact ⟨_, _, _, _, m, Γ, names, session, hss, reaches, hlies _ List.mem_cons_self, hchain,
    hpassed.1, hpassed.2, touches, hvalue, hmem, hname⟩

end Scripting
