import Scripting.Proofs.Move.Runs
import Scripting.Proofs.Places.Sessions
import Scripting.Proofs.Rename.Evaluation
import Scripting.Proofs.Rename.Programs

/-!
# Runs with a parameter renamed

* `runProgram_renames` : programs that differ in names replaced only end alike;
* `Settled.renames` : between runs nothing is inside the function, so that a machine differs from
  itself in no name;
* `Outcome.SameButSpan` : outcomes that differ in the span of a fault only;
* `Session.run_renamed` : a program with a parameter renamed writes the same, ends the same, and
  leaves the same global names with values that look the same.
-/

namespace Scripting

set_option autoImplicit false

open Eval
open Interpreter (globalFrame SameEffect)

variable {r : Renaming} {W : List Mark} {inside : Bool}

/-! ## Programs -/

theorem runProgram_renames {config : Config} (standard : config.host = .standard) (fuel : Nat)
    {ss ss' : List Stmt} (h : Stmt.RenamesAll r inside ss ss') :
    Renames r W inside (fun _ _ _ => True) (runProgram config fuel ss)
      (runProgram config fuel ss') := by
  induction ss generalizing ss' W with
  | nil =>
    cases h
    exact renames_flush
  | cons s ss ih =>
    cases h with | cons hs hss => ?_
    refine ((evaluatesRenamed standard fuel).execute W inside s _ hs).bind ?_
    intro W' _ flow flow' hflow
    cases hflow with
    | normal => exact ih hss
    | breaking ht => exact renames_faultAt ht _
    | continuing ht => exact renames_faultAt ht _
    | returning ht => exact renames_faultAt ht _

/-! ## Between runs -/

/-- A function is the same as itself if its scope is around the function with the parameter. -/
theorem Closure.renames_refl {f : Closure} (h : ∀ id ∈ f.scope.chain, W[id]? = some .outer) :
    f.Renames r W f := by
  have hparameters : List.Forall₂ (r.Stands false) f.parameters f.parameters :=
    List.forall₂_same.2 fun n _ => Renaming.stands_refl n
  exact ⟨rfl, rfl, false, false, .outer h, .inl rfl, hparameters, Stmt.renamesAll_refl f.body⟩

theorem Value.renames_refl {v : Value}
    (h : ∀ identity f, v = .callable (.script identity f) → f.Renames r W f) :
    v.Renames r W v := by
  rcases v with _ | _ | _ | _ | _ | ⟨identity, f⟩ | ⟨identity, f⟩
  case callable.script => exact .script (h identity f rfl)
  all_goals exact .same rfl

/-- Each frame there is was made around the function. -/
def Store.around (s : Store) : List Mark := List.replicate s.size .outer

theorem Store.getElem?_around {s : Store} {id : FrameId} (h : id < s.size) :
    s.around[id]? = some .outer := List.getElem?_replicate_of_lt h

/-- Whatever is replaced, a store is the same as itself if all its frames are around the function.
-/
theorem Store.WellPlaced.renames {runs : List Run} {V : List TextScope} {s : Store}
    (h : s.WellPlaced runs V) (r : Renaming) : s.Renames r s.around s where
  size := List.length_replicate
  size_eq := rfl
  frame id mark hid := by
    obtain rfl : mark = .outer := List.eq_of_mem_replicate (List.mem_of_getElem? hid)
    refine ⟨List.forall₂_same.2 fun b hb => ⟨Renaming.stands_refl b.1, ?_⟩, nofun⟩
    refine Value.renames_refl fun identity f hf => ?_
    have hfits := h.values id b hb (.script identity f) (by rw [hf]; rfl)
    obtain ⟨Γ, part, parameters, -, -, -, hscope⟩ := hfits
    exact Closure.renames_refl fun id hid => Store.getElem?_around (hscope.chain_lt id hid)

/-- A machine between runs is the same as itself, whatever was told. -/
theorem Settled.renames {runs : List Run} {m : Machine} (h : Settled runs m) (r : Renaming)
    (log log' : Array Event) :
    Machine.Renames r m.store.around false { m with log } { m with log := log' } := by
  obtain ⟨V, hV⟩ := h.placed
  have hvisible : Visible m.store.around false m.scope.chain := by
    rw [h.scope]
    exact .outer fun id hid => List.mem_singleton.1 hid ▸ Store.getElem?_around hV.globalFrame_lt
  exact ⟨hV.renames r, hvisible, rfl, rfl, rfl, rfl, rfl⟩

/-! ## Runs -/

/-- Outcomes that differ in the span of a fault only. -/
inductive Outcome.SameButSpan : Outcome → Outcome → Prop
  | success : SameButSpan success success
  | fault {d d' : Diagnostic} (h : d.SameButSpan d') : SameButSpan (fault d) (fault d')
  | ioFault (fault : IoFault) : SameButSpan (ioFault fault) (ioFault fault)
  | outOfFuel : SameButSpan outOfFuel outOfFuel

theorem Outcome.sameButSpan_ofHalt {e e' : Halt} (h : e.SameButSpan e') :
    (ofHalt e).SameButSpan (ofHalt e') := by
  cases h with
  | fault h => exact .fault h
  | io => exact .ioFault _
  | outOfFuel => exact .outOfFuel

namespace Interpreter

/-- What can be seen of machines that differ in names replaced is the same, for no name is replaced
in the global frame. -/
theorem sameEffect_of_renames {i j : Interpreter} (h : i.machine.Renames r W inside j.machine)
    (hglobal : W[globalFrame]? = some .outer) : SameEffect i j where
  written := by rw [h.sink]
  globals := by
    refine (h.store.frame globalFrame .outer hglobal).bindings.shown ?_ fun _ _ hv => hv.looks
    exact fun n n' hn => hn.1.trans (Renaming.name_false n)

/-- Interpreters in machines that differ in names replaced give the same outcome, but for spans, if
the programs that they run differ so too. -/
theorem interpret_renames {i j : Interpreter} (hconfig : j.config = i.config)
    (standard : i.config.host = .standard) (h : i.machine.Renames r W inside j.machine)
    (hglobal : W[globalFrame]? = some .outer) (fuel : Nat) {ss ss' : List Stmt}
    (hss : Stmt.RenamesAll r inside ss ss') :
    (i.interpret fuel ss).1.SameButSpan (j.interpret fuel ss').1 ∧
      SameEffect (i.interpret fuel ss).2 (j.interpret fuel ss').2 := by
  obtain ⟨config, scriptName, machine⟩ := i
  obtain ⟨config', scriptName', machine'⟩ := j
  obtain rfl : config' = config := hconfig
  have hrun := runProgram_renames standard fuel hss W (List.prefix_refl W) machine machine' h
  unfold interpret
  dsimp only at hrun ⊢
  revert hrun
  generalize runProgram config' fuel ss machine = result
  generalize runProgram config' fuel ss' machine' = result'
  rintro (⟨grows, -, hm⟩ | ⟨grows, he, hm⟩)
  · exact ⟨.success, sameEffect_of_renames hm (getElem?_of_grows grows hglobal)⟩
  · exact ⟨Outcome.sameButSpan_ofHalt he,
      sameEffect_of_renames { hm with } (getElem?_of_grows grows hglobal)⟩

end Interpreter

/-- To rename a parameter of a function, all over the function, to a name that is not in the program
makes no difference to a run in any session: the run writes the same, ends the same but for the
span of a fault, and leaves the same global names with values that look the same. -/
theorem Session.run_renamed {config : Config} {runs : List Run} {i : Interpreter}
    (session : Session config runs i) (standard : config.host = .standard) {source : String}
    {ss : List Stmt} (parsed : Program.parse? source = .ok ss) {r : Renaming} {F : FunctionText}
    (hF : F ∈ Stmt.functionsOfAll ss) (fits : r.Fits F)
    (hnew : Word r.new.toList .identifier none)
    (fresh : ∀ t ∈ (scan source).tokens, t.lexeme ≠ r.new) (fuel : Nat) :
    (i.run fuel source).1.SameButSpan (i.run fuel (r.apply F.range source)).1 ∧
      SameEffect (i.run fuel source).2 (i.run fuel (r.apply F.range source)).2 := by
  obtain ⟨ss', parsed', hss⟩ := Program.parse?_apply parsed hF fits hnew fresh
  obtain ⟨log, hrun⟩ := i.run_of_parse? fuel parsed
  obtain ⟨log', hrun'⟩ := i.run_of_parse? fuel parsed'
  have settled := session.settled standard
  obtain ⟨V, hV⟩ := settled.placed
  rw [hrun, hrun']
  exact Interpreter.interpret_renames (i := { i with machine := { i.machine with log } })
    (j := { i with machine := { i.machine with log := log' } }) rfl
    (session.config_eq.symm ▸ standard) (settled.renames r log log')
    (Store.getElem?_around hV.globalFrame_lt) fuel hss

/-- A parameter that is declared again and kept by an inner function, next to a global name. Both
programs print `14`, and then there is a fault behind the function. -/
theorem Session.run_renamed_kept :
    let i := ((Interpreter.new {} "session" {}).run 9 "let x = 5; fn h() \x7b return x; \x7d").2
    let p := "fn f(x) \x7b fn g() \x7b x = x + h(); return x; \x7d " ++
      "let x = x * x; return g; \x7d print(f(3)()); y;"
    let q := "fn f(sum) \x7b fn g() \x7b sum = sum + h(); return sum; \x7d " ++
      "let sum = sum * sum; return g; \x7d print(f(3)()); y;"
    (i.run 20 p).1.SameButSpan (i.run 20 q).1 ∧ SameEffect (i.run 20 p).2 (i.run 20 q).2 ∧
      (i.run 20 p).2.machine.sink.written = "14\n".toUTF8 ∧
      (i.run 20 q).2.machine.sink.written = "14\n".toUTF8 ∧
      (i.run 20 p).1.diagnostics.map Diagnostic.message = ["Undefined variable 'y'."] ∧
      (i.run 20 q).1.diagnostics.map Diagnostic.message = ["Undefined variable 'y'."] := by
  intro i p q
  obtain ⟨first, hfirst⟩ := Program.exists_of_isOk (by decide +kernel :
    (Program.parse? "let x = 5; fn h() \x7b return x; \x7d").isOk = true)
  have session := (@Session.new {} "session" {}).run 9 hfirst
  obtain ⟨ss, hss⟩ := Program.exists_of_isOk (by decide +kernel : (Program.parse? p).isOk = true)
  let r : Renaming := ⟨"x", "sum"⟩
  have happly : r.apply ⟨4, 70⟩ p = q := by decide +kernel
  have houter : (Program.parse? p).toOption.bind (fun ss =>
      ((Stmt.functionsOfAll ss).head?.map fun F => (F.range, F.parameters.map Token.lexeme,
        (Stmt.functionsOfAll F.body).map FunctionText.name))) =
      some (⟨4, 70⟩, ["x"], [some "g"]) := by decide +kernel
  rw [hss] at houter
  obtain ⟨F, hF, hshape⟩ := Option.map_eq_some_iff.1 houter
  obtain ⟨hrange, hparameters, hinner⟩ := by simpa only [Prod.mk.injEq] using hshape
  have fits : r.Fits F :=
    { parameter := by rw [hparameters]; exact List.mem_cons_self
      unnamed := fun G hG => by
        have hname := List.mem_map_of_mem (f := FunctionText.name) hG
        rw [hinner, List.mem_singleton] at hname
        rw [hname]
        decide }
  have hnew : Word r.new.toList (.ofWord r.new) none := by
    have htext : r.new = String.ofList ['s', 'u', 'm'] := by decide +kernel
    rw [htext, String.toList_ofList]
    exact word_ofWord (by decide) (List.all_eq_true.1 (by decide))
  have hkind : Kind.ofWord r.new = .identifier := by decide +kernel
  rw [hkind] at hnew
  have hrun := session.run_renamed rfl hss (List.mem_of_head? hF) fits hnew (by decide +kernel) 20
  rw [hrange, happly] at hrun
  exact ⟨hrun.1, hrun.2, by decide +kernel⟩

end Scripting
