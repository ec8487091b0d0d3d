import Scripting.Parser.Program
import Scripting.Proofs.Grammar.Completeness
import Scripting.Proofs.Grammar.Soundness

/-!
# Programs and the grammar

* `Program.ofTokens?_eq_ok` : a program is accepted if its declarations are read without a fault;
* `Program.declarations_of_ofTokens?`, `Program.ofTokens?_of_declarations` : what is accepted is
  derived, and what is derived is accepted;
* `Program.ofTokens?_accepts_grammar` : the tokens before the end are accepted exactly if they are
  derived, and the tree is the only one that they have.
-/

namespace Scripting

set_option autoImplicit false

open Scripting.Parser Scripting.Grammar

theorem kind_endOf (ts : List Token) : (endOf ts).kind = .endOfInput := by
  unfold endOf
  split
  · rename_i t ht
    simpa using List.find?_some ht
  · split <;> rfl

theorem kind_ne_of_mem_beforeEnd {ts : List Token} {t : Token} (h : t ∈ beforeEnd ts) :
    t.kind ≠ .endOfInput := by
  simpa using List.all_eq_true.1 (List.all_takeWhile (l := ts)) t h

namespace Program

/-- A program is accepted if its declarations are read without a fault, and only then. -/
theorem ofTokens?_eq_ok (ts : List Token) (p : List Stmt) :
    ofTokens? ts = .ok p ↔ ∃ rest,
      (declarations (Rules.level ((beforeEnd ts).length + 1)).declaration false
        ((beforeEnd ts).length + 1)).Reads ⟨endOf ts, 0⟩ (beforeEnd ts) p rest := by
  unfold ofTokens? read readAhead result Reads
  simp only [Rules.bound_level]
  generalize declarations _ _ _ _ _ = reading
  rcases reading with ⟨_ | statements, rest, reports⟩
  · simp
  · cases reports <;> simp

/-- What is accepted is derived. -/
theorem declarations_of_ofTokens? {ts : List Token} {p : List Stmt} (h : ofTokens? ts = .ok p) :
    Declarations 0 (beforeEnd ts) p := by
  obtain ⟨rest, hr⟩ := (ofTokens?_eq_ok ts p).1 h
  obtain ⟨⟨us, hus, hp⟩, hlast⟩ := sound_declarations (Rules.sound_level _) (kind_endOf ts) false
    (Nat.lt_succ_self _) hr
  -- no token before the end stands for it, so nothing is left
  have hrest : rest = [] := by
    cases rest with
    | nil => rfl
    | cons t rest =>
      have hmem : t ∈ beforeEnd ts := by rw [hus]; simp
      exact absurd (hlast rfl (Nat.lt_succ_self _) t.kind rfl) (kind_ne_of_mem_beforeEnd hmem)
  subst hrest
  rw [hus, List.append_nil]
  exact hp

/-- What is derived is accepted. -/
theorem ofTokens?_of_declarations {ts : List Token} {p : List Stmt}
    (h : Declarations 0 (beforeEnd ts) p) : ofTokens? ts = .ok p := by
  have hr := h.reads (n := (beforeEnd ts).length + 1) ((beforeEnd ts).length + 1) false
    (s := ⟨endOf ts, 0⟩) [] (Nat.lt_succ_self _) rfl (Nat.lt_succ_self _) (.inl (kind_endOf ts))
  rw [List.append_nil] at hr
  exact (ofTokens?_eq_ok ts p).2 ⟨[], hr⟩

/-- The tokens before the end are accepted exactly if the grammar derives them, with the tree that
it gives them, and it gives them no other. -/
theorem ofTokens?_accepts_grammar (ts : List Token) :
    (∀ p, ofTokens? ts = .ok p ↔ Declarations 0 (beforeEnd ts) p) ∧
      ∀ p q, Declarations 0 (beforeEnd ts) p → Declarations 0 (beforeEnd ts) q → p = q := by
  refine ⟨fun p => ⟨declarations_of_ofTokens?, ofTokens?_of_declarations⟩, fun p q hp hq => ?_⟩
  have h := (ofTokens?_of_declarations hp).symm.trans (ofTokens?_of_declarations hq)
  exact Except.ok.inj h

end Program

end Scripting
