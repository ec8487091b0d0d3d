import Scripting.Proofs.Grammar.Programs
import Scripting.Proofs.Move.Grammar
import Scripting.Proofs.Token.Append

/-!
# Programs behind programs

* `IsClosed` : no block comment runs to the end of the text;
* `Program.parse?_eq_ok` : a text has statements if there is no fault in it and the grammar derives
  them from its words;
* `Program.parse?_joined` : a text, a line feed and a second text have the statements of the first
  and, moved, those of the second.
-/

namespace Scripting

set_option autoImplicit false

open Scripting.Grammar

/-- No block comment runs to the end of the text without being closed. -/
def IsClosed (source : String) : Prop := ∀ piece ∈ pieces source.toList, piece.isOpen = false

instance (source : String) : Decidable (IsClosed source) :=
  inferInstanceAs (Decidable (∀ piece ∈ pieces source.toList, piece.isOpen = false))

/-- Two texts with a line feed between them. -/
def joined (p q : String) : String := p ++ "\n" ++ q

/-- The move of a text that stands behind the text `p` and a line feed. -/
def Shift.behindLine (p : String) : Shift := .behind (p.toList ++ ['\n'])

theorem toList_joined (p q : String) : (joined p q).toList = p.toList ++ '\n' :: q.toList := by
  simp [joined]

theorem Piece.endsAt_of_isOpen {piece : Piece} (hfault : ∀ f, piece.role ≠ .fault f)
    (h : piece.isOpen = false) : piece.endsAt '\n' := by
  unfold isOpen at h
  unfold endsAt
  split
  · rfl
  · rename_i hrole
    rw [hrole] at h
    simpa using h
  · rename_i hrole
    exact hfault _ hrole
  · trivial

section

variable {p q : String} (hp : (scan p).diagnostics = []) (closed : IsClosed p)

include hp closed

theorem pieces_joined : pieces (joined p q).toList =
    pieces p.toList ++ ⟨.blank, ['\n']⟩ :: pieces q.toList := by
  rw [diagnostics_scan, Scan.faults_eq_nil_iff] at hp
  rw [toList_joined]
  exact pieces_append (by decide)
    (fun piece hpiece => Piece.endsAt_of_isOpen (hp piece hpiece) (closed piece hpiece)) _

/-- The words of the second text are moved behind those of the first. -/
theorem words_joined : Scan.words .origin (pieces (joined p q).toList) =
    Scan.words .origin (pieces p.toList) ++
      (Scan.words .origin (pieces q.toList)).map (Token.move (.behindLine p)) := by
  rw [pieces_joined hp closed, Scan.words_append, flatMap_text_pieces, ← Scan.words_move,
    Shift.behindLine, ← Position.after_eq_move, Position.after_append]
  rfl

theorem diagnostics_joined (hq : (scan q).diagnostics = []) :
    (scan (joined p q)).diagnostics = [] := by
  have hjoined := pieces_joined (q := q) hp closed
  rw [diagnostics_scan, Scan.faults_eq_nil_iff] at hp hq ⊢
  rw [hjoined]
  intro piece hpiece
  rcases List.mem_append.1 hpiece with h | h
  · exact hp piece h
  · rcases List.mem_cons.1 h with rfl | h
    · exact nofun
    · exact hq piece h

end

namespace Program

theorem parse?_eq_ok (source : String) (statements : List Stmt) :
    parse? source = .ok statements ↔ (scan source).diagnostics = [] ∧
      Declarations 0 (Scan.words .origin (pieces source.toList)) statements := by
  rw [← beforeEnd_tokens_scan, parse?, tokens?]
  by_cases h : (scan source).diagnostics = []
  · simp only [h, List.isEmpty_nil, if_true, true_and]
    exact ⟨declarations_of_ofTokens?, ofTokens?_of_declarations⟩
  · rw [if_neg (by simpa using h)]
    exact ⟨nofun, fun hs => absurd hs.1 h⟩

theorem exists_of_isOk {source : String} (h : (parse? source).isOk = true) :
    ∃ statements, parse? source = .ok statements := by
  revert h
  cases parse? source with
  | ok statements => exact fun _ => ⟨statements, rfl⟩
  | error => exact nofun

/-- Two texts, each without faults, have the statements of both, those of the second moved. -/
theorem parse?_joined {p q : String} {first second : List Stmt} (hp : parse? p = .ok first)
    (hq : parse? q = .ok second) (closed : IsClosed p) :
    parse? (joined p q) = .ok (first ++ second.map (Stmt.move (.behindLine p))) := by
  obtain ⟨hscanp, hfirst⟩ := (parse?_eq_ok p first).1 hp
  obtain ⟨hscanq, hsecond⟩ := (parse?_eq_ok q second).1 hq
  refine (parse?_eq_ok _ _).2 ⟨diagnostics_joined hscanp closed hscanq, ?_⟩
  rw [words_joined hscanp closed]
  exact hfirst.append (hsecond.move _)

end Program

end Scripting
