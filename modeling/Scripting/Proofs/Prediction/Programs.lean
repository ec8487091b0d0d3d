import Scripting.Proofs.Confinement.Programs
import Scripting.Proofs.Prediction.Productions
import Scripting.Proofs.Token.Tiles

/-!
# The first fault of a program

* `Program.texts`, `Program.Viable` : the texts of programs by the grammar without its side
  conditions, and what may be the beginning of one up to its end;
* `Prediction.rulesExpect` : the rules of every level tell where trouble is;
* `Word.valued` : the numbers and strings of a text have values;
* `Program.first_fault_at_impossible` : the first fault of the tokens of a text is at the first
  token with which they are no beginning of a program.
-/

namespace Scripting

set_option autoImplicit false

open Scripting.Parser Ebnf
open scoped Computability

/-! ## The rules of every level -/

namespace Prediction

/-- A statement takes a token. -/
theorem statement_takes {n : Nat} {s : Surroundings} {ts : List Token} {a : Stmt}
    (hts : Ready n s ts) (h : ((Rules.level n).statement s ts).result = .ok a) :
    ((Rules.level n).statement s ts).rest ≠ ts := by
  have hrules := Comparison.rulesAgree_confined s.ending ts hts.ending (Rules.level n)
    (Nat.le_refl n)
  rcases hrules.statement s s ts ⟨rfl, rfl, hts.depth, List.suffix_refl _⟩ hts.short trivial with
    ⟨_, _, hexcuse⟩ | ⟨heq, -, htaken⟩
  · exact hexcuse.elim
  · rw [← heq] at htaken
    intro hrest
    have := htaken a h
    rw [hrest] at this
    omega

theorem rulesExpect (n : Nat) : RulesExpect n (Rules.level n) := by
  have takes {n : Nat} (s : Surroundings) (ts : List Token) (hts : Ready n s ts)
      (hnext : (ts.headD s.ending).kind ≠ .endOfInput) :
      ((Rules.level n).declaration s ts).rest.length < ts.length := by
    obtain ⟨_, taken, -, hne, hsplit⟩ :=
      Rules.declaration_takes hts.ending hts.depth hts.short hnext
    have := congrArg List.length hsplit
    have := List.length_pos_iff.2 hne
    simp only [List.length_append] at *
    omega
  induction n with
  | zero =>
    exact
      { bound := Nat.le_refl _
        expression := fun _ _ _ _ hts => absurd hts.short (Nat.not_lt_zero _)
        assignment := fun _ _ _ _ hts => absurd hts.short (Nat.not_lt_zero _)
        compound := fun _ _ _ _ hts => absurd hts.short (Nat.not_lt_zero _)
        unary := fun _ _ _ _ hts => absurd hts.short (Nat.not_lt_zero _)
        statement := fun _ _ _ _ hts => absurd hts.short (Nat.not_lt_zero _)
        declaration := fun _ _ _ _ hts => absurd hts.short (Nat.not_lt_zero _)
        takes := takes }
  | succ n ih =>
    exact
      { bound := Nat.succ_le_succ ih.bound
        expression := expects_expression ih
        assignment := expects_assignment ih
        compound := expects_compound ih
        unary := expects_unary ih
        statement := expects_statement ih
        declaration := fun hV helse => expects_recovering (expects_declarationForm ih hV helse
          fun _ _ _ hts ha => statement_takes (n := n + 1) hts ha)
        takes := takes }

end Prediction

/-! ## Tokens of a text -/

theorem Word.valued {text : List Char} {kind : Kind} {literal : Option Literal}
    (h : Word text kind literal) (hkind : kind = .int ∨ kind = .float ∨ kind = .string) :
    literal.isSome = true := by
  cases h with
  | keyword h =>
    have hall : ∀ entry ∈ Kind.keywords,
        ¬ (entry.2 = .int ∨ entry.2 = .float ∨ entry.2 = .string) := by decide
    exact absurd hkind (hall _ h)
  | name => simp at hkind
  | int => rfl
  | float => rfl
  | string => rfl
  | symbol h =>
    have hall : ∀ entry ∈ Kind.symbols,
        ¬ (entry.2 = .int ∨ entry.2 = .float ∨ entry.2 = .string) := by decide
    exact absurd hkind (hall _ h)

theorem valued_of_mem_words {source : String} {t : Token}
    (ht : t ∈ Scan.words .origin (pieces source.toList)) : t.Valued := by
  rw [Scan.words_eq] at ht
  obtain ⟨x, hx, ht⟩ := List.mem_filterMap.1 ht
  obtain ⟨-, -, -, -, -, hword, -⟩ := Scan.token_stands hx ht
  exact ((hword _ _).2 ⟨rfl, rfl⟩).valued

/-! ## Programs -/

namespace Program

/-- The texts of programs, without the token that ends them. -/
def texts : Language Kind := (many (part .declaration)).texts

/-- A program and the token that ends it may begin with tokens of these kinds. -/
def Viable (ks : List Kind) : Prop := ∃ w ∈ texts, ks <+: w ++ [.endOfInput]

theorem Viable.of_append {ks ks' : List Kind} (h : Viable (ks ++ ks')) : Viable ks := by
  obtain ⟨w, hw, hprefix⟩ := h
  exact ⟨w, hw, (List.prefix_append ks ks').trans hprefix⟩

theorem mem_texts_mul_ending {w : List Kind} :
    w ++ [.endOfInput] ∈ texts * letters [.endOfInput] ↔ w ∈ texts := by
  rw [Language.mem_mul]
  constructor
  · rintro ⟨v, hv, _, ⟨k, hk, rfl⟩, heq⟩
    exact (List.append_inj_left' heq rfl) ▸ hv
  · intro hw
    exact ⟨w, hw, _, ⟨_, List.mem_singleton_self _, rfl⟩, rfl⟩

theorem viable_iff {ks : List Kind} :
    Viable ks ↔ ∃ w, ks ++ w ∈ texts * letters [.endOfInput] := by
  constructor
  · rintro ⟨w, hw, v, hv⟩
    exact ⟨v, hv ▸ mem_texts_mul_ending.2 hw⟩
  · rintro ⟨w, hw⟩
    obtain ⟨v, hv, _, ⟨k, hk, rfl⟩, heq⟩ := Language.mem_mul.1 hw
    rw [List.mem_singleton] at hk
    exact ⟨v, hv, w, hk ▸ heq.symm⟩

open Prediction in
/-- What the reading of a program tells of the texts that were possible. -/
theorem foretells_declarations {ending : Token} {ahead : List Token}
    (hending : ending.kind = .endOfInput) (hvalued : ∀ t ∈ ahead, t.Valued) :
    Foretells (texts * letters [.endOfInput]) (letters [.endOfInput]) ending ahead
      (declarations (Rules.level (ahead.length + 1)).declaration false (ahead.length + 1)
        ⟨ending, 0⟩ ahead) := by
  have h := rulesExpect (ahead.length + 1)
  have hletters {p : Kind → Bool} (hp : p .endOfInput = false) :
      Avoids (letters [.endOfInput]) p := by
    rw [← mul_one (letters [.endOfInput])]
    exact avoids_letters_mul (by simpa using hp)
  have hdeclaration {p : Kind → Bool} (hp : ∀ k, k.startsDeclaration = true → p k = false)
      (W : Language Kind) : Avoids ((part .declaration).texts * W) p :=
    avoids_part .declaration hp W
  rw [texts, texts_many]
  refine expects_declarations (· = .elseWord) (hdeclaration fun k hk => ?_)
    (hdeclaration fun k hk => ?_) (fun _ hV helse => h.declaration hV helse) h.takes
    (Nat.le_refl _) feasible_letters_cons (hletters rfl) (hletters rfl) ⟨ending, 0⟩ ahead
    ⟨hending, Nat.zero_le _, hvalued, Nat.lt_succ_self _⟩ trivial
  all_goals
    revert hk
    cases k <;> decide

/-- The kinds of tokens and of the end behind them begin with that of the next one. -/
theorem exists_kinds_eq {ending : Token} (hending : ending.kind = .endOfInput) (vs : List Token) :
    ∃ w, vs.map Token.kind ++ [.endOfInput] = (vs.headD ending).kind :: w := by
  cases vs with
  | nil => exact ⟨[], by simp [hending]⟩
  | cons v vs => exact ⟨_, rfl⟩

/-- The first fault in what the grammar requires is at the first token with which no program goes
on, and there is none if the tokens are a program. -/
theorem first_fault {ending : Token} {ahead : List Token} (hending : ending.kind = .endOfInput)
    (hahead : ∀ t ∈ ahead, t.kind ≠ .endOfInput) (hvalued : ∀ t ∈ ahead, t.Valued)
    (hnesting : ∀ d ∈ (readAhead ending ahead).diagnostics, d.cause ≠ .parse .tooMuchNesting) :
    (ahead.map Token.kind ∈ texts →
      ∀ d ∈ (readAhead ending ahead).diagnostics, d.sideCondition = true) ∧
    (ahead.map Token.kind ∉ texts →
      ∃ (us : List Token) (t : Token) (vs : List Token) (fault : ParseFault),
        ahead ++ [ending] = us ++ t :: vs ∧
        (readAhead ending ahead).diagnostics.find? (!·.sideCondition) =
          some (.atToken (.parse fault) t) ∧
        Viable (us.map Token.kind) ∧ ¬ Viable ((us ++ [t]).map Token.kind) ∧
        (Viable (ahead.map Token.kind) → t.kind = .endOfInput)) := by
  obtain ⟨body, reports, hread⟩ := declarations_reach_end (s := ⟨ending, 0⟩) hending
    (Nat.zero_le _) hahead (Nat.lt_succ_self ahead.length) (Nat.lt_succ_self _)
  have hreports : (readAhead ending ahead).diagnostics = reports := by
    simp only [readAhead, Rules.bound_level, hread]
  have hforetells := foretells_declarations hending hvalued
  rw [hread] at hforetells
  rw [hreports] at hnesting ⊢
  have htrouble : (⟨.ok body, [], reports⟩ : Reading (List Stmt)).trouble? =
      reports.find? (!·.sideCondition) := by
    simp [Reading.trouble?, Reading.faults]
  cases hforetells with
  | leads us trouble _ split texts =>
    rw [htrouble] at trouble
    rw [List.append_nil] at split
    subst split
    have haccepted := mem_texts_mul_ending.1
      (texts.sound [.endOfInput] ⟨_, List.mem_singleton_self _, rfl⟩)
    exact ⟨fun _ => by simpa using trouble, fun h => absurd haccepted h⟩
  | stops us vs fault trouble split texts =>
    rw [htrouble] at trouble
    subst split
    constructor
    · intro haccepted
      obtain ⟨w, hw⟩ := exists_kinds_eq hending vs
      rw [← mem_texts_mul_ending, List.map_append, List.append_assoc, hw] at haccepted
      exact absurd haccepted (texts.dead w)
    · intro _
      obtain ⟨vs', hvs'⟩ : ∃ vs', vs ++ [ending] = vs.headD ending :: vs' := by
        cases vs with
        | nil => exact ⟨[], rfl⟩
        | cons v vs => exact ⟨vs ++ [ending], rfl⟩
      have hdead : ¬ Viable ((us ++ [vs.headD ending]).map Token.kind) := by
        intro hviable
        obtain ⟨w, hw⟩ := viable_iff.1 hviable
        rw [List.map_append, List.append_assoc] at hw
        exact texts.dead w hw
      refine ⟨us, vs.headD ending, vs', fault, ?_, trouble, viable_iff.2 texts.viable, hdead, ?_⟩
      · rw [List.append_assoc, hvs']
      · intro hall
        cases vs with
        | nil => exact hending
        | cons v vs =>
          rw [List.append_cons, List.map_append] at hall
          exact absurd hall.of_append hdead
  | deep trouble cause =>
    rw [htrouble] at trouble
    exact absurd cause (hnesting _ (List.mem_of_find?_eq_some trouble))

/-- The first fault in the tokens of a text, apart from side conditions, is at the first token with
which they are no beginning of a program, which is the one that stands for the end if all others
are. There is none if the tokens are a program. -/
theorem first_fault_at_impossible (source : String)
    (hnesting : ∀ d ∈ (read (scan source).tokens).diagnostics,
      d.cause ≠ .parse .tooMuchNesting) :
    ((beforeEnd (scan source).tokens).map Token.kind ∈ texts →
      ∀ d ∈ (read (scan source).tokens).diagnostics, d.sideCondition = true) ∧
    ((beforeEnd (scan source).tokens).map Token.kind ∉ texts →
      ∃ (us : List Token) (t : Token) (vs : List Token) (fault : ParseFault),
        (scan source).tokens = us ++ t :: vs ∧
        (read (scan source).tokens).diagnostics.find? (!·.sideCondition) =
          some (.atToken (.parse fault) t) ∧
        Viable (us.map Token.kind) ∧ ¬ Viable ((us ++ [t]).map Token.kind) ∧
        (Viable ((beforeEnd (scan source).tokens).map Token.kind) → t.kind = .endOfInput)) := by
  have hwords := beforeEnd_tokens_scan source
  have hsplit : (scan source).tokens =
      beforeEnd (scan source).tokens ++ [endOf (scan source).tokens] := by
    have hend := tokens_scan source ▸ endOf_append
      (fun t ht => Scan.kind_of_mem_words (fun _ => isInside_pieces) ht) rfl []
    rw [hwords, hend, tokens_scan]
  have hfirst := first_fault (kind_endOf (scan source).tokens) (fun _ => kind_ne_of_mem_beforeEnd)
    (fun t ht => valued_of_mem_words (hwords ▸ ht)) hnesting
  rw [← hsplit] at hfirst
  exact hfirst

/-- What is assigned to is no fault of the grammar. But a function in a branch has no name, so that
is the first one. -/
theorem first_fault_at_impossible_name :
    let source := "1 = 2; if (a) fn b() \x7b\x7d else"
    let diagnostics := (read (scan source).tokens).diagnostics
    (∀ d ∈ diagnostics, d.cause ≠ .parse .tooMuchNesting) ∧ diagnostics.length = 2 ∧
      ∃ (us : List Token) (t : Token) (vs : List Token) (fault : ParseFault),
        (scan source).tokens = us ++ t :: vs ∧
        diagnostics[1]? = some (.atToken (.parse fault) t) ∧
        (diagnostics[1]?.bind Diagnostic.lexeme?) = some "b" ∧
        Viable (us.map Token.kind) ∧ ¬ Viable ((us ++ [t]).map Token.kind) := by
  intro source diagnostics
  have hnesting : ∀ d ∈ diagnostics, d.cause ≠ .parse .tooMuchNesting := by decide +kernel
  obtain ⟨haccepted, hrejected⟩ := first_fault_at_impossible source hnesting
  have hsecond : diagnostics.find? (!·.sideCondition) = diagnostics[1]? := by decide +kernel
  obtain ⟨us, t, vs, fault, htokens, hfirst, hviable, hdead, -⟩ := hrejected fun h =>
    absurd (haccepted h) (by decide +kernel)
  exact ⟨hnesting, by decide +kernel, us, t, vs, fault, htokens, hsecond ▸ hfirst,
    by decide +kernel, hviable, hdead⟩

end Program

end Scripting
