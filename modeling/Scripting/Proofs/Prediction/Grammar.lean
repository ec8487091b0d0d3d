import Mathlib.Computability.Language
import Scripting.Proofs.Grammar.First

/-!
# The grammar without its side conditions

* `Ebnf`, `Nonterminal`, `Nonterminal.rule` : the productions of the grammar, as data. Nothing is
  said of what may be assigned to, nor of how many parts there may be or how deep they may lie;
* `letters ks` : the texts of one token;
* `Ebnf.Writes e ks` : tokens of the kinds `ks` make up `e`; `Ebnf.texts e` : these lists of kinds
  as a language, with one equation for each form of `e`;
* `Ebnf.starts`, `Ebnf.nullable` : the kinds with which a text of `e` may begin, and whether it may
  be empty (`Ebnf.starts_of_mem`);
* `Ebnf.exists_writes_part` : every nonterminal has a text.
-/

namespace Scripting

set_option autoImplicit false

open scoped Computability

/-! ## The productions -/

/-- The parts that the productions name. -/
inductive Nonterminal
  | declaration | binding | function | block | statement
  | expression | assignment | compound | unary | call | primary

/-- What the right side of a production is made of. -/
inductive Ebnf
  | token (kind : Kind)
  | part (name : Nonterminal)
  | never
  | nothing
  | either (first second : Ebnf)
  | seq (first second : Ebnf)
  | many (each : Ebnf)

namespace Ebnf

instance : Zero Ebnf := ⟨never⟩

instance : One Ebnf := ⟨nothing⟩

instance : Add Ebnf := ⟨either⟩

instance : Mul Ebnf := ⟨seq⟩

/-- Something or nothing. -/
def opt (e : Ebnf) : Ebnf := e + 1

/-- One or more, separated by commas. -/
def list (item : Ebnf) : Ebnf := item * many (token .comma * item)

/-- A token of one of the kinds. -/
def oneOf (ks : List Kind) : Ebnf := ks.foldr (fun k e => token k + e) 0

/-- Operands with the operators of one level between them. -/
def separated (operators : List Kind) (operand : Ebnf) : Ebnf :=
  operand * many (oneOf operators * operand)

end Ebnf

/-- The operators between two operands, from the loosest level to the tightest. -/
def Kind.operatorLevels : List (List Kind) :=
  [[or], [and], [bangEqual, equalEqual], [greater, greaterEqual, less, lessEqual], [minus, plus],
    [slash, star]]

/-- The operators that also assign. -/
def Kind.compoundOperators : List Kind := [plusEqual, minusEqual, starEqual, slashEqual]

/-- The operators before an operand. -/
def Kind.unaryOperators : List Kind := [bang, minus]

/-- The kinds that are a primary expression by themselves. -/
def Kind.atoms : List Kind :=
  [identifier, int, float, string, falseWord, trueWord, nullWord]

open Ebnf in
/-- The production of each nonterminal. -/
def Nonterminal.rule : Nonterminal → Ebnf
  | declaration =>
    part statement + token .letWord * part binding +
      token .fnWord * token .identifier * part function
  | binding =>
    token .identifier * opt (token .assign * part expression) * token .semicolon
  | function =>
    token .leftParen * opt (list (token .identifier)) * token .rightParen * part block
  | block => token .leftBrace * many (part declaration) * token .rightBrace
  | statement =>
    part expression * token .semicolon +
      token .forWord * token .leftParen *
        (token .semicolon + token .letWord * part binding + part expression * token .semicolon) *
        opt (part expression) * token .semicolon * opt (part expression) * token .rightParen *
        part statement +
      token .ifWord * token .leftParen * part expression * token .rightParen * part statement *
        opt (token .elseWord * part statement) +
      token .whileWord * token .leftParen * part expression * token .rightParen * part statement +
      token .returnWord * opt (part expression) * token .semicolon +
      token .breakWord * token .semicolon +
      token .continueWord * token .semicolon +
      part block
  | expression => part assignment
  | assignment =>
    (part compound + token .fnWord * part function) * opt (token .assign * part assignment)
  | compound =>
    Kind.operatorLevels.foldr separated (part unary) *
      opt (oneOf Kind.compoundOperators * part compound)
  | unary => part call + oneOf Kind.unaryOperators * part unary
  | call =>
    part primary * many (token .leftParen * opt (list (part expression)) * token .rightParen)
  | primary => oneOf Kind.atoms + token .leftParen * part expression * token .rightParen

/-! ## Texts -/

/-- The texts of one token of one of the kinds. -/
def letters (ks : List Kind) : Language Kind := {w | ∃ k ∈ ks, w = [k]}

theorem mem_letters {ks : List Kind} {w : List Kind} : w ∈ letters ks ↔ ∃ k ∈ ks, w = [k] := Iff.rfl

theorem letters_nil : letters [] = 0 := by
  ext w
  simp [mem_letters, Language.notMem_zero]

theorem letters_cons (k : Kind) (ks : List Kind) :
    letters (k :: ks) = letters [k] + letters ks := by
  ext w
  rw [Language.mem_add]
  simp [mem_letters]

namespace Ebnf

/-- Tokens of the kinds `ks` make up `e`. -/
inductive Writes : Ebnf → List Kind → Prop
  | token (k : Kind) : Writes (token k) [k]
  | part {n : Nonterminal} {ks : List Kind} (h : Writes n.rule ks) : Writes (part n) ks
  | nothing : Writes nothing []
  | first {a b : Ebnf} {ks : List Kind} (h : Writes a ks) : Writes (either a b) ks
  | second {a b : Ebnf} {ks : List Kind} (h : Writes b ks) : Writes (either a b) ks
  | seq {a b : Ebnf} {ks ks' : List Kind} (h : Writes a ks) (h' : Writes b ks') :
      Writes (seq a b) (ks ++ ks')
  | none {a : Ebnf} : Writes (many a) []
  | more {a : Ebnf} {ks ks' : List Kind} (h : Writes a ks) (h' : Writes (many a) ks') :
      Writes (many a) (ks ++ ks')

/-- The texts of `e`, each as the kinds of its tokens. -/
def texts (e : Ebnf) : Language Kind := {ks | Writes e ks}

theorem mem_texts {e : Ebnf} {ks : List Kind} : ks ∈ e.texts ↔ Writes e ks := Iff.rfl

/-! ### One equation for each form -/

theorem texts_part (n : Nonterminal) : (part n).texts = n.rule.texts := by
  ext ks
  simp only [mem_texts]
  exact ⟨fun h => by cases h with | part h => exact h, .part⟩

@[simp] theorem texts_zero : (0 : Ebnf).texts = 0 := by
  ext ks
  refine ⟨fun h => ?_, fun h => (Language.notMem_zero ks h).elim⟩
  cases (h : Writes never ks)

@[simp] theorem texts_one : (1 : Ebnf).texts = 1 := by
  ext ks
  simp only [Language.mem_one]
  exact ⟨fun h => by cases (h : Writes nothing ks); rfl, fun h => h ▸ Writes.nothing⟩

@[simp] theorem texts_add (a b : Ebnf) : (a + b).texts = a.texts + b.texts := by
  ext ks
  simp only [Language.mem_add]
  constructor
  · intro h
    cases (h : Writes (either a b) ks) with
    | first h => exact .inl h
    | second h => exact .inr h
  · intro h
    rcases h with h | h
    · exact Writes.first h
    · exact Writes.second h

@[simp] theorem texts_mul (a b : Ebnf) : (a * b).texts = a.texts * b.texts := by
  ext ks
  simp only [Language.mem_mul]
  constructor
  · intro h
    cases (h : Writes (Ebnf.seq a b) ks) with
    | seq h h' => exact ⟨_, h, _, h', rfl⟩
  · rintro ⟨ks, h, ks', h', rfl⟩
    exact Writes.seq h h'

@[simp] theorem texts_many (a : Ebnf) : (many a).texts = a.texts∗ := by
  ext ks
  rw [Language.mem_kstar]
  constructor
  · intro h
    generalize he : many a = e at h
    induction h with
    | none => exact ⟨[], rfl, fun _ h => absurd h List.not_mem_nil⟩
    | more h _ _ ih =>
      cases he
      obtain ⟨L, rfl, hL⟩ := ih rfl
      exact ⟨_ :: L, rfl, List.forall_mem_cons.2 ⟨h, hL⟩⟩
    | _ => cases he
  · rintro ⟨L, rfl, hL⟩
    induction L with
    | nil => exact Writes.none
    | cons w L ih =>
      obtain ⟨hw, hL⟩ := List.forall_mem_cons.1 hL
      exact Writes.more hw (ih hL)

@[simp] theorem texts_token (k : Kind) : (token k).texts = letters [k] := by
  ext ks
  simp only [mem_letters, List.mem_singleton, exists_eq_left]
  exact ⟨fun h => by cases (h : Writes (token k) ks); rfl, fun h => h ▸ Writes.token k⟩

@[simp] theorem texts_oneOf (ks : List Kind) : (oneOf ks).texts = letters ks := by
  induction ks with
  | nil =>
    rw [letters_nil]
    exact texts_zero
  | cons k ks ih =>
    rw [letters_cons, ← ih, ← texts_token]
    exact texts_add _ _

@[simp] theorem texts_opt (e : Ebnf) : (opt e).texts = e.texts + 1 := by
  rw [opt, texts_add, texts_one]

@[simp] theorem texts_list (item : Ebnf) :
    (list item).texts = item.texts * (letters [.comma] * item.texts)∗ := by
  simp [list]

/-! ## First tokens -/

/-- The kinds with which a text of a nonterminal begins; it is not empty. -/
def partStarts : Nonterminal → Kind → Bool
  | .declaration => Kind.startsDeclaration
  | .binding => (· = .identifier)
  | .function => (· = .leftParen)
  | .block => (· = .leftBrace)
  | .statement => Kind.startsForm
  | .expression | .assignment => Kind.startsExpression
  | .compound | .unary => Kind.startsUnary
  | .call | .primary => Kind.startsPrimary

/-- A text may be empty. -/
def nullable : Ebnf → Bool
  | token _ | part _ | never => false
  | nothing | many _ => true
  | either a b => a.nullable || b.nullable
  | seq a b => a.nullable && b.nullable

/-- A text may begin with the kind. -/
def starts : Ebnf → Kind → Bool
  | token k', k => k = k'
  | part n, k => partStarts n k
  | never, _ | nothing, _ => false
  | either a b, k => a.starts k || b.starts k
  | seq a b, k => a.starts k || a.nullable && b.starts k
  | many a, k => a.starts k

theorem nullable_rule (n : Nonterminal) : n.rule.nullable = false := by
  cases n <;> rfl

theorem starts_rule {n : Nonterminal} {k : Kind} (h : n.rule.starts k = true) :
    partStarts n k = true := by
  revert h
  cases n <;> cases k <;> decide

/-- A text is only empty if it may be, and begins only with a kind with which it may. -/
theorem Writes.starts {e : Ebnf} {ks : List Kind} (h : Writes e ks) :
    (ks = [] → e.nullable = true) ∧ ∀ k w, ks = k :: w → e.starts k = true := by
  induction h with
  | token k => simp [Ebnf.starts]
  | part _ ih => exact ⟨fun h => absurd (ih.1 h) (by simp [nullable_rule]), fun k w h =>
      starts_rule (ih.2 k w h)⟩
  | nothing => simp [nullable]
  | first _ ih =>
    exact ⟨fun h => by simp [nullable, ih.1 h], fun k w h => by simp [Ebnf.starts, ih.2 k w h]⟩
  | second _ ih =>
    exact ⟨fun h => by simp [nullable, ih.1 h], fun k w h => by simp [Ebnf.starts, ih.2 k w h]⟩
  | @seq a b ks ks' _ _ ih ih' =>
    refine ⟨fun h => ?_, fun k w h => ?_⟩
    · obtain ⟨rfl, rfl⟩ := List.append_eq_nil_iff.1 h
      simp [nullable, ih.1, ih'.1]
    · cases ks with
      | nil => simp [Ebnf.starts, ih.1, ih'.2 k w h]
      | cons k' ks =>
        obtain ⟨rfl, -⟩ := List.cons.inj h
        simp [Ebnf.starts, ih.2 k' ks rfl]
  | none => simp [nullable]
  | @more a ks ks' _ _ ih ih' =>
    refine ⟨fun _ => rfl, fun k w h => ?_⟩
    cases ks with
    | nil => exact ih'.2 k w h
    | cons k' ks =>
      obtain ⟨rfl, -⟩ := List.cons.inj h
      exact ih.2 k' ks rfl

/-- How a text of `e` with one of `W` behind it begins. -/
theorem starts_of_mem {e : Ebnf} {W : Language Kind} {k : Kind} {w : List Kind}
    (h : k :: w ∈ e.texts * W) : e.starts k = true ∨ e.nullable = true ∧ k :: w ∈ W := by
  obtain ⟨ks, hks, ks', hks', heq⟩ := Language.mem_mul.1 h
  cases ks with
  | nil => exact .inr ⟨hks.starts.1 rfl, heq ▸ hks'⟩
  | cons k' ks =>
    obtain ⟨rfl, -⟩ := List.cons.inj heq
    exact .inl (hks.starts.2 k' ks rfl)

/-! ## There are texts -/

/-- The first text of `e` that is found, with those of nonterminals found by `find`. -/
def sampleWith (find : Nonterminal → Option (List Kind)) : Ebnf → Option (List Kind)
  | token k => some [k]
  | part n => find n
  | never => none
  | nothing | many _ => some []
  | either a b => a.sampleWith find <|> b.sampleWith find
  | seq a b => do return (← a.sampleWith find) ++ (← b.sampleWith find)

/-- A text of a nonterminal that needs no more than `n` productions inside each other. -/
def sample : (n : Nat) → Nonterminal → Option (List Kind)
  | 0, _ => none
  | n + 1, name => name.rule.sampleWith (sample n)

theorem writes_of_sampleWith {find : Nonterminal → Option (List Kind)}
    (hfind : ∀ n w, find n = some w → Writes (part n) w) {e : Ebnf} {w : List Kind}
    (h : e.sampleWith find = some w) : Writes e w := by
  induction e generalizing w with
  | token k => cases h; exact .token k
  | part n => exact hfind n w h
  | never => cases h
  | nothing => cases h; exact .nothing
  | either a b iha ihb =>
    rcases (Option.orElse_eq_some _ _ _).1 h with h | ⟨-, h⟩
    · exact .first (iha h)
    · exact .second (ihb h)
  | seq a b iha ihb =>
    simp only [sampleWith, Option.bind_eq_bind, Option.bind_eq_some_iff, Option.pure_def,
      Option.some.injEq] at h
    obtain ⟨ks, hks, ks', hks', rfl⟩ := h
    exact .seq (iha hks) (ihb hks')
  | many a _ => cases h; exact .none

theorem writes_of_sample {n : Nat} {name : Nonterminal} {w : List Kind}
    (h : sample n name = some w) : Writes (part name) w := by
  induction n generalizing name w with
  | zero => cases h
  | succ n ih => exact .part (writes_of_sampleWith (fun _ _ => ih) h)

/-- Every nonterminal has a text. -/
theorem exists_writes_part (n : Nonterminal) : ∃ w, Writes (part n) w := by
  have h : (sample 11 n).isSome = true := by cases n <;> decide
  exact ⟨_, writes_of_sample (Option.eq_some_of_isSome h)⟩

end Ebnf

end Scripting
