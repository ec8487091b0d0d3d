import Scripting.Proofs.Confinement.Programs
import Scripting.Proofs.Recovery.Lines
import Scripting.Proofs.Spans.Alone

/-!
# Statements read one by one

* `ReadsBody inBlock s ts body rest reports` : the tokens `ts` are read as declarations, up to the
  end or to the end of a block (`ReadsBody.cons`, `ReadsBody.unique`, `exists_readsBody`);
* `ReadsBody.line` : the statements of a line are read by themselves, and what stands behind the
  line is read by itself;
* `Item` : statements that end with a semicolon, right or wrong, and blocks of such;
* `Program.ofTokens?_items` : the faults of such a program are those of the statements by
  themselves, and so are its trees.
-/

namespace Scripting

set_option autoImplicit false

open Scripting.Parser

/-! ## Bodies -/

/-- The tokens are read as declarations, whatever the level of the rules and the bound of the loop,
if these suffice for so many tokens. -/
def ReadsBody (inBlock : Bool) (s : Surroundings) (ts : List Token) (body : List Stmt)
    (rest : List Token) (reports : List Diagnostic) : Prop :=
  ∀ n b, ts.length < n → ts.length < b →
    declarations (Rules.level n).declaration inBlock b s ts = ⟨.ok body, rest, reports⟩

/-- The next token ends the declarations. -/
def EndsBody (inBlock : Bool) (s : Surroundings) (ts : List Token) : Prop :=
  (ts.headD s.ending).kind = .endOfInput ∨ inBlock ∧ (ts.headD s.ending).kind = .rightBrace

/-- Readings of the same tokens in the same surroundings. No fault excuses. -/
def Comparison.identical : Comparison where
  Alike s s' _ := s' = s ∧ s.ending.kind = .endOfInput
  Excuse _ := False
  ending h := ⟨by rw [h.1], h.2⟩
  suffix h _ := h
  tooDeep h hdeep := .inl (by rwa [h.1])
  deeper h hroom := ⟨by rwa [h.1], by rw [h.1], h.2⟩

theorem declarations_ok {α : Type} {p : Parser (Option α)}
    (hp : ∀ s ts, ∃ o, (p s ts).result = .ok o) (inBlock : Bool) (b : Nat) (s : Surroundings)
    (ts : List Token) : ∃ body, (declarations p inBlock b s ts).result = .ok body := by
  induction b generalizing ts with
  | zero => exact ⟨[], rfl⟩
  | succ b ih =>
    rw [declarations, run_bind]
    simp only [peek]
    split
    · exact ⟨[], rfl⟩
    · obtain ⟨o, ho⟩ := hp s ts
      rcases hr : p s ts with ⟨r, rest, reports⟩
      rw [hr] at ho
      simp only at ho
      subst ho
      obtain ⟨body, hbody⟩ := ih rest
      rcases hmore : declarations p inBlock b s rest with ⟨r, rest', reports'⟩
      rw [hmore] at hbody
      simp only at hbody
      subst hbody
      simp only [run_bind, hr, hmore]
      exact ⟨_, rfl⟩

/-- A declaration has a result, if only none. -/
theorem Rules.declaration_ok (n : Nat) (s : Surroundings) (ts : List Token) :
    ∃ o, ((level n).declaration s ts).result = .ok o := by
  have hform : ∃ p : Parser Stmt, (level n).declaration = recovering p := by
    cases n with
    | zero => exact ⟨fail .expectedExpression, rfl⟩
    | succ n => exact ⟨Production.declarationForm (level n), rfl⟩
  obtain ⟨p, hp⟩ := hform
  rw [hp]
  unfold recovering
  split <;> exact ⟨_, rfl⟩

section

variable {inBlock : Bool} {s : Surroundings} {ts rest : List Token} {body : List Stmt}
  {reports : List Diagnostic}

theorem ReadsBody.unique {body' : List Stmt} {rest' : List Token} {reports' : List Diagnostic}
    (h : ReadsBody inBlock s ts body rest reports)
    (h' : ReadsBody inBlock s ts body' rest' reports') :
    body = body' ∧ rest = rest' ∧ reports = reports' := by
  have heq := (h _ _ (Nat.lt_succ_self _) (Nat.lt_succ_self _)).symm.trans
    (h' _ _ (Nat.lt_succ_self _) (Nat.lt_succ_self _))
  simpa using heq

/-- Declarations are read from any tokens. -/
theorem exists_readsBody (hend : s.ending.kind = .endOfInput) (inBlock : Bool) (ts : List Token) :
    ∃ body rest reports, ReadsBody inBlock s ts body rest reports := by
  rcases hr : declarations (Rules.level (ts.length + 1)).declaration inBlock (ts.length + 1) s ts
    with ⟨r, rest, reports⟩
  obtain ⟨body, hbody⟩ := declarations_ok (Rules.declaration_ok (ts.length + 1)) inBlock
    (ts.length + 1) s ts
  rw [hr] at hbody
  simp only at hbody
  subst hbody
  refine ⟨body, rest, reports, fun n b hn hb => ?_⟩
  have hrules := Comparison.identical.rulesAgree_level (Nat.succ_le_of_lt hn) (Nat.le_refl _)
  rcases Comparison.agree_declarations inBlock hrules.declaration (Nat.succ_le_of_lt hb)
      (Nat.le_refl _) s s ts ⟨rfl, hend⟩ (Nat.lt_succ_self _) trivial with
    ⟨_, _, hexcuse⟩ | ⟨heq, -, -⟩
  · exact hexcuse.elim
  · rw [heq, hr]

theorem ReadsBody.ending (h : EndsBody inBlock s ts) : ReadsBody inBlock s ts [] ts [] := by
  intro n b hn hb
  cases b with
  | zero => omega
  | succ b =>
    have hstop : (ts.headD s.ending).kind = .endOfInput ∨
        inBlock = true ∧ (ts.headD s.ending).kind = .rightBrace := h
    rw [declarations, run_bind]
    simp only [peek, if_pos hstop]
    rfl

/-- A declaration, and those behind it. -/
theorem ReadsBody.cons {o : Option Stmt} {mid rest : List Token} {reports more : List Diagnostic}
    (hopen : ¬ EndsBody inBlock s ts)
    (first : ∀ n, ts.length < n → (Rules.level n).declaration s ts = ⟨.ok o, mid, reports⟩)
    (hmid : mid.length < ts.length) (others : ReadsBody inBlock s mid body rest more) :
    ReadsBody inBlock s ts (o.toList ++ body) rest (reports ++ more) := by
  intro n b hn hb
  cases b with
  | zero => omega
  | succ b =>
    have hgo : ¬ ((ts.headD s.ending).kind = .endOfInput ∨
        inBlock = true ∧ (ts.headD s.ending).kind = .rightBrace) := hopen
    rw [declarations, run_bind]
    simp only [peek, if_neg hgo, run_bind, first n hn, others n b (by omega) (by omega)]
    simp [pure]

/-- A declaration is read whatever the level of the rules, and takes a token. -/
theorem Rules.exists_declaration (hend : s.ending.kind = .endOfInput)
    (hnext : (ts.headD s.ending).kind ≠ .endOfInput) :
    ∃ o mid reports, mid.length < ts.length ∧
      ∀ n, ts.length < n → (level n).declaration s ts = ⟨.ok o, mid, reports⟩ := by
  obtain ⟨o, ho⟩ := Rules.declaration_ok (ts.length + 1) s ts
  rcases hr : (level (ts.length + 1)).declaration s ts with ⟨r, mid, reports⟩
  rw [hr] at ho
  simp only at ho
  subst ho
  have hsame (n : Nat) (hn : ts.length < n) :=
    (Comparison.identical.rulesAgree_level (Nat.succ_le_of_lt hn) (Nat.le_refl _)).declaration
      s s ts ⟨rfl, hend⟩ (Nat.lt_succ_self _) hnext
  refine ⟨o, mid, reports, ?_, fun n hn => ?_⟩
  · rcases hsame _ (Nat.lt_succ_self _) with ⟨_, _, hexcuse⟩ | ⟨-, -, htaken⟩
    · exact hexcuse.elim
    · rw [hr] at htaken
      exact htaken o rfl
  · rcases hsame n hn with ⟨_, _, hexcuse⟩ | ⟨heq, -, -⟩
    · exact hexcuse.elim
    · rw [heq, hr]

/-- Where fewer constructs are open, the same is read unless something is nested too deep. -/
theorem ReadsBody.shallower {s' : Surroundings} (h : ReadsBody inBlock s ts body rest reports)
    (hend : s.ending.kind = .endOfInput) (hs : s'.ending = s.ending) (hdepth : s'.depth ≤ s.depth)
    (shallow : ∀ d ∈ reports, d.cause ≠ .parse .tooMuchNesting) :
    ReadsBody inBlock s' ts body rest reports := by
  intro n b hn hb
  have hrules := Comparison.shallower.rulesAgree_level (Nat.succ_le_of_lt hn) (Nat.succ_le_of_lt hn)
  rcases Comparison.agree_declarations inBlock hrules.declaration (Nat.succ_le_of_lt hb)
      (Nat.succ_le_of_lt hb) s s' ts ⟨hs, hend, hdepth⟩ (Nat.lt_succ_self _) trivial with
    ⟨d, hd, hcause⟩ | ⟨heq, -, -⟩
  · rw [h n b hn hb] at hd
    exact absurd hcause (shallow d (by simpa [Reading.faults] using hd))
  · rw [← heq, h n b hn hb]

end

/-! ## Lines -/

theorem Line.not_endsBody {us : List Token} {t : Token} (h : Line us t) (inBlock : Bool)
    (s : Surroundings) (behind : List Token) : ¬ EndsBody inBlock s (us ++ t :: behind) := by
  have hnext : ((us ++ t :: behind).headD s.ending) = us.headD t := by
    cases us <;> rfl
  unfold EndsBody
  rw [hnext]
  rcases h.next with hkind | hkind
  · rintro (h | ⟨-, h⟩) <;> rw [h] at hkind <;> cases hkind
  · rw [hkind]
    simp

/-- The statements of a line are read as they are by themselves, and so is what stands behind. -/
theorem ReadsBody.line {us behind rest : List Token} {t : Token} (hline : Line us t)
    {s s' : Surroundings} (hend : s.ending.kind = .endOfInput) (helse : NoElse behind)
    {inBlock : Bool} {body body' : List Stmt} {reports more : List Diagnostic}
    (alone : ReadsBody false s (us ++ [t]) body [] reports)
    (others : ReadsBody inBlock s' behind body' rest more) (hs : s.depth = s'.depth) :
    ReadsBody inBlock s' (us ++ t :: behind) (body ++ body') rest (reports ++ more) := by
  induction hlen : us.length using Nat.strongRecOn generalizing us body reports with
  | ind length ih =>
    have hopen := hline.not_endsBody false s []
    have hopen' := hline.not_endsBody inBlock s' behind
    obtain ⟨o, mid, first, hmid, hfirst⟩ :=
      Rules.exists_declaration hend fun h => hopen (.inl h)
    have hmore (n : Nat) (hn : (us ++ t :: behind).length < n) :
        (Rules.level n).declaration s' (us ++ t :: behind) = ⟨.ok o, mid ++ behind, first⟩ := by
      rw [(Rules.declaration_line hline n hs helse).1, hfirst n (by simp at hn ⊢; omega)]
      rfl
    have hrest := (Rules.declaration_line hline ((us ++ [t]).length + 1) hs helse).2
    rw [hfirst _ (Nat.lt_succ_self _)] at hrest
    -- by itself, the line goes on behind its first declaration
    obtain ⟨body₁, rest₁, reports₁, hothers⟩ := exists_readsBody hend false mid
    obtain ⟨rfl, rfl, rfl⟩ := alone.unique (.cons hopen hfirst hmid hothers)
    rw [List.append_assoc, List.append_assoc]
    refine .cons hopen' hmore (by simp at hmid ⊢; omega) ?_
    rcases hrest with hmid | ⟨vs, hvs, hmid⟩
    · simp only at hmid
      subst hmid
      obtain ⟨rfl, -, rfl⟩ := hothers.unique (.ending (.inl hend))
      exact others
    · simp only at hmid
      subst hmid
      rw [List.append_assoc]
      refine ih vs.length ?_ (hline.suffix hvs) hothers rfl
      simp only [List.length_append] at hmid
      omega

/-! ## Programs of lines and blocks -/

/-- Tokens that end with the only semicolon among them, and among which there is no brace, no `for`
and no `else`. They need not be a statement. -/
structure FlatStatement where
  front : List Token
  closing : Token
  line : Line front closing

/-- The tokens of a flat statement. -/
def FlatStatement.tokens (f : FlatStatement) : List Token := f.front ++ [f.closing]

/-- Two braces. -/
structure Braces where
  opening : Token
  closing : Token
  opening_kind : opening.kind = .leftBrace
  closing_kind : closing.kind = .rightBrace

/-- Flat statements, and blocks of such in each other. -/
inductive Item
  | statement (f : FlatStatement)
  | block (braces : Braces) (items : List Item)

namespace Item

mutual

/-- The tokens of an item. -/
def tokens : Item → List Token
  | .statement f => f.tokens
  | .block braces items => braces.opening :: (tokensOfAll items ++ [braces.closing])

/-- The tokens of items, one behind the other. -/
def tokensOfAll : List Item → List Token
  | [] => []
  | item :: items => tokens item ++ tokensOfAll items

end

mutual

/-- The faults that the flat statements of an item have as programs by themselves. -/
def faults : Item → List Diagnostic
  | .statement f => (Program.read f.tokens).diagnostics
  | .block _ items => faultsOfAll items

/-- The faults that the flat statements have as programs by themselves, in order. -/
def faultsOfAll : List Item → List Diagnostic
  | [] => []
  | item :: items => faults item ++ faultsOfAll items

end

mutual

/-- The trees that the flat statements of an item have as programs by themselves, in blocks. -/
def trees : Item → List Stmt
  | .statement f => (Program.read f.tokens).statements
  | .block braces items =>
    [.block (braces.opening.span.through braces.closing.span) (treesOfAll items)]

/-- The trees that the flat statements have as programs by themselves, in their blocks. -/
def treesOfAll : List Item → List Stmt
  | [] => []
  | item :: items => trees item ++ treesOfAll items

end

end Item

/-! ### Blocks -/

/-- What is reported inside of a block comes before what its brace is at fault for. -/
theorem Production.blockRest_of_readsBody {s : Surroundings} {ts mid : List Token}
    {body : List Stmt} {reports : List Diagnostic} (inside : ReadsBody true s ts body mid reports)
    {n : Nat} (hn : ts.length < n) : ∃ r rest more, blockRest (Rules.level n) s ts =
      ⟨r, rest, reports ++ more⟩ ∧ ∀ closing behind, mid = closing :: behind →
        closing.kind = .rightBrace → r = .ok (body, closing) ∧ rest = behind ∧ more = [] := by
  unfold blockRest
  rw [run_bind, Rules.bound_level, inside n (n + 1) hn (Nat.lt_succ_of_lt hn)]
  refine ⟨_, _, _, rfl, ?_⟩
  rintro closing behind rfl hclosing
  have hconsume : consume .rightBrace .expectedBraceAfterBlock s (closing :: behind) =
      ⟨.ok closing, behind, []⟩ := (reads_consume _ _ _).2 ⟨hclosing, rfl⟩
  rw [run_bind, hconsume]
  exact ⟨rfl, rfl, rfl⟩

section

variable {s : Surroundings} {opening : Token} (hopening : opening.kind = .leftBrace)
  {ts mid : List Token} {body : List Stmt} {reports : List Diagnostic}

include hopening

/-- A block is a statement, and so it lies one deeper. -/
theorem Rules.declaration_of_leftBrace (n : Nat) : (level (n + 1)).declaration s (opening :: ts) =
    recovering (Production.statement (level n)) s (opening :: ts) := by
  have hform : Production.declarationForm (level n) s (opening :: ts) =
      Production.statement (level n) s (opening :: ts) := by
    refine Production.declarationForm_of_not_let (fun keyword name rest h h' => ?_) ?_
    · obtain ⟨rfl, -⟩ := List.cons.inj h
      simp [hopening] at h'
    · simp [hopening]
  show recovering (Production.declarationForm (level n)) s (opening :: ts) = _
  unfold recovering
  rw [hform]

/-- Where there is no room for one construct more, a block is at fault. -/
theorem Rules.declaration_tooDeep (deep : maxNesting ≤ s.depth) {n : Nat} (hn : 0 < n) :
    ∃ d ∈ ((level n).declaration s (opening :: ts)).reports,
      d.cause = .parse .tooMuchNesting := by
  obtain ⟨n, rfl⟩ := Nat.exists_eq_add_one_of_ne_zero (Nat.ne_of_gt hn)
  rw [declaration_of_leftBrace hopening]
  unfold recovering Production.statement nested
  rw [if_pos deep]
  exact ⟨_, List.mem_singleton_self _, rfl⟩

theorem Production.statement_of_leftBrace {r : Rules} (room : s.depth < maxNesting) :
    statement r s (opening :: ts) = (do
      let (body, closing) ← blockRest r
      pure (Stmt.block (opening.span.through closing.span) body))
        { s with depth := s.depth + 1 } ts := by
  rw [statement_of_rest r s ts hopening rfl]
  unfold nested
  rw [if_neg (Nat.not_le.2 room)]
  rfl

/-- What is read inside of a block is read and reported. -/
theorem Rules.declaration_block (room : s.depth < maxNesting)
    (inside : ReadsBody true { s with depth := s.depth + 1 } ts body mid reports) {n : Nat}
    (hn : (opening :: ts).length < n) :
    reports ⊆ ((level n).declaration s (opening :: ts)).reports ∧
      ∀ closing behind, mid = closing :: behind → closing.kind = .rightBrace →
        (level n).declaration s (opening :: ts) =
          ⟨.ok (some (.block (opening.span.through closing.span) body)), behind, reports⟩ := by
  rw [List.length_cons] at hn
  obtain ⟨n, rfl⟩ := Nat.exists_eq_add_one_of_ne_zero (Nat.ne_zero_of_lt hn)
  obtain ⟨r, rest, more, hrest, hclosed⟩ :=
    Production.blockRest_of_readsBody inside (Nat.lt_of_succ_lt_succ hn)
  rw [declaration_of_leftBrace hopening]
  unfold recovering
  rw [Production.statement_of_leftBrace hopening room, run_bind, hrest]
  constructor
  · cases r with
    | error => exact fun d hd => List.mem_append_left _ (List.mem_append_left _ hd)
    | ok => exact fun d hd => List.mem_append_left _ (List.mem_append_left _ hd)
  · intro closing behind hmid hkind
    obtain ⟨rfl, rfl, rfl⟩ := hclosed closing behind hmid hkind
    simp [pure]

end

/-! ### Items -/

namespace FlatStatement

variable (f : FlatStatement)

theorem kind_ne {t : Token} (ht : t ∈ f.tokens) : t.kind ≠ .endOfInput := by
  rcases List.mem_append.1 ht with ht | ht
  · intro hkind
    have hline := f.line.inLine t ht
    simp [hkind, Kind.isInLine] at hline
  · rw [List.mem_singleton.1 ht, f.line.semicolon]
    decide

/-- By itself, a flat statement is read to its end. -/
theorem exists_readsBody {d : Nat} (hd : d ≤ maxNesting) : ∃ body reports,
    ReadsBody false ⟨endOf f.tokens, d⟩ f.tokens body [] reports := by
  obtain ⟨body, rest, reports, h⟩ :=
    Scripting.exists_readsBody (s := ⟨endOf f.tokens, d⟩) (kind_endOf _) false f.tokens
  obtain ⟨body', reports', h'⟩ := declarations_reach_end (s := ⟨endOf f.tokens, d⟩) (kind_endOf _)
    hd (fun t ht => f.kind_ne ht) (Nat.lt_succ_self _) (Nat.lt_succ_self _)
  have heq := (h _ _ (Nat.lt_succ_self _) (Nat.lt_succ_self _)).symm.trans h'
  simp only [Reading.mk.injEq] at heq
  exact ⟨body, reports, heq.2.1 ▸ h⟩

end FlatStatement

theorem beforeEnd_append_of_head? {ts tail : List Token} (hts : ∀ t ∈ ts, t.kind ≠ .endOfInput)
    (htail : ∀ t ∈ tail.head?, t.kind = .endOfInput) : beforeEnd (ts ++ tail) = ts := by
  unfold beforeEnd
  rw [List.takeWhile_append_of_pos (by simpa using hts)]
  cases tail with
  | nil => simp
  | cons t tail => simp [htail t rfl]

/-- What is read where no construct is open is a program. -/
theorem ReadsBody.program {ts tail : List Token} (hts : ∀ t ∈ ts, t.kind ≠ .endOfInput)
    (htail : ∀ t ∈ tail.head?, t.kind = .endOfInput) {body : List Stmt} {rest : List Token}
    {reports : List Diagnostic}
    (h : ReadsBody false ⟨endOf (ts ++ tail), 0⟩ ts body rest reports) :
    Program.read (ts ++ tail) = ⟨body, reports⟩ := by
  unfold Program.read Program.readAhead
  rw [beforeEnd_append_of_head? hts htail]
  dsimp only
  rw [Rules.bound_level, h _ _ (Nat.lt_succ_self _) (Nat.lt_succ_self _)]

/-- By itself, a flat statement is read as it is where other constructs are open, unless something
is nested too deep there. -/
theorem FlatStatement.read_of_readsBody (f : FlatStatement) {d : Nat} {body : List Stmt}
    {rest : List Token} {reports : List Diagnostic}
    (h : ReadsBody false ⟨endOf f.tokens, d⟩ f.tokens body rest reports)
    (shallow : ∀ x ∈ reports, x.cause ≠ .parse .tooMuchNesting) :
    Program.read f.tokens = ⟨body, reports⟩ := by
  have htop : ReadsBody false ⟨endOf f.tokens, 0⟩ f.tokens body rest reports :=
    h.shallower (kind_endOf _) rfl (Nat.zero_le d) shallow
  rw [← List.append_nil f.tokens]
  have hall : ReadsBody false ⟨endOf (f.tokens ++ []), 0⟩ f.tokens body rest reports := by
    rwa [List.append_nil]
  exact hall.program (fun t ht => f.kind_ne ht) (by simp)

namespace Item

theorem noElse_tokens (item : Item) (behind : List Token) : NoElse (item.tokens ++ behind) := by
  cases item with
  | statement f =>
    rw [tokens, FlatStatement.tokens, List.append_assoc]
    exact f.line.noElse behind
  | block braces items =>
    intro t ht
    obtain rfl := Option.some.inj ht
    rw [braces.opening_kind]
    decide

theorem noElse_tokensOfAll (items : List Item) {behind : List Token} (h : NoElse behind) :
    NoElse (tokensOfAll items ++ behind) := by
  cases items with
  | nil => exact h
  | cons item items =>
    rw [tokensOfAll, List.append_assoc]
    exact noElse_tokens item _

end Item

/-- The tokens are read as these statements with these faults, and what stands behind them is read
by itself, unless something is nested too deep. -/
def Apart (e : Token) (ts : List Token) (trees : List Stmt) (faults : List Diagnostic) : Prop :=
  ∀ ⦃d : Nat⦄ ⦃inBlock : Bool⦄ ⦃behind rest rest' : List Token⦄ ⦃body whole : List Stmt⦄
    ⦃more reports : List Diagnostic⦄, d ≤ maxNesting → NoElse behind →
    ReadsBody inBlock ⟨e, d⟩ behind body rest more →
    ReadsBody inBlock ⟨e, d⟩ (ts ++ behind) whole rest' reports →
    (∀ x ∈ reports, x.cause ≠ .parse .tooMuchNesting) →
      whole = trees ++ body ∧ rest' = rest ∧ reports = faults ++ more

namespace Apart

variable {e : Token} {ts us : List Token} {trees trees' : List Stmt}
  {faults faults' : List Diagnostic}

theorem nil : Apart e [] [] [] := by
  intro d inBlock behind rest rest' body whole more reports _ _ others hwhole _
  exact hwhole.unique others

theorem statement (f : FlatStatement) : Apart e f.tokens (Program.read f.tokens).statements
    (Program.read f.tokens).diagnostics := by
  intro d inBlock behind rest rest' body whole more reports hd helse others hwhole shallow
  obtain ⟨alone, first, halone⟩ := f.exists_readsBody hd
  rw [FlatStatement.tokens, List.append_assoc] at hwhole
  obtain ⟨rfl, rfl, rfl⟩ :=
    hwhole.unique (.line f.line (kind_endOf f.tokens) helse halone others rfl)
  rw [f.read_of_readsBody halone fun x hx => shallow x (List.mem_append_left _ hx)]
  exact ⟨rfl, rfl, rfl⟩

variable (hend : e.kind = .endOfInput)

include hend

theorem append (h : Apart e ts trees faults) (h' : Apart e us trees' faults')
    (hus : ∀ behind, NoElse behind → NoElse (us ++ behind)) :
    Apart e (ts ++ us) (trees ++ trees') (faults ++ faults') := by
  intro d inBlock behind rest rest' body whole more reports hd helse others hwhole shallow
  obtain ⟨body', mid, more', hbehind⟩ :=
    exists_readsBody (s := ⟨e, d⟩) hend inBlock (us ++ behind)
  rw [List.append_assoc] at hwhole
  obtain ⟨rfl, rfl, rfl⟩ := h hd (hus behind helse) hbehind hwhole shallow
  obtain ⟨rfl, rfl, rfl⟩ :=
    h' hd helse others hbehind fun x hx => shallow x (List.mem_append_right _ hx)
  exact ⟨(List.append_assoc ..).symm, rfl, (List.append_assoc ..).symm⟩

theorem block (h : Apart e ts trees faults) (braces : Braces) :
    Apart e (braces.opening :: (ts ++ [braces.closing]))
      [.block (braces.opening.span.through braces.closing.span) trees] faults := by
  intro d inBlock behind rest rest' body whole more reports hd helse others hwhole shallow
  have hopen : ¬ EndsBody inBlock ⟨e, d⟩
      (braces.opening :: (ts ++ [braces.closing]) ++ behind) := by
    simp [EndsBody, braces.opening_kind]
  obtain ⟨o, mid, first, hmid, hfirst⟩ :=
    Rules.exists_declaration (s := ⟨e, d⟩) hend fun h => hopen (.inl h)
  obtain ⟨body', rest₁, more', hothers⟩ := exists_readsBody (s := ⟨e, d⟩) hend inBlock mid
  obtain ⟨rfl, rfl, rfl⟩ := hwhole.unique (.cons hopen hfirst hmid hothers)
  have hnext := hfirst _ (Nat.lt_succ_self _)
  by_cases room : d < maxNesting
  · obtain ⟨inside, rest₂, reports, hinside⟩ :=
      exists_readsBody (s := ⟨e, d + 1⟩) hend true (ts ++ [braces.closing] ++ behind)
    obtain ⟨hreports, hclosed⟩ := Rules.declaration_block (s := ⟨e, d⟩) braces.opening_kind room
      hinside (Nat.lt_succ_self _)
    rw [List.cons_append] at hnext
    rw [hnext] at hreports hclosed
    -- the brace ends the block, and does not belong to what is inside of it
    have hstop : ReadsBody true ⟨e, d + 1⟩ (braces.closing :: behind) []
        (braces.closing :: behind) [] := .ending (.inr ⟨rfl, braces.closing_kind⟩)
    have helse' : NoElse (braces.closing :: behind) := by
      intro t ht
      obtain rfl := Option.some.inj ht
      rw [braces.closing_kind]
      decide
    rw [List.append_assoc] at hinside
    obtain ⟨rfl, rfl, rfl⟩ := h (Nat.succ_le_of_lt room) helse' hstop hinside fun x hx =>
      shallow x (List.mem_append_left _ (hreports hx))
    have hblock := hclosed _ _ rfl braces.closing_kind
    simp only [Reading.mk.injEq, Except.ok.injEq] at hblock
    obtain ⟨rfl, rfl, rfl⟩ := hblock
    obtain ⟨rfl, rfl, rfl⟩ := hothers.unique others
    simp
  · have hdeep {us : List Token} (n : Nat) : ∃ x ∈
        ((Rules.level (n + 1)).declaration ⟨e, d⟩ (braces.opening :: us)).reports,
          x.cause = .parse .tooMuchNesting :=
      Rules.declaration_tooDeep braces.opening_kind (Nat.le_of_not_lt room) (Nat.succ_pos n)
    obtain ⟨x, hx, hcause⟩ := hdeep _
    rw [List.cons_append] at hnext
    rw [hnext] at hx
    exact absurd hcause (shallow x (List.mem_append_left _ hx))

end Apart

namespace Item

mutual

/-- What a program of flat statements and blocks is read as is told by the flat statements. -/
theorem apart {e : Token} (hend : e.kind = .endOfInput) :
    (item : Item) → Apart e item.tokens item.trees item.faults
  | .statement f => .statement f
  | .block braces items => (apartAll hend items).block hend braces

theorem apartAll {e : Token} (hend : e.kind = .endOfInput) :
    (items : List Item) → Apart e (tokensOfAll items) (treesOfAll items) (faultsOfAll items)
  | [] => .nil
  | item :: items =>
    (apart hend item).append hend (apartAll hend items) fun _ => noElse_tokensOfAll items

end

mutual

theorem kind_ne : (item : Item) → ∀ t ∈ item.tokens, t.kind ≠ .endOfInput
  | .statement f, t, ht => f.kind_ne ht
  | .block braces items, t, ht => by
    rcases List.mem_cons.1 ht with rfl | ht
    · rw [braces.opening_kind]
      decide
    · rcases List.mem_append.1 ht with ht | ht
      · exact kind_ne_of_all items t ht
      · rw [List.mem_singleton.1 ht, braces.closing_kind]
        decide

theorem kind_ne_of_all : (items : List Item) → ∀ t ∈ tokensOfAll items, t.kind ≠ .endOfInput
  | [], t, ht => by cases ht
  | item :: items, t, ht => by
    rcases List.mem_append.1 ht with ht | ht
    · exact kind_ne item t ht
    · exact kind_ne_of_all items t ht

end

end Item

/-- The faults of flat statements and blocks of such are those that the flat statements have as
programs by themselves, in order, unless something is nested too deep. If there are none, the trees
are those of the flat statements, in their blocks. A token that stands for the end may be behind
them, and anything behind that. -/
theorem Program.ofTokens?_items (items : List Item) (tail : List Token)
    (htail : ∀ t ∈ tail.head?, t.kind = .endOfInput)
    (shallow : ∀ ds, ofTokens? (Item.tokensOfAll items ++ tail) = .error ds →
      ∀ d ∈ ds, d.cause ≠ .parse .tooMuchNesting) :
    ofTokens? (Item.tokensOfAll items ++ tail) =
      if (Item.faultsOfAll items).isEmpty then .ok (Item.treesOfAll items)
      else .error (Item.faultsOfAll items) := by
  have hend := kind_endOf (Item.tokensOfAll items ++ tail)
  obtain ⟨body, rest, reports, hwhole⟩ :=
    exists_readsBody (s := ⟨_, 0⟩) hend false (Item.tokensOfAll items)
  have hread := hwhole.program (Item.kind_ne_of_all items) htail
  have hshallow : ∀ d ∈ reports, d.cause ≠ .parse .tooMuchNesting := by
    intro d hd
    refine shallow reports ?_ d hd
    rw [ofTokens?, hread, result, if_neg]
    simpa using List.ne_nil_of_mem hd
  have hnothing : ReadsBody false ⟨endOf (Item.tokensOfAll items ++ tail), 0⟩ [] [] [] [] :=
    .ending (.inl hend)
  obtain ⟨rfl, -, rfl⟩ := Item.apartAll hend items (Nat.zero_le _) (by simp [NoElse]) hnothing
    (by rwa [List.append_nil]) hshallow
  rw [ofTokens?, hread, result, List.append_nil, List.append_nil]

/-- Two faults, the first of them two blocks deep; the statements around them are right. -/
theorem Program.ofTokens?_items_two :
    let number : Token := ⟨.int, "1", some (.int 1), 1, ⟨0, 1⟩⟩
    let semicolon : Token := ⟨.semicolon, ";", none, 1, ⟨1, 2⟩⟩
    let braces : Braces :=
      ⟨⟨.leftBrace, "\x7b", none, 1, ⟨2, 3⟩⟩, ⟨.rightBrace, "\x7d", none, 1, ⟨3, 4⟩⟩, rfl, rfl⟩
    let right : Item := .statement ⟨[number], semicolon, by decide, rfl⟩
    let wrong : Item := .statement
      ⟨[⟨.letWord, "let", none, 2, ⟨5, 8⟩⟩, number, ⟨.fnWord, "fn", none, 2, ⟨9, 11⟩⟩], semicolon,
        by decide, rfl⟩
    let items := [right, .block braces [right, .block braces [wrong, right], right], right]
    ofTokens? (Item.tokensOfAll items ++ [.ending 3 12]) = .error (Item.faultsOfAll items) ∧
      (Item.faultsOfAll items).map (·.cause) =
        [.parse .expectedVariableName, .parse .expectedParenAfterFn] := by
  intro number semicolon braces right wrong items
  have hshallow : ∀ d ∈ (read (Item.tokensOfAll items ++ [.ending 3 12])).diagnostics,
      d.cause ≠ .parse .tooMuchNesting := by
    decide +kernel
  have hfaults : ¬ (Item.faultsOfAll items).isEmpty := by decide +kernel
  have hitems := ofTokens?_items items [.ending 3 12] (by simp [Token.ending]) fun ds hds => by
    unfold ofTokens? result at hds
    split at hds
    · cases hds
    · exact Except.error.inj hds ▸ hshallow
  rw [if_neg hfaults] at hitems
  exact ⟨hitems, by decide +kernel⟩

end Scripting
