import Scripting.Proofs.Confinement.Comparison
import Scripting.Proofs.Grammar.Programs

/-!
# Reading any tokens

* `Within ending whole` : the part of a reading to which it is confined: an end of the tokens
  `whole`, and no more than `maxNesting` open constructs;
* `Rules.confined within wild n` : the rules of level `n`, with rules that do anything whatever in
  place of all constructs that are not `within`, and of those below the last level;
* `Program.readWith_confined` : these rules read a program like those of its level;
* `Rules.declaration_takes`, `declarations_reach_end` : a turn of the loops takes a token, and the
  outer loop goes on up to the end;
* `Program.read_append_ending`, `Program.read_ending` : what stands behind the first end is not
  read, and a missing end is put behind the last token;
* `Program.read_any` : all of this for any list of tokens.
-/

namespace Scripting

set_option autoImplicit false

open Scripting.Parser

/-! ## Confined rules -/

/-- The surroundings and the tokens ahead to which the reading of `whole` is confined. -/
structure Within (ending : Token) (whole : List Token) (s : Surroundings) (us : List Token) :
    Prop where
  ending_eq : s.ending = ending
  depth_le : s.depth ≤ maxNesting
  suffix : us <:+ whole

instance (ending : Token) (whole : List Token) (s : Surroundings) (us : List Token) :
    Decidable (Within ending whole s us) :=
  decidable_of_iff (s.ending = ending ∧ s.depth ≤ maxNesting ∧ us <:+ whole)
    ⟨fun ⟨h, h', h''⟩ => ⟨h, h', h''⟩, fun ⟨h, h', h''⟩ => ⟨h, h', h''⟩⟩

section

variable (within : Surroundings → List Token → Prop) [∀ s us, Decidable (within s us)]

/-- Reads as `p` does where `within` holds, and as `wild` does elsewhere. -/
def Parser.guarded {α : Type} (p wild : Parser α) : Parser α := fun s us =>
  if within s us then p s us else wild s us

/-- Every rule of `r` guarded by the one of `wild`. -/
def Rules.guarded (r wild : Rules) : Rules where
  bound := r.bound
  expression := r.expression.guarded within wild.expression
  assignment := r.assignment.guarded within wild.assignment
  compound := r.compound.guarded within wild.compound
  unary := r.unary.guarded within wild.unary
  statement := r.statement.guarded within wild.statement
  declaration := r.declaration.guarded within wild.declaration

/-- The rules for constructs that lie in each other, and repeat, up to `n` times, with the rules
`wild` in place of those for more and for what is not `within`. -/
def Rules.confined (wild : Rules) : Nat → Rules
  | 0 => wild
  | n + 1 => (confined wild n).next.guarded within wild

end

/-- Readings with the same surroundings, confined to an end of `whole`; no fault excuses. -/
def Comparison.confined (ending : Token) (whole : List Token) (hend : ending.kind = .endOfInput) :
    Comparison where
  Alike s s' us := s = s' ∧ Within ending whole s us
  Excuse _ := False
  ending := fun ⟨hs, hwithin⟩ => ⟨by rw [hs], by rw [hwithin.ending_eq, hend]⟩
  suffix := fun ⟨hs, hwithin⟩ h =>
    ⟨hs, hwithin.ending_eq, hwithin.depth_le, h.trans hwithin.suffix⟩
  tooDeep := fun ⟨hs, _⟩ h => .inl (hs ▸ h)
  deeper := fun ⟨hs, hwithin⟩ h =>
    ⟨hs ▸ h, by rw [hs], hwithin.ending_eq, Nat.succ_le_of_lt h, hwithin.suffix⟩

section

variable {α : Type} {ending : Token} {whole : List Token} {hend : ending.kind = .endOfInput}

/-- A guard is open wherever confined readings are compared. -/
theorem Comparison.Agree.guarded {P : Token → Prop} {n j : Nat} {p q : Parser α}
    (h : (confined ending whole hend).Agree P n j p q) (wild : Parser α) :
    (confined ending whole hend).Agree P n j p (q.guarded (Within ending whole) wild) := by
  intro s s' us hs hlen hnext
  have hwithin : Within ending whole s' us := hs.1 ▸ hs.2
  simp only [Parser.guarded, if_pos hwithin]
  exact h s s' us hs hlen hnext

variable (ending whole hend) in
/-- The confined rules of a level, or of a higher one, agree with those of the level. -/
theorem Comparison.rulesAgree_confined (wild : Rules) {m n : Nat} (hmn : m ≤ n) :
    (confined ending whole hend).RulesAgree m (Rules.level m)
      (Rules.confined (Within ending whole) wild n) := by
  induction m generalizing n with
  | zero => exact rulesAgree_zero _ _ _
  | succ m ih =>
    cases n with
    | zero => omega
    | succ n =>
      have h := (ih (Nat.le_of_succ_le_succ hmn)).next
      exact
        { bound := h.bound
          expression := h.expression.guarded _
          assignment := h.assignment.guarded _
          compound := h.compound.guarded _
          unary := h.unary.guarded _
          statement := h.statement.guarded _
          declaration := h.declaration.guarded _ }

end

/-- The statements that the tokens `ahead` write by the given rules, and all faults in them. -/
def Program.readWith (rules : Rules) (ending : Token) (ahead : List Token) : Program :=
  let reading := declarations rules.declaration false rules.bound ⟨ending, 0⟩ ahead
  match reading.result with
  | .ok statements => ⟨statements, reading.reports⟩
  | .error d => ⟨[], reading.reports ++ [d]⟩

/-- The rules for what lies outside the tokens, is nested too deep, or repeats more often than there
are tokens do not matter. -/
theorem Program.readWith_confined (ts : List Token) (wild : Rules) {n : Nat}
    (hn : (beforeEnd ts).length + 1 ≤ n) :
    readWith (Rules.confined (Within (endOf ts) (beforeEnd ts)) wild n) (endOf ts)
      (beforeEnd ts) = read ts := by
  have hrules := Comparison.rulesAgree_confined (endOf ts) (beforeEnd ts) (kind_endOf ts) wild hn
  have hsame := Comparison.agree_declarations false hrules.declaration hrules.bound.1 hrules.bound.2
    ⟨endOf ts, 0⟩ ⟨endOf ts, 0⟩ (beforeEnd ts)
    ⟨rfl, rfl, Nat.zero_le _, List.suffix_refl _⟩ (Nat.lt_succ_self _) trivial
  rcases hsame with ⟨_, _, hexcuse⟩ | ⟨heq, -, -⟩
  · exact hexcuse.elim
  · change readWith _ _ _ = readWith (Rules.level ((beforeEnd ts).length + 1)) _ _
    simp only [readWith, heq]

/-! ## Turns of the loops -/

/-- A declaration takes a token, whether it is read or skipped for a fault. -/
theorem Rules.declaration_takes {n : Nat} {s : Surroundings} {us : List Token}
    (hend : s.ending.kind = .endOfInput) (hdepth : s.depth ≤ maxNesting) (hlen : us.length < n)
    (hnext : (us.headD s.ending).kind ≠ .endOfInput) :
    ∃ o taken, ((level n).declaration s us).result = .ok o ∧ taken ≠ [] ∧
      us = taken ++ ((level n).declaration s us).rest := by
  have hrules := Comparison.rulesAgree_confined s.ending us hend (level n) (Nat.le_refl n)
  obtain ⟨o, ho⟩ : ∃ o, ((level n).declaration s us).result = .ok o := by
    cases n with
    | zero => omega
    | succ n =>
      rw [level_succ]
      simp only [next, Production.declaration, recovering]
      split <;> exact ⟨_, rfl⟩
  rcases hrules.declaration s s us ⟨rfl, rfl, hdepth, List.suffix_refl _⟩ hlen hnext with
    ⟨_, _, hexcuse⟩ | ⟨heq, hrest, htaken⟩
  · exact hexcuse.elim
  · rw [← heq] at hrest htaken
    obtain ⟨taken, htaken'⟩ := hrest
    refine ⟨o, taken, ho, ?_, htaken'.symm⟩
    rintro rfl
    have := htaken o ho
    rw [List.nil_append] at htaken'
    rw [htaken'] at this
    omega

/-- Outside blocks, the declarations are read up to the end of the tokens. -/
theorem declarations_reach_end {n b : Nat} {s : Surroundings} {us : List Token}
    (hend : s.ending.kind = .endOfInput) (hdepth : s.depth ≤ maxNesting)
    (hus : ∀ t ∈ us, t.kind ≠ .endOfInput) (hlen : us.length < n) (hb : us.length < b) :
    ∃ body reports,
      declarations (Rules.level n).declaration false b s us = ⟨.ok body, [], reports⟩ := by
  induction b generalizing us with
  | zero => omega
  | succ b ih =>
    rw [declarations, run_bind]
    simp only [peek]
    cases us with
    | nil =>
      simp only [List.headD_nil, hend, true_or, if_true]
      exact ⟨[], [], rfl⟩
    | cons t us =>
      have ht := hus t List.mem_cons_self
      obtain ⟨o, taken, ho, hne, hus'⟩ := Rules.declaration_takes hend hdepth hlen ht
      simp only [List.headD_cons, ht, false_and, or_false, if_false, Bool.false_eq_true]
      rw [run_bind]
      rcases hd : (Rules.level n).declaration s (t :: us) with ⟨r, rest, reports⟩
      rw [hd] at ho hus'
      simp only at ho hus'
      subst ho
      have hlength := congrArg List.length hus'
      have := List.length_pos_iff.2 hne
      simp only [List.length_append] at hlength
      have hrest' : ∀ u ∈ rest, u.kind ≠ .endOfInput := fun u hu =>
        hus u (hus' ▸ List.mem_append_right _ hu)
      obtain ⟨body, more, hrest⟩ := ih hrest' (by omega) (by omega)
      simp only [run_bind, hrest]
      exact ⟨_, _, rfl⟩

/-! ## The end of the tokens -/

/-- The place behind the last token: its line and the offset at which it stops. -/
def placeBehind (ts : List Token) : Nat × Nat :=
  match ts.getLast? with
  | some t => (t.line, t.span.stop)
  | none => (1, 0)

section

variable {a : List Token} (ha : ∀ t ∈ a, t.kind ≠ .endOfInput)

include ha

theorem beforeEnd_append {e : Token} (he : e.kind = .endOfInput) (b : List Token) :
    beforeEnd (a ++ e :: b) = a := by
  unfold beforeEnd
  rw [List.takeWhile_append_of_pos (by simpa using ha)]
  simp [he]

theorem endOf_append {e : Token} (he : e.kind = .endOfInput) (b : List Token) :
    endOf (a ++ e :: b) = e := by
  have hfind : a.find? (·.kind = .endOfInput) = none :=
    List.find?_eq_none.2 (by simpa using ha)
  simp [endOf, List.find?_append, hfind, he]

/-- What stands behind the first end is not read. -/
theorem Program.read_append_ending {e : Token} (he : e.kind = .endOfInput) (b : List Token) :
    read (a ++ e :: b) = read (a ++ [e]) := by
  simp only [read, beforeEnd_append ha he, endOf_append ha he]

/-- Tokens without an end are read as if one stood behind the last of them. -/
theorem Program.read_ending :
    read a = read (a ++ [.ending (placeBehind a).1 (placeBehind a).2]) := by
  have hfind : a.find? (·.kind = .endOfInput) = none :=
    List.find?_eq_none.2 (by simpa using ha)
  have hbefore : beforeEnd a = a := by
    have hall : ∀ t ∈ a, decide (t.kind ≠ .endOfInput) = true := by simpa using ha
    have htake : (a ++ []).takeWhile (fun t : Token => t.kind ≠ Kind.endOfInput) = a ++ [] :=
      List.takeWhile_append_of_pos hall
    rwa [List.append_nil] at htake
  have hend : endOf a = .ending (placeBehind a).1 (placeBehind a).2 := by
    unfold endOf placeBehind
    rw [hfind]
    cases a.getLast? <;> rfl
  have hkind : (Token.ending (placeBehind a).1 (placeBehind a).2).kind = .endOfInput := rfl
  simp only [read, hbefore, hend, beforeEnd_append ha hkind, endOf_append ha hkind]

end

/-! ## Any tokens -/

/-- Any list of tokens is read to its end. Nothing outside the tokens before the end is looked at,
nothing is read inside more than `maxNesting` constructs, and the levels suffice, since rules that
do anything whatever in such places make no difference. Each turn of the loops takes a token. The
result is told by the tokens up to the first that stands for the end, and such a token behind the
last one can be left out. -/
theorem Program.read_any (ts : List Token) :
    (∀ (wild : Rules) (n : Nat), (beforeEnd ts).length + 1 ≤ n →
      readWith (Rules.confined (Within (endOf ts) (beforeEnd ts)) wild n) (endOf ts)
        (beforeEnd ts) = read ts) ∧
    (∀ (n : Nat) (s : Surroundings) (us : List Token), Within (endOf ts) (beforeEnd ts) s us →
      us ≠ [] → us.length < n →
        ∃ o taken, ((Rules.level n).declaration s us).result = .ok o ∧ taken ≠ [] ∧
          us = taken ++ ((Rules.level n).declaration s us).rest) ∧
    (∃ body reports,
      declarations (Rules.level ((beforeEnd ts).length + 1)).declaration false
        ((beforeEnd ts).length + 1) ⟨endOf ts, 0⟩ (beforeEnd ts) = ⟨.ok body, [], reports⟩ ∧
      read ts = ⟨body, reports⟩) ∧
    ((∀ t ∈ ts, t.kind ≠ .endOfInput) →
      (∀ (e : Token) (behind : List Token), e.kind = .endOfInput →
        read (ts ++ e :: behind) = read (ts ++ [e])) ∧
      read ts = read (ts ++ [.ending (placeBehind ts).1 (placeBehind ts).2])) := by
  refine ⟨fun wild n hn => readWith_confined ts wild hn, fun n s us hwithin hne hlen => ?_, ?_,
    fun hts => ⟨fun e behind he => read_append_ending hts he behind, read_ending hts⟩⟩
  · refine Rules.declaration_takes (by rw [hwithin.ending_eq, kind_endOf]) hwithin.depth_le hlen ?_
    obtain ⟨t, us, rfl⟩ := List.exists_cons_of_ne_nil hne
    exact kind_ne_of_mem_beforeEnd (hwithin.suffix.subset List.mem_cons_self)
  · obtain ⟨body, reports, hread⟩ := declarations_reach_end (s := ⟨endOf ts, 0⟩) (kind_endOf ts)
      (Nat.zero_le _) (fun _ => kind_ne_of_mem_beforeEnd) (Nat.lt_succ_self (beforeEnd ts).length)
      (Nat.lt_succ_self _)
    refine ⟨body, reports, hread, ?_⟩
    simp only [read, readAhead, Rules.bound_level, hread]

/-- A number without its value and a parenthesis, with places that fit no text. -/
theorem Program.read_any_two :
    let ts : List Token :=
      [⟨.int, "1", none, 7, ⟨9, 3⟩⟩, ⟨.rightParen, ")", none, 2, ⟨5, 6⟩⟩]
    readWith (Rules.confined (Within (endOf ts) (beforeEnd ts)) Rules.ground 3) (endOf ts)
        (beforeEnd ts) = read ts ∧
      (∃ o taken, ((Rules.level 3).declaration ⟨endOf ts, 512⟩ ts).result = .ok o ∧ taken ≠ [] ∧
        ts = taken ++ ((Rules.level 3).declaration ⟨endOf ts, 512⟩ ts).rest) ∧
      read (ts ++ .ending 2 6 :: ts) = read (ts ++ [.ending 2 6]) ∧
      read ts = read (ts ++ [.ending 2 6]) := by
  intro ts
  obtain ⟨hconfined, hturn, -, hends⟩ := read_any ts
  obtain ⟨happend, hending⟩ := hends (by decide)
  exact ⟨hconfined Rules.ground 3 (by decide),
    hturn 3 ⟨endOf ts, 512⟩ ts (by decide) (by decide) (by decide), happend _ ts rfl, hending⟩

end Scripting
