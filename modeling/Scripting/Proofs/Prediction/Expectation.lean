import Scripting.Proofs.Confinement.Comparison
import Scripting.Proofs.Prediction.Grammar

/-!
# What a reading tells of the texts that were possible

* `Feasible`, `Avoids` : a language has a text, and none that begins with certain kinds;
* `Leads W us k V`, `Stops W us k` : behind `us`, and with `k` next, the texts of `W` go on as those
  of `V`, or not at all;
* `Diagnostic.sideCondition`, `Reading.trouble?` : the faults of which the grammar knows nothing,
  and the first of the others;
* `Expects next n W p V` : on fewer than `n` tokens, the next with `next`, of which the parser `p`
  is to read the beginning of a text of `W`, it leaves the beginning of one of `V`, or finds its
  first trouble at the first token with which no text of `W` goes on (`Expects.bind`, and one lemma
  for each parser).

The languages are those of everything up to the end of the text, not of the part that a parser
reads: so what may stand behind the part is told by `W` and `V` alone.
-/

namespace Scripting

set_option autoImplicit false

open Scripting.Parser
open scoped Computability

namespace Prediction

/-! ## Languages -/

section

variable {A B W : Language Kind} {p q : Kind → Bool} {k : Kind} {ks : List Kind}

/-- There is a text. -/
def Feasible (W : Language Kind) : Prop := ∃ w, w ∈ W

@[simp] theorem feasible_one : Feasible 1 := ⟨[], Language.nil_mem_one⟩

@[simp] theorem feasible_letters_cons : Feasible (letters (k :: ks)) :=
  ⟨[k], k, List.mem_cons_self, rfl⟩

@[simp] theorem feasible_part (n : Nonterminal) : Feasible (Ebnf.part n).texts :=
  Ebnf.exists_writes_part n

@[simp] theorem feasible_kstar : Feasible A∗ := ⟨[], Language.nil_mem_kstar A⟩

@[simp] theorem feasible_add : Feasible (A + B) ↔ Feasible A ∨ Feasible B := by
  simp only [Feasible, Language.mem_add, exists_or]

@[simp] theorem feasible_mul : Feasible (A * B) ↔ Feasible A ∧ Feasible B := by
  constructor
  · rintro ⟨w, hw⟩
    obtain ⟨a, ha, b, hb, -⟩ := Language.mem_mul.1 hw
    exact ⟨⟨a, ha⟩, b, hb⟩
  · rintro ⟨⟨a, ha⟩, b, hb⟩
    exact ⟨a ++ b, Language.append_mem_mul ha hb⟩

/-- No text begins with a kind that has the property `p`. -/
def Avoids (W : Language Kind) (p : Kind → Bool) : Prop := ∀ k w, k :: w ∈ W → p k = false

theorem Avoids.mono (h : Avoids W p) (hqp : ∀ k, q k = true → p k = true) : Avoids W q := by
  intro k w hw
  cases hq : q k with
  | false => rfl
  | true => exact absurd (h k w hw) (by simp [hqp k hq])

theorem Avoids.add (hA : Avoids A p) (hB : Avoids B p) : Avoids (A + B) p := by
  intro k w hw
  rcases (Language.mem_add _ _ _).1 hw with h | h
  · exact hA k w h
  · exact hB k w h

theorem cons_mem_letters_mul {w : List Kind} : k :: w ∈ letters ks * W ↔ k ∈ ks ∧ w ∈ W := by
  rw [Language.mem_mul]
  constructor
  · rintro ⟨_, ⟨k', hk', rfl⟩, w', hw', heq⟩
    obtain ⟨rfl, rfl⟩ := List.cons.inj heq
    exact ⟨hk', hw'⟩
  · rintro ⟨hk, hw⟩
    exact ⟨[k], ⟨k, hk, rfl⟩, w, hw, rfl⟩

theorem avoids_letters_mul (h : ∀ k ∈ ks, p k = false) : Avoids (letters ks * W) p :=
  fun k _ hw => h k (cons_mem_letters_mul.1 hw).1

theorem avoids_texts_mul {e : Ebnf} (hnull : e.nullable = false)
    (h : ∀ k, e.starts k = true → p k = false) : Avoids (e.texts * W) p := by
  intro k w hw
  rcases Ebnf.starts_of_mem hw with hstarts | ⟨hnull', -⟩
  · exact h k hstarts
  · simp [hnull] at hnull'

/-- Nothing, or one time and then the same again. -/
theorem kstar_mul (A W : Language Kind) : A∗ * W = A * (A∗ * W) + W := by
  conv_lhs => rw [← Language.one_add_self_mul_kstar_eq_kstar, add_mul, one_mul, mul_assoc]
  exact add_comm _ _

end

/-- Behind `us`, the texts of `W` go on as those of `V`, if the next kind is `k`. -/
structure Leads (W : Language Kind) (us : List Kind) (k : Kind) (V : Language Kind) : Prop where
  sound : ∀ w ∈ V, us ++ w ∈ W
  complete : ∀ w, us ++ k :: w ∈ W → k :: w ∈ V

/-- A text of `W` may begin with `us`, but none does with `k` behind it. -/
structure Stops (W : Language Kind) (us : List Kind) (k : Kind) : Prop where
  viable : ∃ w, us ++ w ∈ W
  dead : ∀ w, us ++ k :: w ∉ W

section

variable {B W V U : Language Kind} {us vs : List Kind} {k k' : Kind}

theorem Leads.trans (h : Leads W us k V) (h' : Leads V vs k' U)
    (hk : ∀ w, ∃ w', vs ++ k' :: w = k :: w') : Leads W (us ++ vs) k' U where
  sound w hw := by
    rw [List.append_assoc]
    exact h.sound _ (h'.sound w hw)
  complete w hw := by
    obtain ⟨w', hw'⟩ := hk w
    rw [List.append_assoc, hw'] at hw
    exact h'.complete w (hw' ▸ h.complete _ hw)

theorem Leads.stops (h : Leads W us k V) (h' : Stops V vs k')
    (hk : ∀ w, ∃ w', vs ++ k' :: w = k :: w') : Stops W (us ++ vs) k' where
  viable := by
    obtain ⟨w, hw⟩ := h'.viable
    exact ⟨w, by rw [List.append_assoc]; exact h.sound _ hw⟩
  dead w hw := by
    obtain ⟨w', hw'⟩ := hk w
    rw [List.append_assoc, hw'] at hw
    exact h'.dead w (hw' ▸ h.complete _ hw)

end

end Prediction

/-! ## Faults -/

/-- The faults in what the grammar does not require. -/
def ParseFault.sideCondition : ParseFault → Bool
  | invalidAssignmentTarget | tooManyParameters | tooManyArguments => true
  | _ => false

/-- The diagnostic is of something that the grammar does not require. -/
def Diagnostic.sideCondition (d : Diagnostic) : Bool :=
  match d.cause with
  | .parse fault => fault.sideCondition
  | _ => false

/-- The first fault in what the grammar requires. -/
def Reading.trouble? {α : Type} (r : Reading α) : Option Diagnostic :=
  r.faults.find? fun d => !d.sideCondition

/-- Numbers and strings have a value. -/
def Token.Valued (t : Token) : Prop :=
  t.kind = .int ∨ t.kind = .float ∨ t.kind = .string → t.literal.isSome = true

namespace Prediction

variable {α β ω : Type} {P : Token → Prop} {n m : Nat} {W V U A B : Language Kind}

/-- The trouble in two parts is that of the first, if there is some. -/
theorem trouble?_bind_of_some {p : Parser α} {f : α → Parser β} {s : Surroundings}
    {ts : List Token} {d : Diagnostic} (h : (p s ts).trouble? = some d) :
    (bind p f s ts).trouble? = some d := by
  rw [run_bind]
  rcases hp : p s ts with ⟨e | a, rest, reports⟩
  · rwa [hp] at h
  · rw [hp] at h
    simp only [Reading.trouble?, Reading.faults, List.append_nil] at h
    simp [Reading.trouble?, Reading.faults, h]

/-- The trouble in two parts is that of the second, if the first has none. -/
theorem trouble?_bind_of_ok {p : Parser α} {f : α → Parser β} {s : Surroundings}
    {ts rest : List Token} {a : α} {reports : List Diagnostic}
    (hp : p s ts = ⟨.ok a, rest, reports⟩) (h : (p s ts).trouble? = none) :
    (bind p f s ts).trouble? = (f a s rest).trouble? := by
  rw [hp] at h
  simp only [Reading.trouble?, Reading.faults, List.append_nil] at h
  rw [run_bind, hp]
  simp [Reading.trouble?, Reading.faults, h]

/-! ## Expectations -/

/-- The reading `r` of the tokens `ts`, from which the texts of `W` were possible, found no trouble,
and those of `V` are possible behind what it took; or its first trouble is where no text of `W` goes
on, or it is that constructs lie too deep in each other. -/
inductive Foretells (W V : Language Kind) (ending : Token) (ts : List Token) (r : Reading α) : Prop
  | leads {a : α} (us : List Token) (trouble : r.trouble? = none) (result : r.result = .ok a)
      (split : ts = us ++ r.rest)
      (texts : Leads W (us.map Token.kind) (r.rest.headD ending).kind V)
  | stops (us vs : List Token) (fault : ParseFault)
      (trouble : r.trouble? = some (.atToken (.parse fault) (vs.headD ending)))
      (split : ts = us ++ vs) (texts : Stops W (us.map Token.kind) (vs.headD ending).kind)
  | deep {d : Diagnostic} (trouble : r.trouble? = some d) (cause : d.cause = .parse .tooMuchNesting)

/-- What has to hold of the surroundings and the tokens ahead. -/
structure Ready (n : Nat) (s : Surroundings) (ts : List Token) : Prop where
  ending : s.ending.kind = .endOfInput
  depth : s.depth ≤ maxNesting
  valued : ∀ t ∈ ts, t.Valued
  short : ts.length < n

/-- On fewer than `n` tokens, the next with `next`, with the texts of `W` possible, the parser tells
where trouble is, and leaves those of `V`. -/
def Expects (next : Token → Prop) (n : Nat) (W : Language Kind) (p : Parser α)
    (V : Language Kind) : Prop :=
  ∀ s ts, Ready n s ts → next (ts.headD s.ending) → Foretells W V s.ending ts (p s ts)

/-- The parser does so whatever the next token is. -/
abbrev ExpectsAll (n : Nat) (W : Language Kind) (p : Parser α) (V : Language Kind) : Prop :=
  Expects (fun _ => True) n W p V

theorem Ready.behind {s : Surroundings} {us vs : List Token} (h : Ready n s (us ++ vs)) :
    Ready n s vs where
  ending := h.ending
  depth := h.depth
  valued t ht := h.valued t (List.mem_append_right us ht)
  short := by have := h.short; simp only [List.length_append] at this; omega

theorem Ready.tail {s : Surroundings} {t : Token} {ts : List Token} (h : Ready n s (t :: ts)) :
    Ready (n - 1) s ts where
  ending := h.ending
  depth := h.depth
  valued u hu := h.valued u (List.mem_cons_of_mem t hu)
  short := by have := h.short; simp only [List.length_cons] at this; omega

theorem Ready.fewer {s : Surroundings} {ts : List Token} (h : Ready m s ts) (hmn : m ≤ n) :
    Ready n s ts :=
  ⟨h.ending, h.depth, h.valued, Nat.lt_of_lt_of_le h.short hmn⟩

/-- The next token has its value, as the one that stands for the end has. -/
theorem Ready.valued_next {s : Surroundings} {ts : List Token} (h : Ready n s ts) :
    (ts.headD s.ending).Valued := by
  cases ts with
  | nil => exact fun hk => by simp [h.ending] at hk
  | cons t ts => exact h.valued t List.mem_cons_self

/-- What was taken and the next kind begin with the kind that was next before. -/
theorem exists_next (ending : Token) {ts us vs : List Token} (h : ts = us ++ vs) (w : List Kind) :
    ∃ w', us.map Token.kind ++ (vs.headD ending).kind :: w = (ts.headD ending).kind :: w' := by
  subst h
  cases us with
  | nil => exact ⟨w, rfl⟩
  | cons u us => exact ⟨us.map Token.kind ++ (vs.headD ending).kind :: w, rfl⟩

theorem Expects.fewer {p : Parser α} (h : Expects P n W p V) (hmn : m ≤ n) : Expects P m W p V :=
  fun s ts hts hnext => h s ts (hts.fewer hmn) hnext

theorem ExpectsAll.next {p : Parser α} (h : ExpectsAll n W p V) : Expects P n W p V :=
  fun s ts hts _ => h s ts hts trivial

/-- Texts that do not begin with the next token make no difference. -/
theorem Expects.widen {p : Parser α} (h : Expects P n B p V) (hle : ∀ w ∈ B, w ∈ W)
    (hnext : ∀ t, P t → ∀ w, t.kind :: w ∈ W → t.kind :: w ∈ B) : Expects P n W p V := by
  intro s ts hts ht
  have hback : ∀ {us vs : List Token} {w : List Kind}, ts = us ++ vs →
      us.map Token.kind ++ (vs.headD s.ending).kind :: w ∈ W →
      us.map Token.kind ++ (vs.headD s.ending).kind :: w ∈ B := by
    intro us vs w hsplit hw
    obtain ⟨w', hw'⟩ := exists_next s.ending hsplit w
    rw [hw'] at hw ⊢
    exact hnext _ ht _ hw
  cases h s ts hts ht with
  | leads us trouble result split texts =>
    exact .leads us trouble result split
      ⟨fun w hw => hle _ (texts.sound w hw), fun w hw => texts.complete w (hback split hw)⟩
  | stops us vs fault trouble split texts =>
    obtain ⟨w, hw⟩ := texts.viable
    exact .stops us vs fault trouble split
      ⟨⟨w, hle _ hw⟩, fun w hw => texts.dead w (hback split hw)⟩
  | deep trouble cause => exact .deep trouble cause

/-! ## Sequences -/

/-- What is foretold behind tokens that were taken. -/
theorem Foretells.behind {ending : Token} (us : List Token) {rest : List Token}
    {r r' : Reading α} (texts : Leads W (us.map Token.kind) (rest.headD ending).kind V)
    (h : Foretells V U ending rest r) (trouble : r'.trouble? = r.trouble?)
    (result : r'.result = r.result) (left : r'.rest = r.rest) :
    Foretells W U ending (us ++ rest) r' := by
  cases h with
  | leads vs trouble' result' split' texts' =>
    refine .leads (us ++ vs) (trouble.trans trouble') (result.trans result') ?_ ?_
    · rw [left, List.append_assoc, ← split']
    · rw [left, List.map_append]
      exact texts.trans texts' (exists_next ending split')
  | stops vs ws fault trouble' split' texts' =>
    refine .stops (us ++ vs) ws fault (trouble.trans trouble') ?_ ?_
    · rw [List.append_assoc, ← split']
    · rw [List.map_append]
      exact texts.stops texts' (exists_next ending split')
  | deep trouble' cause => exact .deep (trouble.trans trouble') cause

theorem expects_pure (a : α) : Expects P n V (pure a) V :=
  fun _ _ _ _ => .leads [] rfl rfl rfl ⟨fun _ hw => hw, fun _ hw => hw⟩

/-- Two parts, where what is expected of the second may depend on what the first has taken. -/
theorem Expects.bind_behind {p : Parser α} {f : α → Parser β} (h : Expects P n W p V)
    (hf : ∀ s us rest a reports, Ready n s (us ++ rest) → P ((us ++ rest).headD s.ending) →
      p s (us ++ rest) = ⟨.ok a, rest, reports⟩ → Foretells V U s.ending rest (f a s rest)) :
    Expects P n W (p >>= f) U := by
  intro s ts hts hnext
  cases h s ts hts hnext with
  | stops us vs fault trouble split texts =>
    exact .stops us vs fault (trouble?_bind_of_some trouble) split texts
  | deep trouble cause => exact .deep (trouble?_bind_of_some trouble) cause
  | leads us trouble result split texts =>
    rcases hp : p s ts with ⟨e | a, rest, reports⟩
    · simp [hp] at result
    have hr := trouble?_bind_of_ok (f := f) hp trouble
    rw [hp] at split texts
    simp only at split texts
    subst split
    refine (hf s us rest a reports hts hnext hp).behind us texts hr ?_ ?_
    all_goals rw [run_bind, hp]

theorem Expects.bind {p : Parser α} {f : α → Parser β} (h : Expects P n W p V)
    (hf : ∀ a, ExpectsAll n V (f a) U) : Expects P n W (p >>= f) U :=
  h.bind_behind fun s _ rest a _ hts _ _ => hf a s rest hts.behind trivial

/-- A second part behind a first that takes a token if there is one. -/
theorem Expects.bind_taking {p : Parser α} {f : α → Parser β} (h : Expects P n W p V)
    (htakes : ∀ s ts, Ready n s ts → P (ts.headD s.ending) → (p s ts).rest.length < ts.length)
    (hf : ∀ a, ExpectsAll (n - 1) V (f a) U) : Expects P n W (p >>= f) U := by
  refine h.bind_behind fun s us rest a reports hts hnext hp => hf a s rest ?_ trivial
  have hlen := htakes s _ hts hnext
  rw [hp] at hlen
  have := hts.short
  exact ⟨hts.ending, hts.depth, hts.behind.valued, by simp only at hlen; omega⟩

/-! ## The next token -/

/-- Behind a look at the next token, what is read begins with it. -/
theorem expects_peek_bind {f : Token → Parser α}
    (h : ∀ t, P t → t.Valued → Expects (· = t) n W (f t) V) : Expects P n W (peek >>= f) V := by
  intro s ts hts hnext
  rw [run_bind]
  simp only [peek, List.nil_append]
  exact h _ hnext hts.valued_next s ts hts rfl

/-- Behind the token `t`, the texts of `W` go on as those of `V`. -/
theorem Foretells.behind_cons {ending t : Token} {ts : List Token} {r : Reading α}
    (h : Foretells V U ending ts r) (hW : ∀ w, t.kind :: w ∈ W ↔ w ∈ V) :
    Foretells W U ending (t :: ts) r :=
  h.behind [t] ⟨fun w hw => (hW w).2 hw, fun _ hw => (hW _).1 hw⟩ rfl rfl rfl

/-- The next token can be dropped if texts begin with it. -/
theorem expects_skip_bind {t : Token} (ht : t.kind ≠ .endOfInput)
    (hW : ∀ w, t.kind :: w ∈ W ↔ w ∈ V) {f : Unit → Parser α} (h : ExpectsAll (n - 1) V (f ()) U) :
    Expects (· = t) n W (skip >>= f) U := by
  intro s ts hts hnext
  cases ts with
  | nil => exact absurd hts.ending (by rwa [← hnext] at ht)
  | cons u ts =>
    obtain rfl : u = t := hnext
    exact (h s ts hts.tail trivial).behind_cons hW

/-- Two ways on, one behind the next token and one before it. -/
theorem expects_accept?_bind {op? : Kind → Option ω} {f : Option (ω × Token) → Parser α}
    (hend : op? .endOfInput = none)
    (hW : ∀ k, (op? k).isSome = true → ∀ w, k :: w ∈ W ↔ w ∈ V)
    (hsome : ∀ x, ExpectsAll (n - 1) V (f (some x)) U)
    (hnone : Expects (fun t => P t ∧ op? t.kind = none) n W (f none) U) :
    Expects P n W (accept? op? >>= f) U := by
  intro s ts hts hnext
  cases ts with
  | nil => exact hnone s [] hts ⟨hnext, by simpa [hts.ending] using hend⟩
  | cons t ts =>
    rw [run_bind]
    simp only [accept?]
    cases hop : op? t.kind with
    | none => exact hnone s (t :: ts) hts ⟨hnext, hop⟩
    | some op =>
      exact (hsome (op, t) s ts hts.tail trivial).behind_cons (hW t.kind (by simp [hop]))

theorem expects_accept_bind {kind : Kind} {f : Option Token → Parser α}
    (hkind : kind ≠ .endOfInput) (hW : ∀ w, kind :: w ∈ W ↔ w ∈ V)
    (hsome : ∀ t, ExpectsAll (n - 1) V (f (some t)) U)
    (hnone : Expects (fun t => P t ∧ t.kind ≠ kind) n W (f none) U) :
    Expects P n W (accept kind >>= f) U := by
  intro s ts hts hnext
  cases ts with
  | nil => exact hnone s [] hts ⟨hnext, by simpa [hts.ending] using hkind.symm⟩
  | cons t ts =>
    rw [run_bind]
    simp only [accept]
    by_cases hk : t.kind = kind
    · simp only [if_pos hk]
      exact (hsome t s ts hts.tail trivial).behind_cons (hk ▸ hW)
    · simp only [if_neg hk]
      exact hnone s (t :: ts) hts ⟨hnext, hk⟩

/-- An operator that may be next, where nothing else begins with one. -/
theorem expects_operator_bind {op? : Kind → Option ω} {ks : List Kind}
    {f : Option (ω × Token) → Parser α} (hks : ∀ k, k ∈ ks ↔ (op? k).isSome = true)
    (hend : .endOfInput ∉ ks) (hB : Avoids B (· ∈ ks))
    (hsome : ∀ x, ExpectsAll (n - 1) V (f (some x)) U)
    (hnone : Expects (fun t => P t ∧ t.kind ∉ ks) n B (f none) U) :
    Expects P n (letters ks * V + B) (accept? op? >>= f) U := by
  refine expects_accept?_bind (by simpa [hks] using hend) (fun k hk w => ?_) hsome ?_
  · rw [Language.mem_add, cons_mem_letters_mul]
    have hk' := (hks k).2 hk
    refine ⟨fun h => h.elim And.right fun h => ?_, fun h => .inl ⟨hk', h⟩⟩
    simpa [hk'] using hB k w h
  · intro s ts hts hnext
    have hnot : (ts.headD s.ending).kind ∉ ks := by rw [hks, hnext.2]; simp
    refine Expects.widen (P := fun t => P t ∧ t.kind ∉ ks) hnone
      (fun w hw => (Language.mem_add _ _ _).2 (.inr hw)) (fun t ht w hw => ?_) s ts hts
      ⟨hnext.1, hnot⟩
    exact ((Language.mem_add _ _ _).1 hw).resolve_left fun h => ht.2 (cons_mem_letters_mul.1 h).1

/-- A token that may be next, where nothing else begins with it. -/
theorem expects_optional_bind {kind : Kind} {f : Option Token → Parser α}
    (hkind : kind ≠ .endOfInput) (hB : Avoids B (· = kind))
    (hsome : ∀ t, ExpectsAll (n - 1) V (f (some t)) U)
    (hnone : Expects (fun t => P t ∧ t.kind ≠ kind) n B (f none) U) :
    Expects P n (letters [kind] * V + B) (accept kind >>= f) U := by
  refine expects_accept_bind hkind (fun w => ?_) hsome (hnone.widen
    (fun w hw => (Language.mem_add _ _ _).2 (.inr hw)) fun t ht w hw => ?_)
  · rw [Language.mem_add, cons_mem_letters_mul]
    refine ⟨fun h => h.elim And.right fun h => ?_, fun h => .inl ⟨List.mem_singleton_self _, h⟩⟩
    simpa using hB kind w h
  · exact ((Language.mem_add _ _ _).1 hw).resolve_left fun h =>
      ht.2 (List.mem_singleton.1 (cons_mem_letters_mul.1 h).1)

/-! ## Faults -/

theorem expects_failAt {fault : ParseFault} {t : Token} (hfault : fault.sideCondition = false)
    (hW : Feasible W) (hdead : ∀ w, t.kind :: w ∉ W) :
    Expects (· = t) n W (failAt fault t : Parser α) U := by
  intro s ts hts ht
  refine .stops [] ts fault ?_ rfl ⟨hW, ?_⟩
  · subst ht
    simp [Reading.trouble?, Reading.faults, failAt, Diagnostic.sideCondition, Diagnostic.atToken,
      Diagnostic.pointingAt, hfault]
  · rw [ht]
    exact hdead

theorem expects_fail {fault : ParseFault} (hfault : fault.sideCondition = false)
    (hW : Feasible W) (hdead : ∀ t, P t → ∀ w, t.kind :: w ∉ W) :
    Expects P n W (fail fault : Parser α) U :=
  expects_peek_bind fun t ht _ => expects_failAt hfault hW (hdead t ht)

theorem expects_reportAt {fault : ParseFault} (hfault : fault.sideCondition = true) (t : Token) :
    Expects P n W (reportAt fault t) W :=
  fun _ _ _ _ => .leads []
    (by simp [Reading.trouble?, Reading.faults, reportAt, Diagnostic.sideCondition,
      Diagnostic.atToken, Diagnostic.pointingAt, hfault]) rfl rfl ⟨fun _ hw => hw, fun _ hw => hw⟩

/-- What is read behind a token that must be there. -/
theorem consume_bind_eq (kind : Kind) (fault : ParseFault) (f : Token → Parser α) :
    (consume kind fault >>= f) = accept kind >>= fun o =>
      match o with
      | some t => f t
      | none => fail fault := by
  funext s ts
  rcases ts with _ | ⟨t, ts⟩
  · rfl
  · by_cases hk : t.kind = kind
    · simp [consume, accept, hk, bind, pure]
    · simp [consume, accept, hk, bind]
      rfl

/-- A token without which no text goes on. -/
theorem expects_consume_bind {kind : Kind} {fault : ParseFault} {f : Token → Parser α}
    (h : kind ≠ .endOfInput ∧ fault.sideCondition = false) (hV : Feasible V)
    (hf : ∀ t, ExpectsAll (n - 1) V (f t) U) :
    Expects P n (letters [kind] * V) (consume kind fault >>= f) U := by
  rw [consume_bind_eq]
  refine expects_accept_bind h.1 (fun w => by simp [cons_mem_letters_mul]) hf ?_
  refine expects_fail h.2 (by simp [hV]) fun t ht w hw => ?_
  exact ht.2 (List.mem_singleton.1 (cons_mem_letters_mul.1 hw).1)

theorem expects_consume {kind : Kind} {fault : ParseFault}
    (h : kind ≠ .endOfInput ∧ fault.sideCondition = false) (hV : Feasible V) :
    Expects P n (letters [kind] * V) (consume kind fault) V := by
  have hpure : (consume kind fault >>= pure) = consume kind fault := by
    funext s ts
    rw [run_bind]
    rcases consume kind fault s ts with ⟨_ | _, _, _⟩ <;> simp [pure]
  rw [← hpure]
  exact expects_consume_bind h hV fun t => expects_pure t

/-! ## Depth and recovery -/

theorem expects_nested {p : Parser α} (h : ExpectsAll n W p V) : Expects P n W (nested p) V := by
  intro s ts hts _
  by_cases hdeep : maxNesting ≤ s.depth
  · refine .deep (d := .atToken (.parse .tooMuchNesting) (ts.headD s.ending)) ?_ rfl
    simp only [nested, if_pos hdeep]
    rfl
  · simp only [nested, if_neg hdeep]
    exact h { s with depth := s.depth + 1 } ts
      ⟨hts.ending, Nat.lt_of_not_le hdeep, hts.valued, hts.short⟩ trivial

theorem expects_recovering {p : Parser α} (h : Expects P n W p V) :
    Expects P n W (recovering p) V := by
  intro s ts hts hnext
  have hp := h s ts hts hnext
  unfold recovering
  rcases hr : p s ts with ⟨d | a, rest, reports⟩
  all_goals rw [hr] at hp
  · have hfaults : (⟨.ok none, resume rest, reports ++ [d]⟩ : Reading (Option α)).trouble? =
        (⟨.error d, rest, reports⟩ : Reading α).trouble? := by
      simp [Reading.trouble?, Reading.faults]
    cases hp with
    | leads _ _ result => cases result
    | stops us vs fault trouble split texts =>
      exact .stops us vs fault (hfaults.trans trouble) split texts
    | deep trouble cause => exact .deep (hfaults.trans trouble) cause
  · cases hp with
    | leads us trouble _ split texts => exact .leads us trouble rfl split texts
    | stops us vs fault trouble split texts => exact .stops us vs fault trouble split texts
    | deep trouble cause => exact .deep trouble cause

/-! ## Repetition -/

theorem expects_chainFrom {op? : Kind → Option ω} {join : ω → Token → α → α → α} {p : Parser α}
    {ks : List Kind} {b : Nat} (bad : Kind → Bool)
    (hks : ∀ k, k ∈ ks ↔ (op? k).isSome = true) (hend : .endOfInput ∉ ks)
    (hbad : ∀ k ∈ ks, bad k = false)
    (h : ∀ V, Feasible V → Avoids V bad → ExpectsAll n (A * V) p V) (hb : n ≤ b)
    (hV : Feasible V) (hVbad : Avoids V bad) (hVks : Avoids V (· ∈ ks)) (left : α) :
    ExpectsAll n ((letters ks * A)∗ * V) (chainFrom op? join p b left) V := by
  induction b generalizing n left with
  | zero => exact fun _ _ hts _ => absurd hts.short (by omega)
  | succ b ih =>
    have hloop : Avoids ((letters ks * A)∗ * V) bad := by
      rw [kstar_mul, mul_assoc]
      exact (avoids_letters_mul hbad).add hVbad
    have hrest := h ((letters ks * A)∗ * V) (by simp [hV]) hloop
    rw [kstar_mul, mul_assoc, chainFrom]
    refine expects_operator_bind hks hend hVks (fun x => ?_) (expects_pure left)
    refine (hrest.fewer (Nat.sub_le _ _)).bind fun right => ?_
    exact ih (fun V hV hbad => (h V hV hbad).fewer (Nat.sub_le _ _)) (by omega) _

theorem expects_chain {op? : Kind → Option ω} {join : ω → Token → α → α → α} {p : Parser α}
    {ks : List Kind} {b : Nat} (bad : Kind → Bool)
    (hks : ∀ k, k ∈ ks ↔ (op? k).isSome = true) (hend : .endOfInput ∉ ks)
    (hbad : ∀ k ∈ ks, bad k = false)
    (h : ∀ V, Feasible V → Avoids V bad → ExpectsAll n (A * V) p V) (hb : n ≤ b)
    (hV : Feasible V) (hVbad : Avoids V bad) (hVks : Avoids V (· ∈ ks)) :
    ExpectsAll n (A * ((letters ks * A)∗ * V)) (chain b op? join p) V := by
  refine (h _ (by simp [hV]) ?_).bind fun left =>
    expects_chainFrom bad hks hend hbad h hb hV hVbad hVks left
  rw [kstar_mul, mul_assoc]
  exact (avoids_letters_mul hbad).add hVbad

/-- Items with commas between them, before something that begins with no comma. -/
theorem expects_itemsFrom {p : Parser α} {tooMany : ParseFault} {b : Nat} (bad : Kind → Bool)
    (hmany : tooMany.sideCondition = true) (hcomma : bad .comma = false)
    (h : ∀ V, Feasible V → Avoids V bad → ExpectsAll n (A * V) p V) (hb : n ≤ b)
    (hV : Feasible V) (hVbad : Avoids V bad) (hVcomma : Avoids V (· = .comma)) (count : Nat) :
    ExpectsAll n (A * ((letters [.comma] * A)∗ * V)) (itemsFrom p tooMany b count) V := by
  induction b generalizing n count with
  | zero => exact fun _ _ hts _ => absurd hts.short (by omega)
  | succ b ih =>
    have hloop : Avoids ((letters [.comma] * A)∗ * V) bad := by
      rw [kstar_mul, mul_assoc]
      exact (avoids_letters_mul (by simpa using hcomma)).add hVbad
    have turn : ExpectsAll n (A * ((letters [.comma] * A)∗ * V)) (do
        let first ← p
        match ← accept .comma with
        | some _ =>
          let others ← itemsFrom p tooMany b (count + 1)
          pure (first :: others)
        | none => pure [first]) V := by
      refine (h _ (by simp [hV]) hloop).bind fun first => ?_
      rw [kstar_mul, mul_assoc]
      refine expects_optional_bind (by decide) hVcomma (fun _ => ?_) (expects_pure _)
      exact (ih (fun V hV hbad => (h V hV hbad).fewer (Nat.sub_le _ _)) (by omega) _).bind
        fun _ => expects_pure _
    rw [itemsFrom]
    split
    · exact expects_peek_bind fun t _ _ => (expects_reportAt hmany t).bind fun _ => turn
    · exact turn

/-- No items or some before a closing parenthesis, with which no item begins. -/
theorem expects_items {p : Parser α} {tooMany : ParseFault} {b : Nat} (bad : Kind → Bool)
    (hmany : tooMany.sideCondition = true) (hcomma : bad .comma = false)
    (hparen : bad .rightParen = false) (hA : ∀ W, Avoids (A * W) (· = .rightParen))
    (h : ∀ V, Feasible V → Avoids V bad → ExpectsAll n (A * V) p V) (hb : n ≤ b)
    (hV : Feasible V) :
    ExpectsAll n ((A * (letters [.comma] * A)∗ + 1) * (letters [.rightParen] * V))
      (items b p tooMany) (letters [.rightParen] * V) := by
  rw [add_mul, one_mul, mul_assoc]
  refine expects_peek_bind fun t _ _ => ?_
  split
  · rename_i hk
    refine (expects_pure _).widen (fun w hw => (Language.mem_add _ _ _).2 (.inr hw)) ?_
    rintro _ rfl w hw
    refine ((Language.mem_add _ _ _).1 hw).resolve_left fun h => ?_
    simpa [hk] using hA _ _ _ h
  · rename_i hk
    refine ((expects_itemsFrom bad hmany hcomma h hb (by simp [hV])
      (avoids_letters_mul (by simpa using hparen)) (avoids_letters_mul (by simp)) 0).next).widen
      (fun w hw => (Language.mem_add _ _ _).2 (.inl hw)) ?_
    rintro _ rfl w hw
    refine ((Language.mem_add _ _ _).1 hw).resolve_right fun h => hk ?_
    exact List.mem_singleton.1 (cons_mem_letters_mul.1 h).1

/-- The kinds before which there are no more declarations. -/
def closes (inBlock : Bool) (k : Kind) : Bool := k = .endOfInput || inBlock && k = .rightBrace

/-- Declarations before something that ends them, with which no declaration begins. -/
theorem expects_declarations {p : Parser (Option α)} {inBlock : Bool} {b : Nat} (bad : Kind → Bool)
    (hA : ∀ W, Avoids (A * W) (closes inBlock)) (hAbad : ∀ W, Avoids (A * W) bad)
    (h : ∀ V, Feasible V → Avoids V bad → ExpectsAll n (A * V) p V)
    (htakes : ∀ s ts, Ready n s ts → (ts.headD s.ending).kind ≠ .endOfInput →
      (p s ts).rest.length < ts.length) (hb : n ≤ b)
    (hV : Feasible V) (hVbad : Avoids V bad) (hVcloses : Avoids V (!closes inBlock ·)) :
    ExpectsAll n (A∗ * V) (declarations p inBlock b) V := by
  induction b generalizing n with
  | zero => exact fun _ _ hts _ => absurd hts.short (by omega)
  | succ b ih =>
    rw [kstar_mul, declarations]
    refine expects_peek_bind fun t _ _ => ?_
    have hcloses : (t.kind = .endOfInput ∨ inBlock = true ∧ t.kind = .rightBrace) ↔
        closes inBlock t.kind = true := by
      simp [closes]
    split
    · rename_i hstop
      refine (expects_pure _).widen (fun w hw => (Language.mem_add _ _ _).2 (.inr hw)) ?_
      rintro _ rfl w hw
      exact ((Language.mem_add _ _ _).1 hw).resolve_left fun h =>
        absurd (hA _ _ _ h) (by simp [hcloses.1 hstop])
    · rename_i hgo
      refine Expects.widen (B := A * (A∗ * V)) ?_
        (fun w hw => (Language.mem_add _ _ _).2 (.inl hw)) ?_
      · have hloop : Avoids (A∗ * V) bad := by
          rw [kstar_mul]
          exact (hAbad _).add hVbad
        refine (h _ (by simp [hV]) hloop).next.bind_taking (fun s ts hts ht => ?_) fun first => ?_
        · exact htakes s ts hts fun hk => hgo (.inl (ht ▸ hk))
        · refine (ih (fun V hV hbad => (h V hV hbad).fewer (Nat.sub_le _ _)) (fun s ts hts => ?_)
            (by omega)).bind fun others => expects_pure _
          exact htakes s ts (hts.fewer (Nat.sub_le _ _))
      · rintro _ rfl w hw
        refine ((Language.mem_add _ _ _).1 hw).resolve_right fun h => hgo (hcloses.2 ?_)
        simpa using hVcloses _ _ h

end Prediction

end Scripting
