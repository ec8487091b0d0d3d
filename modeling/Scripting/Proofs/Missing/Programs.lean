import Scripting.Proofs.Missing.Brackets
import Scripting.Proofs.Missing.Statements

/-!
# Programs without a semicolon

* `Aftermath` : what may be found in a body of which a semicolon is missing
  (`Grammar.Declarations.aftermath`);
* `InnermostBraces pre post` : the braces around a place, of which there is but one innermost pair
  (`InnermostBraces.unique`);
* `Program.ReadsWithin` : what is read in the innermost braces tells what is found in the program
  (`Program.exists_readsWithin`);
* `Program.missing_semicolon` : the first fault of a program without one of its semicolons is where
  the semicolon is missing, and it is the only one if what is kept of the braces is right;
  `Program.missing_semicolon_last` : there is another one if a closing brace comes next;
  `Program.missing_semicolon_too_deep` : the first one may be further on if two statements that go
  together are nested too deep.
-/

namespace Scripting

set_option autoImplicit false

open Scripting.Parser Scripting.Grammar

/-! ## Bodies -/

/-- What is found in a body of which a semicolon is missing before the tokens `more`, and which
ended before `after`: something is nested too deep; or nothing is found; or there is a fault at
`more` or behind the word for functions there, and then what is found where reading goes on. -/
inductive Aftermath (inBlock : Bool) (s : Surroundings) (more after rest : List Token)
    (reports : List Diagnostic) : Prop
  | deep (h : ∃ d ∈ reports, d.cause = .parse .tooMuchNesting)
  | clean (hrest : rest = after) (hreports : reports = [])
  | fault {left : List Token} {fault : ParseFault} {body : List Stmt} {others : List Diagnostic}
      (hleft : NextOrBehindFn more left)
      (hreports : reports = .atToken (.parse fault) (left.headD s.ending) :: others)
      (goesOn : ReadsBody inBlock s (resume left) body rest others)

theorem Grammar.Declarations.starts {d : Nat} {ts : List Token} {body : List Stmt}
    (h : Declarations d ts body) (hne : ts ≠ []) : StartsWith Kind.startsDeclaration ts := by
  cases h with
  | nil => exact absurd rfl hne
  | cons first => exact first.starts.append

section

variable {e : Token} (hend : e.kind = .endOfInput) {inBlock : Bool} {d : Nat}
  {before behind more rest after : List Token} {body : List Stmt}

theorem Reading.TooDeep.recovered {α : Type} {r : Reading α} (h : r.TooDeep) :
    ∃ d ∈ r.recovered.reports, d.cause = .parse .tooMuchNesting := by
  obtain ⟨d, hd, hcause⟩ := h
  refine ⟨d, ?_, hcause⟩
  rcases r with ⟨_ | _, _, _⟩
  · exact hd
  · simpa [Reading.faults, Reading.recovered] using hd

theorem not_endsBody_of_starts {s : Surroundings} {ts : List Token}
    (h : StartsWith Kind.startsDeclaration ts) : ¬ EndsBody inBlock s ts := by
  obtain ⟨t, us, rfl, ht⟩ := h
  rintro (hk | ⟨-, hk⟩) <;> exact Kind.ne_of_property ht rfl hk

theorem EndsBody.ahead (hafter : EndsBody inBlock ⟨e, d⟩ after) (d' : Nat) :
    Ahead d' after after := by
  cases after with
  | nil => exact .other nofun nofun nofun
  | cons t after =>
    rcases hafter with hkind | ⟨-, hkind⟩ <;>
      (rw [List.headD_cons] at hkind; exact .of_kind (by rw [hkind]; rfl) (by rw [hkind]; rfl)
        (by rw [hkind]; decide))

/-- Declarations and what ends them may stand behind a semicolon. -/
theorem Grammar.Declarations.ahead (h : Declarations d behind body)
    (hafter : EndsBody inBlock ⟨e, d⟩ after) : ∃ others body', Declarations d others body' ∧
      Ahead (d + 1) (behind ++ after) (others ++ after) := by
  cases h with
  | nil => exact ⟨[], [], .nil, hafter.ahead _⟩
  | @cons _ ts us _ _ first others =>
    rw [List.append_assoc]
    exact ⟨us, _, others, first.ahead _⟩

include hend

/-- The declaration with the missing semicolon, and what is read behind it. -/
theorem Mending.aftermath {d' : Nat} (h : Mending Production.declarationForm ⟨e, d⟩ before behind)
    (hbefore : StartsWith Kind.startsDeclaration before) (hmore : Ahead d' more rest)
    (helse : nextKind? rest ≠ some .elseWord)
    (hrest : ReadsBody inBlock ⟨e, d⟩ rest body after []) :
    ∃ body' rest' reports, ReadsBody inBlock ⟨e, d⟩ (before ++ more) body' rest' reports ∧
      Aftermath inBlock ⟨e, d⟩ more after rest' reports := by
  have hopen : ¬ EndsBody inBlock ⟨e, d⟩ (before ++ more) := not_endsBody_of_starts hbefore.append
  obtain ⟨o, mid, reports, hmid, hfirst⟩ :=
    Rules.exists_declaration (s := ⟨e, d⟩) hend fun hk => hopen (.inl hk)
  obtain ⟨body', rest', others, hothers⟩ := exists_readsBody (s := ⟨e, d⟩) hend inBlock mid
  refine ⟨_, rest', _, .cons hopen hfirst hmid hothers, ?_⟩
  have hform : (Production.declarationForm (.level (before ++ more).length) ⟨e, d⟩
      (before ++ more)).recovered = ⟨.ok o, mid, reports⟩ := hfirst _ (Nat.lt_succ_self _)
  cases h.mends (Nat.le_refl _) hmore helse with
  | passes hpasses =>
    rcases hpasses with ⟨st, hr⟩ | hdeep
    · rw [hr] at hform
      simp only [Reading.recovered, Reading.mk.injEq] at hform
      obtain ⟨-, rfl, rfl⟩ := hform
      obtain ⟨-, rfl, rfl⟩ := hothers.unique hrest
      exact .clean rfl rfl
    · obtain ⟨x, hx, hcause⟩ := hdeep.recovered
      rw [hform] at hx
      exact .deep ⟨x, List.mem_append_left _ hx, hcause⟩
  | fails hfails hleft =>
    obtain ⟨fault, hr⟩ := hfails
    rw [hr] at hform
    simp only [Reading.recovered, Reading.mk.injEq, List.nil_append] at hform
    obtain ⟨-, rfl, rfl⟩ := hform
    exact .fault hleft rfl hothers

theorem Grammar.Declarations.readsBody (h : Declarations d before body)
    (hafter : EndsBody inBlock ⟨e, d⟩ after) :
    ReadsBody inBlock ⟨e, d⟩ (before ++ after) body after [] := by
  obtain ⟨body', rest', reports', hread⟩ :=
    exists_readsBody (s := ⟨e, d⟩) hend inBlock (before ++ after)
  have hlen : before.length < (before ++ after).length + 1 := by
    rw [List.length_append]
    omega
  have hr := h.reads (n := (before ++ after).length + 1) ((before ++ after).length + 1) inBlock
    (s := ⟨e, d⟩) after hlen rfl hlen hafter
  have heq := (hread _ _ (Nat.lt_succ_self _) (Nat.lt_succ_self _)).symm.trans hr
  simp only [Reading.mk.injEq, Except.ok.injEq] at heq
  obtain ⟨rfl, rfl, rfl⟩ := heq
  exact hread

end

/-- What is found in declarations of which a semicolon is missing. -/
theorem Grammar.Declarations.aftermath {e : Token} (hend : e.kind = .endOfInput) {inBlock : Bool}
    {d : Nat} {ts before behind after : List Token} {body : List Stmt} {semi : Token}
    (hsemi : semi.kind = .semicolon) (hafter : EndsBody inBlock ⟨e, d⟩ after) :
    Declarations d ts body → ts = before ++ semi :: behind → Balanced before →
      ∃ body' rest' reports,
        ReadsBody inBlock ⟨e, d⟩ (before ++ (behind ++ after)) body' rest' reports ∧
          Aftermath inBlock ⟨e, d⟩ (behind ++ after) after rest' reports
  | .nil, hts, _ => by simp at hts
  | @Declarations.cons _ ts us st _ first others, hts, hbefore => by
    rcases split_append hts with ⟨left, hleft, rfl⟩ | ⟨front, rfl, hfront⟩
    · rw [hleft] at first
      have hfirst := first.mending hend hsemi hbefore
      have hstarts := first.starts.before (by rw [hsemi]; rfl)
      rw [List.append_assoc]
      rcases hfirst.last with rfl | helse
      · obtain ⟨ts', body', hothers, hahead⟩ := others.ahead hafter
        exact hfirst.aftermath hend hstarts hahead (hothers.next_ne_elseWord hafter)
          (hothers.readsBody hend hafter)
      · obtain ⟨t, left, rfl, ht⟩ := exists_cons_of_nextKind? helse
        have hahead : Ahead d (t :: left ++ (us ++ after)) after :=
          .of_kind (by rw [ht]; rfl) (by rw [ht]; rfl) (by rw [ht]; decide)
        have helse' : nextKind? after ≠ some .elseWord :=
          Declarations.next_ne_elseWord (d := d) .nil hafter
        exact hfirst.aftermath hend hstarts hahead helse' (.ending hafter)
    · obtain ⟨body', rest', reports, hread, hout⟩ := others.aftermath hend hsemi hafter hfront
        (first.nested.balanced.of_append hbefore)
      have hstarts : StartsWith Kind.startsDeclaration front :=
        (hfront ▸ others.starts (by simp [hfront])).before (by rw [hsemi]; rfl)
      have helse : nextKind? (front ++ (behind ++ after)) ≠ some .elseWord := by
        obtain ⟨t, front, rfl, ht⟩ := hstarts
        have hne : t.kind ≠ .elseWord := Kind.ne_of_property ht rfl
        simpa using hne
      have hfirst (n : Nat) (hn : (ts ++ (front ++ (behind ++ after))).length < n) :
          (Rules.level n).declaration ⟨e, d⟩ (ts ++ (front ++ (behind ++ after))) =
            ⟨.ok (some st), front ++ (behind ++ after), []⟩ := by
        rw [List.length_append] at hn
        exact first.reads (by omega) rfl helse
      have hpos := first.starts.length_pos
      rw [List.append_assoc]
      refine ⟨_, rest', _, .cons (not_endsBody_of_starts first.starts.append) hfirst ?_ hread,
        hout⟩
      simp only [List.length_append]
      omega

/-! ## The innermost braces -/

/-- Before a brace that closes more than balanced tokens opened, a semicolon behind balanced tokens
is one of them. -/
theorem split_closed {us front behind after : List Token} {semi : Token}
    (h : us ++ after = front ++ semi :: behind) (hus : Balanced us)
    (hafter : nextKind? after = some .rightBrace) (hsemi : semi.kind = .semicolon)
    (hfront : Balanced front) : ∃ left, us = front ++ semi :: left ∧ behind = left ++ after := by
  rcases split_append h with hleft | ⟨rest, rfl, hrest⟩
  · exact hleft
  · obtain ⟨closing, after, rfl, hclosing⟩ := exists_cons_of_nextKind? hafter
    obtain ⟨rest, rfl, -⟩ := split_cons hrest (by rw [hclosing, hsemi]; decide)
    exact absurd hfront (not_balanced_of_closes hus (by rw [hclosing]; rfl))

/-- A place between the tokens `pre` and `post`, with the innermost braces around it: the tokens in
these that stand before the place and behind it, and those outside, which begin and end at the
braces. If no braces are around the place, there are none outside. -/
@[ext]
structure InnermostBraces (pre post : List Token) where
  outside : List Token
  front : List Token
  behind : List Token
  after : List Token
  pre_eq : pre = outside ++ front
  post_eq : post = behind ++ after
  front_balanced : Balanced front
  behind_balanced : Balanced behind
  braces : outside = [] ∧ after = [] ∨
    (∃ before brace, outside = before ++ [brace] ∧ brace.kind = .leftBrace) ∧
      nextKind? after = some .rightBrace

/-- Of two braces that open before the same place, with balanced tokens behind each, one is the
other. -/
theorem opening_unique {before before' front front' : List Token} {brace brace' : Token}
    (h : before ++ brace :: front = before' ++ brace' :: front')
    (hbrace : brace.kind.opensBracket = true) (hbrace' : brace'.kind.opensBracket = true)
    (hfront : Balanced front) (hfront' : Balanced front') :
    before = before' ∧ brace = brace' ∧ front = front' := by
  rcases split_append h with ⟨left, rfl, rfl⟩ | ⟨rest, rfl, hrest⟩
  · exact absurd hfront' (hfront.not_open hbrace)
  · cases rest with
    | nil =>
      obtain ⟨rfl, rfl⟩ := List.cons.inj hrest
      exact ⟨(List.append_nil before).symm, rfl, rfl⟩
    | cons u rest =>
      obtain ⟨-, rfl⟩ := List.cons.inj hrest
      exact absurd hfront (hfront'.not_open hbrace')

/-- Balanced tokens up to a bracket that closes others are told by what they stand in front of. -/
theorem closing_unique {behind behind' after after' : List Token} {k : Kind}
    (h : behind ++ after = behind' ++ after') (hafter : nextKind? after = some k)
    (hafter' : nextKind? after' = some k) (hk : k.closesBracket = true)
    (hbehind : Balanced behind) (hbehind' : Balanced behind') :
    behind = behind' ∧ after = after' := by
  obtain ⟨closing, after, rfl, hclosing⟩ := exists_cons_of_nextKind? hafter
  obtain ⟨closing', after', rfl, hclosing'⟩ := exists_cons_of_nextKind? hafter'
  rcases split_append h with ⟨left, rfl, -⟩ | ⟨rest, rfl, hrest⟩
  · exact absurd hbehind (not_balanced_of_closes hbehind' (by rwa [hclosing']))
  · cases rest with
    | nil => exact ⟨(List.append_nil behind).symm, hrest⟩
    | cons u rest =>
      obtain ⟨rfl, -⟩ := List.cons.inj hrest
      exact absurd hbehind' (not_balanced_of_closes hbehind (by rwa [hclosing]))

/-- There is but one innermost pair of braces around a place. -/
theorem InnermostBraces.unique {pre post : List Token} (b b' : InnermostBraces pre post) :
    b = b' := by
  have hnone {c c' : InnermostBraces pre post} (hc : c.outside = [])
      (hc' : ∃ before brace, c'.outside = before ++ [brace] ∧ brace.kind = .leftBrace) : False := by
    obtain ⟨before, brace, hbefore, hbrace⟩ := hc'
    have heq := c.pre_eq.symm.trans c'.pre_eq
    rw [hc, hbefore, List.nil_append, List.append_assoc] at heq
    exact c'.front_balanced.not_open (by rw [hbrace]; rfl) (heq ▸ c.front_balanced)
  have hpre := b.pre_eq.symm.trans b'.pre_eq
  have hpost := b.post_eq.symm.trans b'.post_eq
  rcases b.braces with ⟨hout, hafter⟩ | ⟨hout, hafter⟩ <;>
    rcases b'.braces with ⟨hout', hafter'⟩ | ⟨hout', hafter'⟩
  · rw [hout, hout'] at hpre
    rw [hafter, hafter', List.append_nil, List.append_nil] at hpost
    exact InnermostBraces.ext (hout.trans hout'.symm) hpre hpost (hafter.trans hafter'.symm)
  · exact (hnone hout hout').elim
  · exact (hnone hout' hout).elim
  · obtain ⟨before, brace, hbefore, hbrace⟩ := hout
    obtain ⟨before', brace', hbefore', hbrace'⟩ := hout'
    rw [hbefore, hbefore', List.append_assoc, List.append_assoc] at hpre
    obtain ⟨rfl, rfl, hfront⟩ := opening_unique hpre (by rw [hbrace]; rfl) (by rw [hbrace']; rfl)
      b.front_balanced b'.front_balanced
    obtain ⟨hbehind, hend⟩ := closing_unique hpost hafter hafter' rfl b.behind_balanced
      b'.behind_balanced
    exact InnermostBraces.ext (hbefore.trans hbefore'.symm) hfront hbehind hend

namespace Program

variable {pre post tail : List Token} {semi : Token}

/-- What is read in the braces around a place decides what is found in the program: the faults
found there come first, and if reading ends there where it should, there are no others. -/
structure ReadsWithin (e semi : Token) (pre post tail : List Token)
    (block : InnermostBraces pre post) (inBlock : Bool) (depth : Nat) : Prop where
  derived : ∃ body, Declarations depth (block.front ++ semi :: block.behind) body
  ends : EndsBody inBlock ⟨e, depth⟩ block.after
  decides : ∃ others : List Stmt → List Token → List Diagnostic,
    (∀ body, others body block.after = []) ∧ ∀ body rest reports,
      ReadsBody inBlock ⟨e, depth⟩ (block.front ++ post) body rest reports →
        (read (pre ++ post ++ tail)).diagnostics = reports ++ others body rest

theorem readsWithin_top (hpre : ∀ t ∈ pre ++ post, t.kind ≠ .endOfInput)
    (htail : ∀ t ∈ tail.head?, t.kind = .endOfInput) {p : List Stmt}
    (h : Declarations 0 (pre ++ semi :: post) p) (hsemi : semi.kind = .semicolon)
    (hbalanced : Balanced pre) : ∃ block inBlock depth,
      ReadsWithin (endOf (pre ++ post ++ tail)) semi pre post tail block inBlock depth := by
  have hpost : Balanced post :=
    (hbalanced.of_append h.nested.balanced).of_plain (by rw [hsemi]; rfl)
  refine ⟨⟨[], pre, post, [], rfl, (List.append_nil _).symm, hbalanced, hpost, .inl ⟨rfl, rfl⟩⟩,
    false, 0, ⟨p, h⟩, .inl (kind_endOf _), fun _ _ => [], fun _ => rfl,
    fun body rest reports hread => ?_⟩
  rw [hread.program hpre htail, List.append_nil]

/-- A program that is accepted carries the body behind each of its braces. -/
theorem carries_of_declarations {T : Braced} {e : Token} (hend : e.kind = .endOfInput)
    {outside : List Token} {p : List Stmt} {n : Nat}
    (h : Declarations 0 (outside ++ T.brace :: T.inside) p)
    (hn : outside.length + 1 + T.room < n) :
    T.Carries (Any (List Stmt)) (fun ts => declarations (Rules.level n).declaration false n ⟨e, 0⟩
      (outside ++ T.brace :: ts)) e p [] := by
  have hshort := T.short
  have hlen : (outside ++ T.brace :: T.inside).length < n := by
    simp only [List.length_append, List.length_cons]
    omega
  have hr := h.reads n false (s := ⟨e, 0⟩) [] hlen rfl hlen (.inl hend)
  rw [List.append_nil] at hr
  rcases Braced.opens_declarations (T.rulesOpen_level n).declaration false n ⟨e, 0⟩ outside p []
      hend hn trivial hr with ⟨vs, -, hnil, -⟩ | carries
  · simp at hnil
  · exact carries

theorem readsWithin_braces {outside front : List Token} {brace : Token}
    (hpre : ∀ t ∈ outside ++ brace :: front ++ post, t.kind ≠ .endOfInput)
    (htail : ∀ t ∈ tail.head?, t.kind = .endOfInput) {p : List Stmt}
    (h : Declarations 0 (outside ++ brace :: (front ++ semi :: post)) p)
    (hsemi : semi.kind = .semicolon) (hbrace : brace.kind = .leftBrace)
    (hbalanced : Balanced front) : ∃ block inBlock depth,
      ReadsWithin (endOf (outside ++ brace :: front ++ post ++ tail)) semi
        (outside ++ brace :: front) post tail block inBlock depth := by
  generalize he : endOf (outside ++ brace :: front ++ post ++ tail) = e
  have hend : e.kind = .endOfInput := he ▸ kind_endOf _
  let T : Braced := ⟨brace, front ++ semi :: post, _, hbrace, Nat.le_refl _⟩
  obtain ⟨depth, body, after, g, hinside, hafter, same, carried⟩ :=
    carries_of_declarations (T := T) hend h (Nat.lt_succ_self _)
  obtain ⟨⟨us, hus, hbody⟩, -⟩ := sound_declarations (Rules.sound_level _) hend true
    (Nat.lt_succ_self _) (hinside _ _ (Nat.lt_succ_self _) (Nat.lt_succ_self _))
  obtain ⟨behind, rfl, hpost⟩ := split_closed hus.symm hbody.nested.balanced hafter hsemi hbalanced
  have hbehind : Balanced behind :=
    (hbalanced.of_append hbody.nested.balanced).of_plain (by rw [hsemi]; rfl)
  let block : InnermostBraces (outside ++ brace :: front) post :=
    ⟨outside ++ [brace], front, behind, after, by simp, hpost, hbalanced, hbehind,
      .inr ⟨⟨outside, brace, rfl, hbrace⟩, hafter⟩⟩
  refine ⟨block, true, depth, ⟨body, hbody⟩,
    .inr ⟨rfl, headD_kind_of_nextKind? (s := ⟨e, depth⟩) hafter⟩,
    fun body' rest => (g body' rest).reports, fun body' => ?_, fun body' rest reports hread => ?_⟩
  · obtain ⟨a', -, hg⟩ := same body'
    exact congrArg Reading.reports hg
  · -- the program without the semicolon is read as the braces are
    have hcarried := carried _ body' rest reports (by simp [T, block]) hread
    have hlist : outside ++ brace :: (front ++ post) = outside ++ brace :: front ++ post := by simp
    have hshort : (outside ++ brace :: front ++ post).length < outside.length + 1 + T.room + 1 := by
      simp only [List.length_append, List.length_cons, T]
      omega
    obtain ⟨statements, last, diagnostics, hall⟩ := exists_readsBody (s := ⟨e, 0⟩) hend false
      (outside ++ brace :: front ++ post)
    have hsame := (hall _ _ hshort hshort).symm
    rw [← hlist] at hsame
    subst he
    rw [hall.program hpre htail]
    exact congrArg Reading.reports (hsame.trans hcarried)

/-- A semicolon that is none of a header stands in braces, or in no brackets, and these are read. -/
theorem exists_readsWithin (hpre : ∀ t ∈ pre ++ post, t.kind ≠ .endOfInput)
    (htail : ∀ t ∈ tail.head?, t.kind = .endOfInput) {p : List Stmt}
    (h : Declarations 0 (pre ++ semi :: post) p) (hsemi : semi.kind = .semicolon)
    (hheader : ¬ EndsInHeader pre) : ∃ block inBlock depth,
      ReadsWithin (endOf (pre ++ post ++ tail)) semi pre post tail block inBlock depth := by
  rcases h.nested.split rfl hsemi hheader with ⟨-, hbalanced⟩ | ⟨outside, brace, front, rfl, hbrace,
    hfront⟩
  · exact readsWithin_top hpre htail h hsemi hbalanced
  · rw [List.append_assoc, List.cons_append] at h
    exact readsWithin_braces hpre htail h hsemi hbrace hfront

end Program

/-- Where declarations follow, nothing is found in them, unless something is nested too deep. -/
theorem ReadsBody.of_declarations {e : Token} (hend : e.kind = .endOfInput) {inBlock : Bool}
    {d : Nat} {kept after rest : List Token} {body p : List Stmt} {reports : List Diagnostic}
    (h : ReadsBody inBlock ⟨e, d⟩ (kept ++ after) body rest reports) (hkept : Declarations 0 kept p)
    (hafter : EndsBody inBlock ⟨e, d⟩ after)
    (shallow : ∀ x ∈ reports, x.cause ≠ .parse .tooMuchNesting) : rest = after ∧ reports = [] := by
  have htop : ReadsBody inBlock ⟨e, 0⟩ (kept ++ after) body rest reports :=
    h.shallower hend rfl (Nat.zero_le d) shallow
  have hnothing : ReadsBody inBlock ⟨e, 0⟩ (kept ++ after) p after [] :=
    hkept.readsBody hend hafter
  exact (htop.unique hnothing).2

namespace Program

theorem ofTokens?_of_diagnostics {ts : List Token} (h : (read ts).diagnostics = []) :
    ∃ p, ofTokens? ts = .ok p :=
  ⟨(read ts).statements, by simp [ofTokens?, result, h]⟩

theorem ofTokens?_eq_error {ts : List Token} {d : Diagnostic} {ds : List Diagnostic}
    (h : (read ts).diagnostics = d :: ds) : ofTokens? ts = .error (d :: ds) := by
  simp [ofTokens?, result, h]

theorem declarations_of_kind_ne {ts : List Token} (hts : ∀ t ∈ ts, t.kind ≠ .endOfInput)
    {p : List Stmt} (h : ofTokens? ts = .ok p) : Declarations 0 ts p := by
  have hderived := declarations_of_ofTokens? h
  rw [← List.append_nil ts, beforeEnd_append_of_head? hts (by simp)] at hderived
  exact hderived

/-- A semicolon of a program that is none of a header is missing. Unless something is nested too
deep then, the program is still accepted, or there is a fault at the next token, or at the one
behind it if that is the word for functions. There is no other fault if what is kept of the tokens
in the innermost braces, where reading goes on, is accepted as a program by itself. -/
theorem missing_semicolon {pre post tail : List Token} {semi : Token}
    (hts : ∀ t ∈ pre ++ semi :: post, t.kind ≠ .endOfInput)
    (htail : ∀ t ∈ tail.head?, t.kind = .endOfInput)
    (haccepted : ∃ p, ofTokens? (pre ++ semi :: post ++ tail) = .ok p)
    (hsemi : semi.kind = .semicolon) (hheader : ¬ EndsInHeader pre)
    (shallow : ∀ x ∈ (read (pre ++ post ++ tail)).diagnostics,
      x.cause ≠ .parse .tooMuchNesting) :
    (∃ p, ofTokens? (pre ++ post ++ tail) = .ok p) ∨
      ∃ (block : InnermostBraces pre post) (left : List Token) (fault : ParseFault)
        (others : List Diagnostic),
        NextOrBehindFn post left ∧
          ofTokens? (pre ++ post ++ tail) =
            .error (.atToken (.parse fault) (left.headD (endOf (pre ++ post ++ tail))) :: others) ∧
          ∀ kept, resume left = kept ++ block.after → (∃ p, ofTokens? kept = .ok p) →
            others = [] := by
  obtain ⟨p, hp⟩ := haccepted
  have hwhole := declarations_of_ofTokens? hp
  rw [beforeEnd_append_of_head? hts htail] at hwhole
  have hpre : ∀ t ∈ pre ++ post, t.kind ≠ .endOfInput := fun t ht => hts t (by
    simp only [List.mem_append, List.mem_cons] at ht ⊢
    tauto)
  have hend := kind_endOf (pre ++ post ++ tail)
  obtain ⟨block, inBlock, depth, ⟨body, hbody⟩, hafter, others, hnone, hdecides⟩ :=
    exists_readsWithin hpre htail hwhole hsemi hheader
  obtain ⟨body', rest, reports, hread, hout⟩ :=
    hbody.aftermath hend hsemi hafter rfl block.front_balanced
  rw [← block.post_eq] at hread hout
  have hall := hdecides body' rest reports hread
  rw [hall] at shallow
  cases hout with
  | deep hdeep =>
    obtain ⟨x, hx, hcause⟩ := hdeep
    exact absurd hcause (shallow x (List.mem_append_left _ hx))
  | clean hrest hreports =>
    rw [hrest, hreports, hnone] at hall
    exact .inl (ofTokens?_of_diagnostics hall)
  | fault hleft hreports goesOn =>
    rw [hreports] at hall shallow
    refine .inr ⟨block, _, _, _, hleft, ofTokens?_eq_error hall, fun kept hkept ⟨q, hq⟩ => ?_⟩
    have hkinds : ∀ t ∈ kept, t.kind ≠ .endOfInput := fun t ht => by
      have hmem := (Comparison.resume_suffix _).subset (hkept ▸ List.mem_append_left _ ht)
      exact hpre t (List.mem_append_right _ (hleft.subset hmem))
    rw [hkept] at goesOn
    obtain ⟨hrest, hnothing⟩ := goesOn.of_declarations hend (declarations_of_kind_ne hkinds hq)
      hafter fun x hx => shallow x (List.mem_append_left _ (List.mem_cons_of_mem _ hx))
    rw [hrest, hnothing, hnone]
    rfl

/-- Of two statements in braces, the first lacks its semicolon. The second is dropped with the fault
at its first token, and what stands behind the braces is read. -/
theorem missing_semicolon_first :
    let brace : Token := ⟨.leftBrace, "\x7b", none, 1, ⟨0, 1⟩⟩
    let name : Token := ⟨.identifier, "x", none, 1, ⟨1, 2⟩⟩
    let semi : Token := ⟨.semicolon, ";", none, 1, ⟨2, 3⟩⟩
    let other : Token := ⟨.identifier, "y", none, 2, ⟨4, 5⟩⟩
    let closing : Token := ⟨.rightBrace, "\x7d", none, 2, ⟨6, 7⟩⟩
    let post := [other, semi, closing, other, semi]
    (∃ p, ofTokens? ([brace, name] ++ semi :: post ++ [.ending 3 9]) = .ok p) ∧
      ∃ fault, ofTokens? ([brace, name] ++ post ++ [.ending 3 9]) =
        .error [.atToken (.parse fault) other] := by
  intro brace name semi other closing post
  have haccepted : ∃ p, ofTokens? ([brace, name] ++ semi :: post ++ [.ending 3 9]) = .ok p :=
    ofTokens?_of_diagnostics (by decide +kernel)
  have hheader : ¬ EndsInHeader [brace, name] := not_endsInHeader (by decide)
  refine ⟨haccepted, ?_⟩
  have hmissing := @missing_semicolon [brace, name] post [.ending 3 9] semi (by decide)
    (by simp [Token.ending]) haccepted rfl hheader (by decide +kernel)
  rcases hmissing with ⟨p, hp⟩ | ⟨block, left, fault, others, hleft, herror, hkept⟩
  · rw [ofTokens?, result, if_neg (by decide +kernel)] at hp
    cases hp
  · let inner : InnermostBraces [brace, name] post :=
      ⟨[brace], [name], [other, semi], [closing, other, semi], rfl, rfl, rfl, rfl,
        .inr ⟨⟨[], brace, rfl, rfl⟩, rfl⟩⟩
    obtain rfl : block = inner := block.unique inner
    rcases hleft with rfl | ⟨keyword, hkeyword, hpost⟩
    · obtain rfl : others = [] := hkept [] rfl ⟨[], rfl⟩
      exact ⟨fault, herror⟩
    · obtain ⟨rfl, -⟩ := List.cons.inj hpost
      cases hkeyword

/-- A semicolon that is missing before a closing brace is more than one fault: the brace is dropped
with the first one. -/
theorem missing_semicolon_last :
    ¬ ∀ (pre post tail : List Token) (semi : Token),
      (∀ t ∈ pre ++ semi :: post, t.kind ≠ .endOfInput) →
      (∀ t ∈ tail.head?, t.kind = .endOfInput) →
      (∃ p, ofTokens? (pre ++ semi :: post ++ tail) = .ok p) →
      semi.kind = .semicolon → ¬ EndsInHeader pre →
        (∃ p, ofTokens? (pre ++ post ++ tail) = .ok p) ∨
          ∃ d, ofTokens? (pre ++ post ++ tail) = .error [d] := by
  intro h
  let brace : Token := ⟨.leftBrace, "\x7b", none, 1, ⟨0, 1⟩⟩
  let name : Token := ⟨.identifier, "x", none, 1, ⟨2, 3⟩⟩
  let semi : Token := ⟨.semicolon, ";", none, 1, ⟨3, 4⟩⟩
  let closing : Token := ⟨.rightBrace, "\x7d", none, 1, ⟨4, 5⟩⟩
  have hboth : (read ([brace, name] ++ [closing] ++ [.ending 1 5])).diagnostics.length = 2 := by
    decide +kernel
  have hone := h [brace, name] [closing] [.ending 1 5] semi (by decide) (by simp [Token.ending])
    (ofTokens?_of_diagnostics (by decide +kernel)) rfl (not_endsInHeader (by decide))
  rw [ofTokens?, result, if_neg (by decide +kernel)] at hone
  rcases hone with ⟨p, hp⟩ | ⟨d, hd⟩
  · cases hp
  · rw [Except.error.inj hd] at hboth
    cases hboth

/-- A statement nested nearly as deep as the limit allows goes on with the next one if its semicolon
is missing. The arguments are too deep then: there are two faults, neither at the next token. -/
theorem missing_semicolon_too_deep :
    let negation : Token := ⟨.bang, "!", none, 1, ⟨0, 1⟩⟩
    let name : Token := ⟨.identifier, "x", none, 1, ⟨1, 2⟩⟩
    let semi : Token := ⟨.semicolon, ";", none, 1, ⟨2, 3⟩⟩
    let opening : Token := ⟨.leftParen, "(", none, 1, ⟨3, 4⟩⟩
    let keyword : Token := ⟨.fnWord, "fn", none, 1, ⟨4, 6⟩⟩
    let closing : Token := ⟨.rightParen, ")", none, 1, ⟨6, 7⟩⟩
    let brace : Token := ⟨.leftBrace, "\x7b", none, 1, ⟨7, 8⟩⟩
    let last : Token := ⟨.rightBrace, "\x7d", none, 1, ⟨8, 9⟩⟩
    let pre := List.replicate 510 negation ++ [name]
    let post := [opening, keyword, opening, closing, brace, name, semi, last, closing, semi]
    (∃ p, ofTokens? (pre ++ semi :: post) = .ok p) ∧ ¬ EndsInHeader pre ∧
      (read (pre ++ post)).diagnostics = [.atToken (.parse .tooMuchNesting) keyword,
        .atToken (.parse .expectedExpression) last] := by
  intro negation name semi opening keyword closing brace last pre post
  refine ⟨ofTokens?_of_diagnostics ?_, not_endsInHeader ?_, ?_⟩
  · decide +kernel
  · decide +kernel
  · decide +kernel

end Program

end Scripting
