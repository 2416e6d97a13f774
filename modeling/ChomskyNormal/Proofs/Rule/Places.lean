import ChomskyNormal.Proofs.Rule.Colons
import ChomskyNormal.Proofs.Rule.Turns

/-!
# Where tokens stand

The tokens of a line stand on it one after the other, with nothing but blanks between them. A run
goes on as far as it can in both directions, so there is a blank wherever a run comes right after
another. A line with tokens can be divided in one way only.

- `Token.LaidOut` : lines divided into tokens and blanks;
- `Token.scan?_eq_some_iff` : the scan finds the only division there is;
- `Token.LaidOut.exists_place` : what stands before a token and after it;
- `Token.Faithful` : what the tokens tell of their line;
- `Token.scan?_exact` : which lines have tokens, and that these are faithful.
-/

namespace ChomskyNormal

namespace Token

/-- A line divided into tokens, with any blanks before each of them and after the last. -/
inductive LaidOut : List Char → List Token → Prop
  | blanks {blanks : List Char} : AllBlank blanks → LaidOut blanks []
  | token {blanks rest : List Char} {token : Token} {tokens : List Token} :
      AllBlank blanks → token.EndsBefore rest → LaidOut rest tokens →
        LaidOut (blanks ++ token.text ++ rest) (token :: tokens)

/-- A run may begin after `front`: there is nothing, a blank, or one of the marks. -/
def RunBegins (front : List Char) : Prop :=
  front = [] ∨ (∃ c, front.getLast? = some c ∧ (isBlank c = true ∨ c = '|')) ∨
    [':', ':', '='] <:+ front

/-- A run may end before `back`: there is nothing, a blank, a bar or a colon. -/
def RunEnds (back : List Char) : Prop :=
  ∀ c, back.head? = some c → isBlank c = true ∨ c = '|' ∨ c = ':'

/-- What tokens tell of their line. -/
structure Faithful (line : List Char) (tokens : List Token) : Prop where
  /-- Nothing but blanks is left out. -/
  characters : tokens.flatMap text = line.filter fun c => !isBlank c
  /-- A run holds some characters, and none that separates. -/
  runs : ∀ run, .symbols run ∈ tokens →
    run ≠ [] ∧ ∀ c ∈ run, isBlank c = false ∧ c ≠ '|' ∧ c ≠ ':'
  /-- A run stands between the parts that hold the other tokens, and cannot be extended. -/
  maximal : ∀ before run after, tokens = before ++ .symbols run :: after →
    ∃ front back, line = front ++ run ++ back ∧ LaidOut front before ∧ LaidOut back after ∧
      RunBegins front ∧ RunEnds back
  /-- Neighbouring runs have blanks between them. -/
  parted : ∀ before first second after,
    tokens = before ++ .symbols first :: .symbols second :: after →
      ∃ front blanks back, line = front ++ first ++ blanks ++ second ++ back ∧
        LaidOut front before ∧ LaidOut back after ∧ blanks ≠ [] ∧ AllBlank blanks

/-! ## Ends of runs -/

theorem inRun_eq_false_iff {c : Char} :
    inRun c = false ↔ isBlank c = true ∨ c = '|' ∨ c = ':' := by
  simp only [inRun, Bool.not_eq_false', Bool.or_eq_true, beq_iff_eq, or_assoc]

theorem inRun_eq_true_iff {c : Char} :
    inRun c = true ↔ isBlank c = false ∧ c ≠ '|' ∧ c ≠ ':' := by
  simp only [inRun, Bool.not_eq_true', Bool.or_eq_false_iff, beq_eq_false_iff_ne, and_assoc]

theorem runBegins_of_allBlank {blanks : List Char} (h : AllBlank blanks) : RunBegins blanks := by
  rcases List.eq_nil_or_concat' blanks with rfl | ⟨front, c, rfl⟩
  · exact Or.inl rfl
  · exact Or.inr (Or.inl ⟨c, List.getLast?_concat, Or.inl (h c List.mem_concat_self)⟩)

theorem RunBegins.append {front : List Char} (h : RunBegins front) (hsome : front ≠ [])
    (first : List Char) : RunBegins (first ++ front) := by
  rcases h with hnil | ⟨c, hlast, hc⟩ | hdefine
  · exact absurd hnil hsome
  · refine Or.inr (Or.inl ⟨c, ?_, hc⟩)
    rw [List.getLast?_append, hlast]
    rfl
  · exact Or.inr (Or.inr (hdefine.trans (List.suffix_append first front)))

/-- What comes right after a mark may be a run. -/
theorem runBegins_of_mark {token : Token} (h : ∀ run, token ≠ .symbols run) (first : List Char) :
    RunBegins (first ++ token.text) := by
  cases token with
  | define => exact Or.inr (Or.inr (List.suffix_append first _))
  | bar => exact Or.inr (Or.inl ⟨'|', List.getLast?_concat, Or.inr rfl⟩)
  | symbols run => exact absurd rfl (h run)

/-- Where nothing joins a run, its end is in sight. -/
theorem EndsBefore.runEnds {run back : List Char} (h : (Token.symbols run).EndsBefore back) :
    RunEnds back := by
  intro c hc
  have hends := (h run rfl).2
  rw [hc] at hends
  exact inRun_eq_false_iff.1 hends

theorem EndsBefore.of_append {token : Token} {front back : List Char}
    (h : token.EndsBefore (front ++ back)) : token.EndsBefore front := by
  intro run hrun
  refine ⟨(h run hrun).1, ?_⟩
  cases front with
  | nil => rfl
  | cons c front => exact (h run hrun).2

/-- Two runs with nothing between them would be one. -/
theorem EndsBefore.not_symbols {first second back : List Char}
    (h : (Token.symbols first).EndsBefore (second ++ back)) : ¬ IsRun second := by
  intro hsecond
  rcases List.exists_cons_of_ne_nil hsecond.1 with ⟨c, later, rfl⟩
  have hjoins : inRun c = true := hsecond.2 c List.mem_cons_self
  exact Bool.false_ne_true ((h first rfl).2.symm.trans hjoins)

/-! ## Divided lines -/

theorem LaidOut.scan?_eq {line : List Char} {tokens : List Token} (h : LaidOut line tokens) :
    scan? line = some tokens := by
  induction h with
  | blanks hblanks => exact scan?_of_allBlank hblanks
  | token hblanks hends _ ih =>
      rw [hends.scan?_eq hblanks, ih]
      rfl

theorem laidOut_of_scan? {line : List Char} {tokens : List Token} (h : scan? line = some tokens) :
    LaidOut line tokens := by
  induction tokens generalizing line with
  | nil => exact .blanks fun c hc => isBlank_of_scan?_eq_nil h hc
  | cons token tokens ih =>
      rcases scan?_eq_cons h with ⟨blanks, rest, hblanks, rfl, hrest, hends⟩
      exact .token hblanks hends (ih hrest)

/-- The tokens of a line are those that it can be divided into. -/
theorem scan?_eq_some_iff {line : List Char} {tokens : List Token} :
    scan? line = some tokens ↔ LaidOut line tokens :=
  ⟨laidOut_of_scan?, LaidOut.scan?_eq⟩

namespace LaidOut

variable {line : List Char} {before after : List Token}

/-- A token stands between a part with the tokens before it and a part with those after it. -/
theorem exists_place {token : Token} (h : LaidOut line (before ++ token :: after)) :
    ∃ front back, line = front ++ token.text ++ back ∧ LaidOut front before ∧
      LaidOut back after ∧ token.EndsBefore back ∧
        ∀ run, token = .symbols run → RunBegins front := by
  -- The induction is on the tokens before, which are those of the part that comes first.
  induction before generalizing line with
  | nil =>
      rw [List.nil_append] at h
      cases h with
      | @token blanks rest _ _ hblanks hends hrest =>
          exact ⟨blanks, rest, rfl, .blanks hblanks, hrest, hends,
            fun _ _ => runBegins_of_allBlank hblanks⟩
  | cons first before ih =>
      rw [List.cons_append] at h
      cases h with
      | @token blanks rest _ _ hblanks hfirst hrest =>
          rcases ih hrest with ⟨front, back, rfl, hfront, hback, hends, hbegins⟩
          rw [List.append_assoc front] at hfirst
          refine ⟨blanks ++ first.text ++ front, back, by simp,
            .token hblanks hfirst.of_append hfront, hback, hends, ?_⟩
          rintro run rfl
          cases front with
          | cons c front => exact (hbegins run rfl).append (List.cons_ne_nil _ _) _
          | nil =>
              -- No blank stands between the two, so the first of them cannot be a run.
              rw [List.append_nil]
              refine runBegins_of_mark (fun other hother => ?_) blanks
              subst hother
              rw [List.nil_append] at hfirst
              exact hfirst.not_symbols (hends run rfl).1

/-- Two runs one after the other have blanks between them. -/
theorem exists_blanks {first second : List Char}
    (h : LaidOut line (before ++ .symbols first :: .symbols second :: after)) :
    ∃ front blanks back, line = front ++ first ++ blanks ++ second ++ back ∧
      LaidOut front before ∧ LaidOut back after ∧ blanks ≠ [] ∧ AllBlank blanks := by
  rcases h.exists_place with ⟨front, later, rfl, hfront, hlater, hfirst, _⟩
  cases hlater with
  | @token blanks back _ _ hblanks hsecond hback =>
      refine ⟨front, blanks, back, by simp [text], hfront, hback, ?_, hblanks⟩
      rintro rfl
      exact hfirst.not_symbols (hsecond second rfl).1

end LaidOut

/-- Tokens tell every mark, every run and its neighbours. -/
theorem faithful_of_scan? {line : List Char} {tokens : List Token} (h : scan? line = some tokens) :
    Faithful line tokens where
  characters := flatMap_text_of_scan? h
  runs run hmem := by
    have hrun := isRun_of_mem_scan? h hmem
    exact ⟨hrun.1, fun c hc => inRun_eq_true_iff.1 (hrun.2 c hc)⟩
  maximal before run after htokens := by
    subst htokens
    rcases (laidOut_of_scan? h).exists_place with
      ⟨front, back, hline, hfront, hback, hends, hbegins⟩
    exact ⟨front, back, hline, hfront, hback, hbegins run rfl, hends.runEnds⟩
  parted before first second after htokens := by
    subst htokens
    exact (laidOut_of_scan? h).exists_blanks

/-- Scanning a line from left to right ends after at most as many turns as there are characters. It
finds tokens if all colons stand in pairs right before an equals sign, and a malformed define mark
otherwise, which is then reported. The tokens are the only ones that the line can be divided into,
and they tell all of it except for the blanks. -/
theorem scan?_exact (line : List Char) :
    (∃ turns ≤ line.length, ∀ count result,
      Turns line [] count result ↔ count = turns ∧ result = outcome (scan? line)) ∧
    ((∃ tokens, scan? line = some tokens) ↔ PairedColons line) ∧
    (Rule.ofLine line = .error .malformedDefine ↔ ¬ PairedColons line) ∧
    ∀ tokens, (scan? line = some tokens ↔ LaidOut line tokens) ∧
      (scan? line = some tokens → Faithful line tokens) := by
  refine ⟨?_, ?_, Rule.ofLine_eq_malformedDefine_iff, fun tokens => ?_⟩
  · rcases exists_turns line [] with ⟨turns, hle, hturns⟩
    -- A scan begins with no tokens found.
    have hscan : (scan? line).map ([] ++ ·) = scan? line := Option.map_id'
    rw [hscan] at hturns
    refine ⟨turns, hle, fun count result => ⟨fun hother => hother.unique hturns, ?_⟩⟩
    rintro ⟨rfl, rfl⟩
    exact hturns
  · rw [← Option.isSome_iff_exists]
    exact isSome_scan?_iff
  · exact ⟨scan?_eq_some_iff, faithful_of_scan?⟩

def dense : List Char :=
  "::==|A \u3000B::=".toList

def overfull : List Char :=
  "A:::=B".toList

/-- Marks and runs without a blank between them, and a line with a colon too many. -/
theorem dense_exact :
    PairedColons dense ∧
      Faithful dense [.define, .symbols ['='], .bar, .symbols ['A'], .symbols ['B'], .define] ∧
      ¬ PairedColons overfull ∧ Rule.ofLine overfull = .error .malformedDefine ∧
      ∃ turns ≤ 6, Turns overfull [] turns (.error .malformedDefine) := by
  have hdense : scan? dense =
      some [.define, .symbols ['='], .bar, .symbols ['A'], .symbols ['B'], .define] := by
    decide +kernel
  have hoverfull : scan? overfull = none := by decide +kernel
  have hnot : ¬ PairedColons overfull := scan?_eq_none_iff.1 hoverfull
  rcases scan?_exact overfull with ⟨⟨turns, hle, hturns⟩, _, hreported, _⟩
  refine ⟨(scan?_exact dense).2.1.1 ⟨_, hdense⟩, ((scan?_exact dense).2.2.2 _).2 hdense, hnot,
    hreported.2 hnot, turns, hle, (hturns turns _).2 ⟨rfl, ?_⟩⟩
  rw [hoverfull]
  rfl

end Token

end ChomskyNormal
