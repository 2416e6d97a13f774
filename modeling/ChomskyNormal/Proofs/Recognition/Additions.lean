import ChomskyNormal.Proofs.Grammar.Additions
import ChomskyNormal.Proofs.Grammar.Coherence
import ChomskyNormal.Proofs.Recognition.Cells

/-!
# Growing languages

A word that is derived stays derived when a grammar grows, and so do all its parts. Where only
symbols are added, no answer changes at all, but words with a letter that was unknown can now be
asked about.

- `Table.Within` : every cell of a table is part of the same cell of another one;
- `Grammar.Grows.table_within`, `Grammar.Grows.isDerived` : tables and answers of grown grammars;
- `Grammar.Grows.table_eq`, `Grammar.Grows.isDerived_of_unknown` : the same for equal productions;
- `Session.language_grows` : both for any run of additions.
-/

namespace ChomskyNormal

def Table.Within (table larger : Table) : Prop :=
  ∀ start span cell, table.cell? start span = some cell →
    ∃ other, larger.cell? start span = some other ∧ ∀ root ∈ cell, root ∈ other

namespace Grammar

/-! ## Unknown letters -/

theorem isDerived_of_checkWord_eq_error {grammar : Grammar} {word : String} {error : WordError}
    (h : grammar.checkWord word.toList = .error error) : grammar.isDerived word = .error error := by
  rw [isDerived, table, h]
  rfl

/-- Only the check of a word can fail. -/
theorem checkWord_of_isDerived_eq_error {grammar : Grammar} {word : String} {error : WordError}
    (h : grammar.isDerived word = .error error) : grammar.checkWord word.toList = .error error := by
  cases hcheck : grammar.checkWord word.toList with
  | ok start =>
      rw [isDerived, table, hcheck] at h
      cases h
  | error other =>
      rw [isDerived_of_checkWord_eq_error hcheck] at h
      cases h
      rfl

/-- Letters are looked at last, when all else is in order. -/
theorem checkWord_eq_unknownTerminal_iff {grammar : Grammar} {word : List Char} {c : Char} :
    grammar.checkWord word = .error (.unknownTerminal c) ↔
      grammar.productions.isEmpty = false ∧ (∃ start, grammar.start? = some start) ∧ word ≠ [] ∧
        word.find? (· ∉ grammar.alphabet.terminals) = some c := by
  unfold checkWord
  cases hempty : grammar.productions.isEmpty with
  | true => simp
  | false =>
      cases hstart : grammar.start? with
      | none => simp
      | some start =>
          by_cases hword : word = []
          · simp [hword]
          · cases hfind : word.find? (· ∉ grammar.alphabet.terminals) with
            | none => simp [hword]
            | some other => simp [hword]

/-! ## Grown grammars -/

namespace Grows

variable {grammar grown : Grammar} {word : String}

theorem derives (h : grammar.Grows grown) {root : Char} {letters : List Char}
    (hderives : grammar.productions.Derives root letters) :
    grown.productions.Derives root letters :=
  hderives.mono fun head => (h.alternatives head).subset

variable (h : grammar.Grows grown) (hwell : grammar.WellFormed) (hgrown : grown.WellFormed)
include h hwell hgrown

theorem mem_terminals {c : Char} (hc : c ∈ grammar.alphabet.terminals) :
    c ∈ grown.alphabet.terminals :=
  hgrown.mem_terminals_iff.1 (h.terminals.subset (hwell.mem_terminals_iff.2 hc))

theorem exists_table {table : Table} (htable : grammar.table word = .ok table) :
    ∃ larger, grown.table word = .ok larger := by
  rcases (hwell.exists_table_iff word).1 ⟨table, htable⟩ with
    ⟨⟨head, rhs, hrhs⟩, ⟨start, hstart⟩, hword, hletters⟩
  refine (hgrown.exists_table_iff word).2
    ⟨⟨head, rhs, ?_⟩, ⟨start, h.start start hstart⟩, hword, ?_⟩
  · exact (h.alternatives head).subset hrhs
  · exact fun c hc => h.terminals.subset (hletters c hc)

/-- Cells hold what derives their part, and that is still derived. -/
theorem table_within {table larger : Table} (htable : grammar.table word = .ok table)
    (hlarger : grown.table word = .ok larger) : table.Within larger := by
  intro start span cell hcell
  have hpart : start + span < word.toList.length := by
    rcases table_eq_ok_iff.1 htable with ⟨_, _, rfl⟩
    exact Table.lt_of_find?_rowsTo hcell
  rcases hwell.mem_cell?_iff_derives htable hpart with ⟨same, hsame, hroots⟩
  rcases hgrown.mem_cell?_iff_derives hlarger hpart with ⟨other, hother, hroots'⟩
  rw [hcell] at hsame
  cases hsame
  exact ⟨other, hother, fun root hroot => (hroots' root).2 (h.derives ((hroots root).1 hroot))⟩

theorem isDerived (hderived : grammar.isDerived word = .ok true) :
    grown.isDerived word = .ok true := by
  rcases hwell.isDerived_iff_derives.1 hderived with ⟨start, hstart, hderives⟩
  exact hgrown.isDerived_iff_derives.2 ⟨start, h.start start hstart, h.derives hderives⟩

/-! ## Grown alphabets -/

variable (hproductions : grown.productions = grammar.productions)
include hproductions

theorem table_eq {table : Table} (htable : grammar.table word = .ok table) :
    grown.table word = .ok table := by
  rcases table_eq_ok_iff.1 htable with ⟨start, hcheck, rfl⟩
  rcases checkWord_eq_ok_iff.1 hcheck with ⟨hsome, hstart, hword, hletters⟩
  have hgrownCheck : grown.checkWord word.toList = .ok start := by
    refine checkWord_eq_ok_iff.2 ⟨?_, h.start start hstart, hword, ?_⟩
    · rw [hproductions, hsome]
    · exact fun c hc => h.mem_terminals hwell hgrown (hletters c hc)
  exact table_eq_ok_iff.2 ⟨start, hgrownCheck, by rw [hproductions]⟩

/-- Answers that were given stay the same where no production is added. -/
theorem isDerived_eq {answer : Bool} (hanswer : grammar.isDerived word = .ok answer) :
    grown.isDerived word = .ok answer := by
  rcases map_eq_ok_iff.1 hanswer with ⟨table, htable, hsame⟩
  exact map_eq_ok_iff.2 ⟨table, h.table_eq hwell hgrown hproductions htable, hsame⟩

/-- A letter that was unknown is in none of the productions, so its words are not derived. -/
theorem isDerived_of_unknown {c : Char}
    (hunknown : grammar.isDerived word = .error (.unknownTerminal c)) :
    (∃ d, grown.isDerived word = .error (.unknownTerminal d)) ∨
      grown.isDerived word = .ok false := by
  rcases checkWord_eq_unknownTerminal_iff.1 (checkWord_of_isDerived_eq_error hunknown) with
    ⟨hsome, ⟨start, hstart⟩, hword, hfind⟩
  -- What was missing may have been registered since, but no production has it.
  have hc : c ∉ grammar.alphabet.terminals := by simpa using List.find?_some hfind
  have hmem : c ∈ word.toList := List.mem_of_find?_eq_some hfind
  rw [← hproductions] at hsome
  cases hgrownFind : word.toList.find? (· ∉ grown.alphabet.terminals) with
  | some d =>
      have hcheck : grown.checkWord word.toList = .error (.unknownTerminal d) :=
        checkWord_eq_unknownTerminal_iff.2
          ⟨hsome, ⟨start, h.start start hstart⟩, hword, hgrownFind⟩
      exact Or.inl ⟨d, isDerived_of_checkWord_eq_error hcheck⟩
  | none =>
      have hletters : ∀ d ∈ word.toList, d ∈ grown.alphabet.terminals := by
        simpa using List.find?_eq_none.1 hgrownFind
      have hcheck : grown.checkWord word.toList = .ok start :=
        checkWord_eq_ok_iff.2 ⟨hsome, h.start start hstart, hword, hletters⟩
      have hanswer : ∃ answer, grown.isDerived word = .ok answer :=
        ⟨_, map_eq_ok_iff.2 ⟨_, table_eq_ok_iff.2 ⟨start, hcheck, rfl⟩, rfl⟩⟩
      rcases hanswer with ⟨_ | _, hanswer⟩
      · exact Or.inr hanswer
      · -- A derivation would have the letter among its leaves.
        rcases hgrown.isDerived_iff_derives.1 hanswer with ⟨_, _, tree, hfollows, _, hyield⟩
        rw [hproductions] at hfollows
        rw [← hyield] at hmem
        exact absurd (Tree.mem_terminals_of_follows hwell hfollows hmem) hc

end Grows

end Grammar

/-- Any additions to a grammar that a session arrives at, refused ones included, leave what it has
in place, and what it derives. Unless a production is among them, they change no answer, and give
one only to words with letters that were unknown. -/
theorem Session.language_grows (session : Session) (h : session.current.Reachable)
    (edits : List Edit) (hadds : ∀ edit ∈ edits, edit.isAddition = true) :
    session.current.Grows (session.run (edits.map .edit)).current ∧
    (∀ word table, session.current.table word = .ok table →
      ∃ larger, (session.run (edits.map .edit)).current.table word = .ok larger ∧
        table.Within larger) ∧
    (∀ word, session.current.isDerived word = .ok true →
      (session.run (edits.map .edit)).current.isDerived word = .ok true) ∧
    (session.RefusesProductions edits → ∀ word,
      (∀ answer, session.current.isDerived word = .ok answer →
        (session.run (edits.map .edit)).current.isDerived word = .ok answer) ∧
      ∀ c, session.current.isDerived word = .error (.unknownTerminal c) →
        (∃ d, (session.run (edits.map .edit)).current.isDerived word =
          .error (.unknownTerminal d)) ∨
        (session.run (edits.map .edit)).current.isDerived word = .ok false) := by
  have hwell := h.wellFormed
  have hgrown := wellFormed_run_edits edits hwell
  have hgrows := session.grows_run hadds
  refine ⟨hgrows, ?_, fun word => hgrows.isDerived hwell hgrown, ?_⟩
  · intro word table htable
    rcases hgrows.exists_table hwell hgrown htable with ⟨larger, hlarger⟩
    exact ⟨larger, hlarger, hgrows.table_within hwell hgrown htable hlarger⟩
  · intro hrefused word
    -- With all new productions refused there are the same derivations as before.
    have hproductions := productions_run hadds hrefused
    exact ⟨fun answer => hgrows.isDerived_eq hwell hgrown hproductions,
      fun c => hgrows.isDerived_of_unknown hwell hgrown hproductions⟩

def extending : List Edit :=
  [.addNonterminal 'D', .addTerminal 'c', .addProduction 'D' "c", .addProduction 'S' "DA",
    .setStart 'D']

def widening : List Edit :=
  [.addProduction 'S' "AB", .addTerminal 'c', .addTerminal 'a', .addProduction 'D' "c"]

/-- Answers that additions keep, and a word with a letter that was unknown before. -/
theorem textbook_grows :
    (Session.new.run Grammar.textbook).current.Reachable ∧
      (∀ edit ∈ extending, edit.isAddition = true) ∧
      (Session.new.run Grammar.textbook).current.Grows
        ((Session.new.run Grammar.textbook).run (extending.map .edit)).current ∧
      ((Session.new.run Grammar.textbook).run (extending.map .edit)).current.isDerived "baaba" =
        .ok true ∧
      (∀ edit ∈ widening, edit.isAddition = true) ∧
      (Session.new.run Grammar.textbook).RefusesProductions widening ∧
      ((Session.new.run Grammar.textbook).run (widening.map .edit)).current.isDerived "aab" =
        .ok false ∧
      ((∃ d, ((Session.new.run Grammar.textbook).run (widening.map .edit)).current.isDerived
          "cab" = .error (.unknownTerminal d)) ∨
        ((Session.new.run Grammar.textbook).run (widening.map .edit)).current.isDerived
          "cab" = .ok false) := by
  have hreach : (Session.new.run Grammar.textbook).current.Reachable := ⟨Grammar.textbook, rfl⟩
  -- Only the answers before the additions are computed; the later ones follow from them.
  have hyes : (Session.new.run Grammar.textbook).current.isDerived "baaba" = .ok true := by
    decide +kernel
  have hno : (Session.new.run Grammar.textbook).current.isDerived "aab" = .ok false := by
    decide +kernel
  have hunknown : (Session.new.run Grammar.textbook).current.isDerived "cab" =
      .error (.unknownTerminal 'c') := by
    decide +kernel
  have hextends : ∀ edit ∈ extending, edit.isAddition = true := by decide
  have hwidens : ∀ edit ∈ widening, edit.isAddition = true := by decide
  have hrefused : (Session.new.run Grammar.textbook).RefusesProductions widening := by
    refine ⟨?_, fun _ _ h => (nomatch h), fun _ _ h => (nomatch h), ?_, trivial⟩
    · exact fun _ _ _ => ⟨.grammar (.duplicateProduction 'S' "AB"), by decide +kernel⟩
    · exact fun _ _ _ => ⟨.grammar (.unknownNonterminal 'D'), by decide +kernel⟩
  have hextended := Session.language_grows _ hreach extending hextends
  have hwidened := (Session.language_grows _ hreach widening hwidens).2.2.2 hrefused
  exact ⟨hreach, hextends, hextended.1, hextended.2.2.1 "baaba" hyes, hwidens, hrefused,
    (hwidened "aab").1 false hno, (hwidened "cab").2 'c' hunknown⟩

end ChomskyNormal
