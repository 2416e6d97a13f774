import ChomskyNormal.Proofs.Load.Acceptance
import ChomskyNormal.Proofs.Sampling.Growth

/-!
# Another start symbol

The start symbol decides which question is asked of a table, and from which root a sample is grown.
Nothing else depends on it. So a text that loads with its first head as the start symbol loads with
any other of its nonterminals, to the same grammar but for the start symbol; and asking that grammar
is the same as asking the first one about the other nonterminal.

- `Grammar.withStart` : the same grammar with another start symbol;
- `Grammar.table_withStart`, `Grammar.sample_withStart` : its tables and samples;
- `Grammar.ofText_otherStart` : loading with another start symbol, and what that changes.
-/

namespace ChomskyNormal

namespace Grammar

def withStart (grammar : Grammar) (start : Char) : Grammar :=
  { grammar with alphabet := { grammar.alphabet with start? := some start } }

variable {grammar : Grammar} {start current : Char}

/-! ## Tables -/

/-- Words are found fit or unfit for the same reasons, as long as there was a start symbol. -/
theorem checkWord_withStart (hcurrent : grammar.start? = some current) (start : Char)
    (word : List Char) :
    (grammar.withStart start).checkWord word = (grammar.checkWord word).map fun _ => start := by
  have hstart : (grammar.withStart start).start? = some start := rfl
  have hproductions : (grammar.withStart start).productions = grammar.productions := rfl
  have hterminals : (grammar.withStart start).alphabet.terminals = grammar.alphabet.terminals := rfl
  unfold checkWord
  rw [hstart, hcurrent, hproductions, hterminals]
  cases grammar.productions.isEmpty with
  | true => rfl
  | false =>
      -- The checks that remain do not look at the start symbol.
      by_cases hword : word = []
      · simp [hword, Except.map]
      · cases hfind : word.find? (· ∉ grammar.alphabet.terminals) with
        | none => simp [hword, Except.map]
        | some c => simp [hword, Except.map]

/-- The cells are the same, and only the symbol that is looked for is another. -/
theorem table_withStart (hcurrent : grammar.start? = some current) (start : Char) (word : String) :
    (grammar.withStart start).table word =
      (grammar.table word).map fun table => { table with start } := by
  rw [table, table, checkWord_withStart hcurrent]
  cases grammar.checkWord word.toList with
  | ok symbol => rfl
  | error error => rfl

/-- Whether another start symbol derives a word can be read off the table that is there. -/
theorem isDerived_withStart (hcurrent : grammar.start? = some current) (start : Char)
    (word : String) :
    (grammar.withStart start).isDerived word = .ok true ↔
      ∃ table, grammar.table word = .ok table ∧ start ∈ table.whole := by
  rw [isDerived, table_withStart hcurrent, map_eq_ok_iff]
  constructor
  · rintro ⟨other, hother, hanswer⟩
    rcases map_eq_ok_iff.1 hother with ⟨table, htable, rfl⟩
    exact ⟨table, htable, of_decide_eq_true hanswer.symm⟩
  · rintro ⟨table, htable, hmem⟩
    exact ⟨_, map_eq_ok_iff.2 ⟨table, htable, rfl⟩, (decide_eq_true hmem).symm⟩

/-! ## Samples -/

/-- Heights do not depend on the start symbol, so neither do samples from a given root. -/
theorem sample_withStart (grammar : Grammar) (start : Char) (maxDepth : Nat) :
    (grammar.withStart start).sample maxDepth = grammar.sampleFrom start maxDepth :=
  sample_eq_sampleFrom rfl maxDepth

/-! ## Loading -/

/-- Any nonterminal of a text will do as its start symbol, and nothing else will. -/
theorem ofText_some_eq {text : String} (h : ofText text none = .ok grammar) (start : Char) :
    ofText text (some start) =
      if start ∈ grammar.nonterminals then .ok (grammar.withStart start)
      else .error [⟨⟨inMemory, none⟩, .grammar (.unknownNonterminal start)⟩] := by
  rcases ofText_eq_ok_iff.1 h with ⟨first, later, hread, hloadable, rfl⟩
  have hmem := (spells_spelled hloadable).mem_nonterminals_iff (c := start)
  split
  · next hstart =>
      -- The rules fit together as before, with another symbol of theirs to start from.
      refine ofText_eq_ok_iff.2 ⟨first, later, hread, ?_, rfl⟩
      refine ⟨hloadable.nonempty, hloadable.shaped, hloadable.distinct, ?_⟩
      rintro _ ⟨⟩
      exact hmem.1 hstart
  · next hstart =>
      rw [ofText_eq_bind, readRules_text_eq_ok_iff.2 hread]
      refine (ofRules_eq (cased_of_readsAs hread)).trans ?_
      exact if_neg fun hused => hstart (hmem.2 hused)

/-- A text that loads also loads with any of its nonterminals as the start symbol. The grammar is
the same but for the start symbol. Its tables have the same cells, or are refused for the same
reason; a word is derived if the nonterminal derived it before; and samples are those of the
nonterminal, with the same numbers taken. Any other start symbol is refused. -/
theorem ofText_otherStart {text : String} (h : ofText text none = .ok grammar) (start : Char) :
    (start ∈ grammar.nonterminals →
      ofText text (some start) = .ok (grammar.withStart start) ∧
      (∀ word, (grammar.withStart start).table word =
        (grammar.table word).map fun table => { table with start }) ∧
      (∀ word, (grammar.withStart start).isDerived word = .ok true ↔
        ∃ table, grammar.table word = .ok table ∧ start ∈ table.whole) ∧
      ∀ maxDepth source position, (grammar.withStart start).sample maxDepth source position =
        grammar.sampleFrom start maxDepth source position) ∧
    (start ∉ grammar.nonterminals →
      ofText text (some start) =
        .error [⟨⟨inMemory, none⟩, .grammar (.unknownNonterminal start)⟩]) := by
  have hload := ofText_some_eq h start
  -- There is a first rule, and its head was the start symbol so far.
  have hcurrent : ∃ current, grammar.start? = some current := by
    rcases ofText_eq_ok_iff.1 h with ⟨first, later, _, _, rfl⟩
    exact ⟨first.value.head, rfl⟩
  rcases hcurrent with ⟨current, hcurrent⟩
  constructor
  · intro hmem
    rw [if_pos hmem] at hload
    refine ⟨hload, table_withStart hcurrent start, isDerived_withStart hcurrent start, ?_⟩
    intro maxDepth source position
    rw [sample_withStart]
  · intro hother
    rw [hload, if_neg hother]

def rootless : String :=
  "T ::= TT\r\nS ::= AB | BC\nA ::= BA | a\nB ::= CC | b\n; and C\nC ::= AB|a"

/-- The start symbol makes the difference, and a terminal cannot be one. -/
theorem ofText_rootless : ∃ grammar,
    ofText rootless none = .ok grammar ∧ 'A' ∈ grammar.nonterminals ∧
      ofText rootless (some 'A') = .ok (grammar.withStart 'A') ∧
      grammar.isDerived "baaba" = .ok false ∧
      (grammar.withStart 'A').isDerived "baaba" = .ok true ∧
      (∀ source, (grammar.withStart 'A').sample 4 source 0 = grammar.sampleFrom 'A' 4 source 0) ∧
      'a' ∉ grammar.nonterminals ∧
      ofText rootless (some 'a') =
        .error [⟨⟨inMemory, none⟩, .grammar (.unknownNonterminal 'a')⟩] := by
  -- Loading is computed once, with all that is asked about the grammar.
  have hevaluated : (ofText rootless none).toOption.any (fun grammar =>
      'A' ∈ grammar.nonterminals ∧ 'a' ∉ grammar.nonterminals ∧
        grammar.isDerived "baaba" = .ok false ∧
        (grammar.table "baaba").toOption.any fun table => 'A' ∈ table.whole) = true := by
    decide +kernel
  rcases (Option.any_eq_true _ _).1 hevaluated with ⟨grammar, hgrammar, hfacts⟩
  rcases of_decide_eq_true hfacts with ⟨hmem, hother, hno, htables⟩
  rcases (Option.any_eq_true _ _).1 htables with ⟨table, htable, hroot⟩
  have hload : ofText rootless none = .ok grammar := toOption_eq_some_iff.1 hgrammar
  have hcells : grammar.table "baaba" = .ok table := toOption_eq_some_iff.1 htable
  rcases (ofText_otherStart hload 'A').1 hmem with ⟨hrestarted, _, hderived, hsamples⟩
  exact ⟨grammar, hload, hmem, hrestarted, hno,
    (hderived "baaba").2 ⟨table, hcells, of_decide_eq_true hroot⟩,
    fun source => hsamples 4 source 0, hother, (ofText_otherStart hload 'a').2 hother⟩

end Grammar

end ChomskyNormal
