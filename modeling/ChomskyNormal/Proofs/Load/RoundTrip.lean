import ChomskyNormal.Proofs.Grammar.Reach
import ChomskyNormal.Proofs.Grammar.Writing
import ChomskyNormal.Proofs.Recognition.BuildOrder

/-!
# Loading what was written

The text of a grammar loads again, with any nonterminal that it uses as the start symbol. The
productions come back as they were; of the symbols only those come back that some production uses.
Symbols of a grammar that was loaded are all used, so such a grammar answers as before.

- `Grammar.Reloads` : what loading the text of a grammar gives back;
- `Grammar.IsLoaded` : grammars that come from a text or from a file;
- `Grammar.ofText_text` : the round trip.
-/

namespace ChomskyNormal

/-! ## Rules of any lines -/

theorem Rule.Readable.toCased {rule : Rule} (h : rule.Readable) : rule.Cased where
  head := h.head
  letters := by
    intro c hc
    rcases List.mem_cons.1 hc with rfl | hc
    · exact h.isSome_symbol_head
    · rcases List.mem_flatten.1 hc with ⟨letters, hletters, hc⟩
      exact h.cased letters hletters c hc

theorem readable_of_readLine {file : String} {number : Nat}
    {line : Except FileFault (List Char)} {rule : Located Rule}
    (h : readLine file number line = some (.ok rule)) : rule.value.Readable := by
  cases line with
  | error fault => cases h
  | ok line =>
      rw [readLine] at h
      split at h
      · cases hline : Rule.ofLine line with
        | ok read =>
            rw [hline] at h
            cases h
            exact Rule.readable_of_ofLine hline
        | error fault =>
            rw [hline] at h
            cases h
      · cases h

/-- Whatever rules were read can be written. -/
theorem readable_of_readRules {file : String} {lines : List (Except FileFault (List Char))}
    {rules : List (Located Rule)} (h : readRules file lines = .ok rules) :
    ∀ rule ∈ rules, rule.value.Readable := by
  intro rule hrule
  -- Rules come out only where each line that is not passed over was read.
  have hlines : readLines file lines = rules.map .ok := gather_eq_ok_iff.1 h
  have hmem : .ok rule ∈ readLines file lines := by
    rw [hlines]
    exact List.mem_map_of_mem hrule
  rcases List.mem_filterMap.1 hmem with ⟨⟨line, number⟩, _, hread⟩
  exact readable_of_readLine hread

namespace Grammar

variable {grammar loaded : Grammar}

/-! ## Symbols in use -/

namespace WellFormed

/-- Symbols in use are listed in one of the classes. -/
theorem registered_of_uses (h : grammar.WellFormed) {c : Char} (huses : grammar.Uses c) :
    c ∈ grammar.nonterminals ∨ c ∈ grammar.terminals := by
  rcases huses with ⟨head, rhs, hrhs, hc⟩
  have hcovers := h.covers hrhs
  rw [h.mem_nonterminals_iff, h.mem_terminals_iff]
  rcases List.mem_cons.1 hc with rfl | hc
  · exact Or.inl (h.head_mem hrhs)
  · cases rhs with
    | binary left right =>
        rcases List.mem_pair.1 hc with rfl | rfl
        · exact Or.inl hcovers.1
        · exact Or.inl hcovers.2
    | terminal letter => exact Or.inr (List.mem_singleton.1 hc ▸ hcovers)

/-- Letter case tells in which list a used symbol is found. -/
theorem isUppercase_iff_of_uses (h : grammar.WellFormed) {c : Char} (huses : grammar.Uses c) :
    isUppercase c = true ↔ c ∈ grammar.nonterminals := by
  refine ⟨fun hupper => ?_, h.coherent.uppercase c⟩
  refine (h.registered_of_uses huses).resolve_right fun hterminal => ?_
  exact not_isUppercase_and_isLowercase c ⟨hupper, h.coherent.lowercase c hterminal⟩

theorem isLowercase_iff_of_uses (h : grammar.WellFormed) {c : Char} (huses : grammar.Uses c) :
    isLowercase c = true ↔ c ∈ grammar.terminals := by
  refine ⟨fun hlower => ?_, h.coherent.lowercase c⟩
  refine (h.registered_of_uses huses).resolve_left fun hnonterminal => ?_
  exact not_isUppercase_and_isLowercase c ⟨h.coherent.uppercase c hnonterminal, hlower⟩

end WellFormed

/-! ## The round trip -/

/-- Loading the text of a grammar with a start symbol gives back the alternatives of every head in
their order, and those symbols that some production uses. -/
structure Reloads (grammar : Grammar) (start : Char) (loaded : Grammar) : Prop where
  start : loaded.start? = some start
  alternatives : ∀ head, loaded.alternatives head = grammar.alternatives head
  count : loaded.productions.count = grammar.productions.count
  nonterminals : ∀ c, c ∈ loaded.nonterminals ↔ c ∈ grammar.nonterminals ∧ grammar.Uses c
  terminals : ∀ c, c ∈ loaded.terminals ↔ c ∈ grammar.terminals ∧ grammar.Uses c

namespace WellFormed

/-- Rules for all alternatives of a grammar load to its productions. -/
theorem productions_eq_of_spells {asked? : Option Char} (h : grammar.WellFormed)
    (hloaded : loaded.WellFormed) (hspells : Spells asked? grammar.rules loaded) :
    loaded.productions = grammar.productions := by
  refine hloaded.productions.eq_of_alternatives h.productions fun head => ?_
  refine Rhs.letters_injective.list_map ?_
  calc
    (loaded.alternatives head).map Rhs.letters
        = (grammar.rules.filter fun rule => rule.head = head).flatMap Rule.alternatives :=
          hspells.alternatives head
    _ = (grammar.alternatives head).map Rhs.letters := h.flatMap_alternatives_rules head

/-- A grammar that spells the rules of a text has the content of the grammar it is the text of. -/
theorem reloads_of_spells {start : Char} (h : grammar.WellFormed) (hloaded : loaded.WellFormed)
    (hspells : Spells (some start) grammar.rules loaded) : Reloads grammar start loaded := by
  have hproductions := h.productions_eq_of_spells hloaded hspells
  refine ⟨hspells.start, ?_, congrArg Productions.count hproductions, ?_, ?_⟩
  · intro head
    rw [alternatives, hproductions]
    rfl
  · intro c
    rw [hspells.mem_nonterminals_iff, h.mem_letters_rules_iff]
    exact and_congr_left fun huses => h.isUppercase_iff_of_uses huses
  · intro c
    rw [hspells.mem_terminals_iff, h.mem_letters_rules_iff]
    exact and_congr_left fun huses => h.isLowercase_iff_of_uses huses

/-- The text of a well-formed grammar loads, and gives back the content of the grammar. -/
theorem exists_reloads (h : grammar.WellFormed) {start : Char}
    (hstart : start ∈ grammar.nonterminals) (huses : grammar.Uses start) :
    ∃ loaded, Grammar.ofText grammar.text (some start) = .ok loaded ∧
      Reloads grammar start loaded := by
  -- The lines say the rules of the grammar, and these fit together.
  have hread := h.readsAs_rules
  have hvalues := grammar.map_value_numberedRules
  have hloadable := h.loadable_rules hstart huses
  cases hrules : grammar.numberedRules with
  | nil =>
      rw [hrules] at hvalues
      exact absurd hvalues.symm hloadable.nonempty
  | cons first later =>
      rw [hrules] at hread hvalues
      rw [← hvalues] at hloadable
      have hload : Grammar.ofText grammar.text (some start) =
          .ok (spelled start ((first :: later).map Located.value)) :=
        ofText_eq_ok_iff.2 ⟨first, later, hread, hloadable, rfl⟩
      have hspells : Spells (some start) ((first :: later).map Located.value)
          (spelled start ((first :: later).map Located.value)) := spells_spelled hloadable
      refine ⟨_, hload, h.reloads_of_spells (ofText hload) ?_⟩
      rw [← hvalues]
      exact hspells

end WellFormed

/-! ## Grammars that were loaded -/

section Loaded

variable {file : String} {asked? : Option Char} {lines : List (Except FileFault (List Char))}

def IsLoaded (grammar : Grammar) : Prop :=
  (∃ text asked?, ofText text asked? = .ok grammar) ∨
    ∃ file contents? asked?, ofFile file contents? asked? = .ok grammar

theorem IsLoaded.exists_lines (h : grammar.IsLoaded) :
    ∃ file asked? lines, ofLines file asked? lines = .ok grammar := by
  rcases h with ⟨text, asked?, hload⟩ | ⟨file, contents?, asked?, hload⟩
  · exact ⟨inMemory, asked?, _, hload⟩
  · cases contents? with
    | none => cases hload
    | some contents => exact ⟨file, asked?, _, hload⟩

/-- Loading from a file leads to no grammar that a session cannot arrive at. -/
theorem IsLoaded.reachable (h : grammar.IsLoaded) : grammar.Reachable := by
  rcases h.exists_lines with ⟨file, asked?, lines, hlines⟩
  exact (WellFormed.ofLines hlines).reachable

/-- Whatever lines a grammar comes from, it spells rules that were read from some of them. -/
theorem exists_spells_of_ofLines (h : ofLines file asked? lines = .ok grammar) :
    ∃ first later, (∀ rule ∈ first :: later, rule.Readable) ∧
      Spells asked? (first :: later) grammar := by
  rcases bind_eq_ok_iff.1 h with ⟨rules, hread, hrules⟩
  have hreadable := readable_of_readRules hread
  have hcased : ∀ rule ∈ rules, rule.value.Cased := fun rule hrule => (hreadable rule hrule).toCased
  rcases (ofRules_eq_ok_iff hcased).1 hrules with ⟨first, later, rfl, hloadable, rfl⟩
  refine ⟨first.value, later.map Located.value, ?_, spells_spelled hloadable⟩
  rw [← List.map_cons, List.forall_mem_map]
  exact hreadable

/-- A letter is declared for the rule that has it, and that rule has an alternative. -/
theorem uses_of_ofLines (h : ofLines file asked? lines = .ok grammar) {c : Char}
    (hc : c ∈ grammar.nonterminals ∨ c ∈ grammar.terminals) : grammar.Uses c := by
  rcases exists_spells_of_ofLines h with ⟨first, later, hreadable, hspells⟩
  refine (uses_iff_of_alternatives hspells.alternatives fun rule hrule =>
    (hreadable rule hrule).some_alternative).2 ?_
  rcases hc with hnonterminal | hterminal
  · exact (hspells.mem_nonterminals_iff.1 hnonterminal).2
  · exact (hspells.mem_terminals_iff.1 hterminal).2

/-- There is a first head, if no other start symbol was asked for. -/
theorem exists_start_of_ofLines (h : ofLines file asked? lines = .ok grammar) :
    ∃ start, grammar.start? = some start := by
  rcases exists_spells_of_ofLines h with ⟨first, later, _, hspells⟩
  rw [hspells.start]
  cases asked? with
  | none => exact ⟨first.head, rfl⟩
  | some asked => exact ⟨asked, rfl⟩

end Loaded

/-! ## Answers -/

/-- A grammar that was loaded is the same after another round, but for the order of its symbols. -/
theorem IsLoaded.exists_reloads (h : grammar.IsLoaded) :
    ∃ start loaded, grammar.start? = some start ∧
      ofText grammar.text (some start) = .ok loaded ∧
      (∀ c, c ∈ loaded.nonterminals ↔ c ∈ grammar.nonterminals) ∧
      (∀ c, c ∈ loaded.terminals ↔ c ∈ grammar.terminals) ∧
      ∀ word, loaded.isDerived word = grammar.isDerived word := by
  rcases h.exists_lines with ⟨file, asked?, lines, hlines⟩
  have hwell := WellFormed.ofLines hlines
  -- All symbols of such a grammar are used, the start symbol among them.
  rcases exists_start_of_ofLines hlines with ⟨start, hstart⟩
  have hmem : start ∈ grammar.nonterminals := hwell.coherent.start start hstart
  have huses := uses_of_ofLines hlines (Or.inl hmem)
  rcases hwell.exists_reloads hmem huses with ⟨loaded, hload, hreloads⟩
  have hloaded : loaded.WellFormed := WellFormed.ofText hload
  have hsame : loaded.SameContent grammar := by
    refine ⟨?_, ?_, hreloads.start.trans hstart.symm, ?_⟩
    · intro c
      rw [hreloads.nonterminals]
      exact and_iff_left_of_imp fun hc => uses_of_ofLines hlines (Or.inl hc)
    · intro c
      rw [hreloads.terminals]
      exact and_iff_left_of_imp fun hc => uses_of_ofLines hlines (Or.inr hc)
    · intro head rhs
      rw [hreloads.alternatives]
  exact ⟨start, loaded, hstart, hload, hsame.nonterminals, hsame.terminals,
    hsame.isDerived_eq hloaded hwell⟩

/-! ## All together -/

/-- The text of any grammar that a session arrives at loads with any nonterminal in use as the
start symbol, and gives back the productions and the symbols in use. A grammar that was loaded has
its own symbols again after that, and answers alike for every word. No letter of either case is a
letter of the other case, a blank, or a mark of the notation. -/
theorem ofText_text :
    (∀ grammar : Grammar, grammar.Reachable → ∀ start ∈ grammar.nonterminals,
      grammar.Uses start → ∃ loaded, ofText grammar.text (some start) = .ok loaded ∧
        Reloads grammar start loaded) ∧
    (∀ grammar : Grammar, grammar.IsLoaded → ∃ start loaded, grammar.start? = some start ∧
      ofText grammar.text (some start) = .ok loaded ∧
      (∀ c, c ∈ loaded.nonterminals ↔ c ∈ grammar.nonterminals) ∧
      (∀ c, c ∈ loaded.terminals ↔ c ∈ grammar.terminals) ∧
      ∀ word, loaded.isDerived word = grammar.isDerived word) ∧
    ∀ c, isUppercase c = true ∨ isLowercase c = true →
      ¬ (isUppercase c = true ∧ isLowercase c = true) ∧ isBlank c = false ∧
        c ≠ '|' ∧ c ≠ ':' ∧ c ≠ ';' := by
  refine ⟨?_, ?_, ?_⟩
  · intro grammar hreachable start hstart huses
    exact hreachable.wellFormed.exists_reloads hstart huses
  · intro grammar hloaded
    exact hloaded.exists_reloads
  · intro c hcase
    have hsymbol : (Symbol.ofChar? c).isSome = true := Symbol.isSome_ofChar?_iff.2 hcase
    exact ⟨not_isUppercase_and_isLowercase c, Symbol.isBlank_of_isSome hsymbol,
      Symbol.ne_bar_of_isSome hsymbol, Symbol.ne_colon_of_isSome hsymbol,
      Symbol.ne_semicolon_of_isSome hsymbol⟩

def crowded : List Session.Step :=
  [.edit (.load scattered (some 'Б')), .edit (.addNonterminal 'Ж'), .edit (.addTerminal 'z'),
    .edit (.addProduction 'B' "SΩ")]

/-- Unused symbols are lost on the way, and the two rules of one head become one. -/
theorem crowded_reloads :
    (Session.new.run crowded).current.text = "S::=AB|a|ΩБ\nA::=a\nB::=a|SΩ" ∧
      (∃ loaded, ofText (Session.new.run crowded).current.text (some 'Ω') = .ok loaded ∧
        Reloads (Session.new.run crowded).current 'Ω' loaded) ∧
      (∃ grammar start loaded, ofText scattered (some 'Б') = .ok grammar ∧
        grammar.start? = some start ∧ ofText grammar.text (some start) = .ok loaded ∧
          ∀ word, loaded.isDerived word = grammar.isDerived word) ∧
      isUppercase 'Ω' = true ∧ isBlank 'Ω' = false := by
  -- `Ω` is in use on the right of a rule, so it may be the start symbol.
  have hused : (Session.new.run crowded).current.Uses 'Ω' :=
    ⟨'S', .binary 'Ω' 'Б', by decide +kernel, by decide⟩
  have hupper : isUppercase 'Ω' = true := by decide +kernel
  refine ⟨by decide +kernel, ?_, ?_, hupper, (ofText_text.2.2 'Ω' (Or.inl hupper)).2.1⟩
  · exact ofText_text.1 _ ⟨crowded, rfl⟩ 'Ω' (by decide +kernel) hused
  · have hloads : (ofText scattered (some 'Б')).isOk = true := by decide +kernel
    cases hgrammar : ofText scattered (some 'Б') with
    | error errors =>
        rw [hgrammar] at hloads
        cases hloads
    | ok grammar =>
        rcases ofText_text.2.1 grammar (Or.inl ⟨scattered, some 'Б', hgrammar⟩) with
          ⟨start, loaded, hstart, hload, _, _, hanswers⟩
        exact ⟨grammar, start, loaded, rfl, hstart, hload, hanswers⟩

end Grammar

end ChomskyNormal
