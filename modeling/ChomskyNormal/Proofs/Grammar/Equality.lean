import ChomskyNormal.Proofs.Grammar.Reach

/-!
# Equal grammars

Grammars are compared as wholes, with their look-up sets, both indexes and the counter. None of
these holds anything that the lists do not show, whatever was refused, reset or replaced before.
So two grammars are equal as soon as they look alike.

- `Grammar.LooksLike` : the same lists of symbols, start symbol and alternatives;
- `Grammar.Tidy` : look-up sets and indexes have no residue;
- `Grammar.Reachable.eq_iff_looksLike` : equality of any grammars that sessions arrive at.
-/

namespace ChomskyNormal

namespace Grammar

/-- Both grammars show the same: their symbols in order of registration, their start symbols, and
the alternatives of every head in order of insertion. -/
structure LooksLike (grammar other : Grammar) : Prop where
  nonterminals : grammar.nonterminals = other.nonterminals
  terminals : grammar.terminals = other.terminals
  start : grammar.start? = other.start?
  alternatives : ∀ head, grammar.alternatives head = other.alternatives head

/-- Look-up sets hold the listed symbols only, and neither index has a key without content. -/
structure Tidy (grammar : Grammar) : Prop where
  nonterminals : ∀ c ∈ grammar.alphabet.nonterminals.members, c ∈ grammar.nonterminals
  terminals : ∀ c ∈ grammar.alphabet.terminals.members, c ∈ grammar.terminals
  byHead : ∀ head : Char, grammar.productions.byHead[head]? ≠ some []
  byRhs : ∀ rhs : Rhs, grammar.productions.byRhs[rhs]? ≠ some ∅

namespace WellFormed

variable {grammar other : Grammar}

/-- Look-up sets hold what the lists hold, and keys come with their first entry. -/
theorem tidy (h : grammar.WellFormed) : grammar.Tidy where
  nonterminals _ hc := h.mem_nonterminals_iff.2 hc
  terminals _ hc := h.mem_terminals_iff.2 hc
  byHead head := by
    rcases h.productions with ⟨entries, _, hentries⟩
    rw [hentries]
    exact Productions.getElem?_byHead_ofEntries_ne entries head
  byRhs rhs := by
    rcases h.productions with ⟨entries, _, hentries⟩
    rw [hentries]
    exact Productions.getElem?_byRhs_ofEntries_ne entries rhs

theorem alternatives_eq_nil (h : grammar.WellFormed) {head : Char}
    (hnew : head ∉ grammar.nonterminals) : grammar.alternatives head = [] := by
  rw [List.eq_nil_iff_forall_not_mem]
  exact fun rhs hrhs => hnew (h.mem_nonterminals_iff.2 (h.head_mem hrhs))

/-- Only heads that are listed have alternatives, so no other head needs to be looked at. -/
theorem looksLike_of_listed (h : grammar.WellFormed) (hother : other.WellFormed)
    (hnonterminals : grammar.nonterminals = other.nonterminals)
    (hterminals : grammar.terminals = other.terminals) (hstart : grammar.start? = other.start?)
    (halternatives : ∀ head ∈ grammar.nonterminals,
      grammar.alternatives head = other.alternatives head) : grammar.LooksLike other := by
  refine ⟨hnonterminals, hterminals, hstart, fun head => ?_⟩
  by_cases hmem : head ∈ grammar.nonterminals
  · exact halternatives head hmem
  · rw [h.alternatives_eq_nil hmem]
    rw [hnonterminals] at hmem
    exact (hother.alternatives_eq_nil hmem).symm

/-- The lists and the start symbol say all there is to say of an alphabet. -/
theorem alphabet_eq_of_looksLike (h : grammar.WellFormed) (hother : other.WellFormed)
    (hlooks : grammar.LooksLike other) : grammar.alphabet = other.alphabet := by
  -- The list of a roster determines its look-up set.
  have hnonterminals : grammar.alphabet.nonterminals = other.alphabet.nonterminals := by
    rw [h.alphabet.nonterminals.eq_ofList, hother.alphabet.nonterminals.eq_ofList]
    exact congrArg Roster.ofList hlooks.nonterminals
  have hterminals : grammar.alphabet.terminals = other.alphabet.terminals := by
    rw [h.alphabet.terminals.eq_ofList, hother.alphabet.terminals.eq_ofList]
    exact congrArg Roster.ofList hlooks.terminals
  have hstart : grammar.alphabet.start? = other.alphabet.start? := hlooks.start
  calc
    grammar.alphabet
        = ⟨grammar.alphabet.nonterminals, grammar.alphabet.terminals, grammar.alphabet.start?⟩ :=
          rfl
    _ = ⟨other.alphabet.nonterminals, other.alphabet.terminals, other.alphabet.start?⟩ := by
          rw [hnonterminals, hterminals, hstart]
    _ = other.alphabet := rfl

/-- Well-formed grammars that look alike are equal, all indexes included. -/
theorem eq_of_looksLike (h : grammar.WellFormed) (hother : other.WellFormed)
    (hlooks : grammar.LooksLike other) : grammar = other := by
  have halphabet : grammar.alphabet = other.alphabet := h.alphabet_eq_of_looksLike hother hlooks
  have hproductions : grammar.productions = other.productions :=
    h.productions.eq_of_alternatives hother.productions hlooks.alternatives
  calc
    grammar = ⟨grammar.alphabet, grammar.productions⟩ := rfl
    _ = ⟨other.alphabet, other.productions⟩ := by rw [halphabet, hproductions]
    _ = other := rfl

end WellFormed

/-- A grammar that a session arrives at has no residue of earlier steps, and is equal to another
one exactly when it looks like that. -/
theorem Reachable.eq_iff_looksLike {grammar : Grammar} (h : grammar.Reachable) :
    grammar.Tidy ∧
      ∀ other : Grammar, other.Reachable → (grammar = other ↔ grammar.LooksLike other) := by
  refine ⟨h.wellFormed.tidy, fun other hother => ⟨?_, ?_⟩⟩
  · rintro rfl
    exact ⟨rfl, rfl, rfl, fun _ => rfl⟩
  · exact h.wellFormed.eq_of_looksLike hother.wellFormed

def atOnce : List Session.Step :=
  [.edit (.load "S ::= AB | a\nA ::= a\nB ::= AA" none)]

/-- The same grammar after other symbols, a reset, a load that fails and refused additions. -/
def stepwise : List Session.Step :=
  [.edit (.addNonterminal 'Z'), .edit (.addTerminal 'z'), .edit (.addProduction 'Z' "z"),
    .edit (.setStart 'Z'), .save, .edit .reset, .edit (.load "S ::= AB\nS ::= AB" none),
    .edit (.addNonterminal 'S'), .edit (.addNonterminal 'A'), .edit (.addTerminal 'a'),
    .edit (.addProduction 'A' "a"), .edit (.addProduction 'S' "AB"), .edit (.addNonterminal 'B'),
    .edit (.addProduction 'S' "AB"), .edit (.addProduction 'S' "AB"),
    .edit (.addProduction 'B' "AA"), .edit (.addProduction 'S' "z"), .edit (.setStart 'S'),
    .edit (.addProduction 'S' "a")]

/-- Two sessions arrive at one grammar, one of them over detours. -/
theorem stepwise_eq_atOnce :
    (Session.new.run atOnce).current.Reachable ∧ (Session.new.run stepwise).current.Reachable ∧
      (Session.new.run stepwise).current.Tidy ∧
      (Session.new.run stepwise).current.LooksLike (Session.new.run atOnce).current ∧
      (Session.new.run stepwise).current = (Session.new.run atOnce).current := by
  have hreach : (Session.new.run atOnce).current.Reachable := ⟨atOnce, rfl⟩
  have hreach' : (Session.new.run stepwise).current.Reachable := ⟨stepwise, rfl⟩
  have hheads : (Session.new.run stepwise).current.nonterminals = ['S', 'A', 'B'] := by
    decide +kernel
  -- Heads that are not listed have no alternatives, so there are three to compare.
  have halternatives : ∀ head ∈ (Session.new.run stepwise).current.nonterminals,
      (Session.new.run stepwise).current.alternatives head =
        (Session.new.run atOnce).current.alternatives head := by
    rw [hheads]
    simp only [List.forall_mem_cons, List.not_mem_nil, false_implies, implies_true, and_true]
    decide +kernel
  have hlooks : (Session.new.run stepwise).current.LooksLike (Session.new.run atOnce).current :=
    hreach'.wellFormed.looksLike_of_listed hreach.wellFormed (by decide +kernel)
      (by decide +kernel) (by decide +kernel) halternatives
  rcases Reachable.eq_iff_looksLike hreach' with ⟨htidy, hiff⟩
  exact ⟨hreach, hreach', htidy, hlooks, (hiff _ hreach).2 hlooks⟩

end Grammar

end ChomskyNormal
