import ChomskyNormal.Proofs.Grammar.WellFormed
import Mathlib.Data.List.Basic

/-!
# What sessions keep in order

The listed symbols of either class are distinct, have the case of their class and are the ones that
are found on look-up, and neither the start symbol nor any production uses a symbol that is not
listed. This holds of both grammars of a session, whatever its steps were.

- `Grammar.Coherent` : how lists, look-ups, start symbol and productions fit together;
- `Session.run_coherent` : both grammars after any run.
-/

namespace ChomskyNormal

structure Grammar.Coherent (grammar : Grammar) : Prop where
  nodup_nonterminals : grammar.nonterminals.Nodup
  nodup_terminals : grammar.terminals.Nodup
  uppercase : ∀ c ∈ grammar.nonterminals, isUppercase c = true
  lowercase : ∀ c ∈ grammar.terminals, isLowercase c = true
  disjoint : grammar.nonterminals.Disjoint grammar.terminals
  isNonterminal_iff : ∀ c, c ∈ grammar.alphabet.nonterminals ↔ c ∈ grammar.nonterminals
  isTerminal_iff : ∀ c, c ∈ grammar.alphabet.terminals ↔ c ∈ grammar.terminals
  start : ∀ c, grammar.start? = some c → c ∈ grammar.nonterminals
  /-- Either index may be where the production is found. -/
  binary : ∀ head left right,
    .binary left right ∈ grammar.alternatives head ∨
        head ∈ grammar.productions.producers (.binary left right) →
      head ∈ grammar.nonterminals ∧ left ∈ grammar.nonterminals ∧ right ∈ grammar.nonterminals
  terminal : ∀ head letter,
    .terminal letter ∈ grammar.alternatives head ∨
        head ∈ grammar.productions.producers (.terminal letter) →
      head ∈ grammar.nonterminals ∧ letter ∈ grammar.terminals

namespace Grammar.WellFormed

variable {grammar : Grammar}

theorem mem_nonterminals_iff (h : grammar.WellFormed) {c : Char} :
    c ∈ grammar.nonterminals ↔ c ∈ grammar.alphabet.nonterminals :=
  h.alphabet.nonterminals.mem_order_iff

theorem mem_terminals_iff (h : grammar.WellFormed) {c : Char} :
    c ∈ grammar.terminals ↔ c ∈ grammar.alphabet.terminals :=
  h.alphabet.terminals.mem_order_iff

/-- No letter has both cases, so no symbol is in both classes. -/
theorem disjoint (h : grammar.WellFormed) : grammar.nonterminals.Disjoint grammar.terminals := by
  intro c hupper hlower
  have hcase : isUppercase c = true := h.alphabet.uppercase (h.mem_nonterminals_iff.1 hupper)
  have hcase' : isLowercase c = true := h.alphabet.lowercase (h.mem_terminals_iff.1 hlower)
  rw [not_isLowercase_of_isUppercase hcase] at hcase'
  cases hcase'

/-- It does not matter by which index a production is found. -/
theorem mem_alternatives_of_found (h : grammar.WellFormed) {head : Char} {rhs : Rhs}
    (hfound : rhs ∈ grammar.alternatives head ∨ head ∈ grammar.productions.producers rhs) :
    rhs ∈ grammar.productions.alternatives head := by
  rcases hfound with hmem | hmem
  · exact hmem
  · exact h.productions.mem_producers_iff.1 hmem

/-- The invariant holds all that coherence asks for. -/
theorem coherent (h : grammar.WellFormed) : grammar.Coherent where
  nodup_nonterminals := h.alphabet.nonterminals.nodup
  nodup_terminals := h.alphabet.terminals.nodup
  uppercase c hc := h.alphabet.uppercase (h.mem_nonterminals_iff.1 hc)
  lowercase c hc := h.alphabet.lowercase (h.mem_terminals_iff.1 hc)
  disjoint := h.disjoint
  isNonterminal_iff c := h.mem_nonterminals_iff.symm
  isTerminal_iff c := h.mem_terminals_iff.symm
  start c hc := h.mem_nonterminals_iff.2 (h.alphabet.start hc)
  binary head left right hfound := by
    have hmem := h.mem_alternatives_of_found hfound
    rcases h.covers hmem with ⟨hleft, hright⟩
    exact ⟨h.mem_nonterminals_iff.2 (h.head_mem hmem), h.mem_nonterminals_iff.2 hleft,
      h.mem_nonterminals_iff.2 hright⟩
  terminal head letter hfound := by
    have hmem := h.mem_alternatives_of_found hfound
    exact ⟨h.mem_nonterminals_iff.2 (h.head_mem hmem), h.mem_terminals_iff.2 (h.covers hmem)⟩

end Grammar.WellFormed

/-- After any steps of a new session, refused ones included, both of its grammars are coherent. -/
theorem Session.run_coherent (steps : List Session.Step) :
    (Session.new.run steps).current.Coherent ∧ (Session.new.run steps).saved.Coherent := by
  have hempty : (∅ : Grammar).WellFormed := Grammar.wellFormed_empty
  have hwell : (Session.new.run steps).current.WellFormed ∧
      (Session.new.run steps).saved.WellFormed :=
    Grammar.wellFormed_run steps ⟨hempty, hempty⟩
  exact ⟨hwell.1.coherent, hwell.2.coherent⟩

end ChomskyNormal
