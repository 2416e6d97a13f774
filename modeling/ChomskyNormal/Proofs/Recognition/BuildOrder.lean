import ChomskyNormal.Proofs.Grammar.Coherence
import ChomskyNormal.Proofs.Recognition.Cells

/-!
# Recognition in any order

Symbols are listed as they were registered and alternatives as they were inserted, but no table
depends on these orders. Cells are sets, and they are filled from sets of producers.

- `Grammar.SameContent` : the same symbols, start symbol and productions in whatever order;
- `Grammar.SameContent.table_eq`, `Grammar.SameContent.isDerived_eq` : the same tables and answers.
-/

namespace ChomskyNormal

/-- Rows are built from the producers of right-hand sides, and from nothing else. -/
theorem Table.rowsTo_congr {productions other : Productions}
    (h : ∀ rhs, productions.producers rhs = other.producers rhs) (word : List Char) (span : Nat) :
    rowsTo productions word span = rowsTo other word span := by
  have hjoin : joinSplits productions = joinSplits other := by
    funext rows span start
    simp only [joinSplits, join, h]
  induction span with
  | zero => simp only [rowsTo, letterRow, h]
  | succ span ih => rw [rowsTo, rowsTo, ih, hjoin]

namespace Grammar

/-- Both grammars have the same sets of symbols, the same start symbol, and the same set of
right-hand sides for each head. -/
structure SameContent (grammar other : Grammar) : Prop where
  nonterminals : ∀ c, c ∈ grammar.nonterminals ↔ c ∈ other.nonterminals
  terminals : ∀ c, c ∈ grammar.terminals ↔ c ∈ other.terminals
  start : grammar.start? = other.start?
  alternatives : ∀ head rhs, rhs ∈ grammar.alternatives head ↔ rhs ∈ other.alternatives head

variable {grammar other : Grammar}

/-- Lists that differ in their order only, with no other head to be looked at than those that are
registered. -/
theorem WellFormed.sameContent_of_perm (h : grammar.WellFormed) (hother : other.WellFormed)
    (hnonterminals : grammar.nonterminals.Perm other.nonterminals)
    (hterminals : grammar.terminals.Perm other.terminals) (hstart : grammar.start? = other.start?)
    (halternatives : ∀ head ∈ grammar.nonterminals,
      (grammar.alternatives head).Perm (other.alternatives head)) :
    grammar.SameContent other where
  nonterminals _ := hnonterminals.mem_iff
  terminals _ := hterminals.mem_iff
  start := hstart
  alternatives head rhs := by
    constructor
    · intro hmem
      have hhead : head ∈ grammar.nonterminals := h.mem_nonterminals_iff.2 (h.head_mem hmem)
      exact (halternatives head hhead).mem_iff.1 hmem
    · intro hmem
      -- Only registered heads are compared, and no other head has an alternative in either grammar.
      have hhead : head ∈ other.nonterminals :=
        hother.mem_nonterminals_iff.2 (hother.head_mem hmem)
      exact (halternatives head (hnonterminals.mem_iff.2 hhead)).mem_iff.2 hmem

namespace SameContent

variable (hsame : grammar.SameContent other) (h : grammar.WellFormed) (hother : other.WellFormed)
include hsame h hother

theorem producers_eq (rhs : Rhs) :
    grammar.productions.producers rhs = other.productions.producers rhs := by
  refine Std.ExtTreeSet.ext_mem fun head => ?_
  rw [h.productions.mem_producers_iff, hother.productions.mem_producers_iff]
  exact hsame.alternatives head rhs

theorem isEmpty_eq : grammar.productions.isEmpty = other.productions.isEmpty := by
  rw [Bool.eq_iff_iff, h.productions.isEmpty_iff, hother.productions.isEmpty_iff]
  refine forall_congr' fun head => ?_
  rw [List.eq_nil_iff_forall_not_mem, List.eq_nil_iff_forall_not_mem]
  exact forall_congr' fun rhs => not_congr (hsame.alternatives head rhs)

theorem checkWord_eq (word : List Char) : grammar.checkWord word = other.checkWord word := by
  have hunknown : (fun c => decide (c ∉ grammar.alphabet.terminals)) =
      fun c => decide (c ∉ other.alphabet.terminals) := by
    funext c
    rw [decide_eq_decide, ← h.mem_terminals_iff, ← hother.mem_terminals_iff, hsame.terminals]
  rw [checkWord, checkWord, hsame.isEmpty_eq h hother, hsame.start, hunknown]

theorem table_eq (word : String) : grammar.table word = other.table word := by
  rw [table, table, hsame.checkWord_eq h hother]
  simp only [Table.rowsTo_congr (hsame.producers_eq h hother)]

theorem isDerived_eq (word : String) : grammar.isDerived word = other.isDerived word := by
  rw [isDerived, isDerived, hsame.table_eq h hother]

end SameContent

end Grammar

end ChomskyNormal
