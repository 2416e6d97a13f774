import ChomskyNormal.Proofs.Grammar.Coherence
import Mathlib.Data.List.Nodup
import Mathlib.Data.List.Perm.Subperm
import Mathlib.Data.List.ProdSigma

/-!
# How large a grammar can be

There are only so many letters that have a case, and symbols do not repeat. So there is a bound on
the symbols of a grammar, and with it one on the alternatives of a head.

- `casedCodePoints` : the code points of all letters with a case;
- `length_casedCodePoints_lt` : there are fewer than `2 ^ 15` of them;
- `Grammar.WellFormed.length_symbols_le` : there are not more symbols than such letters;
- `Grammar.WellFormed.length_alternatives_lt` : the alternatives of a head can be numbered with
  32 bits.
-/

namespace ChomskyNormal

/-! ## Letters -/

def casedCodePoints : List ℕ :=
  caseRuns.flatMap fun run => List.range' run.first (run.last + 1 - run.first)

/-- A round bound, with room for the letters that later versions of Unicode bring. -/
theorem length_casedCodePoints_lt : casedCodePoints.length < 2 ^ 15 := by
  rw [casedCodePoints, List.length_flatMap]
  simp only [List.length_range']
  decide +kernel

theorem toNat_mem_casedCodePoints {c : Char} (h : isUppercase c = true ∨ isLowercase c = true) :
    c.toNat ∈ casedCodePoints := by
  rcases exists_letterCase_iff.2 h with ⟨letterCase, hcase⟩
  rcases List.exists_of_findSome?_eq_some hcase with ⟨run, hrun, hinside⟩
  rw [CaseRun.case?, Option.ite_none_right_eq_some] at hinside
  refine List.mem_flatMap.2 ⟨run, hrun, List.mem_range'_1.2 ⟨hinside.1.1, ?_⟩⟩
  omega

/-! ## Symbols and alternatives -/

namespace Grammar.WellFormed

variable {grammar : Grammar}

/-- No letter is two symbols, so there are not more symbols than letters with a case. -/
theorem length_symbols_le (h : grammar.WellFormed) :
    grammar.nonterminals.length + grammar.terminals.length ≤ casedCodePoints.length := by
  have hsymbols : (grammar.nonterminals ++ grammar.terminals).Nodup :=
    h.coherent.nodup_nonterminals.append h.coherent.nodup_terminals h.disjoint
  have hcodes : ((grammar.nonterminals ++ grammar.terminals).map Char.toNat).Nodup :=
    hsymbols.map fun c d hsame => Char.toNat_inj.1 hsame
  have hsubset : (grammar.nonterminals ++ grammar.terminals).map Char.toNat ⊆ casedCodePoints := by
    intro code hcode
    rcases List.mem_map.1 hcode with ⟨c, hc, rfl⟩
    refine toNat_mem_casedCodePoints ?_
    exact (List.mem_append.1 hc).imp (h.coherent.uppercase c) (h.coherent.lowercase c)
  have hlength := (List.subperm_of_subset hcodes hsubset).length_le
  rwa [List.length_map, List.length_append] at hlength

/-- Alternatives do not repeat, and each is a pair of nonterminals or a terminal. -/
theorem length_alternatives_le (h : grammar.WellFormed) (head : Char) :
    (grammar.alternatives head).length ≤
      grammar.nonterminals.length * grammar.nonterminals.length + grammar.terminals.length := by
  -- There are no more right-hand sides than registered symbols allow.
  have hsubset : grammar.alternatives head ⊆
      (grammar.nonterminals ×ˢ grammar.nonterminals).map (fun pair => .binary pair.1 pair.2) ++
        grammar.terminals.map .terminal := by
    intro rhs hrhs
    have hcovers := h.covers hrhs
    cases rhs with
    | binary left right =>
        have hpair : (left, right) ∈ grammar.nonterminals ×ˢ grammar.nonterminals :=
          List.pair_mem_product.2
            ⟨h.mem_nonterminals_iff.2 hcovers.1, h.mem_nonterminals_iff.2 hcovers.2⟩
        exact List.mem_append_left _ (List.mem_map.2 ⟨(left, right), hpair, rfl⟩)
    | terminal letter =>
        exact List.mem_append_right _ (List.mem_map_of_mem (h.mem_terminals_iff.2 hcovers))
  have hlength :=
    (List.subperm_of_subset (h.productions.nodup_alternatives head) hsubset).length_le
  rwa [List.length_append, List.length_map, List.length_map, List.length_product] at hlength

/-- The number of alternatives fits into a 32-bit word. -/
theorem length_alternatives_lt (h : grammar.WellFormed) (head : Char) :
    (grammar.alternatives head).length < 2 ^ 32 := by
  have hsymbols : grammar.nonterminals.length + grammar.terminals.length < 2 ^ 15 :=
    h.length_symbols_le.trans_lt length_casedCodePoints_lt
  have hnonterminals : grammar.nonterminals.length ≤ 2 ^ 15 := by omega
  have hterminals : grammar.terminals.length ≤ 2 ^ 15 := by omega
  calc
    (grammar.alternatives head).length
        ≤ grammar.nonterminals.length * grammar.nonterminals.length + grammar.terminals.length :=
          h.length_alternatives_le head
    _ ≤ 2 ^ 15 * 2 ^ 15 + 2 ^ 15 :=
          Nat.add_le_add (Nat.mul_le_mul hnonterminals hnonterminals) hterminals
    _ < 2 ^ 32 := by decide

end Grammar.WellFormed

end ChomskyNormal
