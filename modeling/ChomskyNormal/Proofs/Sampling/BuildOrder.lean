import ChomskyNormal.Proofs.Recognition.BuildOrder
import ChomskyNormal.Proofs.Sampling.Outcome

/-!
# Sampling in any order

The order of insertion decides which word is sampled from given numbers, and the order of
registration in which order least heights are found. Neither decides whether a word is sampled at
all, or what is wrong if none is.

- `Grammar.Settled` : the numbers settle all choices of a sample;
- `Grammar.SampledAlike` : samples of two grammars fail alike or all succeed;
- `Grammar.Reachable.build_order_irrelevant` : tables, answers and samples of equal contents.
-/

namespace ChomskyNormal

namespace Grammar

def Settled (grammar : Grammar) (source : Source) (symbol : Char) (maxDepth position : ℕ) : Prop :=
  ∀ call, grammar.Samples source symbol maxDepth position call →
    ¬ call.Stalls grammar.productions grammar.heights source

/-- Samples of both grammars fail with one error whatever the source, before a number is taken; or
those of either grammar succeed from all numbers that settle their choices. -/
def SampledAlike (grammar other : Grammar) (symbol : Char) (maxDepth : ℕ) : Prop :=
  (∃ error, error ≠ .stalled ∧ ∀ source position,
      grammar.sampleFrom symbol maxDepth source position = .error error position ∧
        other.sampleFrom symbol maxDepth source position = .error error position) ∨
    ∀ source position,
      (grammar.Settled source symbol maxDepth position →
        ∃ tree next, grammar.sampleFrom symbol maxDepth source position = .ok tree next) ∧
      (other.Settled source symbol maxDepth position →
        ∃ tree next, other.sampleFrom symbol maxDepth source position = .ok tree next)

variable {grammar other : Grammar}

namespace SameContent

/-- Both grammars have the same trees, and the least of their heights decides. -/
theorem sampledAlike (hsame : grammar.SameContent other) (h : grammar.WellFormed)
    (hother : other.WellFormed) (symbol : Char) (maxDepth : ℕ) :
    grammar.SampledAlike other symbol maxDepth := by
  -- The trees are the same, and so is the least of their heights.
  have hheights : grammar.productions.treeHeights symbol = other.productions.treeHeights symbol :=
    Productions.treeHeights_congr hsame.alternatives symbol
  rcases grammar.productions.treeHeights_cases symbol maxDepth with
    hnone | ⟨needed, hleast, hlt | hle⟩
  · refine Or.inl ⟨.unproductive symbol, nofun, fun source position => ⟨?_, ?_⟩⟩
    · exact h.sampleFrom_of_empty hnone
    · exact hother.sampleFrom_of_empty (hheights ▸ hnone)
  · refine Or.inl ⟨.depthTooSmall symbol needed maxDepth, nofun, fun source position => ⟨?_, ?_⟩⟩
    · exact h.sampleFrom_of_lt hleast hlt
    · exact hother.sampleFrom_of_lt (hheights ▸ hleast) hlt
  · refine Or.inr fun source position => ⟨fun hsettled => ?_, fun hsettled => ?_⟩
    · exact (h.sampleEnds source symbol maxDepth position).sampled.2
        ⟨⟨needed, hleast.1, hle⟩, hsettled⟩
    · exact (hother.sampleEnds source symbol maxDepth position).sampled.2
        ⟨⟨needed, hheights ▸ hleast.1, hle⟩, hsettled⟩

end SameContent

/-- Grammars that sessions arrive at in any two ways, with the same content in the end, have the
same table for every word, give the same answers, and can be sampled alike. -/
theorem Reachable.build_order_irrelevant (h : grammar.Reachable) (hother : other.Reachable)
    (hsame : grammar.SameContent other) :
    (∀ word, grammar.table word = other.table word) ∧
    (∀ word, grammar.isDerived word = other.isDerived word) ∧
    ∀ symbol maxDepth, grammar.SampledAlike other symbol maxDepth :=
  ⟨hsame.table_eq h.wellFormed hother.wellFormed, hsame.isDerived_eq h.wellFormed hother.wellFormed,
    hsame.sampledAlike h.wellFormed hother.wellFormed⟩

def reversed : List Session.Step :=
  [.edit (.addNonterminal 'X'), .edit .reset, .edit (.addProduction 'X' "a"),
    .edit (.load "C ::= AB\nB ::= b | CC\nA ::= a | BA\nS ::= BC | AB" (some 'S')),
    .edit (.addProduction 'C' "a"), .edit (.setStart 'C')]

/-- The textbook grammar and its rules read backwards, which list productions in other orders. -/
theorem textbook_build_order :
    (Session.new.run textbook).current.Reachable ∧ (Session.new.run reversed).current.Reachable ∧
      (Session.new.run textbook).current.SameContent (Session.new.run reversed).current ∧
      (Session.new.run textbook).current ≠ (Session.new.run reversed).current ∧
      (∀ word, (Session.new.run textbook).current.table word =
        (Session.new.run reversed).current.table word) ∧
      (∀ word, (Session.new.run textbook).current.isDerived word =
        (Session.new.run reversed).current.isDerived word) ∧
      ∀ symbol maxDepth, (Session.new.run textbook).current.SampledAlike
        (Session.new.run reversed).current symbol maxDepth := by
  have hreach : (Session.new.run textbook).current.Reachable := ⟨textbook, rfl⟩
  have hreach' : (Session.new.run reversed).current.Reachable := ⟨reversed, rfl⟩
  have hheads : (Session.new.run textbook).current.nonterminals = ['S', 'A', 'B', 'C'] := by
    decide +kernel
  -- Only registered heads have alternatives, so four heads are compared.
  have halternatives : ∀ head ∈ (Session.new.run textbook).current.nonterminals,
      ((Session.new.run textbook).current.alternatives head).Perm
        ((Session.new.run reversed).current.alternatives head) := by
    rw [hheads]
    simp only [List.forall_mem_cons, List.not_mem_nil, false_implies, implies_true, and_true]
    decide +kernel
  have hsame : (Session.new.run textbook).current.SameContent
      (Session.new.run reversed).current :=
    hreach.wellFormed.sameContent_of_perm hreach'.wellFormed (by decide +kernel)
      (by decide +kernel) (by decide +kernel) halternatives
  have hdiffer : (Session.new.run textbook).current ≠ (Session.new.run reversed).current := by
    decide +kernel
  exact ⟨hreach, hreach', hsame, hdiffer, Reachable.build_order_irrelevant hreach hreach' hsame⟩

end Grammar

end ChomskyNormal
