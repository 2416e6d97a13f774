import ChomskyNormal.Grammar.Basic

/-!
# Grammars as text

A nonterminal and its right-hand sides are written as one rule, `A::=BC|a`. Rules follow
each other in the order in which their heads were registered; a nonterminal without
productions has no rule.
-/

namespace ChomskyNormal

/-- One head with all its alternatives, `A::=BC|a`. -/
def ruleText (head : Char) (alternatives : List Rhs) : String :=
  s!"{head}::=" ++ "|".intercalate (alternatives.map Rhs.text)

namespace Grammar

/-- The rule of a nonterminal; empty if it has no productions. -/
def ruleText (grammar : Grammar) (head : Char) : String :=
  match grammar.alternatives head with
  | [] => ""
  | alternatives => ChomskyNormal.ruleText head alternatives

def compactText (grammar : Grammar) : String :=
  String.join (grammar.nonterminals.map grammar.ruleText)

/-- One rule on each line. -/
def text (grammar : Grammar) : String :=
  "\n".intercalate ((grammar.nonterminals.map grammar.ruleText).filter (· ≠ ""))

instance : ToString Grammar := ⟨text⟩

end Grammar

end ChomskyNormal
