/-!
# What can be wrong with a rule line

A rule line reads `A ::= BC | a`. A line that does not have this form has one of the faults
below; the one that is found first is reported.
-/

namespace ChomskyNormal

inductive RuleFault
  /-- A colon is not part of a define mark. -/
  | malformedDefine
  /-- The line does not hold any token. -/
  | blankLine
  /-- The line does not begin with a single uppercase letter. -/
  | missingHead
  /-- The head is not followed by a define mark. -/
  | missingDefine
  /-- An alternative holds another define mark. -/
  | unexpectedDefine
  /-- Nothing stands between two bars, or beside the first or last one. -/
  | emptyAlternative
  /-- A character of an alternative has no letter case. -/
  | invalidSymbol (c : Char)
  deriving DecidableEq, Repr

namespace RuleFault

def message : RuleFault → String
  | .malformedDefine => "Malformed `::=`"
  | .blankLine =>
      "Blank line encountered in rule parser (this is a problem with the loader, not the grammar)"
  | .missingHead => "Rules must start with a single uppercase nonterminal"
  | .missingDefine => "Expected `::=` after the nonterminal"
  | .unexpectedDefine => "Unexpected `::=` encountered"
  | .emptyAlternative => "Empty alternative"
  | .invalidSymbol c => s!"`{c}` is neither a nonterminal (uppercase) nor a terminal (lowercase)"

instance : ToString RuleFault := ⟨message⟩

end RuleFault

end ChomskyNormal
