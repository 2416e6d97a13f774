/-!
# Reasons to refuse a change to a grammar

Registering a symbol, choosing the start symbol and adding a production each check their
argument against what the grammar already holds. A `GrammarError` says which check failed.
-/

namespace ChomskyNormal

inductive GrammarError
  | alreadyRegistered (symbol : Char)
  /-- A nonterminal that is not uppercase, or a terminal that is not lowercase. -/
  | wrongCase (symbol : Char)
  | unknownNonterminal (symbol : Char)
  /-- A right-hand side uses a symbol that is not registered in its class. -/
  | unknownSymbol (symbol : Char)
  /-- A right-hand side is neither two nonterminals nor one terminal. -/
  | malformedProduction (text : String)
  | duplicateProduction (head : Char) (text : String)
  /-- The start symbol is chosen a second time; `current` is the first choice. -/
  | startAlreadySet (current : Char)
  deriving DecidableEq, Repr

namespace GrammarError

def message : GrammarError → String
  | .alreadyRegistered c => s!"symbol `{c}` is already registered"
  | .wrongCase c =>
      s!"`{c}` is not a valid symbol for its class " ++
        "(non-terminals are uppercase, terminals lowercase)"
  | .unknownNonterminal c => s!"`{c}` is not a registered non-terminal"
  | .unknownSymbol c => s!"`{c}` is used in a production but was never registered"
  | .malformedProduction text =>
      s!"`{text}` is not in Chomsky Normal Form (expected two non-terminals or one terminal)"
  | .duplicateProduction head text => s!"production `{head}::={text}` already exists"
  | .startAlreadySet current => s!"the start symbol is already set to `{current}`"

instance : ToString GrammarError := ⟨message⟩

end GrammarError

end ChomskyNormal
