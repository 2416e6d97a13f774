/-!
# Questions that have no answer

Whether a grammar derives a word can only be asked of a grammar with productions and a start
symbol, and only about a word that is not empty and is made of the grammar's terminals.
-/

namespace ChomskyNormal

inductive WordError
  | noProductions
  | noStart
  | emptyWord
  | unknownTerminal (c : Char)
  deriving DecidableEq, Repr

namespace WordError

def message : WordError → String
  | .noProductions => "the grammar has no productions"
  | .noStart => "the grammar has no start symbol"
  | .emptyWord => "the empty word cannot be derived by a CNF grammar"
  | .unknownTerminal c => s!"`{c}` in the word is not a registered terminal"

instance : ToString WordError := ⟨message⟩

end WordError

end ChomskyNormal
