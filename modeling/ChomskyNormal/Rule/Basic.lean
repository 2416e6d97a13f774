import ChomskyNormal.Rule.Fault
import ChomskyNormal.Rule.Token
import ChomskyNormal.Symbol
import ChomskyNormal.Text.Pieces

/-!
# Rules

A rule gives one head all the alternatives that a line lists for it. Reading a line checks
its form only: whether an alternative has the shape of a right-hand side is for the grammar
to decide.

- `Rule.ofTokens` : reads a rule from the tokens of a line;
- `Rule.ofLine` : reads a rule from a line.
-/

namespace ChomskyNormal

/-- A head with the letters of each alternative, in order of writing. -/
structure Rule where
  head : Char
  alternatives : List (List Char)
  deriving DecidableEq, Repr

namespace Rule

def readHead : Option Token → Except RuleFault Char
  | none => .error .blankLine
  | some (.symbols [c]) => if isUppercase c then .ok c else .error .missingHead
  | some _ => .error .missingHead

/-- The letters of one alternative. Neighbouring runs belong together, so `C C` is `CC`. -/
def readAlternative (tokens : List Token) : Except RuleFault (List Char) :=
  if .define ∈ tokens then
    .error .unexpectedDefine
  else
    match tokens.flatMap Token.letters with
    | [] => .error .emptyAlternative
    | letters =>
        match letters.find? fun c => (Symbol.ofChar? c).isNone with
        | some c => .error (.invalidSymbol c)
        | none => .ok letters

/-- The alternatives between bars; the leftmost one with a fault decides which is reported. -/
def readAlternatives (tokens : List Token) : Except RuleFault (List (List Char)) :=
  (pieces .bar tokens).mapM readAlternative

def ofTokens (tokens : List Token) : Except RuleFault Rule := do
  let head ← readHead tokens.head?
  if tokens[1]? ≠ some .define then
    throw .missingDefine
  let alternatives ← readAlternatives (tokens.drop 2)
  return { head, alternatives }

def ofLine (line : List Char) : Except RuleFault Rule :=
  match Token.scan? line with
  | none => .error .malformedDefine
  | some tokens => ofTokens tokens

def letters (rule : Rule) : List Char :=
  rule.head :: rule.alternatives.flatten

end Rule

end ChomskyNormal
