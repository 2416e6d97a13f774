import ChomskyNormal.Grammar.Error
import ChomskyNormal.Located
import ChomskyNormal.Rule.Fault

/-!
# Why a grammar does not load

Loading reports every error that it finds, each at the file or line that it comes from. Two reports
are compared error by error, and two errors by their locations and by what is wrong.

- `LoadFault.agrees` : the comparison of what is wrong;
- `reportsAgree` : the comparison of reports.
-/

namespace ChomskyNormal

inductive FileFault
  | notFound
  /-- A line is not valid UTF-8. -/
  | invalidData
  deriving DecidableEq, Repr

namespace FileFault

def message : FileFault → String
  | .notFound => "No such file or directory (os error 2)"
  | .invalidData => "stream did not contain valid UTF-8"

instance : ToString FileFault := ⟨message⟩

end FileFault

inductive LoadFault
  | file (fault : FileFault)
  | rule (fault : RuleFault)
  | noRule
  /-- The rules are well formed, but the grammar refuses a symbol or a production. -/
  | grammar (error : GrammarError)
  deriving DecidableEq, Repr

namespace LoadFault

def message : LoadFault → String
  | .file fault => s!"File error: {fault}"
  | .rule fault => fault.message
  | .noRule => "The file does not contain any rule"
  | .grammar error => error.message

instance : ToString LoadFault := ⟨message⟩

def sameVariant : LoadFault → LoadFault → Bool
  | .file _, .file _ => true
  | .rule fault, .rule other => fault.ctorIdx == other.ctorIdx
  | .noRule, .noRule => true
  | .grammar _, .grammar _ => true
  | _, _ => false

/-- Whether two faults are the same. Variants that carry something are listed, and all others agree
with themselves. -/
def agrees : LoadFault → LoadFault → Bool
  | .file fault, .file other => fault == other
  | .rule (.invalidSymbol c), .rule (.invalidSymbol d) => c == d
  | .grammar error, .grammar other => error == other
  | fault, other => fault.sameVariant other

end LoadFault

abbrev LoadError := Located LoadFault

def LoadError.agrees (error other : LoadError) : Bool :=
  error.location == other.location && error.value.agrees other.value

/-- Whether two reports have as many errors, and these agree one by one. -/
def reportsAgree (errors others : List LoadError) : Bool :=
  errors.isEqv others LoadError.agrees

end ChomskyNormal
