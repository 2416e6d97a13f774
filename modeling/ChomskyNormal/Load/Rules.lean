import ChomskyNormal.Load.Error
import ChomskyNormal.Rule.Basic

/-!
# From lines to rules

Lines are numbered from one. Blank lines and comments, which begin with `;` after any blanks,
are counted and passed over. Every other line is a rule. All lines are read before any error
is reported, so one report names every faulty line.
-/

namespace ChomskyNormal

/-- Whether a line has to be a rule: it is neither blank nor a comment. -/
def isRuleLine (line : List Char) : Bool :=
  match line.dropWhile isBlank with
  | [] => false
  | c :: _ => c ≠ ';'

/-- Reads one line, which may already have failed to be read from its file. -/
def readLine (file : String) (number : Nat) :
    Except FileFault (List Char) → Option (Except LoadError (Located Rule))
  | .error fault => some (.error ⟨⟨file, none⟩, .file fault⟩)
  | .ok line =>
      if isRuleLine line then
        some <| match Rule.ofLine line with
          | .ok rule => .ok ⟨⟨file, some number⟩, rule⟩
          | .error fault => .error ⟨⟨file, some number⟩, .rule fault⟩
      else
        none

def readLines (file : String) (lines : List (Except FileFault (List Char))) :
    List (Except LoadError (Located Rule)) :=
  (lines.zipIdx 1).filterMap fun (line, number) => readLine file number line

section Gather

variable {ε α : Type}

def errorOf? : Except ε α → Option ε
  | .error error => some error
  | .ok _ => none

/-- All values if there is no error, and all errors otherwise. -/
def gather (outcomes : List (Except ε α)) : Except (List ε) (List α) :=
  match outcomes.filterMap errorOf? with
  | [] => .ok (outcomes.filterMap Except.toOption)
  | errors => .error errors

end Gather

def readRules (file : String) (lines : List (Except FileFault (List Char))) :
    Except (List LoadError) (List (Located Rule)) :=
  gather (readLines file lines)

end ChomskyNormal
