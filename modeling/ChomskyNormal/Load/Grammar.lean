import ChomskyNormal.Grammar.Basic
import ChomskyNormal.Load.Rules
import ChomskyNormal.Text.Lines

/-!
# Loading a grammar

A grammar is written with one rule on each line, `A ::= BC | a`. The rules of one head may be
spread over several lines. Symbols need no declaration: each is registered where it first
appears. The start symbol is the first rule's head unless another nonterminal is asked for.

- `Grammar.ofText` : loads a grammar that is in memory;
- `Grammar.ofFile` : loads a grammar from the bytes of a file.
-/

namespace ChomskyNormal

/-! ## From rules to a grammar -/

/-- The alphabet of the letters that rules use, in order of first appearance. -/
def declareLetters (rules : List Rule) : Except GrammarError Alphabet :=
  (rules.flatMap Rule.letters).foldlM Alphabet.declare ∅

structure Clause where
  head : Char
  letters : List Char
  deriving DecidableEq, Repr

/-- The alternatives of a rule, each at the location of the rule. -/
def clauses (rule : Located Rule) : List (Located Clause) :=
  rule.value.alternatives.map fun letters => ⟨rule.location, ⟨rule.value.head, letters⟩⟩

/-- Adds clauses from left to right. A refused clause is reported and changes nothing. -/
def addClauses (alphabet : Alphabet) (productions : Productions) :
    List (Located Clause) → Productions × List LoadError
  | [] => (productions, [])
  | ⟨location, clause⟩ :: later =>
      match productions.add alphabet clause.head (String.ofList clause.letters) with
      | .ok extended => addClauses alphabet extended later
      | .error error =>
          -- Later clauses are still tried, against the productions as they were.
          let (final, errors) := addClauses alphabet productions later
          (final, ⟨location, .grammar error⟩ :: errors)

namespace Grammar

/-- The grammar that rules spell out. Trouble with the symbols concerns the whole file. -/
def ofRules (file : String) (start? : Option Char) (rules : List (Located Rule)) :
    Except (List LoadError) Grammar :=
  match rules with
  | [] => .error [⟨⟨file, none⟩, .noRule⟩]
  | first :: _ =>
      match declareLetters (rules.map Located.value) >>= fun alphabet =>
          alphabet.setStart (start?.getD first.value.head) with
      | .error error => .error [⟨⟨file, none⟩, .grammar error⟩]
      | .ok alphabet =>
          match addClauses alphabet ∅ (rules.flatMap clauses) with
          | (productions, []) => .ok { alphabet, productions }
          | (_, errors) => .error errors

/-! ## From lines to a grammar -/

def ofLines (file : String) (start? : Option Char) (lines : List (Except FileFault (List Char))) :
    Except (List LoadError) Grammar :=
  readRules file lines >>= ofRules file start?

/-- The name that stands for the file when a grammar is loaded from memory. -/
def inMemory : String := "<string>"

def ofText (text : String) (start? : Option Char) : Except (List LoadError) Grammar :=
  ofLines inMemory start? ((lines .chars text.toList).map .ok)

def decodeLine (line : List UInt8) : Except FileFault (List Char) :=
  match String.fromUTF8? ⟨line.toArray⟩ with
  | some text => .ok text.toList
  | none => .error .invalidData

/-- Loads a grammar from the contents of a file, which are `none` if there is no such file.
Each line is decoded on its own, so bytes that are not UTF-8 spoil only their line. -/
def ofFile (file : String) (contents? : Option ByteArray) (start? : Option Char) :
    Except (List LoadError) Grammar :=
  match contents? with
  | none => .error [⟨⟨file, none⟩, .file .notFound⟩]
  | some contents => ofLines file start? ((lines .bytes contents.data.toList).map decodeLine)

end Grammar

end ChomskyNormal
