import ChomskyNormal.Grammar.Error
import ChomskyNormal.Rhs
import ChomskyNormal.Symbol
import Std.Data.ExtTreeSet

/-!
# Alphabets

A grammar registers its nonterminals and its terminals before productions may use them.

- `Roster` : the symbols of one class, in order of registration;
- `Alphabet` : both classes and the start symbol;
- `Alphabet.register`, `Alphabet.setStart` : checked changes;
- `Alphabet.declare` : registers a letter in the class of its case, unless it is known.
-/

namespace ChomskyNormal

/-! ## Rosters -/

/-- Symbols in order of registration. `members` holds the same symbols for quick look-up. -/
structure Roster where
  order : List Char
  members : Std.ExtTreeSet Char
  deriving DecidableEq

namespace Roster

def empty : Roster where
  order := []
  members := ∅

instance : EmptyCollection Roster := ⟨empty⟩

instance : Membership Char Roster where
  mem roster c := c ∈ roster.members

instance (c : Char) (roster : Roster) : Decidable (c ∈ roster) :=
  inferInstanceAs (Decidable (c ∈ roster.members))

def add (roster : Roster) (c : Char) : Roster where
  order := roster.order ++ [c]
  members := roster.members.insert c

@[simp] theorem not_mem_empty (c : Char) : ¬ c ∈ (∅ : Roster) :=
  Std.ExtTreeSet.not_mem_empty

@[simp] theorem mem_add {roster : Roster} {c d : Char} :
    d ∈ roster.add c ↔ c = d ∨ d ∈ roster := by
  change d ∈ roster.members.insert c ↔ c = d ∨ d ∈ roster.members
  simp [Std.ExtTreeSet.mem_insert]

end Roster

/-! ## Alphabets -/

structure Alphabet where
  nonterminals : Roster
  terminals : Roster
  start? : Option Char
  deriving DecidableEq

namespace Alphabet

def empty : Alphabet where
  nonterminals := ∅
  terminals := ∅
  start? := none

instance : EmptyCollection Alphabet := ⟨empty⟩

def Knows (alphabet : Alphabet) (c : Char) : Prop :=
  c ∈ alphabet.nonterminals ∨ c ∈ alphabet.terminals

instance (alphabet : Alphabet) (c : Char) : Decidable (alphabet.Knows c) :=
  inferInstanceAs (Decidable (_ ∨ _))

/-- The symbols of the class whose letters have the given case. -/
def roster (alphabet : Alphabet) : LetterCase → Roster
  | .upper => alphabet.nonterminals
  | .lower => alphabet.terminals

def withRoster (alphabet : Alphabet) (roster : Roster) : LetterCase → Alphabet
  | .upper => { alphabet with nonterminals := roster }
  | .lower => { alphabet with terminals := roster }

def enroll (alphabet : Alphabet) (letterCase : LetterCase) (c : Char) : Alphabet :=
  alphabet.withRoster ((alphabet.roster letterCase).add c) letterCase

/-- Registers a symbol, which has to be new and of the case that its class asks for. -/
def register (alphabet : Alphabet) (letterCase : LetterCase) (c : Char) :
    Except GrammarError Alphabet :=
  if alphabet.Knows c then
    .error (.alreadyRegistered c)
  else if letterCase? c = some letterCase then
    .ok (alphabet.enroll letterCase c)
  else
    .error (.wrongCase c)

def addNonterminal (alphabet : Alphabet) (c : Char) : Except GrammarError Alphabet :=
  alphabet.register .upper c

def addTerminal (alphabet : Alphabet) (c : Char) : Except GrammarError Alphabet :=
  alphabet.register .lower c

/-- Chooses the start symbol, which has to be a nonterminal; the choice is final. -/
def setStart (alphabet : Alphabet) (c : Char) : Except GrammarError Alphabet :=
  if c ∈ alphabet.nonterminals then
    match alphabet.start? with
    | some current => .error (.startAlreadySet current)
    | none => .ok { alphabet with start? := some c }
  else
    .error (.unknownNonterminal c)

/-- Registers a letter in the class that its case gives; a known letter changes nothing. -/
def declare (alphabet : Alphabet) (c : Char) : Except GrammarError Alphabet :=
  if alphabet.Knows c then
    .ok alphabet
  else
    match Symbol.ofChar? c with
    | some (.nonterminal letter) => alphabet.addNonterminal letter
    | some (.terminal letter) => alphabet.addTerminal letter
    | none => .error (.wrongCase c)

/-- The leftmost letter of a right-hand side that its class does not hold. -/
def missing? (alphabet : Alphabet) : Rhs → Option Char
  | .binary left right => [left, right].find? (· ∉ alphabet.nonterminals)
  | .terminal letter => if letter ∈ alphabet.terminals then none else some letter

end Alphabet

end ChomskyNormal
