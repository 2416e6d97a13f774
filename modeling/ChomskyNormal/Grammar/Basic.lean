import ChomskyNormal.Productions

/-!
# Grammars in Chomsky Normal Form

A grammar joins an alphabet with productions over it. It is built one change at a time;
each change is checked against what the grammar already holds, and a refused change leaves
it as it was.
-/

namespace ChomskyNormal

structure Grammar where
  alphabet : Alphabet
  productions : Productions
  deriving DecidableEq

namespace Grammar

def empty : Grammar where
  alphabet := ∅
  productions := ∅

instance : EmptyCollection Grammar := ⟨empty⟩

instance : Inhabited Grammar := ⟨∅⟩

def withAlphabet (grammar : Grammar) (alphabet : Except GrammarError Alphabet) :
    Except GrammarError Grammar :=
  alphabet.map fun alphabet => { grammar with alphabet }

def addNonterminal (grammar : Grammar) (c : Char) : Except GrammarError Grammar :=
  grammar.withAlphabet (grammar.alphabet.addNonterminal c)

def addTerminal (grammar : Grammar) (c : Char) : Except GrammarError Grammar :=
  grammar.withAlphabet (grammar.alphabet.addTerminal c)

def setStart (grammar : Grammar) (c : Char) : Except GrammarError Grammar :=
  grammar.withAlphabet (grammar.alphabet.setStart c)

def addProduction (grammar : Grammar) (head : Char) (text : String) :
    Except GrammarError Grammar :=
  (grammar.productions.add grammar.alphabet head text).map
    fun productions => { grammar with productions }

def nonterminals (grammar : Grammar) : List Char :=
  grammar.alphabet.nonterminals.order

def terminals (grammar : Grammar) : List Char :=
  grammar.alphabet.terminals.order

def start? (grammar : Grammar) : Option Char :=
  grammar.alphabet.start?

def alternatives (grammar : Grammar) (head : Char) : List Rhs :=
  grammar.productions.alternatives head

end Grammar

end ChomskyNormal
