import ChomskyNormal.Productions

/-!
# Drafts

A draft holds an alphabet and productions that are cleared independently of each other. A new
production is checked against the alphabet of the moment, but stays when the alphabet is
reset, so a draft may use symbols that are no longer registered.
-/

namespace ChomskyNormal

structure Draft where
  alphabet : Alphabet
  productions : Productions
  deriving DecidableEq

namespace Draft

inductive Edit
  | addNonterminal (symbol : Char)
  | addTerminal (symbol : Char)
  | setStart (symbol : Char)
  | addProduction (head : Char) (text : String)
  | resetAlphabet
  | clearProductions
  deriving DecidableEq, Repr

def empty : Draft where
  alphabet := ∅
  productions := ∅

def apply (draft : Draft) : Edit → Except GrammarError Draft
  | .addNonterminal c =>
      (draft.alphabet.addNonterminal c).map fun alphabet => { draft with alphabet }
  | .addTerminal c =>
      (draft.alphabet.addTerminal c).map fun alphabet => { draft with alphabet }
  | .setStart c =>
      (draft.alphabet.setStart c).map fun alphabet => { draft with alphabet }
  | .addProduction head text =>
      (draft.productions.add draft.alphabet head text).map
        fun productions => { draft with productions }
  | .resetAlphabet => .ok { draft with alphabet := ∅ }
  | .clearProductions => .ok { draft with productions := ∅ }

/-- The draft after an edit; a refused edit leaves it as it was. -/
def step (draft : Draft) (edit : Edit) : Draft :=
  match draft.apply edit with
  | .ok next => next
  | .error _ => draft

def run (draft : Draft) (edits : List Edit) : Draft :=
  edits.foldl step draft

end Draft

end ChomskyNormal
