import ChomskyNormal.Load.Grammar

/-!
# Editing sessions

A session works on one grammar and keeps a saved copy of another. A step that is refused
changes nothing.

- `Edit` and `Grammar.apply` : the changes to a grammar;
- `Session.Step` and `Session.step?` : edits, saving and restoring;
- `Session.run` : the session after any sequence of steps, refused ones included.
-/

namespace ChomskyNormal

/-! ## Edits of a grammar -/

inductive Edit
  | addNonterminal (symbol : Char)
  | addTerminal (symbol : Char)
  | setStart (symbol : Char)
  | addProduction (head : Char) (text : String)
  | reset
  /-- Replaces the grammar by one that is loaded from a text. -/
  | load (text : String) (start? : Option Char)
  deriving DecidableEq, Repr

inductive EditError
  | grammar (error : GrammarError)
  | load (errors : List LoadError)
  deriving DecidableEq, Repr

def Grammar.apply (grammar : Grammar) : Edit → Except EditError Grammar
  | .addNonterminal c => (grammar.addNonterminal c).mapError .grammar
  | .addTerminal c => (grammar.addTerminal c).mapError .grammar
  | .setStart c => (grammar.setStart c).mapError .grammar
  | .addProduction head text => (grammar.addProduction head text).mapError .grammar
  | .reset => .ok ∅
  | .load text start? => (Grammar.ofText text start?).mapError .load

/-! ## Sessions -/

structure Session where
  current : Grammar
  saved : Grammar
  deriving DecidableEq

namespace Session

inductive Step
  | edit (edit : Edit)
  | save
  | restore
  deriving DecidableEq, Repr

def new : Session where
  current := ∅
  saved := ∅

def step? (session : Session) : Step → Except EditError Session
  | .edit edit => (session.current.apply edit).map fun current => { session with current }
  | .save => .ok { session with saved := session.current }
  | .restore => .ok { session with current := session.saved }

/-- The session after a step; a refused step leaves it as it was. -/
def step (session : Session) (step : Step) : Session :=
  match session.step? step with
  | .ok next => next
  | .error _ => session

def run (session : Session) (steps : List Step) : Session :=
  steps.foldl step session

end Session

/-- A grammar is reachable when some session arrives at it. -/
def Grammar.Reachable (grammar : Grammar) : Prop :=
  ∃ steps : List Session.Step, (Session.new.run steps).current = grammar

end ChomskyNormal
