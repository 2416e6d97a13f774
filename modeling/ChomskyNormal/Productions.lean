import ChomskyNormal.Alphabet
import Std.Data.ExtTreeMap

/-!
# Productions

The productions of a grammar are looked up both ways: a derivation is expanded from a head
to its right-hand sides, and a word is recognised from right-hand sides to their heads.

- `Productions.alternatives` : the right-hand sides of a head, in order of insertion;
- `Productions.producers` : the heads that have a right-hand side;
- `Productions.add` : the checked way to add a production.
-/

namespace ChomskyNormal

abbrev SymbolSet := Std.ExtTreeSet Char

/-- Productions with an index for each direction and their number. -/
structure Productions where
  byHead : Std.ExtTreeMap Char (List Rhs)
  byRhs : Std.ExtTreeMap Rhs SymbolSet
  count : Nat
  deriving DecidableEq

namespace Productions

def empty : Productions where
  byHead := ∅
  byRhs := ∅
  count := 0

instance : EmptyCollection Productions := ⟨empty⟩

/-! ## Look-up -/

def alternatives (productions : Productions) (head : Char) : List Rhs :=
  productions.byHead.getD head []

def producers (productions : Productions) (rhs : Rhs) : SymbolSet :=
  productions.byRhs.getD rhs ∅

def isEmpty (productions : Productions) : Bool :=
  productions.count = 0

/-! ## Insertion -/

/-- Puts a right-hand side after all others of its head, without any check. -/
def insert (productions : Productions) (head : Char) (rhs : Rhs) : Productions where
  byHead := productions.byHead.insert head (productions.alternatives head ++ [rhs])
  byRhs := productions.byRhs.insert rhs ((productions.producers rhs).insert head)
  count := productions.count + 1

/-- Reads a right-hand side and adds the production. The shape is checked first, then the
head, then the letters from left to right, and last that the production is new. -/
def add (productions : Productions) (alphabet : Alphabet) (head : Char) (text : String) :
    Except GrammarError Productions :=
  match Rhs.ofString? text with
  | none => .error (.malformedProduction text)
  | some rhs =>
      if head ∉ alphabet.nonterminals then
        .error (.unknownNonterminal head)
      else
        match alphabet.missing? rhs with
        | some letter => .error (.unknownSymbol letter)
        | none =>
            if rhs ∈ productions.alternatives head then
              .error (.duplicateProduction head rhs.text)
            else
              .ok (productions.insert head rhs)

/-! ## What look-up sees of an insertion -/

@[simp] theorem alternatives_empty (head : Char) : (∅ : Productions).alternatives head = [] :=
  Std.ExtTreeMap.getD_empty

@[simp] theorem producers_empty (rhs : Rhs) : (∅ : Productions).producers rhs = ∅ :=
  Std.ExtTreeMap.getD_empty

/-- A production goes to the end of its head's list, and no other list changes. -/
theorem alternatives_insert (productions : Productions) (head other : Char) (rhs : Rhs) :
    (productions.insert head rhs).alternatives other =
      if head = other then productions.alternatives head ++ [rhs]
      else productions.alternatives other := by
  simp [insert, alternatives, Std.ExtTreeMap.getD_insert]

theorem producers_insert (productions : Productions) (head : Char) (rhs other : Rhs) :
    (productions.insert head rhs).producers other =
      if rhs = other then (productions.producers rhs).insert head
      else productions.producers other := by
  simp [insert, producers, Std.ExtTreeMap.getD_insert]

@[simp] theorem count_insert (productions : Productions) (head : Char) (rhs : Rhs) :
    (productions.insert head rhs).count = productions.count + 1 := rfl

end Productions

end ChomskyNormal
