import ChomskyNormal.Grammar.Basic
import Std.Data.ExtTreeMap

/-!
# Least heights

How deep must a derivation tree of a nonterminal be? A terminal production allows height one,
and a pair one more than the higher of its two letters. Sweeps over all nonterminals improve
a map of heights until a sweep changes nothing. Nonterminals that derive no word never enter
the map.
-/

namespace ChomskyNormal

abbrev Heights := Std.ExtTreeMap Char Nat

namespace Heights

/-- The least height of a tree whose root is replaced by a right-hand side. -/
def ofRhs? (heights : Heights) : Rhs → Option Nat
  | .terminal _ => some 1
  | .binary left right =>
      match heights[left]?, heights[right]? with
      | some leftHeight, some rightHeight => some (1 + max leftHeight rightHeight)
      | _, _ => none

def best? (productions : Productions) (heights : Heights) (head : Char) : Option Nat :=
  ((productions.alternatives head).filterMap heights.ofRhs?).min?

def improve (productions : Productions) (heights : Heights) (head : Char) : Heights :=
  match best? productions heights head with
  | none => heights
  | some height =>
      if heights[head]?.all (height < ·) then heights.insert head height else heights

/-- Improves every head once; later heads already see what earlier ones gained. -/
def sweep (productions : Productions) (heads : List Char) (heights : Heights) : Heights :=
  heads.foldl (improve productions) heights

/-- Sweeps until nothing changes, at most `limit` times. -/
def settle (productions : Productions) (heads : List Char) : Nat → Heights → Heights
  | 0, heights => heights
  | limit + 1, heights =>
      let swept := sweep productions heads heights
      -- Heights only ever fall, so equal maps mean that no head was improved.
      if swept = heights then heights else settle productions heads limit swept

end Heights

/-- The least height of every nonterminal that derives a word. With `k` nonterminals, `k`
sweeps reach every height, and one more sees that nothing changes. -/
def Grammar.heights (grammar : Grammar) : Heights :=
  Heights.settle grammar.productions grammar.nonterminals (grammar.nonterminals.length + 1) ∅

end ChomskyNormal
