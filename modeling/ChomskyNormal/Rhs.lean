import ChomskyNormal.Character.Case
import Std.Data.ExtTreeMap
import Std.Data.ExtTreeSet

/-!
# Right-hand sides

In Chomsky Normal Form a production replaces its head by two nonterminals or by one terminal.

- `Rhs` : the two forms;
- `Rhs.text` and `Rhs.ofString?` : writing and reading one;
- the order of right-hand sides, which makes them keys of ordered maps: pairs come before
  terminals, and within a form the letters decide from left to right.
-/

namespace ChomskyNormal

inductive Rhs
  | binary (left right : Char)
  | terminal (letter : Char)
  deriving DecidableEq, Repr

namespace Rhs

/-! ## Writing and reading -/

def letters : Rhs → List Char
  | .binary left right => [left, right]
  | .terminal letter => [letter]

def text (rhs : Rhs) : String :=
  String.ofList rhs.letters

/-- Two uppercase letters or one lowercase letter; all else has the wrong shape. -/
def ofLetters? : List Char → Option Rhs
  | [left, right] =>
      if isUppercase left && isUppercase right then some (.binary left right) else none
  | [letter] => if isLowercase letter then some (.terminal letter) else none
  | _ => none

def ofString? (text : String) : Option Rhs :=
  ofLetters? text.toList

/-- A right-hand side has the letters that it was read from. -/
theorem letters_of_ofLetters? {letters : List Char} {rhs : Rhs}
    (h : ofLetters? letters = some rhs) : rhs.letters = letters := by
  unfold ofLetters? at h
  split at h
  · rw [Option.ite_none_right_eq_some, Option.some.injEq] at h
    rcases h with ⟨_, rfl⟩
    rfl
  · rw [Option.ite_none_right_eq_some, Option.some.injEq] at h
    rcases h with ⟨_, rfl⟩
    rfl
  · cases h

/-! ## Order -/

def rank : Rhs → Nat
  | .binary _ _ => 0
  | .terminal _ => 1

def firstLetter : Rhs → Char
  | .binary left _ => left
  | .terminal letter => letter

def lastLetter : Rhs → Char
  | .binary _ right => right
  | .terminal letter => letter

instance : Ord Rhs where
  compare := compareLex (compareOn rank) (compareLex (compareOn firstLetter) (compareOn lastLetter))

instance : Std.TransOrd Rhs :=
  inferInstanceAs (Std.TransCmp
    (compareLex (compareOn rank) (compareLex (compareOn firstLetter) (compareOn lastLetter))))

instance : Std.LawfulEqOrd Rhs where
  eq_of_compare {a b} h := by
    have h' : compareLex (compareOn rank)
        (compareLex (compareOn firstLetter) (compareOn lastLetter)) a b = .eq := h
    simp only [compareLex_eq_eq, compareOn, Std.compare_eq_iff_eq] at h'
    cases a <;> cases b <;> simp_all [rank, firstLetter, lastLetter]

/-- The given right-hand sides in ascending order, each of them once. -/
def sort (items : List Rhs) : List Rhs :=
  (Std.ExtTreeSet.ofList items).toList

end Rhs

end ChomskyNormal
