import ChomskyNormal.Character.Case

/-!
# Grammar symbols

Letter case tells the two kinds of symbols apart: an uppercase letter is a nonterminal and
a lowercase letter a terminal. No other character is a symbol.
-/

namespace ChomskyNormal

inductive Symbol
  | nonterminal (letter : Char)
  | terminal (letter : Char)
  deriving DecidableEq, Repr

namespace Symbol

def ofChar? (c : Char) : Option Symbol :=
  match letterCase? c with
  | some .upper => some (.nonterminal c)
  | some .lower => some (.terminal c)
  | none => none

theorem isSome_ofChar?_iff {c : Char} :
    (ofChar? c).isSome = true ↔ isUppercase c = true ∨ isLowercase c = true := by
  unfold ofChar? isUppercase isLowercase
  split <;> simp_all

end Symbol

end ChomskyNormal
