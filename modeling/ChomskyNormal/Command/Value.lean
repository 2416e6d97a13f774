/-!
# Values of options

An option takes a single character or a number in decimal digits. Numbers that do not fit
the range of their option are refused rather than clipped.
-/

namespace ChomskyNormal.Command

def readChar? : List Char → Option Char
  | [c] => some c
  | _ => none

def readDigits? (text : List Char) : Option Nat :=
  if text ≠ [] ∧ text.all Char.isDigit then
    some (text.foldl (fun value digit => 10 * value + (digit.toNat - '0'.toNat)) 0)
  else
    none

/-- Digits after an optional plus sign; the value has to be less than `bound`. -/
def readUnsigned? (bound : Nat) (text : List Char) : Option Nat :=
  let digits := match text with
    | '+' :: rest => rest
    | _ => text
  (readDigits? digits).filter (· < bound)

/-- Like `readUnsigned?`, but with a minus sign allowed before zero. -/
def readNonnegative? (bound : Nat) : List Char → Option Nat
  | '-' :: rest => (readDigits? rest).filter (· = 0)
  | text => readUnsigned? bound text

end ChomskyNormal.Command
