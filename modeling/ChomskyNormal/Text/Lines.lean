import ChomskyNormal.Text.Pieces

/-!
# Lines of a text

A line ends at a line feed, and one carriage return directly before it belongs to the line's end.
What follows the last line feed is a line unless it is empty, and keeps a carriage return.

The rule is the same for the characters of a text and for the bytes of a file, so it is
stated for lists over any type with two marks.
-/

namespace ChomskyNormal

structure LineMarks (α : Type) where
  lineFeed : α
  carriageReturn : α

namespace LineMarks

def chars : LineMarks Char where
  lineFeed := '\n'
  carriageReturn := '\r'

def bytes : LineMarks UInt8 where
  lineFeed := 0x0A
  carriageReturn := 0x0D

end LineMarks

variable {α : Type} [DecidableEq α]

def dropReturn (marks : LineMarks α) (line : List α) : List α :=
  if line.getLast? = some marks.carriageReturn then line.dropLast else line

/-- Turns the pieces between line feeds into lines; nothing ends the last piece. -/
def linesOfPieces (marks : LineMarks α) : List (List α) → List (List α)
  | [] => []
  | [last] => if last = [] then [] else [last]
  | piece :: later => dropReturn marks piece :: linesOfPieces marks later

def lines (marks : LineMarks α) (text : List α) : List (List α) :=
  linesOfPieces marks (pieces marks.lineFeed text)

end ChomskyNormal
