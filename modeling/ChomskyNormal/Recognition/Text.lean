import ChomskyNormal.Recognition.Table

/-!
# Tables as text

The first line gives the word. One line for each length follows, the shortest parts first,
with the cells of that length from left to right: `2: {A,S} {C}`.
-/

namespace ChomskyNormal

/-- The nonterminals of a cell in ascending order, in braces. -/
def cellText (cell : SymbolSet) : String :=
  "\x7b" ++ ",".intercalate (cell.toList.map Char.toString) ++ "\x7d"

namespace Table

def row (table : Table) (span : Nat) : List SymbolSet :=
  (List.range (table.size - span)).map fun start => (table.cell? start span).getD ∅

def rowText (table : Table) (span : Nat) : String :=
  s!"{span + 1}: " ++ " ".intercalate ((table.row span).map cellText)

def text (table : Table) : String :=
  "\n".intercalate
    (("word: " ++ String.ofList table.word) :: (List.range table.size).map table.rowText)

instance : ToString Table := ⟨text⟩

end Table

end ChomskyNormal
