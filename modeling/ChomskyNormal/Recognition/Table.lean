import ChomskyNormal.Grammar.Basic
import ChomskyNormal.Recognition.Error

/-!
# Recognition tables

A table answers for every part of a word which nonterminals derive it. A part is given by
its first place `start` and its `span`, the number of letters after the first. Parts of one
letter are answered by the terminal productions. A longer part is split in two in every
possible way, and the productions join the answers for its halves, which are shorter.

- `Table.rowsTo` : the answers for all parts up to a span;
- `Grammar.table` : the table of a word, or why the question makes no sense;
- `Grammar.isDerived` : whether the start symbol derives a word.
-/

namespace ChomskyNormal

/-- The answers for one word. The row at index `span` holds the cells of that span in the
order of their starts. -/
structure Table where
  word : List Char
  start : Char
  rows : Array (Array SymbolSet)
  deriving DecidableEq

namespace Table

/-! ## Filling -/

/-- The cell of a part, if the rows reach that far. -/
def find? (rows : Array (Array SymbolSet)) (start span : Nat) : Option SymbolSet :=
  rows[span]?.bind (·[start]?)

/-- The nonterminals that produce a pair with its letters taken from two cells. -/
def join (productions : Productions) (left right : SymbolSet) : List Char :=
  left.toList.flatMap fun b => right.toList.flatMap fun c =>
    (productions.producers (.binary b c)).toList

def joinSplits (productions : Productions) (rows : Array (Array SymbolSet)) (span start : Nat) :
    SymbolSet :=
  .ofList <| (List.range span).flatMap fun split =>
    join productions ((find? rows start split).getD ∅)
      ((find? rows (start + split + 1) (span - split - 1)).getD ∅)

def letterRow (productions : Productions) (word : List Char) : Array SymbolSet :=
  (word.map fun letter => productions.producers (.terminal letter)).toArray

/-- All rows up to a span, the shortest span first. -/
def rowsTo (productions : Productions) (word : List Char) : Nat → Array (Array SymbolSet)
  | 0 => #[letterRow productions word]
  | span + 1 =>
      let rows := rowsTo productions word span
      -- Both halves of a part are shorter than the part, so `rows` already holds their cells.
      rows.push ((Array.range (word.length - (span + 1))).map
        (joinSplits productions rows (span + 1)))

/-! ## Reading -/

def size (table : Table) : Nat :=
  table.word.length

/-- The nonterminals that derive the `span + 1` letters from `start` on; `none` outside. -/
def cell? (table : Table) (start span : Nat) : Option SymbolSet :=
  find? table.rows start span

/-- The places of all cells: by start, and for one start by span. -/
def places (table : Table) : List (Nat × Nat) :=
  (List.range table.size).flatMap fun start =>
    (List.range (table.size - start)).map fun span => (start, span)

def cells (table : Table) : List ((Nat × Nat) × SymbolSet) :=
  table.places.map fun (start, span) => ((start, span), (table.cell? start span).getD ∅)

def whole (table : Table) : SymbolSet :=
  (table.cell? 0 (table.size - 1)).getD ∅

def isDerived (table : Table) : Bool :=
  table.start ∈ table.whole

end Table

/-! ## Asking -/

namespace Grammar

/-- The start symbol, once it is clear that the question about a word makes sense. -/
def checkWord (grammar : Grammar) (word : List Char) : Except WordError Char :=
  if grammar.productions.isEmpty then
    .error .noProductions
  else
    match grammar.start? with
    | none => .error .noStart
    | some start =>
        if word = [] then
          .error .emptyWord
        else
          match word.find? (· ∉ grammar.alphabet.terminals) with
          | some c => .error (.unknownTerminal c)
          | none => .ok start

def table (grammar : Grammar) (word : String) : Except WordError Table :=
  let letters := word.toList
  (grammar.checkWord letters).map fun start =>
    ⟨letters, start, Table.rowsTo grammar.productions letters (letters.length - 1)⟩

def isDerived (grammar : Grammar) (word : String) : Except WordError Bool :=
  (grammar.table word).map Table.isDerived

end Grammar

end ChomskyNormal
