import ChomskyNormal.Proofs.Recognition.Shape

/-!
# Texts that determine the table

The text of a table shows its word and each of its cells, and it shows each in one way. A cell lists
its symbols in ascending order, and none of them is a comma. The lines go by span and the table by
start, but both have the same places. So tables with one text have one word and the same cells; only
the start symbol is not shown.

- `cellText_inj` : the symbols of a cell;
- `Table.text_congr` : what the text is made of;
- `Grammar.Reachable.table_text_eq_iff` : equality of the texts of any two tables.
-/

namespace ChomskyNormal

/-! ## Cells -/

/-- Symbols that are no commas come back from the text of their cell. -/
theorem flatten_pieces_symbols {cell : SymbolSet} (h : ',' ∉ cell) :
    (pieces ',' ([','].intercalate (cell.toList.map fun c => [c]))).flatten = cell.toList := by
  have hitems : ∀ item ∈ cell.toList.map fun c => [c], ',' ∉ item := by
    refine List.forall_mem_map.2 fun c hc hcomma => h ?_
    rw [List.mem_singleton.1 hcomma]
    exact Std.ExtTreeSet.mem_toList.1 hc
  rw [flatten_pieces_intercalate hitems]
  exact List.flatMap_singleton' cell.toList

theorem cellText_inj {cell other : SymbolSet} (h : ',' ∉ cell) (hother : ',' ∉ other) :
    cellText cell = cellText other ↔ cell = other := by
  constructor
  · intro htext
    have hlists := congrArg String.toList htext
    rw [toList_cellText, toList_cellText] at hlists
    -- The braces are the first and the last letter.
    have hsymbols := (List.cons.inj (List.append_cancel_right hlists)).2
    refine Std.ExtTreeSet.toList_inj.1 ?_
    rw [← flatten_pieces_symbols h, hsymbols, flatten_pieces_symbols hother]
  · rintro rfl
    rfl

/-! ## Tables -/

namespace Table

variable {table other : Table}

def CommaFree (table : Table) : Prop :=
  ∀ start span cell, table.cell? start span = some cell → ',' ∉ cell

/-- The start symbol does not show. -/
theorem text_congr (hword : table.word = other.word)
    (hcells : ∀ start span, table.cell? start span = other.cell? start span) :
    table.text = other.text := by
  have hrows : table.rowText = other.rowText := by
    funext span
    simp only [rowText, row, size, hword, hcells]
  rw [text, text, size, size, hword, hrows]

/-- Cells that are shown alike are alike, and so are places that show no cell. -/
theorem cell?_eq_of_rowItems (htriangular : table.Triangular) (hother : other.Triangular)
    (hfree : table.CommaFree) (hotherFree : other.CommaFree) {start span : ℕ}
    (hitems : table.rowItems span = other.rowItems span) :
    table.cell? start span = other.cell? start span := by
  -- The item of a start is the text of its cell, and missing where there is no cell.
  have hshown : (table.cell? start span).map (fun cell => (cellText cell).toList) =
      (other.cell? start span).map fun cell => (cellText cell).toList := by
    rw [← htriangular.getElem?_rowItems, ← hother.getElem?_rowItems, hitems]
  cases hcell : table.cell? start span with
  | none =>
      rw [hcell, Option.map_none] at hshown
      exact (Option.map_eq_none_iff.1 hshown.symm).symm
  | some cell =>
      rw [hcell, Option.map_some] at hshown
      rcases Option.map_eq_some_iff.1 hshown.symm with ⟨otherCell, hotherCell, htext⟩
      rw [hotherCell, (cellText_inj (hfree _ _ _ hcell) (hotherFree _ _ _ hotherCell)).1
        (String.toList_inj.1 htext.symm)]

/-- The lines of the text give back the word and, span by span, the cells. -/
theorem text_inj (htriangular : table.Triangular) (hother : other.Triangular)
    (hfree : table.CommaFree) (hotherFree : other.CommaFree) (htext : table.text = other.text) :
    table.word = other.word ∧
      ∀ start span, table.cell? start span = other.cell? start span := by
  have hlines := htriangular.lines
  rw [htext, hother.lines] at hlines
  rcases List.cons.inj hlines with ⟨hfirst, hlater⟩
  -- The first line shows the word, so both tables have as many spans.
  have hword : other.word = table.word := (List.cons.inj (List.cons.inj hfirst).2).1
  have hsize : other.size = table.size := congrArg List.length hword
  refine ⟨hword.symm, fun start span => ?_⟩
  by_cases hspan : span < table.size
  · rw [hsize] at hlater
    have hitems := List.map_inj_left.1 hlater span (List.mem_range.2 hspan)
    exact cell?_eq_of_rowItems htriangular hother hfree hotherFree hitems.symm
  · -- No part of the word is that long.
    have hnone : ∀ {shown : Table}, shown.Triangular → shown.size = table.size →
        shown.cell? start span = none := by
      intro shown hshape hsame
      rw [← Option.not_isSome_iff_eq_none, hshape.isSome_cell?_iff]
      omega
    rw [hnone htriangular rfl, hnone hother hsize]

end Table

namespace Grammar

variable {grammar other : Grammar} {word otherWord : String} {table otherTable : Table}

theorem WellFormed.commaFree (h : grammar.WellFormed) (htable : grammar.table word = .ok table) :
    table.CommaFree := by
  intro start span cell hcell hcomma
  have huppercase := h.isUppercase_of_mem_cell htable hcell hcomma
  revert huppercase
  decide +kernel

/-- Of any two tables, for whatever words and grammars, the texts are the same when the words and
all the cells are. -/
theorem Reachable.table_text_eq_iff (h : grammar.Reachable) (hother : other.Reachable)
    (htable : grammar.table word = .ok table)
    (hotherTable : other.table otherWord = .ok otherTable) :
    table.text = otherTable.text ↔ table.word = otherTable.word ∧
      ∀ start span, table.cell? start span = otherTable.cell? start span := by
  have hwell : grammar.WellFormed := h.wellFormed
  have hotherWell : other.WellFormed := hother.wellFormed
  constructor
  · exact Table.text_inj (hwell.triangular htable) (hotherWell.triangular hotherTable)
      (hwell.commaFree htable) (hotherWell.commaFree hotherTable)
  · rintro ⟨hword, hcells⟩
    exact Table.text_congr hword hcells

def rerooted : List Session.Step :=
  [.edit (.load "D ::= DD\nS ::= AB | BC\nA ::= BA | a\nB ::= CC | b\nC ::= AB | a" (some 'B'))]

def thinned : List Session.Step :=
  [.edit (.load "S ::= AB | BC\nA ::= BA | a\nB ::= CC | b\nC ::= AB" none)]

/-- Another start symbol leaves the text as it was, and a missing symbol does not. -/
theorem textbook_table_texts : ∃ table rerootedTable thinnedTable : Table,
    (Session.new.run textbook).current.table "baa" = .ok table ∧
      (Session.new.run rerooted).current.table "baa" = .ok rerootedTable ∧
      (Session.new.run thinned).current.table "baa" = .ok thinnedTable ∧
      table.start = 'S' ∧ rerootedTable.start = 'B' ∧
      table.text = rerootedTable.text ∧
      (∀ start span, table.cell? start span = rerootedTable.cell? start span) ∧
      table.text ≠ thinnedTable.text ∧
      ∃ start span, table.cell? start span ≠ thinnedTable.cell? start span := by
  have hreach : (Session.new.run textbook).current.Reachable := ⟨textbook, rfl⟩
  have hrerooted : (Session.new.run rerooted).current.Reachable := ⟨rerooted, rfl⟩
  have hthinned : (Session.new.run thinned).current.Reachable := ⟨thinned, rfl⟩
  -- The three tables are evaluated for what they show, and compared by the general theorem.
  have hstart : ((Session.new.run textbook).current.table "baa").map Table.start = .ok 'S' := by
    decide +kernel
  have hrerootedStart : ((Session.new.run rerooted).current.table "baa").map Table.start =
      .ok 'B' := by
    decide +kernel
  have hthinnedStart : ((Session.new.run thinned).current.table "baa").map Table.start =
      .ok 'S' := by
    decide +kernel
  have hshown : ((Session.new.run textbook).current.table "baa").map Table.text =
      ((Session.new.run rerooted).current.table "baa").map Table.text := by
    decide +kernel
  have hthinnedShown : ((Session.new.run textbook).current.table "baa").map Table.text ≠
      ((Session.new.run thinned).current.table "baa").map Table.text := by
    decide +kernel
  rcases map_eq_ok_iff.1 hstart with ⟨table, htable, hroot⟩
  rcases map_eq_ok_iff.1 hrerootedStart with ⟨rerootedTable, hrerootedTable, hrerootedRoot⟩
  rcases map_eq_ok_iff.1 hthinnedStart with ⟨thinnedTable, hthinnedTable, _⟩
  rw [htable, hrerootedTable] at hshown
  rw [htable, hthinnedTable] at hthinnedShown
  have hsame : table.text = rerootedTable.text := Except.ok.inj hshown
  have hdiffer : table.text ≠ thinnedTable.text :=
    fun htext => hthinnedShown (congrArg Except.ok htext)
  refine ⟨table, rerootedTable, thinnedTable, htable, hrerootedTable, hthinnedTable, hroot.symm,
    hrerootedRoot.symm, hsame, ?_, hdiffer, ?_⟩
  · exact ((Reachable.table_text_eq_iff hreach hrerooted htable hrerootedTable).1 hsame).2
  · by_contra hnone
    refine hdiffer ((Reachable.table_text_eq_iff hreach hthinned htable hthinnedTable).2 ⟨?_, ?_⟩)
    · rw [table_word_eq htable, table_word_eq hthinnedTable]
    · push Not at hnone
      exact hnone

end Grammar

end ChomskyNormal
