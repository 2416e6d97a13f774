import ChomskyNormal.Proofs.Recognition.Filling
import ChomskyNormal.Proofs.Recognition.Text

/-!
# The shape of a table

A table of a word of `n` letters is a triangle: it has a cell for each start and span that stay
within the word, `n * (n + 1) / 2` in all, and shows them row by row. It can be filled in place
without leaving the triangle or reading a cell too early.

- `Table.Triangular` : which cells there are, and where they are shown;
- `Grammar.Reachable.table_inRange` : every table of a grammar is such a triangle, and how it is
  filled.
-/

namespace ChomskyNormal

namespace Table

/-- Which cells there are, in which order they are listed, and on which lines they are shown. -/
structure Triangular (table : Table) : Prop where
  size_pos : 0 < table.size
  isSome_cell?_iff : ∀ start span,
    (table.cell? start span).isSome = true ↔ start + span < table.size
  whole : table.cell? 0 (table.size - 1) = some table.whole
  mem_cells_iff : ∀ start span cell,
    ((start, span), cell) ∈ table.cells ↔ table.cell? start span = some cell
  pairwise_cells : (table.cells.map Prod.fst).Pairwise (Prod.Lex (· < ·) (· < ·))
  length_cells : table.cells.length = table.size * (table.size + 1) / 2
  /-- The line of the word comes first, and blanks stand between the items of a line only. -/
  lines : (lines .chars table.text.toList).map (pieces ' ') =
    ["word:".toList, table.word] :: (List.range table.size).map table.rowItems
  length_rowItems : ∀ span, (table.rowItems span).length = 1 + (table.size - span)
  getElem?_rowItems : ∀ start span, (table.rowItems span)[start + 1]? =
    (table.cell? start span).map fun cell => (cellText cell).toList

variable {table : Table} {start span : ℕ}

/-! ## Places -/

theorem mem_places_iff : (start, span) ∈ table.places ↔ start + span < table.size := by
  rw [places, List.mem_flatMap]
  simp only [List.mem_range, List.mem_map, Prod.mk.injEq]
  constructor
  · rintro ⟨_, _, _, _, rfl, rfl⟩
    omega
  · intro h
    exact ⟨start, by omega, span, by omega, rfl, rfl⟩

/-- Places come by start, and those of one start by span. -/
theorem pairwise_places : table.places.Pairwise (Prod.Lex (· < ·) (· < ·)) := by
  rw [places, List.pairwise_flatMap]
  constructor
  · intro start _
    rw [List.pairwise_map]
    exact List.pairwise_lt_range.imp fun h => Prod.Lex.right _ h
  · refine List.pairwise_lt_range.imp fun {start other} h place hplace next hnext => ?_
    rcases List.mem_map.1 hplace with ⟨span, _, rfl⟩
    rcases List.mem_map.1 hnext with ⟨further, _, rfl⟩
    exact Prod.Lex.left _ _ h

/-- Rows get shorter by one cell from each start to the next. -/
theorem two_mul_sum_rows (count : ℕ) :
    2 * ((List.range count).map (count - ·)).sum = count * (count + 1) := by
  induction count with
  | zero => rfl
  | succ count ih =>
      rw [List.range_succ_eq_map, List.map_cons, List.map_map, List.sum_cons]
      have hlater : (List.range count).map ((count + 1 - ·) ∘ Nat.succ) =
          (List.range count).map (count - ·) :=
        List.map_congr_left fun start _ => Nat.succ_sub_succ count start
      rw [hlater, Nat.mul_add, ih, Nat.sub_zero]
      ring

/-- There are as many cells as a triangle has. -/
theorem length_places : table.places.length = table.size * (table.size + 1) / 2 := by
  rw [places, List.length_flatMap]
  simp only [List.length_map, List.length_range]
  rw [← two_mul_sum_rows, Nat.mul_div_cancel_left _ Nat.two_pos]

/-! ## Cells -/

/-- A table has the shape of a triangle if it has cells where it should. -/
theorem triangular (hpos : 0 < table.size) (hlegible : table.Legible)
    (hcells : ∀ start span, (table.cell? start span).isSome = true ↔ start + span < table.size) :
    table.Triangular := by
  -- No cell that is shown is the empty one that stands for a missing cell.
  have hsome : ∀ {start span}, start + span < table.size →
      table.cell? start span = some ((table.cell? start span).getD ∅) := by
    intro start span h
    rcases Option.isSome_iff_exists.1 ((hcells start span).2 h) with ⟨cell, hcell⟩
    rw [hcell, Option.getD_some]
  refine ⟨hpos, hcells, hsome (by omega), ?_, ?_, ?_, lines_text hlegible, ?_, ?_⟩
  · intro start span cell
    rw [cells, List.mem_map]
    constructor
    · rintro ⟨⟨_, _⟩, hplace, heq⟩
      cases heq
      exact hsome (mem_places_iff.1 hplace)
    · intro hcell
      have hplace : start + span < table.size := by
        rw [← hcells, hcell, Option.isSome_some]
      refine ⟨(start, span), mem_places_iff.2 hplace, ?_⟩
      exact congrArg (((start, span), ·)) (by rw [hcell, Option.getD_some])
  · rw [cells, List.map_map]
    exact (List.map_id table.places).symm ▸ pairwise_places
  · rw [cells, List.length_map, length_places]
  · intro span
    rw [rowItems, row, List.length_cons, List.length_map, List.length_map, List.length_range,
      Nat.add_comm]
  · intro start span
    rw [rowItems, row, List.getElem?_cons_succ, List.getElem?_map, List.getElem?_map]
    by_cases hplace : start + span < table.size
    · rw [List.getElem?_range (by omega), Option.map_some, ← hsome hplace]
    · have hnone : table.cell? start span = none := by
        rw [← Option.not_isSome_iff_eq_none, hcells]
        exact hplace
      rw [hnone, List.getElem?_eq_none (by rw [List.length_range]; omega)]
      rfl

end Table

namespace Grammar

variable {grammar : Grammar} {word : String} {table : Table}

theorem WellFormed.triangular (h : grammar.WellFormed) (htable : grammar.table word = .ok table) :
    table.Triangular := by
  have hlegible := h.legible htable
  rcases table_eq_ok_iff.1 htable with ⟨symbol, hcheck, rfl⟩
  have hword : word.toList ≠ [] := (checkWord_eq_ok_iff.1 hcheck).2.2.1
  refine Table.triangular (List.length_pos_of_ne_nil hword) hlegible fun start span => ?_
  constructor
  · intro hsome
    rcases Option.isSome_iff_exists.1 hsome with ⟨cell, hcell⟩
    exact Table.lt_of_find?_rowsTo hcell
  · intro hplace
    rcases h.mem_cell?_iff_derives htable hplace with ⟨cell, hcell, _⟩
    rw [hcell, Option.isSome_some]

/-- The table of a word is a triangle. Filling it in place never leaves the triangle, subtracts too
much or reads a cell that is written later, and neither does showing it. -/
theorem Reachable.table_inRange (h : grammar.Reachable) (htable : grammar.table word = .ok table) :
    table.word = word.toList ∧ table.Triangular ∧
      ∃ filling, Filling.fill? grammar.productions word.toList = some filling ∧
        (∀ placed ∈ filling.reads, placed ∈ table.cells) ∧
        (∀ start span, filling.grid.read? start span = table.cell? start span) ∧
        filling.grid.cells = table.cells ∧
        filling.grid.whole? table.size = some table.whole ∧
        filling.grid.text? table.word = some table.text := by
  have htriangular := h.wellFormed.triangular htable
  rcases table_eq_ok_iff.1 htable with ⟨symbol, hcheck, rfl⟩
  -- A word that has a table is not empty, so the grid has a first row.
  have hword : word.toList ≠ [] := (checkWord_eq_ok_iff.1 hcheck).2.2.1
  rcases Filling.exists_fill? grammar.productions hword with ⟨filling, hfilling, hprogress⟩
  refine ⟨rfl, htriangular, filling, hfilling, ?_, hprogress.read?_eq symbol,
    hprogress.cells_eq symbol, hprogress.whole?_eq symbol hword, hprogress.text?_eq symbol⟩
  rintro ⟨⟨start, span⟩, cell⟩ hread
  exact (htriangular.mem_cells_iff start span cell).2 (hprogress.reads _ hread)

/-- Five letters make fifteen cells, and there are twenty splits with two halves each. -/
theorem textbook_table_inRange : ∃ table filling,
    (Session.new.run textbook).current.table "baaba" = .ok table ∧ table.Triangular ∧
      Filling.fill? (Session.new.run textbook).current.productions "baaba".toList =
        some filling ∧
      filling.reads.length = 40 ∧ (∀ placed ∈ filling.reads, placed ∈ table.cells) ∧
      filling.grid.text? table.word = some table.text := by
  have hreach : (Session.new.run textbook).current.Reachable := ⟨textbook, rfl⟩
  have hevaluated : ((Session.new.run textbook).current.table "baaba").isOk = true := by
    decide +kernel
  have hreads : (Filling.fill? (Session.new.run textbook).current.productions
      "baaba".toList).map (fun filling => filling.reads.length) = some 40 := by
    decide +kernel
  cases htable : (Session.new.run textbook).current.table "baaba" with
  | error error =>
      rw [htable] at hevaluated
      cases hevaluated
  | ok table =>
      rcases Reachable.table_inRange hreach htable with
        ⟨_, htriangular, filling, hfilling, hfinal, _, _, _, htext⟩
      rw [hfilling, Option.map_some, Option.some.injEq] at hreads
      exact ⟨table, filling, rfl, htriangular, hfilling, hreads, hfinal, htext⟩

end Grammar

end ChomskyNormal
