import ChomskyNormal.Proofs.Recognition.Rows
import ChomskyNormal.Proofs.Success
import ChomskyNormal.Recognition.Text
import Mathlib.Data.List.Basic
import Mathlib.Data.Nat.PSub

/-!
# Filling a table in place

The cells of a table may all be there from the beginning, empty at first, and be written one after
the other in a grid that has a row for each start. Then every place has to be within the grid, every
difference of places has to be a number, and every cell has to be written before it is read. All of
this is so: nothing goes wrong, each cell that is read is as it will be in the end, and the grid
holds the same cells as the rows of the table.

- `Grid.read?`, `Grid.write?` : checked access;
- `Filling.fill?` : the loops over spans, starts and splits;
- `Filling.Progress` : what has been written when it is a cell's turn;
- `Filling.exists_fill?` : filling comes to an end, with the cells of the table.
-/

namespace ChomskyNormal

/-! ## Grids -/

/-- A row of cells for each start, by span. -/
abbrev Grid := List (List SymbolSet)

abbrev PlacedCell := (ℕ × ℕ) × SymbolSet

namespace Grid

def blank? (length : ℕ) : Option Grid :=
  (List.range length).mapM fun start => (length.psub start).map fun count => .replicate count ∅

def read? (grid : Grid) (start span : ℕ) : Option SymbolSet :=
  grid[start]?.bind (·[span]?)

/-- Writes a cell that is there already. -/
def write? (grid : Grid) (start span : ℕ) (cell : SymbolSet) : Option Grid :=
  (grid.read? start span).map fun _ => grid.modify start (·.set span cell)

def halves? (grid : Grid) (start span split : ℕ) : Option (PlacedCell × PlacedCell) := do
  let left ← grid.read? start split
  let rest ← (← span.psub split).psub 1
  let right ← grid.read? (start + split + 1) rest
  return (((start, split), left), ((start + split + 1, rest), right))

/-! ## What is shown of a grid -/

def whole? (grid : Grid) (length : ℕ) : Option SymbolSet :=
  (length.psub 1).bind (grid.read? 0)

def cells (grid : Grid) : List PlacedCell :=
  grid.zipIdx.flatMap fun (row, start) => row.zipIdx.map fun (cell, span) => ((start, span), cell)

def rowText? (grid : Grid) (length span : ℕ) : Option String := do
  let row ← (List.range (← length.psub span)).mapM fun start => grid.read? start span
  return s!"{span + 1}: " ++ " ".intercalate (row.map cellText)

def text? (grid : Grid) (word : List Char) : Option String := do
  let rows ← (List.range word.length).mapM (grid.rowText? word.length)
  return "\n".intercalate (("word: " ++ String.ofList word) :: rows)

end Grid

/-! ## Loops -/

/-- A grid that is being filled, and the cells that were read for that, each as it was then. -/
structure Filling where
  grid : Grid
  reads : List PlacedCell

namespace Filling

def fillLetter? (productions : Productions) (filling : Filling) :
    Char × ℕ → Option Filling
  | (letter, start) => do
      let grid ← filling.grid.write? start 0 (productions.producers (.terminal letter))
      return { filling with grid }

/-- Reads the halves of a part at all splits and writes the cell of the part. -/
def fillPart? (productions : Productions) (span : ℕ) (filling : Filling) (start : ℕ) :
    Option Filling := do
  let halves ← (List.range span).mapM (filling.grid.halves? start span)
  let grid ← filling.grid.write? start span <|
    .ofList (halves.flatMap fun (left, right) => Table.join productions left.2 right.2)
  return ⟨grid, filling.reads ++ halves.flatMap fun halves => [halves.1, halves.2]⟩

def fillSpan? (productions : Productions) (length : ℕ) (filling : Filling) (span : ℕ) :
    Option Filling := do
  (List.range (← length.psub span)).foldlM (fillPart? productions span) filling

def fill? (productions : Productions) (word : List Char) : Option Filling := do
  let grid ← Grid.blank? word.length
  let letters ← word.zipIdx.foldlM (fillLetter? productions) ⟨grid, []⟩
  (List.range' 1 (word.length - 1)).foldlM (fillSpan? productions word.length) letters

end Filling

/-! ## Access -/

namespace Grid

variable {grid : Grid} {start span : ℕ}

/-- A cell that is there can be written, and no other cell changes. -/
theorem exists_write? (h : (grid.read? start span).isSome = true) (cell : SymbolSet) :
    ∃ next, grid.write? start span cell = some next ∧
      next.map List.length = grid.map List.length ∧ next.read? start span = some cell ∧
        ∀ other shorter, (other, shorter) ≠ (start, span) →
          next.read? other shorter = grid.read? other shorter := by
  rcases Option.isSome_iff_exists.1 h with ⟨old, hold⟩
  refine ⟨grid.modify start (·.set span cell), ?_, ?_, ?_, ?_⟩
  · rw [write?, hold, Option.map_some]
  · refine List.ext_getElem? fun index => ?_
    rw [List.getElem?_map, List.getElem?_map, List.getElem?_modify]
    cases grid[index]? with
    | none => rfl
    | some row =>
        by_cases hindex : start = index
        · simp [hindex]
        · simp [hindex]
  · rcases Option.bind_eq_some_iff.1 hold with ⟨row, hrow, hcell⟩
    have hspan : span < row.length := (List.getElem?_eq_some_iff.1 hcell).1
    simp [read?, hrow, hspan]
  · intro other shorter hplace
    rw [read?, read?, List.getElem?_modify]
    cases grid[other]? with
    | none => rfl
    | some row =>
        by_cases hstart : start = other
        · subst hstart
          have hspan : span ≠ shorter := fun hspan => hplace (by rw [hspan])
          simp [hspan]
        · simp [hstart]

def Shaped (grid : Grid) (length : ℕ) : Prop :=
  grid.map List.length = (List.range length).map (length - ·)

namespace Shaped

variable {length : ℕ}

theorem map_length (h : grid.Shaped length) (start : ℕ) :
    grid[start]?.map List.length = (List.range length)[start]?.map (length - ·) := by
  rw [← List.getElem?_map, ← List.getElem?_map, h]

theorem exists_row (h : grid.Shaped length) (hstart : start < length) :
    ∃ row, grid[start]? = some row ∧ row.length = length - start := by
  have hrow := h.map_length start
  rw [List.getElem?_range hstart, Option.map_some] at hrow
  exact Option.map_eq_some_iff.1 hrow

theorem getElem?_eq_none (h : grid.Shaped length) (hstart : length ≤ start) :
    grid[start]? = none := by
  have hrow := h.map_length start
  have hnone : (List.range length)[start]? = none :=
    List.getElem?_eq_none (by rwa [List.length_range])
  rwa [hnone, Option.map_none, Option.map_eq_none_iff] at hrow

/-- Reads succeed within the triangle, and only there. -/
theorem isSome_read?_iff (h : grid.Shaped length) :
    (grid.read? start span).isSome = true ↔ start + span < length := by
  rw [read?]
  rcases Nat.lt_or_ge start length with hstart | hstart
  · rcases h.exists_row hstart with ⟨row, hrow, hlength⟩
    have hcell : row[span]?.isSome = true ↔ span < row.length := by simp
    rw [hrow, Option.bind_some, hcell, hlength]
    omega
  · rw [h.getElem?_eq_none hstart]
    simp only [Option.bind_none, Option.isSome_none, Bool.false_eq_true, false_iff]
    omega

end Shaped

theorem exists_blank? (length : ℕ) : ∃ grid, blank? length = some grid ∧ grid.Shaped length := by
  refine ⟨(List.range length).map fun start => .replicate (length - start) ∅, ?_, ?_⟩
  · refine mapM_eq_some_map fun start hstart => ?_
    rw [Nat.psub_eq_sub (Nat.le_of_lt (List.mem_range.1 hstart)), Option.map_some]
  · rw [Shaped, List.map_map]
    exact List.map_congr_left fun start _ => List.length_replicate

end Grid

/-! ## Filling -/

namespace Filling

variable {productions : Productions} {word : List Char} {filling : Filling} {start span : ℕ}

def rowsOf (productions : Productions) (word : List Char) : Array (Array SymbolSet) :=
  Table.rowsTo productions word (word.length - 1)

def Final (productions : Productions) (word : List Char) (placed : PlacedCell) : Prop :=
  Table.find? (rowsOf productions word) placed.1.1 placed.1.2 = some placed.2

def placedCell (productions : Productions) (word : List Char) (start span : ℕ) : PlacedCell :=
  ((start, span), (Table.find? (rowsOf productions word) start span).getD ∅)

theorem final_placedCell (h : start + span < word.length) :
    Final productions word (placedCell productions word start span) := by
  have hsome : ∃ cell, Table.find? (rowsOf productions word) start span = some cell :=
    Table.exists_find?_rowsTo (by omega) h
  rcases hsome with ⟨cell, hcell⟩
  rw [Final, placedCell, hcell, Option.getD_some]

def placedHalves (productions : Productions) (word : List Char) (start span split : ℕ) :
    PlacedCell × PlacedCell :=
  (placedCell productions word start split,
    placedCell productions word (start + split + 1) (span - split - 1))

theorem final_letter {letter : Char} (h : word[start]? = some letter) :
    Final productions word ((start, 0), productions.producers (.terminal letter)) := by
  rw [Final, rowsOf, Table.find?_rowsTo_of_le (Nat.zero_le _), Table.find?_rowsTo_zero, h,
    Option.map_some]

/-- Joined halves make the cell that the table has. -/
theorem final_joined (h : start + span < word.length) (hspan : 0 < span) :
    Final productions word ((start, span), .ofList <|
      ((List.range span).map (placedHalves productions word start span)).flatMap
        fun (left, right) => Table.join productions left.2 right.2) := by
  cases span with
  | zero => cases hspan
  | succ span =>
      -- The rows up to `span` are there when the cell is made, and do not change after that.
      have hlimit : span + 1 ≤ word.length - 1 := by omega
      have hrows :
          Table.joinSplits productions (Table.rowsTo productions word span) (span + 1) start =
            Table.joinSplits productions (rowsOf productions word) (span + 1) start := by
        refine Table.joinSplits_congr start fun other shorter hshorter => ?_
        rw [rowsOf, Table.find?_rowsTo_of_le (Nat.lt_succ_iff.1 hshorter),
          Table.find?_rowsTo_of_le (by omega : shorter ≤ word.length - 1)]
      rw [Final, rowsOf, Table.find?_rowsTo_of_le hlimit, Table.find?_rowsTo_succ, if_pos h,
        hrows, List.flatMap_map]
      rfl

/-- All shorter parts have their cells, and so have the parts of this span up to a start. What was
read is in the table. -/
structure Progress (productions : Productions) (word : List Char) (span start : ℕ)
    (filling : Filling) : Prop where
  shaped : filling.grid.Shaped word.length
  written : ∀ other shorter, other + shorter < word.length →
    shorter < span ∨ shorter = span ∧ other < start →
      filling.grid.read? other shorter = some (placedCell productions word other shorter).2
  reads : ∀ placed ∈ filling.reads, Final productions word placed

namespace Progress

/-- Where the next cell is written as it is in the table, there is one cell more. -/
theorem exists_write? (h : Progress productions word span start filling)
    (hpart : start + span < word.length) {cell : SymbolSet}
    (hcell : Final productions word ((start, span), cell)) :
    ∃ grid, filling.grid.write? start span cell = some grid ∧
      ∀ reads : List PlacedCell, (∀ placed ∈ reads, Final productions word placed) →
        Progress productions word span (start + 1) ⟨grid, filling.reads ++ reads⟩ := by
  rcases Grid.exists_write? (h.shaped.isSome_read?_iff.2 hpart) cell with
    ⟨grid, hwrite, hlengths, hself, hothers⟩
  refine ⟨grid, hwrite, fun reads hreads => ⟨hlengths.trans h.shaped, ?_, ?_⟩⟩
  · intro other shorter hother hbefore
    -- The place that was written is the one that comes last.
    by_cases hplace : (other, shorter) = (start, span)
    · cases hplace
      rw [hself, placedCell, hcell, Option.getD_some]
    · rw [hothers other shorter hplace]
      refine h.written other shorter hother (hbefore.imp_right fun hsame => ⟨hsame.1, ?_⟩)
      exact Nat.lt_of_le_of_ne (Nat.lt_succ_iff.1 hsame.2) fun heq =>
        hplace (by rw [heq, hsame.1])
  · exact List.forall_mem_append.2 ⟨h.reads, hreads⟩

theorem next_span (h : Progress productions word span (word.length - span) filling) :
    Progress productions word (span + 1) 0 filling where
  shaped := h.shaped
  written other shorter hother hbefore := h.written other shorter hother (by omega)
  reads := h.reads

/-! ## One cell -/

theorem exists_fillLetter? (h : Progress productions word 0 start filling) {letter : Char}
    (hletter : word[start]? = some letter) :
    ∃ next, fillLetter? productions filling (letter, start) = some next ∧
      Progress productions word 0 (start + 1) next := by
  have hpart : start + 0 < word.length := (List.getElem?_eq_some_iff.1 hletter).1
  rcases h.exists_write? hpart (final_letter hletter) with ⟨grid, hwrite, hnext⟩
  refine ⟨{ filling with grid }, ?_, ?_⟩
  · rw [fillLetter?, hwrite]
    rfl
  · have hsame := hnext [] (List.forall_mem_nil _)
    rwa [List.append_nil] at hsame

/-- Both halves of a part are shorter, so they have been written. -/
theorem halves?_eq (h : Progress productions word span start filling)
    (hpart : start + span < word.length) {split : ℕ} (hsplit : split < span) :
    filling.grid.halves? start span split =
      some (placedHalves productions word start span split) := by
  -- The left half has the span `split`, and the right half what remains but one.
  have hleft := h.written start split (by omega) (Or.inl hsplit)
  have hright := h.written (start + split + 1) (span - split - 1) (by omega) (Or.inl (by omega))
  have hsub : span.psub split = some (span - split) := Nat.psub_eq_sub (Nat.le_of_lt hsplit)
  have hrest : (span - split).psub 1 = some (span - split - 1) := Nat.psub_eq_sub (by omega)
  simp only [Grid.halves?, Option.bind_eq_bind, hleft, hsub, hrest, hright, Option.bind_some]
  rfl

/-- Writing the cell of a longer part succeeds, since its halves are there to be read. -/
theorem exists_fillPart? (h : Progress productions word span start filling)
    (hpart : start + span < word.length) (hspan : 0 < span) :
    ∃ next, fillPart? productions span filling start = some next ∧
      Progress productions word span (start + 1) next := by
  -- All halves can be read before the cell is written.
  have hhalves : (List.range span).mapM (filling.grid.halves? start span) =
      some ((List.range span).map (placedHalves productions word start span)) :=
    mapM_eq_some_map fun split hsplit => h.halves?_eq hpart (List.mem_range.1 hsplit)
  rcases h.exists_write? hpart (final_joined hpart hspan) with ⟨grid, hwrite, hnext⟩
  refine ⟨_, ?_, hnext (((List.range span).map (placedHalves productions word start span)).flatMap
    fun halves => [halves.1, halves.2]) ?_⟩
  · simp only [fillPart?, Option.bind_eq_bind, hhalves, Option.bind_some, hwrite]
    rfl
  · intro placed hplaced
    -- Whatever was read is a half at some split.
    rw [List.flatMap_map] at hplaced
    rcases List.mem_flatMap.1 hplaced with ⟨split, hsplit, hmem⟩
    rw [List.mem_range] at hsplit
    rcases List.mem_pair.1 hmem with rfl | rfl
    · exact final_placedCell (by omega)
    · exact final_placedCell (by omega)

end Progress

/-! ## All cells -/

/-- All parts of a span are written, and the next span can begin. -/
theorem exists_fillSpan? (h : Progress productions word span 0 filling) (hspan : 0 < span)
    (hlast : span ≤ word.length) :
    ∃ next, fillSpan? productions word.length filling span = some next ∧
      Progress productions word (span + 1) 0 next := by
  -- The start that comes next is the number of parts that are done.
  have hstep : ∀ index start, (List.range (word.length - span))[index]? = some start →
      ∀ state, Progress productions word span index state →
        ∃ next, fillPart? productions span state start = some next ∧
          Progress productions word span (index + 1) next := by
    intro index start hstart state hstate
    rcases List.getElem?_eq_some_iff.1 hstart with ⟨hindex, rfl⟩
    rw [List.length_range] at hindex
    rw [List.getElem_range]
    exact hstate.exists_fillPart? (by omega) hspan
  rcases exists_foldlM h hstep with ⟨next, hnext, hprogress⟩
  rw [List.length_range] at hprogress
  refine ⟨next, ?_, hprogress.next_span⟩
  rw [fillSpan?, Nat.psub_eq_sub hlast]
  exact hnext

/-- Filling a grid never fails, and all cells are written in the end. -/
theorem exists_fill? (productions : Productions) {word : List Char} (hword : word ≠ []) :
    ∃ filling, fill? productions word = some filling ∧
      Progress productions word word.length 0 filling := by
  have hlength : 0 < word.length := List.length_pos_of_ne_nil hword
  rcases Grid.exists_blank? word.length with ⟨grid, hgrid, hshaped⟩
  have hblank : Progress productions word 0 0 ⟨grid, []⟩ :=
    ⟨hshaped, fun other shorter _ hbefore => by omega, List.forall_mem_nil _⟩
  -- The letters come first, and then one span after the other.
  have hletter : ∀ index item, word.zipIdx[index]? = some item → ∀ state,
      Progress productions word 0 index state →
        ∃ next, fillLetter? productions state item = some next ∧
          Progress productions word 0 (index + 1) next := by
    intro index item hitem state hstate
    rw [List.getElem?_zipIdx, Nat.zero_add] at hitem
    rcases Option.map_eq_some_iff.1 hitem with ⟨letter, hletter, rfl⟩
    exact hstate.exists_fillLetter? hletter
  rcases exists_foldlM hblank hletter with ⟨letters, hletters, hfirst⟩
  have hspan : ∀ index span, (List.range' 1 (word.length - 1))[index]? = some span → ∀ state,
      Progress productions word (index + 1) 0 state →
        ∃ next, fillSpan? productions word.length state span = some next ∧
          Progress productions word (index + 1 + 1) 0 next := by
    intro index span hspan state hstate
    rcases List.getElem?_eq_some_iff.1 hspan with ⟨hindex, rfl⟩
    rw [List.length_range'] at hindex
    rw [List.getElem_range', Nat.one_mul, Nat.add_comm]
    exact exists_fillSpan? hstate (Nat.succ_pos index) (by omega)
  rw [List.length_zipIdx] at hfirst
  rcases exists_foldlM (motive := fun index => Progress productions word (index + 1) 0)
    hfirst.next_span hspan with ⟨filling, hfilling, hlast⟩
  rw [List.length_range', Nat.sub_add_cancel hlength] at hlast
  refine ⟨filling, ?_, hlast⟩
  simp only [fill?, Option.bind_eq_bind, hgrid, hletters, Option.bind_some, hfilling]

/-! ## What the grid shows in the end -/

def tableOf (productions : Productions) (word : List Char) (symbol : Char) : Table :=
  ⟨word, symbol, rowsOf productions word⟩

theorem zipIdx_map_range {α : Type} (f : ℕ → α) (count : ℕ) :
    ((List.range count).map f).zipIdx = (List.range count).map fun index => (f index, index) := by
  refine List.ext_getElem? fun index => ?_
  rw [List.getElem?_zipIdx, Nat.zero_add, List.getElem?_map, List.getElem?_map]
  rcases Nat.lt_or_ge index count with hindex | hindex
  · rw [List.getElem?_range hindex]
    rfl
  · rw [List.getElem?_eq_none (by rwa [List.length_range])]
    rfl

namespace Progress

variable (h : Progress productions word word.length 0 filling) (symbol : Char)

include h

theorem read?_eq (start span : ℕ) :
    filling.grid.read? start span = (tableOf productions word symbol).cell? start span := by
  by_cases hpart : start + span < word.length
  · have hfinal : Final productions word (placedCell productions word start span) :=
      final_placedCell hpart
    exact (h.written start span hpart (Or.inl (by omega))).trans hfinal.symm
  · have hgrid : filling.grid.read? start span = none := by
      rw [← Option.not_isSome_iff_eq_none, h.shaped.isSome_read?_iff]
      exact hpart
    rw [hgrid, eq_comm, Option.eq_none_iff_forall_not_mem]
    exact fun cell hcell => hpart (Table.lt_of_find?_rowsTo hcell)

/-- The grid has no rows beyond those that were written. -/
theorem grid_eq : filling.grid = (List.range word.length).map fun start =>
    (List.range (word.length - start)).map fun span =>
      (placedCell productions word start span).2 := by
  refine List.ext_getElem? fun start => ?_
  rw [List.getElem?_map]
  rcases Nat.lt_or_ge start word.length with hstart | hstart
  · rcases h.shaped.exists_row hstart with ⟨row, hrow, hlength⟩
    rw [hrow, List.getElem?_range hstart, Option.map_some, Option.some.injEq]
    refine List.ext_getElem? fun span => ?_
    rw [List.getElem?_map]
    rcases Nat.lt_or_ge span row.length with hspan | hspan
    · -- The spans have all been filled, so every cell of the row is written.
      have hcell := h.written start span (by omega) (Or.inl (by omega))
      rw [Grid.read?, hrow, Option.bind_some] at hcell
      rw [hcell, List.getElem?_range (by omega)]
      rfl
    · rw [List.getElem?_eq_none hspan, List.getElem?_eq_none (by rw [List.length_range]; omega)]
      rfl
  · rw [h.shaped.getElem?_eq_none hstart, List.getElem?_eq_none (by rwa [List.length_range])]
    rfl

/-- Reading the grid row after row gives the cells in the order of their places. -/
theorem cells_eq : filling.grid.cells = (tableOf productions word symbol).cells := by
  rw [h.grid_eq, Grid.cells, zipIdx_map_range, List.flatMap_map, Table.cells, Table.places,
    List.map_flatMap]
  refine List.flatMap_congr fun start _ => ?_
  simp only [zipIdx_map_range, List.map_map]
  rfl

theorem whole?_eq (hword : word ≠ []) :
    filling.grid.whole? word.length = some (tableOf productions word symbol).whole := by
  have hlength : 0 < word.length := List.length_pos_of_ne_nil hword
  rw [Grid.whole?, Nat.psub_eq_sub hlength, Option.bind_some,
    h.written 0 (word.length - 1) (by omega) (Or.inl (by omega))]
  rfl

theorem rowText?_eq {span : ℕ} (hspan : span < word.length) :
    filling.grid.rowText? word.length span =
      some ((tableOf productions word symbol).rowText span) := by
  have hrow : (List.range (word.length - span)).mapM (fun start => filling.grid.read? start span) =
      some ((tableOf productions word symbol).row span) := by
    refine mapM_eq_some_map fun start hstart => ?_
    rw [List.mem_range] at hstart
    exact h.written start span (by omega) (Or.inl hspan)
  have hcount : word.length.psub span = some (word.length - span) :=
    Nat.psub_eq_sub (Nat.le_of_lt hspan)
  simp only [Grid.rowText?, Option.bind_eq_bind, hcount, Option.bind_some, hrow]
  rfl

/-- The grid is shown as the table is. -/
theorem text?_eq : filling.grid.text? word = some (tableOf productions word symbol).text := by
  have hrows : (List.range word.length).mapM (filling.grid.rowText? word.length) =
      some ((List.range word.length).map (tableOf productions word symbol).rowText) :=
    mapM_eq_some_map fun span hspan => h.rowText?_eq symbol (List.mem_range.1 hspan)
  simp only [Grid.text?, Option.bind_eq_bind, hrows, Option.bind_some]
  rfl

end Progress

end Filling

end ChomskyNormal
