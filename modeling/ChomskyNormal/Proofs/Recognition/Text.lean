import ChomskyNormal.Proofs.Recognition.Cells
import ChomskyNormal.Proofs.Rule.Writing
import ChomskyNormal.Proofs.Text.Joining
import ChomskyNormal.Recognition.Text

/-!
# Lines of a table

The text of a table has one line for its word and one for each span. Symbols are not blank, so a
blank stands in the line of a span only where two of its items meet: the number of letters, and then
the cells from left to right.

- `Table.Legible` : tables of symbols that are not blank;
- `Table.pieces_rowText` : the items of a line;
- `Table.lines_text` : the lines of the text.
-/

namespace ChomskyNormal

/-! ## Characters of numbers and cells -/

theorem digits_apart_blankRanges : ∀ range ∈ blankRanges, 57 < range.1 ∨ range.2 < 48 := by
  decide

theorem isBlank_of_isDigit {c : Char} (h : c.isDigit = true) : isBlank c = false := by
  have hdigit : 48 ≤ c.toNat ∧ c.toNat ≤ 57 := by
    rwa [Char.isDigit, Bool.and_eq_true, decide_eq_true_iff, decide_eq_true_iff, ge_iff_le,
      UInt32.le_iff_toNat_le, UInt32.le_iff_toNat_le] at h
  rw [isBlank, List.any_eq_false]
  intro range hrange hinside
  rw [Bool.and_eq_true, decide_eq_true_iff, decide_eq_true_iff] at hinside
  have hapart := digits_apart_blankRanges range hrange
  omega

theorem toList_cellText (cell : SymbolSet) : (cellText cell).toList =
    '\x7b' :: [','].intercalate (cell.toList.map fun c => [c]) ++ ['\x7d'] := by
  simp [cellText, Function.comp_def]

theorem isBlank_of_mem_cellText {cell : SymbolSet} (h : ∀ c ∈ cell, isBlank c = false) :
    ∀ c ∈ (cellText cell).toList, isBlank c = false := by
  intro c hc
  rw [toList_cellText, List.mem_append, List.mem_cons, List.mem_singleton] at hc
  rcases hc with (rfl | hc) | rfl
  · decide
  · rcases mem_of_mem_intercalate hc with rfl | ⟨item, hitem, hmem⟩
    · decide
    · rcases List.mem_map.1 hitem with ⟨symbol, hsymbol, rfl⟩
      cases List.mem_singleton.1 hmem
      exact h c (Std.ExtTreeSet.mem_toList.1 hsymbol)
  · decide

namespace Table

variable {table : Table} {span : ℕ}

structure Legible (table : Table) : Prop where
  word : ∀ c ∈ table.word, isBlank c = false
  cells : ∀ {start span : ℕ} {cell : SymbolSet}, table.cell? start span = some cell →
    ∀ c ∈ cell, isBlank c = false

/-! ## Items of lines -/

/-- What the line of a span lists: the number of letters, and then the cells. -/
def rowItems (table : Table) (span : ℕ) : List (List Char) :=
  ((toString (span + 1)).toList ++ [':']) ::
    (table.row span).map fun cell => (cellText cell).toList

def lineItems (table : Table) : List (List (List Char)) :=
  ["word:".toList, table.word] :: (List.range table.size).map table.rowItems

/-- Every line has a cell at least. -/
theorem toList_rowText (h : span < table.size) :
    (table.rowText span).toList = [' '].intercalate (table.rowItems span) := by
  have hsome : table.row span ≠ [] := by
    rw [row, ne_eq, List.map_eq_nil_iff, List.range_eq_nil]
    omega
  rcases List.exists_cons_of_ne_nil hsome with ⟨first, later, hrow⟩
  rw [rowItems, hrow, List.map_cons, List.intercalate_cons_cons, rowText, hrow]
  simp [Function.comp_def, toString]

/-- The text is its lines, each of them a list of items. -/
theorem toList_text (table : Table) :
    table.text.toList = ['\n'].intercalate (table.lineItems.map [' '].intercalate) := by
  have hword : ("word: " ++ String.ofList table.word).toList =
      [' '].intercalate ["word:".toList, table.word] := by
    simp
  have hrows : ((List.range table.size).map table.rowText).map String.toList =
      ((List.range table.size).map table.rowItems).map [' '].intercalate := by
    rw [List.map_map, List.map_map]
    exact List.map_congr_left fun span hspan => toList_rowText (List.mem_range.1 hspan)
  rw [text, String.toList_intercalate, List.map_cons, hword, hrows, lineItems, List.map_cons]
  rfl

theorem isBlank_of_mem_rowItems (h : table.Legible) :
    ∀ item ∈ table.rowItems span, ∀ c ∈ item, isBlank c = false := by
  refine List.forall_mem_cons.2 ⟨?_, ?_⟩
  · intro c hc
    rcases List.mem_append.1 hc with hnumber | hcolon
    · rw [Nat.toString_eq_repr, Nat.toList_repr] at hnumber
      exact isBlank_of_isDigit (Nat.isDigit_of_mem_toDigits (by decide) (by decide) hnumber)
    · cases List.mem_singleton.1 hcolon
      decide
  · intro item hitem
    rcases List.mem_map.1 hitem with ⟨cell, hmem, rfl⟩
    rcases List.mem_map.1 hmem with ⟨start, _, rfl⟩
    refine isBlank_of_mem_cellText fun c hc => ?_
    cases hcell : table.cell? start span with
    | none =>
        rw [hcell] at hc
        exact absurd hc Std.ExtTreeSet.not_mem_empty
    | some cell =>
        rw [hcell] at hc
        exact h.cells hcell c hc

theorem isBlank_of_mem_lineItems (h : table.Legible) :
    ∀ items ∈ table.lineItems, ∀ item ∈ items, ∀ c ∈ item, isBlank c = false := by
  have hlabel : "word:".toList.any isBlank = false := by decide +kernel
  refine List.forall_mem_cons.2 ⟨?_, List.forall_mem_map.2 fun span _ => isBlank_of_mem_rowItems h⟩
  refine List.forall_mem_cons.2 ⟨fun c hc => ?_, List.forall_mem_singleton.2 h.word⟩
  exact Bool.eq_false_iff.2 (List.any_eq_false.1 hlabel c hc)

/-- The first item of a line is its label. -/
theorem intercalate_lineItems_ne_nil :
    ∀ items ∈ table.lineItems, [' '].intercalate items ≠ [] := by
  have hlabel : ∀ (label : List Char) (later : List (List Char)), label ≠ [] →
      [' '].intercalate (label :: later) ≠ [] := by
    intro label later hlabel
    cases later with
    | nil => rwa [List.intercalate_singleton]
    | cons next later => simp
  refine List.forall_mem_cons.2 ⟨hlabel _ _ (by decide +kernel), List.forall_mem_map.2 ?_⟩
  exact fun span _ => hlabel _ _ (by simp)

/-! ## Lines -/

/-- The text has a line for the word and one for each span, and a blank stands in a line only
between two items. -/
theorem lines_text (h : table.Legible) :
    (lines .chars table.text.toList).map (pieces ' ') = table.lineItems := by
  have hitems := isBlank_of_mem_lineItems h
  have hfree : ∀ mark, isBlank mark = true → mark ≠ ' ' →
      ∀ line ∈ table.lineItems.map [' '].intercalate, mark ∉ line := by
    intro mark hmark hother
    refine List.forall_mem_map.2 fun items hline hmem => ?_
    rcases mem_of_mem_intercalate hmem with hsame | ⟨item, hitem, hinside⟩
    · exact hother hsame
    · have hnone := hitems items hline item hitem mark hinside
      rw [hmark] at hnone
      cases hnone
  -- Cutting at line feeds gives the lines back, and cutting at blanks their items.
  have hcut : ∀ items ∈ table.lineItems, pieces ' ' ([' '].intercalate items) = items := by
    intro items hline
    refine pieces_intercalate ?_ fun item hitem hblank => ?_
    · rintro rfl
      exact intercalate_lineItems_ne_nil [] hline rfl
    · have hnone := hitems items hline item hitem ' ' hblank
      cases hnone
  have hlines : lines .chars table.text.toList = table.lineItems.map [' '].intercalate := by
    rw [toList_text]
    exact lines_intercalate (List.forall_mem_map.2 intercalate_lineItems_ne_nil)
      (hfree '\n' (by decide) (by decide)) (hfree '\r' (by decide) (by decide))
  rw [hlines, List.map_map]
  exact (List.map_congr_left hcut).trans (List.map_id _)

end Table

namespace Grammar.WellFormed

variable {grammar : Grammar} {word : String} {table : Table}

/-- Cells hold heads of productions. -/
theorem isUppercase_of_mem_cell (h : grammar.WellFormed) (htable : grammar.table word = .ok table)
    {start span : ℕ} {cell : SymbolSet} (hcell : table.cell? start span = some cell) {root : Char}
    (hroot : root ∈ cell) : isUppercase root = true := by
  have hpart : start + span < word.toList.length := by
    rcases table_eq_ok_iff.1 htable with ⟨symbol, _, rfl⟩
    exact Table.lt_of_find?_rowsTo hcell
  rcases h.mem_cell?_iff_derives htable hpart with ⟨_, hother, hmem⟩
  cases hcell.symm.trans hother
  rcases (hmem root).1 hroot with ⟨tree, hfollows, rfl, _⟩
  exact h.alphabet.uppercase (h.head_mem (Tree.rhs_mem_of_follows hfollows))

/-- Tables are made of symbols. -/
theorem legible (h : grammar.WellFormed) (htable : grammar.table word = .ok table) :
    table.Legible := by
  constructor
  · intro c hc
    rcases table_eq_ok_iff.1 htable with ⟨symbol, hcheck, rfl⟩
    have hterminal := (checkWord_eq_ok_iff.1 hcheck).2.2.2 c hc
    exact Symbol.isBlank_of_isSome
      (Symbol.isSome_ofChar?_iff.2 (Or.inr (h.alphabet.lowercase hterminal)))
  · intro start span cell hcell root hroot
    exact Symbol.isBlank_of_isSome
      (Symbol.isSome_ofChar?_iff.2 (Or.inl (h.isUppercase_of_mem_cell htable hcell hroot)))

end Grammar.WellFormed

end ChomskyNormal
