import ChomskyNormal.Recognition.Table
import Mathlib.Data.Nat.Init

/-!
# Rows of a table

Rows are filled one span after the other, and a row never changes once it is there.

- `Table.find?_rowsTo_of_le` : later rows leave the cells of a span alone;
- `Table.find?_rowsTo_zero`, `Table.find?_rowsTo_succ` : what a cell is made of;
- `Table.lt_of_find?_rowsTo`, `Table.exists_find?_rowsTo` : which cells there are;
- `Table.mem_joinSplits_iff` : a cell of a longer part gathers the pairs of all splits.
-/

namespace ChomskyNormal

namespace Table

variable {productions : Productions} {word : List Char}

/-! ## Which rows there are -/

@[simp] theorem size_rowsTo (span : Nat) : (rowsTo productions word span).size = span + 1 := by
  induction span with
  | zero => rfl
  | succ span ih =>
      rw [rowsTo, Array.size_push, ih]

/-- Later rows do not change a cell. -/
theorem find?_rowsTo_of_le {start span limit : Nat} (h : span ≤ limit) :
    find? (rowsTo productions word limit) start span =
      find? (rowsTo productions word span) start span := by
  induction limit with
  | zero =>
      cases Nat.le_zero.1 h
      rfl
  | succ limit ih =>
      rcases Nat.eq_or_lt_of_le h with rfl | hlt
      · rfl
      · -- The row of this span was there before the last one was pushed.
        have hrow : span < (rowsTo productions word limit).size := by
          rw [size_rowsTo]
          exact hlt
        have hkeep : find? (rowsTo productions word (limit + 1)) start span =
            find? (rowsTo productions word limit) start span := by
          rw [rowsTo, find?, find?, Array.getElem?_push_lt hrow, Array.getElem?_eq_getElem hrow]
        rw [hkeep]
        exact ih (Nat.lt_succ_iff.1 hlt)

/-! ## What their cells are -/

theorem find?_rowsTo_zero (start : Nat) :
    find? (rowsTo productions word 0) start 0 =
      word[start]?.map fun letter => productions.producers (.terminal letter) := by
  simp [find?, rowsTo, letterRow]

/-- The row of a span is joined from the rows before it. -/
theorem find?_rowsTo_succ (start span : Nat) :
    find? (rowsTo productions word (span + 1)) start (span + 1) =
      if start + (span + 1) < word.length then
        some (joinSplits productions (rowsTo productions word span) (span + 1) start)
      else
        none := by
  -- The row of this span is the one that was pushed last.
  have hlast : (rowsTo productions word (span + 1))[span + 1]? =
      some ((Array.range (word.length - (span + 1))).map
        (joinSplits productions (rowsTo productions word span) (span + 1))) := by
    have hsize : span + 1 = (rowsTo productions word span).size := (size_rowsTo span).symm
    rw [rowsTo]
    simp only [hsize, Array.getElem?_push_size]
  rw [find?, hlast, Option.bind_some, Array.getElem?_map, Array.getElem?_range]
  by_cases h : start + (span + 1) < word.length
  · have hstart : start < word.length - (span + 1) := by omega
    rw [if_pos h, if_pos hstart, Option.map_some]
  · have hstart : ¬ start < word.length - (span + 1) := by omega
    rw [if_neg h, if_neg hstart, Option.map_none]

/-- There are no cells beyond the end of the word. -/
theorem lt_of_find?_rowsTo {limit start span : Nat} {cell : SymbolSet}
    (h : find? (rowsTo productions word limit) start span = some cell) :
    start + span < word.length := by
  have hspan : span ≤ limit := by
    refine Nat.le_of_not_lt fun hlarge => ?_
    have hrow : (rowsTo productions word limit)[span]? = none := by
      rw [Array.getElem?_eq_none_iff, size_rowsTo]
      exact hlarge
    rw [find?, hrow] at h
    cases h
  rw [find?_rowsTo_of_le hspan] at h
  -- The row of a span only has cells for parts that end within the word.
  cases span with
  | zero =>
      rw [find?_rowsTo_zero, Option.map_eq_some_iff] at h
      rcases h with ⟨letter, hletter, _⟩
      exact (List.getElem?_eq_some_iff.1 hletter).1
  | succ span =>
      rw [find?_rowsTo_succ, Option.ite_none_right_eq_some] at h
      exact h.1

/-- Every part within the word has a cell. -/
theorem exists_find?_rowsTo {limit start span : Nat} (hspan : span ≤ limit)
    (h : start + span < word.length) :
    ∃ cell, find? (rowsTo productions word limit) start span = some cell := by
  rw [find?_rowsTo_of_le hspan]
  cases span with
  | zero =>
      have hletter : word[start]? = some word[start] := List.getElem?_eq_getElem h
      rw [find?_rowsTo_zero, hletter]
      exact ⟨_, rfl⟩
  | succ span =>
      rw [find?_rowsTo_succ, if_pos h]
      exact ⟨_, rfl⟩

/-! ## Joining the halves -/

theorem mem_join_iff {left right : SymbolSet} {root : Char} :
    root ∈ join productions left right ↔
      ∃ b ∈ left, ∃ c ∈ right, root ∈ productions.producers (.binary b c) := by
  simp [join, Std.ExtTreeSet.mem_toList]

/-- A cell holds the heads of all pairs that two halves offer, at any split. -/
theorem mem_joinSplits_iff {rows : Array (Array SymbolSet)} {span start : Nat} {root : Char} :
    root ∈ joinSplits productions rows span start ↔
      ∃ split < span, ∃ b ∈ (find? rows start split).getD ∅,
        ∃ c ∈ (find? rows (start + split + 1) (span - split - 1)).getD ∅,
          root ∈ productions.producers (.binary b c) := by
  rw [joinSplits, Std.ExtTreeSet.mem_ofList, List.contains_iff_mem, List.mem_flatMap]
  simp only [List.mem_range, mem_join_iff]

/-- A cell depends on the cells of shorter parts only. -/
theorem joinSplits_congr {rows others : Array (Array SymbolSet)} {span : Nat} (start : Nat)
    (h : ∀ other, ∀ shorter < span, find? rows other shorter = find? others other shorter) :
    joinSplits productions rows span start = joinSplits productions others span start := by
  refine Std.ExtTreeSet.ext_mem fun root => ?_
  rw [mem_joinSplits_iff, mem_joinSplits_iff]
  refine exists_congr fun split => and_congr_right fun hsplit => ?_
  rw [h start split hsplit, h (start + split + 1) (span - split - 1) (by omega)]

end Table

end ChomskyNormal
