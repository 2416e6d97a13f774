import ChomskyNormal.Text.Lines
import Mathlib.Data.List.Induction

/-!
# Joining and cutting

Cutting undoes joining: items that hold no separator come back from the list that puts one between
every two of them. The same holds of the lines of a text, as long as no line is empty and none
holds a mark of its own.

- `mem_of_mem_intercalate` : what a joined list holds;
- `append_separator_inj` : the first separator of a list;
- `pieces_intercalate`, `intercalate_pieces` : the pieces of a joined list, and what they join to;
- `exists_pieces_append` : the pieces of two lists in a row;
- `lines_intercalate` : the lines of a joined text.
-/

namespace ChomskyNormal

variable {α : Type} {separator : α}

/-- A joined list holds nothing but separators and items. -/
theorem mem_of_mem_intercalate {items : List (List α)} {element : α}
    (h : element ∈ [separator].intercalate items) :
    element = separator ∨ ∃ item ∈ items, element ∈ item := by
  induction items with
  | nil => cases h
  | cons item items ih =>
      cases items with
      | nil =>
          rw [List.intercalate_singleton] at h
          exact Or.inr ⟨item, List.mem_cons_self, h⟩
      | cons next later =>
          simp only [List.intercalate_cons_cons, List.mem_append, List.mem_singleton] at h
          rcases h with (hitem | hseparator) | hlater
          · exact Or.inr ⟨item, List.mem_cons_self, hitem⟩
          · exact Or.inl hseparator
          · rcases ih hlater with hseparator | ⟨other, hother, hmem⟩
            · exact Or.inl hseparator
            · exact Or.inr ⟨other, List.mem_cons_of_mem _ hother, hmem⟩

variable [DecidableEq α]

/-! ## Pieces -/

/-- What comes before the first separator stands at the front of the first piece. -/
theorem cut_append_of_not_mem {piece : List α} (h : separator ∉ piece) (rest : List α) :
    cut separator (piece ++ rest) =
      (piece ++ (cut separator rest).1, (cut separator rest).2) := by
  induction piece with
  | nil => rfl
  | cons item piece ih =>
      rw [List.mem_cons, not_or] at h
      rw [List.cons_append, cut_cons_of_ne (Ne.symm h.1), ih h.2]
      rfl

theorem pieces_of_not_mem {piece : List α} (h : separator ∉ piece) :
    pieces separator piece = [piece] := by
  have hcut := cut_append_of_not_mem h []
  rw [List.append_nil] at hcut
  rw [pieces, hcut]
  exact congrArg (fun first => [first]) (List.append_nil piece)

theorem pieces_append_separator {piece : List α} (h : separator ∉ piece) (rest : List α) :
    pieces separator (piece ++ separator :: rest) = piece :: pieces separator rest := by
  have hrest := pieces_cons_self separator rest
  rw [pieces, List.cons.injEq] at hrest
  rw [pieces, cut_append_of_not_mem h, hrest.1, hrest.2, List.append_nil]

/-- The first separator marks where the front of a list ends. -/
theorem append_separator_inj {front other back behind : List α} (hfront : separator ∉ front)
    (hother : separator ∉ other) :
    front ++ separator :: back = other ++ separator :: behind ↔ front = other ∧ back = behind := by
  constructor
  · intro h
    have hpieces := congrArg (pieces separator) h
    rw [pieces_append_separator hfront, pieces_append_separator hother, List.cons.injEq] at hpieces
    rw [hpieces.1] at h
    exact ⟨hpieces.1, (List.cons.inj (List.append_cancel_left h)).2⟩
  · rintro ⟨rfl, rfl⟩
    rfl

/-- A piece holds nothing that its list does not hold. -/
theorem mem_of_mem_pieces {items piece : List α} {element : α}
    (hpiece : piece ∈ pieces separator items) (h : element ∈ piece) : element ∈ items := by
  induction items generalizing piece with
  | nil =>
      rw [List.mem_singleton.1 hpiece] at h
      exact h
  | cons item items ih =>
      by_cases hitem : item = separator
      · subst hitem
        rw [pieces_cons_self, List.mem_cons] at hpiece
        rcases hpiece with rfl | hpiece
        · cases h
        · exact List.mem_cons_of_mem _ (ih hpiece h)
      · -- The item goes to the first piece, and no other piece changes.
        rw [pieces, cut_cons_of_ne hitem, List.mem_cons] at hpiece
        rcases hpiece with rfl | hpiece
        · rcases List.mem_cons.1 h with rfl | h
          · exact List.mem_cons_self
          · exact List.mem_cons_of_mem _ (ih List.mem_cons_self h)
        · exact List.mem_cons_of_mem _ (ih (List.mem_cons_of_mem _ hpiece) h)

/-- Cutting undoes joining, as long as no item holds the separator. -/
theorem pieces_intercalate {items : List (List α)} (hsome : items ≠ [])
    (h : ∀ item ∈ items, separator ∉ item) :
    pieces separator ([separator].intercalate items) = items := by
  induction items with
  | nil => exact absurd rfl hsome
  | cons item items ih =>
      rw [List.forall_mem_cons] at h
      cases items with
      | nil =>
          rw [List.intercalate_singleton]
          exact pieces_of_not_mem h.1
      | cons next later =>
          rw [List.intercalate_cons_cons, List.append_assoc, List.singleton_append,
            pieces_append_separator h.1, ih (List.cons_ne_nil _ _) h.2]

/-- No items at all come back as one empty piece. -/
theorem flatten_pieces_intercalate {items : List (List α)} (h : ∀ item ∈ items, separator ∉ item) :
    (pieces separator ([separator].intercalate items)).flatten = items.flatten := by
  cases items with
  | nil => rfl
  | cons item items => rw [pieces_intercalate (List.cons_ne_nil _ _) h]

/-- Joining undoes cutting. -/
theorem intercalate_pieces (separator : α) (items : List α) :
    [separator].intercalate (pieces separator items) = items := by
  induction items with
  | nil => rfl
  | cons item items ih =>
      by_cases hitem : item = separator
      · subst hitem
        rw [pieces_cons_self, pieces, List.intercalate_cons_cons, ← pieces, ih]
        rfl
      · rw [pieces, cut_cons_of_ne hitem]
        rw [pieces] at ih
        -- The item stands before the first piece, whatever comes after that.
        cases hlater : (cut separator items).2 with
        | nil =>
            rw [hlater, List.intercalate_singleton] at ih
            rw [List.intercalate_singleton, ih]
        | cons next later =>
            rw [hlater, List.intercalate_cons_cons] at ih
            rw [List.intercalate_cons_cons, List.cons_append, List.cons_append, ih]

/-- What is appended goes on with the last piece, and that is empty where a separator ends it. -/
theorem exists_pieces_append (separator : α) (front : List α) : ∃ ended last,
    ended.length = front.count separator ∧
      ((∀ item ∈ front.getLast?, item = separator) → last = []) ∧
        ∀ back, pieces separator (front ++ back) =
          ended ++ (last ++ (cut separator back).1) :: (cut separator back).2 := by
  -- An item goes to the last piece or ends it, so the induction takes items off the end.
  induction front using List.reverseRecOn with
  | nil => exact ⟨[], [], rfl, fun _ => rfl, fun _ => rfl⟩
  | append_singleton front item ih =>
      rcases ih with ⟨ended, last, hlength, _, happend⟩
      by_cases hitem : item = separator
      · subst hitem
        refine ⟨ended ++ [last], [], ?_, fun _ => rfl, fun back => ?_⟩
        · rw [List.length_append, hlength, List.count_append, List.count_singleton_self]
          rfl
        · rw [List.append_assoc, List.singleton_append, happend, cut_cons_self, List.append_nil,
            List.append_assoc]
          rfl
      · refine ⟨ended, last ++ [item], ?_, fun hends => ?_, fun back => ?_⟩
        · rw [hlength, List.count_append, List.count_singleton, beq_eq_false_iff_ne.2 hitem]
          rfl
        · exact absurd (hends item (by simp)) hitem
        · rw [List.append_assoc, List.singleton_append, happend, cut_cons_of_ne hitem,
            List.append_assoc]
          rfl

/-! ## Lines -/

variable {marks : LineMarks α}

theorem dropReturn_eq_self {line : List α} (h : marks.carriageReturn ∉ line) :
    dropReturn marks line = line := by
  unfold dropReturn
  refine if_neg fun hlast => h ?_
  exact List.mem_of_getLast? hlast

theorem linesOfPieces_eq_self {lines : List (List α)} (hsome : ∀ line ∈ lines, line ≠ [])
    (hreturn : ∀ line ∈ lines, marks.carriageReturn ∉ line) :
    linesOfPieces marks lines = lines := by
  -- The last piece is kept for not being empty, and all others for having no mark at their end.
  fun_induction linesOfPieces marks lines with
  | case1 => rfl
  | case2 => exact absurd rfl (hsome [] List.mem_cons_self)
  | case3 last hlast => rfl
  | case4 piece later _ ih =>
      rw [List.forall_mem_cons] at hsome hreturn
      rw [dropReturn_eq_self hreturn.1, ih hsome.2 hreturn.2]

/-- Lines that hold no mark and are not empty come back from the text that joins them. -/
theorem lines_intercalate {items : List (List α)} (hsome : ∀ item ∈ items, item ≠ [])
    (hfeed : ∀ item ∈ items, marks.lineFeed ∉ item)
    (hreturn : ∀ item ∈ items, marks.carriageReturn ∉ item) :
    lines marks ([marks.lineFeed].intercalate items) = items := by
  cases items with
  | nil => rfl
  | cons first later =>
      rw [lines, pieces_intercalate (List.cons_ne_nil _ _) hfeed]
      exact linesOfPieces_eq_self hsome hreturn

end ChomskyNormal
