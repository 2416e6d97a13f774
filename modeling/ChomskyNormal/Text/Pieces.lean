/-!
# Pieces of a list

`pieces separator items` cuts a list at every separator. There is always one piece more than
there are separators, so two neighbouring separators have an empty piece between them.
-/

namespace ChomskyNormal

variable {α : Type} [DecidableEq α]

/-- The piece before the first separator, and all later pieces. -/
def cut (separator : α) (items : List α) : List α × List (List α) :=
  items.foldr
    (fun item (first, later) =>
      if item = separator then ([], first :: later) else (item :: first, later))
    ([], [])

def pieces (separator : α) (items : List α) : List (List α) :=
  (cut separator items).1 :: (cut separator items).2

@[simp] theorem pieces_nil (separator : α) : pieces separator [] = [[]] := rfl

theorem cut_cons_self (separator : α) (items : List α) :
    cut separator (separator :: items) =
      ([], (cut separator items).1 :: (cut separator items).2) := by
  simp [cut]

@[simp] theorem pieces_cons_self (separator : α) (items : List α) :
    pieces separator (separator :: items) = [] :: pieces separator items := by
  simp [pieces, cut]

theorem cut_cons_of_ne {separator item : α} (h : item ≠ separator) (items : List α) :
    cut separator (item :: items) =
      (item :: (cut separator items).1, (cut separator items).2) := by
  simp [cut, h]

theorem pieces_ne_nil (separator : α) (items : List α) : pieces separator items ≠ [] :=
  List.cons_ne_nil _ _

/-- No piece holds a separator. -/
theorem separator_not_mem_of_mem_pieces {separator : α} {items piece : List α}
    (h : piece ∈ pieces separator items) : separator ∉ piece := by
  induction items generalizing piece with
  | nil => simp_all
  | cons item items ih =>
      by_cases hitem : item = separator
      · subst hitem
        rw [pieces_cons_self, List.mem_cons] at h
        rcases h with rfl | h
        · exact List.not_mem_nil
        · exact ih h
      · rw [pieces, cut_cons_of_ne hitem, List.mem_cons] at h
        rcases h with rfl | h
        · rw [List.mem_cons, not_or]
          exact ⟨Ne.symm hitem, ih (List.mem_cons_self)⟩
        · exact ih (List.mem_cons_of_mem _ h)

end ChomskyNormal
