import ChomskyNormal.Sampling.Source
import Mathlib.Data.Bool.Basic
import Mathlib.Data.List.Basic

/-!
# Choices

A choice rejects the numbers that do not suit its items, and the first one that suits decides it. It
fails when its patience is at an end before a number suits.

- `Source.Decides` : the numbers of a choice;
- `Source.choose_eq_some_iff`, `Source.choose_eq_none_iff` : what a choice comes to;
- `Source.choose_congr` : numbers that a choice does not take.
-/

namespace ChomskyNormal

namespace Source

variable {α : Type} {source : Source} {items : List α} {item : α}
  {number : ℕ → UInt32} {count patience position chosen next rejected : ℕ}

/-! ## Choices that end -/

/-- So many numbers from a position on do not suit a choice among some items, and the number after
them suits it and chooses an item. -/
structure Decides (source : Source) (items : List α) (position rejected : ℕ) (item : α) :
    Prop where
  rejects : ∀ earlier < rejected,
    suits items.length (source.number (position + earlier)) = false
  accepts : suits items.length (source.number (position + rejected)) = true
  chooses : items[index items.length (source.number (position + rejected))]? = some item

/-- The first number that suits is taken, if patience lasts until then. -/
theorem chooseIndex_eq_some_iff :
    chooseIndex number count patience position = some (chosen, next) ↔
      ∃ rejected < patience,
        (∀ earlier < rejected, suits count (number (position + earlier)) = false) ∧
          suits count (number (position + rejected)) = true ∧
            chosen = index count (number (position + rejected)) ∧
              next = position + rejected + 1 := by
  induction patience generalizing position with
  | zero => simp [chooseIndex]
  | succ patience ih =>
      -- The number at the position decides, or is the first of those that are rejected.
      rw [chooseIndex]
      by_cases hsuits : suits count (number position) = true
      · rw [if_pos hsuits, Option.some.injEq, Prod.mk.injEq]
        constructor
        · rintro ⟨rfl, rfl⟩
          exact ⟨0, patience.succ_pos, fun _ hlt => absurd hlt (Nat.not_lt_zero _), hsuits, rfl,
            rfl⟩
        · rintro ⟨rejected, _, hrejected, _, hchosen, hnext⟩
          cases rejected with
          | zero => exact ⟨hchosen.symm, hnext.symm⟩
          | succ rejected =>
              have hfirst := hrejected 0 rejected.succ_pos
              rw [Nat.add_zero, hsuits] at hfirst
              cases hfirst
      · have hshift : ∀ place, position + 1 + place = position + (place + 1) := by
          intro place
          omega
        rw [if_neg hsuits, ih, Nat.exists_lt_succ_left]
        simp only [hshift, Nat.forall_lt_succ_left, Nat.add_zero, hsuits, Bool.false_eq_true,
          false_and, and_false, false_or, Bool.eq_false_iff, ne_eq, not_false_eq_true, true_and]

/-- An item is chosen by the first number that suits. -/
theorem choose_eq_some_iff :
    source.choose items position = some (item, next) ↔
      ∃ rejected < source.patience, source.Decides items position rejected item ∧
        next = position + rejected + 1 := by
  -- An item is chosen by its index.
  have hindex : source.choose items position = some (item, next) ↔
      ∃ chosen, chooseIndex source.number items.length source.patience position =
        some (chosen, next) ∧ items[chosen]? = some item := by
    unfold choose
    cases chooseIndex source.number items.length source.patience position with
    | none => simp
    | some pair =>
        rcases pair with ⟨chosen, after⟩
        simp only [Option.map_eq_some_iff, Prod.mk.injEq, Option.some.injEq]
        constructor
        · rintro ⟨_, hitem, rfl, rfl⟩
          exact ⟨chosen, ⟨rfl, rfl⟩, hitem⟩
        · rintro ⟨_, ⟨rfl, rfl⟩, hitem⟩
          exact ⟨item, hitem, rfl, rfl⟩
  rw [hindex]
  constructor
  · rintro ⟨chosen, hchosen, hitem⟩
    rcases chooseIndex_eq_some_iff.1 hchosen with
      ⟨rejected, hlt, hrejected, haccepted, rfl, rfl⟩
    exact ⟨rejected, hlt, ⟨hrejected, haccepted, hitem⟩, rfl⟩
  · rintro ⟨rejected, hlt, hdecides, rfl⟩
    exact ⟨_, chooseIndex_eq_some_iff.2
      ⟨rejected, hlt, hdecides.rejects, hdecides.accepts, rfl, rfl⟩, hdecides.chooses⟩

theorem mem_of_choose (h : source.choose items position = some (item, next)) : item ∈ items := by
  rcases choose_eq_some_iff.1 h with ⟨_, _, hdecides, _⟩
  exact List.mem_of_getElem? hdecides.chooses

theorem lt_of_choose (h : source.choose items position = some (item, next)) : position < next := by
  rcases choose_eq_some_iff.1 h with ⟨rejected, _, _, rfl⟩
  omega

/-- Numbers that a choice does not take may be any others. -/
theorem choose_congr (h : source.choose items position = some (item, next))
    (hsame : ∀ place, position ≤ place → place < next → number place = source.number place) :
    choose { source with number } items position = some (item, next) := by
  rcases choose_eq_some_iff.1 h with ⟨rejected, hlt, hdecides, rfl⟩
  -- The choice takes the rejected numbers and the one after them, all before `next`.
  have hnumber : ∀ place ≤ rejected, number (position + place) =
      source.number (position + place) :=
    fun place hplace => hsame _ (by omega) (by omega)
  refine choose_eq_some_iff.2 ⟨rejected, hlt, ⟨?_, ?_, ?_⟩, rfl⟩
  · intro earlier hearlier
    change suits items.length (number (position + earlier)) = false
    rw [hnumber earlier (Nat.le_of_lt hearlier)]
    exact hdecides.rejects earlier hearlier
  · change suits items.length (number (position + rejected)) = true
    rw [hnumber rejected (Nat.le_refl rejected)]
    exact hdecides.accepts
  · change items[index items.length (number (position + rejected))]? = some item
    rw [hnumber rejected (Nat.le_refl rejected)]
    exact hdecides.chooses

/-! ## Choices that do not end -/

/-- Patience ends when no number up to its end suits. -/
theorem chooseIndex_eq_none_iff :
    chooseIndex number count patience position = none ↔
      ∀ taken < patience, suits count (number (position + taken)) = false := by
  induction patience generalizing position with
  | zero =>
      refine iff_of_true rfl ?_
      intro taken htaken
      exact absurd htaken (Nat.not_lt_zero taken)
  | succ patience ih =>
      rw [chooseIndex]
      by_cases hsuits : suits count (number position) = true
      · -- The number at the position is the first that is taken.
        rw [if_pos hsuits]
        refine iff_of_false (Option.some_ne_none _) ?_
        intro hnever
        have hfirst := hnever 0 (Nat.succ_pos patience)
        rw [Nat.add_zero, hsuits] at hfirst
        cases hfirst
      · rw [if_neg hsuits, ih]
        constructor
        · intro hnever taken htaken
          cases taken with
          | zero => exact Bool.eq_false_of_not_eq_true hsuits
          | succ taken =>
              rw [Nat.add_comm taken 1, ← Nat.add_assoc]
              exact hnever taken (Nat.lt_of_succ_lt_succ htaken)
        · intro hnever taken htaken
          rw [Nat.add_assoc, Nat.add_comm 1 taken]
          exact hnever (taken + 1) (Nat.succ_lt_succ htaken)

/-- Whatever is chosen, there is an item for it. -/
theorem lt_of_chooseIndex (hcount : 0 < count)
    (h : chooseIndex number count patience position = some (chosen, next)) : chosen < count := by
  rcases chooseIndex_eq_some_iff.1 h with ⟨_, _, _, _, rfl, _⟩
  exact index_lt hcount _

/-- A choice among some items only fails when no number suits it. -/
theorem choose_eq_none_iff (hsome : items ≠ []) :
    source.choose items position = none ↔
      ∀ taken < source.patience,
        suits items.length (source.number (position + taken)) = false := by
  rw [← chooseIndex_eq_none_iff, choose]
  cases hindex : chooseIndex source.number items.length source.patience position with
  | none => simp
  | some chosen =>
      have hlt : chosen.1 < items.length :=
        lt_of_chooseIndex (List.length_pos_of_ne_nil hsome) hindex
      simp [List.getElem?_eq_getElem hlt]

end Source

end ChomskyNormal
