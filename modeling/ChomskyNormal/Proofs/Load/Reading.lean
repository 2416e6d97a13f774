import ChomskyNormal.Load.Grammar
import ChomskyNormal.Proofs.Rule.Reading

/-!
# From a text to its rules

Either every rule line of a text is accepted, and the rules come with the numbers of their lines,
or each rejected line has its own error, and nothing else is reported.

- `ruleLines` : the lines of a text that have to be rules;
- `ReadsAs` : what one of them says;
- `readRules_text_eq_ok_iff`, `readRules_text_eq_error_iff` : the two outcomes.
-/

namespace ChomskyNormal

/-! ## Numbered items -/

section Numbers

variable {α : Type}

theorem pairwise_zipIdx (items : List α) (first : ℕ) :
    (items.zipIdx first).Pairwise fun item other => item.2 < other.2 := by
  have hnumbers : ((items.zipIdx first).map Prod.snd).Pairwise (· < ·) := by
    rw [List.zipIdx_map_snd]
    exact List.pairwise_lt_range'
  exact List.pairwise_map.1 hnumbers

/-- Numbers are counted from one, and places in a list from zero. -/
theorem mem_zipIdx_one_iff {items : List α} {item : α} {number : ℕ} :
    (item, number) ∈ items.zipIdx 1 ↔ ∃ index, number = index + 1 ∧ items[index]? = some item := by
  rw [List.mem_zipIdx_iff_le_and_getElem?_sub]
  constructor
  · rintro ⟨hle, hitem⟩
    exact ⟨number - 1, (Nat.sub_add_cancel hle).symm, hitem⟩
  · rintro ⟨index, rfl, hitem⟩
    exact ⟨Nat.le_add_left 1 index, hitem⟩

end Numbers

/-! ## Rule lines -/

/-- The lines of a text that are neither blank nor comments, numbered among all its lines. -/
def ruleLines (text : String) : List (List Char × Nat) :=
  ((lines .chars text.toList).zipIdx 1).filter fun line => isRuleLine line.1

/-- Numbers only rise from one rule line to the next. -/
theorem pairwise_ruleLines (text : String) :
    (ruleLines text).Pairwise fun line other => line.2 < other.2 :=
  (pairwise_zipIdx _ 1).sublist List.filter_sublist

structure ReadsAs (line : List Char × Nat) (rule : Located Rule) : Prop where
  value : Rule.ofLine line.1 = .ok rule.value
  location : rule.location = ⟨Grammar.inMemory, some line.2⟩

def readNumbered (line : List Char × Nat) : Except LoadError (Located Rule) :=
  match Rule.ofLine line.1 with
  | .ok rule => .ok ⟨⟨Grammar.inMemory, some line.2⟩, rule⟩
  | .error fault => .error ⟨⟨Grammar.inMemory, some line.2⟩, .rule fault⟩

/-- A rule line reads as the rule that it says, at its number. -/
theorem readNumbered_eq_ok_iff {line : List Char × Nat} {rule : Located Rule} :
    readNumbered line = .ok rule ↔ ReadsAs line rule := by
  rcases rule with ⟨location, rule⟩
  unfold readNumbered
  cases hline : Rule.ofLine line.1 with
  | ok other =>
      rw [Except.ok.injEq, Located.mk.injEq]
      constructor
      · rintro ⟨rfl, rfl⟩
        exact ⟨hline, rfl⟩
      · rintro ⟨hvalue, rfl⟩
        rw [hline] at hvalue
        cases hvalue
        exact ⟨rfl, rfl⟩
  | error fault =>
      simp only [reduceCtorEq, false_iff]
      rintro ⟨hvalue, _⟩
      rw [hline] at hvalue
      cases hvalue

theorem errorOf?_readNumbered_eq_some_iff {line : List Char × Nat} {error : LoadError} :
    errorOf? (readNumbered line) = some error ↔
      ∃ fault, Rule.ofLine line.1 = .error fault ∧
        error = ⟨⟨Grammar.inMemory, some line.2⟩, .rule fault⟩ := by
  unfold readNumbered
  cases hline : Rule.ofLine line.1 with
  | ok rule => simp [errorOf?]
  | error fault => simp [errorOf?, eq_comm]

/-- Rule lines say one thing only. -/
theorem readsAs_unique {lines : List (List Char × Nat)} {rules others : List (Located Rule)}
    (hrules : List.Forall₂ ReadsAs lines rules) (hothers : List.Forall₂ ReadsAs lines others) :
    rules = others := by
  have hunique : Relator.RightUnique ReadsAs := by
    intro line rule other hrule hother
    rw [← readNumbered_eq_ok_iff] at hrule hother
    rw [hrule] at hother
    exact Except.ok.inj hother
  exact List.right_unique_forall₂' hunique hrules hothers

/-! ## All lines together -/

section Gather

variable {ε α : Type}

theorem filterMap_errorOf?_eq_nil_iff {outcomes : List (Except ε α)} :
    outcomes.filterMap errorOf? = [] ↔ ∃ values : List α, outcomes = values.map .ok := by
  -- One error is enough to stop the list from being all values.
  induction outcomes with
  | nil => exact ⟨fun _ => ⟨[], rfl⟩, fun _ => rfl⟩
  | cons outcome outcomes ih =>
      cases outcome with
      | ok value =>
          rw [List.filterMap_cons_none rfl, ih]
          constructor
          · rintro ⟨values, rfl⟩
            exact ⟨value :: values, rfl⟩
          · rintro ⟨values, heq⟩
            cases values with
            | nil => cases heq
            | cons first values =>
                rw [List.map_cons, List.cons.injEq] at heq
                exact ⟨values, heq.2⟩
      | error error =>
          have hsome : errorOf? (.error error : Except ε α) = some error := rfl
          rw [List.filterMap_cons_some hsome]
          refine ⟨fun h => absurd h (List.cons_ne_nil _ _), ?_⟩
          rintro ⟨values, heq⟩
          cases values with
          | nil => cases heq
          | cons first values => cases heq

theorem gather_eq_ok_iff {outcomes : List (Except ε α)} {values : List α} :
    gather outcomes = .ok values ↔ outcomes = values.map .ok := by
  unfold gather
  constructor
  · intro h
    split at h
    · next hnone =>
        rcases filterMap_errorOf?_eq_nil_iff.1 hnone with ⟨others, rfl⟩
        cases h
        simp [Except.toOption, Function.comp_def]
    · cases h
  · rintro rfl
    rw [filterMap_errorOf?_eq_nil_iff.2 ⟨values, rfl⟩]
    simp [Except.toOption, Function.comp_def]

/-- Gathering reports all errors there are, in their order. -/
theorem gather_eq_error_iff {outcomes : List (Except ε α)} {errors : List ε} :
    gather outcomes = .error errors ↔ errors ≠ [] ∧ errors = outcomes.filterMap errorOf? := by
  unfold gather
  split
  · next hnone => simp [hnone]
  · next hsome =>
      rw [Except.error.injEq]
      constructor
      · rintro rfl
        exact ⟨fun hnil => hsome hnil, rfl⟩
      · exact fun h => h.2.symm

end Gather

/-- Only rule lines have an outcome, each with its number among all lines. -/
theorem readLines_text (text : String) :
    readLines Grammar.inMemory ((lines .chars text.toList).map .ok) =
      (ruleLines text).map readNumbered := by
  -- Lines are numbered before any is passed over, so passing them over keeps the numbers.
  rw [readLines, List.zipIdx_map, List.filterMap_map, ruleLines, ← List.filterMap_eq_map,
    List.filterMap_filter]
  refine List.filterMap_congr fun line _ => ?_
  rcases line with ⟨line, number⟩
  rfl

/-- The rules of a text are those of its rule lines, one by one. -/
theorem readRules_text_eq_ok_iff {text : String} {rules : List (Located Rule)} :
    readRules Grammar.inMemory ((lines .chars text.toList).map .ok) = .ok rules ↔
      List.Forall₂ ReadsAs (ruleLines text) rules := by
  rw [readRules, gather_eq_ok_iff, readLines_text, ← List.forall₂_eq_eq_eq,
    List.forall₂_map_left_iff, List.forall₂_map_right_iff]
  simp only [readNumbered_eq_ok_iff]

theorem readRules_text_eq_error_iff {text : String} {errors : List LoadError} :
    readRules Grammar.inMemory ((lines .chars text.toList).map .ok) = .error errors ↔
      errors ≠ [] ∧
        errors = (ruleLines text).filterMap fun line => errorOf? (readNumbered line) := by
  rw [readRules, gather_eq_error_iff, readLines_text, List.filterMap_map]
  rfl

end ChomskyNormal
