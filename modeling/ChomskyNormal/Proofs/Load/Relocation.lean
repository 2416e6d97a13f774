import ChomskyNormal.Proofs.Load.Reading

/-!
# Places of rules and errors

Nothing but the places of errors depends on the places of rules. When every rule is moved, the same
grammar is built, or the same errors are reported at the places that the rules were moved to.

- `Located.relocate` : the same value at another place;
- `gather_map` : outcomes that are changed one by one;
- `Grammar.ofRules_relocate` : what becomes of rules that were moved.
-/

namespace ChomskyNormal

def Located.relocate {α : Type} (move : Location → Location) (located : Located α) : Located α where
  location := move located.location
  value := located.value

@[simp] theorem Located.value_relocate {α : Type} (move : Location → Location)
    (located : Located α) : (located.relocate move).value = located.value := rfl

section Gather

variable {ε δ α β : Type}

theorem filterMap_errorOf?_map (f : α → β) (g : ε → δ) (outcomes : List (Except ε α)) :
    (outcomes.map fun outcome => (outcome.map f).mapError g).filterMap errorOf? =
      (outcomes.filterMap errorOf?).map g := by
  rw [List.filterMap_map, List.map_filterMap]
  refine List.filterMap_congr fun outcome _ => ?_
  cases outcome with
  | ok value => rfl
  | error error => rfl

/-- Outcomes may be changed one by one, or all values or all errors after they are gathered. -/
theorem gather_map (f : α → β) (g : ε → δ) (outcomes : List (Except ε α)) :
    gather (outcomes.map fun outcome => (outcome.map f).mapError g) =
      ((gather outcomes).map (List.map f)).mapError (List.map g) := by
  cases hgather : gather outcomes with
  | ok values =>
      rw [gather_eq_ok_iff] at hgather
      subst hgather
      refine gather_eq_ok_iff.2 ?_
      rw [List.map_map, List.map_map]
      rfl
  | error errors =>
      rcases gather_eq_error_iff.1 hgather with ⟨hne, rfl⟩
      refine gather_eq_error_iff.2 ⟨?_, (filterMap_errorOf?_map f g outcomes).symm⟩
      exact fun hnil => hne (List.map_eq_nil_iff.1 hnil)

end Gather

/-! ## Rules -/

theorem flatMap_clauses_relocate (move : Location → Location) (rules : List (Located Rule)) :
    (rules.map (Located.relocate move)).flatMap clauses =
      (rules.flatMap clauses).map (Located.relocate move) := by
  rw [List.flatMap_map, List.map_flatMap]
  refine List.flatMap_congr fun rule _ => ?_
  rw [clauses, clauses, List.map_map]
  rfl

/-- Clauses are added alike wherever they stand, and errors go where they do. -/
theorem addClauses_relocate (move : Location → Location) (alphabet : Alphabet)
    (productions : Productions) (clauses : List (Located Clause)) :
    addClauses alphabet productions (clauses.map (Located.relocate move)) =
      ((addClauses alphabet productions clauses).1,
        (addClauses alphabet productions clauses).2.map (Located.relocate move)) := by
  induction clauses generalizing productions with
  | nil => rfl
  | cons clause later ih =>
      simp only [List.map_cons, addClauses, Located.value_relocate]
      cases productions.add alphabet clause.value.head (String.ofList clause.value.letters) with
      | ok extended => exact ih extended
      | error error =>
          simp only [ih productions]
          rfl

/-- Errors that concern the file as a whole are moved with it. -/
theorem Grammar.ofRules_relocate {move : Location → Location} {file other : String}
    (hmove : move ⟨other, none⟩ = ⟨file, none⟩) (start? : Option Char)
    (rules : List (Located Rule)) :
    ofRules file start? (rules.map (Located.relocate move)) =
      (ofRules other start? rules).mapError (List.map (Located.relocate move)) := by
  have hwhole : ∀ fault : LoadFault, (⟨⟨file, none⟩, fault⟩ : LoadError) =
      Located.relocate move ⟨⟨other, none⟩, fault⟩ := by
    intro fault
    rw [Located.relocate, hmove]
  have hvalues : (rules.map (Located.relocate move)).map Located.value =
      rules.map Located.value := by
    rw [List.map_map]
    rfl
  have hclauses := flatMap_clauses_relocate move rules
  cases rules with
  | nil => exact congrArg (fun error => Except.error [error]) (hwhole .noRule)
  | cons first later =>
      rw [List.map_cons] at hvalues hclauses ⊢
      simp only [ofRules, hvalues, hclauses, addClauses_relocate, Located.value_relocate]
      -- The alphabet and the productions do not depend on where the rules are.
      cases declareLetters ((first :: later).map Located.value) >>= fun alphabet =>
          alphabet.setStart (start?.getD first.value.head) with
      | error error => exact congrArg (fun error => Except.error [error]) (hwhole (.grammar error))
      | ok alphabet =>
          simp only
          generalize addClauses alphabet ∅ ((first :: later).flatMap clauses) = added
          rcases added with ⟨productions, _ | ⟨error, errors⟩⟩
          · rfl
          · rfl

end ChomskyNormal
