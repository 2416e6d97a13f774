import ChomskyNormal.Proofs.Load.Acceptance
import Mathlib.Data.List.Sort

/-!
# What is reported of a text

A text that does not load is refused at one of four stages, and a stage is only reached when the
ones before it found nothing. The report has exactly the errors of the stage.

- `ListsInOrder` : every error there is, each once and in order;
- `LineError`, `ClauseError` : the errors of single lines, and of single alternatives;
- `Report` : the reports of the four stages;
- `Grammar.ofText_reports` : a text fails to load with exactly these reports.
-/

namespace ChomskyNormal

/-! ## Complete lists of errors -/

/-- The errors of all places that have one, each listed once and in the order of the places. -/
def ListsInOrder (ErrorAt : ℕ → LoadError → Prop) (errors : List LoadError) : Prop :=
  ∃ places : List ℕ, places.Pairwise (· < ·) ∧
    (∀ place, place ∈ places ↔ ∃ error, ErrorAt place error) ∧ List.Forall₂ ErrorAt places errors

namespace ListsInOrder

variable {ErrorAt : ℕ → LoadError → Prop} {errors others : List LoadError}

theorem exists_place (h : ListsInOrder ErrorAt errors) {error : LoadError}
    (hmem : error ∈ errors) : ∃ place, ErrorAt place error := by
  rcases h with ⟨places, _, _, hall⟩
  rcases exists_mem_of_forall₂ hall hmem with ⟨place, _, herror⟩
  exact ⟨place, herror⟩

theorem ne_nil (h : ListsInOrder ErrorAt errors) (hsome : ∃ place error, ErrorAt place error) :
    errors ≠ [] := by
  rcases h with ⟨places, _, hmem, hall⟩
  rcases hsome with ⟨place, hplace⟩
  have hlisted : place ∈ places := (hmem place).2 hplace
  rintro rfl
  rw [List.forall₂_nil_right_iff.1 hall] at hlisted
  cases hlisted

/-- Where no place has two errors, there is only one such list. -/
theorem unique (hunique : Relator.RightUnique ErrorAt) (h : ListsInOrder ErrorAt errors)
    (hothers : ListsInOrder ErrorAt others) : errors = others := by
  rcases h with ⟨places, hsorted, hmem, hall⟩
  rcases hothers with ⟨places', hsorted', hmem', hall'⟩
  have hplaces : places = places' :=
    hsorted.eq_of_mem_iff hsorted' fun place => (hmem place).trans (hmem' place).symm
  subst hplaces
  exact List.right_unique_forall₂' hunique hall hall'

end ListsInOrder

section

variable {α : Type} {ErrorAt : ℕ → LoadError → Prop} {error? : α × ℕ → Option LoadError}

theorem forall₂_places {items : List (α × ℕ)}
    (h : ∀ item ∈ items, ∀ error, error? item = some error → ErrorAt item.2 error) :
    List.Forall₂ ErrorAt ((items.filter fun item => (error? item).isSome).map Prod.snd)
      (items.filterMap error?) := by
  induction items with
  | nil => exact List.Forall₂.nil
  | cons item later ih =>
      rw [List.forall_mem_cons] at h
      have hlater := ih h.2
      cases herror : error? item with
      | none =>
          rw [List.filterMap_cons_none herror, List.filter_cons, herror]
          exact hlater
      | some error =>
          rw [List.filterMap_cons_some herror, List.filter_cons, herror]
          exact List.Forall₂.cons (h.1 error herror) hlater

/-- Items in order of their places, looked at one after the other, give a complete list. -/
theorem listsInOrder_filterMap {items : List (α × ℕ)}
    (hitems : items.Pairwise fun item other => item.2 < other.2)
    (hiff : ∀ place error, ErrorAt place error ↔
      ∃ item, (item, place) ∈ items ∧ error? (item, place) = some error) :
    ListsInOrder ErrorAt (items.filterMap error?) := by
  -- The places are those of the items that have an error.
  refine ⟨(items.filter fun item => (error? item).isSome).map Prod.snd, ?_, ?_, ?_⟩
  · exact List.pairwise_map.2 (hitems.sublist List.filter_sublist)
  · intro place
    constructor
    · intro hplace
      rcases List.mem_map.1 hplace with ⟨⟨item, number⟩, hitem, rfl⟩
      rcases List.mem_filter.1 hitem with ⟨hmem, hsome⟩
      rcases Option.isSome_iff_exists.1 hsome with ⟨error, herror⟩
      exact ⟨error, (hiff number error).2 ⟨item, hmem, herror⟩⟩
    · rintro ⟨error, herror⟩
      rcases (hiff place error).1 herror with ⟨item, hmem, hsome⟩
      have hkept : (item, place) ∈ items.filter fun item => (error? item).isSome :=
        List.mem_filter.2 ⟨hmem, Option.isSome_iff_exists.2 ⟨error, hsome⟩⟩
      exact List.mem_map.2 ⟨_, hkept, rfl⟩
  · refine forall₂_places ?_
    rintro ⟨item, place⟩ hmem error herror
    exact (hiff place error).2 ⟨item, hmem, herror⟩

end

/-! ## Errors of lines -/

/-- A rule line that is rejected has its own error at its number, counted among all lines. -/
inductive LineError (text : String) : ℕ → LoadError → Prop
  | rejected {index : ℕ} {line : List Char} {fault : RuleFault} :
      (lines .chars text.toList)[index]? = some line → isRuleLine line = true →
        Rule.ofLine line = .error fault →
          LineError text (index + 1) ⟨⟨Grammar.inMemory, some (index + 1)⟩, .rule fault⟩

/-- A rule line is numbered among all lines, from one on. -/
theorem mem_ruleLines_iff {text : String} {line : List Char} {number : ℕ} :
    (line, number) ∈ ruleLines text ↔
      ∃ index, number = index + 1 ∧ (lines .chars text.toList)[index]? = some line ∧
        isRuleLine line = true := by
  rw [ruleLines, List.mem_filter, mem_zipIdx_one_iff]
  constructor
  · rintro ⟨⟨index, rfl, hline⟩, hrule⟩
    exact ⟨index, rfl, hline, hrule⟩
  · rintro ⟨index, rfl, hline, hrule⟩
    exact ⟨⟨index, rfl, hline⟩, hrule⟩

theorem lineError_iff {text : String} {number : ℕ} {error : LoadError} :
    LineError text number error ↔ ∃ line, (line, number) ∈ ruleLines text ∧
      errorOf? (readNumbered (line, number)) = some error := by
  constructor
  · rintro ⟨hline, hrule, hfault⟩
    exact ⟨_, mem_ruleLines_iff.2 ⟨_, rfl, hline, hrule⟩,
      errorOf?_readNumbered_eq_some_iff.2 ⟨_, hfault, rfl⟩⟩
  · rintro ⟨line, hmem, herror⟩
    rcases mem_ruleLines_iff.1 hmem with ⟨index, rfl, hline, hrule⟩
    rcases errorOf?_readNumbered_eq_some_iff.1 herror with ⟨fault, hfault, rfl⟩
    exact LineError.rejected hline hrule hfault

theorem LineError.unique (text : String) : Relator.RightUnique (LineError text) := by
  intro number error other herror hother
  cases herror with
  | rejected hline _ hfault =>
      cases hother with
      | rejected hline' _ hfault' =>
          rw [hline] at hline'
          cases hline'
          rw [hfault] at hfault'
          cases hfault'
          rfl

/-- The errors of the lines come in their order, and no line has two. -/
theorem listsInOrder_lineError (text : String) :
    ListsInOrder (LineError text)
      ((ruleLines text).filterMap fun line => errorOf? (readNumbered line)) :=
  listsInOrder_filterMap (pairwise_ruleLines text) fun _ _ => lineError_iff

/-! ## Errors of alternatives -/

/-- An alternative without the right shape is malformed, and one that its head already has is a
duplicate. Either is reported at the line of its rule. -/
inductive ClauseError (written : List (Located Clause)) : ℕ → LoadError → Prop
  | malformed {place : ℕ} {location : Location} {clause : Clause} :
      written[place]? = some ⟨location, clause⟩ → ¬ CnfShape clause.letters →
        ClauseError written place
          ⟨location, .grammar (.malformedProduction (String.ofList clause.letters))⟩
  | duplicate {place : ℕ} {location : Location} {clause : Clause} :
      written[place]? = some ⟨location, clause⟩ → CnfShape clause.letters →
        (∃ earlier, earlier < place ∧ ∃ other, written[earlier]? = some ⟨other, clause⟩) →
          ClauseError written place
            ⟨location, .grammar (.duplicateProduction clause.head (String.ofList clause.letters))⟩

def offenceAt? (written : List Clause) (clause : Located Clause × ℕ) : Option LoadError :=
  (clause.1.value.offence? (written.take clause.2)).map fun error =>
    ⟨clause.1.location, .grammar error⟩

theorem offences_eq_filterMap {written earlier : List Clause} {clauses : List (Located Clause)}
    (h : written = earlier ++ clauses.map Located.value) :
    offences earlier clauses =
      (clauses.zipIdx earlier.length).filterMap (offenceAt? written) := by
  -- Going on to the next clause moves it to the earlier ones; what is written stays the same.
  induction clauses generalizing earlier with
  | nil => rfl
  | cons clause later ih =>
      have hlater : written = (earlier ++ [clause.value]) ++ later.map Located.value := by
        rw [h, List.map_cons, List.append_assoc, List.singleton_append]
      have htake : written.take earlier.length = earlier := by
        rw [h, List.take_left]
      have hrest := ih hlater
      rw [List.length_append, List.length_singleton] at hrest
      rw [offences, hrest, List.zipIdx_cons, List.filterMap_cons, offenceAt?, htake]
      cases clause.value.offence? earlier with
      | none => rfl
      | some error => rfl

theorem mem_take_map_value_iff {written : List (Located Clause)} {clause : Clause} {place : ℕ} :
    clause ∈ (written.map Located.value).take place ↔
      ∃ earlier, earlier < place ∧ ∃ other, written[earlier]? = some ⟨other, clause⟩ := by
  constructor
  · intro hmem
    rcases List.mem_iff_getElem?.1 hmem with ⟨earlier, hclause⟩
    rw [List.getElem?_take] at hclause
    split at hclause
    · next hlt =>
        rw [List.getElem?_map] at hclause
        rcases Option.map_eq_some_iff.1 hclause with ⟨⟨other, _⟩, hwritten, rfl⟩
        exact ⟨earlier, hlt, other, hwritten⟩
    · cases hclause
  · rintro ⟨earlier, hlt, other, hwritten⟩
    refine List.mem_iff_getElem?.2 ⟨earlier, ?_⟩
    rw [List.getElem?_take, if_pos hlt, List.getElem?_map, hwritten]
    rfl

theorem clauseError_iff {written : List (Located Clause)} {place : ℕ} {error : LoadError} :
    ClauseError written place error ↔ ∃ clause, (clause, place) ∈ written.zipIdx ∧
      offenceAt? (written.map Located.value) (clause, place) = some error := by
  constructor
  · rintro (⟨hclause, hshape⟩ | ⟨hclause, hshape, hearlier⟩)
    · refine ⟨_, List.mem_zipIdx_iff_getElem?.2 hclause, ?_⟩
      rw [offenceAt?, Clause.offence?, if_neg hshape]
      rfl
    · refine ⟨_, List.mem_zipIdx_iff_getElem?.2 hclause, ?_⟩
      rw [offenceAt?, Clause.offence?, if_pos hshape, if_pos (mem_take_map_value_iff.2 hearlier)]
      rfl
  · rintro ⟨⟨location, clause⟩, hmem, herror⟩
    have hclause := List.mem_zipIdx_iff_getElem?.1 hmem
    rw [offenceAt?, Clause.offence?] at herror
    split at herror
    · next hshape =>
        split at herror
        · next hearlier =>
            cases herror
            exact ClauseError.duplicate hclause hshape (mem_take_map_value_iff.1 hearlier)
        · cases herror
    · next hshape =>
        cases herror
        exact ClauseError.malformed hclause hshape

theorem ClauseError.unique (written : List (Located Clause)) :
    Relator.RightUnique (ClauseError written) := by
  intro place error other herror hother
  rcases clauseError_iff.1 herror with ⟨clause, hmem, hsome⟩
  rcases clauseError_iff.1 hother with ⟨clause', hmem', hsome'⟩
  have hclause := List.mem_zipIdx_iff_getElem?.1 hmem
  rw [List.mem_zipIdx_iff_getElem?.1 hmem'] at hclause
  cases hclause
  rw [hsome] at hsome'
  exact Option.some.inj hsome'

/-- The errors of the clauses come in order of writing, and no clause has two. -/
theorem listsInOrder_clauseError (written : List (Located Clause)) :
    ListsInOrder (ClauseError written) (offences [] written) := by
  have hoffences : offences [] written =
      written.zipIdx.filterMap (offenceAt? (written.map Located.value)) :=
    offences_eq_filterMap (List.nil_append _).symm
  rw [hoffences]
  exact listsInOrder_filterMap (pairwise_zipIdx written 0) fun _ _ => clauseError_iff

/-! ## Reports -/

/-- The reports of the four stages: reading the lines, looking for a rule, choosing the start
symbol, and adding the alternatives. -/
inductive Report (text : String) (asked? : Option Char) : List LoadError → Prop
  | lines {errors : List LoadError} :
      (∃ number error, LineError text number error) → ListsInOrder (LineError text) errors →
        Report text asked? errors
  | noRule :
      ruleLines text = [] → Report text asked? [⟨⟨Grammar.inMemory, none⟩, .noRule⟩]
  | start {rules : List (Located Rule)} {start : Char} :
      ruleLines text ≠ [] → List.Forall₂ ReadsAs (ruleLines text) rules → asked? = some start →
        ¬ (isUppercase start = true ∧ start ∈ (rules.map Located.value).flatMap Rule.letters) →
          Report text asked? [⟨⟨Grammar.inMemory, none⟩, .grammar (.unknownNonterminal start)⟩]
  | clauses {rules : List (Located Rule)} {errors : List LoadError} :
      ruleLines text ≠ [] → List.Forall₂ ReadsAs (ruleLines text) rules →
        (∀ start, asked? = some start →
          isUppercase start = true ∧ start ∈ (rules.map Located.value).flatMap Rule.letters) →
          (∃ place error, ClauseError (rules.flatMap clauses) place error) →
            ListsInOrder (ClauseError (rules.flatMap clauses)) errors → Report text asked? errors

/-- Faults that are checked for and that no text can have. -/
inductive LoadFault.Unreachable : LoadFault → Prop
  | blankLine : Unreachable (.rule .blankLine)
  | alreadyRegistered (c : Char) : Unreachable (.grammar (.alreadyRegistered c))
  | wrongCase (c : Char) : Unreachable (.grammar (.wrongCase c))
  | unknownSymbol (c : Char) : Unreachable (.grammar (.unknownSymbol c))
  | startAlreadySet (c : Char) : Unreachable (.grammar (.startAlreadySet c))

/-- No stage has a fault that only other ways of loading could cause. -/
theorem Report.not_unreachable {text : String} {asked? : Option Char} {errors : List LoadError}
    (h : Report text asked? errors) : ∀ error ∈ errors, ¬ error.value.Unreachable := by
  intro error hmem hunreachable
  cases h with
  | lines _ hlisted =>
      rcases hlisted.exists_place hmem with ⟨number, ⟨_, hrule, hfault⟩⟩
      -- A rule line is never blank, and no other unreachable fault is one of a rule.
      cases hunreachable
      exact Rule.ofLine_ne_blankLine hrule hfault
  | noRule _ =>
      rw [List.mem_singleton.1 hmem] at hunreachable
      cases hunreachable
  | start _ _ _ _ =>
      rw [List.mem_singleton.1 hmem] at hunreachable
      cases hunreachable
  | clauses _ _ _ _ hlisted =>
      rcases hlisted.exists_place hmem with ⟨place, ⟨_, _⟩ | ⟨_, _, _⟩⟩
      · cases hunreachable
      · cases hunreachable

namespace Grammar

theorem report_of_readRules {text : String} {asked? : Option Char} {errors : List LoadError}
    (h : readRules inMemory ((lines .chars text.toList).map .ok) = .error errors) :
    Report text asked? errors := by
  rcases readRules_text_eq_error_iff.1 h with ⟨hne, rfl⟩
  have hlisted := listsInOrder_lineError text
  rcases List.exists_mem_of_ne_nil _ hne with ⟨error, hmem⟩
  rcases hlisted.exists_place hmem with ⟨number, herror⟩
  exact Report.lines ⟨number, error, herror⟩ hlisted

/-- With rules at hand, a load that fails makes the report of one of the last three stages. -/
theorem report_of_ofRules {text : String} {asked? : Option Char} {rules : List (Located Rule)}
    {errors : List LoadError} (hread : List.Forall₂ ReadsAs (ruleLines text) rules)
    (h : ofRules inMemory asked? rules = .error errors) : Report text asked? errors := by
  cases rules with
  | nil =>
      cases h
      exact Report.noRule (List.forall₂_nil_right_iff.1 hread)
  | cons first later =>
      have hcased := cased_of_readsAs hread
      have hsome : ruleLines text ≠ [] := by
        intro hnone
        rw [hnone] at hread
        cases hread
      have hused := @start_used_iff asked? first later (hcased first List.mem_cons_self)
      rw [ofRules_eq hcased] at h
      split at h
      · next hstart =>
          split at h
          · cases h
          · next hoffences =>
              cases h
              have hlisted := listsInOrder_clauseError ((first :: later).flatMap clauses)
              rcases List.exists_mem_of_ne_nil _ hoffences with ⟨error, hmem⟩
              rcases hlisted.exists_place hmem with ⟨place, herror⟩
              exact Report.clauses hsome hread (hused.1 hstart) ⟨place, error, herror⟩ hlisted
      · next hstart =>
          cases h
          cases asked? with
          | none =>
              -- Nothing was asked for, and the first head cannot be refused.
              exact absurd (hused.2 fun _ hasked => nomatch hasked) hstart
          | some start => exact Report.start hsome hread rfl hstart

theorem report_of_ofText {text : String} {asked? : Option Char} {errors : List LoadError}
    (h : Grammar.ofText text asked? = .error errors) : Report text asked? errors := by
  rw [ofText_eq_bind, bind_eq_error_iff] at h
  rcases h with hlines | ⟨rules, hread, hrules⟩
  · exact report_of_readRules hlines
  · exact report_of_ofRules (readRules_text_eq_ok_iff.1 hread) hrules

/-- A report of any stage is what the text fails to load with, as no earlier stage has failed. -/
theorem ofText_of_report {text : String} {asked? : Option Char} {errors : List LoadError}
    (h : Report text asked? errors) : Grammar.ofText text asked? = .error errors := by
  rw [ofText_eq_bind, bind_eq_error_iff]
  -- Each stage is only reached when those before it have passed.
  cases h with
  | lines hsome hlisted =>
      have herrors := hlisted.unique (LineError.unique text) (listsInOrder_lineError text)
      exact Or.inl (readRules_text_eq_error_iff.2 ⟨hlisted.ne_nil hsome, herrors⟩)
  | noRule hnone =>
      have hread : List.Forall₂ ReadsAs (ruleLines text) [] := by
        rw [hnone]
        exact List.Forall₂.nil
      exact Or.inr ⟨[], readRules_text_eq_ok_iff.2 hread, rfl⟩
  | @start rules start hsome hread hasked hunused =>
      refine Or.inr ⟨rules, readRules_text_eq_ok_iff.2 hread, ?_⟩
      cases rules with
      | nil => exact absurd (List.forall₂_nil_right_iff.1 hread) hsome
      | cons first later =>
          subst hasked
          rw [ofRules_eq (cased_of_readsAs hread), Option.getD_some, if_neg hunused]
  | @clauses rules _ hsome hread hstart hoffending hlisted =>
      refine Or.inr ⟨rules, readRules_text_eq_ok_iff.2 hread, ?_⟩
      cases rules with
      | nil => exact absurd (List.forall₂_nil_right_iff.1 hread) hsome
      | cons first later =>
          have hcased := cased_of_readsAs hread
          have herrors := hlisted.unique (ClauseError.unique _) (listsInOrder_clauseError _)
          -- The offences are the listed errors, and there is one at least.
          have hne : offences [] ((first :: later).flatMap ChomskyNormal.clauses) ≠ [] :=
            herrors ▸ hlisted.ne_nil hoffending
          have hused := (start_used_iff (hcased first List.mem_cons_self)).2 hstart
          rw [ofRules_eq hcased, if_pos hused, if_neg hne, herrors]

/-- A text fails to load with exactly the report of one stage, and no fault in it is one that is
unreachable. -/
theorem ofText_reports (text : String) (asked? : Option Char) (errors : List LoadError) :
    (Grammar.ofText text asked? = .error errors ↔ Report text asked? errors) ∧
      (Grammar.ofText text asked? = .error errors →
        ∀ error ∈ errors, ¬ error.value.Unreachable) := by
  refine ⟨⟨report_of_ofText, ofText_of_report⟩, ?_⟩
  intro h
  have hreport : Report text asked? errors := report_of_ofText h
  exact hreport.not_unreachable

def misspelled : String := "S ::= Ab | AB | Ab\n  ; letters\n\nA ::= a | a | a"

def misspellings : List LoadError :=
  [⟨⟨inMemory, some 1⟩, .grammar (.malformedProduction "Ab")⟩,
    ⟨⟨inMemory, some 1⟩, .grammar (.malformedProduction "Ab")⟩,
    ⟨⟨inMemory, some 4⟩, .grammar (.duplicateProduction 'A' "a")⟩,
    ⟨⟨inMemory, some 4⟩, .grammar (.duplicateProduction 'A' "a")⟩]

/-- Malformed and repeated alternatives of several lines, each reported in its place. -/
theorem ofText_misspelled :
    Grammar.ofText misspelled none = .error misspellings ∧
      Report misspelled none misspellings ∧
        ∀ error ∈ misspellings, ¬ error.value.Unreachable := by
  have hload : Grammar.ofText misspelled none = .error misspellings := by decide +kernel
  have hreports := ofText_reports misspelled none misspellings
  exact ⟨hload, hreports.1.1 hload, hreports.2 hload⟩

end Grammar

end ChomskyNormal
