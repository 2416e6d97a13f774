import ChomskyNormal.Proofs.Load.Outcome

/-!
# Texts that load

A text loads exactly when all its rule lines are rules, there is one at least, their alternatives
have the right shape and do not repeat, and the start symbol that is asked for is used. The
grammar is then the one that the rules write down.

- `Loadable` : what rules have to be;
- `Spells` : what a grammar shows of the rules it was written with;
- `Grammar.ofText_accepts` : the texts that load, and what they load to.
-/

namespace ChomskyNormal

/-! ## Conditions -/

/-- What is asked of the rules of a text, beyond the form of their lines. -/
structure Loadable (asked? : Option Char) (rules : List Rule) : Prop where
  nonempty : rules ≠ []
  shaped : ∀ rule ∈ rules, ∀ letters ∈ rule.alternatives, CnfShape letters
  distinct : (rules.flatMap Rule.clauses).Nodup
  start : ∀ start, asked? = some start →
    isUppercase start = true ∧ start ∈ rules.flatMap Rule.letters

theorem Rule.mem_clauses_iff {rule : Rule} {clause : Clause} :
    clause ∈ rule.clauses ↔ clause.head = rule.head ∧ clause.letters ∈ rule.alternatives := by
  rcases clause with ⟨head, letters⟩
  simp [Rule.clauses, eq_comm, and_comm]

theorem forall_clauses_shaped_iff {rules : List Rule} :
    (∀ clause ∈ rules.flatMap Rule.clauses, CnfShape clause.letters) ↔
      ∀ rule ∈ rules, ∀ letters ∈ rule.alternatives, CnfShape letters := by
  constructor
  · intro h rule hrule letters hletters
    exact h ⟨rule.head, letters⟩
      (List.mem_flatMap.2 ⟨rule, hrule, Rule.mem_clauses_iff.2 ⟨rfl, hletters⟩⟩)
  · intro h clause hclause
    rcases List.mem_flatMap.1 hclause with ⟨rule, hrule, hmem⟩
    exact h rule hrule clause.letters (Rule.mem_clauses_iff.1 hmem).2

/-- Rules without offence have alternatives of the right shape, and none of them twice. -/
theorem offences_clauses_eq_nil_iff {rules : List (Located Rule)} :
    offences [] (rules.flatMap clauses) = [] ↔
      (∀ rule ∈ rules.map Located.value, ∀ letters ∈ rule.alternatives, CnfShape letters) ∧
        ((rules.map Located.value).flatMap Rule.clauses).Nodup := by
  rw [offences_eq_nil_iff, map_value_flatMap_clauses, ← forall_clauses_shaped_iff,
    ← map_value_flatMap_clauses, List.forall_mem_map]
  simp

/-- Without a wish the start symbol is the first head, and that is always used. -/
theorem start_used_iff {asked? : Option Char} {first : Located Rule} {later : List (Located Rule)}
    (hcased : first.value.Cased) :
    (isUppercase (asked?.getD first.value.head) = true ∧
        asked?.getD first.value.head ∈ ((first :: later).map Located.value).flatMap Rule.letters) ↔
      ∀ start, asked? = some start → isUppercase start = true ∧
        start ∈ ((first :: later).map Located.value).flatMap Rule.letters := by
  cases asked? with
  | some asked => simp
  | none =>
      refine iff_of_true ⟨hcased.head, ?_⟩ ?_
      · exact List.mem_flatMap.2 ⟨first.value, List.mem_cons_self, List.mem_cons_self⟩
      · intro start h
        cases h

/-! ## Loading -/

namespace Grammar

theorem ofText_eq_bind (text : String) (asked? : Option Char) :
    Grammar.ofText text asked? =
      readRules inMemory ((lines .chars text.toList).map .ok) >>= ofRules inMemory asked? :=
  rfl

/-- Rules that were read load when they fit together, and spell the grammar. -/
theorem ofRules_eq_ok_iff {file : String} {asked? : Option Char} {rules : List (Located Rule)}
    {grammar : Grammar} (hcased : ∀ rule ∈ rules, rule.value.Cased) :
    Grammar.ofRules file asked? rules = .ok grammar ↔
      ∃ first later, rules = first :: later ∧ Loadable asked? (rules.map Located.value) ∧
        grammar = spelled (asked?.getD first.value.head) (rules.map Located.value) := by
  cases rules with
  | nil =>
      constructor
      · intro h
        cases h
      · rintro ⟨first, later, hnone, _⟩
        cases hnone
  | cons first later =>
      -- With a first rule there are two checks, of the start symbol and of the clauses.
      have hfirst : first.value.Cased := hcased first List.mem_cons_self
      rw [ofRules_eq hcased]
      constructor
      · intro h
        split at h
        · next hstart =>
            split at h
            · next hnone =>
                rcases offences_clauses_eq_nil_iff.1 hnone with ⟨hshaped, hdistinct⟩
                cases h
                exact ⟨first, later, rfl, ⟨List.cons_ne_nil _ _, hshaped, hdistinct,
                  (start_used_iff hfirst).1 hstart⟩, rfl⟩
            · cases h
        · cases h
      · rintro ⟨_, _, ⟨⟩, hloadable, rfl⟩
        rw [if_pos ((start_used_iff hfirst).2 hloadable.start),
          if_pos (offences_clauses_eq_nil_iff.2 ⟨hloadable.shaped, hloadable.distinct⟩)]

/-- A text loads when its rule lines read as rules that fit together. -/
theorem ofText_eq_ok_iff {text : String} {asked? : Option Char} {grammar : Grammar} :
    Grammar.ofText text asked? = .ok grammar ↔
      ∃ first later, List.Forall₂ ReadsAs (ruleLines text) (first :: later) ∧
        Loadable asked? ((first :: later).map Located.value) ∧ grammar =
          spelled (asked?.getD first.value.head) ((first :: later).map Located.value) := by
  simp only [ofText_eq_bind, bind_eq_ok_iff, readRules_text_eq_ok_iff]
  constructor
  · rintro ⟨rules, hread, hrules⟩
    rcases (ofRules_eq_ok_iff (cased_of_readsAs hread)).1 hrules with
      ⟨first, later, rfl, hloadable, hgrammar⟩
    exact ⟨first, later, hread, hloadable, hgrammar⟩
  · rintro ⟨first, later, hread, hloadable, hgrammar⟩
    exact ⟨first :: later, hread, (ofRules_eq_ok_iff (cased_of_readsAs hread)).2
      ⟨first, later, rfl, hloadable, hgrammar⟩⟩

end Grammar

/-! ## What the grammar shows -/

/-- A grammar shows its rules: the letters of either case in order of first appearance, the start
symbol, the alternatives of every head in order of writing, and how many there are. -/
structure Spells (asked? : Option Char) (rules : List Rule) (grammar : Grammar) : Prop where
  nonterminals :
    grammar.nonterminals = ((rules.flatMap Rule.letters).filter isUppercase).eraseDups
  terminals : grammar.terminals = ((rules.flatMap Rule.letters).filter isLowercase).eraseDups
  start : grammar.start? = asked?.or (rules.head?.map Rule.head)
  alternatives : ∀ head, (grammar.alternatives head).map Rhs.letters =
    (rules.filter fun rule => rule.head = head).flatMap Rule.alternatives
  count : grammar.productions.count = (rules.map fun rule => rule.alternatives.length).sum

namespace Spells

variable {asked? : Option Char} {rules : List Rule} {grammar : Grammar} {c : Char}

theorem mem_nonterminals_iff (h : Spells asked? rules grammar) :
    c ∈ grammar.nonterminals ↔ isUppercase c = true ∧ c ∈ rules.flatMap Rule.letters := by
  rw [h.nonterminals, List.mem_eraseDups, List.mem_filter, and_comm]

theorem mem_terminals_iff (h : Spells asked? rules grammar) :
    c ∈ grammar.terminals ↔ isLowercase c = true ∧ c ∈ rules.flatMap Rule.letters := by
  rw [h.terminals, List.mem_eraseDups, List.mem_filter, and_comm]

end Spells

theorem Clause.entry?_of_shaped {clause : Clause} (h : CnfShape clause.letters) :
    ∃ rhs, clause.entry? = some (clause.head, rhs) ∧ rhs.letters = clause.letters := by
  rcases h.exists_rhs with ⟨rhs, hrhs, hletters⟩
  refine ⟨rhs, ?_, hletters⟩
  rw [Clause.entry?, hrhs, Option.map_some]

theorem length_filterMap_entry? {clauses : List Clause}
    (h : ∀ clause ∈ clauses, CnfShape clause.letters) :
    (clauses.filterMap Clause.entry?).length = clauses.length := by
  induction clauses with
  | nil => rfl
  | cons clause later ih =>
      rw [List.forall_mem_cons] at h
      rcases Clause.entry?_of_shaped h.1 with ⟨rhs, hentry, _⟩
      rw [List.filterMap_cons_some hentry, List.length_cons, List.length_cons, ih h.2]

/-- The alternatives of a head are those of its clauses, in order of writing. -/
theorem letters_alternatives_ofEntries {clauses : List Clause} (head : Char)
    (h : ∀ clause ∈ clauses, CnfShape clause.letters) :
    ((Productions.ofEntries (clauses.filterMap Clause.entry?)).alternatives head).map Rhs.letters =
      (clauses.filter fun clause => clause.head = head).map Clause.letters := by
  rw [Productions.alternatives_ofEntries]
  induction clauses with
  | nil => rfl
  | cons clause later ih =>
      rw [List.forall_mem_cons] at h
      rcases Clause.entry?_of_shaped h.1 with ⟨rhs, hentry, hletters⟩
      rw [List.filterMap_cons_some hentry]
      -- The clause asks for a production of its own head, spelled with its own letters.
      by_cases hhead : clause.head = head
      · simp [hhead, hletters, ih h.2]
      · simp [hhead, ih h.2]

theorem letters_filter_clauses (rules : List Rule) (head : Char) :
    ((rules.flatMap Rule.clauses).filter fun clause => clause.head = head).map Clause.letters =
      (rules.filter fun rule => rule.head = head).flatMap Rule.alternatives := by
  induction rules with
  | nil => rfl
  | cons rule later ih =>
      rw [List.flatMap_cons, List.filter_append, List.map_append, ih]
      by_cases hhead : rule.head = head
      · simp [Rule.clauses, hhead, List.filter_map, Function.comp_def]
      · simp [Rule.clauses, hhead, List.filter_map, Function.comp_def]

/-- The grammar that is built from rules shows all of them. -/
theorem spells_spelled {asked? : Option Char} {first : Rule} {later : List Rule}
    (hloadable : Loadable asked? (first :: later)) :
    Spells asked? (first :: later)
      (Grammar.spelled (asked?.getD first.head) (first :: later)) := by
  have hshaped := forall_clauses_shaped_iff.2 hloadable.shaped
  refine ⟨rfl, rfl, ?_, ?_, ?_⟩
  · cases asked? with
    | none => rfl
    | some asked => rfl
  · intro head
    rw [← letters_filter_clauses]
    exact letters_alternatives_ofEntries head hshaped
  · rw [Grammar.spelled, Productions.count_ofEntries, length_filterMap_entry? hshaped,
      List.length_flatMap]
    simp [Rule.clauses]

/-! ## Acceptance -/

/-- A text loads exactly when its rule lines are rules that fit together, and it loads to the
grammar that these rules spell. -/
theorem Grammar.ofText_accepts (text : String) (asked? : Option Char) :
    ((∃ grammar, Grammar.ofText text asked? = .ok grammar) ↔
      ∃ rules, List.Forall₂ ReadsAs (ruleLines text) rules ∧
        Loadable asked? (rules.map Located.value)) ∧
    ∀ grammar rules, Grammar.ofText text asked? = .ok grammar →
      List.Forall₂ ReadsAs (ruleLines text) rules →
        Spells asked? (rules.map Located.value) grammar := by
  constructor
  · constructor
    · rintro ⟨grammar, hload⟩
      rcases ofText_eq_ok_iff.1 hload with ⟨first, later, hread, hloadable, _⟩
      exact ⟨first :: later, hread, hloadable⟩
    · rintro ⟨rules, hread, hloadable⟩
      cases rules with
      | nil => exact absurd rfl hloadable.nonempty
      | cons first later => exact ⟨_, ofText_eq_ok_iff.2 ⟨first, later, hread, hloadable, rfl⟩⟩
  · intro grammar rules hload hrules
    rcases ofText_eq_ok_iff.1 hload with ⟨first, later, hread, hloadable, rfl⟩
    -- The rules that loading found are the ones that the lines say.
    cases readsAs_unique hrules hread
    exact spells_spelled hloadable

def Grammar.scattered : String := "S::=AB|a\n  ; more of S\n\nA ::= a\r\nS ::= Ω Б\nB ::= a"

/-- The alternatives of a head come together from lines that lie apart. -/
theorem Grammar.ofText_scattered : ∃ grammar rules,
    Grammar.ofText Grammar.scattered (some 'Б') = .ok grammar ∧
      List.Forall₂ ReadsAs (ruleLines Grammar.scattered) rules ∧
        Spells (some 'Б') (rules.map Located.value) grammar ∧
          rules.map Located.value =
            [⟨'S', [['A', 'B'], ['a']]⟩, ⟨'A', [['a']]⟩, ⟨'S', [['Ω', 'Б']]⟩, ⟨'B', [['a']]⟩] := by
  have hread : List.Forall₂ ReadsAs (ruleLines Grammar.scattered)
      [⟨⟨inMemory, some 1⟩, ⟨'S', [['A', 'B'], ['a']]⟩⟩, ⟨⟨inMemory, some 4⟩, ⟨'A', [['a']]⟩⟩,
        ⟨⟨inMemory, some 5⟩, ⟨'S', [['Ω', 'Б']]⟩⟩, ⟨⟨inMemory, some 6⟩, ⟨'B', [['a']]⟩⟩] :=
    readRules_text_eq_ok_iff.1 (by decide +kernel)
  have hloadable : Loadable (some 'Б')
      [⟨'S', [['A', 'B'], ['a']]⟩, ⟨'A', [['a']]⟩, ⟨'S', [['Ω', 'Б']]⟩, ⟨'B', [['a']]⟩] := by
    refine ⟨List.cons_ne_nil _ _, by decide +kernel, by decide +kernel, ?_⟩
    rintro start ⟨⟩
    decide +kernel
  rcases (Grammar.ofText_accepts scattered (some 'Б')).1.2 ⟨_, hread, hloadable⟩ with
    ⟨grammar, hload⟩
  exact ⟨grammar, _, hload, hread,
    (Grammar.ofText_accepts scattered (some 'Б')).2 grammar _ hload hread, rfl⟩

end ChomskyNormal
