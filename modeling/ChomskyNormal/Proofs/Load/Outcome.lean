import ChomskyNormal.Proofs.Load.Clauses
import ChomskyNormal.Proofs.Load.Declaration
import ChomskyNormal.Proofs.Load.Reading

/-!
# What rules come to

Rules that were read from lines declare their letters without trouble. So the grammar they spell
out is refused for two reasons only: the start symbol that is asked for, or an offending clause.

- `Rule.clauses` : a rule as a list of clauses;
- `Grammar.spelled` : the grammar that rules spell out;
- `Grammar.ofRules_eq` : all outcomes of loading rules that were read.
-/

namespace ChomskyNormal

/-! ## Rules as clauses -/

def Rule.clauses (rule : Rule) : List Clause :=
  rule.alternatives.map fun letters => ⟨rule.head, letters⟩

theorem map_value_flatMap_clauses (rules : List (Located Rule)) :
    (rules.flatMap clauses).map Located.value = (rules.map Located.value).flatMap Rule.clauses := by
  rw [List.map_flatMap, List.flatMap_map]
  refine List.flatMap_congr fun rule _ => ?_
  rw [clauses, Rule.clauses, List.map_map]
  rfl

structure Rule.Cased (rule : Rule) : Prop where
  head : isUppercase rule.head = true
  letters : ∀ {c : Char}, c ∈ rule.letters → (Symbol.ofChar? c).isSome = true

theorem Rule.cased_of_ofLine {line : List Char} {rule : Rule} (h : Rule.ofLine line = .ok rule) :
    rule.Cased :=
  ⟨Rule.head_isUppercase h, Rule.isSome_symbol_of_mem_letters h⟩

theorem cased_of_readsAs {lines : List (List Char × Nat)} {rules : List (Located Rule)}
    (h : List.Forall₂ ReadsAs lines rules) : ∀ rule ∈ rules, rule.value.Cased := by
  intro rule hrule
  rcases exists_mem_of_forall₂ h hrule with ⟨line, _, hread⟩
  exact Rule.cased_of_ofLine hread.value

namespace Grammar

/-- The grammar that rules spell out: each letter registered where it first appears, and each
clause of the right shape inserted in its turn. -/
def spelled (start : Char) (rules : List Rule) : Grammar where
  alphabet := { Alphabet.ofLetters (rules.flatMap Rule.letters) with start? := some start }
  productions := .ofEntries ((rules.flatMap Rule.clauses).filterMap Clause.entry?)

/-! ## Loading rules -/

variable {rules : List (Located Rule)}

/-- Declaring the letters of rules that were read never fails. -/
theorem declareLetters_eq (hcased : ∀ rule ∈ rules, rule.value.Cased) :
    declareLetters (rules.map Located.value) =
      .ok (Alphabet.ofLetters ((rules.map Located.value).flatMap Rule.letters)) := by
  refine Alphabet.declareAll_eq_ofLetters fun c hc => ?_
  rcases List.mem_flatMap.1 hc with ⟨rule, hrule, hletter⟩
  rcases List.mem_map.1 hrule with ⟨located, hlocated, rfl⟩
  exact (hcased located hlocated).letters hletter

/-- The letters of every clause are registered before it is added. -/
theorem registered_of_mem_clauses (hcased : ∀ rule ∈ rules, rule.value.Cased)
    (start? : Option Char) : ∀ clause ∈ rules.flatMap clauses, clause.value.Registered
      { Alphabet.ofLetters ((rules.map Located.value).flatMap Rule.letters) with start? } := by
  intro clause hclause
  rcases List.mem_flatMap.1 hclause with ⟨rule, hrule, hmem⟩
  rcases List.mem_map.1 hmem with ⟨letters, hletters, rfl⟩
  -- Letters of a clause are letters of its rule, and all of these have been declared.
  have hused : ∀ {c : Char}, c ∈ rule.value.letters →
      c ∈ (rules.map Located.value).flatMap Rule.letters :=
    fun hc => List.mem_flatMap.2 ⟨rule.value, List.mem_map_of_mem hrule, hc⟩
  have hinside : ∀ {c : Char}, c ∈ letters → c ∈ rule.value.letters :=
    fun hc => List.mem_cons_of_mem _ (List.mem_flatten.2 ⟨letters, hletters, hc⟩)
  refine ⟨?_, ?_, ?_⟩
  · exact Alphabet.mem_nonterminals_ofLetters.2
      ⟨hused List.mem_cons_self, (hcased rule hrule).head⟩
  · intro c hc hupper
    exact Alphabet.mem_nonterminals_ofLetters.2 ⟨hused (hinside hc), hupper⟩
  · intro c hc hlower
    exact Alphabet.mem_terminals_ofLetters.2 ⟨hused (hinside hc), hlower⟩

/-- Clauses without offence leave the productions they ask for; others are all reported. -/
theorem addClauses_eq (hcased : ∀ rule ∈ rules, rule.value.Cased) (start? : Option Char) :
    ∃ productions,
      addClauses { Alphabet.ofLetters ((rules.map Located.value).flatMap Rule.letters) with start? }
        ∅ (rules.flatMap clauses) = (productions, offences [] (rules.flatMap clauses)) ∧
      (offences [] (rules.flatMap clauses) = [] →
        productions = .ofEntries
          (((rules.map Located.value).flatMap Rule.clauses).filterMap Clause.entry?)) := by
  have hregistered := registered_of_mem_clauses hcased start?
  have hsnd := recorded_empty.addClauses_snd hregistered
  refine ⟨_, Prod.ext rfl hsnd, fun hnone => ?_⟩
  have hempty : Recorded [] (Productions.ofEntries []) := recorded_empty
  have hfst := hempty.addClauses_fst hregistered hnone
  rw [map_value_flatMap_clauses, List.nil_append] at hfst
  exact hfst

theorem setStart_ofLetters (letters : List Char) (start : Char) :
    (Alphabet.ofLetters letters).setStart start =
      if isUppercase start = true ∧ start ∈ letters then
        .ok { Alphabet.ofLetters letters with start? := some start }
      else
        .error (.unknownNonterminal start) := by
  have hmem : start ∈ (Alphabet.ofLetters letters).nonterminals ↔
      isUppercase start = true ∧ start ∈ letters := by
    rw [Alphabet.mem_nonterminals_ofLetters, and_comm]
  unfold Alphabet.setStart
  by_cases hstart : isUppercase start = true ∧ start ∈ letters
  · rw [if_pos (hmem.2 hstart), if_pos hstart]
    rfl
  · rw [if_neg fun hin => hstart (hmem.1 hin), if_neg hstart]

/-- Declaring never fails, so only the start symbol can stop the alphabet. -/
theorem declareLetters_setStart (hcased : ∀ rule ∈ rules, rule.value.Cased) (start : Char) :
    (declareLetters (rules.map Located.value) >>= fun alphabet => alphabet.setStart start) =
      if isUppercase start = true ∧ start ∈ (rules.map Located.value).flatMap Rule.letters then
        .ok { Alphabet.ofLetters ((rules.map Located.value).flatMap Rule.letters) with
          start? := some start }
      else
        .error (.unknownNonterminal start) := by
  rw [declareLetters_eq hcased]
  exact setStart_ofLetters _ start

/-- The start symbol is looked at first, and then all clauses. -/
theorem ofRules_eq {file : String} {asked? : Option Char} {first : Located Rule}
    {later : List (Located Rule)} (hcased : ∀ rule ∈ first :: later, rule.value.Cased) :
    Grammar.ofRules file asked? (first :: later) =
      if isUppercase (asked?.getD first.value.head) = true ∧
          asked?.getD first.value.head ∈
            ((first :: later).map Located.value).flatMap Rule.letters then
        if offences [] ((first :: later).flatMap clauses) = [] then
          .ok (spelled (asked?.getD first.value.head) ((first :: later).map Located.value))
        else
          .error (offences [] ((first :: later).flatMap clauses))
      else
        .error [⟨⟨file, none⟩, .grammar (.unknownNonterminal (asked?.getD first.value.head))⟩] := by
  have halphabet := declareLetters_setStart hcased (asked?.getD first.value.head)
  by_cases hstart : isUppercase (asked?.getD first.value.head) = true ∧
      asked?.getD first.value.head ∈ ((first :: later).map Located.value).flatMap Rule.letters
  · rw [if_pos hstart] at halphabet
    -- The alphabet is complete before the first clause is added.
    rcases addClauses_eq hcased (some (asked?.getD first.value.head)) with
      ⟨productions, hclauses, hproductions⟩
    rw [if_pos hstart]
    cases hoffences : offences [] ((first :: later).flatMap clauses) with
    | nil =>
        rw [hoffences] at hclauses
        simp only [Grammar.ofRules, halphabet, hclauses, if_true, hproductions hoffences, spelled]
    | cons error errors =>
        rw [hoffences] at hclauses
        simp only [Grammar.ofRules, halphabet, hclauses, reduceCtorEq, if_false]
  · rw [if_neg hstart] at halphabet
    simp only [Grammar.ofRules, halphabet, if_neg hstart]

end Grammar

end ChomskyNormal
