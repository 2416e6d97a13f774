import ChomskyNormal.Proofs.Grammar.Coherence
import ChomskyNormal.Proofs.Grammar.Reach

/-!
# Adding a production

A production is refused for the first of four reasons: its shape, its head, a letter that is not
registered, or that it is there already. Otherwise it is put last among the alternatives of its
head, and its head is put among the producers of its right-hand side. Nothing else changes.

- `AdditionFault` : why a production is refused;
- `Grammar.Gains` : what an addition changes, and what it leaves alone;
- `Grammar.Reachable.addProduction_exact` : every outcome of an addition.
-/

namespace ChomskyNormal

/-! ## Outcomes -/

def Grammar.Registers (grammar : Grammar) (c : Char) : Prop :=
  (isUppercase c = true ∧ c ∈ grammar.nonterminals) ∨
    (isLowercase c = true ∧ c ∈ grammar.terminals)

instance (grammar : Grammar) (c : Char) : Decidable (grammar.Registers c) :=
  inferInstanceAs (Decidable (_ ∨ _))

/-- Why a production is refused. Each reason counts only where those before it do not apply. -/
inductive AdditionFault (grammar : Grammar) (head : Char) (text : String) : GrammarError → Prop
  | malformed : ¬ CnfShape text.toList →
      AdditionFault grammar head text (.malformedProduction text)
  | unknownHead : CnfShape text.toList → head ∉ grammar.nonterminals →
      AdditionFault grammar head text (.unknownNonterminal head)
  | unknownSymbol {front back : List Char} {c : Char} : CnfShape text.toList →
      head ∈ grammar.nonterminals → text.toList = front ++ c :: back →
        (∀ d ∈ front, grammar.Registers d) → ¬ grammar.Registers c →
          AdditionFault grammar head text (.unknownSymbol c)
  | duplicate {rhs : Rhs} : CnfShape text.toList → head ∈ grammar.nonterminals →
      (∀ c ∈ text.toList, grammar.Registers c) → rhs.letters = text.toList →
        rhs ∈ grammar.alternatives head →
          AdditionFault grammar head text (.duplicateProduction head text)

/-- The second grammar has one production more, last among those of its head. -/
structure Grammar.Gains (grammar next : Grammar) (head : Char) (rhs : Rhs) : Prop where
  alphabet : next.alphabet = grammar.alphabet
  alternatives : next.alternatives head = grammar.alternatives head ++ [rhs]
  otherHeads : ∀ other, other ≠ head → next.alternatives other = grammar.alternatives other
  /-- The head is new on this side as well. -/
  new : head ∉ grammar.productions.producers rhs
  producers : ∀ c,
    c ∈ next.productions.producers rhs ↔ c = head ∨ c ∈ grammar.productions.producers rhs
  otherProducers : ∀ other, other ≠ rhs →
    next.productions.producers other = grammar.productions.producers other
  count : next.productions.count = grammar.productions.count + 1

/-! ## Checks -/

theorem Rhs.text_eq_of_letters {text : String} {rhs : Rhs} (h : rhs.letters = text.toList) :
    rhs.text = text := by
  rw [Rhs.text, h, String.ofList_toList]

/-- A text of the right shape reads as the right-hand side with its letters. -/
theorem Rhs.ofString?_eq_some_iff {text : String} {rhs : Rhs} :
    ofString? text = some rhs ↔ CnfShape text.toList ∧ rhs.letters = text.toList := by
  constructor
  · intro h
    exact ⟨cnfShape_of_ofLetters? h, letters_of_ofLetters? h⟩
  · rintro ⟨hshape, hletters⟩
    rw [← hletters] at hshape
    rw [← text_eq_of_letters hletters, ofString?_text hshape]

theorem Rhs.ofString?_eq_none_iff {text : String} :
    ofString? text = none ↔ ¬ CnfShape text.toList := by
  rw [← isSome_ofLetters?_iff, Option.not_isSome_iff_eq_none, ofString?]

namespace Productions

variable {productions : Productions} {alphabet : Alphabet} {head : Char} {text : String}
  {error : GrammarError}

/-- An addition fails at the first check that does not pass. -/
theorem add_eq_error_iff :
    productions.add alphabet head text = .error error ↔
      (Rhs.ofString? text = none ∧ error = .malformedProduction text) ∨
        ∃ rhs, Rhs.ofString? text = some rhs ∧
          ((head ∉ alphabet.nonterminals ∧ error = .unknownNonterminal head) ∨
            head ∈ alphabet.nonterminals ∧
              ((∃ letter, alphabet.missing? rhs = some letter ∧ error = .unknownSymbol letter) ∨
                alphabet.missing? rhs = none ∧ rhs ∈ productions.alternatives head ∧
                  error = .duplicateProduction head rhs.text)) := by
  unfold add
  cases hrhs : Rhs.ofString? text with
  | none => simp [eq_comm]
  | some rhs =>
      -- The checks come in this order, and the first that fails decides.
      by_cases hhead : head ∈ alphabet.nonterminals
      · cases hmissing : alphabet.missing? rhs with
        | some letter => simp [hhead, hmissing, eq_comm]
        | none =>
            by_cases hold : rhs ∈ productions.alternatives head
            · simp [hhead, hmissing, hold, eq_comm]
            · simp [hhead, hmissing, hold]
      · simp [hhead, eq_comm]

end Productions

namespace Grammar

variable {grammar next : Grammar} {head : Char} {text : String} {rhs : Rhs} {error : GrammarError}

namespace WellFormed

theorem registers_iff_of_isUppercase (h : grammar.WellFormed) {c : Char}
    (hc : isUppercase c = true) : grammar.Registers c ↔ c ∈ grammar.alphabet.nonterminals := by
  simp [Registers, hc, not_isLowercase_of_isUppercase hc, h.mem_nonterminals_iff]

theorem registers_iff_of_isLowercase (h : grammar.WellFormed) {c : Char}
    (hc : isLowercase c = true) : grammar.Registers c ↔ c ∈ grammar.alphabet.terminals := by
  have hupper : ¬ isUppercase c = true :=
    fun hupper => not_isUppercase_and_isLowercase c ⟨hupper, hc⟩
  simp [Registers, hc, hupper, h.mem_terminals_iff]

/-- Both forms of a right-hand side are checked alike, letter by letter. -/
theorem missing?_eq_find? (h : grammar.WellFormed) (hshape : CnfShape rhs.letters) :
    grammar.alphabet.missing? rhs = rhs.letters.find? fun c => ¬ grammar.Registers c := by
  cases rhs with
  | binary left right =>
      rcases hshape with ⟨_, _, ⟨⟩, hleft, hright⟩ | ⟨_, heq, _⟩
      · simp [Alphabet.missing?, Rhs.letters, List.find?_cons, h.registers_iff_of_isUppercase hleft,
          h.registers_iff_of_isUppercase hright]
      · cases heq
  | terminal letter =>
      rcases hshape with ⟨_, _, heq, _⟩ | ⟨_, ⟨⟩, hletter⟩
      · cases heq
      · have hregisters := h.registers_iff_of_isLowercase hletter
        by_cases hmem : letter ∈ grammar.alphabet.terminals
        · simp [Alphabet.missing?, Rhs.letters, hregisters, hmem]
        · simp [Alphabet.missing?, Rhs.letters, hregisters, hmem]

theorem missing?_eq_none_iff (h : grammar.WellFormed) (hshape : CnfShape rhs.letters) :
    grammar.alphabet.missing? rhs = none ↔ ∀ c ∈ rhs.letters, grammar.Registers c := by
  rw [h.missing?_eq_find? hshape]
  simp

/-- The missing letter is the first one that is not registered in its class. -/
theorem missing?_eq_some_iff (h : grammar.WellFormed) (hshape : CnfShape rhs.letters) {c : Char} :
    grammar.alphabet.missing? rhs = some c ↔ ∃ front back, rhs.letters = front ++ c :: back ∧
      (∀ d ∈ front, grammar.Registers d) ∧ ¬ grammar.Registers c := by
  rw [h.missing?_eq_find? hshape, List.find?_eq_some_iff_append]
  simp only [decide_not, Bool.not_eq_true', decide_eq_false_iff_not, Bool.not_not,
    decide_eq_true_eq]
  constructor
  · rintro ⟨hc, front, back, heq, hfront⟩
    exact ⟨front, back, heq, hfront, hc⟩
  · rintro ⟨front, back, heq, hfront, hc⟩
    exact ⟨hc, front, back, heq, hfront⟩

/-! ## All outcomes -/

/-- An addition is refused for the first reason that applies, and without one it is not. -/
theorem addProduction_eq_error_iff (h : grammar.WellFormed) :
    grammar.addProduction head text = .error error ↔ AdditionFault grammar head text error := by
  rw [addProduction, map_eq_error_iff, Productions.add_eq_error_iff, Rhs.ofString?_eq_none_iff]
  -- The checks know the right-hand side that was read, and the faults only its letters.
  constructor
  · rintro (⟨hshape, rfl⟩ | ⟨rhs, hrhs, hchecks⟩)
    · exact .malformed hshape
    · rcases Rhs.ofString?_eq_some_iff.1 hrhs with ⟨hshape, hletters⟩
      have hshape' : CnfShape rhs.letters := hletters ▸ hshape
      rw [h.missing?_eq_none_iff hshape', ← h.mem_nonterminals_iff, hletters,
        Rhs.text_eq_of_letters hletters] at hchecks
      rcases hchecks with ⟨hhead, rfl⟩ | ⟨hhead, ⟨c, hmissing, rfl⟩ | ⟨hletter, hmem, rfl⟩⟩
      · exact .unknownHead hshape hhead
      · rcases (h.missing?_eq_some_iff hshape').1 hmissing with ⟨front, back, heq, hfront, hc⟩
        exact .unknownSymbol hshape hhead (hletters ▸ heq) hfront hc
      · exact .duplicate hshape hhead hletter hletters hmem
  · intro hfault
    cases hfault with
    | malformed hshape => exact Or.inl ⟨hshape, rfl⟩
    | unknownHead hshape hhead =>
        rcases hshape.exists_rhs with ⟨rhs, hrhs, _⟩
        exact Or.inr ⟨rhs, hrhs, Or.inl ⟨h.mem_nonterminals_iff.not.1 hhead, rfl⟩⟩
    | unknownSymbol hshape hhead heq hfront hc =>
        rcases hshape.exists_rhs with ⟨rhs, hrhs, hletters⟩
        have hshape' : CnfShape rhs.letters := hletters ▸ hshape
        have hmissing := (h.missing?_eq_some_iff hshape').2
          ⟨_, _, hletters.trans heq, hfront, hc⟩
        exact Or.inr ⟨rhs, hrhs,
          Or.inr ⟨h.mem_nonterminals_iff.1 hhead, Or.inl ⟨_, hmissing, rfl⟩⟩⟩
    | @duplicate rhs hshape hhead hletter hletters hmem =>
        have hmissing := (h.missing?_eq_none_iff (hletters ▸ hshape)).2 (hletters ▸ hletter)
        refine Or.inr ⟨rhs, Rhs.ofString?_eq_some_iff.2 ⟨hshape, hletters⟩,
          Or.inr ⟨h.mem_nonterminals_iff.1 hhead, Or.inr ⟨hmissing, hmem, ?_⟩⟩⟩
        rw [Rhs.text_eq_of_letters hletters]

/-- An addition succeeds where no reason applies, and inserts what the text spells. -/
theorem addProduction_eq_ok_iff (h : grammar.WellFormed) :
    grammar.addProduction head text = .ok next ↔
      ∃ rhs, CnfShape text.toList ∧ head ∈ grammar.nonterminals ∧
        (∀ c ∈ text.toList, grammar.Registers c) ∧ rhs.letters = text.toList ∧
          rhs ∉ grammar.alternatives head ∧
            next = { grammar with productions := grammar.productions.insert head rhs } := by
  rw [addProduction, map_eq_ok_iff]
  simp only [Productions.add_eq_ok_iff, Rhs.ofString?_eq_some_iff, ← h.mem_nonterminals_iff]
  constructor
  · rintro ⟨_, ⟨rhs, ⟨hshape, hletters⟩, hhead, hmissing, hnew, rfl⟩, rfl⟩
    rw [h.missing?_eq_none_iff (hletters ▸ hshape), hletters] at hmissing
    exact ⟨rhs, hshape, hhead, hmissing, hletters, hnew, rfl⟩
  · rintro ⟨rhs, hshape, hhead, hletter, hletters, hnew, rfl⟩
    have hmissing := (h.missing?_eq_none_iff (hletters ▸ hshape)).2 (hletters ▸ hletter)
    exact ⟨_, ⟨rhs, ⟨hshape, hletters⟩, hhead, hmissing, hnew, rfl⟩, rfl⟩

/-- Both indexes take the production in, so it was new to both. -/
theorem gains_insert (h : grammar.WellFormed) (hnew : rhs ∉ grammar.alternatives head) :
    grammar.Gains { grammar with productions := grammar.productions.insert head rhs } head rhs where
  alphabet := rfl
  alternatives := by
    rw [Grammar.alternatives, Productions.alternatives_insert, if_pos rfl]
    rfl
  otherHeads other hother := by
    rw [Grammar.alternatives, Productions.alternatives_insert, if_neg (Ne.symm hother)]
    rfl
  new hmem := hnew (h.productions.mem_producers_iff.1 hmem)
  producers c := by
    rw [Productions.producers_insert, if_pos rfl, Std.ExtTreeSet.mem_insert,
      Std.LawfulEqCmp.compare_eq_iff_eq, eq_comm]
  otherProducers other hother := by
    rw [Productions.producers_insert, if_neg (Ne.symm hother)]
  count := rfl

end WellFormed

/-- An addition fails exactly for the first reason that applies, and the grammar stays as it was.
It succeeds exactly where no reason applies, and the grammar gains the production that is spelled,
and nothing else. -/
theorem Reachable.addProduction_exact (h : grammar.Reachable) (head : Char) (text : String) :
    (∀ error, grammar.addProduction head text = .error error ↔
      AdditionFault grammar head text error) ∧
    (∀ error (session : Session), session.current = grammar →
      AdditionFault grammar head text error →
        session.step (.edit (.addProduction head text)) = session) ∧
    ((∃ next, grammar.addProduction head text = .ok next) ↔
      CnfShape text.toList ∧ head ∈ grammar.nonterminals ∧
        (∀ c ∈ text.toList, grammar.Registers c) ∧
          ∀ rhs ∈ grammar.alternatives head, rhs.letters ≠ text.toList) ∧
    ∀ next, grammar.addProduction head text = .ok next →
      next.Reachable ∧ ∃ rhs, rhs.letters = text.toList ∧ grammar.Gains next head rhs := by
  have hwell := h.wellFormed
  refine ⟨fun error => hwell.addProduction_eq_error_iff, ?_, ?_, ?_⟩
  · rintro error session rfl hfault
    have happly : session.current.apply (.addProduction head text) = .error (.grammar error) := by
      rw [Grammar.apply, hwell.addProduction_eq_error_iff.2 hfault]
      rfl
    exact Session.step_edit_of_error happly
  · constructor
    · rintro ⟨next, hnext⟩
      rcases hwell.addProduction_eq_ok_iff.1 hnext with
        ⟨rhs, hshape, hhead, hregistered, hletters, hnew, _⟩
      refine ⟨hshape, hhead, hregistered, ?_⟩
      rintro other hmem hother
      -- Letters can be read in one way only.
      rw [Rhs.letters_injective (hother.trans hletters.symm)] at hmem
      exact hnew hmem
    · rintro ⟨hshape, hhead, hregistered, hnew⟩
      rcases hshape.exists_rhs with ⟨rhs, _, hletters⟩
      exact ⟨_, hwell.addProduction_eq_ok_iff.2 ⟨rhs, hshape, hhead, hregistered, hletters,
        fun hmem => hnew rhs hmem hletters, rfl⟩⟩
  · intro next hnext
    have happly : grammar.apply (.addProduction head text) = .ok next :=
      mapError_eq_ok_iff.2 hnext
    rcases hwell.addProduction_eq_ok_iff.1 hnext with ⟨rhs, _, _, _, hletters, hnew, rfl⟩
    exact ⟨h.apply _ happly, rhs, hletters, hwell.gains_insert hnew⟩

def sparse : List Session.Step :=
  [.edit (.load "S ::= AB | a\nA ::= a\nB ::= b" none), .edit (.addNonterminal 'C')]

/-- All checks fail for the first addition, and one check less for each of the next. -/
theorem sparse_additions :
    AdditionFault (Session.new.run sparse).current 'X' "xY" (.malformedProduction "xY") ∧
      AdditionFault (Session.new.run sparse).current 'X' "YX" (.unknownNonterminal 'X') ∧
      AdditionFault (Session.new.run sparse).current 'S' "YX" (.unknownSymbol 'Y') ∧
      AdditionFault (Session.new.run sparse).current 'S' "AB" (.duplicateProduction 'S' "AB") ∧
      ∃ next rhs, (Session.new.run sparse).current.addProduction 'C' "AB" = .ok next ∧
        rhs.letters = ['A', 'B'] ∧ (Session.new.run sparse).current.Gains next 'C' rhs := by
  have hreach : (Session.new.run sparse).current.Reachable := ⟨sparse, rfl⟩
  have hexact := fun head text => hreach.addProduction_exact head text
  refine ⟨((hexact 'X' "xY").1 _).1 (by decide +kernel),
    ((hexact 'X' "YX").1 _).1 (by decide +kernel), ((hexact 'S' "YX").1 _).1 (by decide +kernel),
    ((hexact 'S' "AB").1 _).1 (by decide +kernel), ?_⟩
  -- That the addition succeeds is computed; what it leaves follows from the general theorem.
  have hadds : ((Session.new.run sparse).current.addProduction 'C' "AB").isOk = true := by
    decide +kernel
  cases hnext : (Session.new.run sparse).current.addProduction 'C' "AB" with
  | error error =>
      rw [hnext] at hadds
      cases hadds
  | ok next =>
      rcases (hexact 'C' "AB").2.2.2 next hnext with ⟨_, rhs, hletters, hgains⟩
      exact ⟨next, rhs, rfl, hletters.trans (by decide), hgains⟩

end Grammar

end ChomskyNormal
