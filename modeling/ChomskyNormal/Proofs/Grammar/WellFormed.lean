import ChomskyNormal.Proofs.Grammar.Entries
import ChomskyNormal.Proofs.Grammar.Registration
import ChomskyNormal.Proofs.Success
import ChomskyNormal.Session

/-!
# Well-formed grammars

The invariant of editing sessions: the alphabet is well-formed, the productions hold distinct
entries, and every production uses registered symbols only. Each edit keeps it, refused or not,
and so does a grammar that replaces the current one as a whole.

- `Grammar.WellFormed` : the invariant;
- `Grammar.WellFormed.apply` : what one edit preserves;
- `Grammar.Reachable.wellFormed` : what holds after a whole session.
-/

namespace ChomskyNormal

/-! ## Steps -/

namespace Session

variable {session : Session} {edit : Edit}

theorem step_edit_of_ok {next : Grammar} (h : session.current.apply edit = .ok next) :
    session.step (.edit edit) = { session with current := next } := by
  rw [step, step?, h]
  rfl

theorem step_edit_of_error {error : EditError} (h : session.current.apply edit = .error error) :
    session.step (.edit edit) = session := by
  rw [step, step?, h]
  rfl

end Session

/-! ## The invariant -/

namespace Grammar

structure WellFormed (grammar : Grammar) : Prop where
  alphabet : grammar.alphabet.WellFormed
  productions : grammar.productions.WellFormed
  head_mem : ∀ {head : Char} {rhs : Rhs}, rhs ∈ grammar.productions.alternatives head →
    head ∈ grammar.alphabet.nonterminals
  covers : ∀ {head : Char} {rhs : Rhs}, rhs ∈ grammar.productions.alternatives head →
    grammar.alphabet.Covers rhs

theorem wellFormed_empty : (∅ : Grammar).WellFormed where
  alphabet := Alphabet.wellFormed_empty
  productions := Productions.wellFormed_empty
  head_mem h := by
    rw [show (∅ : Grammar).productions = ∅ from rfl, Productions.alternatives_empty] at h
    exact absurd h List.not_mem_nil
  covers h := by
    rw [show (∅ : Grammar).productions = ∅ from rfl, Productions.alternatives_empty] at h
    exact absurd h List.not_mem_nil

namespace WellFormed

variable {grammar next : Grammar}

/-! ## Single changes -/

/-- A larger alphabet still has all the symbols that the productions use. -/
theorem withAlphabet {alphabet : Alphabet} (h : grammar.WellFormed)
    (halphabet : alphabet.WellFormed) (hextends : grammar.alphabet.Extends alphabet) :
    ({ grammar with alphabet } : Grammar).WellFormed where
  alphabet := halphabet
  productions := h.productions
  head_mem hmem := hextends.nonterminals (h.head_mem hmem)
  covers hmem := hextends.covers (h.covers hmem)

theorem register {letterCase : LetterCase} {c : Char} {alphabet : Alphabet}
    (h : grammar.WellFormed)
    (hadd : grammar.alphabet.register letterCase c = .ok alphabet) :
    ({ grammar with alphabet } : Grammar).WellFormed :=
  h.withAlphabet (h.alphabet.register hadd) (Alphabet.extends_of_register hadd)

/-- A production that passes all checks uses registered symbols only, and is new. -/
theorem withProductions {productions : Productions} {head : Char} {text : String}
    (h : grammar.WellFormed)
    (hadd : grammar.productions.add grammar.alphabet head text = .ok productions) :
    ({ grammar with productions } : Grammar).WellFormed := by
  rcases Productions.add_eq_ok_iff.1 hadd with ⟨rhs, _, hhead, hmissing, hnew, rfl⟩
  refine ⟨h.alphabet, h.productions.insert hnew, ?_, ?_⟩
  · intro other item hmem
    rcases Productions.mem_alternatives_insert.1 hmem with hold | ⟨rfl, rfl⟩
    · exact h.head_mem hold
    · exact hhead
  · intro other item hmem
    rcases Productions.mem_alternatives_insert.1 hmem with hold | ⟨rfl, rfl⟩
    · exact h.covers hold
    · exact Alphabet.missing?_eq_none_iff.1 hmissing

/-! ## Loading -/

/-- Clauses keep the invariant, however many of them are refused. -/
theorem addClauses {alphabet : Alphabet} {productions : Productions}
    (clauses : List (Located Clause)) (h : (⟨alphabet, productions⟩ : Grammar).WellFormed) :
    (⟨alphabet, (ChomskyNormal.addClauses alphabet productions clauses).1⟩ :
      Grammar).WellFormed := by
  -- A clause that is refused leaves the productions as they were, so the rest starts from them.
  induction clauses generalizing productions with
  | nil => exact h
  | cons clause later ih =>
      rcases clause with ⟨location, clause⟩
      rw [ChomskyNormal.addClauses]
      cases hadd : productions.add alphabet clause.head (String.ofList clause.letters) with
      | ok extended => exact ih (h.withProductions hadd)
      | error error => exact ih h

/-- Whatever rules spell out, it is well-formed. -/
theorem ofRules {file : String} {start? : Option Char} {rules : List (Located Rule)}
    (h : Grammar.ofRules file start? rules = .ok grammar) : grammar.WellFormed := by
  unfold Grammar.ofRules at h
  split at h
  · cases h
  · next first later =>
      split at h
      · cases h
      · next alphabet halphabet =>
          rcases bind_eq_ok_iff.1 halphabet with ⟨declared, hdeclared, hstart⟩
          have hwell : alphabet.WellFormed :=
            (Alphabet.wellFormed_empty.declareAll hdeclared).setStart hstart
          -- Clauses are added over the final alphabet, and to no productions at first.
          have hempty : (⟨alphabet, ∅⟩ : Grammar).WellFormed :=
            wellFormed_empty.withAlphabet hwell
              ⟨fun hmem => absurd hmem (Roster.not_mem_empty _),
                fun hmem => absurd hmem (Roster.not_mem_empty _)⟩
          have hfull := hempty.addClauses ((first :: later).flatMap ChomskyNormal.clauses)
          split at h
          · next productions hclauses =>
              cases h
              rwa [hclauses] at hfull
          · cases h

theorem ofLines {file : String} {start? : Option Char}
    {lines : List (Except FileFault (List Char))}
    (h : Grammar.ofLines file start? lines = .ok grammar) : grammar.WellFormed := by
  rcases bind_eq_ok_iff.1 h with ⟨rules, _, hrules⟩
  exact ofRules hrules

theorem ofText {text : String} {start? : Option Char}
    (h : Grammar.ofText text start? = .ok grammar) : grammar.WellFormed :=
  ofLines h

/-! ## Edits -/

/-- An edit that is carried out keeps the invariant. -/
theorem apply {edit : Edit} (h : grammar.WellFormed) (happly : grammar.apply edit = .ok next) :
    next.WellFormed := by
  cases edit with
  | addNonterminal c =>
      rcases map_eq_ok_iff.1 (mapError_eq_ok_iff.1 happly) with ⟨alphabet, hadd, rfl⟩
      exact h.register hadd
  | addTerminal c =>
      rcases map_eq_ok_iff.1 (mapError_eq_ok_iff.1 happly) with ⟨alphabet, hadd, rfl⟩
      exact h.register hadd
  | setStart c =>
      rcases map_eq_ok_iff.1 (mapError_eq_ok_iff.1 happly) with ⟨alphabet, hset, rfl⟩
      have halphabet : alphabet.WellFormed := h.alphabet.setStart hset
      exact h.withAlphabet halphabet (Alphabet.extends_of_setStart hset)
  | addProduction head text =>
      rcases map_eq_ok_iff.1 (mapError_eq_ok_iff.1 happly) with ⟨productions, hadd, rfl⟩
      exact h.withProductions hadd
  | reset =>
      cases happly
      exact wellFormed_empty
  | load text start? => exact ofText (mapError_eq_ok_iff.1 happly)

end WellFormed

/-! ## Sessions -/

/-- A step keeps the invariant of both grammars, whether it is refused or not. -/
theorem wellFormed_step {session : Session} (step : Session.Step)
    (h : session.current.WellFormed ∧ session.saved.WellFormed) :
    (session.step step).current.WellFormed ∧ (session.step step).saved.WellFormed := by
  unfold Session.step
  split
  · next next hnext =>
      cases step with
      | edit edit =>
          rcases map_eq_ok_iff.1 hnext with ⟨current, happly, rfl⟩
          exact ⟨h.1.apply happly, h.2⟩
      -- Both grammars of a session are well-formed, so either may take the place of the other.
      | save =>
          cases hnext
          exact ⟨h.1, h.1⟩
      | restore =>
          cases hnext
          exact ⟨h.2, h.2⟩
  · exact h

/-- The invariant of both grammars holds after all steps of a session. -/
theorem wellFormed_run {session : Session} (steps : List Session.Step)
    (h : session.current.WellFormed ∧ session.saved.WellFormed) :
    (session.run steps).current.WellFormed ∧ (session.run steps).saved.WellFormed := by
  induction steps generalizing session with
  | nil => exact h
  | cons step steps ih => exact ih (wellFormed_step step h)

/-- The invariant holds of every grammar that a session arrives at. -/
theorem Reachable.wellFormed {grammar : Grammar} (h : grammar.Reachable) :
    grammar.WellFormed := by
  rcases h with ⟨steps, rfl⟩
  exact (wellFormed_run steps ⟨wellFormed_empty, wellFormed_empty⟩).1

end Grammar

end ChomskyNormal
