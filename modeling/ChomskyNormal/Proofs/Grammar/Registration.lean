import ChomskyNormal.Alphabet
import ChomskyNormal.Proofs.Success
import Mathlib.Data.List.Nodup

/-!
# Registered symbols

What every alphabet keeps while symbols are registered and the start symbol is chosen.

- `Roster.WellFormed` : the look-up set and the list hold the same symbols, each once;
- `Alphabet.WellFormed` : both rosters do, cases fit the classes, and the start is registered;
- `Alphabet.Covers` : the letters of a right-hand side are registered in their classes;
- `Alphabet.Extends` : symbols that are registered stay registered.
-/

namespace ChomskyNormal

/-! ## Rosters -/

namespace Roster

/-- The look-up set holds exactly the listed symbols, and none is listed twice. -/
structure WellFormed (roster : Roster) : Prop where
  mem_order_iff : ∀ {c : Char}, c ∈ roster.order ↔ c ∈ roster
  nodup : roster.order.Nodup

theorem wellFormed_empty : (∅ : Roster).WellFormed where
  mem_order_iff := ⟨fun h => absurd h List.not_mem_nil, fun h => absurd h (not_mem_empty _)⟩
  nodup := List.nodup_nil

theorem WellFormed.add {roster : Roster} {c : Char} (h : roster.WellFormed) (hnew : c ∉ roster) :
    (roster.add c).WellFormed where
  mem_order_iff := by
    intro d
    change d ∈ roster.order ++ [c] ↔ _
    rw [List.mem_append, List.mem_singleton, h.mem_order_iff, mem_add, or_comm, eq_comm]
  nodup := by
    have hlist : c ∉ roster.order := fun hmem => hnew (h.mem_order_iff.1 hmem)
    have hconcat : (roster.order.concat c).Nodup := h.nodup.concat hlist
    rwa [List.concat_eq_append] at hconcat

end Roster

namespace Alphabet

/-! ## Changes that succeed -/

variable {alphabet extended : Alphabet} {letterCase : LetterCase} {c : Char}

/-- Registration succeeds for new letters of the right case, and puts them into their class. -/
theorem register_eq_ok_iff : alphabet.register letterCase c = .ok extended ↔
    ¬ alphabet.Knows c ∧ letterCase? c = some letterCase ∧
      extended = alphabet.enroll letterCase c := by
  unfold register
  by_cases hknown : alphabet.Knows c
  · simp [hknown]
  · by_cases hcase : letterCase? c = some letterCase
    · simp [hknown, hcase, eq_comm]
    · simp [hknown, hcase]

/-- A start symbol has to be a nonterminal, and none may have been chosen before. -/
theorem setStart_eq_ok_iff :
    alphabet.setStart c = .ok extended ↔
      c ∈ alphabet.nonterminals ∧ alphabet.start? = none ∧
        extended = { alphabet with start? := some c } := by
  unfold setStart
  by_cases hmem : c ∈ alphabet.nonterminals
  · cases hstart : alphabet.start? with
    | none => simp [hmem, eq_comm]
    | some current => simp [hmem]
  · simp [hmem]

/-- A new letter is registered in the class that its case calls for. -/
theorem declare_eq_register (hnew : ¬ alphabet.Knows c)
    (hcase : letterCase? c = some letterCase) :
    alphabet.declare c = alphabet.register letterCase c := by
  rw [declare, if_neg hnew, Symbol.ofChar?, hcase]
  cases letterCase with
  | upper => rfl
  | lower => rfl

/-- A letter that is declared was known before, or it is registered in some class. -/
theorem declare_eq_ok_cases (h : alphabet.declare c = .ok extended) :
    (alphabet.Knows c ∧ extended = alphabet) ∨
      ∃ letterCase, alphabet.register letterCase c = .ok extended := by
  by_cases hknown : alphabet.Knows c
  · rw [declare, if_pos hknown] at h
    cases h
    exact Or.inl ⟨hknown, rfl⟩
  · cases hcase : letterCase? c with
    | none =>
        rw [declare, if_neg hknown, Symbol.ofChar?, hcase] at h
        cases h
    | some letterCase => exact Or.inr ⟨letterCase, declare_eq_register hknown hcase ▸ h⟩

/-! ## Classes -/

theorem knows_iff_exists_roster :
    alphabet.Knows c ↔ ∃ letterCase, c ∈ alphabet.roster letterCase := by
  constructor
  · rintro (hmem | hmem)
    · exact ⟨.upper, hmem⟩
    · exact ⟨.lower, hmem⟩
  · rintro ⟨letterCase, hmem⟩
    cases letterCase with
    | upper => exact Or.inl hmem
    | lower => exact Or.inr hmem

theorem roster_withRoster (roster : Roster) (other : LetterCase) :
    (alphabet.withRoster roster letterCase).roster other =
      if other = letterCase then roster else alphabet.roster other := by
  cases letterCase with
  | upper =>
      cases other with
      | upper => rfl
      | lower => rfl
  | lower =>
      cases other with
      | upper => rfl
      | lower => rfl

theorem withRoster_eq_self {roster : Roster} (h : alphabet.roster letterCase = roster) :
    alphabet.withRoster roster letterCase = alphabet := by
  cases letterCase with
  | upper => rw [← h, Alphabet.roster, withRoster]
  | lower => rw [← h, Alphabet.roster, withRoster]

/-- Only the last roster that is put in the place of a class counts. -/
theorem withRoster_withRoster (roster other : Roster) :
    (alphabet.withRoster other letterCase).withRoster roster letterCase =
      alphabet.withRoster roster letterCase := by
  cases letterCase with
  | upper => rfl
  | lower => rfl

/-- Nothing but the new symbol comes to a class, and nothing leaves one. -/
theorem mem_roster_enroll (other : LetterCase) {d : Char} :
    d ∈ (alphabet.enroll letterCase c).roster other ↔
      other = letterCase ∧ c = d ∨ d ∈ alphabet.roster other := by
  rw [enroll, roster_withRoster]
  by_cases hsame : other = letterCase
  · rw [if_pos hsame, Roster.mem_add, and_iff_right hsame, hsame]
  · rw [if_neg hsame, or_iff_right fun h => hsame h.1]

theorem start?_enroll : (alphabet.enroll letterCase c).start? = alphabet.start? := by
  cases letterCase with
  | upper => rfl
  | lower => rfl

/-! ## Well-formed alphabets -/

structure WellFormed (alphabet : Alphabet) : Prop where
  rosters : ∀ letterCase, (alphabet.roster letterCase).WellFormed
  cased : ∀ (letterCase : LetterCase) {c : Char}, c ∈ alphabet.roster letterCase →
    letterCase? c = some letterCase
  start : ∀ {c : Char}, alphabet.start? = some c → c ∈ alphabet.nonterminals

theorem roster_empty (letterCase : LetterCase) : (∅ : Alphabet).roster letterCase = ∅ := by
  cases letterCase with
  | upper => rfl
  | lower => rfl

theorem wellFormed_empty : (∅ : Alphabet).WellFormed where
  rosters letterCase := roster_empty letterCase ▸ Roster.wellFormed_empty
  cased letterCase _ h := absurd (roster_empty letterCase ▸ h) (Roster.not_mem_empty _)
  start h := nomatch h

namespace WellFormed

theorem nonterminals (h : alphabet.WellFormed) : alphabet.nonterminals.WellFormed :=
  h.rosters .upper

theorem terminals (h : alphabet.WellFormed) : alphabet.terminals.WellFormed :=
  h.rosters .lower

theorem uppercase (h : alphabet.WellFormed) (hmem : c ∈ alphabet.nonterminals) :
    isUppercase c = true :=
  decide_eq_true (h.cased .upper hmem)

theorem lowercase (h : alphabet.WellFormed) (hmem : c ∈ alphabet.terminals) :
    isLowercase c = true :=
  decide_eq_true (h.cased .lower hmem)

/-- A class that takes a new letter of its case stays as it should be, and so do all others. -/
theorem register (h : alphabet.WellFormed)
    (hadd : alphabet.register letterCase c = .ok extended) : extended.WellFormed := by
  rcases register_eq_ok_iff.1 hadd with ⟨hnew, hcase, rfl⟩
  refine ⟨fun other => ?_, fun other {d} hmem => ?_, fun {d} hstart => ?_⟩
  · rw [enroll, roster_withRoster]
    -- Only the class of the new symbol has another roster.
    by_cases hsame : other = letterCase
    · rw [if_pos hsame]
      exact (h.rosters letterCase).add fun hmem =>
        hnew (knows_iff_exists_roster.2 ⟨letterCase, hmem⟩)
    · rw [if_neg hsame]
      exact h.rosters other
  · rcases (mem_roster_enroll other).1 hmem with ⟨rfl, rfl⟩ | hold
    · exact hcase
    · exact h.cased other hold
  · rw [start?_enroll] at hstart
    exact (mem_roster_enroll .upper).2 (Or.inr (h.start hstart))

theorem setStart (h : alphabet.WellFormed)
    (hset : alphabet.setStart c = .ok extended) : extended.WellFormed := by
  rcases setStart_eq_ok_iff.1 hset with ⟨hmem, _, rfl⟩
  refine ⟨fun other => ?_, fun other {d} hold => ?_, ?_⟩
  · cases other with
    | upper => exact h.nonterminals
    | lower => exact h.terminals
  · cases other with
    | upper => exact h.cased .upper hold
    | lower => exact h.cased .lower hold
  · rintro d ⟨⟩
    exact hmem

theorem declare (h : alphabet.WellFormed)
    (hdeclare : alphabet.declare c = .ok extended) : extended.WellFormed := by
  rcases declare_eq_ok_cases hdeclare with ⟨_, rfl⟩ | ⟨letterCase, hadd⟩
  · exact h
  · exact h.register hadd

/-- Any letters may be declared one after the other. -/
theorem declareAll {letters : List Char} (h : alphabet.WellFormed)
    (hdeclare : letters.foldlM Alphabet.declare alphabet = .ok extended) :
    extended.WellFormed := by
  induction letters generalizing alphabet with
  | nil =>
      cases hdeclare
      exact h
  | cons c letters ih =>
      rw [List.foldlM_cons] at hdeclare
      rcases bind_eq_ok_iff.1 hdeclare with ⟨next, hnext, hrest⟩
      exact ih (h.declare hnext) hrest

end WellFormed

/-! ## Symbols that stay registered -/

def Covers (alphabet : Alphabet) : Rhs → Prop
  | .binary left right => left ∈ alphabet.nonterminals ∧ right ∈ alphabet.nonterminals
  | .terminal letter => letter ∈ alphabet.terminals

theorem missing?_eq_none_iff {rhs : Rhs} : alphabet.missing? rhs = none ↔ alphabet.Covers rhs := by
  cases rhs with
  | binary left right => simp [missing?, Covers]
  | terminal letter => simp [missing?, Covers]

structure Extends (alphabet extended : Alphabet) : Prop where
  nonterminals : ∀ {c : Char}, c ∈ alphabet.nonterminals → c ∈ extended.nonterminals
  terminals : ∀ {c : Char}, c ∈ alphabet.terminals → c ∈ extended.terminals

theorem Extends.covers {rhs : Rhs} (h : Extends alphabet extended) (hcovers : alphabet.Covers rhs) :
    extended.Covers rhs := by
  cases rhs with
  | binary left right => exact ⟨h.nonterminals hcovers.1, h.nonterminals hcovers.2⟩
  | terminal letter => exact h.terminals hcovers

theorem extends_of_register (h : alphabet.register letterCase c = .ok extended) :
    Extends alphabet extended := by
  rcases register_eq_ok_iff.1 h with ⟨_, _, rfl⟩
  exact ⟨fun hmem => (mem_roster_enroll .upper).2 (Or.inr hmem),
    fun hmem => (mem_roster_enroll .lower).2 (Or.inr hmem)⟩

theorem extends_of_setStart (h : alphabet.setStart c = .ok extended) :
    Extends alphabet extended := by
  rcases setStart_eq_ok_iff.1 h with ⟨_, _, rfl⟩
  exact ⟨id, id⟩

end Alphabet

end ChomskyNormal
