import ChomskyNormal.Load.Grammar
import ChomskyNormal.Proofs.Grammar.Entries
import ChomskyNormal.Proofs.Grammar.Registration

/-!
# Clauses that are refused

Over an alphabet that has all their letters, clauses are refused for two reasons only. Either
reason can be told from the clauses alone: a clause has the wrong shape, or it was written before.
Whether the earlier one was refused itself makes no difference.

- `CnfShape` : two nonterminals, or one terminal;
- `Clause.offence?` : what is wrong with a clause after some earlier ones;
- `offences` : what is wrong with each of several clauses;
- `Recorded.addClauses_snd` : adding clauses reports exactly their offences.
-/

namespace ChomskyNormal

/-! ## Shapes -/

def CnfShape (letters : List Char) : Prop :=
  (∃ left right, letters = [left, right] ∧ isUppercase left = true ∧ isUppercase right = true) ∨
    ∃ letter, letters = [letter] ∧ isLowercase letter = true

/-- Letters can be read when they have the right shape. -/
theorem isSome_ofLetters?_iff {letters : List Char} :
    (Rhs.ofLetters? letters).isSome = true ↔ CnfShape letters := by
  unfold Rhs.ofLetters?
  split
  · next left right => simp [CnfShape]
  · next letter => simp [CnfShape]
  · next hpair hsingle =>
      simp only [Option.isSome_none, Bool.false_eq_true, false_iff]
      rintro (⟨left, right, rfl, _, _⟩ | ⟨letter, rfl, _⟩)
      · exact hpair left right rfl
      · exact hsingle letter rfl

theorem cnfShape_of_ofLetters? {letters : List Char} {rhs : Rhs}
    (h : Rhs.ofLetters? letters = some rhs) : CnfShape letters :=
  isSome_ofLetters?_iff.1 (Option.isSome_iff_exists.2 ⟨rhs, h⟩)

namespace CnfShape

variable {letters : List Char}

theorem exists_rhs (h : CnfShape letters) :
    ∃ rhs, Rhs.ofLetters? letters = some rhs ∧ rhs.letters = letters := by
  rcases Option.isSome_iff_exists.1 (isSome_ofLetters?_iff.2 h) with ⟨rhs, hrhs⟩
  exact ⟨rhs, hrhs, Rhs.letters_of_ofLetters? hrhs⟩

theorem ne_nil (h : CnfShape letters) : letters ≠ [] := by
  rcases h with ⟨left, right, rfl, _, _⟩ | ⟨letter, rfl, _⟩
  · exact List.cons_ne_nil _ _
  · exact List.cons_ne_nil _ _

theorem isSome_symbol (h : CnfShape letters) {c : Char} (hc : c ∈ letters) :
    (Symbol.ofChar? c).isSome = true := by
  rw [Symbol.isSome_ofChar?_iff]
  rcases h with ⟨left, right, rfl, hleft, hright⟩ | ⟨letter, rfl, hletter⟩
  · rcases List.mem_pair.1 hc with rfl | rfl
    · exact Or.inl hleft
    · exact Or.inl hright
  · exact Or.inr (List.mem_singleton.1 hc ▸ hletter)

end CnfShape

instance (letters : List Char) : Decidable (CnfShape letters) :=
  decidable_of_iff _ isSome_ofLetters?_iff

/-! ## Offences -/

namespace Clause

/-- What is wrong with a clause that comes after some others. -/
def offence? (earlier : List Clause) (clause : Clause) : Option GrammarError :=
  if CnfShape clause.letters then
    if clause ∈ earlier then
      some (.duplicateProduction clause.head (String.ofList clause.letters))
    else
      none
  else
    some (.malformedProduction (String.ofList clause.letters))

/-- The production that a clause asks for, if it has the right shape. -/
def entry? (clause : Clause) : Option (Char × Rhs) :=
  (Rhs.ofLetters? clause.letters).map fun rhs => (clause.head, rhs)

structure Registered (alphabet : Alphabet) (clause : Clause) : Prop where
  head : clause.head ∈ alphabet.nonterminals
  upper : ∀ {c : Char}, c ∈ clause.letters → isUppercase c = true → c ∈ alphabet.nonterminals
  lower : ∀ {c : Char}, c ∈ clause.letters → isLowercase c = true → c ∈ alphabet.terminals

/-- No letter of a registered clause is found missing. -/
theorem Registered.missing?_eq_none {alphabet : Alphabet} {clause : Clause} {rhs : Rhs}
    (h : clause.Registered alphabet) (hrhs : Rhs.ofLetters? clause.letters = some rhs) :
    alphabet.missing? rhs = none := by
  have hletters : rhs.letters = clause.letters := Rhs.letters_of_ofLetters? hrhs
  have hshape : CnfShape rhs.letters := hletters ▸ cnfShape_of_ofLetters? hrhs
  rw [Alphabet.missing?_eq_none_iff]
  -- The right-hand side and its letters have the same shape, so two of four cases cannot be.
  rcases hshape with ⟨left, right, heq, hleft, hright⟩ | ⟨letter, heq, hletter⟩
  · cases rhs with
    | terminal letter => cases heq
    | binary first second =>
        cases heq
        exact ⟨h.upper (hletters ▸ List.mem_cons_self) hleft,
          h.upper (hletters ▸ List.mem_cons_of_mem _ List.mem_cons_self) hright⟩
  · cases rhs with
    | binary first second => cases heq
    | terminal only =>
        cases heq
        exact h.lower (hletters ▸ List.mem_cons_self) hletter

end Clause

/-- The offences of clauses, each judged after all that are written before it. -/
def offences (earlier : List Clause) : List (Located Clause) → List LoadError
  | [] => []
  | ⟨location, clause⟩ :: later =>
      ((clause.offence? earlier).map fun error => ⟨location, .grammar error⟩).toList ++
        offences (earlier ++ [clause]) later

/-- Clauses pass without offence when they have the right shape and none comes twice. -/
theorem offences_eq_nil_iff {earlier : List Clause} {clauses : List (Located Clause)} :
    offences earlier clauses = [] ↔
      (∀ clause ∈ clauses, CnfShape clause.value.letters) ∧
        (clauses.map Located.value).Nodup ∧ ∀ clause ∈ clauses, clause.value ∉ earlier := by
  induction clauses generalizing earlier with
  | nil => simp [offences]
  | cons clause later ih =>
      rcases clause with ⟨location, clause⟩
      rw [offences, List.append_eq_nil_iff, ih]
      by_cases hshape : CnfShape clause.letters
      · by_cases hold : clause ∈ earlier
        · simp [Clause.offence?, hshape, hold]
        · simp only [Clause.offence?, hshape, hold, if_true, if_false, Option.map_none,
            Option.toList_none, true_and, List.forall_mem_cons, List.map_cons, List.nodup_cons,
            List.mem_append, List.mem_singleton, not_or, List.mem_map, not_exists, not_and,
            not_false_iff]
          -- New to all later clauses means different from each of them.
          constructor
          · rintro ⟨hshapes, hnodup, hnew⟩
            exact ⟨hshapes, ⟨fun other hmem heq => (hnew other hmem).2 heq, hnodup⟩,
              fun other hmem => (hnew other hmem).1⟩
          · rintro ⟨hshapes, ⟨hdistinct, hnodup⟩, hnew⟩
            exact ⟨hshapes, hnodup, fun other hmem => ⟨hnew other hmem, hdistinct other hmem⟩⟩
      · simp [Clause.offence?, hshape]

/-! ## Adding clauses -/

def Recorded (earlier : List Clause) (productions : Productions) : Prop :=
  ∀ ⦃clause : Clause⦄ ⦃rhs : Rhs⦄, Rhs.ofLetters? clause.letters = some rhs →
    (rhs ∈ productions.alternatives clause.head ↔ clause ∈ earlier)

theorem recorded_empty : Recorded [] ∅ := by
  intro clause rhs _
  simp

namespace Recorded

variable {earlier : List Clause} {productions : Productions} {alphabet : Alphabet}
  {clause : Clause}

/-- A clause is refused for its offence, or the production that it asks for is inserted. -/
theorem add_cases (h : Recorded earlier productions) (hregistered : clause.Registered alphabet) :
    (∃ error, clause.offence? earlier = some error ∧
      productions.add alphabet clause.head (String.ofList clause.letters) = .error error) ∨
    ∃ rhs, clause.offence? earlier = none ∧ Rhs.ofLetters? clause.letters = some rhs ∧
      productions.add alphabet clause.head (String.ofList clause.letters) =
        .ok (productions.insert clause.head rhs) := by
  rw [Productions.add, Rhs.ofString?, String.toList_ofList, Clause.offence?]
  cases hrhs : Rhs.ofLetters? clause.letters with
  | none =>
      have hshape : ¬ CnfShape clause.letters := by
        rw [← isSome_ofLetters?_iff, hrhs]
        simp
      rw [if_neg hshape]
      exact Or.inl ⟨_, rfl, rfl⟩
  | some rhs =>
      have hshape : CnfShape clause.letters := cnfShape_of_ofLetters? hrhs
      have htext : rhs.text = String.ofList clause.letters := by
        rw [Rhs.text, Rhs.letters_of_ofLetters? hrhs]
      simp only [not_not.2 hregistered.head, if_false, hregistered.missing?_eq_none hrhs,
        if_pos hshape, h hrhs, htext]
      -- The head and the letters are registered, so only a repetition can still be refused.
      by_cases hold : clause ∈ earlier
      · rw [if_pos hold, if_pos hold]
        exact Or.inl ⟨_, rfl, rfl⟩
      · rw [if_neg hold, if_neg hold]
        exact Or.inr ⟨rhs, rfl, rfl, rfl⟩

/-- A clause that is refused leaves nothing behind that later clauses could meet. -/
theorem of_offence {error : GrammarError} (h : Recorded earlier productions)
    (hoffence : clause.offence? earlier = some error) :
    Recorded (earlier ++ [clause]) productions := by
  intro other rhs hrhs
  rw [h hrhs, List.mem_append, List.mem_singleton]
  refine ⟨Or.inl, ?_⟩
  rintro (hold | rfl)
  · exact hold
  · -- The clause has a shape, so it was refused because it is there already.
    have hshape : CnfShape other.letters := cnfShape_of_ofLetters? hrhs
    by_contra hnew
    rw [Clause.offence?, if_pos hshape, if_neg hnew] at hoffence
    cases hoffence

/-- A clause that is inserted is on record with all that came before it. -/
theorem insert {rhs : Rhs} (h : Recorded earlier productions)
    (hrhs : Rhs.ofLetters? clause.letters = some rhs) :
    Recorded (earlier ++ [clause]) (productions.insert clause.head rhs) := by
  intro other item hitem
  rw [Productions.mem_alternatives_insert, h hitem, List.mem_append, List.mem_singleton]
  refine or_congr_right ?_
  constructor
  · -- A right-hand side is written in one way only.
    rintro ⟨hhead, rfl⟩
    have hletters : other.letters = clause.letters := by
      rw [← Rhs.letters_of_ofLetters? hitem, Rhs.letters_of_ofLetters? hrhs]
    cases other
    cases clause
    simp_all
  · rintro rfl
    rw [hrhs] at hitem
    cases hitem
    exact ⟨rfl, rfl⟩

/-- Adding clauses reports exactly their offences. -/
theorem addClauses_snd {clauses : List (Located Clause)} (h : Recorded earlier productions)
    (hregistered : ∀ clause ∈ clauses, clause.value.Registered alphabet) :
    (addClauses alphabet productions clauses).2 = offences earlier clauses := by
  -- Refused or not, a clause is an earlier one from then on, and `Recorded` holds again.
  induction clauses generalizing earlier productions with
  | nil => rfl
  | cons clause later ih =>
      rcases clause with ⟨location, clause⟩
      rw [List.forall_mem_cons] at hregistered
      rw [addClauses, offences]
      rcases h.add_cases hregistered.1 with ⟨error, hoffence, hadd⟩ | ⟨rhs, hoffence, hrhs, hadd⟩
      · rw [hadd, hoffence, ← ih (h.of_offence hoffence) hregistered.2]
        rfl
      · rw [hadd, hoffence, ← ih (h.insert hrhs) hregistered.2]
        rfl

/-- Clauses without offence are inserted, all of them and in their order. -/
theorem addClauses_fst {clauses : List (Located Clause)} {entries : List (Char × Rhs)}
    (h : Recorded earlier (Productions.ofEntries entries))
    (hregistered : ∀ clause ∈ clauses, clause.value.Registered alphabet)
    (hnone : offences earlier clauses = []) :
    (addClauses alphabet (Productions.ofEntries entries) clauses).1 =
      Productions.ofEntries (entries ++ (clauses.map Located.value).filterMap Clause.entry?) := by
  induction clauses generalizing earlier entries with
  | nil => simp [addClauses]
  | cons clause later ih =>
      rcases clause with ⟨location, clause⟩
      rw [List.forall_mem_cons] at hregistered
      rw [offences, List.append_eq_nil_iff] at hnone
      rw [addClauses]
      rcases h.add_cases hregistered.1 with ⟨error, hoffence, _⟩ | ⟨rhs, _, hrhs, hadd⟩
      · rw [hoffence] at hnone
        simp at hnone
      · have hentry : clause.entry? = some (clause.head, rhs) := by
          rw [Clause.entry?, hrhs, Option.map_some]
        -- What is inserted counts as an earlier entry for the clauses after it.
        have hinsert : (Productions.ofEntries entries).insert clause.head rhs =
            Productions.ofEntries (entries ++ [(clause.head, rhs)]) :=
          (Productions.ofEntries_concat entries clause.head rhs).symm
        have hnext := h.insert hrhs
        rw [hinsert] at hnext
        rw [hadd, hinsert, List.map_cons, List.filterMap_cons_some hentry]
        simp only [ih hnext hregistered.2 hnone.2, List.append_assoc, List.singleton_append]

end Recorded

end ChomskyNormal
