import ChomskyNormal.Load.Grammar
import ChomskyNormal.Proofs.Grammar.Registration
import Mathlib.Data.List.Induction

/-!
# Declared letters

Declaring letters one after the other leaves, in each class, the letters of its case in the order
of first appearance. Nothing goes wrong as long as every letter has a case.

- `Alphabet.ofLetters` : the alphabet that a list of letters leaves;
- `Alphabet.declare_ofLetters` : what one more letter does to it;
- `Alphabet.declareAll_eq_ofLetters` : what all letters do to the empty alphabet.
-/

namespace ChomskyNormal

/-! ## First appearances -/

/-- One more letter shows up in the class of its case, unless it has appeared before. -/
theorem eraseDups_filter_concat (hasCase : Char → Bool) (letters : List Char) (c : Char) :
    ((letters ++ [c]).filter hasCase).eraseDups =
      if hasCase c = true ∧ c ∉ letters then (letters.filter hasCase).eraseDups ++ [c]
      else (letters.filter hasCase).eraseDups := by
  by_cases hcase : hasCase c = true
  · by_cases hold : c ∈ letters
    · simp [List.filter_append, hcase, hold, List.eraseDups_append, List.removeAll]
    · simp [List.filter_append, hcase, hold, List.eraseDups_append, List.removeAll,
        List.eraseDups_cons]
  · simp [List.filter_append, hcase]

/-! ## The alphabet of some letters -/

def Roster.ofList (symbols : List Char) : Roster where
  order := symbols
  members := .ofList symbols

@[simp] theorem Roster.mem_ofList {symbols : List Char} {c : Char} :
    c ∈ Roster.ofList symbols ↔ c ∈ symbols := by
  change c ∈ Std.ExtTreeSet.ofList symbols ↔ _
  rw [Std.ExtTreeSet.mem_ofList, List.contains_iff_mem]

theorem Roster.add_ofList (symbols : List Char) (c : Char) :
    (Roster.ofList symbols).add c = Roster.ofList (symbols ++ [c]) := by
  have hmembers : (Std.ExtTreeSet.ofList symbols).insert c =
      Std.ExtTreeSet.ofList (symbols ++ [c]) := by
    refine Std.ExtTreeSet.ext_mem fun d => ?_
    rw [Std.ExtTreeSet.mem_insert, Std.ExtTreeSet.mem_ofList, Std.ExtTreeSet.mem_ofList,
      List.contains_iff_mem, List.contains_iff_mem, List.mem_append, List.mem_singleton,
      Std.compare_eq_iff_eq, or_comm, eq_comm]
  simp only [Roster.add, Roster.ofList, hmembers]

namespace Alphabet

def ofLetters (letters : List Char) : Alphabet where
  nonterminals := .ofList (letters.filter isUppercase).eraseDups
  terminals := .ofList (letters.filter isLowercase).eraseDups
  start? := none

variable {letters : List Char} {c : Char}

@[simp] theorem mem_nonterminals_ofLetters :
    c ∈ (ofLetters letters).nonterminals ↔ c ∈ letters ∧ isUppercase c = true := by
  rw [ofLetters, Roster.mem_ofList, List.mem_eraseDups, List.mem_filter]

@[simp] theorem mem_terminals_ofLetters :
    c ∈ (ofLetters letters).terminals ↔ c ∈ letters ∧ isLowercase c = true := by
  rw [ofLetters, Roster.mem_ofList, List.mem_eraseDups, List.mem_filter]

theorem knows_ofLetters_iff (h : (Symbol.ofChar? c).isSome = true) :
    (ofLetters letters).Knows c ↔ c ∈ letters := by
  rw [Knows, mem_nonterminals_ofLetters, mem_terminals_ofLetters, ← and_or_left]
  exact and_iff_left (Symbol.isSome_ofChar?_iff.1 h)

/-- A known letter leaves the alphabet alone, and a new one comes last in its class. -/
theorem declare_ofLetters (h : (Symbol.ofChar? c).isSome = true) :
    (ofLetters letters).declare c = .ok (ofLetters (letters ++ [c])) := by
  by_cases hold : c ∈ letters
  · have hknown : (ofLetters letters).Knows c := (knows_ofLetters_iff h).2 hold
    have hsame : ofLetters (letters ++ [c]) = ofLetters letters := by
      simp only [ofLetters, eraseDups_filter_concat, hold, not_true, and_false, if_false]
    rw [declare, if_pos hknown, hsame]
  · have hnew : ¬ (ofLetters letters).Knows c := by
      rw [knows_ofLetters_iff h]
      exact hold
    rcases exists_letterCase_iff.2 (Symbol.isSome_ofChar?_iff.1 h) with ⟨letterCase, hcase⟩
    rw [declare_eq_register hnew hcase, register_eq_ok_iff]
    refine ⟨hnew, hcase, ?_⟩
    -- A letter of one case does not come up in the other class.
    cases letterCase with
    | upper =>
        simp [-List.filter_append, enroll, withRoster, roster, ofLetters, Roster.add_ofList,
          eraseDups_filter_concat, hold, isUppercase, isLowercase, hcase]
    | lower =>
        simp [-List.filter_append, enroll, withRoster, roster, ofLetters, Roster.add_ofList,
          eraseDups_filter_concat, hold, isUppercase, isLowercase, hcase]

/-- Letters that all have a case are declared without fail, whatever their order. -/
theorem declareAll_eq_ofLetters (h : ∀ c ∈ letters, (Symbol.ofChar? c).isSome = true) :
    letters.foldlM declare ∅ = .ok (ofLetters letters) := by
  -- The letters declared so far are a prefix, so the induction takes letters off the end.
  induction letters using List.reverseRecOn with
  | nil => rfl
  | append_singleton letters c ih =>
      have hletters : ∀ d ∈ letters, (Symbol.ofChar? d).isSome = true :=
        fun d hd => h d (List.mem_append_left _ hd)
      have hc : (Symbol.ofChar? c).isSome = true := h c (by simp)
      rw [List.foldlM_append, ih hletters]
      refine bind_eq_ok_iff.2 ⟨_, rfl, ?_⟩
      rw [List.foldlM_cons]
      exact bind_eq_ok_iff.2 ⟨_, declare_ofLetters hc, rfl⟩

end Alphabet

end ChomskyNormal
