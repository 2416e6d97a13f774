import ChomskyNormal.Proofs.Grammar.WellFormed
import ChomskyNormal.Proofs.Grammar.Writing
import ChomskyNormal.Proofs.Load.Declaration

/-!
# All well-formed grammars

The invariant of editing sessions says all there is to say: a session can arrive at any well-formed
grammar. It registers the nonterminals and the terminals, chooses the start symbol and adds the
productions, each in the order that the grammar has them. So whatever holds of the grammars that
sessions arrive at holds of a grammar that was read from a file, too.

- `Grammar.Reachable.apply` : one more edit;
- `Grammar.reachable_iff_wellFormed` : the invariant is exact.
-/

namespace ChomskyNormal

/-- A well-formed roster is known by its list. -/
theorem Roster.WellFormed.eq_ofList {roster : Roster} (h : roster.WellFormed) :
    roster = .ofList roster.order := by
  have hmembers : roster.members = Std.ExtTreeSet.ofList roster.order := by
    refine Std.ExtTreeSet.ext_mem fun c => ?_
    exact h.mem_order_iff.symm.trans mem_ofList.symm
  calc
    roster = ⟨roster.order, roster.members⟩ := rfl
    _ = .ofList roster.order := by rw [hmembers, ofList]

/-- The text of a right-hand side of the right shape reads as this right-hand side. -/
theorem Rhs.ofString?_text {rhs : Rhs} (h : CnfShape rhs.letters) :
    Rhs.ofString? rhs.text = some rhs := by
  rcases h.exists_rhs with ⟨other, hother, hletters⟩
  rw [ofString?, text, String.toList_ofList, hother, letters_injective hletters]

namespace Grammar

namespace Reachable

theorem apply {grammar next : Grammar} (h : grammar.Reachable) (edit : Edit)
    (happly : grammar.apply edit = .ok next) : next.Reachable := by
  rcases h with ⟨steps, rfl⟩
  refine ⟨steps ++ [.edit edit], ?_⟩
  calc
    (Session.new.run (steps ++ [.edit edit])).current
        = ((Session.new.run steps).step (.edit edit)).current := by
          rw [Session.run, List.foldl_append]
          rfl
    _ = next := by rw [Session.step_edit_of_ok happly]

/-! ## Registering and adding -/

variable {alphabet extended : Alphabet} {nonterminals terminals : Roster} {symbols : List Char}
  {letterCase : LetterCase} {c : Char}

theorem empty : Reachable ∅ :=
  ⟨[], rfl⟩

theorem register (h : Reachable ⟨alphabet, ∅⟩)
    (hadd : alphabet.register letterCase c = .ok extended) : Reachable ⟨extended, ∅⟩ := by
  cases letterCase with
  | upper =>
      exact h.apply (.addNonterminal c)
        (mapError_eq_ok_iff.2 (map_eq_ok_iff.2 ⟨_, hadd, rfl⟩))
  | lower =>
      exact h.apply (.addTerminal c)
        (mapError_eq_ok_iff.2 (map_eq_ok_iff.2 ⟨_, hadd, rfl⟩))

/-- A class that is empty so far can take any new symbols of its case. -/
theorem registerAll (h : Reachable ⟨alphabet, ∅⟩) (letterCase : LetterCase)
    (hempty : alphabet.roster letterCase = ∅) (hdistinct : symbols.Nodup)
    (hcase : ∀ c ∈ symbols, letterCase? c = some letterCase)
    (hnew : ∀ c ∈ symbols, ¬ alphabet.Knows c) :
    Reachable ⟨alphabet.withRoster (.ofList symbols) letterCase, ∅⟩ := by
  -- Symbols are registered at the end, so the induction takes them off the end.
  induction symbols using List.reverseRecOn with
  | nil =>
      have hsame : alphabet.withRoster (.ofList []) letterCase = alphabet :=
        Alphabet.withRoster_eq_self hempty
      rwa [hsame]
  | append_singleton symbols c ih =>
      rw [← List.concat_eq_append, List.nodup_concat] at hdistinct
      rw [List.forall_mem_append, List.forall_mem_singleton] at hcase hnew
      refine (ih hdistinct.2 hcase.1 hnew.1).register
        (Alphabet.register_eq_ok_iff.2 ⟨?_, hcase.2, ?_⟩)
      · rw [Alphabet.knows_iff_exists_roster]
        rintro ⟨other, hmem⟩
        rw [Alphabet.roster_withRoster] at hmem
        split at hmem
        · exact hdistinct.1 (Roster.mem_ofList.1 hmem)
        · exact hnew.2 (Alphabet.knows_iff_exists_roster.2 ⟨other, hmem⟩)
      · rw [Alphabet.enroll, Alphabet.roster_withRoster, if_pos rfl, Roster.add_ofList,
          Alphabet.withRoster_withRoster]

theorem withStart {start? : Option Char} (h : Reachable ⟨⟨nonterminals, terminals, none⟩, ∅⟩)
    (hstart : ∀ c, start? = some c → c ∈ nonterminals) :
    Reachable ⟨⟨nonterminals, terminals, start?⟩, ∅⟩ := by
  cases start? with
  | none => exact h
  | some start =>
      have hset : Alphabet.setStart ⟨nonterminals, terminals, none⟩ start =
          .ok ⟨nonterminals, terminals, some start⟩ :=
        Alphabet.setStart_eq_ok_iff.2 ⟨hstart start rfl, rfl, rfl⟩
      exact h.apply (.setStart start) (mapError_eq_ok_iff.2 (map_eq_ok_iff.2 ⟨_, hset, rfl⟩))

/-- Productions over the alphabet can be added one after the other. -/
theorem withEntries {entries : List (Char × Rhs)} (h : Reachable ⟨alphabet, ∅⟩)
    (hdistinct : entries.Nodup) (hshaped : ∀ entry ∈ entries, CnfShape entry.2.letters)
    (hcovers : ∀ entry ∈ entries, entry.1 ∈ alphabet.nonterminals ∧ alphabet.Covers entry.2) :
    Reachable ⟨alphabet, .ofEntries entries⟩ := by
  -- A production is added after all others, so the induction takes entries off the end.
  induction entries using List.reverseRecOn with
  | nil => exact h
  | append_singleton entries entry ih =>
      rw [← List.concat_eq_append, List.nodup_concat] at hdistinct
      rw [List.forall_mem_append, List.forall_mem_singleton] at hshaped hcovers
      rcases entry with ⟨head, rhs⟩
      have hnew : rhs ∉ (Productions.ofEntries entries).alternatives head :=
        fun hold => hdistinct.1 (Productions.mem_alternatives_ofEntries.1 hold)
      have hadd : (Productions.ofEntries entries).add alphabet head rhs.text =
          .ok (.ofEntries (entries ++ [(head, rhs)])) :=
        Productions.add_eq_ok_iff.2 ⟨rhs, Rhs.ofString?_text hshaped.2, hcovers.2.1,
          Alphabet.missing?_eq_none_iff.2 hcovers.2.2, hnew, Productions.ofEntries_concat _ _ _⟩
      exact (ih hdistinct.2 hshaped.1 hcovers.1).apply (.addProduction head rhs.text)
        (mapError_eq_ok_iff.2 (map_eq_ok_iff.2 ⟨_, hadd, rfl⟩))

end Reachable

/-! ## All edits together -/

/-- A session can build the grammar, first its symbols and then its productions. -/
theorem WellFormed.reachable {grammar : Grammar} (h : grammar.WellFormed) : grammar.Reachable := by
  -- Productions come last, since they may use any symbol.
  have hnonterminals : Reachable ⟨⟨grammar.alphabet.nonterminals, ∅, none⟩, ∅⟩ := by
    rw [h.alphabet.nonterminals.eq_ofList]
    refine Reachable.empty.registerAll .upper rfl h.coherent.nodup_nonterminals ?_ ?_
    · exact fun c hc => h.alphabet.cased .upper (h.mem_nonterminals_iff.1 hc)
    · exact fun c _ => not_or_intro (Roster.not_mem_empty c) (Roster.not_mem_empty c)
  have hterminals :
      Reachable ⟨⟨grammar.alphabet.nonterminals, grammar.alphabet.terminals, none⟩, ∅⟩ := by
    rw [h.alphabet.terminals.eq_ofList]
    refine hnonterminals.registerAll .lower rfl h.coherent.nodup_terminals ?_ ?_
    · exact fun c hc => h.alphabet.cased .lower (h.mem_terminals_iff.1 hc)
    · refine fun c hterminal => not_or_intro ?_ (Roster.not_mem_empty c)
      exact fun hnonterminal => h.disjoint (h.mem_nonterminals_iff.2 hnonterminal) hterminal
  have halphabet : Reachable ⟨grammar.alphabet, ∅⟩ :=
    hterminals.withStart fun c hc => h.alphabet.start hc
  rcases h.productions with ⟨entries, hdistinct, hentries⟩
  have hmem : ∀ entry ∈ entries, entry.2 ∈ grammar.productions.alternatives entry.1 := by
    intro entry hentry
    rw [hentries]
    exact Productions.mem_alternatives_ofEntries.2 hentry
  have hall : Reachable ⟨grammar.alphabet, .ofEntries entries⟩ := by
    refine halphabet.withEntries hdistinct ?_ ?_
    · exact fun entry hentry => h.cnfShape_letters (hmem entry hentry)
    · exact fun entry hentry => ⟨h.head_mem (hmem entry hentry), h.covers (hmem entry hentry)⟩
  rw [← hentries] at hall
  exact hall

/-- Sessions arrive at all grammars that are well-formed, and at no others. -/
theorem reachable_iff_wellFormed {grammar : Grammar} :
    grammar.Reachable ↔ grammar.WellFormed :=
  ⟨Reachable.wellFormed, WellFormed.reachable⟩

end Grammar

end ChomskyNormal
