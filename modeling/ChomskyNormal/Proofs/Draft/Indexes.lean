import ChomskyNormal.Draft
import ChomskyNormal.Proofs.Grammar.Entries
import ChomskyNormal.Proofs.Success

/-!
# Indexes of a draft

Whatever is done to a draft, its two indexes and its counter say the same. They hold what was
added since the productions were cleared last, and a reset of the alphabet is no part of that.

- `Draft.Addition` : a call that asks for a production;
- `Draft.record`, `Draft.history` : the accepted calls since the last clearing;
- `Draft.Tracks` : the productions are those of some calls;
- `Draft.run_indexes_agree` : the indexes, the counter and the history after any edits.
-/

namespace ChomskyNormal.Draft

/-! ## Histories -/

structure Addition where
  head : Char
  text : String
  deriving DecidableEq, Repr

/-- The accepted calls since the last clearing, after one more edit. -/
def record (draft : Draft) (calls : List Addition) (edit : Edit) : List Addition :=
  match edit, draft.apply edit with
  | .clearProductions, _ => []
  | .addProduction head text, .ok _ => calls ++ [⟨head, text⟩]
  | _, _ => calls

def history (draft : Draft) (calls : List Addition) : List Edit → List Addition
  | [] => calls
  | edit :: later => (draft.step edit).history (draft.record calls edit) later

theorem history_concat (draft : Draft) (calls : List Addition) (edits : List Edit) (edit : Edit) :
    draft.history calls (edits ++ [edit]) =
      (draft.run edits).record (draft.history calls edits) edit := by
  induction edits generalizing draft calls with
  | nil => rfl
  | cons first later ih => exact ih (draft.step first) (draft.record calls first)

/-! ## Steps -/

def Addition.Reads (call : Addition) (entry : Char × Rhs) : Prop :=
  call.head = entry.1 ∧ Rhs.ofString? call.text = some entry.2

/-- The alternatives of a head are read from the texts of its calls. -/
theorem map_some_alternatives_of_reads {calls : List Addition} {entries : List (Char × Rhs)}
    (h : List.Forall₂ Addition.Reads calls entries) (head : Char) :
    ((Productions.ofEntries entries).alternatives head).map some =
      (calls.filter fun call => call.head = head).map fun call => Rhs.ofString? call.text := by
  rw [Productions.alternatives_ofEntries]
  induction h with
  | nil => rfl
  | @cons call entry calls entries hfirst _ ih =>
      rcases hfirst with ⟨hhead, hrhs⟩
      by_cases hsame : entry.1 = head
      · simp [hhead, hsame, hrhs, ih]
      · simp [hhead, hsame, ih]

/-- The productions hold distinct entries, one for each call and in the same order. -/
def Tracks (calls : List Addition) (productions : Productions) : Prop :=
  ∃ entries : List (Char × Rhs), entries.Nodup ∧ productions = .ofEntries entries ∧
    List.Forall₂ Addition.Reads calls entries

theorem tracks_empty : Tracks [] ∅ :=
  ⟨[], List.nodup_nil, rfl, List.Forall₂.nil⟩

namespace Tracks

variable {draft : Draft} {calls : List Addition} {productions : Productions}

theorem wellFormed (h : Tracks calls productions) : productions.WellFormed := by
  rcases h with ⟨entries, hdistinct, rfl, _⟩
  exact ⟨entries, hdistinct, rfl⟩

/-- A call that is accepted comes after all others, and so does its entry. -/
theorem add {alphabet : Alphabet} {head : Char} {text : String} {extended : Productions}
    (h : Tracks calls productions) (hadd : productions.add alphabet head text = .ok extended) :
    Tracks (calls ++ [⟨head, text⟩]) extended := by
  rcases h with ⟨entries, hdistinct, rfl, hread⟩
  rcases Productions.add_eq_ok_iff.1 hadd with ⟨rhs, hrhs, _, _, hnew, rfl⟩
  have hentry : (head, rhs) ∉ entries :=
    fun hmem => hnew (Productions.mem_alternatives_ofEntries.2 hmem)
  refine ⟨entries ++ [(head, rhs)], ?_, ?_, ?_⟩
  · rw [← List.concat_eq_append]
    exact hdistinct.concat hentry
  · exact (Productions.ofEntries_concat entries head rhs).symm
  · exact List.rel_append hread (List.Forall₂.cons ⟨rfl, hrhs⟩ List.Forall₂.nil)

/-- Only additions and clearing touch the productions, and the calls follow them. -/
theorem step (h : Tracks calls draft.productions) (edit : Edit) :
    Tracks (draft.record calls edit) (draft.step edit).productions := by
  unfold Draft.record Draft.step
  cases happly : draft.apply edit with
  | error error =>
      -- A refused edit leaves draft and calls alone; clearing is never refused.
      cases edit with
      | clearProductions => cases happly
      | _ => exact h
  | ok next =>
      cases edit with
      | addNonterminal c =>
          rcases map_eq_ok_iff.1 happly with ⟨alphabet, _, rfl⟩
          exact h
      | addTerminal c =>
          rcases map_eq_ok_iff.1 happly with ⟨alphabet, _, rfl⟩
          exact h
      | setStart c =>
          rcases map_eq_ok_iff.1 happly with ⟨alphabet, _, rfl⟩
          exact h
      | addProduction head text =>
          rcases map_eq_ok_iff.1 happly with ⟨productions, hadd, rfl⟩
          exact h.add hadd
      | resetAlphabet =>
          cases happly
          exact h
      | clearProductions =>
          cases happly
          exact tracks_empty

/-! ## Runs -/

theorem run (h : Tracks calls draft.productions) (edits : List Edit) :
    Tracks (draft.history calls edits) (draft.run edits).productions := by
  induction edits generalizing draft calls with
  | nil => exact h
  | cons edit later ih => exact ih (h.step edit)

/-- The alternatives of a head are what its calls ask for, in the order of the calls. -/
theorem alternatives_eq (h : Tracks calls productions) (head : Char) :
    (productions.alternatives head).map some =
      (calls.filter fun call => call.head = head).map fun call => Rhs.ofString? call.text := by
  rcases h with ⟨entries, _, rfl, hread⟩
  exact map_some_alternatives_of_reads hread head

end Tracks

/-- After any edits of an empty draft, accepted or not, either index can be asked for an entry, the
alternatives of a head are those that were added since the last clearing, each once and in order,
and the counter is the number of all of them. A reset of the alphabet changes nothing of this. -/
theorem run_indexes_agree (edits : List Edit) :
    (∀ head rhs, rhs ∈ (empty.run edits).productions.alternatives head ↔
      head ∈ (empty.run edits).productions.producers rhs) ∧
    (∀ head, ((empty.run edits).productions.alternatives head).map some =
      ((empty.history [] edits).filter fun call => call.head = head).map
        fun call => Rhs.ofString? call.text) ∧
    (∀ head, ((empty.run edits).productions.alternatives head).Nodup) ∧
    (empty.run edits).productions.count =
      ∑ᶠ head, ((empty.run edits).productions.alternatives head).length ∧
    ((empty.run edits).productions.isEmpty = true ↔
      ∀ head, (empty.run edits).productions.alternatives head = []) ∧
    (empty.run (edits ++ [.resetAlphabet])).productions = (empty.run edits).productions ∧
    empty.history [] (edits ++ [.resetAlphabet]) = empty.history [] edits := by
  have htracks : Tracks (empty.history [] edits) (empty.run edits).productions :=
    tracks_empty.run edits
  have hwell := htracks.wellFormed
  -- The calls give the order, and that their entries are distinct gives the rest.
  refine ⟨?_, htracks.alternatives_eq, hwell.nodup_alternatives, hwell.count_eq_finsum,
    hwell.isEmpty_iff, ?_, ?_⟩
  · intro head rhs
    exact hwell.mem_producers_iff.symm
  · rw [run, List.foldl_append]
    rfl
  · exact history_concat empty [] edits .resetAlphabet

/-- A production outlives the symbols that it was added with. -/
example : (empty.run [.addNonterminal 'A', .addTerminal 'a', .addProduction 'A' "a",
    .resetAlphabet]).productions.alternatives 'A' = [.terminal 'a'] := by
  decide +kernel

end ChomskyNormal.Draft
