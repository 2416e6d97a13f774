import ChomskyNormal.Proofs.Grammar.WellFormed

/-!
# Additions

As long as a grammar is not replaced as a whole, it only grows. Symbols and alternatives are put
after those that are there already, and the start symbol is chosen once.

- `Edit.isAddition` : the edits that do not replace the grammar;
- `Grammar.Grows` : lists go on where they ended, and a start symbol stays;
- `Session.grows_run` : what any additions leave in place, refused ones included;
- `Session.productions_run` : the productions stay the same where all new ones are refused.
-/

namespace ChomskyNormal

/-- Whether an edit adds to the grammar, or tries to, rather than replace it. -/
def Edit.isAddition : Edit → Bool
  | .addNonterminal _ | .addTerminal _ | .setStart _ | .addProduction _ _ => true
  | .reset | .load _ _ => false

/-! ## Growth -/

structure Grammar.Grows (grammar grown : Grammar) : Prop where
  nonterminals : grammar.nonterminals <+: grown.nonterminals
  terminals : grammar.terminals <+: grown.terminals
  alternatives : ∀ head, grammar.alternatives head <+: grown.alternatives head
  start : ∀ c, grammar.start? = some c → grown.start? = some c

/-- An insertion leaves every list as it was, up to one item at the end. -/
theorem Productions.alternatives_prefix_insert (productions : Productions) (head other : Char)
    (rhs : Rhs) :
    productions.alternatives other <+: (productions.insert head rhs).alternatives other := by
  rw [alternatives_insert]
  split
  · next hsame =>
      subst hsame
      exact List.prefix_append _ _
  · exact List.prefix_refl _

namespace Grammar.Grows

variable {grammar middle grown : Grammar}

theorem refl (grammar : Grammar) : grammar.Grows grammar where
  nonterminals := List.prefix_refl _
  terminals := List.prefix_refl _
  alternatives _ := List.prefix_refl _
  start _ h := h

theorem trans (h : grammar.Grows middle) (h' : middle.Grows grown) : grammar.Grows grown where
  nonterminals := h.nonterminals.trans h'.nonterminals
  terminals := h.terminals.trans h'.terminals
  alternatives head := (h.alternatives head).trans (h'.alternatives head)
  start c hc := h'.start c (h.start c hc)

theorem register {letterCase : LetterCase} {c : Char} {alphabet : Alphabet}
    (hadd : grammar.alphabet.register letterCase c = .ok alphabet) :
    grammar.Grows { grammar with alphabet } := by
  have hsame := refl grammar
  rcases Alphabet.register_eq_ok_iff.1 hadd with ⟨_, _, rfl⟩
  cases letterCase with
  | upper => exact ⟨List.prefix_append _ _, hsame.terminals, hsame.alternatives, hsame.start⟩
  | lower => exact ⟨hsame.nonterminals, List.prefix_append _ _, hsame.alternatives, hsame.start⟩

/-- An addition that is carried out puts what is new after all that was there. -/
theorem apply {edit : Edit} (hadds : edit.isAddition = true)
    (happly : grammar.apply edit = .ok grown) : grammar.Grows grown := by
  have hsame := refl grammar
  cases edit with
  | addNonterminal c =>
      rcases map_eq_ok_iff.1 (mapError_eq_ok_iff.1 happly) with ⟨alphabet, hadd, rfl⟩
      exact register hadd
  | addTerminal c =>
      rcases map_eq_ok_iff.1 (mapError_eq_ok_iff.1 happly) with ⟨alphabet, hadd, rfl⟩
      exact register hadd
  | setStart c =>
      rcases map_eq_ok_iff.1 (mapError_eq_ok_iff.1 happly) with ⟨alphabet, hset, rfl⟩
      rcases Alphabet.setStart_eq_ok_iff.1 hset with ⟨_, hnone, rfl⟩
      -- A start symbol is only chosen where there was none.
      refine ⟨hsame.nonterminals, hsame.terminals, hsame.alternatives, ?_⟩
      intro other hother
      rw [start?, hnone] at hother
      cases hother
  | addProduction head text =>
      rcases map_eq_ok_iff.1 (mapError_eq_ok_iff.1 happly) with ⟨productions, hadd, rfl⟩
      rcases Productions.add_eq_ok_iff.1 hadd with ⟨rhs, _, _, _, _, rfl⟩
      exact ⟨hsame.nonterminals, hsame.terminals,
        fun other => Productions.alternatives_prefix_insert _ head other rhs, hsame.start⟩
  | reset => cases hadds
  | load text start? => cases hadds

end Grammar.Grows

/-- The only additions that change the productions are those of productions. -/
theorem Grammar.productions_of_apply {grammar next : Grammar} {edit : Edit}
    (hadds : edit.isAddition = true) (hother : ∀ head text, edit ≠ .addProduction head text)
    (happly : grammar.apply edit = .ok next) : next.productions = grammar.productions := by
  cases edit with
  | addNonterminal c =>
      rcases map_eq_ok_iff.1 (mapError_eq_ok_iff.1 happly) with ⟨alphabet, _, rfl⟩
      rfl
  | addTerminal c =>
      rcases map_eq_ok_iff.1 (mapError_eq_ok_iff.1 happly) with ⟨alphabet, _, rfl⟩
      rfl
  | setStart c =>
      rcases map_eq_ok_iff.1 (mapError_eq_ok_iff.1 happly) with ⟨alphabet, _, rfl⟩
      rfl
  | addProduction head text => exact absurd rfl (hother head text)
  | reset => cases hadds
  | load text start? => cases hadds

/-! ## Runs of edits -/

namespace Session

variable {session : Session} {edits : List Edit}

/-- What every edit that is carried out preserves holds after all edits. -/
theorem run_edits {motive : Grammar → Prop}
    (hstep : ∀ edit ∈ edits, ∀ ⦃grammar next⦄, motive grammar → grammar.apply edit = .ok next →
      motive next)
    (h : motive session.current) : motive (session.run (edits.map .edit)).current := by
  induction edits generalizing session with
  | nil => exact h
  | cons edit later ih =>
      rw [List.forall_mem_cons] at hstep
      refine ih hstep.2 ?_
      -- A refused edit leaves the session as it was.
      cases happly : session.current.apply edit with
      | ok next =>
          rw [step_edit_of_ok happly]
          exact hstep.1 h happly
      | error error =>
          rw [step_edit_of_error happly]
          exact h

theorem wellFormed_run_edits (edits : List Edit) (h : session.current.WellFormed) :
    (session.run (edits.map .edit)).current.WellFormed :=
  run_edits (fun _ _ _ _ hgrammar happly => hgrammar.apply happly) h

/-- Any additions, refused ones included, leave in place what was there. -/
theorem grows_run (session : Session) (hadds : ∀ edit ∈ edits, edit.isAddition = true) :
    session.current.Grows (session.run (edits.map .edit)).current :=
  run_edits (fun edit hedit _ _ hgrown happly => hgrown.trans (.apply (hadds edit hedit) happly))
    (.refl _)

/-- None of the edits adds a production, since those that would are refused when it is their
turn. -/
def RefusesProductions (session : Session) : List Edit → Prop
  | [] => True
  | edit :: later =>
      (∀ head text, edit = .addProduction head text →
        ∃ error, session.current.apply edit = .error error) ∧
      (session.step (.edit edit)).RefusesProductions later

/-- The productions stay as they were where all that ask for new ones are refused. -/
theorem productions_run (hadds : ∀ edit ∈ edits, edit.isAddition = true)
    (hrefused : session.RefusesProductions edits) :
    (session.run (edits.map .edit)).current.productions = session.current.productions := by
  induction edits generalizing session with
  | nil => rfl
  | cons edit later ih =>
      rw [List.forall_mem_cons] at hadds
      rcases hrefused with ⟨hrefused, hlater⟩
      -- Either the edit asks for no production, or it is refused and changes nothing at all.
      have hstep : (session.step (.edit edit)).current.productions =
          session.current.productions := by
        cases happly : session.current.apply edit with
        | ok next =>
            rw [step_edit_of_ok happly]
            refine Grammar.productions_of_apply hadds.1 ?_ happly
            intro head text hproduction
            rcases hrefused head text hproduction with ⟨error, herror⟩
            rw [happly] at herror
            cases herror
        | error error => rw [step_edit_of_error happly]
      exact (ih hadds.2 hlater).trans hstep

end Session

end ChomskyNormal
