import ChomskyNormal.Grammar.Text
import ChomskyNormal.Proofs.Grammar.Coherence
import ChomskyNormal.Proofs.Load.Acceptance
import ChomskyNormal.Proofs.Rule.Writing

/-!
# Rules of a grammar

The text of a grammar lists one rule for each nonterminal that has alternatives, in the order in
which the nonterminals were registered. All that loading asks of rules holds of them, so they can
be read back from the lines of the text.

- `Grammar.rules` : the rules that the text lists;
- `Grammar.toList_text` : the text as the lines of these rules;
- `Grammar.WellFormed.readsAs_rules` : what the lines of the text say;
- `Grammar.WellFormed.loadable_rules` : the rules of a grammar fit together.
-/

namespace ChomskyNormal

/-! ## Text -/

theorem Rhs.letters_injective : Function.Injective Rhs.letters := by
  intro rhs other h
  cases rhs <;> cases other <;> simp_all [Rhs.letters]

def Rule.ofRhs (head : Char) (alternatives : List Rhs) : Rule :=
  ⟨head, alternatives.map Rhs.letters⟩

theorem toList_ruleText (head : Char) (alternatives : List Rhs) :
    (ruleText head alternatives).toList = (Rule.ofRhs head alternatives).line := by
  simp [ruleText, Rule.ofRhs, Rule.line, Rhs.text, Function.comp_def, toString]

namespace Grammar

def rules (grammar : Grammar) : List Rule :=
  (grammar.nonterminals.filter fun head => grammar.alternatives head ≠ []).map fun head =>
    .ofRhs head (grammar.alternatives head)

def numberedRules (grammar : Grammar) : List (Located Rule) :=
  (grammar.rules.zipIdx 1).map fun (rule, number) => ⟨⟨inMemory, some number⟩, rule⟩

theorem map_value_numberedRules (grammar : Grammar) :
    grammar.numberedRules.map Located.value = grammar.rules := by
  rw [numberedRules, List.map_map]
  exact List.zipIdx_map_fst 1 grammar.rules

variable {grammar : Grammar}

theorem ruleText_of_ne_nil {head : Char} (h : grammar.alternatives head ≠ []) :
    grammar.ruleText head = ChomskyNormal.ruleText head (grammar.alternatives head) := by
  unfold ruleText
  split
  · next hnone => exact absurd hnone h
  · rfl

theorem ruleText_ne_empty_iff {head : Char} :
    grammar.ruleText head ≠ "" ↔ grammar.alternatives head ≠ [] := by
  constructor
  · intro htext hnone
    refine htext ?_
    rw [ruleText, hnone]
  · intro hsome htext
    -- A rule has its head at least.
    have hline := toList_ruleText head (grammar.alternatives head)
    rw [← ruleText_of_ne_nil hsome, htext] at hline
    cases hline

/-- Rules without alternatives are empty texts, and all others are lines. -/
theorem map_toList_ruleText (grammar : Grammar) :
    ((grammar.nonterminals.map grammar.ruleText).filter (· ≠ "")).map String.toList =
      grammar.rules.map Rule.line := by
  have hkept : (grammar.nonterminals.map grammar.ruleText).filter (· ≠ "") =
      (grammar.nonterminals.filter fun head => grammar.alternatives head ≠ []).map
        grammar.ruleText := by
    rw [List.filter_map]
    refine congrArg _ (List.filter_congr fun head _ => ?_)
    exact decide_eq_decide.2 ruleText_ne_empty_iff
  rw [hkept, List.map_map, rules, List.map_map]
  refine List.map_congr_left fun head hhead => ?_
  have hsome : grammar.alternatives head ≠ [] := by
    simpa using (List.mem_filter.1 hhead).2
  rw [Function.comp_apply, ruleText_of_ne_nil hsome]
  exact toList_ruleText head (grammar.alternatives head)

/-- The text is the lines of the rules, with line feeds between them. -/
theorem toList_text (grammar : Grammar) :
    grammar.text.toList = ['\n'].intercalate (grammar.rules.map Rule.line) := by
  calc
    grammar.text.toList
        = ['\n'].intercalate
            (((grammar.nonterminals.map grammar.ruleText).filter (· ≠ "")).map String.toList) :=
          String.toList_intercalate
    _ = ['\n'].intercalate (grammar.rules.map Rule.line) := by rw [map_toList_ruleText]

/-! ## What the rules are like -/

/-- A symbol is used when some production has it, as its head or on its right. -/
def Uses (grammar : Grammar) (c : Char) : Prop :=
  ∃ head rhs, rhs ∈ grammar.alternatives head ∧ c ∈ head :: rhs.letters

theorem mem_rules_iff {rule : Rule} :
    rule ∈ grammar.rules ↔ ∃ head ∈ grammar.nonterminals, grammar.alternatives head ≠ [] ∧
      .ofRhs head (grammar.alternatives head) = rule := by
  simp only [rules, List.mem_map, List.mem_filter, decide_eq_true_iff, and_assoc]

/-- Rules for all alternatives of a grammar use the letters that the productions use. -/
theorem uses_iff_of_alternatives {rules : List Rule} {c : Char}
    (halternatives : ∀ head, (grammar.alternatives head).map Rhs.letters =
      (rules.filter fun rule => rule.head = head).flatMap Rule.alternatives)
    (hsome : ∀ rule ∈ rules, rule.alternatives ≠ []) :
    grammar.Uses c ↔ c ∈ rules.flatMap Rule.letters := by
  -- An alternative of a grammar is one of a rule, and the other way round.
  have hspells : ∀ head letters, (∃ rhs ∈ grammar.alternatives head, rhs.letters = letters) ↔
      ∃ rule ∈ rules, rule.head = head ∧ letters ∈ rule.alternatives := by
    intro head letters
    rw [← List.mem_map, halternatives]
    simp [and_assoc]
  rw [List.mem_flatMap]
  constructor
  · rintro ⟨head, rhs, hrhs, hc⟩
    rcases (hspells head rhs.letters).1 ⟨rhs, hrhs, rfl⟩ with ⟨rule, hrule, rfl, hletters⟩
    refine ⟨rule, hrule, ?_⟩
    rcases List.mem_cons.1 hc with hhead | hc
    · exact hhead ▸ List.mem_cons_self
    · exact List.mem_cons_of_mem _ (List.mem_flatten.2 ⟨rhs.letters, hletters, hc⟩)
  · rintro ⟨rule, hrule, hc⟩
    have hletters : ∃ letters ∈ rule.alternatives, c ∈ rule.head :: letters := by
      rcases List.mem_cons.1 hc with hhead | hc
      · -- The head is used with any of its alternatives, and there is one.
        rcases List.exists_mem_of_ne_nil _ (hsome rule hrule) with ⟨letters, hletters⟩
        exact ⟨letters, hletters, hhead ▸ List.mem_cons_self⟩
      · rcases List.mem_flatten.1 hc with ⟨letters, hletters, hc⟩
        exact ⟨letters, hletters, List.mem_cons_of_mem _ hc⟩
    rcases hletters with ⟨letters, hletters, hc⟩
    rcases (hspells rule.head letters).2 ⟨rule, hrule, rfl, hletters⟩ with ⟨rhs, hrhs, rfl⟩
    exact ⟨rule.head, rhs, hrhs, hc⟩

namespace WellFormed

/-- Registered symbols have the case of their class, so alternatives have the right shape. -/
theorem cnfShape_letters (h : grammar.WellFormed) {head : Char} {rhs : Rhs}
    (hmem : rhs ∈ grammar.alternatives head) : CnfShape rhs.letters := by
  have hcovers := h.covers hmem
  cases rhs with
  | binary left right =>
      rcases hcovers with ⟨hleft, hright⟩
      exact Or.inl ⟨left, right, rfl, h.alphabet.uppercase hleft, h.alphabet.uppercase hright⟩
  | terminal letter => exact Or.inr ⟨letter, rfl, h.alphabet.lowercase hcovers⟩

theorem shaped_rules (h : grammar.WellFormed) {rule : Rule} (hrule : rule ∈ grammar.rules) :
    ∀ letters ∈ rule.alternatives, CnfShape letters := by
  rcases mem_rules_iff.1 hrule with ⟨head, _, _, rfl⟩
  intro letters hletters
  rcases List.mem_map.1 hletters with ⟨rhs, hrhs, rfl⟩
  exact h.cnfShape_letters hrhs

/-- The rules of a well-formed grammar can all be written on lines and read back. -/
theorem readable_rules (h : grammar.WellFormed) {rule : Rule} (hrule : rule ∈ grammar.rules) :
    rule.Readable := by
  have hshaped := h.shaped_rules hrule
  rcases mem_rules_iff.1 hrule with ⟨head, hhead, hsome, rfl⟩
  refine ⟨?_, ?_, ?_, ?_⟩
  · exact h.alphabet.uppercase (h.mem_nonterminals_iff.1 hhead)
  · simpa [Rule.ofRhs] using hsome
  · exact fun letters hletters => (hshaped letters hletters).ne_nil
  · exact fun letters hletters c hc => (hshaped letters hletters).isSome_symbol hc

/-! ## Reading the rules back -/

/-- No rule has a line feed or an empty line, so the lines of the text are those of the rules. -/
theorem lines_text (h : grammar.WellFormed) :
    lines .chars grammar.text.toList = grammar.rules.map Rule.line := by
  have hblank : ∀ {mark : Char}, isBlank mark = true →
      ∀ line ∈ grammar.rules.map Rule.line, mark ∉ line := by
    intro mark hmark line hline
    rcases List.mem_map.1 hline with ⟨rule, hrule, rfl⟩
    exact (h.readable_rules hrule).not_mem_line hmark
  -- The ends of lines are blanks, so no rule holds one.
  rw [toList_text]
  refine lines_intercalate ?_ (hblank (by decide)) (hblank (by decide))
  intro line hline
  rcases List.mem_map.1 hline with ⟨rule, _, rfl⟩
  exact List.cons_ne_nil _ _

/-- No line of the text is passed over, and each says its rule. -/
theorem readsAs_rules (h : grammar.WellFormed) :
    List.Forall₂ ReadsAs (ruleLines grammar.text) grammar.numberedRules := by
  have hlines : ruleLines grammar.text =
      (grammar.rules.zipIdx 1).map fun (rule, number) => (rule.line, number) := by
    rw [ruleLines, h.lines_text, List.zipIdx_map]
    refine List.filter_eq_self.2 fun line hline => ?_
    rcases List.mem_map.1 hline with ⟨⟨rule, number⟩, hmem, rfl⟩
    exact (h.readable_rules (List.fst_mem_of_mem_zipIdx hmem)).isRuleLine_line
  rw [hlines, numberedRules, List.forall₂_map_left_iff, List.forall₂_map_right_iff,
    List.forall₂_same]
  rintro ⟨rule, number⟩ hmem
  exact ⟨(h.readable_rules (List.fst_mem_of_mem_zipIdx hmem)).ofLine_line, rfl⟩

/-! ## Rules that fit together -/

/-- Each head has one rule, with all its alternatives. -/
theorem flatMap_alternatives_rules (h : grammar.WellFormed) (head : Char) :
    (grammar.rules.filter fun rule => rule.head = head).flatMap Rule.alternatives =
      (grammar.alternatives head).map Rhs.letters := by
  have hheads : (grammar.rules.filter fun rule => rule.head = head) =
      ((grammar.nonterminals.filter fun other => other = head).filter fun other =>
        grammar.alternatives other ≠ []).map fun other =>
          .ofRhs other (grammar.alternatives other) := by
    rw [rules, List.filter_map, List.filter_filter, List.filter_filter]
    refine congrArg _ (List.filter_congr fun other _ => ?_)
    exact Bool.and_comm _ _
  -- The list of nonterminals holds the head once, if it holds it at all.
  rw [hheads, List.filter_eq]
  by_cases hsome : grammar.alternatives head = []
  · simp [hsome]
  · have hmem : head ∈ grammar.nonterminals := by
      rcases List.exists_mem_of_ne_nil _ hsome with ⟨rhs, hrhs⟩
      exact h.mem_nonterminals_iff.2 (h.head_mem hrhs)
    rw [List.count_eq_one_of_mem h.coherent.nodup_nonterminals hmem]
    simp [hsome, Rule.ofRhs]

theorem nodup_clauses_rules (h : grammar.WellFormed) :
    (grammar.rules.flatMap Rule.clauses).Nodup := by
  rw [List.nodup_flatMap]
  constructor
  · intro rule hrule
    rcases mem_rules_iff.1 hrule with ⟨head, _, _, rfl⟩
    have hletters := (h.productions.nodup_alternatives head).map Rhs.letters_injective
    exact hletters.map fun letters others heq => (Clause.mk.inj heq).2
  · -- Clauses of different rules have different heads.
    have hheads : (grammar.nonterminals.filter fun head => grammar.alternatives head ≠ []).Nodup :=
      h.coherent.nodup_nonterminals.filter _
    rw [rules, List.pairwise_map]
    refine hheads.imp fun {head other} hne clause hclause hother => hne ?_
    rw [Rule.mem_clauses_iff] at hclause hother
    exact hclause.1.symm.trans hother.1

theorem mem_letters_rules_iff (h : grammar.WellFormed) {c : Char} :
    c ∈ grammar.rules.flatMap Rule.letters ↔ grammar.Uses c :=
  (uses_iff_of_alternatives (fun head => (h.flatMap_alternatives_rules head).symm)
    fun _ hrule => (h.readable_rules hrule).some_alternative).symm

/-- Any nonterminal that is used will do as the start symbol. -/
theorem loadable_rules (h : grammar.WellFormed) {start : Char}
    (hstart : start ∈ grammar.nonterminals) (huses : grammar.Uses start) :
    Loadable (some start) grammar.rules where
  nonempty := by
    have hletter := h.mem_letters_rules_iff.2 huses
    intro hnone
    rw [hnone] at hletter
    cases hletter
  shaped _ hrule := h.shaped_rules hrule
  distinct := h.nodup_clauses_rules
  start := by
    rintro _ ⟨⟩
    exact ⟨h.alphabet.uppercase (h.mem_nonterminals_iff.1 hstart), h.mem_letters_rules_iff.2 huses⟩

end WellFormed

end Grammar

end ChomskyNormal
