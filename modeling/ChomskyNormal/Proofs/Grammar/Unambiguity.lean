import ChomskyNormal.Proofs.Grammar.Equality
import ChomskyNormal.Proofs.Grammar.Writing
import Mathlib.Tactic.TFAE

/-!
# Texts that determine the rules

Neither text of a grammar can be read in two ways. On lines of their own the rules come apart at
the ends of the lines. With nothing between them, the head of a rule stands directly after the last
letter of the rule before it. But no letter is a colon, so a colon tells that the letter before it
is a head.

- `Grammar.listing` : the heads that have right-hand sides, with these;
- `Rule.flatMap_line_inj` : rules that are written with nothing between them;
- `Grammar.Reachable.texts_unambiguous` : equality of the texts of any two grammars.
-/

namespace ChomskyNormal

/-! ## Lines -/

namespace Rule

variable {rule other : Rule} {rules others : List Rule}

theorem ofRhs_injective :
    Function.Injective fun entry : Char × List Rhs => ofRhs entry.1 entry.2 := by
  rintro ⟨head, alternatives⟩ ⟨otherHead, otherAlternatives⟩ h
  rcases Rule.mk.inj h with ⟨hhead, hletters⟩
  exact Prod.ext hhead (Rhs.letters_injective.list_map hletters)

namespace Readable

theorem eq_of_line_eq (h : rule.Readable) (hother : other.Readable)
    (hline : rule.line = other.line) : rule = other := by
  have hread : ofLine rule.line = .ok other := by
    rw [hline]
    exact hother.ofLine_line
  rw [h.ofLine_line] at hread
  exact Except.ok.inj hread

theorem colon_not_mem (h : rule.Readable) : ':' ∉ ['|'].intercalate rule.alternatives :=
  h.not_mem_body (by decide) (by decide +kernel)

theorem colon_not_mem_append_head (h : rule.Readable) {body : List Char} (hbody : ':' ∉ body) :
    ':' ∉ body ++ [rule.head] := by
  have hhead : rule.head ≠ ':' := Symbol.ne_colon_of_isSome h.isSome_symbol_head
  simp [hbody, hhead.symm]

end Readable

/-! ## Lines with nothing between them -/

/-- The alternatives end where the text ends, or one letter before the next colon. -/
theorem body_eq_of_append {body otherBody : List Char} (hbody : ':' ∉ body)
    (hother : ':' ∉ otherBody) (hrules : ∀ rule ∈ rules, rule.Readable)
    (hothers : ∀ rule ∈ others, rule.Readable)
    (h : body ++ rules.flatMap line = otherBody ++ others.flatMap line) : body = otherBody := by
  cases rules with
  | nil =>
      cases others with
      | nil => rwa [List.flatMap_nil, List.append_nil, List.append_nil] at h
      | cons next later =>
          -- A rule that follows has colons, and the text that ends has none.
          rw [List.flatMap_nil, List.append_nil] at h
          exact absurd (h ▸ by simp [line]) hbody
  | cons next later =>
      cases others with
      | nil =>
          rw [List.flatMap_nil, List.append_nil] at h
          exact absurd (h ▸ by simp [line]) hother
      | cons otherNext otherLater =>
          have hfirst : ':' ∉ body ++ [next.head] :=
            (hrules next List.mem_cons_self).colon_not_mem_append_head hbody
          have hsecond : ':' ∉ otherBody ++ [otherNext.head] :=
            (hothers otherNext List.mem_cons_self).colon_not_mem_append_head hother
          simp only [List.flatMap_cons, line, List.cons_append] at h
          rw [List.append_cons body, List.append_cons otherBody] at h
          have hfronts := ((append_separator_inj hfirst hsecond).1 h).1
          exact (List.append_inj' hfronts rfl).1

/-- Rules can be told apart with nothing between them, since each has colons after its head only. -/
theorem flatMap_line_inj (hrules : ∀ rule ∈ rules, rule.Readable)
    (hothers : ∀ rule ∈ others, rule.Readable)
    (h : rules.flatMap line = others.flatMap line) : rules = others := by
  induction rules generalizing others with
  | nil =>
      cases others with
      | nil => rfl
      | cons other others => cases h
  | cons rule rules ih =>
      cases others with
      | nil => cases h
      | cons other others =>
          rw [List.forall_mem_cons] at hrules hothers
          rw [List.flatMap_cons, List.flatMap_cons] at h
          -- The first lines agree in their marks, and so do their bodies.
          have hline : rule.line = other.line := by
            rcases List.cons.inj h with ⟨hhead, hrest⟩
            have hbodies := (List.append_right_inj [':', ':', '=']).1 hrest
            rw [line, line, hhead, body_eq_of_append hrules.1.colon_not_mem
              hothers.1.colon_not_mem hrules.2 hothers.2 hbodies]
          rw [hline] at h
          rw [hrules.1.eq_of_line_eq hothers.1 hline,
            ih hrules.2 hothers.2 (List.append_cancel_left h)]

/-- Each rule is read back from its line. -/
theorem map_line_inj (hrules : ∀ rule ∈ rules, rule.Readable)
    (hothers : ∀ rule ∈ others, rule.Readable)
    (h : rules.map line = others.map line) : rules = others := by
  have hread : ∀ {list : List Rule}, (∀ rule ∈ list, rule.Readable) →
      (list.map line).map ofLine = list.map .ok := by
    intro list hlist
    rw [List.map_map]
    exact List.map_congr_left fun rule hrule => (hlist rule hrule).ofLine_line
  have hoks : rules.map (.ok : Rule → Except RuleFault Rule) = others.map .ok := by
    rw [← hread hrules, h, hread hothers]
  exact List.map_injective_iff.2 (fun _ _ => Except.ok.inj) hoks

end Rule

/-! ## Texts -/

namespace Grammar

variable {grammar other : Grammar}

/-- The nonterminals that have right-hand sides in order of registration, each with its own. -/
def listing (grammar : Grammar) : List (Char × List Rhs) :=
  (grammar.nonterminals.filter fun head => grammar.alternatives head ≠ []).map fun head =>
    (head, grammar.alternatives head)

theorem rules_eq_iff : grammar.rules = other.rules ↔ grammar.listing = other.listing := by
  have hrules : ∀ grammar : Grammar,
      grammar.rules = grammar.listing.map fun entry => .ofRhs entry.1 entry.2 := by
    intro grammar
    rw [rules, listing, List.map_map]
    rfl
  rw [hrules, hrules]
  exact (List.map_injective_iff.2 Rule.ofRhs_injective).eq_iff

/-- Nonterminals without right-hand sides leave no trace in the text. -/
theorem toList_compactText (grammar : Grammar) :
    grammar.compactText.toList = grammar.rules.flatMap Rule.line := by
  -- Rules without alternatives are empty texts, and these may be left out.
  have hkept : (((grammar.nonterminals.map grammar.ruleText).map String.toList).filter (· ≠ [])) =
      ((grammar.nonterminals.map grammar.ruleText).filter (· ≠ "")).map String.toList := by
    rw [List.filter_map]
    refine congrArg _ (List.filter_congr fun text _ => ?_)
    exact decide_eq_decide.2 (not_congr String.toList_eq_nil_iff)
  calc
    grammar.compactText.toList
        = ((grammar.nonterminals.map grammar.ruleText).map String.toList).flatten :=
          String.toList_join
    _ = (((grammar.nonterminals.map grammar.ruleText).map String.toList).filter
          (· ≠ [])).flatten := List.flatten_filter_ne_nil.symm
    _ = grammar.rules.flatMap Rule.line := by
          rw [hkept, map_toList_ruleText]
          rfl

namespace WellFormed

/-- The text without line feeds gives back the rules. -/
theorem compactText_eq_iff (h : grammar.WellFormed) (hother : other.WellFormed) :
    grammar.compactText = other.compactText ↔ grammar.rules = other.rules := by
  rw [← String.toList_inj, toList_compactText, toList_compactText]
  constructor
  · exact Rule.flatMap_line_inj (fun _ => h.readable_rules) fun _ => hother.readable_rules
  · exact congrArg _

/-- The text with one rule on each line gives back the rules. -/
theorem text_eq_iff (h : grammar.WellFormed) (hother : other.WellFormed) :
    grammar.text = other.text ↔ grammar.rules = other.rules := by
  constructor
  · intro htext
    have hlines : grammar.rules.map Rule.line = other.rules.map Rule.line := by
      rw [← h.lines_text, htext, hother.lines_text]
    exact Rule.map_line_inj (fun _ => h.readable_rules) (fun _ => hother.readable_rules) hlines
  · intro hrules
    rw [← String.toList_inj, toList_text, toList_text, hrules]

end WellFormed

/-- Of any two grammars that sessions arrive at, the rules are the same when either text is. -/
theorem Reachable.texts_unambiguous (h : grammar.Reachable) (hother : other.Reachable) :
    List.TFAE [grammar.compactText = other.compactText, grammar.text = other.text,
      grammar.listing = other.listing] := by
  tfae_have 1 ↔ 3 := by
    rw [h.wellFormed.compactText_eq_iff hother.wellFormed, rules_eq_iff]
  tfae_have 2 ↔ 3 := by
    rw [h.wellFormed.text_eq_iff hother.wellFormed, rules_eq_iff]
  tfae_finish

/-- The rules of `atOnce` beside symbols that no rule uses, and with another start symbol. -/
def embellished : List Session.Step :=
  [.edit (.addNonterminal 'Z'), .edit (.load "B ::= AA\nA ::= a" none), .edit .reset,
    .edit (.addTerminal 'z'), .edit (.addNonterminal 'S'), .edit (.addNonterminal 'Z'),
    .edit (.addNonterminal 'A'), .edit (.addNonterminal 'B'), .edit (.addTerminal 'a'),
    .edit (.addProduction 'B' "AA"), .edit (.addProduction 'A' "a"),
    .edit (.addProduction 'S' "AB"), .edit (.addProduction 'S' "a"), .edit (.setStart 'B')]

def turned : List Session.Step :=
  [.edit (.load "S ::= a | AB\nA ::= a\nB ::= AA" none)]

/-- Symbols without rules leave no trace in a text, and the order of alternatives does. -/
theorem atOnce_texts :
    (Session.new.run atOnce).current.Reachable ∧ (Session.new.run embellished).current.Reachable ∧
      (Session.new.run turned).current.Reachable ∧
      (Session.new.run embellished).current ≠ (Session.new.run atOnce).current ∧
      (Session.new.run embellished).current.compactText = "S::=AB|aA::=aB::=AA" ∧
      (Session.new.run embellished).current.text = (Session.new.run atOnce).current.text ∧
      (Session.new.run turned).current.compactText ≠
        (Session.new.run atOnce).current.compactText := by
  have hreach : (Session.new.run atOnce).current.Reachable := ⟨atOnce, rfl⟩
  have hmore : (Session.new.run embellished).current.Reachable := ⟨embellished, rfl⟩
  have hturned : (Session.new.run turned).current.Reachable := ⟨turned, rfl⟩
  -- The rules are the same, so only the start symbols can tell the grammars apart.
  have hdiffer : (Session.new.run embellished).current ≠ (Session.new.run atOnce).current := by
    intro h
    have hstart := congrArg Grammar.start? h
    revert hstart
    decide +kernel
  have hsame : (Session.new.run embellished).current.compactText =
      (Session.new.run atOnce).current.compactText := by
    decide +kernel
  have hother : (Session.new.run turned).current.listing ≠
      (Session.new.run atOnce).current.listing := by
    decide +kernel
  have hloaded := Reachable.texts_unambiguous hmore hreach
  have halternatives := Reachable.texts_unambiguous hturned hreach
  refine ⟨hreach, hmore, hturned, hdiffer, by decide +kernel, (hloaded.out 0 1).1 hsame, ?_⟩
  exact mt (halternatives.out 0 2).1 hother

end Grammar

end ChomskyNormal
