import ChomskyNormal.Proofs.Rule.Reading
import ChomskyNormal.Proofs.Text.Joining

/-!
# Rules as lines

Every rule that could have been read can be written on a line that reads as this rule. The line
holds the head, a define mark, and the alternatives with bars between them. No blank is needed,
since no letter of either case is a blank or a mark.

- `Symbol.ofChar?_eq_none_of_isBlank` : blanks are not symbols;
- `Token.scan?_run` : letters that stand together make one token;
- `Rule.Readable` : what is known of the rules that can be read;
- `Rule.Readable.ofLine_line` : reading the line of a rule.
-/

namespace ChomskyNormal

/-! ## Letters, blanks and marks -/

/-- Each run of cased letters ends before a range of blanks, or begins after it. -/
theorem caseRuns_apart_blankRanges : ∀ run ∈ caseRuns, ∀ range ∈ blankRanges,
    run.last < range.1 ∨ range.2 < run.first := by
  decide +kernel

namespace Symbol

/-- A blank has no case, so it is no symbol. -/
theorem ofChar?_eq_none_of_isBlank {c : Char} (h : isBlank c = true) : ofChar? c = none := by
  rcases List.any_eq_true.1 h with ⟨range, hrange, hinside⟩
  rw [Bool.and_eq_true, decide_eq_true_iff, decide_eq_true_iff] at hinside
  have hcase : letterCase? c = none := by
    refine List.findSome?_eq_none_iff.2 fun run hrun => ?_
    have hapart := caseRuns_apart_blankRanges run hrun range hrange
    rw [CaseRun.case?, if_neg]
    omega
  rw [ofChar?, hcase]

variable {c : Char}

theorem ne_of_isSome {mark : Char} (h : (ofChar? c).isSome = true) (hmark : ofChar? mark = none) :
    c ≠ mark := by
  rintro rfl
  rw [hmark] at h
  cases h

theorem isBlank_of_isSome (h : (ofChar? c).isSome = true) : isBlank c = false := by
  by_contra hblank
  rw [ofChar?_eq_none_of_isBlank (Bool.not_eq_false _ ▸ hblank)] at h
  cases h

theorem ne_bar_of_isSome (h : (ofChar? c).isSome = true) : c ≠ '|' :=
  ne_of_isSome h (by decide +kernel)

theorem ne_colon_of_isSome (h : (ofChar? c).isSome = true) : c ≠ ':' :=
  ne_of_isSome h (by decide +kernel)

theorem ne_semicolon_of_isSome (h : (ofChar? c).isSome = true) : c ≠ ';' :=
  ne_of_isSome h (by decide +kernel)

theorem inRun_of_isSome (h : (ofChar? c).isSome = true) : Token.inRun c = true := by
  simp [Token.inRun, isBlank_of_isSome h, ne_bar_of_isSome h, ne_colon_of_isSome h]

end Symbol

/-! ## Scanning -/

namespace Token

theorem ne_colon_of_inRun {c : Char} (h : inRun c = true) : c ≠ ':' := by
  rintro rfl
  cases h

theorem scan?_cons_of_inRun {c : Char} (h : inRun c = true) (rest : List Char) :
    scan? (c :: rest) = (scan? rest).map (prepend c (rest.head?.any inRun)) := by
  have hcolon : c ≠ ':' := ne_colon_of_inRun h
  have hparts : isBlank c = false ∧ c ≠ '|' := by
    simp only [inRun, Bool.not_eq_true', Bool.or_eq_false_iff, beq_eq_false_iff_ne] at h
    exact h.1
  rw [scan?, if_neg hcolon, if_neg hparts.2, hparts.1, if_neg Bool.false_ne_true]
  intro later hfirst
  exact absurd hfirst hcolon

theorem prepend_false (c : Char) (tokens : List Token) :
    prepend c false tokens = .symbols [c] :: tokens := by
  unfold prepend
  split
  · rfl
  · rfl

/-- Characters of a run that stand together are one token, if nothing that follows joins them. -/
theorem scan?_run {run rest : List Char} (hsome : run ≠ []) (hrun : ∀ c ∈ run, inRun c = true)
    (hends : rest.head?.any inRun = false) :
    scan? (run ++ rest) = (scan? rest).map (.symbols run :: ·) := by
  induction run with
  | nil => exact absurd rfl hsome
  | cons c run ih =>
      rw [List.forall_mem_cons] at hrun
      rw [List.cons_append, scan?_cons_of_inRun hrun.1]
      cases run with
      | nil =>
          rw [List.nil_append, hends]
          exact congrArg (fun f => (scan? rest).map f) (funext (prepend_false c))
      | cons d run =>
          -- The character that comes next is one of the run, so there is a token to extend.
          have htouches : (d :: run ++ rest).head?.any inRun = true :=
            hrun.2 d List.mem_cons_self
          rw [ih (List.cons_ne_nil _ _) hrun.2, htouches, Option.map_map]
          rfl

theorem scan?_bar (rest : List Char) : scan? ('|' :: rest) = (scan? rest).map (.bar :: ·) := by
  rw [scan?]
  · rfl
  · intro later hfirst
    cases hfirst

/-- Runs with bars between them. -/
theorem scan?_intercalate_bar {runs : List (List Char)} (hsome : ∀ run ∈ runs, run ≠ [])
    (hruns : ∀ run ∈ runs, ∀ c ∈ run, inRun c = true) :
    scan? (['|'].intercalate runs) =
      some ([.bar].intercalate (runs.map fun run => [.symbols run])) := by
  induction runs with
  | nil => rfl
  | cons run runs ih =>
      rw [List.forall_mem_cons] at hsome hruns
      cases runs with
      | nil =>
          -- The last run has nothing after it.
          have hscan : scan? (run ++ []) = some [.symbols run] := scan?_run hsome.1 hruns.1 rfl
          rw [List.append_nil] at hscan
          rw [List.intercalate_singleton, hscan]
          rfl
      | cons next later =>
          rw [List.intercalate_cons_cons, List.append_assoc, List.singleton_append,
            scan?_run hsome.1 hruns.1 rfl, scan?_bar, ih hsome.2 hruns.2]
          rfl

end Token

/-! ## Lines of rules -/

namespace Rule

structure Readable (rule : Rule) : Prop where
  head : isUppercase rule.head = true
  some_alternative : rule.alternatives ≠ []
  some_letter : ∀ letters ∈ rule.alternatives, letters ≠ []
  cased : ∀ letters ∈ rule.alternatives, ∀ c ∈ letters, (Symbol.ofChar? c).isSome = true

def line (rule : Rule) : List Char :=
  rule.head :: ':' :: ':' :: '=' :: ['|'].intercalate rule.alternatives

def tokens (rule : Rule) : List Token :=
  .symbols [rule.head] :: .define ::
    [.bar].intercalate (rule.alternatives.map fun letters => [.symbols letters])

/-- Every rule that is read can be written on a line. -/
theorem readable_of_ofLine {line : List Char} {rule : Rule} (h : ofLine line = .ok rule) :
    rule.Readable := by
  rcases ofLine_eq_ok_iff.1 h with ⟨tokens, _, htokens⟩
  have hread := readAlternatives_eq_ok_iff.1 (ofTokens_eq_ok_iff.1 htokens).2.2
  refine ⟨head_isUppercase h, ?_, ?_, ?_⟩
  · -- There is always one piece at least, and each piece is an alternative.
    intro hnone
    rw [hnone, List.forall₂_nil_right_iff] at hread
    exact pieces_ne_nil _ _ hread
  · intro letters hletters
    rcases exists_mem_of_forall₂ hread hletters with ⟨piece, _, hpiece⟩
    exact (readAlternative_eq_ok_iff.1 hpiece).2.2.1
  · intro letters hletters c hc
    exact isSome_symbol_of_mem_alternatives h hletters hc

namespace Readable

variable {rule : Rule}

theorem isSome_symbol_head (h : rule.Readable) : (Symbol.ofChar? rule.head).isSome = true :=
  Symbol.isSome_ofChar?_iff.2 (Or.inl h.head)

theorem scan?_line (h : rule.Readable) : Token.scan? rule.line = some rule.tokens := by
  have hhead : Token.inRun rule.head = true := Symbol.inRun_of_isSome h.isSome_symbol_head
  have hruns : ∀ run ∈ rule.alternatives, ∀ c ∈ run, Token.inRun c = true :=
    fun run hrun c hc => Symbol.inRun_of_isSome (h.cased run hrun c hc)
  rw [line, Token.scan?_cons_of_inRun hhead, Token.scan?,
    Token.scan?_intercalate_bar h.some_letter hruns]
  rfl

/-- The one run of an alternative gives back its letters. -/
theorem readAlternative_symbols (h : rule.Readable) {letters : List Char}
    (hletters : letters ∈ rule.alternatives) :
    readAlternative [.symbols letters] = .ok letters := by
  refine readAlternative_eq_ok_iff.2
    ⟨by simp, ?_, h.some_letter letters hletters, h.cased letters hletters⟩
  exact (List.append_nil letters).symm

theorem ofTokens_tokens (h : rule.Readable) : ofTokens rule.tokens = .ok rule := by
  refine ofTokens_eq_ok_iff.2 ⟨readHead_eq_ok_iff.2 ⟨rfl, h.head⟩, rfl, ?_⟩
  have hpieces : pieces .bar (rule.tokens.drop 2) =
      rule.alternatives.map fun letters => [.symbols letters] := by
    refine pieces_intercalate (by simpa using h.some_alternative) ?_
    simp
  rw [readAlternatives_eq_ok_iff, hpieces, List.forall₂_map_left_iff, List.forall₂_same]
  exact fun letters hletters => h.readAlternative_symbols hletters

/-- A rule is read back from its line. -/
theorem ofLine_line (h : rule.Readable) : ofLine rule.line = .ok rule :=
  ofLine_eq_ok_iff.2 ⟨rule.tokens, h.scan?_line, h.ofTokens_tokens⟩

/-! ## Lines among lines -/

theorem isRuleLine_line (h : rule.Readable) : isRuleLine rule.line = true := by
  have hblank : isBlank rule.head = false := Symbol.isBlank_of_isSome h.isSome_symbol_head
  have hcomment : rule.head ≠ ';' := Symbol.ne_semicolon_of_isSome h.isSome_symbol_head
  rw [isRuleLine, line, List.dropWhile_cons_of_neg (by simp [hblank])]
  exact decide_eq_true hcomment

/-- Nothing but letters and bars stands behind the define mark. -/
theorem not_mem_body (h : rule.Readable) {mark : Char} (hbar : mark ≠ '|')
    (hnone : Symbol.ofChar? mark = none) : mark ∉ ['|'].intercalate rule.alternatives := by
  intro hmem
  rcases mem_of_mem_intercalate hmem with hsame | ⟨letters, hletters, hletter⟩
  · exact hbar hsame
  · exact Symbol.ne_of_isSome (h.cased letters hletters mark hletter) hnone rfl

/-- A line holds letters and marks only, so no blank, and above all no end of a line. -/
theorem not_mem_line (h : rule.Readable) {blank : Char} (hblank : isBlank blank = true) :
    blank ∉ rule.line := by
  have hnone : Symbol.ofChar? blank = none := Symbol.ofChar?_eq_none_of_isBlank hblank
  have hmark : ∀ mark, isBlank mark = false → blank ≠ mark := by
    rintro mark hmark rfl
    rw [hmark] at hblank
    cases hblank
  simp only [line, List.mem_cons, not_or]
  refine ⟨?_, hmark ':' (by decide), hmark ':' (by decide), hmark '=' (by decide), ?_⟩
  · exact (Symbol.ne_of_isSome h.isSome_symbol_head hnone).symm
  · exact h.not_mem_body (hmark '|' (by decide)) hnone

end Readable

end Rule

end ChomskyNormal
