import ChomskyNormal.Load.Rules
import ChomskyNormal.Proofs.Success

/-!
# Rules that were read

What is known of a rule once its line was accepted, and which fault cannot come up for a line
that has to be a rule.

- `Rule.ofTokens_eq_ok_iff` : the tokens of an accepted line;
- `Rule.head_isUppercase`, `Rule.isSome_symbol_of_mem_letters` : its letters have a case;
- `Token.isBlank_of_scan?_eq_nil` : only blanks have no token;
- `Rule.fault_of_ofTokens` : faults that tokens do not have;
- `Rule.ofLine_ne_blankLine` : a rule line is never taken for a blank one.
-/

namespace ChomskyNormal

namespace Rule

/-! ## Accepted tokens -/

/-- A head is a single uppercase letter that stands alone. -/
theorem readHead_eq_ok_iff {token? : Option Token} {head : Char} :
    readHead token? = .ok head ↔ token? = some (.symbols [head]) ∧ isUppercase head = true := by
  unfold readHead
  split
  · simp
  · next c =>
      by_cases hcase : isUppercase c = true
      · simp only [hcase, if_true, Except.ok.injEq, Option.some.injEq, Token.symbols.injEq,
          List.cons.injEq, and_true]
        constructor
        · rintro rfl
          exact ⟨rfl, hcase⟩
        · exact And.left
      · simp only [hcase, Bool.false_eq_true, if_false, reduceCtorEq, false_iff]
        rintro ⟨hsame, hhead⟩
        cases hsame
        exact hcase hhead
  · next token hnot =>
      simp only [reduceCtorEq, false_iff]
      rintro ⟨hsame, _⟩
      cases hsame
      exact hnot head rfl

/-- An alternative is read when it has no define mark, and letters of either case only. -/
theorem readAlternative_eq_ok_iff {tokens : List Token} {letters : List Char} :
    readAlternative tokens = .ok letters ↔
      .define ∉ tokens ∧ letters = tokens.flatMap Token.letters ∧ letters ≠ [] ∧
        ∀ c ∈ letters, (Symbol.ofChar? c).isSome = true := by
  -- A define mark comes first, then missing letters, then letters without a case.
  unfold readAlternative
  by_cases hdefine : .define ∈ tokens
  · simp [hdefine]
  · rw [if_neg hdefine]
    split
    · next hnone =>
        simp only [reduceCtorEq, false_iff]
        rintro ⟨_, hletters, hsome, _⟩
        exact hsome (hletters.trans hnone)
    · next hsome =>
        split
        · next c hfind =>
            simp only [reduceCtorEq, false_iff]
            rintro ⟨_, rfl, _, hall⟩
            have hc : (Symbol.ofChar? c).isNone = true := by
              simpa using List.find?_some hfind
            have hc' := hall c (List.mem_of_find?_eq_some hfind)
            rw [← Option.not_isNone, hc] at hc'
            cases hc'
        · next hfind =>
            have hall : ∀ c ∈ tokens.flatMap Token.letters, (Symbol.ofChar? c).isSome = true := by
              intro c hc
              rw [Option.isSome_iff_ne_none]
              simpa using List.find?_eq_none.1 hfind c hc
            rw [Except.ok.injEq]
            constructor
            · rintro rfl
              exact ⟨hdefine, rfl, fun hnil => hsome hnil, hall⟩
            · rintro ⟨_, rfl, _, _⟩
              rfl

theorem readAlternatives_eq_ok_iff {tokens : List Token} {alternatives : List (List Char)} :
    readAlternatives tokens = .ok alternatives ↔
      List.Forall₂ (fun piece letters => readAlternative piece = .ok letters)
        (pieces .bar tokens) alternatives :=
  mapM_eq_ok_iff

/-- A rule is read when its head, its define mark and its alternatives are. -/
theorem ofTokens_eq_ok_iff {tokens : List Token} {rule : Rule} :
    ofTokens tokens = .ok rule ↔
      readHead tokens.head? = .ok rule.head ∧ tokens[1]? = some .define ∧
        readAlternatives (tokens.drop 2) = .ok rule.alternatives := by
  rw [ofTokens, bind_eq_ok_iff]
  constructor
  · rintro ⟨head, hhead, hrest⟩
    -- The define mark is looked for once the head is read.
    by_cases hdefine : tokens[1]? = some .define
    · rw [if_neg (not_not.2 hdefine)] at hrest
      rcases bind_eq_ok_iff.1 hrest with ⟨alternatives, halternatives, hpure⟩
      cases hpure
      exact ⟨hhead, hdefine, halternatives⟩
    · rw [if_pos hdefine] at hrest
      cases hrest
  · rintro ⟨hhead, hdefine, halternatives⟩
    refine ⟨rule.head, hhead, ?_⟩
    rw [if_neg (not_not.2 hdefine)]
    exact bind_eq_ok_iff.2 ⟨rule.alternatives, halternatives, rfl⟩

theorem ofLine_eq_ok_iff {line : List Char} {rule : Rule} :
    ofLine line = .ok rule ↔
      ∃ tokens, Token.scan? line = some tokens ∧ ofTokens tokens = .ok rule := by
  unfold ofLine
  cases hscan : Token.scan? line with
  | none => simp
  | some tokens => simp

/-! ## Letters of accepted rules -/

variable {line : List Char} {rule : Rule}

theorem head_isUppercase (h : ofLine line = .ok rule) : isUppercase rule.head = true := by
  rcases ofLine_eq_ok_iff.1 h with ⟨tokens, _, htokens⟩
  exact (readHead_eq_ok_iff.1 (ofTokens_eq_ok_iff.1 htokens).1).2

theorem isSome_symbol_of_mem_alternatives (h : ofLine line = .ok rule) {letters : List Char}
    (hletters : letters ∈ rule.alternatives) {c : Char} (hc : c ∈ letters) :
    (Symbol.ofChar? c).isSome = true := by
  rcases ofLine_eq_ok_iff.1 h with ⟨tokens, _, htokens⟩
  have hall := readAlternatives_eq_ok_iff.1 (ofTokens_eq_ok_iff.1 htokens).2.2
  rcases exists_mem_of_forall₂ hall hletters with ⟨piece, _, hpiece⟩
  exact (readAlternative_eq_ok_iff.1 hpiece).2.2.2 c hc

theorem isSome_symbol_of_mem_letters (h : ofLine line = .ok rule) {c : Char}
    (hc : c ∈ rule.letters) : (Symbol.ofChar? c).isSome = true := by
  rcases List.mem_cons.1 hc with rfl | hc
  · exact Symbol.isSome_ofChar?_iff.2 (Or.inl (head_isUppercase h))
  · rcases List.mem_flatten.1 hc with ⟨letters, hletters, hc⟩
    exact isSome_symbol_of_mem_alternatives h hletters hc

end Rule

/-! ## Lines without tokens -/

namespace Token

theorem prepend_ne_nil (c : Char) (touches : Bool) (tokens : List Token) :
    prepend c touches tokens ≠ [] := by
  unfold prepend
  split
  · split
    · exact List.cons_ne_nil _ _
    · exact List.cons_ne_nil _ _
  · exact List.cons_ne_nil _ _

/-- Only blank lines have no tokens. -/
theorem isBlank_of_scan?_eq_nil {line : List Char} (h : scan? line = some []) {c : Char}
    (hc : c ∈ line) : isBlank c = true := by
  -- Only a blank is passed over; every other character adds to the tokens or stops the scan.
  fun_induction scan? line with
  | case1 => cases hc
  | case2 rest ih =>
      rcases Option.map_eq_some_iff.1 h with ⟨tokens, _, heq⟩
      cases heq
  | case3 rest _ => cases h
  | case4 rest _ _ ih =>
      rcases Option.map_eq_some_iff.1 h with ⟨tokens, _, heq⟩
      cases heq
  | case5 first rest _ _ _ hblank ih =>
      rcases List.mem_cons.1 hc with rfl | hc
      · exact hblank
      · exact ih h hc
  | case6 first rest _ _ _ _ ih =>
      rcases Option.map_eq_some_iff.1 h with ⟨tokens, _, heq⟩
      exact absurd heq (prepend_ne_nil _ _ _)

end Token

/-- A line that has to be a rule holds a character that is not blank. -/
theorem exists_not_isBlank_of_isRuleLine {line : List Char} (h : isRuleLine line = true) :
    ∃ c ∈ line, isBlank c = false := by
  unfold isRuleLine at h
  split at h
  · cases h
  · next c rest hdrop =>
      have hmem : c ∈ line.dropWhile isBlank := hdrop ▸ List.mem_cons_self
      have hhead := List.head_dropWhile_not isBlank (List.ne_nil_of_mem hmem)
      refine ⟨c, (List.dropWhile_sublist isBlank).subset hmem, ?_⟩
      simpa [hdrop] using hhead

namespace Rule

/-- A define mark is found first, then a lack of letters, and then the first strange character. -/
theorem readAlternative_eq_error_iff {tokens : List Token} {fault : RuleFault} :
    readAlternative tokens = .error fault ↔
      .define ∈ tokens ∧ fault = .unexpectedDefine ∨
        .define ∉ tokens ∧ (tokens.flatMap Token.letters = [] ∧ fault = .emptyAlternative ∨
          ∃ front c back, tokens.flatMap Token.letters = front ++ c :: back ∧
            (∀ d ∈ front, (Symbol.ofChar? d).isSome = true) ∧ Symbol.ofChar? c = none ∧
              fault = .invalidSymbol c) := by
  unfold readAlternative
  by_cases hdefine : .define ∈ tokens
  · simp [hdefine, @eq_comm _ RuleFault.unexpectedDefine]
  · simp only [hdefine, if_false, false_and, false_or, not_false_iff, true_and]
    split
    · next hnone => simp [hnone, @eq_comm _ RuleFault.emptyAlternative]
    · next hsome =>
        rw [or_iff_right fun h => hsome h.1]
        split
        · next c hfind =>
            rcases List.find?_eq_some_iff_append.1 hfind with ⟨hc, front, back, heq, hfront⟩
            constructor
            · intro h
              cases h
              exact ⟨front, c, back, heq, by simpa using hfront, by simpa using hc, rfl⟩
            · -- The first letter without a case is the same, however it is found.
              rintro ⟨front', d, back', heq', hfront', hd, rfl⟩
              have hfind' : (tokens.flatMap Token.letters).find?
                  (fun c => (Symbol.ofChar? c).isNone) = some d :=
                List.find?_eq_some_iff_append.2
                  ⟨by simp [hd], front', back', heq', by simpa using hfront'⟩
              rw [hfind] at hfind'
              cases hfind'
              rfl
        · next hfind =>
            simp only [reduceCtorEq, false_iff]
            rintro ⟨front, c, back, heq, _, hc, _⟩
            have hmem : c ∈ tokens.flatMap Token.letters := heq ▸ by simp
            have hcased := List.find?_eq_none.1 hfind c hmem
            simp [hc] at hcased

theorem fault_of_readAlternative {tokens : List Token} {fault : RuleFault}
    (h : readAlternative tokens = .error fault) :
    fault ≠ .malformedDefine ∧ fault ≠ .blankLine := by
  rcases readAlternative_eq_error_iff.1 h with ⟨_, rfl⟩ | ⟨_, ⟨_, rfl⟩ | ⟨_, c, _, _, _, _, rfl⟩⟩
  · decide
  · decide
  · exact ⟨RuleFault.noConfusion, RuleFault.noConfusion⟩

/-- Without a token the line is blank, and any token that is no head is reported as such. -/
theorem readHead_eq_error_iff {token? : Option Token} {fault : RuleFault} :
    readHead token? = .error fault ↔
      token? = none ∧ fault = .blankLine ∨
        token? ≠ none ∧ (∀ head, isUppercase head = true → token? ≠ some (.symbols [head])) ∧
          fault = .missingHead := by
  -- A token that is no head is told from a token that is missing.
  have hmissing : ∀ token : Token, (∀ head, isUppercase head = true → token ≠ .symbols [head]) →
      ((.error .missingHead : Except RuleFault Char) = .error fault ↔
        some token = none ∧ fault = .blankLine ∨
          some token ≠ none ∧ (∀ head, isUppercase head = true →
            some token ≠ some (.symbols [head])) ∧ fault = .missingHead) := by
    intro token hother
    rw [Except.error.injEq, eq_comm]
    simpa using fun _ => hother
  unfold readHead
  split
  · simp [@eq_comm _ RuleFault.blankLine]
  · next c =>
      split
      · next hcase =>
          simp only [reduceCtorEq, false_and, false_or, false_iff]
          exact fun h => h.2.1 c hcase rfl
      · next hcase =>
          refine hmissing (.symbols [c]) ?_
          rintro head hhead heq
          cases heq
          exact hcase hhead
  · next token hnot => exact hmissing token fun head _ => hnot head

/-- The head is looked at first, then the define mark, and the alternatives last. -/
theorem ofTokens_eq_error_iff {tokens : List Token} {fault : RuleFault} :
    ofTokens tokens = .error fault ↔
      readHead tokens.head? = .error fault ∨
        ∃ head, readHead tokens.head? = .ok head ∧
          (tokens[1]? ≠ some .define ∧ fault = .missingDefine ∨
            tokens[1]? = some .define ∧ readAlternatives (tokens.drop 2) = .error fault) := by
  rw [ofTokens, bind_eq_error_iff]
  -- A head that cannot be read is reported first; otherwise the other two checks are left.
  refine or_congr_right (exists_congr fun head => and_congr_right fun _ => ?_)
  by_cases hdefine : tokens[1]? = some .define
  · rw [if_neg (not_not.2 hdefine)]
    constructor
    · intro h
      rcases bind_eq_error_iff.1 h with halternatives | ⟨alternatives, _, hpure⟩
      · exact Or.inr ⟨hdefine, halternatives⟩
      · cases hpure
    · rintro (⟨hnone, _⟩ | ⟨_, halternatives⟩)
      · exact absurd hdefine hnone
      · exact bind_eq_error_iff.2 (Or.inl halternatives)
  · rw [if_pos hdefine]
    constructor
    · intro h
      cases h
      exact Or.inl ⟨hdefine, rfl⟩
    · rintro (⟨_, rfl⟩ | ⟨hsome, _⟩)
      · rfl
      · exact absurd hsome hdefine

/-- Stray colons are found before there are tokens, and only a line without tokens is blank. -/
theorem fault_of_ofTokens {tokens : List Token} {fault : RuleFault}
    (h : ofTokens tokens = .error fault) :
    fault ≠ .malformedDefine ∧ (fault = .blankLine → tokens = []) := by
  rcases ofTokens_eq_error_iff.1 h with hhead | ⟨_, _, ⟨_, rfl⟩ | ⟨_, halternatives⟩⟩
  · -- The head is only missing altogether when there is no token.
    rcases readHead_eq_error_iff.1 hhead with ⟨hnone, rfl⟩ | ⟨_, _, rfl⟩
    · exact ⟨by decide, fun _ => List.head?_eq_none_iff.1 hnone⟩
    · exact ⟨by decide, RuleFault.noConfusion⟩
  · exact ⟨by decide, RuleFault.noConfusion⟩
  · rcases exists_mem_of_mapM_eq_error halternatives with ⟨piece, _, hpiece⟩
    rcases fault_of_readAlternative hpiece with ⟨hcolon, hblank⟩
    exact ⟨hcolon, fun heq => absurd heq hblank⟩

theorem ofLine_ne_blankLine {line : List Char} (h : isRuleLine line = true) :
    ofLine line ≠ .error .blankLine := by
  intro hblank
  unfold ofLine at hblank
  cases hscan : Token.scan? line with
  | none =>
      rw [hscan] at hblank
      cases hblank
  | some tokens =>
      rw [hscan] at hblank
      have hnil : tokens = [] := (fault_of_ofTokens hblank).2 rfl
      rw [hnil] at hscan
      rcases exists_not_isBlank_of_isRuleLine h with ⟨c, hc, hnot⟩
      rw [Token.isBlank_of_scan?_eq_nil hscan hc] at hnot
      cases hnot

end Rule

end ChomskyNormal
