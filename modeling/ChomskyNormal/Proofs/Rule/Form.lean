import ChomskyNormal.Proofs.Rule.Scanning

/-!
# The form of a rule line

A line is a rule exactly when a head and a define mark open it, no other colon follows, and what
stands between the bars is made of letters of either case and blanks. Any other line has a first
fault, and this one is reported.

- `Opens` : a head and a define mark, blanks aside;
- `Rule.WrittenOn` : the lines that a rule can be written on;
- `PieceFault`, `FirstFault` : what is wrong between two bars, and with a line;
- `Rule.ofLine_form` : which lines are accepted, and what is wrong with all others.
-/

namespace ChomskyNormal

/-! ## Forms and faults -/

def lettersOf (piece : List Char) : List Char :=
  piece.filter fun c => !isBlank c

def Opens (line : List Char) (head : Char) (rest : List Char) : Prop :=
  ∃ lead gap, AllBlank lead ∧ AllBlank gap ∧ isUppercase head = true ∧
    line = lead ++ head :: gap ++ ':' :: ':' :: '=' :: rest

/-- The head and the define mark open the line, and the alternatives stand between bars. -/
def Rule.WrittenOn (rule : Rule) (line : List Char) : Prop :=
  ∃ rest, Opens line rule.head rest ∧ ':' ∉ rest ∧
    rule.alternatives = (pieces '|' rest).map lettersOf ∧
      ∀ letters ∈ rule.alternatives, letters ≠ [] ∧
        ∀ c ∈ letters, isUppercase c = true ∨ isLowercase c = true

/-- What is wrong between two bars: another define mark, or else no letter at all, or else a
character that is no letter of either case. -/
inductive PieceFault (piece : List Char) : RuleFault → Prop
  | unexpectedDefine : [':', ':', '='] <:+: piece → PieceFault piece .unexpectedDefine
  | emptyAlternative : AllBlank piece → PieceFault piece .emptyAlternative
  | invalidSymbol {front back : List Char} {c : Char} :
      ¬ [':', ':', '='] <:+: piece → lettersOf piece = front ++ c :: back →
        (∀ d ∈ front, isUppercase d = true ∨ isLowercase d = true) →
          ¬ (isUppercase c = true ∨ isLowercase c = true) → PieceFault piece (.invalidSymbol c)

/-- The first fault of a line, in the order in which they are looked for: a stray colon anywhere,
then the head, then the define mark, and then the pieces between bars from left to right. -/
inductive FirstFault (line : List Char) : RuleFault → Prop
  | malformedDefine : Token.scan? line = none → FirstFault line .malformedDefine
  | missingHead {tokens : List Token} : Token.scan? line = some tokens →
      (∀ head, isUppercase head = true → tokens.head? ≠ some (.symbols [head])) →
        FirstFault line .missingHead
  | missingDefine {tokens : List Token} {head : Char} : Token.scan? line = some tokens →
      isUppercase head = true → tokens.head? = some (.symbols [head]) →
        tokens[1]? ≠ some .define → FirstFault line .missingDefine
  | piece {tokens : List Token} {head : Char} {rest piece : List Char}
      {before after : List (List Char)} {fault : RuleFault} : Token.scan? line = some tokens →
        Opens line head rest → pieces '|' rest = before ++ piece :: after →
          (∀ other ∈ before, ∀ fault, ¬ PieceFault other fault) → PieceFault piece fault →
            FirstFault line fault

/-! ## How a line opens -/

namespace Opens

variable {line rest : List Char} {head : Char}

/-- The head and the define mark are the first tokens, and the rest is scanned on its own. -/
theorem scan?_eq (h : Opens line head rest) : Token.scan? line =
    (Token.scan? rest).map fun later => .symbols [head] :: .define :: later := by
  rcases h with ⟨lead, gap, hlead, hgap, hhead, rfl⟩
  have hsymbol : (Symbol.ofChar? head).isSome = true :=
    Symbol.isSome_ofChar?_iff.2 (Or.inl hhead)
  have hrun : ∀ c ∈ [head], Token.inRun c = true :=
    List.forall_mem_singleton.2 (Symbol.inRun_of_isSome hsymbol)
  -- Neither a blank nor a colon goes on with the run of the head.
  have hends : (gap ++ ':' :: ':' :: '=' :: rest).head?.any Token.inRun = false := by
    cases gap with
    | nil => rfl
    | cons c gap => exact not_inRun_of_isBlank (hgap c List.mem_cons_self)
  rw [List.append_assoc, Token.scan?_append_of_allBlank hlead, List.cons_append,
    ← List.singleton_append, Token.scan?_run (List.cons_ne_nil _ _) hrun hends,
    Token.scan?_append_of_allBlank hgap, Token.scan?_define, Option.map_map]
  rfl

theorem isUppercase_head (h : Opens line head rest) : isUppercase head = true := by
  rcases h with ⟨_, _, _, _, hhead, _⟩
  exact hhead

theorem of_scan? {later : List Token} (hhead : isUppercase head = true)
    (h : Token.scan? line = some (.symbols [head] :: .define :: later)) :
    ∃ rest, Opens line head rest ∧ Token.scan? rest = some later := by
  rcases Token.scan?_eq_cons h with ⟨lead, middle, hlead, rfl, hmiddle, _⟩
  rcases Token.scan?_eq_cons hmiddle with ⟨gap, rest, hgap, rfl, hrest, _⟩
  refine ⟨rest, ⟨lead, gap, hlead, hgap, hhead, ?_⟩, hrest⟩
  simp [Token.text]

end Opens

/-! ## Pieces between bars -/

section Pieces

variable {piece : List Char} {part : List Token}

theorem lettersOf_eq_nil_iff : lettersOf piece = [] ↔ AllBlank piece := by
  rw [lettersOf, List.filter_eq_nil_iff, AllBlank]
  simp

/-- Where a line has tokens, a colon stands in a define mark only. -/
theorem define_infix_iff (hpart : Token.scan? piece = some part) :
    [':', ':', '='] <:+: piece ↔ ':' ∈ piece := by
  refine ⟨fun h => h.subset List.mem_cons_self, fun hcolon => ?_⟩
  fun_induction Token.scan? piece generalizing part with
  | case1 => cases hcolon
  | case2 rest ih => exact (List.prefix_append [':', ':', '='] rest).isInfix
  | case3 rest _ => cases hpart
  | case4 rest _ _ ih =>
      rcases Option.map_eq_some_iff.1 hpart with ⟨later, hlater, _⟩
      exact List.infix_cons (ih hlater ((List.mem_cons.1 hcolon).resolve_left (by decide)))
  | case5 c rest _ hc _ _ ih =>
      exact List.infix_cons (ih hpart ((List.mem_cons.1 hcolon).resolve_left (Ne.symm hc)))
  | case6 c rest _ hc _ _ ih =>
      rcases Option.map_eq_some_iff.1 hpart with ⟨later, hlater, _⟩
      exact List.infix_cons (ih hlater ((List.mem_cons.1 hcolon).resolve_left (Ne.symm hc)))

/-- A piece reads as its letters when they all have a case and no colon is among them. -/
theorem readAlternative_part_eq_ok_iff {letters : List Char}
    (hpart : Token.scan? piece = some part) (hbar : '|' ∉ piece) :
    Rule.readAlternative part = .ok letters ↔ ':' ∉ piece ∧ letters = lettersOf piece ∧
      letters ≠ [] ∧ ∀ c ∈ letters, isUppercase c = true ∨ isLowercase c = true := by
  rw [Rule.readAlternative_eq_ok_iff, Token.define_mem_iff hpart]
  simp only [Symbol.isSome_ofChar?_iff]
  refine and_congr_right fun hcolon => ?_
  rw [Token.flatMap_letters_of_scan? hpart hcolon hbar, lettersOf]

/-- A piece is refused for its first fault, and without one it is not. -/
theorem readAlternative_part_eq_error_iff {fault : RuleFault}
    (hpart : Token.scan? piece = some part) (hbar : '|' ∉ piece) :
    Rule.readAlternative part = .error fault ↔ PieceFault piece fault := by
  -- A colon stands for a define mark here, since the piece has tokens.
  have hmark := define_infix_iff hpart
  rw [Rule.readAlternative_eq_error_iff, Token.define_mem_iff hpart]
  constructor
  · rintro (⟨hcolon, rfl⟩ | ⟨hcolon, hletters⟩)
    · exact .unexpectedDefine (hmark.2 hcolon)
    · rw [Token.flatMap_letters_of_scan? hpart hcolon hbar, ← lettersOf] at hletters
      rcases hletters with ⟨hnil, rfl⟩ | ⟨front, c, back, heq, hfront, hc, rfl⟩
      · exact .emptyAlternative (lettersOf_eq_nil_iff.1 hnil)
      · refine .invalidSymbol (mt hmark.1 hcolon) heq ?_ ?_
        · exact fun d hd => Symbol.isSome_ofChar?_iff.1 (hfront d hd)
        · rw [← Symbol.isSome_ofChar?_iff, hc]
          exact Bool.false_ne_true
  · intro h
    cases h with
    | unexpectedDefine hdefine => exact Or.inl ⟨hmark.1 hdefine, rfl⟩
    | emptyAlternative hblank =>
        have hcolon : ':' ∉ piece := by
          intro hmem
          cases hblank ':' hmem
        refine Or.inr ⟨hcolon, Or.inl ⟨?_, rfl⟩⟩
        rw [Token.flatMap_letters_of_scan? hpart hcolon hbar]
        exact lettersOf_eq_nil_iff.2 hblank
    | @invalidSymbol front back c hdefine heq hfront hc =>
        have hcolon : ':' ∉ piece := mt hmark.2 hdefine
        refine Or.inr ⟨hcolon, Or.inr ⟨front, c, back, ?_, ?_, ?_, rfl⟩⟩
        · rw [Token.flatMap_letters_of_scan? hpart hcolon hbar]
          exact heq
        · exact fun d hd => Symbol.isSome_ofChar?_iff.2 (hfront d hd)
        · rwa [← Symbol.isSome_ofChar?_iff, Option.not_isSome_iff_eq_none] at hc

/-- Each piece of a line with tokens has tokens of its own. -/
theorem scan?_piece {line : List Char} {tokens : List Token} (h : Token.scan? line = some tokens)
    {piece : List Char} (hpiece : piece ∈ pieces '|' line) :
    Token.scan? piece = some ((Token.scan? piece).getD []) := by
  rcases exists_mem_of_forall₂ (Token.scan?_pieces h).flip hpiece with ⟨part, _, hpart⟩
  rw [hpart]
  rfl

/-- Alternatives may be read piece by piece. -/
theorem readAlternatives_eq_mapM {rest : List Char} {later : List Token}
    (h : Token.scan? rest = some later) :
    Rule.readAlternatives later =
      (pieces '|' rest).mapM fun piece => Rule.readAlternative ((Token.scan? piece).getD []) := by
  have hpieces : pieces .bar later =
      (pieces '|' rest).map fun piece => (Token.scan? piece).getD [] := by
    rw [← List.forall₂_eq_eq_eq, List.forall₂_map_right_iff]
    refine (Token.scan?_pieces h).flip.imp fun part piece hpart => ?_
    rw [hpart]
    rfl
  rw [Rule.readAlternatives, hpieces, List.mapM_map]
  rfl

/-- What follows the define mark reads as alternatives when every piece does. -/
theorem readAlternatives_rest_eq_ok_iff {rest : List Char} {later : List Token}
    {alternatives : List (List Char)} (h : Token.scan? rest = some later) :
    Rule.readAlternatives later = .ok alternatives ↔
      ':' ∉ rest ∧ alternatives = (pieces '|' rest).map lettersOf ∧
        ∀ letters ∈ alternatives, letters ≠ [] ∧
          ∀ c ∈ letters, isUppercase c = true ∨ isLowercase c = true := by
  have hpiece : ∀ piece ∈ pieces '|' rest, ∀ letters,
      Rule.readAlternative ((Token.scan? piece).getD []) = .ok letters ↔
        ':' ∉ piece ∧ letters = lettersOf piece ∧ letters ≠ [] ∧
          ∀ c ∈ letters, isUppercase c = true ∨ isLowercase c = true :=
    fun piece hmem letters => readAlternative_part_eq_ok_iff (scan?_piece h hmem)
      (separator_not_mem_of_mem_pieces hmem)
  rw [readAlternatives_eq_mapM h, mapM_eq_ok_iff]
  constructor
  · intro hall
    -- Pieces and alternatives go in pairs, and each piece is one of the line.
    have hread : List.Forall₂ (fun piece letters => piece ∈ pieces '|' rest ∧
        Rule.readAlternative ((Token.scan? piece).getD []) = .ok letters)
          (pieces '|' rest) alternatives :=
      (List.forall₂_and_left _ _).2 ⟨fun _ => id, hall⟩
    refine ⟨fun hcolon => ?_, ?_, fun letters hletters => ?_⟩
    · rw [← intercalate_pieces '|' rest] at hcolon
      rcases mem_of_mem_intercalate hcolon with hbar | ⟨piece, hmem, hin⟩
      · cases hbar
      · rcases exists_mem_of_forall₂ hread.flip hmem with ⟨letters, _, hmem', hletters⟩
        exact ((hpiece piece hmem' letters).1 hletters).1 hin
    · rw [← List.forall₂_eq_eq_eq, List.forall₂_map_right_iff]
      exact hread.flip.imp fun letters piece hboth => ((hpiece piece hboth.1 letters).1 hboth.2).2.1
    · rcases exists_mem_of_forall₂ hread hletters with ⟨piece, _, hmem, hpieceRead⟩
      exact ((hpiece piece hmem letters).1 hpieceRead).2.2
  · rintro ⟨hcolon, rfl, hletters⟩
    rw [List.forall₂_map_right_iff, List.forall₂_same]
    intro piece hmem
    have hnone : ':' ∉ piece := fun hin => hcolon (mem_of_mem_pieces hmem hin)
    exact (hpiece piece hmem _).2 ⟨hnone, rfl, hletters _ (List.mem_map_of_mem hmem)⟩

/-- The leftmost piece with a fault is the one that is reported. -/
theorem readAlternatives_rest_eq_error_iff {rest : List Char} {later : List Token}
    {fault : RuleFault} (h : Token.scan? rest = some later) :
    Rule.readAlternatives later = .error fault ↔
      ∃ before piece after, pieces '|' rest = before ++ piece :: after ∧
        (∀ other ∈ before, ∀ fault, ¬ PieceFault other fault) ∧ PieceFault piece fault := by
  have hpiece : ∀ piece ∈ pieces '|' rest, ∀ fault,
      Rule.readAlternative ((Token.scan? piece).getD []) = .error fault ↔ PieceFault piece fault :=
    fun piece hmem fault => readAlternative_part_eq_error_iff (scan?_piece h hmem)
      (separator_not_mem_of_mem_pieces hmem)
  rw [readAlternatives_eq_mapM h, mapM_eq_error_iff]
  refine exists_congr fun before => exists_congr fun piece => exists_congr fun after =>
    and_congr_right fun heq => ?_
  have hbefore : ∀ other ∈ before, other ∈ pieces '|' rest :=
    fun other hother => heq ▸ List.mem_append_left _ hother
  rw [hpiece piece (heq ▸ by simp)]
  refine and_congr_left fun _ => forall₂_congr fun other hother => ?_
  -- A piece that cannot be read has a fault, and the other way round.
  simp only [← hpiece other (hbefore other hother)]
  cases Rule.readAlternative ((Token.scan? other).getD []) with
  | ok letters => simp
  | error fault => simp

end Pieces

namespace Rule

variable {line : List Char}

/-! ## Accepted lines and faults -/

theorem eq_cons_cons_drop {α : Type} {items : List α} {first second : α}
    (hfirst : items.head? = some first) (hsecond : items[1]? = some second) :
    items = first :: second :: items.drop 2 := by
  match items with
  | [] => cases hfirst
  | [only] => cases hsecond
  | _ :: _ :: later =>
      cases hfirst
      cases hsecond
      rfl

/-- The rules that are accepted are those written on the line. -/
theorem ofLine_eq_ok_iff_writtenOn {rule : Rule} :
    ofLine line = .ok rule ↔ rule.WrittenOn line := by
  rw [ofLine_eq_ok_iff]
  constructor
  · rintro ⟨tokens, hscan, htokens⟩
    -- The first two tokens open the line, and what is left of it has the other tokens.
    rcases ofTokens_eq_ok_iff.1 htokens with ⟨hhead, hdefine, halternatives⟩
    rcases readHead_eq_ok_iff.1 hhead with ⟨hfirst, hupper⟩
    rw [eq_cons_cons_drop hfirst hdefine] at hscan
    rcases Opens.of_scan? hupper hscan with ⟨rest, hopens, hrest⟩
    exact ⟨rest, hopens, (readAlternatives_rest_eq_ok_iff hrest).1 halternatives⟩
  · rintro ⟨rest, hopens, hcolon, halternatives⟩
    rcases Token.exists_scan?_of_not_mem hcolon with ⟨later, hlater⟩
    refine ⟨.symbols [rule.head] :: .define :: later, ?_, ?_⟩
    · rw [hopens.scan?_eq, hlater]
      rfl
    · refine ofTokens_eq_ok_iff.2 ⟨readHead_eq_ok_iff.2 ⟨rfl, hopens.isUppercase_head⟩, rfl, ?_⟩
      exact (readAlternatives_rest_eq_ok_iff hlater).2 ⟨hcolon, halternatives⟩

theorem firstFault_of_scan?_eq_none {fault : RuleFault} (h : Token.scan? line = none) :
    FirstFault line fault ↔ fault = .malformedDefine := by
  constructor
  · intro hfault
    cases hfault with
    | malformedDefine _ => rfl
    | missingHead hscan _ => cases h.symm.trans hscan
    | missingDefine hscan _ _ _ => cases h.symm.trans hscan
    | piece hscan _ _ _ _ => cases h.symm.trans hscan
  · rintro rfl
    exact .malformedDefine h

theorem firstFault_of_ofTokens {tokens : List Token} {fault : RuleFault}
    (hscan : Token.scan? line = some tokens) (hsome : tokens ≠ [])
    (h : ofTokens tokens = .error fault) : FirstFault line fault := by
  rcases ofTokens_eq_error_iff.1 h with hhead | ⟨head, hhead, hlater⟩
  · rcases readHead_eq_error_iff.1 hhead with ⟨hnone, _⟩ | ⟨_, hother, rfl⟩
    · exact absurd (List.head?_eq_none_iff.1 hnone) hsome
    · exact .missingHead hscan hother
  · rcases readHead_eq_ok_iff.1 hhead with ⟨hfirst, hupper⟩
    rcases hlater with ⟨hdefine, rfl⟩ | ⟨hdefine, halternatives⟩
    · exact .missingDefine hscan hupper hfirst hdefine
    · -- Head and define mark are in their places, so one of the pieces is at fault.
      have hopening := hscan
      rw [eq_cons_cons_drop hfirst hdefine] at hopening
      rcases Opens.of_scan? hupper hopening with ⟨rest, hopens, hrest⟩
      rcases (readAlternatives_rest_eq_error_iff hrest).1 halternatives with
        ⟨before, piece, after, heq, hbefore, hpiece⟩
      exact .piece hscan hopens heq hbefore hpiece

theorem ofTokens_of_firstFault {tokens : List Token} {fault : RuleFault}
    (hscan : Token.scan? line = some tokens) (hsome : tokens ≠ []) (h : FirstFault line fault) :
    ofTokens tokens = .error fault := by
  rw [ofTokens_eq_error_iff]
  -- The fault speaks of the tokens of the line, and these are the ones at hand.
  cases h with
  | malformedDefine hnone => cases hnone.symm.trans hscan
  | missingHead hscan' hother =>
      cases hscan'.symm.trans hscan
      have hfirst : tokens.head? ≠ none := mt List.head?_eq_none_iff.1 hsome
      exact Or.inl (readHead_eq_error_iff.2 (Or.inr ⟨hfirst, hother, rfl⟩))
  | missingDefine hscan' hupper hfirst hdefine =>
      cases hscan'.symm.trans hscan
      exact Or.inr ⟨_, readHead_eq_ok_iff.2 ⟨hfirst, hupper⟩, Or.inl ⟨hdefine, rfl⟩⟩
  | piece _ hopens heq hbefore hpiece =>
      rw [hopens.scan?_eq] at hscan
      rcases Option.map_eq_some_iff.1 hscan with ⟨later, hlater, rfl⟩
      refine Or.inr ⟨_, readHead_eq_ok_iff.2 ⟨rfl, hopens.isUppercase_head⟩, Or.inr ⟨rfl, ?_⟩⟩
      exact (readAlternatives_rest_eq_error_iff hlater).2 ⟨_, _, _, heq, hbefore, hpiece⟩

/-- A line that is not blank is refused for its first fault, and without one it is not. -/
theorem ofLine_eq_error_iff {fault : RuleFault} (h : ∃ c ∈ line, isBlank c = false) :
    ofLine line = .error fault ↔ FirstFault line fault := by
  unfold ofLine
  cases hscan : Token.scan? line with
  | none =>
      rw [firstFault_of_scan?_eq_none hscan, Except.error.injEq]
      exact eq_comm
  | some tokens =>
      have hsome : tokens ≠ [] := by
        rintro rfl
        rcases h with ⟨c, hc, hnot⟩
        rw [Token.isBlank_of_scan?_eq_nil hscan hc] at hnot
        cases hnot
      exact ⟨firstFault_of_ofTokens hscan hsome, ofTokens_of_firstFault hscan hsome⟩

/-- A line that is not blank is accepted exactly as the rules that can be written on it. Otherwise
its first fault is reported, and that is the only one it has. When the alternatives come to be
read, there are two tokens before them. -/
theorem ofLine_form (h : ∃ c ∈ line, isBlank c = false) :
    (∀ rule, ofLine line = .ok rule ↔ rule.WrittenOn line) ∧
      (∀ fault, ofLine line = .error fault ↔ FirstFault line fault) ∧
        ∀ tokens, Token.scan? line = some tokens → tokens[1]? = some .define →
          2 ≤ tokens.length := by
  refine ⟨fun _ => ofLine_eq_ok_iff_writtenOn, fun _ => ofLine_eq_error_iff h, ?_⟩
  intro tokens _ hdefine
  exact (List.getElem?_eq_some_iff.1 hdefine).1

def spacious : List Char :=
  " S\u00a0::= A\tB|b ".toList

def flawed : List Char :=
  "S ::= AB | | a1 | A ::= b".toList

/-- A rule among many blanks, and a fault that comes before others. -/
theorem ofLine_spacious :
    (∃ c ∈ spacious, isBlank c = false) ∧ (∃ c ∈ flawed, isBlank c = false) ∧
      WrittenOn ⟨'S', [['A', 'B'], ['b']]⟩ spacious ∧ FirstFault flawed .emptyAlternative := by
  have hspacious : ∃ c ∈ spacious, isBlank c = false := ⟨'S', by decide, by decide⟩
  have hflawed : ∃ c ∈ flawed, isBlank c = false := ⟨'S', by decide, by decide⟩
  refine ⟨hspacious, hflawed, ?_, ?_⟩
  · exact ((ofLine_form hspacious).1 _).1 (by decide +kernel)
  · exact ((ofLine_form hflawed).2.1 _).1 (by decide +kernel)

end Rule

end ChomskyNormal
