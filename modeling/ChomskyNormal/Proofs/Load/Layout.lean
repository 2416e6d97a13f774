import ChomskyNormal.Proofs.Load.Acceptance
import ChomskyNormal.Proofs.Load.Relocation
import ChomskyNormal.Proofs.Rule.Form
import Mathlib.Data.List.TakeWhile

/-!
# Layout

Blanks and comments mean nothing. A text may be indented, its marks and symbols set apart by other
blanks, its lines ended in another way, and comments put between its rules: it loads to the same
grammar, or the same errors are reported, each at the line where its own line went.

- `LayoutEdit` : one change of the layout, with what becomes of the numbers of lines;
- `Relaid` : any number of such changes;
- `meaning` : all that loading sees of a line;
- `Grammar.ofText_relaid` : loading a text with another layout.
-/

namespace ChomskyNormal

/-! ## Changes of the layout -/

/-- Blanks that do not end a line. -/
def Padding (blanks : List Char) : Prop :=
  AllBlank blanks ∧ '\n' ∉ blanks

instance (blanks : List Char) : Decidable (Padding blanks) :=
  inferInstanceAs (Decidable (_ ∧ _))

/-- A line begins after the text, which is empty or ends with a line feed. -/
def BeginsLine (before : List Char) : Prop :=
  ∀ c ∈ before.getLast?, c = '\n'

instance (before : List Char) : Decidable (BeginsLine before) :=
  Option.decidableForallMem _

def EndsLine (after : List Char) : Prop :=
  after = [] ∨ ['\n'] <+: after ∨ ['\r', '\n'] <+: after

def IgnoredLine (line : List Char) : Prop :=
  '\n' ∉ line ∧
    (AllBlank line ∨ ∃ blanks comment, AllBlank blanks ∧ line = blanks ++ ';' :: comment)

/-- Where a line goes when another one is put after the first `count` lines. -/
def numberAfter (count number : ℕ) : ℕ :=
  if number ≤ count then number else number + 1

/-- A change of the layout of a text, and where each line goes by its number. -/
inductive LayoutEdit : List Char → List Char → (ℕ → ℕ) → Prop
  | insertBefore {before line after : List Char} : BeginsLine before → IgnoredLine line →
      LayoutEdit (before ++ after) (before ++ (line ++ '\n' :: after))
        (numberAfter (before.count '\n'))
  | insertAfter {before line after : List Char} : EndsLine after → IgnoredLine line →
      LayoutEdit (before ++ after) (before ++ '\n' :: (line ++ after))
        (numberAfter (before.count '\n' + 1))
  /-- A line at the end of the text that nothing ends. -/
  | appendLine {text line : List Char} : BeginsLine text → IgnoredLine line →
      LayoutEdit text (text ++ line) id
  | returnBeforeFeed {before after : List Char} :
      LayoutEdit (before ++ '\n' :: after) (before ++ '\r' :: '\n' :: after) id
  | padStart {before blanks after : List Char} : BeginsLine before → Padding blanks →
      LayoutEdit (before ++ after) (before ++ (blanks ++ after)) id
  | padEnd {before blanks after : List Char} : EndsLine after → Padding blanks →
      LayoutEdit (before ++ after) (before ++ (blanks ++ after)) id
  | respace {before blanks others after : List Char} : Padding blanks → blanks ≠ [] →
      Padding others → others ≠ [] →
        LayoutEdit (before ++ (blanks ++ after)) (before ++ (others ++ after)) id
  | padBeforeBar {before blanks after : List Char} : Padding blanks →
      LayoutEdit (before ++ '|' :: after) (before ++ (blanks ++ '|' :: after)) id
  | padAfterBar {before blanks after : List Char} : Padding blanks →
      LayoutEdit (before ++ '|' :: after) (before ++ '|' :: (blanks ++ after)) id

/-- The second text comes from the first by changes of the layout, which take each line to the
given number. -/
inductive Relaid (text : List Char) : List Char → (ℕ → ℕ) → Prop
  | refl : Relaid text text id
  | edit {next last : List Char} {number further : ℕ → ℕ} : Relaid text next number →
      LayoutEdit next last further → Relaid text last fun line => further (number line)

/-! ## Meanings of lines -/

/-- All that loading sees of a line: its tokens, if it has to be a rule. -/
def meaning (line : List Char) : Option (Option (List Token)) :=
  if isRuleLine line then some (Token.scan? line) else none

theorem lettersOf_append (front back : List Char) :
    lettersOf (front ++ back) = lettersOf front ++ lettersOf back :=
  List.filter_append _ _

/-- The first character that is not blank decides whether a line has to be a rule. -/
theorem isRuleLine_eq (line : List Char) :
    isRuleLine line = (lettersOf line).head?.any fun c => c ≠ ';' := by
  rw [lettersOf, List.head?_filter, List.find?_eq_head?_dropWhile_not]
  simp only [Bool.not_not, isRuleLine]
  cases line.dropWhile isBlank with
  | nil => rfl
  | cons c rest => rfl

theorem isRuleLine_congr {line other : List Char} (h : lettersOf line = lettersOf other) :
    isRuleLine line = isRuleLine other := by
  rw [isRuleLine_eq, isRuleLine_eq, h]

theorem meaning_congr {line other : List Char} (hletters : lettersOf line = lettersOf other)
    (hscan : Token.scan? line = Token.scan? other) : meaning line = meaning other := by
  rw [meaning, meaning, isRuleLine_congr hletters, hscan]

theorem meaning_of_ignored {line : List Char} (h : IgnoredLine line) : meaning line = none := by
  have hskipped : isRuleLine line = false := by
    rw [isRuleLine_eq]
    -- Nothing is left without the blanks, or a semicolon comes first.
    rcases h.2 with hblank | ⟨blanks, comment, hblanks, rfl⟩
    · rw [lettersOf_eq_nil_iff.2 hblank]
      rfl
    · rw [lettersOf_append, lettersOf_eq_nil_iff.2 hblanks]
      rfl
  rw [meaning, hskipped]
  rfl

section Blanks

variable {blanks : List Char}

theorem lettersOf_insert (h : AllBlank blanks) (front back : List Char) :
    lettersOf (front ++ (blanks ++ back)) = lettersOf (front ++ back) := by
  rw [lettersOf_append, lettersOf_append, lettersOf_append, lettersOf_eq_nil_iff.2 h,
    List.nil_append]

theorem meaning_append_blanks (h : AllBlank blanks) (line : List Char) :
    meaning (line ++ blanks) = meaning line := by
  have hletters : lettersOf (line ++ blanks) = lettersOf line := by
    rw [lettersOf_append, lettersOf_eq_nil_iff.2 h, List.append_nil]
  have happart : Token.Apart blanks := by
    have happend := Token.apart_of_allBlank h fun _ => Token.apart_nil
    rwa [List.append_nil] at happend
  refine meaning_congr hletters ?_
  rw [Token.scan?_append happart, Token.scan?_of_allBlank h]
  cases Token.scan? line with
  | none => rfl
  | some tokens => exact congrArg some (List.append_nil tokens)

theorem meaning_blanks_append (h : AllBlank blanks) (line : List Char) :
    meaning (blanks ++ line) = meaning line :=
  meaning_congr (lettersOf_insert h [] line) (Token.scan?_append_of_allBlank h line)

/-- Blanks may stand beside what is scanned apart from the characters before it. -/
theorem meaning_insert {back : List Char} (h : AllBlank blanks) (hback : Token.Apart back)
    (front : List Char) : meaning (front ++ (blanks ++ back)) = meaning (front ++ back) := by
  refine meaning_congr (lettersOf_insert h front back) ?_
  rw [Token.scan?_append (Token.apart_of_allBlank h fun _ => hback),
    Token.scan?_append_of_allBlank h, Token.scan?_append hback]

/-- One or more blanks may stand for one or more others. -/
theorem meaning_respace {others : List Char} (h : AllBlank blanks) (hsome : blanks ≠ [])
    (hothers : AllBlank others) (hsome' : others ≠ []) (front back : List Char) :
    meaning (front ++ (blanks ++ back)) = meaning (front ++ (others ++ back)) := by
  refine meaning_congr ?_ ?_
  · rw [lettersOf_insert h, lettersOf_insert hothers]
  · rw [Token.scan?_append (Token.apart_of_allBlank h fun hnil => absurd hnil hsome),
      Token.scan?_append (Token.apart_of_allBlank hothers fun hnil => absurd hnil hsome'),
      Token.scan?_append_of_allBlank h, Token.scan?_append_of_allBlank hothers]

theorem meaning_insert_after_bar (h : AllBlank blanks) (front back : List Char) :
    meaning (front ++ '|' :: (blanks ++ back)) = meaning (front ++ '|' :: back) := by
  refine meaning_congr ?_ ?_
  · have hletters := lettersOf_insert h (front ++ ['|']) back
    rwa [List.append_assoc, List.append_assoc] at hletters
  · rw [Token.scan?_append (Token.apart_bar _), Token.scan?_append (Token.apart_bar _),
      Token.scan?_bar, Token.scan?_bar, Token.scan?_append_of_allBlank h]

end Blanks

/-! ## Meanings of texts -/

def meaningsFrom (first : ℕ) (lines : List (List Char)) : List (Option (List Token) × ℕ) :=
  (lines.zipIdx first).filterMap fun line => (meaning line.1).map fun tokens? => (tokens?, line.2)

def meanings (text : List Char) : List (Option (List Token) × ℕ) :=
  meaningsFrom 1 (lines .chars text)

def renumber (number : ℕ → ℕ) (meanings : List (Option (List Token) × ℕ)) :
    List (Option (List Token) × ℕ) :=
  meanings.map (Prod.map id number)

@[simp] theorem renumber_id (meanings : List (Option (List Token) × ℕ)) :
    renumber id meanings = meanings := by
  simp [renumber]

theorem meaningsFrom_append (first : ℕ) (lines others : List (List Char)) :
    meaningsFrom first (lines ++ others) =
      meaningsFrom first lines ++ meaningsFrom (first + lines.length) others := by
  rw [meaningsFrom, List.zipIdx_append, List.filterMap_append]
  rfl

theorem meaningsFrom_cons (first : ℕ) (line : List Char) (lines : List (List Char)) :
    meaningsFrom first (line :: lines) =
      ((meaning line).map fun tokens? => (tokens?, first)).toList ++
        meaningsFrom (first + 1) lines := by
  rw [meaningsFrom, List.zipIdx_cons, List.filterMap_cons]
  cases meaning line with
  | none => rfl
  | some tokens? => rfl

theorem meaningsFrom_congr {first : ℕ} {line other : List Char}
    (h : meaning line = meaning other) (lines later : List (List Char)) :
    meaningsFrom first (lines ++ line :: later) = meaningsFrom first (lines ++ other :: later) := by
  rw [meaningsFrom_append, meaningsFrom_append, meaningsFrom_cons, meaningsFrom_cons, h]

theorem renumber_append (number : ℕ → ℕ) (front back : List (Option (List Token) × ℕ)) :
    renumber number (front ++ back) = renumber number front ++ renumber number back :=
  List.map_append

theorem renumber_meaningsFrom {first other : ℕ} {number : ℕ → ℕ} {lines : List (List Char)}
    (h : ∀ index < lines.length, number (first + index) = other + index) :
    renumber number (meaningsFrom first lines) = meaningsFrom other lines := by
  induction lines generalizing first other with
  | nil => rfl
  | cons line lines ih =>
      have hfirst : number first = other := h 0 (Nat.zero_lt_succ _)
      have hlater : ∀ index < lines.length, number (first + 1 + index) = other + 1 + index := by
        intro index hindex
        have hnext := h (index + 1) (Nat.succ_lt_succ hindex)
        rw [Nat.add_assoc, Nat.add_comm 1, Nat.add_assoc, Nat.add_comm 1]
        exact hnext
      rw [meaningsFrom_cons, meaningsFrom_cons, renumber_append, ih hlater]
      cases meaning line with
      | none => rfl
      | some tokens? => exact congrArg (fun number => (tokens?, number) :: _) hfirst

/-- A line that means nothing only moves what comes after it. -/
theorem meaningsFrom_insert {line : List Char} (h : meaning line = none)
    (earlier later : List (List Char)) :
    meaningsFrom 1 (earlier ++ line :: later) =
      renumber (numberAfter earlier.length) (meaningsFrom 1 (earlier ++ later)) := by
  have hearlier : renumber (numberAfter earlier.length) (meaningsFrom 1 earlier) =
      meaningsFrom 1 earlier :=
    renumber_meaningsFrom fun index hindex => if_pos (by omega)
  have hlater : renumber (numberAfter earlier.length)
      (meaningsFrom (1 + earlier.length) later) = meaningsFrom (1 + earlier.length + 1) later := by
    refine renumber_meaningsFrom fun index _ => ?_
    rw [numberAfter, if_neg (by omega)]
    omega
  rw [meaningsFrom_append, meaningsFrom_append, meaningsFrom_cons, h, renumber_append, hearlier,
    hlater]
  rfl

/-- The return that a line loses is blank. -/
theorem meaning_dropReturn (line : List Char) :
    meaning (dropReturn .chars line) = meaning line := by
  unfold dropReturn
  split
  · next hreturn =>
      rcases List.getLast?_eq_some_iff.1 hreturn with ⟨front, rfl⟩
      rw [List.dropLast_concat]
      exact (meaning_append_blanks (by decide) front).symm
  · rfl

/-- An empty last piece is no line, and would mean nothing if it were one. -/
theorem meaningsFrom_linesOfPieces (first : ℕ) (pieces : List (List Char)) :
    meaningsFrom first (linesOfPieces .chars pieces) = meaningsFrom first pieces := by
  fun_induction linesOfPieces .chars pieces generalizing first with
  | case1 => rfl
  | case2 => rfl
  | case3 last hlast => rfl
  | case4 piece later _ ih =>
      rw [meaningsFrom_cons, meaningsFrom_cons, meaning_dropReturn, ih]

/-- Nothing is lost when the pieces between line feeds are numbered as they are. -/
theorem meanings_eq (text : List Char) : meanings text = meaningsFrom 1 (pieces '\n' text) :=
  meaningsFrom_linesOfPieces 1 _

/-- What follows may change if the line that it goes on with keeps its meaning. -/
theorem meanings_congr {before after other line next : List Char} {later : List (List Char)}
    (hafter : cut '\n' after = (line, later)) (hother : cut '\n' other = (next, later))
    (h : ∀ last, (BeginsLine before → last = []) →
      meaning (last ++ line) = meaning (last ++ next)) :
    meanings (before ++ after) = meanings (before ++ other) := by
  rcases exists_pieces_append '\n' before with ⟨ended, last, _, hlast, happend⟩
  rw [meanings_eq, meanings_eq, happend, happend, hafter, hother]
  exact meaningsFrom_congr (h last hlast) ended later

/-! ## What a change does -/

theorem Padding.cut_append {blanks : List Char} (h : Padding blanks) (after : List Char) :
    cut '\n' (blanks ++ after) = (blanks ++ (cut '\n' after).1, (cut '\n' after).2) :=
  cut_append_of_not_mem h.2 after

/-- Nothing but a return can stand between a line and its end. -/
theorem EndsLine.allBlank_cut {after : List Char} (h : EndsLine after) :
    AllBlank (cut '\n' after).1 := by
  rcases h with rfl | ⟨later, rfl⟩ | ⟨later, rfl⟩
  · exact allBlank_nil
  · rw [List.singleton_append, cut_cons_self]
    exact allBlank_nil
  · rw [List.cons_append, cut_cons_of_ne (by decide), List.singleton_append, cut_cons_self]
    exact List.forall_mem_singleton.2 (by decide)

theorem IgnoredLine.meaning_append {line blanks : List Char} (h : IgnoredLine line)
    (hblanks : AllBlank blanks) : meaning (line ++ blanks) = none := by
  rw [meaning_append_blanks hblanks, meaning_of_ignored h]

/-- A line that is passed over can be put before any line. -/
theorem meanings_insertBefore {before line after : List Char} (hbefore : BeginsLine before)
    (hline : IgnoredLine line) : meanings (before ++ (line ++ '\n' :: after)) =
      renumber (numberAfter (before.count '\n')) (meanings (before ++ after)) := by
  rcases exists_pieces_append '\n' before with ⟨ended, last, hlength, hlast, happend⟩
  -- A line begins after the text before, so nothing of that is on the line.
  cases hlast hbefore
  rw [meanings_eq, meanings_eq, happend, happend, cut_append_of_not_mem hline.1, cut_cons_self,
    ← hlength, List.append_nil, List.nil_append, List.nil_append]
  exact meaningsFrom_insert (meaning_of_ignored hline) ended _

/-- A line that is passed over can be put behind any line, the last one included. -/
theorem meanings_insertAfter {before line after : List Char} (hafter : EndsLine after)
    (hline : IgnoredLine line) : meanings (before ++ '\n' :: (line ++ after)) =
      renumber (numberAfter (before.count '\n' + 1)) (meanings (before ++ after)) := by
  rcases exists_pieces_append '\n' before with ⟨ended, last, hlength, _, happend⟩
  have hblank := hafter.allBlank_cut
  -- The end of the line before now ends the new line.
  have hinsert := meaningsFrom_insert (hline.meaning_append hblank) (ended ++ [last])
    (cut '\n' after).2
  rw [List.length_append, hlength, List.length_singleton, List.append_assoc, List.append_assoc,
    List.singleton_append, List.singleton_append] at hinsert
  rw [meanings_eq, meanings_eq, happend, happend, cut_cons_self, cut_append_of_not_mem hline.1,
    List.append_nil, meaningsFrom_congr (meaning_append_blanks hblank last)]
  exact hinsert

/-- Blanks can be put at the end of any line. -/
theorem meanings_padEnd {before blanks after : List Char} (hafter : EndsLine after)
    (hblanks : Padding blanks) :
    meanings (before ++ (blanks ++ after)) = meanings (before ++ after) := by
  refine meanings_congr (hblanks.cut_append after) Prod.mk.eta.symm fun last _ => ?_
  rw [← List.append_assoc, meaning_append_blanks hafter.allBlank_cut,
    meaning_append_blanks hafter.allBlank_cut, meaning_append_blanks hblanks.1]

/-- A change of the layout moves the meanings of a text and does not change them. -/
theorem LayoutEdit.meanings_eq {text edited : List Char} {number : ℕ → ℕ}
    (h : LayoutEdit text edited number) : meanings edited = renumber number (meanings text) := by
  -- Padding and bars end no line, so they stay on the line that they are put on.
  have hbar : ∀ rest, cut '\n' ('|' :: rest) = ('|' :: (cut '\n' rest).1, (cut '\n' rest).2) :=
    fun rest => cut_cons_of_ne (by decide) rest
  cases h with
  | insertBefore hbefore hline => exact meanings_insertBefore hbefore hline
  | insertAfter hafter hline => exact meanings_insertAfter hafter hline
  | @appendLine _ line hbegins hline =>
      have hcut : cut '\n' line = (line, []) := by
        rw [← List.append_nil line, cut_append_of_not_mem hline.1]
        rfl
      have hcongr : meanings (text ++ line) = meanings (text ++ []) := by
        refine meanings_congr hcut rfl fun last hlast => ?_
        rw [hlast hbegins]
        exact meaning_of_ignored hline
      rw [renumber_id, hcongr, List.append_nil]
  | @returnBeforeFeed before after =>
      rw [renumber_id]
      have hblanks : Padding ['\r'] := by decide
      exact meanings_padEnd (Or.inr (Or.inl ⟨after, rfl⟩)) hblanks
  | @padStart before blanks after hbefore hblanks =>
      rw [renumber_id]
      refine meanings_congr (hblanks.cut_append after) Prod.mk.eta.symm fun last hlast => ?_
      rw [hlast hbefore]
      exact meaning_blanks_append hblanks.1 _
  | padEnd hafter hblanks =>
      rw [renumber_id]
      exact meanings_padEnd hafter hblanks
  | @respace before blanks others after hblanks hsome hothers hsome' =>
      rw [renumber_id]
      refine meanings_congr (hothers.cut_append after) (hblanks.cut_append after) fun last _ => ?_
      exact meaning_respace hothers.1 hsome' hblanks.1 hsome last _
  | @padBeforeBar before blanks after hblanks =>
      have hcut := hblanks.cut_append ('|' :: after)
      rw [hbar] at hcut
      rw [renumber_id]
      refine meanings_congr hcut (hbar after) fun last _ => ?_
      exact meaning_insert hblanks.1 (Token.apart_bar _) last
  | @padAfterBar before blanks after hblanks =>
      have hcut := hbar (blanks ++ after)
      rw [hblanks.cut_append after] at hcut
      rw [renumber_id]
      refine meanings_congr hcut (hbar after) fun last _ => ?_
      exact meaning_insert_after_bar hblanks.1 last _

theorem renumber_renumber (number further : ℕ → ℕ) (meanings : List (Option (List Token) × ℕ)) :
    renumber further (renumber number meanings) =
      renumber (fun line => further (number line)) meanings := by
  rw [renumber, renumber, List.map_map]
  rfl

/-- Changes made one after the other move every meaning to where its line went last. -/
theorem Relaid.meanings_eq {text edited : List Char} {number : ℕ → ℕ}
    (h : Relaid text edited number) : meanings edited = renumber number (meanings text) := by
  induction h with
  | refl => exact (renumber_id _).symm
  | edit _ hedit ih => rw [hedit.meanings_eq, ih, renumber_renumber]

/-! ## Loading -/

/-- The rule lines of a text with the tokens that they are read from. -/
theorem meanings_text (text : String) :
    meanings text.toList = (ruleLines text).map fun line => (Token.scan? line.1, line.2) := by
  rw [meanings, meaningsFrom, ruleLines, ← List.filterMap_eq_map, List.filterMap_filter]
  refine List.filterMap_congr fun line _ => ?_
  rw [meaning]
  cases isRuleLine line.1 with
  | true => rfl
  | false => rfl

def readMeaning (line : Option (List Token) × ℕ) : Except LoadError (Located Rule) :=
  match line.1.elim (.error .malformedDefine) Rule.ofTokens with
  | .ok rule => .ok ⟨⟨Grammar.inMemory, some line.2⟩, rule⟩
  | .error fault => .error ⟨⟨Grammar.inMemory, some line.2⟩, .rule fault⟩

theorem readNumbered_eq (line : List Char × ℕ) :
    readNumbered line = readMeaning (Token.scan? line.1, line.2) := by
  rw [readNumbered, readMeaning, Rule.ofLine]
  cases Token.scan? line.1 with
  | none => rfl
  | some tokens => rfl

def Location.renumber (number : ℕ → ℕ) (location : Location) : Location :=
  { location with line? := location.line?.map number }

theorem readMeaning_renumber (number : ℕ → ℕ) (line : Option (List Token) × ℕ) :
    readMeaning (Prod.map id number line) =
      ((readMeaning line).map (Located.relocate (Location.renumber number))).mapError
        (Located.relocate (Location.renumber number)) := by
  unfold readMeaning
  simp only [Prod.map_fst, Prod.map_snd, id_eq]
  cases line.1.elim (.error .malformedDefine) Rule.ofTokens with
  | ok rule => rfl
  | error fault => rfl

namespace Grammar

/-- Loading a text sees the meanings of its lines and nothing else. -/
theorem ofText_eq_meanings (text : String) (asked? : Option Char) :
    ofText text asked? =
      gather ((meanings text.toList).map readMeaning) >>= ofRules inMemory asked? := by
  have hlines : (meanings text.toList).map readMeaning = (ruleLines text).map readNumbered := by
    rw [meanings_text, List.map_map]
    exact List.map_congr_left fun line _ => (readNumbered_eq line).symm
  rw [ofText_eq_bind, readRules, readLines_text, hlines]

/-- Moving the meanings of a text moves its errors, and loads the same grammar otherwise. -/
theorem ofText_eq_of_meanings {text edited : String} {number : ℕ → ℕ}
    (h : meanings edited.toList = renumber number (meanings text.toList)) (asked? : Option Char) :
    ofText edited asked? = (ofText text asked?).mapError
      (List.map (Located.relocate (Location.renumber number))) := by
  have hlines : (meanings edited.toList).map readMeaning =
      ((meanings text.toList).map readMeaning).map fun outcome =>
        (outcome.map (Located.relocate (Location.renumber number))).mapError
          (Located.relocate (Location.renumber number)) := by
    rw [h, renumber, List.map_map, List.map_map]
    exact List.map_congr_left fun line _ => readMeaning_renumber number line
  -- From here on lines are only known by their places.
  rw [ofText_eq_meanings, ofText_eq_meanings, hlines, gather_map]
  cases gather ((meanings text.toList).map readMeaning) with
  | error errors => rfl
  | ok rules => exact ofRules_relocate rfl asked? rules

/-- A text with another layout loads to the same grammar, or to the same errors in the same order,
each at the line where its line went. Its rule lines are those of the first text, with the same
tokens, where they went. -/
theorem ofText_relaid {text edited : String} {number : ℕ → ℕ}
    (h : Relaid text.toList edited.toList number) (asked? : Option Char) :
    ofText edited asked? = (ofText text asked?).mapError
        (List.map (Located.relocate (Location.renumber number))) ∧
      (ruleLines edited).map (fun line => (Token.scan? line.1, line.2)) =
        (ruleLines text).map (fun line => (Token.scan? line.1, number line.2)) := by
  refine ⟨ofText_eq_of_meanings h.meanings_eq asked?, ?_⟩
  rw [← meanings_text, h.meanings_eq, meanings_text, renumber, List.map_map]
  rfl

def cramped : String := "S ::= AB|a\nA := a\nB ::= b"

/-- Here a comment is put before the faulty line, the first line ends in another way, and its bar
is set apart. -/
def spacedOut : String := "S ::= AB |a\r\n ; not done\nA := a\nB ::= b"

/-- The one error is found one line further down. -/
theorem ofText_spacedOut : ∃ number, Relaid cramped.toList spacedOut.toList number ∧
    ofText cramped none = .error [⟨⟨inMemory, some 2⟩, .rule .malformedDefine⟩] ∧
      ofText spacedOut none = .error [⟨⟨inMemory, some 3⟩, .rule .malformedDefine⟩] := by
  -- Three changes one after the other; only the first one moves a line.
  have hcomment : LayoutEdit cramped.toList
      "S ::= AB|a\n ; not done\nA := a\nB ::= b".toList (numberAfter 1) := by
    have hline : IgnoredLine " ; not done".toList :=
      ⟨by decide +kernel, Or.inr ⟨[' '], " not done".toList, by decide, by decide +kernel⟩⟩
    exact @LayoutEdit.insertBefore "S ::= AB|a\n".toList _ "A := a\nB ::= b".toList
      (by decide +kernel) hline
  have hreturn : LayoutEdit "S ::= AB|a\n ; not done\nA := a\nB ::= b".toList
      "S ::= AB|a\r\n ; not done\nA := a\nB ::= b".toList id :=
    @LayoutEdit.returnBeforeFeed "S ::= AB|a".toList " ; not done\nA := a\nB ::= b".toList
  have hbar : LayoutEdit "S ::= AB|a\r\n ; not done\nA := a\nB ::= b".toList
      spacedOut.toList id :=
    @LayoutEdit.padBeforeBar "S ::= AB".toList [' '] "a\r\n ; not done\nA := a\nB ::= b".toList
      (by decide)
  have hrelaid := ((Relaid.refl.edit hcomment).edit hreturn).edit hbar
  have hcramped : ofText cramped none =
      .error [⟨⟨inMemory, some 2⟩, .rule .malformedDefine⟩] := by decide +kernel
  refine ⟨_, hrelaid, hcramped, ?_⟩
  rw [(ofText_relaid hrelaid none).1, hcramped]
  rfl

end Grammar

end ChomskyNormal
