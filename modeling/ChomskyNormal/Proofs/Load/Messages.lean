import ChomskyNormal.Proofs.Load.File
import Mathlib.Data.List.Pairwise
import Mathlib.Tactic.TFAE

/-!
# Messages that determine the errors

A message says which fault it is about by the text around what it quotes. The texts of any two
variants differ at their fronts or at their ends, whatever stands between them, so no message is
that of another fault. In front of the message stands the location, up to the first bracket that
closes. So a report that is read gives back its errors, and these are what the comparison of
reports looks at.

- `LoadFault.agrees_iff`, `reportsAgree_iff` : the comparisons are equality;
- `Frame` : the text around what a message quotes;
- `LoadFault.message_injective` : no two faults have one message;
- `Located.text_inj` : errors as a user sees them;
- `Grammar.ofText_reports_agree` : comparing the reports of any two texts.
-/

namespace ChomskyNormal

/-! ## Comparing -/

/-- No variant is compared without what it carries. -/
theorem LoadFault.agrees_iff {fault other : LoadFault} :
    fault.agrees other = true ↔ fault = other := by
  cases fault with
  | file fault => cases other <;> simp [agrees, sameVariant]
  | rule fault =>
      cases other with
      | rule other => cases fault <;> cases other <;> simp [agrees, sameVariant, RuleFault.ctorIdx]
      | _ => simp [agrees, sameVariant]
  | noRule => cases other <;> simp [agrees, sameVariant]
  | grammar error => cases other <;> simp [agrees, sameVariant]

theorem LoadError.agrees_iff {error other : LoadError} :
    error.agrees other = true ↔ error = other := by
  rcases error with ⟨location, fault⟩
  rcases other with ⟨otherLocation, otherFault⟩
  rw [agrees, Bool.and_eq_true, beq_iff_eq, LoadFault.agrees_iff, Located.mk.injEq]

/-- Reports that agree by hand are equal. -/
theorem reportsAgree_iff {errors others : List LoadError} :
    reportsAgree errors others = true ↔ errors = others := by
  unfold reportsAgree
  induction errors generalizing others with
  | nil => cases others <;> simp
  | cons error errors ih =>
      cases others with
      | nil => simp
      | cons other others =>
          rw [List.isEqv_cons_cons, Bool.and_eq_true, LoadError.agrees_iff, ih, List.cons.injEq]

/-! ## Messages -/

/-- The text of a message before and behind what it quotes. -/
structure Frame where
  before : String
  behind : String

namespace Frame

variable {frame other : Frame}

def fill (frame : Frame) (quoted : List Char) : List Char :=
  frame.before.toList ++ quoted ++ frame.behind.toList

def plain (message : String) : Frame :=
  ⟨message, ""⟩

theorem fill_plain (message : String) : (plain message).fill [] = message.toList := by
  rw [fill, plain, String.toList_empty, List.append_nil, List.append_nil]

theorem fill_inj {quoted otherQuoted : List Char} :
    frame.fill quoted = frame.fill otherQuoted ↔ quoted = otherQuoted := by
  rw [fill, fill, List.append_left_inj, List.append_right_inj]

/-- Neither front begins the other, or neither end ends the other. -/
def Apart (frame other : Frame) : Prop :=
  ¬ (frame.before.toList <+: other.before.toList ∨ other.before.toList <+: frame.before.toList) ∨
    ¬ (frame.behind.toList <:+ other.behind.toList ∨ other.behind.toList <:+ frame.behind.toList)
  deriving Decidable

/-- Frames that are apart never make one message, whatever they quote. -/
theorem Apart.fill_ne (h : frame.Apart other) (quoted otherQuoted : List Char) :
    frame.fill quoted ≠ other.fill otherQuoted := by
  intro hfill
  have hbefore : frame.before.toList <+: frame.fill quoted :=
    ⟨quoted ++ frame.behind.toList, (List.append_assoc _ _ _).symm⟩
  have hotherBefore : other.before.toList <+: other.fill otherQuoted :=
    ⟨otherQuoted ++ other.behind.toList, (List.append_assoc _ _ _).symm⟩
  have hbehind : frame.behind.toList <:+ frame.fill quoted := List.suffix_append _ _
  have hotherBehind : other.behind.toList <:+ other.fill otherQuoted := List.suffix_append _ _
  rw [← hfill] at hotherBefore hotherBehind
  -- Two fronts of one text, or two of its ends, are never apart.
  rcases h with h | h
  · exact h (List.prefix_or_prefix_of_prefix hbefore hotherBefore)
  · exact h (List.suffix_or_suffix_of_suffix hbehind hotherBehind)

instance : Std.Symm Apart where
  symm _ _ h := h.imp (mt Or.symm) (mt Or.symm)

end Frame

/-! ### Rules -/

namespace RuleFault

def frame : RuleFault → Frame
  | .invalidSymbol _ => ⟨"`", "` is neither a nonterminal (uppercase) nor a terminal (lowercase)"⟩
  | fault => .plain fault.message

def quoted : RuleFault → List Char
  | .invalidSymbol c => [c]
  | _ => []

/-- Each message is its frame, filled with what it quotes. -/
theorem toList_message (fault : RuleFault) :
    fault.message.toList = fault.frame.fill fault.quoted := by
  cases fault with
  | invalidSymbol c =>
      simp only [message, frame, quoted, Frame.fill, toString, Char.toString_eq_singleton,
        String.toList_append, String.toList_singleton]
  | _ => exact (Frame.fill_plain _).symm

end RuleFault

/-! ### Grammars -/

namespace GrammarError

def frame : GrammarError → Frame
  | .alreadyRegistered _ => ⟨"symbol `", "` is already registered"⟩
  | .wrongCase _ =>
      ⟨"`", "` is not a valid symbol for its class " ++
        "(non-terminals are uppercase, terminals lowercase)"⟩
  | .unknownNonterminal _ => ⟨"`", "` is not a registered non-terminal"⟩
  | .unknownSymbol _ => ⟨"`", "` is used in a production but was never registered"⟩
  | .malformedProduction _ =>
      ⟨"`", "` is not in Chomsky Normal Form (expected two non-terminals or one terminal)"⟩
  | .duplicateProduction _ _ => ⟨"production `", "` already exists"⟩
  | .startAlreadySet _ => ⟨"the start symbol is already set to `", "`"⟩

def quoted : GrammarError → List Char
  | .alreadyRegistered c => [c]
  | .wrongCase c => [c]
  | .unknownNonterminal c => [c]
  | .unknownSymbol c => [c]
  | .malformedProduction text => text.toList
  | .duplicateProduction head text => [head] ++ "::=".toList ++ text.toList
  | .startAlreadySet current => [current]

theorem toList_message (error : GrammarError) :
    error.message.toList = error.frame.fill error.quoted := by
  unfold message
  cases error <;>
    simp only [frame, quoted, Frame.fill, toString, Char.toString_eq_singleton,
      String.toList_append, String.toList_singleton, List.append_assoc]

/-- The same error with something else quoted. -/
def blank : GrammarError → GrammarError
  | .alreadyRegistered _ => .alreadyRegistered ' '
  | .wrongCase _ => .wrongCase ' '
  | .unknownNonterminal _ => .unknownNonterminal ' '
  | .unknownSymbol _ => .unknownSymbol ' '
  | .malformedProduction _ => .malformedProduction ""
  | .duplicateProduction _ _ => .duplicateProduction ' ' ""
  | .startAlreadySet _ => .startAlreadySet ' '

theorem frame_blank (error : GrammarError) : error.blank.frame = error.frame := by
  cases error <;> rfl

theorem eq_of_blank {error other : GrammarError} (hblank : error.blank = other.blank)
    (hquoted : error.quoted = other.quoted) : error = other := by
  cases error <;> cases other <;> simp_all [blank, quoted, ← String.toList_inj]

end GrammarError

/-! ### Loading -/

namespace LoadFault

def frame : LoadFault → Frame
  | .rule fault => fault.frame
  | .grammar error => error.frame
  | fault => .plain fault.message

def quoted : LoadFault → List Char
  | .rule fault => fault.quoted
  | .grammar error => error.quoted
  | _ => []

theorem toList_message (fault : LoadFault) :
    fault.message.toList = fault.frame.fill fault.quoted := by
  cases fault with
  | rule fault => exact fault.toList_message
  | grammar error => exact error.toList_message
  | _ => exact (Frame.fill_plain _).symm

/-- The same fault with something else quoted. -/
def blank : LoadFault → LoadFault
  | .rule (.invalidSymbol _) => .rule (.invalidSymbol ' ')
  | .grammar error => .grammar error.blank
  | fault => fault

theorem frame_blank (fault : LoadFault) : fault.blank.frame = fault.frame := by
  cases fault with
  | rule fault => cases fault <;> rfl
  | grammar error => exact error.frame_blank
  | _ => rfl

theorem eq_of_blank {fault other : LoadFault} (hblank : fault.blank = other.blank)
    (hquoted : fault.quoted = other.quoted) : fault = other := by
  cases fault with
  | rule fault =>
      cases other with
      | rule other => cases fault <;> cases other <;> simp_all [blank, quoted, RuleFault.quoted]
      | _ => cases fault <;> cases hblank
  | grammar error =>
      cases other with
      | rule other => cases other <;> cases hblank
      | grammar other =>
          exact congrArg _ (GrammarError.eq_of_blank (LoadFault.grammar.inj hblank) hquoted)
      | _ => cases hblank
  | _ =>
      cases other with
      | rule other => cases other <;> cases hblank
      | grammar other => cases hblank
      | _ => exact hblank

/-- The faults of all variants, whatever they quote. -/
def blanks : List LoadFault :=
  [.file .notFound, .file .invalidData, .rule .malformedDefine, .rule .blankLine,
    .rule .missingHead, .rule .missingDefine, .rule .unexpectedDefine, .rule .emptyAlternative,
    .rule (.invalidSymbol ' '), .noRule, .grammar (.alreadyRegistered ' '),
    .grammar (.wrongCase ' '), .grammar (.unknownNonterminal ' '), .grammar (.unknownSymbol ' '),
    .grammar (.malformedProduction ""), .grammar (.duplicateProduction ' ' ""),
    .grammar (.startAlreadySet ' ')]

theorem blank_mem_blanks (fault : LoadFault) : fault.blank ∈ blanks := by
  cases fault with
  | file fault => cases fault <;> simp [blank, blanks]
  | rule fault => cases fault <;> simp [blank, blanks]
  | noRule => simp [blank, blanks]
  | grammar error => cases error <;> simp [blank, blanks, GrammarError.blank]

/-- Every two variants can be told apart by the text around the quote. -/
theorem pairwise_apart_blanks : (blanks.map frame).Pairwise Frame.Apart := by
  decide +kernel

/-- The text around the quote tells the variant, and then the quote is all that is left. -/
theorem message_injective : Function.Injective message := by
  intro fault other h
  have hfill : fault.frame.fill fault.quoted = other.frame.fill other.quoted := by
    rw [← toList_message, ← toList_message, h]
  -- Frames of different variants are apart, so equal messages have one variant.
  have hblank : fault.blank = other.blank := by
    by_contra hblank
    have hsymm : Std.Symm fun fault other : LoadFault => fault.frame.Apart other.frame :=
      ⟨fun _ _ hapart => symm hapart⟩
    have hapart := (List.pairwise_map.1 pairwise_apart_blanks).forall fault.blank_mem_blanks
      other.blank_mem_blanks hblank
    rw [frame_blank, frame_blank] at hapart
    exact hapart.fill_ne _ _ hfill
  -- With one frame, equal messages quote the same.
  have hframe : fault.frame = other.frame := by
    rw [← frame_blank, hblank, frame_blank]
  rw [hframe, Frame.fill_inj] at hfill
  exact eq_of_blank hblank hfill

end LoadFault

/-! ## Errors -/

namespace Location

theorem toList_text_some (file : String) (line : ℕ) :
    (⟨file, some line⟩ : Location).text.toList = file.toList ++ ':' :: Nat.toDigits 10 line := by
  simp [text, toString, Nat.toList_repr]

/-- Lines of one file are told apart by their numbers. -/
theorem text_inj {location other : Location} (hfile : location.file = other.file) :
    location.text = other.text ↔ location = other := by
  refine ⟨fun h => ?_, congrArg text⟩
  rcases location with ⟨file, line?⟩
  rcases other with ⟨_, otherLine?⟩
  cases hfile
  have hlists := congrArg String.toList h
  cases line? with
  | none =>
      cases otherLine? with
      | none => rfl
      | some line =>
          rw [toList_text_some] at hlists
          cases List.self_eq_append_right.1 hlists
  | some line =>
      cases otherLine? with
      | none =>
          rw [toList_text_some] at hlists
          cases List.self_eq_append_right.1 hlists.symm
      | some otherLine =>
          -- Different numbers have different digits.
          rw [toList_text_some, toList_text_some, List.append_right_inj, List.cons.injEq] at hlists
          have hline := congrArg (Nat.ofDigitChars 10 · 0) hlists.2
          rw [Nat.ofDigitChars_toDigits (by decide) (by decide),
            Nat.ofDigitChars_toDigits (by decide) (by decide)] at hline
          rw [hline]

theorem bracket_not_mem_text {location : Location} (hfile : ']' ∉ location.file.toList) :
    ']' ∉ location.text.toList := by
  rcases location with ⟨file, line?⟩
  cases line? with
  | none => exact hfile
  | some line =>
      rw [toList_text_some, List.mem_append, List.mem_cons]
      rintro (hmem | hcolon | hdigit)
      · exact hfile hmem
      · revert hcolon
        decide
      · have hisDigit := Nat.isDigit_of_mem_toDigits (by decide) (by decide) hdigit
        revert hisDigit
        decide

end Location

namespace Located

theorem toList_text (error : LoadError) :
    error.text.toList = "\x1b[31;49;1m[".toList ++ (error.location.text.toList ++
      ']' :: ("\x1b[39;49;1m  ".toList ++ error.value.message.toList ++ "\x1b[0m".toList)) := by
  simp [text, toString]

/-- The location ends at the first bracket that closes, and the message comes after it. -/
theorem text_inj {error other : LoadError} (hfile : error.location.file = other.location.file)
    (hbracket : ']' ∉ error.location.file.toList) : error.text = other.text ↔ error = other := by
  refine ⟨fun h => ?_, congrArg text⟩
  have hlists := congrArg String.toList h
  rw [toList_text, toList_text, List.append_right_inj, append_separator_inj
    (Location.bracket_not_mem_text hbracket)
    (Location.bracket_not_mem_text (hfile ▸ hbracket)), List.append_left_inj,
    List.append_right_inj] at hlists
  have hlocation := (Location.text_inj hfile).1 (String.toList_inj.1 hlists.1)
  have hvalue := LoadFault.message_injective (String.toList_inj.1 hlists.2)
  calc
    error = ⟨error.location, error.value⟩ := rfl
    _ = ⟨other.location, other.value⟩ := by rw [hlocation, hvalue]
    _ = other := rfl

/-- Reports on one file are told apart error by error. -/
theorem map_text_inj {file : String} (hbracket : ']' ∉ file.toList) {errors others : List LoadError}
    (herrors : ∀ error ∈ errors, error.location.file = file)
    (hothers : ∀ error ∈ others, error.location.file = file) :
    errors.map text = others.map text ↔ errors = others := by
  induction errors generalizing others with
  | nil =>
      rw [List.map_nil, eq_comm, List.map_eq_nil_iff]
      exact eq_comm
  | cons error errors ih =>
      rw [List.forall_mem_cons] at herrors
      cases others with
      | nil => simp
      | cons other others =>
          rw [List.forall_mem_cons] at hothers
          have hfirst : error.text = other.text ↔ error = other :=
            text_inj (herrors.1.trans hothers.1.symm) (herrors.1 ▸ hbracket)
          rw [List.map_cons, List.map_cons, List.cons.injEq, List.cons.injEq, hfirst,
            ih herrors.2 hothers.2]

end Located

namespace Grammar

/-- All errors of a text are at the one file that stands for it. -/
theorem file_of_mem_errors {text : String} {start? : Option Char} {errors : List LoadError}
    (h : ofText text start? = .error errors) {error : LoadError} (hmem : error ∈ errors) :
    error.location.file = inMemory := by
  rw [ofText, ofLines_inFile inMemory inMemory, mapError_eq_error_iff] at h
  rcases h with ⟨originals, _, rfl⟩
  rcases List.mem_map.1 hmem with ⟨original, _, rfl⟩
  rfl

/-- Comparing reports is an equivalence. The reports of any two texts agree when they read the
same, and then they have the same errors. -/
theorem ofText_reports_agree :
    Equivalence (fun errors others => reportsAgree errors others = true) ∧
      ∀ {text otherText : String} {start? otherStart? : Option Char}
        {errors others : List LoadError},
        ofText text start? = .error errors → ofText otherText otherStart? = .error others →
          List.TFAE [reportsAgree errors others = true,
            errors.map Located.text = others.map Located.text, errors = others] := by
  have hequal : ∀ errors others, (reportsAgree errors others = true) = (errors = others) :=
    fun _ _ => propext reportsAgree_iff
  simp only [hequal]
  refine ⟨eq_equivalence, ?_⟩
  intro text otherText start? otherStart? errors others h hother
  -- The name that stands for the file holds no bracket.
  have htexts : errors.map Located.text = others.map Located.text ↔ errors = others :=
    Located.map_text_inj (by decide +kernel) (fun _ => file_of_mem_errors h)
      fun _ => file_of_mem_errors hother
  tfae_have 1 ↔ 3 := Iff.rfl
  tfae_have 2 ↔ 3 := htexts
  tfae_finish

def garbledReport (letter : Char) : List LoadError :=
  [⟨⟨inMemory, some 1⟩, .rule (.invalidSymbol letter)⟩,
    ⟨⟨inMemory, some 2⟩, .rule .malformedDefine⟩]

/-- Two texts with one report, and a third that differs in what is quoted. -/
theorem garbled_reports_agree :
    ofText "S ::= a1\nA := b" none = .error (garbledReport '1') ∧
      ofText "T ::= c|1\nC : D" (some 'C') = .error (garbledReport '1') ∧
      ofText "S ::= a2\nA := b" none = .error (garbledReport '2') ∧
      reportsAgree (garbledReport '1') (garbledReport '1') = true ∧
      reportsAgree (garbledReport '1') (garbledReport '2') = false ∧
      (garbledReport '1').map Located.text ≠ (garbledReport '2').map Located.text := by
  have hfirst : ofText "S ::= a1\nA := b" none = .error (garbledReport '1') := by decide +kernel
  have hsame : ofText "T ::= c|1\nC : D" (some 'C') = .error (garbledReport '1') := by
    decide +kernel
  have hother : ofText "S ::= a2\nA := b" none = .error (garbledReport '2') := by decide +kernel
  have hdiffer : garbledReport '1' ≠ garbledReport '2' := by decide
  have hagree := ofText_reports_agree.2 hfirst hsame
  have hdisagree := ofText_reports_agree.2 hfirst hother
  refine ⟨hfirst, hsame, hother, (hagree.out 0 2).2 rfl, ?_, ?_⟩
  · exact Bool.eq_false_iff.2 (mt (hdisagree.out 0 2).1 hdiffer)
  · exact mt (hdisagree.out 1 2).1 hdiffer

end Grammar

end ChomskyNormal
