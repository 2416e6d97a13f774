import ChomskyNormal.Proofs.Load.Relocation
import ChomskyNormal.Proofs.Load.Report
import ChomskyNormal.Proofs.Text.Encoding

/-!
# Files and texts

A file that holds the UTF-8 of a text loads as the text does, with the file's name where errors
name the place. In any other file there are lines that are not UTF-8. Each of them is reported, in
its turn among the rule lines that are rejected, and nothing of the file is loaded.

- `Located.inFile` : a value at the same line of another file;
- `Grammar.ofLines_inFile` : names of files matter for locations only;
- `FileLineError` : the errors of the lines of a file;
- `Grammar.ofFile_agrees` : files that hold texts, and files that do not.
-/

namespace ChomskyNormal

/-! ## Names of files -/

def Located.inFile {α : Type} (file : String) (located : Located α) : Located α where
  location := { located.location with file }
  value := located.value

theorem readLines_inFile (file other : String) (lines : List (Except FileFault (List Char))) :
    readLines file lines = (readLines other lines).map fun outcome =>
      (outcome.map (Located.inFile file)).mapError (Located.inFile file) := by
  rw [readLines, readLines, List.map_filterMap]
  refine List.filterMap_congr fun line _ => ?_
  rcases line with ⟨line, number⟩
  cases line with
  | error fault => rfl
  | ok line =>
      simp only [readLine]
      split
      · cases Rule.ofLine line with
        | ok rule => rfl
        | error fault => rfl
      · rfl

namespace Grammar

/-- The name of the file is the only thing that it adds to what its lines say. -/
theorem ofLines_inFile (file other : String) (start? : Option Char)
    (lines : List (Except FileFault (List Char))) :
    ofLines file start? lines =
      (ofLines other start? lines).mapError (List.map (Located.inFile file)) := by
  rw [ofLines, ofLines, readRules, readRules, readLines_inFile file other, gather_map]
  cases gather (readLines other lines) with
  | ok rules =>
      -- Only the file changes, and the line stays.
      exact @ofRules_relocate (fun location => { location with file }) file other rfl start? rules
  | error errors => rfl

end Grammar

/-! ## Lines of a file -/

/-- A line is decoded to the letters that it encodes. -/
theorem decodeLine_eq_ok_iff {line : List UInt8} {letters : List Char} :
    Grammar.decodeLine line = .ok letters ↔ line = letters.flatMap String.utf8EncodeChar := by
  -- Bytes are compared as lists, since a line is one.
  have hbytes : ∀ text : String, text.toUTF8 = ⟨line.toArray⟩ ↔
      line = text.toList.flatMap String.utf8EncodeChar := by
    intro text
    rw [ByteArray.ext_iff, ← Array.toList_inj, toList_toUTF8]
    exact eq_comm
  unfold Grammar.decodeLine
  constructor
  · intro h
    split at h
    · next text htext =>
        cases h
        exact (hbytes text).1 (fromUTF8?_eq_some_iff.1 htext)
    · cases h
  · intro h
    have htext : String.fromUTF8? ⟨line.toArray⟩ = some (String.ofList letters) := by
      rw [fromUTF8?_eq_some_iff, hbytes, String.toList_ofList, h]
    rw [htext]
    exact congrArg Except.ok String.toList_ofList

/-- A line that encodes no letters cannot be read from its file. -/
theorem decodeLine_cases (line : List UInt8) :
    (∃ letters : List Char, line = letters.flatMap String.utf8EncodeChar ∧
        Grammar.decodeLine line = .ok letters) ∨
      (∀ letters : List Char, line ≠ letters.flatMap String.utf8EncodeChar) ∧
        Grammar.decodeLine line = .error .invalidData := by
  cases hline : Grammar.decodeLine line with
  | ok letters => exact Or.inl ⟨letters, decodeLine_eq_ok_iff.1 hline, rfl⟩
  | error fault =>
      refine Or.inr ⟨?_, ?_⟩
      · intro letters hletters
        rw [decodeLine_eq_ok_iff.2 hletters] at hline
        cases hline
      · unfold Grammar.decodeLine at hline
        split at hline
        · cases hline
        · exact hline.symm

/-- A line that is not the UTF-8 of any text is reported for the file as a whole, and a rule line
that is rejected at its number. All lines count. -/
inductive FileLineError (file : String) (contents : ByteArray) : ℕ → LoadError → Prop
  | undecodable {index : ℕ} {line : List UInt8} :
      (lines .bytes contents.data.toList)[index]? = some line →
        (∀ text : String, text.toUTF8.data.toList ≠ line) →
          FileLineError file contents (index + 1) ⟨⟨file, none⟩, .file .invalidData⟩
  | rejected {index : ℕ} {text : String} {fault : RuleFault} :
      (lines .bytes contents.data.toList)[index]? = some text.toUTF8.data.toList →
        isRuleLine text.toList = true → Rule.ofLine text.toList = .error fault →
          FileLineError file contents (index + 1) ⟨⟨file, some (index + 1)⟩, .rule fault⟩

def lineError? (file : String) (line : List UInt8 × ℕ) : Option LoadError :=
  (readLine file line.2 (Grammar.decodeLine line.1)).bind errorOf?

/-- The faults of a file are those that show on reading its lines one by one. -/
theorem fileLineError_iff {file : String} {contents : ByteArray} {number : ℕ} {error : LoadError} :
    FileLineError file contents number error ↔
      ∃ line, (line, number) ∈ (lines .bytes contents.data.toList).zipIdx 1 ∧
        lineError? file (line, number) = some error := by
  constructor
  · intro h
    cases h with
    | @undecodable index line hline hbad =>
        refine ⟨line, mem_zipIdx_one_iff.2 ⟨index, rfl, hline⟩, ?_⟩
        rcases decodeLine_cases line with ⟨letters, hletters, _⟩ | ⟨_, hdecode⟩
        · refine absurd ?_ (hbad (String.ofList letters))
          rw [toList_toUTF8, String.toList_ofList, hletters]
        · rw [lineError?, hdecode]
          rfl
    | rejected hline hrule hfault =>
        refine ⟨_, mem_zipIdx_one_iff.2 ⟨_, rfl, hline⟩, ?_⟩
        rw [lineError?, decodeLine_eq_ok_iff.2 (toList_toUTF8 _), readLine, if_pos hrule, hfault]
        rfl
  · rintro ⟨line, hmem, herror⟩
    rcases mem_zipIdx_one_iff.1 hmem with ⟨index, rfl, hline⟩
    -- A line that encodes letters is judged as a rule line, and any other one is undecodable.
    rcases decodeLine_cases line with ⟨letters, rfl, hdecode⟩ | ⟨hbad, hdecode⟩
    · rw [← String.toList_ofList (l := letters), ← toList_toUTF8] at hline
      rw [lineError?, hdecode, readLine, ← String.toList_ofList (l := letters)] at herror
      split at herror
      · next hrule =>
          cases hfault : Rule.ofLine (String.ofList letters).toList with
          | ok rule =>
              rw [hfault] at herror
              cases herror
          | error fault =>
              rw [hfault] at herror
              cases herror
              exact .rejected hline hrule hfault
      · cases herror
    · rw [lineError?, hdecode] at herror
      cases herror
      refine .undecodable hline fun text htext => hbad text.toList ?_
      rw [← htext, toList_toUTF8]

namespace Grammar

theorem filterMap_errorOf?_readLines (file : String) (contents : ByteArray) :
    (readLines file ((lines .bytes contents.data.toList).map decodeLine)).filterMap errorOf? =
      ((lines .bytes contents.data.toList).zipIdx 1).filterMap (lineError? file) := by
  rw [readLines, List.zipIdx_map, List.filterMap_map, List.filterMap_filterMap]
  rfl

/-- The errors of a file come line by line, and no line has two. -/
theorem listsInOrder_fileLineError (file : String) (contents : ByteArray) :
    ListsInOrder (FileLineError file contents)
      ((readLines file ((lines .bytes contents.data.toList).map decodeLine)).filterMap
        errorOf?) := by
  rw [filterMap_errorOf?_readLines]
  exact listsInOrder_filterMap (pairwise_zipIdx _ 1) fun _ _ => fileLineError_iff

/-! ## Files -/

/-- The lines of a file that holds the UTF-8 of a text are those of the text. -/
theorem map_decodeLine_lines (text : String) :
    (lines .bytes text.toUTF8.data.toList).map decodeLine =
      (lines .chars text.toList).map .ok := by
  rw [toList_toUTF8, kept_utf8.lines_flatMap, List.map_map]
  exact List.map_congr_left fun line _ => decodeLine_eq_ok_iff.2 rfl

/-- A file that does not hold the UTF-8 of any text has a line that does not. -/
theorem exists_fileLineError {file : String} {contents : ByteArray}
    (h : ∀ text : String, text.toUTF8 ≠ contents) :
    ∃ number error, FileLineError file contents number error := by
  by_contra hnone
  have hall : ∀ line ∈ lines .bytes contents.data.toList,
      ∃ letters : List Char, line = letters.flatMap String.utf8EncodeChar := by
    intro line hline
    by_contra hbad
    rcases List.mem_iff_getElem?.1 hline with ⟨index, hindex⟩
    refine hnone ⟨_, _, .undecodable hindex fun text htext => hbad ⟨text.toList, ?_⟩⟩
    rw [← htext, toList_toUTF8]
  rcases kept_utf8.exists_text hall with ⟨letters, hletters⟩
  refine h (String.ofList letters) ?_
  rw [ByteArray.ext_iff, ← Array.toList_inj, toList_toUTF8, String.toList_ofList, hletters]

/-- A file with the UTF-8 of a text loads as the text does, the name of the file apart. Any other
file is refused, and the report has the errors of all its lines and nothing else. -/
theorem ofFile_agrees (file : String) (contents : ByteArray) (asked? : Option Char) :
    (∀ text : String, text.toUTF8 = contents →
      ofFile file (some contents) asked? =
        (ofText text asked?).mapError (List.map (Located.inFile file))) ∧
    ((∀ text : String, text.toUTF8 ≠ contents) →
      ∃ errors, ofFile file (some contents) asked? = .error errors ∧
        ListsInOrder (FileLineError file contents) errors) := by
  constructor
  · rintro text rfl
    rw [ofFile, map_decodeLine_lines]
    exact ofLines_inFile file inMemory asked? _
  · intro h
    have hlisted := listsInOrder_fileLineError file contents
    have hread := gather_eq_error_iff.2 ⟨hlisted.ne_nil (exists_fileLineError h), rfl⟩
    exact ⟨_, bind_eq_error_iff.2 (Or.inl hread), hlisted⟩

/-- A comment that is not UTF-8, a faulty rule, and a rule line that breaks off within a letter. -/
def garbled : ByteArray :=
  "S ::= a\r\n; ".toUTF8 ++ ⟨#[0xFF, 0x0A]⟩ ++ "\nA = a\nB ::= ".toUTF8 ++ ⟨#[0xCE]⟩

/-- Decoding fails on two lines, and what is between them is still judged. -/
theorem ofFile_garbled :
    ofFile "g.cnf" (some scattered.toUTF8) (some 'Q') =
        (ofText scattered (some 'Q')).mapError (List.map (Located.inFile "g.cnf")) ∧
      (∀ text : String, text.toUTF8 ≠ garbled) ∧
      ListsInOrder (FileLineError "g.cnf" garbled)
        [⟨⟨"g.cnf", none⟩, .file .invalidData⟩, ⟨⟨"g.cnf", some 4⟩, .rule .missingDefine⟩,
          ⟨⟨"g.cnf", none⟩, .file .invalidData⟩] := by
  have hgarbled : ∀ text : String, text.toUTF8 ≠ garbled := by
    intro text htext
    have hsome := fromUTF8?_eq_some_iff.2 htext
    have hnone : String.fromUTF8? garbled = none := by decide +kernel
    rw [hnone] at hsome
    cases hsome
  -- The report is computed, and that it is complete follows from the general theorem.
  have hload : ofFile "g.cnf" (some garbled) none =
      .error [⟨⟨"g.cnf", none⟩, .file .invalidData⟩, ⟨⟨"g.cnf", some 4⟩, .rule .missingDefine⟩,
        ⟨⟨"g.cnf", none⟩, .file .invalidData⟩] := by
    decide +kernel
  refine ⟨(ofFile_agrees "g.cnf" scattered.toUTF8 (some 'Q')).1 scattered rfl, hgarbled, ?_⟩
  rcases (ofFile_agrees "g.cnf" garbled none).2 hgarbled with ⟨errors, hreported, hlisted⟩
  rw [hload] at hreported
  cases hreported
  exact hlisted

end Grammar

end ChomskyNormal
