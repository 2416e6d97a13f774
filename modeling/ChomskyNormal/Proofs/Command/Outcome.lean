import ChomskyNormal.Command.Run
import ChomskyNormal.Proofs.Load.RoundTrip
import ChomskyNormal.Proofs.Sampling.Settling

/-!
# What a run reports

A run answers the words before the first one that cannot be checked. Only where all of them can be
checked it goes on to sample, and then it samples as many words as it was asked for, or none.

- `Answer` : what is written for one word;
- `Reports` : what a run with a loaded grammar comes to;
- `answerWords_cases` : where the answers come to their end;
- `sampleWords_cases` : how many words are sampled;
- `respond_reports` : all together, from the arguments on.
-/

namespace ChomskyNormal.Command

/-! ## Statements -/

def Checkable (grammar : Grammar) (word : String) : Prop :=
  word ≠ "" ∧ ∀ c ∈ word.toList, c ∈ grammar.terminals

/-- What is written for a word: whether the start symbol derives it, and its table if wanted. -/
inductive Answer (grammar : Grammar) (start : Char) (showTable : Bool) (word : String) :
    List String → Prop
  | yes {table : Table} :
      grammar.table word = .ok table → grammar.productions.Derives start word.toList →
        Answer grammar start showTable word
          ((word ++ ": yes") :: if showTable then [table.text] else [])
  | no {table : Table} :
      grammar.table word = .ok table → ¬ grammar.productions.Derives start word.toList →
        Answer grammar start showTable word
          ((word ++ ": no") :: if showTable then [table.text] else [])

def Answers (grammar : Grammar) (start : Char) (showTable : Bool) :
    List String → List (List String) → Prop :=
  List.Forall₂ (Answer grammar start showTable)

structure FittingTree (grammar : Grammar) (start : Char) (maxDepth : ℕ) (tree : Tree) : Prop where
  follows : tree.Follows grammar.productions
  root : tree.root = start
  height : tree.height ≤ maxDepth

/-- What a run with a loaded grammar comes to. -/
inductive Reports (grammar : Grammar) (start : Char) (request : Request) : Outcome → Prop
  /-- The words before the first one that cannot be checked are answered, and that is all. -/
  | stopped {checked later : List String} {bad : String} {answers : List (List String)}
      {error : WordError} :
      request.words = checked ++ bad :: later → (∀ word ∈ checked, Checkable grammar word) →
        ¬ Checkable grammar bad → Answers grammar start request.table checked answers →
          Reports grammar start request ⟨1, answers.flatten, wordReport bad error⟩
  /-- All words are answered, and as many words are sampled as were asked for. -/
  | sampled {answers : List (List String)} {trees : List Tree} :
      (∀ word ∈ request.words, Checkable grammar word) →
        Answers grammar start request.table request.words answers →
          trees.length = request.amount →
            (∀ tree ∈ trees, FittingTree grammar start request.maxDepth tree) →
              Reports grammar start request ⟨0, answers.flatten ++ trees.map Tree.word, []⟩
  /-- All words are answered, and none is sampled, since no tree is low enough. -/
  | unsampled {answers : List (List String)} {error : SampleError} :
      (∀ word ∈ request.words, Checkable grammar word) →
        Answers grammar start request.table request.words answers → 1 ≤ request.amount →
          (∀ tree, ¬ FittingTree grammar start request.maxDepth tree) →
            Reports grammar start request ⟨1, answers.flatten, sampleReport error⟩

/-- The source settles all choices that come up in a run: those of its samples, if it comes so
far. -/
def Request.SettledBy (request : Request) (source : Source) (grammar : Grammar) : Prop :=
  (∀ word ∈ request.words, Checkable grammar word) →
    ∀ stop, repeatSample (grammar.sample request.maxDepth source) request.amount 0 ≠
      .error .stalled stop

section

variable {grammar : Grammar} {start : Char} {showTable : Bool} {request : Request}
  {source : Source} {maxDepth amount position next : ℕ} {trees : List Tree}

/-! ## Checking -/

section Checking

variable (h : grammar.WellFormed) (hstart : grammar.start? = some start)
include h hstart

/-- What is written for a word says what its table says. -/
theorem answer_of_table {word : String} {table : Table} (htable : grammar.table word = .ok table) :
    Answer grammar start showTable word
      ((word ++ if table.isDerived then ": yes" else ": no") ::
        if showTable then [table.text] else []) := by
  have hderives := h.isDerived_table_iff htable hstart
  by_cases hderived : table.isDerived = true
  · rw [if_pos hderived]
    exact .yes htable (hderives.1 hderived)
  · rw [if_neg hderived]
    exact .no htable (mt hderives.2 hderived)

variable (hsome : ∃ head rhs, rhs ∈ grammar.alternatives head)
include hsome

/-- The words that have a table are those of terminals, and not empty. -/
theorem exists_table_iff_checkable (word : String) :
    (∃ table, grammar.table word = .ok table) ↔ Checkable grammar word := by
  rw [h.exists_table_iff, Checkable, Ne, Ne, String.toList_eq_nil_iff]
  constructor
  · rintro ⟨_, _, hword, hall⟩
    exact ⟨hword, hall⟩
  · rintro ⟨hword, hall⟩
    exact ⟨hsome, ⟨start, hstart⟩, hword, hall⟩

/-- One word is answered, or its failure is reported. -/
theorem answerWord_cases (showTable : Bool) (word : String) :
    (Checkable grammar word ∧ ∃ answer, answerWord grammar showTable word = .ok answer ∧
      Answer grammar start showTable word answer) ∨
    ¬ Checkable grammar word ∧ ∃ error, answerWord grammar showTable word = .error error := by
  rw [← exists_table_iff_checkable h hstart hsome]
  unfold answerWord
  cases htable : grammar.table word with
  | ok table =>
      exact Or.inl ⟨⟨table, rfl⟩, _, rfl, answer_of_table h hstart htable⟩
  | error error =>
      exact Or.inr ⟨nofun, error, rfl⟩

/-- Either all words are answered, or those before the first one that cannot be checked. -/
theorem answerWords_cases (showTable : Bool) (words : List String) :
    (∃ answers, answerWords grammar showTable words = (answers.flatten, none) ∧
      (∀ word ∈ words, Checkable grammar word) ∧
        Answers grammar start showTable words answers) ∨
    ∃ checked bad later answers error,
      answerWords grammar showTable words = (answers.flatten, some (bad, error)) ∧
        words = checked ++ bad :: later ∧ (∀ word ∈ checked, Checkable grammar word) ∧
          ¬ Checkable grammar bad ∧ Answers grammar start showTable checked answers := by
  induction words with
  | nil => exact Or.inl ⟨[], rfl, nofun, .nil⟩
  | cons word later ih =>
      rcases answerWord_cases h hstart hsome showTable word with
        ⟨hword, answer, hok, hanswer⟩ | ⟨hbad, error, herror⟩
      · -- What the word is answered stands before all that comes of the later words.
        rcases ih with ⟨answers, heq, hall, hanswers⟩ |
          ⟨checked, bad, rest, answers, error, heq, rfl, hall, hbad, hanswers⟩
        · refine Or.inl ⟨answer :: answers, ?_, ?_, .cons hanswer hanswers⟩
          · simp only [answerWords, hok, heq, List.flatten_cons]
          · exact List.forall_mem_cons.2 ⟨hword, hall⟩
        · refine Or.inr ⟨word :: checked, bad, rest, answer :: answers, error, ?_, rfl, ?_, hbad,
            .cons hanswer hanswers⟩
          · simp only [answerWords, hok, heq, List.flatten_cons]
          · exact List.forall_mem_cons.2 ⟨hword, hall⟩
      · refine Or.inr ⟨[], word, later, [], error, ?_, rfl, nofun, hbad, .nil⟩
        simp only [answerWords, herror, List.flatten_nil]

end Checking

/-! ## Sampling -/

/-- The words of a run are those of the trees of as many samples. -/
theorem sampleWords_of_repeatSample
    (h : repeatSample (grammar.sample maxDepth source) amount position = .ok trees next) :
    sampleWords grammar maxDepth source amount position = (trees.map Tree.word, none) := by
  induction amount generalizing position trees with
  | zero =>
      cases h
      rfl
  | succ amount ih =>
      rcases repeatSample_succ_eq_ok_iff.1 h with ⟨tree, middle, later, hone, hlater, rfl⟩
      simp only [sampleWords, hone, ih hlater, List.map_cons]

/-- Sampled trees fit the depth and have the start symbol as their root. -/
theorem fittingTree_of_repeatSample (hstart : grammar.start? = some start)
    (h : repeatSample (grammar.sample maxDepth source) amount position = .ok trees next) :
    ∀ tree ∈ trees, FittingTree grammar start maxDepth tree := by
  induction amount generalizing position trees with
  | zero =>
      cases h
      exact nofun
  | succ amount ih =>
      rcases repeatSample_succ_eq_ok_iff.1 h with ⟨tree, middle, later, hone, hlater, rfl⟩
      rw [Grammar.sample_eq_sampleFrom hstart] at hone
      rcases Grammar.sampleFrom_sound hone with ⟨hfollows, hroot, hheight⟩
      exact List.forall_mem_cons.2 ⟨⟨hfollows, hroot, hheight⟩, ih hlater⟩

section Sampling

variable (h : grammar.WellFormed) (hstart : grammar.start? = some start)
include h hstart

/-- Where a tree fits, samples can only stall. -/
theorem repeatSample_of_fittingTree {tree : Tree} (hfits : FittingTree grammar start maxDepth tree)
    (hsettled : ∀ stop, repeatSample (grammar.sample maxDepth source) amount position ≠
      .error .stalled stop) :
    ∃ trees next, repeatSample (grammar.sample maxDepth source) amount position =
      .ok trees next ∧ trees.length = amount := by
  rcases hfits with ⟨hfollows, rfl, hheight⟩
  -- A lowest tree fits too, and its height is the one on record.
  rcases Productions.exists_isLeast_treeHeights (Productions.mem_treeHeights hfollows) with
    ⟨needed, hle, hleast⟩
  rw [Grammar.sample_eq_sampleFrom hstart] at hsettled ⊢
  exact h.repeatSample_of_le hleast (hle.trans hheight) hsettled

/-- Where none fits, every sample is refused. -/
theorem sample_of_no_fittingTree (hnone : ∀ tree, ¬ FittingTree grammar start maxDepth tree)
    (source : Source) (position : ℕ) :
    ∃ error, grammar.sample maxDepth source position = .error error position := by
  rw [Grammar.sample_eq_sampleFrom hstart]
  rcases grammar.productions.treeHeights_cases start maxDepth with
    hempty | ⟨needed, hleast, hlt | hle⟩
  · exact ⟨_, h.sampleFrom_of_empty hempty⟩
  · exact ⟨_, h.sampleFrom_of_lt hleast hlt⟩
  · rcases hleast.1 with ⟨tree, hfollows, hroot, rfl⟩
    exact absurd ⟨hfollows, hroot, hle⟩ (hnone tree)

/-- All words that are wanted are sampled, or there is no tree for any and one is wanted. -/
theorem sampleWords_cases
    (hsettled : ∀ stop, repeatSample (grammar.sample maxDepth source) amount position ≠
      .error .stalled stop) :
    (∃ trees : List Tree, sampleWords grammar maxDepth source amount position =
        (trees.map Tree.word, none) ∧ trees.length = amount ∧
          ∀ tree ∈ trees, FittingTree grammar start maxDepth tree) ∨
    ∃ error, sampleWords grammar maxDepth source amount position = ([], some error) ∧
      1 ≤ amount ∧ ∀ tree, ¬ FittingTree grammar start maxDepth tree := by
  -- The trees alone decide whether samples succeed. Without a fitting one the first sample that is
  -- wanted is refused, so no word precedes the failure.
  by_cases hfits : ∃ tree, FittingTree grammar start maxDepth tree
  · rcases hfits with ⟨tree, htree⟩
    rcases repeatSample_of_fittingTree h hstart htree hsettled with ⟨trees, next, htrees, hlength⟩
    exact Or.inl ⟨trees, sampleWords_of_repeatSample htrees, hlength,
      fittingTree_of_repeatSample hstart htrees⟩
  · have hnone := not_exists.1 hfits
    cases amount with
    | zero => exact Or.inl ⟨[], rfl, rfl, nofun⟩
    | succ amount =>
        rcases sample_of_no_fittingTree h hstart hnone source position with ⟨error, herror⟩
        refine Or.inr ⟨error, ?_, Nat.succ_pos amount, hnone⟩
        simp only [sampleWords, herror]

end Sampling

/-! ## Runs -/

/-- With a loaded grammar, words are answered first and samples come after them. -/
theorem query_reports (h : grammar.WellFormed) (hstart : grammar.start? = some start)
    (hsome : ∃ head rhs, rhs ∈ grammar.alternatives head)
    (hsettled : request.SettledBy source grammar) :
    Reports grammar start request (query grammar request source) := by
  unfold query
  rcases answerWords_cases h hstart hsome request.table request.words with
    ⟨answers, hwords, hall, hanswers⟩ |
    ⟨checked, bad, later, answers, error, hwords, hsplit, hall, hbad, hanswers⟩
  · simp only [hwords]
    rcases sampleWords_cases h hstart (hsettled hall) with
      ⟨trees, htrees, hlength, hfit⟩ | ⟨error, herror, hwanted, hnone⟩
    · simp only [htrees]
      exact .sampled hall hanswers hlength hfit
    · simp only [herror, List.append_nil]
      exact .unsampled hall hanswers hwanted hnone
  · -- Sampling is not reached, whatever was asked for.
    simp only [hwords]
    exact .stopped hsplit hall hbad hanswers

/-- A grammar that was loaded has a start symbol, and some production. -/
theorem exists_start_and_alternative (h : grammar.IsLoaded) :
    (∃ start, grammar.start? = some start) ∧ ∃ head rhs, rhs ∈ grammar.alternatives head := by
  rcases h.exists_lines with ⟨file, asked?, lines, hlines⟩
  rcases Grammar.exists_start_of_ofLines hlines with ⟨start, hstart⟩
  have hmem := (Grammar.WellFormed.ofLines hlines).coherent.start start hstart
  rcases Grammar.uses_of_ofLines hlines (Or.inl hmem) with ⟨head, rhs, hrhs, _⟩
  exact ⟨⟨start, hstart⟩, head, rhs, hrhs⟩

/-- Sources that settle every choice settle those of any run. -/
theorem settledBy_of_settles (h : grammar.IsLoaded) (hsettles : source.Settles) :
    request.SettledBy source grammar := fun _ =>
  hsettles.repeatSample_ne_stalled h.reachable.wellFormed _ _ _

end

section Respond

variable {arguments : List String} {request : Request}

theorem respond_of_readArguments (hread : readArguments arguments = .ok request)
    (contents? : String → Option ByteArray) (source : Option ℕ → Source) :
    respond arguments contents? source =
      run request (contents? request.file) (source request.seed?) := by
  rw [respond, hread]

/-- Whatever the arguments ask for and whatever the file holds: without a grammar there is no
output, and with one the run reports what its request comes to, as long as the source settles the
choices that come up. -/
theorem respond_reports (hread : readArguments arguments = .ok request)
    (contents? : String → Option ByteArray) (source : Option ℕ → Source) :
    (∀ errors,
      Grammar.ofFile request.file (contents? request.file) request.start? = .error errors →
        (respond arguments contents? source).output = [] ∧
          (respond arguments contents? source).exitCode = 1) ∧
    ∀ grammar,
      Grammar.ofFile request.file (contents? request.file) request.start? = .ok grammar →
        request.SettledBy (source request.seed?) grammar →
          ∃ start, grammar.start? = some start ∧
            Reports grammar start request (respond arguments contents? source) := by
  rw [respond_of_readArguments hread, run]
  constructor
  · intro errors hload
    rw [hload]
    exact ⟨rfl, rfl⟩
  · intro grammar hload hsettled
    -- A grammar that comes from a file is one that some session arrives at.
    have hloaded : grammar.IsLoaded := Or.inr ⟨_, _, _, hload⟩
    rcases exists_start_and_alternative hloaded with ⟨⟨start, hstart⟩, hsome⟩
    rw [hload]
    exact ⟨start, hstart, query_reports hloaded.reachable.wellFormed hstart hsome hsettled⟩

def pairFile? (name : String) : Option ByteArray :=
  if name = "pair" then some "S ::= AB\nA ::= a\nB ::= b".toUTF8 else none

def seeded (seed? : Option ℕ) : Source :=
  .ofSeed (UInt64.ofNat (seed?.getD 0))

/-- All three endings of a run, and one without a file. -/
theorem respond_pairFile :
    (∃ grammar start, Reports grammar start
      ⟨"pair", ["ab", "ba"], some 'S', false, 2, defaultDepth, some 7⟩
      ⟨0, ["ab: yes", "ba: no", "ab", "ab"], []⟩) ∧
    (∃ grammar start, Reports grammar start
      ⟨"pair", ["a", "abc", "b"], none, true, 2, defaultDepth, none⟩
      ⟨1, ["a: no", "word: a\n1: \x7bA\x7d"], wordReport "abc" (.unknownTerminal 'c')⟩) ∧
    (∃ grammar start, Reports grammar start ⟨"pair", ["ab"], none, false, 2, 1, none⟩
      ⟨1, ["ab: yes"], sampleReport (.depthTooSmall 'S' 2 1)⟩) ∧
    (respond ["other", "ab"] pairFile? seeded).output = [] := by
  have hruns : ∀ arguments request outcome, readArguments arguments = .ok request →
      respond arguments pairFile? seeded = outcome → outcome.output ≠ [] →
        ∃ grammar start, Reports grammar start request outcome := by
    rintro arguments request outcome hread rfl houtput
    rcases respond_reports hread pairFile? seeded with ⟨hempty, hreports⟩
    -- There is output, so there is a grammar.
    cases hload : Grammar.ofFile request.file (pairFile? request.file) request.start? with
    | error errors => exact absurd (hempty errors hload).1 houtput
    | ok grammar =>
        have hsettles : (seeded request.seed?).Settles := Source.settles_ofSeed _
        have hsettled : request.SettledBy (seeded request.seed?) grammar :=
          settledBy_of_settles (Or.inr ⟨_, _, _, hload⟩) hsettles
        rcases hreports grammar hload hsettled with ⟨start, _, hreport⟩
        exact ⟨grammar, start, hreport⟩
  have hother : readArguments ["other", "ab"] =
      .ok ⟨"other", ["ab"], none, false, 0, defaultDepth, none⟩ := rfl
  refine ⟨hruns ["pair", "-sS", "ab", "--seed=7", "-n", "2", "ba"] _ _ rfl ?_ (by simp),
    hruns ["--table", "pair", "a", "-n2", "--", "abc", "b"] _ _ rfl ?_ (by simp),
    hruns ["pair", "ab", "--max-depth", "1", "-n2"] _ _ rfl ?_ (by simp),
    ((respond_reports hother pairFile? seeded).1 _ rfl).1⟩
  · decide +kernel
  · decide +kernel
  · decide +kernel

end Respond

end ChomskyNormal.Command
