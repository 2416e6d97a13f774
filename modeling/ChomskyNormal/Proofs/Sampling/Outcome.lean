import ChomskyNormal.Proofs.Sampling.Calls

/-!
# How sampling ends

Whether a symbol can be sampled within a depth depends on its trees only. Random numbers decide
which word it is, and nothing else, as long as they settle every choice that is made. So of several
samples the first one fails or none does.

- `Grammar.SampleEnds` : the endings of one sample, each with its exact condition;
- `Grammar.SamplesAlike` : several samples succeed together or fail at once;
- `Grammar.Reachable.sample_decided` : both hold of every grammar that a session arrives at.
-/

namespace ChomskyNormal

/-! ## Several samples -/

section Repeat

variable {one : Sampler Tree} {error : SampleError} {position : ℕ}

theorem repeatSample_succ_of_error (h : one position = .error error position) (count : ℕ) :
    repeatSample one (count + 1) position = .error error position := by
  rw [repeatSample, sampler_bind_apply, h]

theorem repeatSample_succ_eq_ok_iff {count next : ℕ} {trees : List Tree} :
    repeatSample one (count + 1) position = .ok trees next ↔
      ∃ tree middle later, one position = .ok tree middle ∧
        repeatSample one count middle = .ok later next ∧ trees = tree :: later := by
  rw [repeatSample, sampler_bind_eq_ok_iff]
  constructor
  · rintro ⟨tree, middle, hone, hrest⟩
    rcases sampler_bind_eq_ok_iff.1 hrest with ⟨later, last, hlater, hend⟩
    cases hend
    exact ⟨tree, middle, later, hone, hlater, rfl⟩
  · rintro ⟨tree, middle, later, hone, hlater, rfl⟩
    exact ⟨tree, middle, hone, sampler_bind_eq_ok_iff.2 ⟨later, next, hlater, rfl⟩⟩

/-- Several samples only fail where one of them fails. -/
theorem exists_of_repeatSample_eq_error {count stop : ℕ}
    (h : repeatSample one count position = .error error stop) :
    ∃ place, one place = .error error stop := by
  induction count generalizing position with
  | zero => cases h
  | succ count ih =>
      rw [repeatSample, sampler_bind_eq_error_iff] at h
      rcases h with hone | ⟨tree, middle, _, hrest⟩
      · exact ⟨position, hone⟩
      · rcases sampler_bind_eq_error_iff.1 hrest with hlater | ⟨_, _, _, hend⟩
        · exact ih hlater
        · cases hend

/-- Samples that can only stall all succeed where nothing stalls. -/
theorem repeatSample_of_settled
    (h : ∀ position, (∃ tree next, one position = .ok tree next) ∨
      ∃ stop, one position = .error .stalled stop) (count : ℕ)
    (hnever : ∀ stop, repeatSample one count position ≠ .error .stalled stop) :
    ∃ trees next, repeatSample one count position = .ok trees next ∧ trees.length = count := by
  induction count generalizing position with
  | zero => exact ⟨[], position, rfl, rfl⟩
  | succ count ih =>
      simp only [repeatSample, sampler_bind_apply] at hnever ⊢
      rcases h position with ⟨tree, next, hok⟩ | ⟨stop, hstalled⟩
      · simp only [hok] at hnever ⊢
        -- A stall among the later samples would be one of all samples.
        have hlater : ∀ stop, repeatSample one count next ≠ .error .stalled stop := by
          intro stop hstop
          refine hnever stop ?_
          simp only [hstop]
        rcases ih hlater with ⟨trees, last, htrees, hlength⟩
        refine ⟨tree :: trees, last, ?_, by rw [List.length_cons, hlength]⟩
        simp only [htrees]
        rfl
      · simp only [hstalled] at hnever
        exact absurd rfl (hnever stop)

end Repeat

namespace Grammar

/-! ## Statements -/

def Samples (grammar : Grammar) (source : Source) (symbol : Char) (maxDepth position : ℕ) :
    Call → Prop :=
  Call.Visits grammar.productions grammar.heights source ⟨symbol, maxDepth, position⟩

/-- How a sample ends. No ending but the last has to do with the source, and that one says that the
source does not settle a choice of some call. -/
structure SampleEnds (grammar : Grammar) (source : Source) (symbol : Char)
    (maxDepth position : ℕ) : Prop where
  unproductive :
    grammar.sampleFrom symbol maxDepth source position = .error (.unproductive symbol) position ↔
      ∀ tree : Tree, tree.Follows grammar.productions → tree.root ≠ symbol
  depthTooSmall : ∀ needed,
    grammar.sampleFrom symbol maxDepth source position =
        .error (.depthTooSmall symbol needed maxDepth) position ↔
      IsLeast (grammar.productions.treeHeights symbol) needed ∧ maxDepth < needed
  sampled :
    (∃ tree next, grammar.sampleFrom symbol maxDepth source position = .ok tree next) ↔
      (∃ height ∈ grammar.productions.treeHeights symbol, height ≤ maxDepth) ∧
        ∀ call, grammar.Samples source symbol maxDepth position call →
          ¬ call.Stalls grammar.productions grammar.heights source
  stalled : ∀ stop,
    grammar.sampleFrom symbol maxDepth source position = .error .stalled stop ↔
      (∃ height ∈ grammar.productions.treeHeights symbol, height ≤ maxDepth) ∧
        ∃ call, grammar.Samples source symbol maxDepth position call ∧
          call.Stalls grammar.productions grammar.heights source ∧ call.position = stop
  /-- There is always a candidate, and a level below every pair. -/
  calls : (∃ height ∈ grammar.productions.treeHeights symbol, height ≤ maxDepth) →
    ∀ call, grammar.Samples source symbol maxDepth position call →
      call.candidates grammar.productions grammar.heights ≠ [] ∧
        ∀ left right, .binary left right ∈
          call.candidates grammar.productions grammar.heights → 2 ≤ call.depth

/-- Whatever the source, any number of samples succeeds unless a choice stalls; or the first one
fails, always in the same way and before a number is taken. -/
def SamplesAlike (one : Source → Sampler Tree) : Prop :=
  (∀ source count position,
    (∀ stop, repeatSample (one source) count position ≠ .error .stalled stop) →
      ∃ trees next, repeatSample (one source) count position = .ok trees next ∧
        trees.length = count) ∨
    ∃ error, error ≠ .stalled ∧ ∀ source position, one source position = .error error position ∧
      ∀ count, repeatSample (one source) (count + 1) position = .error error position

variable {grammar : Grammar} {source : Source} {symbol : Char} {maxDepth position : ℕ}

/-! ## Samples from a symbol -/

namespace WellFormed

variable (h : grammar.WellFormed)
include h

/-- A symbol without any tree is refused before a number is taken. -/
theorem sampleFrom_of_empty (hnone : grammar.productions.treeHeights symbol = ∅) :
    grammar.sampleFrom symbol maxDepth source position =
      .error (.unproductive symbol) position := by
  have hheight : grammar.heights[symbol]? = none := by
    rw [Option.eq_none_iff_forall_ne_some]
    intro height hsome
    have hmem := (h.heights_exact.1 hsome).1
    rw [hnone] at hmem
    exact hmem
  unfold sampleFrom
  simp only [hheight]
  rfl

theorem sampleFrom_of_lt {needed : ℕ}
    (hleast : IsLeast (grammar.productions.treeHeights symbol) needed) (hlt : maxDepth < needed) :
    grammar.sampleFrom symbol maxDepth source position =
      .error (.depthTooSmall symbol needed maxDepth) position := by
  unfold sampleFrom
  simp only [h.heights_exact.2 hleast, if_pos hlt]
  rfl

theorem sampleFrom_of_le {needed : ℕ}
    (hleast : IsLeast (grammar.productions.treeHeights symbol) needed) (hle : needed ≤ maxDepth) :
    grammar.sampleFrom symbol maxDepth source position =
      Call.outcome grammar.productions grammar.heights source ⟨symbol, maxDepth, position⟩ := by
  unfold sampleFrom
  simp only [h.heights_exact.2 hleast, if_neg (Nat.not_lt_of_le hle)]
  rfl

/-- A symbol that fits the depth is grown, or one of the calls on the way stalls. -/
theorem grown_or_stalled {needed : ℕ} (source : Source) (position : ℕ)
    (hleast : IsLeast (grammar.productions.treeHeights symbol) needed) (hle : needed ≤ maxDepth) :
    (∃ tree next, grammar.sampleFrom symbol maxDepth source position = .ok tree next) ∨
      ∃ call, grammar.Samples source symbol maxDepth position call ∧
        call.Stalls grammar.productions grammar.heights source ∧
          grammar.sampleFrom symbol maxDepth source position =
            .error .stalled call.position := by
  have hfits : Call.Fits grammar.heights ⟨symbol, maxDepth, position⟩ :=
    ⟨needed, hle, h.heights_exact.2 hleast⟩
  rw [h.sampleFrom_of_le hleast hle]
  exact Call.grow_outcome h.heights_exact hfits

theorem sampleEnds_of_empty (hnone : grammar.productions.treeHeights symbol = ∅) :
    grammar.SampleEnds source symbol maxDepth position := by
  have hends : grammar.sampleFrom symbol maxDepth source position =
      .error (.unproductive symbol) position := h.sampleFrom_of_empty hnone
  -- Without any height there is none that fits the depth.
  have hno : ¬ ∃ height ∈ grammar.productions.treeHeights symbol, height ≤ maxDepth := by
    rw [hnone]
    exact fun ⟨_, hmem, _⟩ => hmem
  refine ⟨iff_of_true hends (Productions.treeHeights_eq_empty_iff.1 hnone), ?_, ?_, ?_,
    fun hsome => absurd hsome hno⟩
  · intro needed
    refine iff_of_false (by simp [hends]) ?_
    rintro ⟨hleast, _⟩
    rw [hnone] at hleast
    exact hleast.1
  · exact iff_of_false (by simp [hends]) fun hsome => hno hsome.1
  · intro stop
    exact iff_of_false (by simp [hends]) fun hsome => hno hsome.1

/-- Where the depth is too small for every tree, a sample says so. -/
theorem sampleEnds_of_lt {needed : ℕ}
    (hleast : IsLeast (grammar.productions.treeHeights symbol) needed) (hlt : maxDepth < needed) :
    grammar.SampleEnds source symbol maxDepth position := by
  have hends : grammar.sampleFrom symbol maxDepth source position =
      .error (.depthTooSmall symbol needed maxDepth) position := h.sampleFrom_of_lt hleast hlt
  -- No tree fits, for the lowest does not.
  have hno : ¬ ∃ height ∈ grammar.productions.treeHeights symbol, height ≤ maxDepth := by
    rintro ⟨height, hmem, hle⟩
    have hge : needed ≤ height := hleast.2 hmem
    omega
  refine ⟨?_, ?_, ?_, ?_, fun hsome => absurd hsome hno⟩
  · refine iff_of_false (by simp [hends]) ?_
    rcases hleast.1 with ⟨tree, hfollows, hroot, _⟩
    exact fun hnone => hnone tree hfollows hroot
  · intro other
    rw [hends]
    constructor
    · intro hsame
      cases hsame
      exact ⟨hleast, hlt⟩
    · rintro ⟨hother, _⟩
      rw [hleast.unique hother]
  · exact iff_of_false (by simp [hends]) fun hsome => hno hsome.1
  · intro stop
    exact iff_of_false (by simp [hends]) fun hsome => hno hsome.1

/-- Where some tree fits the depth, only the source decides whether a sample ends. -/
theorem sampleEnds_of_le {needed : ℕ}
    (hleast : IsLeast (grammar.productions.treeHeights symbol) needed) (hle : needed ≤ maxDepth) :
    grammar.SampleEnds source symbol maxDepth position := by
  have hfits : Call.Fits grammar.heights ⟨symbol, maxDepth, position⟩ :=
    ⟨needed, hle, h.heights_exact.2 hleast⟩
  have hyes : ∃ height ∈ grammar.productions.treeHeights symbol, height ≤ maxDepth :=
    ⟨needed, hleast.1, hle⟩
  have hgrown := h.grown_or_stalled source position hleast hle
  have hstalled : ∀ stop, grammar.sampleFrom symbol maxDepth source position =
      .error .stalled stop ↔ ∃ call, grammar.Samples source symbol maxDepth position call ∧
        call.Stalls grammar.productions grammar.heights source ∧ call.position = stop := by
    intro stop
    rw [h.sampleFrom_of_le hleast hle]
    exact Call.outcome_eq_stalled_iff h.heights_exact hfits
  -- A growth never fails for want of a candidate, nor for want of depth.
  have honly : ∀ error stop, grammar.sampleFrom symbol maxDepth source position =
      .error error stop → error = .stalled := by
    intro error stop herror
    rcases hgrown with ⟨tree, next, hok⟩ | ⟨inner, _, _, hstop⟩
    · rw [herror] at hok
      cases hok
    · rw [herror] at hstop
      cases hstop
      rfl
  refine ⟨?_, ?_, ?_, ?_, ?_⟩
  · refine iff_of_false (fun herror => nomatch honly _ _ herror) ?_
    rcases hleast.1 with ⟨tree, hfollows, hroot, _⟩
    exact fun hnone => hnone tree hfollows hroot
  · intro other
    refine iff_of_false (fun herror => nomatch honly _ _ herror) ?_
    rintro ⟨hother, hlt⟩
    rw [hother.unique hleast] at hlt
    omega
  · constructor
    · rintro ⟨tree, next, hok⟩
      refine ⟨hyes, ?_⟩
      intro call hvisits hstalls
      rw [(hstalled call.position).2 ⟨call, hvisits, hstalls, rfl⟩] at hok
      cases hok
    · rintro ⟨_, hnever⟩
      rcases hgrown with hok | ⟨inner, hvisits, hstalls, _⟩
      · exact hok
      · exact absurd hstalls (hnever inner hvisits)
  · intro stop
    rw [hstalled stop]
    exact (and_iff_right hyes).symm
  · intro _ call hvisits
    refine ⟨(hfits.visits h.heights_exact hvisits).candidates_ne_nil h.heights_exact, ?_⟩
    intro left right hmem
    exact (Call.Fits.of_binary_mem h.heights_exact hmem).1

/-- The least height of the trees of a symbol decides, if there is a tree at all. -/
theorem sampleEnds (source : Source) (symbol : Char) (maxDepth position : ℕ) :
    grammar.SampleEnds source symbol maxDepth position := by
  rcases grammar.productions.treeHeights_cases symbol maxDepth with
    hnone | ⟨needed, hleast, hlt | hle⟩
  · exact h.sampleEnds_of_empty hnone
  · exact h.sampleEnds_of_lt hleast hlt
  · exact h.sampleEnds_of_le hleast hle

end WellFormed

/-! ## Any number of samples -/

theorem samplesAlike_of_error {one : Source → Sampler Tree} {error : SampleError}
    (hne : error ≠ .stalled)
    (h : ∀ source position, one source position = .error error position) : SamplesAlike one :=
  Or.inr ⟨error, hne, fun source position =>
    ⟨h source position, repeatSample_succ_of_error (h source position)⟩⟩

namespace WellFormed

/-- Each sample grows a tree or stalls, so all of them grow one where nothing stalls. -/
theorem repeatSample_of_le (h : grammar.WellFormed) {needed count : ℕ}
    (hleast : IsLeast (grammar.productions.treeHeights symbol) needed) (hle : needed ≤ maxDepth)
    (hnever : ∀ stop, repeatSample (grammar.sampleFrom symbol maxDepth source) count position ≠
      .error .stalled stop) :
    ∃ trees next, repeatSample (grammar.sampleFrom symbol maxDepth source) count position =
      .ok trees next ∧ trees.length = count := by
  refine repeatSample_of_settled (fun place => ?_) count hnever
  rcases h.grown_or_stalled source place hleast hle with hok | ⟨call, _, _, hstop⟩
  · exact Or.inl hok
  · exact Or.inr ⟨call.position, hstop⟩

/-- However many samples of a symbol are asked for, the first one tells how all end. -/
theorem samplesAlike (h : grammar.WellFormed) (symbol : Char) (maxDepth : ℕ) :
    SamplesAlike (grammar.sampleFrom symbol maxDepth) := by
  rcases grammar.productions.treeHeights_cases symbol maxDepth with
    hnone | ⟨needed, hleast, hlt | hle⟩
  · exact samplesAlike_of_error (by simp) fun _ _ => h.sampleFrom_of_empty hnone
  · exact samplesAlike_of_error (by simp) fun _ _ => h.sampleFrom_of_lt hleast hlt
  · exact Or.inl fun _ _ _ hnever => h.repeatSample_of_le hleast hle hnever

/-- Without a start symbol all samples fail, and with one it is their root. -/
theorem samplesAlike_start (h : grammar.WellFormed) (maxDepth : ℕ) :
    SamplesAlike (grammar.sample maxDepth) := by
  cases hstart : grammar.start? with
  | none =>
      have hends : ∀ source position,
          grammar.sample maxDepth source position = .error .noStart position := by
        intro source position
        unfold sample
        simp only [hstart]
        rfl
      exact samplesAlike_of_error (by simp) hends
  | some start =>
      rw [sample_eq_sampleFrom hstart]
      exact h.samplesAlike start maxDepth

/-- No word at all is recognised exactly when the start symbol has no tree. -/
theorem sample_unproductive_iff (h : grammar.WellFormed) {start : Char}
    (hstart : grammar.start? = some start) (source : Source) (maxDepth position : ℕ) :
    grammar.sample maxDepth source position = .error (.unproductive start) position ↔
      ∀ word, grammar.isDerived word ≠ .ok true := by
  rw [sample_eq_sampleFrom hstart, (h.sampleEnds source start maxDepth position).unproductive]
  constructor
  · -- A word that is recognised has a tree, and a tree has a word.
    intro hnone word hword
    rcases h.isDerived_iff_derives.1 hword with ⟨root, hroot, tree, hfollows, hsame, _⟩
    rw [hstart] at hroot
    cases hroot
    exact hnone tree hfollows hsame
  · intro hnone tree hfollows hroot
    refine hnone tree.word (h.isDerived_iff_derives.2 ⟨start, hstart, tree, hfollows, hroot, ?_⟩)
    exact String.toList_ofList.symm

end WellFormed

/-- For every grammar that a session arrives at: how a sample ends, and that of several samples all
succeed or the first one fails, is a matter of the derivation trees and not of the source. -/
theorem Reachable.sample_decided (h : grammar.Reachable) (maxDepth : ℕ) :
    (∀ source symbol position, grammar.SampleEnds source symbol maxDepth position) ∧
    (∀ symbol, SamplesAlike (grammar.sampleFrom symbol maxDepth)) ∧
    SamplesAlike (grammar.sample maxDepth) ∧
    ∀ start source position, grammar.start? = some start →
      (grammar.sample maxDepth source position = .error (.unproductive start) position ↔
        ∀ word, grammar.isDerived word ≠ .ok true) := by
  have hwell : grammar.WellFormed := h.wellFormed
  refine ⟨?_, ?_, hwell.samplesAlike_start maxDepth, ?_⟩
  · intro source symbol position
    exact hwell.sampleEnds source symbol maxDepth position
  · intro symbol
    exact hwell.samplesAlike symbol maxDepth
  · intro start source position hstart
    exact hwell.sample_unproductive_iff hstart source maxDepth position

def partlyProductive : List Session.Step :=
  [.edit (.load "S ::= SX | AB\nX ::= XX\nA ::= BB\nB ::= b" none)]

/-- Two samples succeed, though one nonterminal derives nothing. -/
theorem partlyProductive_samples :
    (Session.new.run partlyProductive).current.Reachable ∧
      IsLeast ((Session.new.run partlyProductive).current.productions.treeHeights 'S') 3 ∧
      (∀ tree : Tree, tree.Follows (Session.new.run partlyProductive).current.productions →
        tree.root ≠ 'X') ∧
      (∃ trees next, repeatSample ((Session.new.run partlyProductive).current.sample 3 (.ofSeed 7))
        2 0 = .ok trees next ∧ trees.length = 2) ∧
      ∃ word, (Session.new.run partlyProductive).current.isDerived word = .ok true := by
  have hreach : (Session.new.run partlyProductive).current.Reachable := ⟨partlyProductive, rfl⟩
  have hstart : (Session.new.run partlyProductive).current.start? = some 'S' := by decide +kernel
  -- Two refusals tell the least height of one symbol, and that the other has no tree.
  have hlow : (Session.new.run partlyProductive).current.sampleFrom 'S' 2 (.ofSeed 7) 0 =
      .error (.depthTooSmall 'S' 3 2) 0 := rfl
  have hnone : (Session.new.run partlyProductive).current.sampleFrom 'X' 2 (.ofSeed 7) 0 =
      .error (.unproductive 'X') 0 := rfl
  have hgrown : ∃ tree, (Session.new.run partlyProductive).current.sample 3 (.ofSeed 7) 0 =
      .ok tree 7 := ⟨_, rfl⟩
  have hrepeated : ∃ trees, repeatSample
      ((Session.new.run partlyProductive).current.sample 3 (.ofSeed 7)) 2 0 = .ok trees 18 :=
    ⟨_, rfl⟩
  have hdecided := Reachable.sample_decided hreach
  refine ⟨hreach, (((hdecided 2).1 (.ofSeed 7) 'S' 0).depthTooSmall 3).1 hlow |>.1,
    ((hdecided 2).1 (.ofSeed 7) 'X' 0).unproductive.1 hnone, ?_, ?_⟩
  · rcases hrepeated with ⟨trees, htrees⟩
    rcases (hdecided 3).2.2.1 with hsettled | ⟨error, _, hfails⟩
    · refine hsettled (.ofSeed 7) 2 0 fun stop hstop => ?_
      rw [htrees] at hstop
      cases hstop
    · rw [(hfails (.ofSeed 7) 0).2 1] at htrees
      cases htrees
  · rcases hgrown with ⟨tree, htree⟩
    by_contra hno
    rw [((hdecided 3).2.2.2 'S' (.ofSeed 7) 0 hstart).2 (not_exists.1 hno)] at htree
    cases htree

end Grammar

end ChomskyNormal
