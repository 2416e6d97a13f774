import ChomskyNormal.Proofs.Sampling.Outcome

/-!
# Numbers that a sample takes

A sample makes one choice for each production of its tree: first the one of the root, then all
those of the left half of a pair, and last those of the right half. A choice goes on from where the
one before it has ended. It rejects the numbers that do not suit its candidates, and the first one
that suits decides it. So the numbers that are taken are one for each production and the rejected
ones, and no other number has to do with the tree.

- `Tree.expansions` : the productions of a tree, in preorder;
- `Choice`, `Consecutive` : choices that are made one after the other;
- `Call.exists_choices` : the choices of a growth;
- `Grammar.Draws` : the choices of a sample, and the numbers that they take;
- `Grammar.Reachable.sample_draws` : what every sample draws.
-/

namespace ChomskyNormal

/-! ## Productions of a tree -/

def Rhs.isTerminal : Rhs → Bool
  | .binary _ _ => false
  | .terminal _ => true

namespace Tree

/-- The productions of a tree: the one of the root, then all those of the left half, and then
those of the right half. -/
def expansions : Tree → List (Char × Rhs)
  | .leaf root letter => [(root, .terminal letter)]
  | .node root left right =>
      (root, .binary left.root right.root) :: (left.expansions ++ right.expansions)

theorem countP_isTerminal_expansions (tree : Tree) :
    tree.expansions.countP (fun expansion => expansion.2.isTerminal) = tree.yield.length := by
  induction tree with
  | leaf root letter => rfl
  | node root left right ihLeft ihRight =>
      rw [expansions, List.countP_cons_of_neg (by simp [Rhs.isTerminal]), List.countP_append,
        ihLeft, ihRight, yield, List.length_append]

/-- There is one pair less than there are letters. -/
theorem length_expansions (tree : Tree) :
    tree.expansions.length = 2 * tree.yield.length - 1 := by
  induction tree with
  | leaf root letter => rfl
  | node root left right ihLeft ihRight =>
      have hleft : 0 < left.yield.length := List.length_pos_of_ne_nil left.yield_ne_nil
      have hright : 0 < right.yield.length := List.length_pos_of_ne_nil right.yield_ne_nil
      rw [expansions, List.length_cons, List.length_append, ihLeft, ihRight, yield,
        List.length_append]
      omega

end Tree

/-! ## Choices one after the other -/

/-- A choice that was made: the call that it belongs to, how many numbers it rejected, and which
production it chose. -/
structure Choice where
  call : Call
  rejected : ℕ
  rhs : Rhs
  deriving DecidableEq, Repr

namespace Choice

def next (choice : Choice) : ℕ :=
  choice.call.position + choice.rejected + 1

def expansion (choice : Choice) : Char × Rhs :=
  (choice.call.symbol, choice.rhs)

def Made (productions : Productions) (heights : Heights) (source : Source) (choice : Choice) :
    Prop :=
  source.Decides (choice.call.candidates productions heights) choice.call.position
    choice.rejected choice.rhs

end Choice

/-- Each choice begins where the one before it has ended, from a first position to a last one. -/
def Consecutive : ℕ → List Choice → ℕ → Prop
  | position, [], next => position = next
  | position, choice :: later, next =>
      choice.call.position = position ∧ Consecutive choice.next later next

namespace Consecutive

variable {position middle next : ℕ} {choices others : List Choice}

theorem append (h : Consecutive position choices middle)
    (hothers : Consecutive middle others next) :
    Consecutive position (choices ++ others) next := by
  induction choices generalizing position with
  | nil =>
      cases h
      exact hothers
  | cons choice later ih => exact ⟨h.1, ih h.2⟩

/-- A choice takes the numbers that it rejects and one more. -/
theorem next_eq (h : Consecutive position choices next) :
    next = position + choices.length + (choices.map Choice.rejected).sum := by
  induction choices generalizing position with
  | nil => exact h.symm
  | cons choice later ih =>
      have hlater := ih h.2
      rw [Choice.next, h.1] at hlater
      rw [hlater, List.length_cons, List.map_cons, List.sum_cons]
      omega

end Consecutive

/-! ## Choices of a growth -/

namespace Call

variable {productions : Productions} {heights : Heights} {source : Source} {call inner : Call}
  {tree leftTree : Tree} {letter left right : Char} {middle later next : ℕ}

/-- Choices that are made one after the other for the productions of a tree, each of them by one
of the calls that a call makes. -/
structure Records (productions : Productions) (heights : Heights) (source : Source) (call : Call)
    (tree : Tree) (next : ℕ) (choices : List Choice) : Prop where
  calls : ∀ inner, inner ∈ choices.map Choice.call ↔
    Visits productions heights source call inner
  expansions : choices.map Choice.expansion = tree.expansions
  made : ∀ choice ∈ choices, choice.Made productions heights source
  consecutive : Consecutive call.position choices next

/-- How a call came to a tree. -/
theorem of_outcome_eq_ok (h : call.outcome productions heights source = .ok tree next) :
    (∃ letter, source.choose (call.candidates productions heights) call.position =
        some (.terminal letter, next) ∧ tree = .leaf call.symbol letter) ∨
      ∃ left right leftTree rightTree middle later,
        source.choose (call.candidates productions heights) call.position =
          some (.binary left right, middle) ∧
        outcome productions heights source ⟨left, call.depth - 1, middle⟩ = .ok leftTree later ∧
        outcome productions heights source ⟨right, call.depth - 1, later⟩ = .ok rightTree next ∧
        tree = .node call.symbol leftTree rightTree := by
  rcases call with ⟨symbol, depth, position⟩
  cases depth with
  | zero => cases h
  | succ depth => exact grow_succ_eq_ok_iff.1 h

theorem visits_iff_of_terminal
    (hchoose : source.choose (call.candidates productions heights) call.position =
      some (.terminal letter, next)) :
    Visits productions heights source call inner ↔ call = inner := by
  rw [Visits, Relation.ReflTransGen.cases_head_iff]
  refine or_iff_left ?_
  -- Only pairs lead to further calls.
  rintro ⟨made, hmakes, _⟩
  cases hmakes with
  | left hpair =>
      rw [hchoose] at hpair
      cases hpair
  | right hpair _ =>
      rw [hchoose] at hpair
      cases hpair

/-- A call that chose a pair leads to those of the left half, and to those of the right half. -/
theorem visits_iff_of_binary
    (hchoose : source.choose (call.candidates productions heights) call.position =
      some (.binary left right, middle))
    (hleft : outcome productions heights source ⟨left, call.depth - 1, middle⟩ =
      .ok leftTree later) :
    Visits productions heights source call inner ↔ call = inner ∨
      Visits productions heights source ⟨left, call.depth - 1, middle⟩ inner ∨
        Visits productions heights source ⟨right, call.depth - 1, later⟩ inner := by
  rw [Visits, Relation.ReflTransGen.cases_head_iff]
  refine or_congr_right ?_
  constructor
  · rintro ⟨made, hmakes, hvisits⟩
    -- The first step goes to one of the halves, as the choice is known.
    cases hmakes with
    | left hpair =>
        rw [hchoose] at hpair
        cases hpair
        exact Or.inl hvisits
    | right hpair hok =>
        rw [hchoose] at hpair
        cases hpair
        rw [hleft] at hok
        cases hok
        exact Or.inr hvisits
  · rintro (hvisits | hvisits)
    · exact ⟨_, .left hchoose, hvisits⟩
    · exact ⟨_, .right hchoose hleft, hvisits⟩

/-- A growth makes the choices of its tree in preorder. -/
theorem exists_choices (h : call.outcome productions heights source = .ok tree next) :
    ∃ choices, Records productions heights source call tree next choices := by
  induction tree generalizing call next with
  | leaf root letter =>
      rcases of_outcome_eq_ok h with ⟨letter, hchoose, htree⟩ | ⟨_, _, _, _, _, _, _, _, _, htree⟩
      · cases htree
        rcases Source.choose_eq_some_iff.1 hchoose with ⟨rejected, _, hdecides, rfl⟩
        refine ⟨[⟨call, rejected, .terminal letter⟩], ?_, rfl, ?_, rfl, rfl⟩
        · intro inner
          rw [visits_iff_of_terminal hchoose, List.map_singleton, List.mem_singleton]
          exact eq_comm
        · exact List.forall_mem_singleton.2 hdecides
      · cases htree
  | node root leftTree rightTree ihLeft ihRight =>
      rcases of_outcome_eq_ok h with ⟨_, _, htree⟩ |
        ⟨left, right, _, _, middle, later, hchoose, hleft, hright, htree⟩
      · cases htree
      · cases htree
        have hroots := (grow_sound hleft).2.1
        have hroots' := (grow_sound hright).2.1
        rcases ihLeft hleft with ⟨front, hfront⟩
        rcases ihRight hright with ⟨back, hback⟩
        rcases Source.choose_eq_some_iff.1 hchoose with ⟨rejected, _, hdecides, rfl⟩
        -- The choice of the call comes before all those that it leads to.
        refine ⟨⟨call, rejected, .binary left right⟩ :: (front ++ back), ?_, ?_, ?_, rfl, ?_⟩
        · intro inner
          rw [visits_iff_of_binary hchoose hleft, List.map_cons, List.map_append, List.mem_cons,
            List.mem_append, hfront.calls, hback.calls]
          exact or_congr_left eq_comm
        · rw [List.map_cons, List.map_append, hfront.expansions, hback.expansions, Tree.expansions,
            hroots, hroots']
          rfl
        · refine List.forall_mem_cons.2 ⟨hdecides, List.forall_mem_append.2 ?_⟩
          exact ⟨hfront.made, hback.made⟩
        · exact hfront.consecutive.append hback.consecutive

end Call

/-! ## Numbers that are not taken -/

section Grow

variable {productions : Productions} {heights : Heights} {source : Source} {symbol : Char}
  {depth position next : ℕ} {tree : Tree} {number : ℕ → UInt32}

theorem lt_of_grow (h : grow productions heights source depth symbol position = .ok tree next) :
    position < next := by
  induction depth generalizing symbol position next tree with
  | zero => cases h
  | succ depth ih =>
      rcases grow_succ_eq_ok_iff.1 h with ⟨letter, hchoose, _⟩ |
        ⟨left, right, leftTree, rightTree, middle, later, hchoose, hleft, hright, _⟩
      · exact Source.lt_of_choose hchoose
      · exact (Source.lt_of_choose hchoose).trans ((ih hleft).trans (ih hright))

/-- A growth depends on the numbers that it takes, and on no others. -/
theorem grow_congr (h : grow productions heights source depth symbol position = .ok tree next)
    (hsame : ∀ place, position ≤ place → place < next → number place = source.number place) :
    grow productions heights { source with number } depth symbol position = .ok tree next := by
  induction depth generalizing symbol position next tree with
  | zero => cases h
  | succ depth ih =>
      rw [grow_succ_eq_ok_iff] at h ⊢
      rcases h with ⟨letter, hchoose, rfl⟩ |
        ⟨left, right, leftTree, rightTree, middle, later, hchoose, hleft, hright, rfl⟩
      · exact Or.inl ⟨letter, Source.choose_congr hchoose hsame, rfl⟩
      · -- The choice and both halves take their numbers from between the two positions.
        have hfirst : position < middle := Source.lt_of_choose hchoose
        have hsecond : middle < later := lt_of_grow hleft
        have hthird : later < next := lt_of_grow hright
        refine Or.inr ⟨left, right, leftTree, rightTree, middle, later, ?_, ?_, ?_, rfl⟩
        · exact Source.choose_congr hchoose fun place _ hlt => hsame place (by omega) (by omega)
        · exact ih hleft fun place _ hlt => hsame place (by omega) (by omega)
        · exact ih hright fun place _ hlt => hsame place (by omega) (by omega)

end Grow

/-! ## Samples -/

namespace Grammar

variable {grammar : Grammar} {source : Source} {symbol : Char} {maxDepth position next : ℕ}
  {tree : Tree} {number : ℕ → UInt32}

/-- The choices of a sample and the numbers that they take. Every call of the sample makes one of
the choices. They come in the preorder of the tree, one for each of its letters and one for each of
its pairs, and each of them takes the numbers that it rejects and the one that decides it. -/
structure Draws (grammar : Grammar) (source : Source) (symbol : Char) (maxDepth position : ℕ)
    (tree : Tree) (next : ℕ) (choices : List Choice) : Prop where
  calls : ∀ call, call ∈ choices.map Choice.call ↔
    grammar.Samples source symbol maxDepth position call
  preorder : choices.map Choice.expansion = tree.expansions
  made : ∀ choice ∈ choices, choice.Made grammar.productions grammar.heights source
  consecutive : Consecutive position choices next
  length : choices.length = 2 * tree.word.length - 1
  terminals : choices.countP (fun choice => choice.rhs.isTerminal) = tree.word.length
  pairs : choices.countP (fun choice => !choice.rhs.isTerminal) = tree.word.length - 1
  numbers : next = position + (2 * tree.word.length - 1) + (choices.map Choice.rejected).sum

/-- The choices of a sample can be listed with the numbers that they take. -/
theorem exists_draws (h : grammar.sampleFrom symbol maxDepth source position = .ok tree next) :
    ∃ choices, grammar.Draws source symbol maxDepth position tree next choices := by
  have hgrown : Call.outcome grammar.productions grammar.heights source
      ⟨symbol, maxDepth, position⟩ = .ok tree next := (sampleFrom_eq_ok_iff.1 h).2
  rcases Call.exists_choices hgrown with ⟨choices, hrecords⟩
  have hword : tree.word.length = tree.yield.length := by
    rw [Tree.word, String.length_ofList]
  have hpos : 0 < tree.yield.length := List.length_pos_of_ne_nil tree.yield_ne_nil
  -- Choices are counted by the productions of the tree, which they are made for.
  have hlength : choices.length = 2 * tree.word.length - 1 := by
    rw [hword, ← tree.length_expansions, ← hrecords.expansions, List.length_map]
  have hterminals : choices.countP (fun choice => choice.rhs.isTerminal) = tree.word.length := by
    rw [hword, ← tree.countP_isTerminal_expansions, ← hrecords.expansions, List.countP_map]
    rfl
  have hpairs : choices.countP (fun choice => !choice.rhs.isTerminal) =
      tree.word.length - 1 := by
    have hall := choices.length_eq_countP_add_countP fun choice => choice.rhs.isTerminal
    simp only [Bool.not_eq_true, Bool.decide_eq_false] at hall
    omega
  refine ⟨choices, hrecords.calls, hrecords.expansions, hrecords.made, hrecords.consecutive,
    hlength, hterminals, hpairs, ?_⟩
  rw [hrecords.consecutive.next_eq, hlength]

/-- Zero is never rejected. -/
theorem Draws.rejected_eq_zero {choices : List Choice}
    (h : grammar.Draws source symbol maxDepth position tree next choices)
    (hzero : ∀ place, source.number place = 0) {choice : Choice} (hmem : choice ∈ choices) :
    choice.rejected = 0 := by
  by_contra hrejected
  have hfirst := (h.made choice hmem).rejects 0 (Nat.pos_of_ne_zero hrejected)
  rw [hzero, Source.suits_zero] at hfirst
  cases hfirst

/-- From zeros a sample takes as many numbers as it has choices. -/
theorem Draws.next_eq_of_zeros {choices : List Choice}
    (h : grammar.Draws source symbol maxDepth position tree next choices)
    (hzero : ∀ place, source.number place = 0) :
    next = position + (2 * tree.word.length - 1) := by
  have hnone : (choices.map Choice.rejected).sum = 0 := by
    refine List.sum_eq_zero fun rejected hrejected => ?_
    rcases List.mem_map.1 hrejected with ⟨choice, hmem, rfl⟩
    exact h.rejected_eq_zero hzero hmem
  have hnumbers := h.numbers
  rwa [hnone, Nat.add_zero] at hnumbers

theorem sampleFrom_congr (h : grammar.sampleFrom symbol maxDepth source position = .ok tree next)
    (hsame : ∀ place, position ≤ place → place < next → number place = source.number place) :
    grammar.sampleFrom symbol maxDepth { source with number } position = .ok tree next := by
  rw [sampleFrom_eq_ok_iff] at h ⊢
  exact ⟨h.1, grow_congr h.2 hsame⟩

/-- A sample that fails has found out before its first choice, unless a choice stalls. -/
theorem WellFormed.stop_eq_position (h : grammar.WellFormed) {error : SampleError} {stop : ℕ}
    (herror : grammar.sampleFrom symbol maxDepth source position = .error error stop)
    (hended : error ≠ .stalled) : stop = position := by
  -- A sample that does not stall is refused before its first choice, or grows a tree.
  rcases grammar.productions.treeHeights_cases symbol maxDepth with
    hnone | ⟨needed, hleast, hlt | hle⟩
  · rw [h.sampleFrom_of_empty hnone] at herror
    cases herror
    rfl
  · rw [h.sampleFrom_of_lt hleast hlt] at herror
    cases herror
    rfl
  · rcases h.grown_or_stalled source position hleast hle with ⟨tree, next, hok⟩ |
      ⟨call, _, _, hstop⟩
    · rw [herror] at hok
      cases hok
    · rw [herror] at hstop
      cases hstop
      exact absurd rfl hended

/-- A sample takes one number for each production of its tree, in preorder, and the ones that it
rejects. Other numbers after them would not change it, and of a source of zeros none is rejected.
A sample that fails takes no number. An endless choice is no failure: it only stalls in that the
source has no patience for it. -/
theorem Reachable.sample_draws (h : grammar.Reachable) (symbol : Char) (maxDepth : ℕ)
    (source : Source) (position : ℕ) :
    (∀ tree next, grammar.sampleFrom symbol maxDepth source position = .ok tree next →
      (∃ choices, grammar.Draws source symbol maxDepth position tree next choices) ∧
      (∀ number : ℕ → UInt32,
        (∀ place, position ≤ place → place < next → number place = source.number place) →
          grammar.sampleFrom symbol maxDepth { source with number } position = .ok tree next) ∧
      ((∀ place, source.number place = 0) →
        next = position + (2 * tree.word.length - 1))) ∧
    ∀ error stop, grammar.sampleFrom symbol maxDepth source position = .error error stop →
      error ≠ .stalled → stop = position := by
  constructor
  · intro tree next hsample
    rcases exists_draws hsample with ⟨choices, hdraws⟩
    refine ⟨⟨choices, hdraws⟩, ?_, hdraws.next_eq_of_zeros⟩
    intro number hsame
    exact sampleFrom_congr hsample hsame
  · intro error stop herror hended
    exact h.wellFormed.stop_eq_position herror hended

/-- A word of four letters takes seven numbers, and nine more that are rejected. -/
theorem textbook_sample_draws :
    (Session.new.run textbook).current.Reachable ∧
      (∃ tree, (Session.new.run textbook).current.sampleFrom 'B' 4 (.ofSeed 7) 0 = .ok tree 16 ∧
        tree.word = "abab" ∧
        (∃ choices, (Session.new.run textbook).current.Draws (.ofSeed 7) 'B' 4 0 tree 16 choices ∧
          choices.length = 7 ∧ (choices.map Choice.rejected).sum = 9) ∧
        (Session.new.run textbook).current.sampleFrom 'B' 4
          { Source.ofSeed 7 with
            number := fun place => if place < 16 then (Source.ofSeed 7).number place else 1 } 0 =
          .ok tree 16) ∧
      (∃ tree next, (Session.new.run textbook).current.sampleFrom 'B' 4 (.ofArray #[]) 3 =
        .ok tree next ∧ tree.word = "baaabaaa" ∧ next = 18) ∧
      ∃ error stop, (Session.new.run textbook).current.sampleFrom 'S' 1 (.ofSeed 7) 3 =
        .error error stop ∧ stop = 3 := by
  have hreach : (Session.new.run textbook).current.Reachable := ⟨textbook, rfl⟩
  -- The words are computed, and how many numbers they take follows from their lengths.
  have hseeded : (Tree.word <$> (Session.new.run textbook).current.sampleFrom 'B' 4 (.ofSeed 7)) 0 =
      .ok "abab" 16 := rfl
  have hzeros : ∃ next,
      (Tree.word <$> (Session.new.run textbook).current.sampleFrom 'B' 4 (.ofArray #[])) 3 =
        .ok "baaabaaa" next := ⟨_, rfl⟩
  have hlow : (Session.new.run textbook).current.sampleFrom 'S' 1 (.ofSeed 7) 3 =
      .error (.depthTooSmall 'S' 2 1) 3 := rfl
  have hdraws := Reachable.sample_draws hreach
  refine ⟨hreach, ?_, ?_, _, _, hlow, (hdraws 'S' 1 (.ofSeed 7) 3).2 _ _ hlow (by simp)⟩
  · rcases sampler_map_eq_ok_iff.1 hseeded with ⟨tree, htree, hword⟩
    rcases (hdraws 'B' 4 (.ofSeed 7) 0).1 tree 16 htree with ⟨⟨choices, hchoices⟩, hsame, _⟩
    have hlength : tree.word.length = 4 := by
      rw [← hword]
      rfl
    have hnumbers := hchoices.numbers
    rw [hlength] at hnumbers
    refine ⟨tree, htree, hword.symm, ⟨choices, hchoices, ?_, by omega⟩, ?_⟩
    · rw [hchoices.length, hlength]
    · exact hsame _ fun place _ hlt => if_pos hlt
  · rcases hzeros with ⟨next, hzero⟩
    rcases sampler_map_eq_ok_iff.1 hzero with ⟨tree, htree, hword⟩
    rcases (hdraws 'B' 4 (.ofArray #[]) 3).1 tree next htree with ⟨_, _, hnext⟩
    refine ⟨tree, next, htree, hword.symm, ?_⟩
    rw [hnext fun _ => rfl, ← hword]
    rfl

end Grammar

end ChomskyNormal
