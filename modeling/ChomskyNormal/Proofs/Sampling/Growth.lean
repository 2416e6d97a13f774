import ChomskyNormal.Proofs.Recognition.Cells
import ChomskyNormal.Proofs.Sampling.Choosing
import ChomskyNormal.Sampling.Sample

/-!
# Growing trees

What a successful growth has done, whatever the source: it has chosen one fitting production,
and for a pair it has grown both halves, the right one from where the left one stopped.

- `grow_succ_eq_ok_iff` : the step of a growth;
- `grow_sound` : grown trees follow the productions and stay within the depth;
- `Grammar.Reachable.sample_sound` : sampled words are recognised.
-/

namespace ChomskyNormal

/-! ## One step -/

theorem chooseRhs_eq_ok_iff {source : Source} {symbol : Char} {candidates : List Rhs} {rhs : Rhs}
    {position next : Nat} :
    chooseRhs source symbol candidates position = .ok rhs next ↔
      source.choose candidates position = some (rhs, next) := by
  unfold chooseRhs
  by_cases hnone : candidates = []
  · -- Without candidates there is nothing that could be chosen.
    subst hnone
    constructor
    · intro h
      simp at h
    · intro h
      exact absurd (Source.mem_of_choose h) List.not_mem_nil
  · rw [if_neg hnone]
    cases hchoose : source.choose candidates position with
    | none => simp
    | some chosen => simp [Prod.ext_iff]

/-- The second step starts where the first one ended, unless that failed. -/
theorem sampler_bind_apply {α β : Type} (one : Sampler α) (later : α → Sampler β)
    (position : Nat) :
    (one >>= later) position =
      match one position with
      | .ok first middle => later first middle
      | .error error stop => .error error stop := by
  change EStateM.bind one later position = _
  unfold EStateM.bind
  cases one position with
  | ok first middle => rfl
  | error error stop => rfl

theorem sampler_bind_eq_ok_iff {α β : Type} {one : Sampler α} {later : α → Sampler β} {value : β}
    {position next : Nat} :
    (one >>= later) position = .ok value next ↔
      ∃ first middle, one position = .ok first middle ∧ later first middle = .ok value next := by
  rw [sampler_bind_apply]
  cases one position with
  | ok first middle => simp
  | error error middle => simp

theorem sampler_bind_eq_error_iff {α β : Type} {one : Sampler α} {later : α → Sampler β}
    {error : SampleError} {position stop : Nat} :
    (one >>= later) position = .error error stop ↔
      one position = .error error stop ∨
        ∃ first middle, one position = .ok first middle ∧
          later first middle = .error error stop := by
  rw [sampler_bind_apply]
  cases one position with
  | ok first middle => simp
  | error other middle => simp

theorem sampler_map_eq_ok_iff {α β : Type} {f : α → β} {one : Sampler α} {value : β}
    {position next : Nat} :
    (f <$> one) position = .ok value next ↔
      ∃ first, one position = .ok first next ∧ value = f first := by
  change EStateM.map f one position = _ ↔ _
  unfold EStateM.map
  cases h : one position with
  | ok first middle => simp [and_comm, eq_comm]
  | error error middle => simp

variable {productions : Productions} {heights : Heights} {source : Source}

/-- A growth is a leaf, or a pair of growths one level lower. -/
theorem grow_succ_eq_ok_iff {depth : Nat} {symbol : Char} {tree : Tree} {position next : Nat} :
    grow productions heights source (depth + 1) symbol position = .ok tree next ↔
      (∃ letter, source.choose (fitting productions heights (depth + 1) symbol) position =
          some (.terminal letter, next) ∧ tree = .leaf symbol letter) ∨
        ∃ left right leftTree rightTree middle later,
          source.choose (fitting productions heights (depth + 1) symbol) position =
            some (.binary left right, middle) ∧
          grow productions heights source depth left middle = .ok leftTree later ∧
          grow productions heights source depth right later = .ok rightTree next ∧
          tree = .node symbol leftTree rightTree := by
  rw [grow, sampler_bind_eq_ok_iff]
  constructor
  · -- The chosen production decides how the growth goes on.
    rintro ⟨rhs, middle, hchoose, hrest⟩
    rw [chooseRhs_eq_ok_iff] at hchoose
    cases rhs with
    | terminal letter =>
        cases hrest
        exact Or.inl ⟨letter, hchoose, rfl⟩
    | binary left right =>
        rcases sampler_bind_eq_ok_iff.1 hrest with ⟨leftTree, later, hleft, hmore⟩
        rcases sampler_bind_eq_ok_iff.1 hmore with ⟨rightTree, last, hright, hend⟩
        cases hend
        exact Or.inr ⟨left, right, leftTree, rightTree, middle, later, hchoose, hleft, hright, rfl⟩
  · rintro (⟨letter, hchoose, rfl⟩ |
      ⟨left, right, leftTree, rightTree, middle, later, hchoose, hleft, hright, rfl⟩)
    · exact ⟨_, _, chooseRhs_eq_ok_iff.2 hchoose, rfl⟩
    · refine ⟨_, _, chooseRhs_eq_ok_iff.2 hchoose, ?_⟩
      exact sampler_bind_eq_ok_iff.2 ⟨_, _, hleft,
        sampler_bind_eq_ok_iff.2 ⟨_, _, hright, rfl⟩⟩

/-! ## Whole trees -/

theorem mem_alternatives_of_mem_fitting {depth : Nat} {symbol : Char} {rhs : Rhs}
    (h : rhs ∈ fitting productions heights depth symbol) :
    rhs ∈ productions.alternatives symbol :=
  (List.mem_filter.1 h).1

/-- A growth follows the productions and keeps to its symbol and its depth. -/
theorem grow_sound {depth : Nat} {symbol : Char} {tree : Tree} {position next : Nat}
    (h : grow productions heights source depth symbol position = .ok tree next) :
    tree.Follows productions ∧ tree.root = symbol ∧ tree.height ≤ depth := by
  -- Each half of a pair has one level less to grow in.
  induction depth generalizing symbol tree position next with
  | zero => cases h
  | succ depth ih =>
      rcases grow_succ_eq_ok_iff.1 h with ⟨letter, hchoose, rfl⟩ |
        ⟨left, right, leftTree, rightTree, middle, later, hchoose, hleft, hright, rfl⟩
      · have hmem := mem_alternatives_of_mem_fitting (Source.mem_of_choose hchoose)
        exact ⟨hmem, rfl, Nat.succ_le_succ (Nat.zero_le depth)⟩
      · have hmem := mem_alternatives_of_mem_fitting (Source.mem_of_choose hchoose)
        rcases ih hleft with ⟨hfollowsLeft, rfl, hheightLeft⟩
        rcases ih hright with ⟨hfollowsRight, rfl, hheightRight⟩
        refine ⟨⟨hmem, hfollowsLeft, hfollowsRight⟩, rfl, ?_⟩
        rw [Tree.height]
        omega

/-! ## Sampled words -/

namespace Grammar

variable {grammar : Grammar}

/-- A sample is a growth from its root, which was found to fit the depth. -/
theorem sampleFrom_eq_ok_iff {symbol : Char} {maxDepth position next : Nat} {tree : Tree} :
    grammar.sampleFrom symbol maxDepth source position = .ok tree next ↔
      (∃ needed ≤ maxDepth, grammar.heights[symbol]? = some needed) ∧
        grow grammar.productions grammar.heights source maxDepth symbol position =
          .ok tree next := by
  unfold sampleFrom
  cases hneeded : grammar.heights[symbol]? with
  | none =>
      refine iff_of_false ?_ ?_
      · intro h
        cases h
      · rintro ⟨⟨_, _, hsome⟩, _⟩
        cases hsome
  | some needed =>
      -- The least height is an obstacle only if it exceeds the depth.
      by_cases hsmall : maxDepth < needed
      · simp only [if_pos hsmall]
        refine iff_of_false ?_ ?_
        · intro h
          cases h
        · rintro ⟨⟨_, hle, hsome⟩, _⟩
          cases hsome
          exact Nat.not_lt_of_le hle hsmall
      · simp only [if_neg hsmall]
        exact (and_iff_right ⟨needed, Nat.le_of_not_lt hsmall, rfl⟩).symm

/-- What is known of a sampled tree, before anything is asked about its word. -/
theorem sampleFrom_sound {symbol : Char} {maxDepth position next : Nat} {tree : Tree}
    (h : grammar.sampleFrom symbol maxDepth source position = .ok tree next) :
    tree.Follows grammar.productions ∧ tree.root = symbol ∧ tree.height ≤ maxDepth :=
  grow_sound (sampleFrom_eq_ok_iff.1 h).2

/-- With a start symbol a sample is one from that symbol. -/
theorem sample_eq_sampleFrom {start : Char} (hstart : grammar.start? = some start)
    (maxDepth : Nat) : grammar.sample maxDepth = grammar.sampleFrom start maxDepth := by
  funext source
  unfold sample
  rw [hstart]

theorem sample_eq_ok_iff {maxDepth position next : Nat} {tree : Tree} :
    grammar.sample maxDepth source position = .ok tree next ↔
      ∃ start, grammar.start? = some start ∧
        grammar.sampleFrom start maxDepth source position = .ok tree next := by
  cases hstart : grammar.start? with
  | none =>
      unfold sample
      rw [hstart]
      constructor
      · intro h
        cases h
      · rintro ⟨start, hsome, _⟩
        cases hsome
  | some start =>
      rw [sample_eq_sampleFrom hstart]
      simp

/-- The depth bounds the length of a word. -/
theorem length_word_bounds {tree : Tree} {maxDepth : Nat} (h : tree.height ≤ maxDepth) :
    1 ≤ tree.word.length ∧ tree.word.length ≤ 2 ^ (maxDepth - 1) := by
  have hlength : tree.word.length = tree.yield.length := by
    rw [Tree.word, String.length_ofList]
  have hpos : 0 < tree.yield.length := List.length_pos_of_ne_nil tree.yield_ne_nil
  -- A tree that is not as high as it may be has room for fewer leaves.
  have hpow : 2 ^ (tree.height - 1) ≤ 2 ^ (maxDepth - 1) :=
    Nat.pow_le_pow_right Nat.two_pos (Nat.sub_le_sub_right h 1)
  rw [hlength]
  exact ⟨hpos, Nat.le_trans tree.length_yield_le hpow⟩

theorem derives_word_of_sampleFrom {symbol : Char} {maxDepth position next : Nat} {tree : Tree}
    (h : grammar.sampleFrom symbol maxDepth source position = .ok tree next) :
    grammar.productions.Derives symbol tree.word.toList := by
  rcases sampleFrom_sound h with ⟨hfollows, hroot, _⟩
  exact ⟨tree, hfollows, hroot, String.toList_ofList.symm⟩

/-- Sampled words belong to a tree within the depth, and recognition agrees that they do. -/
theorem Reachable.sample_sound (h : grammar.Reachable) (symbol : Char) (maxDepth : Nat)
    (source : Source) (position : Nat) :
    (∀ word next,
      (Tree.word <$> grammar.sampleFrom symbol maxDepth source) position = .ok word next →
        (∃ tree : Tree, tree.Follows grammar.productions ∧ tree.root = symbol ∧
          tree.yield = word.toList ∧ tree.height ≤ maxDepth) ∧
        1 ≤ word.length ∧ word.length ≤ 2 ^ (maxDepth - 1) ∧
        (∀ c ∈ word.toList, c ∈ grammar.terminals) ∧
        ∀ start, grammar.start? = some start →
          ∃ table, grammar.table word = .ok table ∧ symbol ∈ table.whole) ∧
    (∀ word next, (Tree.word <$> grammar.sample maxDepth source) position = .ok word next →
      grammar.isDerived word = .ok true) := by
  have hwell : grammar.WellFormed := h.wellFormed
  constructor
  · intro word next hsample
    rcases sampler_map_eq_ok_iff.1 hsample with ⟨tree, htree, rfl⟩
    rcases sampleFrom_sound htree with ⟨hfollows, hroot, hheight⟩
    have hyield : tree.yield = tree.word.toList := String.toList_ofList.symm
    have hderives : grammar.productions.Derives symbol tree.word.toList :=
      derives_word_of_sampleFrom htree
    rcases length_word_bounds hheight with ⟨hshort, hlong⟩
    refine ⟨⟨tree, hfollows, hroot, hyield, hheight⟩, hshort, hlong, ?_, ?_⟩
    · intro c hc
      rw [← hyield] at hc
      have hmem : c ∈ grammar.alphabet.terminals := Tree.mem_terminals_of_follows hwell hfollows hc
      exact hwell.alphabet.terminals.mem_order_iff.2 hmem
    · intro start hstart
      -- A derived word is fit to be asked about, as its letters are terminals and there is one at
      -- least.
      rcases hwell.exists_table_of_derives hderives hstart with ⟨table, htable⟩
      exact ⟨table, htable, (hwell.mem_whole_iff_derives htable).2 hderives⟩
  · intro word next hsample
    rcases sampler_map_eq_ok_iff.1 hsample with ⟨tree, htree, rfl⟩
    rcases sample_eq_ok_iff.1 htree with ⟨start, hstart, hfrom⟩
    exact hwell.isDerived_iff_derives.2 ⟨start, hstart, derives_word_of_sampleFrom hfrom⟩

/-- Words of a source with a seed, and what recognition says of them. -/
theorem textbook_sample_sound :
    (Session.new.run textbook).current.Reachable ∧
      (Tree.word <$> (Session.new.run textbook).current.sampleFrom 'B' 4 (.ofSeed 7)) 0 =
        .ok "abab" 16 ∧
      (∃ table, (Session.new.run textbook).current.table "abab" = .ok table ∧
        'B' ∈ table.whole) ∧
      (Tree.word <$> (Session.new.run textbook).current.sample 4 (.ofSeed 7)) 0 =
        .ok "aaba" 16 ∧
      (Session.new.run textbook).current.isDerived "aaba" = .ok true := by
  have hreach : (Session.new.run textbook).current.Reachable := ⟨textbook, rfl⟩
  have hstart : (Session.new.run textbook).current.start? = some 'S' := by decide +kernel
  have hfrom : (Tree.word <$> (Session.new.run textbook).current.sampleFrom 'B' 4 (.ofSeed 7)) 0 =
      .ok "abab" 16 := rfl
  have hsample : (Tree.word <$> (Session.new.run textbook).current.sample 4 (.ofSeed 7)) 0 =
      .ok "aaba" 16 := rfl
  have hsound := Reachable.sample_sound hreach
  exact ⟨hreach, hfrom, ((hsound 'B' 4 (.ofSeed 7) 0).1 _ _ hfrom).2.2.2.2 'S' hstart, hsample,
    (hsound 'S' 4 (.ofSeed 7) 0).2 _ _ hsample⟩

end Grammar

end ChomskyNormal
