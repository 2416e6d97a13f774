import ChomskyNormal.Proofs.Grammar.Size
import ChomskyNormal.Proofs.Sampling.Outcome

/-!
# Every tree can be sampled

Any index of a choice is chosen by some number. So for a tree that fits a depth there are numbers
that make a growth take its productions one after the other, the left half of a pair before the
right one. No tree is out of reach, since every production of a tree is a candidate when its turn
comes. Hence each word of the language is sampled by some numbers, within a depth that is no more
than its length.

- `Source.numberFor` : a number that chooses an index;
- `Source.Offers` : the numbers that come next in a source;
- `Tree.numbers` : the numbers that grow a tree;
- `Grammar.Reachable.sample_complete` : words of a grammar can be sampled.
-/

namespace ChomskyNormal

/-! ## Numbers for an index -/

namespace Source

/-- The least number whose product with `count` has the index as its high word. -/
def numberFor (count chosen : ℕ) : UInt32 :=
  .ofNat ((chosen * 2 ^ 32 + (count - 1)) / count)

variable {count chosen : ℕ}

/-- The product of the number with `count` exceeds the index's high word by less than `count`. -/
theorem numberFor_mul (h : chosen < count) (hcount : count ≤ 2 ^ 32) :
    ∃ low < count, (numberFor count chosen).toNat * count = chosen * 2 ^ 32 + low := by
  have hpos : 0 < count := Nat.zero_lt_of_lt h
  have hdiv := Nat.div_add_mod (chosen * 2 ^ 32 + (count - 1)) count
  have hmod : (chosen * 2 ^ 32 + (count - 1)) % count < count := Nat.mod_lt _ hpos
  have hsmall : (chosen * 2 ^ 32 + (count - 1)) / count < 2 ^ 32 := by
    have hnext : (chosen + 1) * 2 ^ 32 ≤ count * 2 ^ 32 := Nat.mul_le_mul_right _ h
    rw [Nat.div_lt_iff_lt_mul hpos, Nat.mul_comm (2 ^ 32)]
    omega
  have hnumber : (numberFor count chosen).toNat = (chosen * 2 ^ 32 + (count - 1)) / count :=
    UInt32.toNat_ofNat_of_lt' hsmall
  refine ⟨count - 1 - (chosen * 2 ^ 32 + (count - 1)) % count, by omega, ?_⟩
  rw [hnumber, Nat.mul_comm]
  omega

theorem index_numberFor (h : chosen < count) (hcount : count ≤ 2 ^ 32) :
    index count (numberFor count chosen) = chosen := by
  rcases numberFor_mul h hcount with ⟨low, hlow, hproduct⟩
  rw [index, hproduct, show UInt32.size = 2 ^ 32 from rfl, Nat.mul_comm,
    Nat.mul_add_div (by decide), Nat.div_eq_of_lt (hlow.trans_le hcount), Nat.add_zero]

/-- The zone holds the low words of all numbers that are least for their index. -/
theorem suits_numberFor (h : chosen < count) (hcount : count ≤ 2 ^ 32) :
    suits count (numberFor count chosen) = true := by
  rcases numberFor_mul h hcount with ⟨low, hlow, hproduct⟩
  have hzone : count ≤ count <<< (31 - count.log2) := by
    rw [Nat.shiftLeft_eq]
    exact Nat.le_mul_of_pos_right count (Nat.two_pow_pos _)
  rw [suits, decide_eq_true_iff, hproduct, show UInt32.size = 2 ^ 32 from rfl, Nat.mul_comm,
    Nat.mul_add_mod, Nat.mod_eq_of_lt (hlow.trans_le hcount), zone]
  exact Nat.le_pred_of_lt (hlow.trans_le hzone)

/-! ## Numbers that come next -/

/-- The given numbers come next in the source, which takes one for a choice at least. -/
structure Offers (source : Source) (position : ℕ) (numbers : List UInt32) : Prop where
  patient : 0 < source.patience
  number : ∀ place number, numbers[place]? = some number →
    source.number (position + place) = number

theorem offers_ofArray (numbers : List UInt32) : (ofArray numbers.toArray).Offers 0 numbers where
  patient := Nat.succ_pos _
  number place number h := by
    change numbers.toArray.getD (0 + place) 0 = number
    simp [h]

namespace Offers

variable {source : Source} {position : ℕ} {first : UInt32} {numbers later : List UInt32}

theorem head (h : source.Offers position (first :: numbers)) : source.number position = first :=
  h.number 0 first rfl

theorem tail (h : source.Offers position (first :: numbers)) :
    source.Offers (position + 1) numbers where
  patient := h.patient
  number place number hplace := by
    rw [Nat.add_assoc, Nat.add_comm 1]
    exact h.number (place + 1) number hplace

theorem left (h : source.Offers position (numbers ++ later)) :
    source.Offers position numbers where
  patient := h.patient
  number place number hplace := by
    rcases List.getElem?_eq_some_iff.1 hplace with ⟨hlt, _⟩
    exact h.number place number (by rw [List.getElem?_append_left hlt, hplace])

theorem right (h : source.Offers position (numbers ++ later)) :
    source.Offers (position + numbers.length) later where
  patient := h.patient
  number place number hplace := by
    rw [Nat.add_assoc]
    refine h.number (numbers.length + place) number ?_
    rw [List.getElem?_append_right (Nat.le_add_right _ _), Nat.add_sub_cancel_left, hplace]

/-- A number that suits is the only one that a choice takes. -/
theorem choose {α : Type} [DecidableEq α] {items : List α} {item : α} (hmem : item ∈ items)
    (hcount : items.length < 2 ^ 32)
    (h : source.Offers position (numberFor items.length (items.idxOf item) :: numbers)) :
    source.choose items position = some (item, position + 1) := by
  have hlt : items.idxOf item < items.length := List.idxOf_lt_length_iff.2 hmem
  have hdecides : source.Decides items position 0 item := by
    refine ⟨fun earlier hearlier => absurd hearlier (Nat.not_lt_zero earlier), ?_, ?_⟩
    · rw [Nat.add_zero, h.head]
      exact suits_numberFor hlt hcount.le
    · rw [Nat.add_zero, h.head, index_numberFor hlt hcount.le]
      exact List.getElem?_idxOf hmem
  exact choose_eq_some_iff.2 ⟨0, h.patient, hdecides, rfl⟩

end Offers

end Source

/-! ## Numbers for a tree -/

namespace Tree

/-- A tree has no more levels than letters. -/
theorem height_le_length_yield (tree : Tree) : tree.height ≤ tree.yield.length := by
  induction tree with
  | leaf root letter => exact Nat.le_refl 1
  | node root left right ihLeft ihRight =>
      have hleft : 0 < left.yield.length := List.length_pos_of_ne_nil left.yield_ne_nil
      have hright : 0 < right.yield.length := List.length_pos_of_ne_nil right.yield_ne_nil
      rw [height, yield, List.length_append]
      omega

variable (productions : Productions) (heights : Heights)

def firstNumber (depth : ℕ) (tree : Tree) : UInt32 :=
  let candidates := fitting productions heights depth tree.root
  Source.numberFor candidates.length (candidates.idxOf tree.rhs)

/-- The numbers that make a growth take the productions of a tree, the root's first, then those of
the left half, and those of the right half last. -/
def numbers : ℕ → Tree → List UInt32
  | depth, .leaf root letter => [firstNumber productions heights depth (.leaf root letter)]
  | depth, .node root left right =>
      firstNumber productions heights depth (.node root left right) ::
        (numbers (depth - 1) left ++ numbers (depth - 1) right)

end Tree

section Grow

variable {productions : Productions} {heights : Heights} {source : Source}

/-- The first number of a tree chooses its first production. -/
theorem choose_firstNumber (hexact : Heights.Exact productions heights)
    (hcount : ∀ head, (productions.alternatives head).length < 2 ^ 32) {tree : Tree}
    {depth position : ℕ} {numbers : List UInt32} (hfollows : tree.Follows productions)
    (hdepth : tree.height ≤ depth)
    (hoffers : source.Offers position
      (tree.firstNumber productions heights depth :: numbers)) :
    source.choose (fitting productions heights depth tree.root) position =
      some (tree.rhs, position + 1) := by
  have hlength : (fitting productions heights depth tree.root).length < 2 ^ 32 :=
    (List.length_filter_le _ _).trans_lt (hcount tree.root)
  exact hoffers.choose (rhs_mem_fitting hexact hfollows hdepth) hlength

/-- Numbers for a tree grow it, and no number after them is taken. -/
theorem grow_numbers (hexact : Heights.Exact productions heights)
    (hcount : ∀ head, (productions.alternatives head).length < 2 ^ 32) {tree : Tree}
    (hfollows : tree.Follows productions) {depth position : ℕ} (hdepth : tree.height ≤ depth)
    (hoffers : source.Offers position (tree.numbers productions heights depth)) :
    grow productions heights source depth tree.root position =
      .ok tree (position + (tree.numbers productions heights depth).length) := by
  induction tree generalizing depth position with
  | leaf root letter =>
      cases depth with
      | zero => cases hdepth
      | succ depth =>
          have hchoose := choose_firstNumber hexact hcount hfollows hdepth hoffers
          exact grow_succ_eq_ok_iff.2 (Or.inl ⟨letter, hchoose, rfl⟩)
  | node root left right ihLeft ihRight =>
      cases depth with
      | zero => exact absurd hdepth (by rw [Tree.height]; omega)
      | succ depth =>
          have hmax : 1 + max left.height right.height ≤ depth + 1 := hdepth
          have hnumbers : (Tree.node root left right).numbers productions heights (depth + 1) =
              Tree.firstNumber productions heights (depth + 1) (.node root left right) ::
                (left.numbers productions heights depth ++
                  right.numbers productions heights depth) := rfl
          rw [hnumbers] at hoffers ⊢
          have hchoose := choose_firstNumber hexact hcount hfollows hdepth hoffers
          rcases hfollows with ⟨_, hfollowsLeft, hfollowsRight⟩
          -- What is left of the numbers is used up by the halves, the left one first.
          have hleft := ihLeft hfollowsLeft (by omega) hoffers.tail.left
          have hright := ihRight hfollowsRight (by omega) hoffers.tail.right
          refine grow_succ_eq_ok_iff.2 (Or.inr ⟨left.root, right.root, left, right, position + 1, _,
            hchoose, hleft, ?_, rfl⟩)
          rw [hright, List.length_cons, List.length_append]
          congr 1
          omega

end Grow

/-! ## Words that can be sampled -/

/-- Some numbers make a sampler give a value: on their own, and wherever they come next in a
source. No other number is taken. -/
def Gives {α : Type} (one : Source → Sampler α) (value : α) : Prop :=
  ∃ numbers : List UInt32,
    one (.ofArray numbers.toArray) 0 = .ok value numbers.length ∧
    ∀ source position, source.Offers position numbers →
      one source position = .ok value (position + numbers.length)

theorem Gives.of_offers {α : Type} {one : Source → Sampler α} {value : α} (numbers : List UInt32)
    (h : ∀ source position, source.Offers position numbers →
      one source position = .ok value (position + numbers.length)) : Gives one value := by
  have halone := h (.ofArray numbers.toArray) 0 (Source.offers_ofArray numbers)
  rw [Nat.zero_add] at halone
  exact ⟨numbers, halone, h⟩

theorem Gives.map {α β : Type} {one : Source → Sampler α} {value : α} (f : α → β)
    (h : Gives one value) : Gives (fun source => f <$> one source) (f value) := by
  rcases h with ⟨numbers, _, hall⟩
  refine Gives.of_offers numbers fun source position hoffers => ?_
  exact sampler_map_eq_ok_iff.2 ⟨value, hall source position hoffers, rfl⟩

namespace Grammar

variable {grammar : Grammar}

/-- Every tree within the depth is sampled from its numbers. -/
theorem WellFormed.gives_tree (h : grammar.WellFormed) {tree : Tree} {maxDepth : ℕ}
    (hfollows : tree.Follows grammar.productions) (hheight : tree.height ≤ maxDepth) :
    Gives (grammar.sampleFrom tree.root maxDepth) tree := by
  refine Gives.of_offers (tree.numbers grammar.productions grammar.heights maxDepth) ?_
  intro source position hoffers
  rcases Productions.exists_isLeast_treeHeights (Productions.mem_treeHeights hfollows) with
    ⟨needed, hneeded, hleast⟩
  rw [h.sampleFrom_of_le hleast (hneeded.trans hheight)]
  exact grow_numbers h.heights_exact h.length_alternatives_lt hfollows hheight hoffers

/-- Every word of a tree within the depth is sampled from some numbers, and so is every word that
is recognised, within any depth from its length on. -/
theorem Reachable.sample_complete (h : grammar.Reachable) :
    (∀ symbol maxDepth (word : String),
      (∃ tree : Tree, tree.Follows grammar.productions ∧ tree.root = symbol ∧
          tree.yield = word.toList ∧ tree.height ≤ maxDepth) →
        Gives (fun source => Tree.word <$> grammar.sampleFrom symbol maxDepth source) word) ∧
    ∀ maxDepth (word : String), grammar.isDerived word = .ok true → word.length ≤ maxDepth →
      Gives (fun source => Tree.word <$> grammar.sample maxDepth source) word := by
  have hwell : grammar.WellFormed := h.wellFormed
  have hword : ∀ {tree : Tree} {word : String}, tree.yield = word.toList → tree.word = word := by
    intro tree word hyield
    rw [Tree.word, hyield, String.ofList_toList]
  constructor
  · rintro symbol maxDepth word ⟨tree, hfollows, rfl, hyield, hheight⟩
    have hgives := (hwell.gives_tree hfollows hheight).map Tree.word
    rwa [hword hyield] at hgives
  · intro maxDepth word hderived hlength
    rcases hwell.isDerived_iff_derives.1 hderived with
      ⟨start, hstart, tree, hfollows, rfl, hyield⟩
    -- A tree is no higher than its word is long, so the depth is enough for it.
    have hheight : tree.height ≤ maxDepth := by
      calc
        tree.height ≤ tree.yield.length := tree.height_le_length_yield
        _ = word.length := by rw [hyield, String.length_toList]
        _ ≤ maxDepth := hlength
    have hgives := (hwell.gives_tree hfollows hheight).map Tree.word
    rw [hword hyield] at hgives
    rwa [← sample_eq_sampleFrom hstart] at hgives

/-- Numbers for a tree of one symbol, and for a word that is recognised. -/
theorem textbook_sample_complete :
    (Session.new.run textbook).current.Reachable ∧
      (∃ tree : Tree, tree.Follows (Session.new.run textbook).current.productions ∧
        tree.root = 'B' ∧ tree.yield = "abab".toList ∧ tree.height ≤ 3) ∧
      Gives (fun source =>
        Tree.word <$> (Session.new.run textbook).current.sampleFrom 'B' 3 source) "abab" ∧
      (Session.new.run textbook).current.isDerived "baaba" = .ok true ∧
      Gives (fun source =>
        Tree.word <$> (Session.new.run textbook).current.sample 5 source) "baaba" := by
  have hreach : (Session.new.run textbook).current.Reachable := ⟨textbook, rfl⟩
  -- The tree has two equal halves of one pair each.
  have htree : ∃ tree : Tree, tree.Follows (Session.new.run textbook).current.productions ∧
      tree.root = 'B' ∧ tree.yield = "abab".toList ∧ tree.height ≤ 3 := by
    refine ⟨.node 'B' (.node 'C' (.leaf 'A' 'a') (.leaf 'B' 'b'))
      (.node 'C' (.leaf 'A' 'a') (.leaf 'B' 'b')), ?_, rfl, rfl, ?_⟩
    · decide +kernel
    · decide
  have hderived : (Session.new.run textbook).current.isDerived "baaba" = .ok true := by
    decide +kernel
  have hcomplete := Reachable.sample_complete hreach
  exact ⟨hreach, htree, hcomplete.1 'B' 3 "abab" htree, hderived,
    hcomplete.2 5 "baaba" hderived (by decide)⟩

end Grammar

end ChomskyNormal
