import ChomskyNormal.Proofs.Derivation
import Mathlib.Data.List.Nodup
import Mathlib.Order.Lattice.Nat

/-!
# Heights of derivation trees

How high the trees of a nonterminal are, and how low the lowest of them can be.

- `Productions.treeHeights` : the heights of the trees with a given root;
- `Productions.exists_isLeast_of_succ` : below a least height lie all smaller ones, at other roots;
- `Productions.isLeast_le_length` : a least height is no more than the number of roots.
-/

namespace ChomskyNormal.Productions

variable {productions : Productions} {root : Char} {height : ℕ}

def treeHeights (productions : Productions) (root : Char) : Set ℕ :=
  { height | ∃ tree : Tree, tree.Follows productions ∧ tree.root = root ∧ tree.height = height }

theorem mem_treeHeights {tree : Tree} (h : tree.Follows productions) :
    tree.height ∈ productions.treeHeights tree.root :=
  ⟨tree, h, rfl, rfl⟩

theorem pos_of_mem_treeHeights (h : height ∈ productions.treeHeights root) : 0 < height := by
  rcases h with ⟨tree, _, _, rfl⟩
  exact tree.height_pos

theorem exists_isLeast_treeHeights (h : height ∈ productions.treeHeights root) :
    ∃ least ≤ height, IsLeast (productions.treeHeights root) least := by
  have hnonempty : (productions.treeHeights root).Nonempty := ⟨height, h⟩
  exact ⟨sInf (productions.treeHeights root), Nat.sInf_le h, Nat.sInf_mem hnonempty,
    fun other hother => Nat.sInf_le hother⟩

theorem treeHeights_eq_empty_iff :
    productions.treeHeights root = ∅ ↔
      ∀ tree : Tree, tree.Follows productions → tree.root ≠ root := by
  rw [Set.eq_empty_iff_forall_notMem]
  constructor
  · rintro hnone tree hfollows rfl
    exact hnone tree.height (mem_treeHeights hfollows)
  · rintro hnone height ⟨tree, hfollows, hroot, _⟩
    exact hnone tree hfollows hroot

/-- Trees do not depend on the order of alternatives. -/
theorem treeHeights_congr {others : Productions}
    (h : ∀ head rhs, rhs ∈ productions.alternatives head ↔ rhs ∈ others.alternatives head)
    (root : Char) : productions.treeHeights root = others.treeHeights root := by
  have hfollows : ∀ tree : Tree, tree.Follows productions ↔ tree.Follows others := fun tree =>
    ⟨.mono fun head rhs => (h head rhs).1, .mono fun head rhs => (h head rhs).2⟩
  simp only [treeHeights, hfollows]

/-- Either a symbol has no tree, or its lowest trees fit a depth, or they do not. -/
theorem treeHeights_cases (productions : Productions) (root : Char) (depth : ℕ) :
    productions.treeHeights root = ∅ ∨
      ∃ needed, IsLeast (productions.treeHeights root) needed ∧
        (depth < needed ∨ needed ≤ depth) := by
  rcases Set.eq_empty_or_nonempty (productions.treeHeights root) with hnone | ⟨height, hmem⟩
  · exact Or.inl hnone
  · rcases exists_isLeast_treeHeights hmem with ⟨needed, _, hleast⟩
    exact Or.inr ⟨needed, hleast, Nat.lt_or_ge depth needed⟩

/-! ## Least heights -/

theorem succ_max_mem_treeHeights {left right : Char} {leftHeight rightHeight : ℕ}
    (hpair : .binary left right ∈ productions.alternatives root)
    (hleft : leftHeight ∈ productions.treeHeights left)
    (hright : rightHeight ∈ productions.treeHeights right) :
    1 + max leftHeight rightHeight ∈ productions.treeHeights root := by
  rcases hleft with ⟨leftTree, hfollowsLeft, rfl, rfl⟩
  rcases hright with ⟨rightTree, hfollowsRight, rfl, rfl⟩
  exact ⟨.node root leftTree rightTree, ⟨hpair, hfollowsLeft, hfollowsRight⟩, rfl, rfl⟩

/-- In a lowest tree one half is a lowest tree too, and just one level lower. -/
theorem exists_isLeast_of_succ (h : IsLeast (productions.treeHeights root) (height + 2)) :
    ∃ other, IsLeast (productions.treeHeights other) (height + 1) := by
  rcases h with ⟨⟨tree, hfollows, rfl, hheight⟩, hlower⟩
  cases tree with
  | leaf root letter => cases hheight
  | node root left right =>
      rcases hfollows with ⟨hpair, hfollowsLeft, hfollowsRight⟩
      rcases exists_isLeast_treeHeights (mem_treeHeights hfollowsLeft) with
        ⟨leftLeast, hleLeft, hleft⟩
      rcases exists_isLeast_treeHeights (mem_treeHeights hfollowsRight) with
        ⟨rightLeast, hleRight, hright⟩
      -- Lowest halves make a tree that is not lower than the lowest one.
      have hmax : height + 2 ≤ 1 + max leftLeast rightLeast :=
        hlower (succ_max_mem_treeHeights hpair hleft.1 hright.1)
      have htree : 1 + max left.height right.height = height + 2 := hheight
      rcases max_choice leftLeast rightLeast with hmaxLeft | hmaxRight
      · have hleast : leftLeast = height + 1 := by omega
        exact ⟨left.root, hleast ▸ hleft⟩
      · have hleast : rightLeast = height + 1 := by omega
        exact ⟨right.root, hleast ▸ hright⟩

/-- Every height below a least one is the least one of some symbol. -/
theorem exists_isLeast_of_le (h : IsLeast (productions.treeHeights root) (height + 1))
    {lower : ℕ} (hlower : lower ≤ height) :
    ∃ other, IsLeast (productions.treeHeights other) (lower + 1) := by
  induction height generalizing root with
  | zero =>
      cases Nat.le_zero.1 hlower
      exact ⟨root, h⟩
  | succ height ih =>
      rcases Nat.eq_or_lt_of_le hlower with rfl | hlt
      · exact ⟨root, h⟩
      · rcases exists_isLeast_of_succ h with ⟨other, hother⟩
        exact ih hother (Nat.lt_succ_iff.1 hlt)

/-- Every height up to a least one is the least height of a root of its own. -/
theorem isLeast_le_length {heads : List Char}
    (hheads : ∀ tree : Tree, tree.Follows productions → tree.root ∈ heads)
    (h : IsLeast (productions.treeHeights root) height) : height ≤ heads.length := by
  cases height with
  | zero => exact Nat.zero_le _
  | succ height =>
      -- Each level up to the height is least for a root of its own, and all these are among the
      -- heads.
      choose! rootOf hroot using fun lower => @exists_isLeast_of_le _ _ _ h lower
      have hmem : ∀ lower ∈ List.range (height + 1),
          IsLeast (productions.treeHeights (rootOf lower)) (lower + 1) :=
        fun lower hlower => hroot lower (Nat.lt_succ_iff.1 (List.mem_range.1 hlower))
      have hdistinct : ((List.range (height + 1)).map rootOf).Nodup := by
        refine List.nodup_range.map_on ?_
        intro lower hlower other hother hsame
        have hlow := hmem lower hlower
        rw [hsame] at hlow
        exact Nat.succ.inj (hlow.unique (hmem other hother))
      have hsubset : (List.range (height + 1)).map rootOf ⊆ heads := by
        intro other hother
        rcases List.mem_map.1 hother with ⟨lower, hlower, rfl⟩
        rcases (hmem lower hlower).1 with ⟨tree, hfollows, hsame, _⟩
        exact hsame ▸ hheads tree hfollows
      have hlength := (List.subperm_of_subset hdistinct hsubset).length_le
      rwa [List.length_map, List.length_range] at hlength

end ChomskyNormal.Productions
