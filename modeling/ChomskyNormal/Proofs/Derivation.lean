import ChomskyNormal.Grammar.Basic
import ChomskyNormal.Proofs.Grammar.WellFormed
import ChomskyNormal.Tree
import Mathlib.Algebra.Order.Group.Nat

/-!
# Derivations

How a derivation begins, how long the derived word can be, and which letters it has.

- `Productions.derives_iff` : a derivation begins with a terminal or with a pair;
- `Tree.length_yield_le` : a tree of a given height has at most so many leaves;
- `Tree.mem_terminals_of_follows` : leaves of well-formed grammars are registered terminals;
- `Tree.Follows.mono`, `Productions.Derives.mono` : what more productions leave as it is.
-/

namespace ChomskyNormal

/-! ## The first step -/

namespace Productions

variable {productions : Productions} {root : Char} {word : List Char}

/-- A word is a single letter, or what two nonterminals derive one after the other. -/
theorem derives_iff :
    productions.Derives root word ↔
      (∃ letter, .terminal letter ∈ productions.alternatives root ∧ word = [letter]) ∨
        ∃ left right front back, .binary left right ∈ productions.alternatives root ∧
          productions.Derives left front ∧ productions.Derives right back ∧
            word = front ++ back := by
  constructor
  · rintro ⟨tree, hfollows, rfl, rfl⟩
    cases tree with
    | leaf root letter => exact Or.inl ⟨letter, hfollows, rfl⟩
    | node root left right =>
        rcases hfollows with ⟨hroot, hleft, hright⟩
        exact Or.inr ⟨left.root, right.root, left.yield, right.yield, hroot,
          ⟨left, hleft, rfl, rfl⟩, ⟨right, hright, rfl, rfl⟩, rfl⟩
  · rintro (⟨letter, hletter, rfl⟩ | ⟨left, right, front, back, hpair, hfront, hback, rfl⟩)
    · exact ⟨.leaf root letter, hletter, rfl, rfl⟩
    · rcases hfront with ⟨leftTree, hleft, rfl, rfl⟩
      rcases hback with ⟨rightTree, hright, rfl, rfl⟩
      exact ⟨.node root leftTree rightTree, ⟨hpair, hleft, hright⟩, rfl, rfl⟩

theorem Derives.word_ne_nil (h : productions.Derives root word) : word ≠ [] := by
  rcases h with ⟨tree, _, _, rfl⟩
  exact tree.yield_ne_nil

/-- A single letter can only come from a terminal production. -/
theorem derives_singleton_iff {letter : Char} :
    productions.Derives root [letter] ↔ .terminal letter ∈ productions.alternatives root := by
  rw [derives_iff]
  constructor
  · rintro (⟨other, hother, heq⟩ | ⟨left, right, front, back, _, hfront, hback, heq⟩)
    · cases heq
      exact hother
    · -- Two derived words are too long together to be one letter.
      have hlength : 1 = front.length + back.length := by
        simpa using congrArg List.length heq
      have hpos : 0 < front.length := List.length_pos_of_ne_nil hfront.word_ne_nil
      have hpos' : 0 < back.length := List.length_pos_of_ne_nil hback.word_ne_nil
      omega
  · intro hletter
    exact Or.inl ⟨letter, hletter, rfl⟩

end Productions

/-! ## Leaves -/

namespace Tree

/-- One level has one letter, and each level more doubles them at most. -/
theorem length_yield_le (tree : Tree) : tree.yield.length ≤ 2 ^ (tree.height - 1) := by
  induction tree with
  | leaf root letter => exact Nat.le_refl 1
  | node root left right ihLeft ihRight =>
      -- Either half has at most as many letters as its height allows, so both have at most twice
      -- what the higher one allows.
      have hleft : 2 ^ (left.height - 1) ≤ 2 ^ (max left.height right.height - 1) :=
        Nat.pow_le_pow_right Nat.two_pos (by omega)
      have hright : 2 ^ (right.height - 1) ≤ 2 ^ (max left.height right.height - 1) :=
        Nat.pow_le_pow_right Nat.two_pos (by omega)
      have hpos : 0 < max left.height right.height :=
        Nat.lt_of_lt_of_le left.height_pos (Nat.le_max_left _ _)
      calc
        (node root left right).yield.length
            = left.yield.length + right.yield.length := by simp [yield]
        _ ≤ 2 ^ (max left.height right.height - 1) + 2 ^ (max left.height right.height - 1) := by
            omega
        _ = 2 ^ (max left.height right.height - 1 + 1) := by
            rw [Nat.pow_succ, Nat.mul_two]
        _ = 2 ^ ((node root left right).height - 1) := by
            rw [height]
            congr 1
            omega

/-- The letters of a tree are registered, as they come from its productions. -/
theorem mem_terminals_of_follows {grammar : Grammar} (h : grammar.WellFormed) {tree : Tree}
    (hfollows : tree.Follows grammar.productions) {c : Char} (hc : c ∈ tree.yield) :
    c ∈ grammar.alphabet.terminals := by
  induction tree with
  | leaf root letter =>
      cases List.mem_singleton.1 hc
      exact h.covers hfollows
  | node root left right ihLeft ihRight =>
      rcases hfollows with ⟨_, hleft, hright⟩
      rcases List.mem_append.1 hc with hc | hc
      · exact ihLeft hleft hc
      · exact ihRight hright hc

/-- The first production of a tree is there to be looked up. -/
theorem rhs_mem_of_follows {productions : Productions} {tree : Tree}
    (h : tree.Follows productions) : tree.rhs ∈ productions.alternatives tree.root := by
  cases tree with
  | leaf root letter => exact h
  | node root left right => exact h.1

end Tree

/-! ## More productions -/

section More

variable {productions extended : Productions}
  (hmore : ∀ head, productions.alternatives head ⊆ extended.alternatives head)
include hmore

/-- A tree need not change when there are more productions to choose from. -/
theorem Tree.Follows.mono {tree : Tree} (h : tree.Follows productions) :
    tree.Follows extended := by
  induction tree with
  | leaf root letter => exact hmore root h
  | node root left right ihLeft ihRight =>
      rcases h with ⟨hroot, hleft, hright⟩
      exact ⟨hmore root hroot, ihLeft hleft, ihRight hright⟩

theorem Productions.Derives.mono {root : Char} {word : List Char}
    (h : productions.Derives root word) : extended.Derives root word := by
  rcases h with ⟨tree, hfollows, hroot, hyield⟩
  exact ⟨tree, hfollows.mono hmore, hroot, hyield⟩

end More

end ChomskyNormal
