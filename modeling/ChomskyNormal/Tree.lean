import ChomskyNormal.Productions

/-!
# Derivation trees

A derivation tree records how a nonterminal becomes a word: a leaf replaces its root by one
terminal, and a node replaces its root by the roots of two smaller trees.

- `Tree.yield` : the word at the leaves;
- `Tree.height` : the longest way from the root to a leaf, a leaf having height one;
- `Tree.Follows` : every replacement in the tree is a production;
- `Productions.Derives` : a nonterminal is the root of such a tree with a given yield.
-/

namespace ChomskyNormal

inductive Tree
  | leaf (root letter : Char)
  | node (root : Char) (left right : Tree)
  deriving DecidableEq, Repr

namespace Tree

def root : Tree → Char
  | .leaf root _ => root
  | .node root _ _ => root

def rhs : Tree → Rhs
  | .leaf _ letter => .terminal letter
  | .node _ left right => .binary left.root right.root

def yield : Tree → List Char
  | .leaf _ letter => [letter]
  | .node _ left right => left.yield ++ right.yield

def height : Tree → Nat
  | .leaf _ _ => 1
  | .node _ left right => 1 + max left.height right.height

/-- Every replacement in the tree is one of the productions. -/
def Follows (productions : Productions) : Tree → Prop
  | .leaf root letter => .terminal letter ∈ productions.alternatives root
  | .node root left right =>
      .binary left.root right.root ∈ productions.alternatives root ∧
        left.Follows productions ∧ right.Follows productions

instance decidableFollows (productions : Productions) :
    (tree : Tree) → Decidable (tree.Follows productions)
  | .leaf root letter =>
      inferInstanceAs (Decidable (.terminal letter ∈ productions.alternatives root))
  | .node _ left right =>
      have := decidableFollows productions left
      have := decidableFollows productions right
      inferInstanceAs (Decidable (_ ∧ _ ∧ _))

theorem height_pos (tree : Tree) : 0 < tree.height := by
  cases tree with
  | leaf root letter => exact Nat.one_pos
  | node root left right => exact Nat.add_pos_left Nat.one_pos _

theorem yield_ne_nil (tree : Tree) : tree.yield ≠ [] := by
  induction tree with
  | leaf root letter => simp [yield]
  | node root left right ihLeft _ =>
      intro h
      exact ihLeft (List.append_eq_nil_iff.mp h).1

end Tree

/-- A nonterminal derives a word when it is the root of a tree with that yield. -/
def Productions.Derives (productions : Productions) (root : Char) (word : List Char) : Prop :=
  ∃ tree : Tree, tree.Follows productions ∧ tree.root = root ∧ tree.yield = word

end ChomskyNormal
