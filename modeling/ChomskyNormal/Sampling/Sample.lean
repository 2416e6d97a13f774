import ChomskyNormal.Sampling.Height
import ChomskyNormal.Sampling.Source
import ChomskyNormal.Tree

/-!
# Sampling words

A random derivation tree is grown from its root. At each nonterminal a source chooses among
the productions that can still be finished within the depth that is left; a pair is grown on
its left wholly before its right. The sampled word is the yield of the tree.

- `Grammar.sampleFrom` : a tree with a given root;
- `Grammar.sample` : a tree with the start symbol as root;
- `repeatSample` : several trees, drawn one after the other.
-/

namespace ChomskyNormal

/-! ## Errors -/

inductive SampleError
  | noStart
  /-- No finite word can be derived from the symbol. -/
  | unproductive (symbol : Char)
  | depthTooSmall (symbol : Char) (needed maxDepth : Nat)
  /-- The source ran out of patience within one choice. -/
  | stalled
  deriving DecidableEq, Repr

namespace SampleError

def message : SampleError → String
  | .noStart => "the grammar has no start symbol"
  | .unproductive c => s!"`{c}` does not derive any word"
  | .depthTooSmall c needed maxDepth =>
      s!"`{c}` needs a derivation of depth {needed}, but the limit is {maxDepth}"
  | .stalled => "the source of random numbers does not settle a choice"

instance : ToString SampleError := ⟨message⟩

end SampleError

/-! ## Growing a tree -/

def fitting (productions : Productions) (heights : Heights) (depth : Nat) (symbol : Char) :
    List Rhs :=
  (productions.alternatives symbol).filter fun rhs => (heights.ofRhs? rhs).any (· ≤ depth)

/-- Trees are grown while numbers are taken from a source: the state is the position of the
next number, and a failure keeps the position at which it came up. -/
abbrev Sampler := EStateM SampleError Nat

/-- Chooses among the productions of a nonterminal that fit; there has to be one. -/
def chooseRhs (source : Source) (symbol : Char) (candidates : List Rhs) : Sampler Rhs :=
  fun position =>
    if candidates = [] then
      .error (.unproductive symbol) position
    else
      match source.choose candidates position with
      | some (rhs, next) => .ok rhs next
      | none => .error .stalled position

def grow (productions : Productions) (heights : Heights) (source : Source) :
    Nat → Char → Sampler Tree
  | 0, symbol => throw (.unproductive symbol)
  | depth + 1, symbol => do
      match ← chooseRhs source symbol (fitting productions heights (depth + 1) symbol) with
      | .terminal letter => return .leaf symbol letter
      | .binary left right =>
          -- The right tree takes its numbers only after the left tree is complete.
          let leftTree ← grow productions heights source depth left
          let rightTree ← grow productions heights source depth right
          return .node symbol leftTree rightTree

/-! ## Sampling -/

namespace Grammar

def sampleFrom (grammar : Grammar) (symbol : Char) (maxDepth : Nat) (source : Source) :
    Sampler Tree :=
  let heights := grammar.heights
  match heights[symbol]? with
  | none => throw (.unproductive symbol)
  | some needed =>
      if maxDepth < needed then
        throw (.depthTooSmall symbol needed maxDepth)
      else
        grow grammar.productions heights source maxDepth symbol

def sample (grammar : Grammar) (maxDepth : Nat) (source : Source) : Sampler Tree :=
  match grammar.start? with
  | none => throw .noStart
  | some start => grammar.sampleFrom start maxDepth source

end Grammar

/-- Samples `count` trees one after the other; the first failure ends it. -/
def repeatSample (one : Sampler Tree) : Nat → Sampler (List Tree)
  | 0 => return []
  | count + 1 => do
      let tree ← one
      let later ← repeatSample one count
      return tree :: later

def Tree.word (tree : Tree) : String :=
  String.ofList tree.yield

end ChomskyNormal
