import ChomskyNormal.Proofs.Sampling.TreeHeights
import ChomskyNormal.Sampling.Height
import Mathlib.Logic.Function.Iterate

/-!
# Sweeps reach the least heights

A sweep works on the map that it changes, so it sees old heights beside new ones. Two facts hold
all the same: every recorded height is that of a tree, and with each sweep all trees that are one
level higher have been taken into account. No least height exceeds the number of nonterminals.

- `Heights.Sound`, `Heights.Reaches` : the two facts, and what a sweep makes of them;
- `Heights.settle_eq_iterate` : stopping early makes no difference;
- `Grammar.WellFormed.heights_exact` : the heights of a grammar are the least ones.
-/

namespace ChomskyNormal

namespace Heights

variable {productions : Productions} {heights : Heights} {head : Char}

/-! ## One right-hand side -/

theorem ofRhs?_binary_eq_some_iff {left right : Char} {height : ℕ} :
    heights.ofRhs? (.binary left right) = some height ↔
      ∃ leftHeight rightHeight, heights[left]? = some leftHeight ∧
        heights[right]? = some rightHeight ∧ height = 1 + max leftHeight rightHeight := by
  cases hleft : heights[left]? with
  | none => simp [ofRhs?, hleft]
  | some leftHeight =>
      cases hright : heights[right]? with
      | none => simp [ofRhs?, hleft, hright]
      | some rightHeight => simp [ofRhs?, hleft, hright, eq_comm]

theorem exists_rhs_of_best? {height : ℕ} (h : best? productions heights head = some height) :
    ∃ rhs ∈ productions.alternatives head, heights.ofRhs? rhs = some height :=
  List.mem_filterMap.1 (List.min?_mem h)

theorem best?_le {rhs : Rhs} {height : ℕ} (hmem : rhs ∈ productions.alternatives head)
    (hrhs : heights.ofRhs? rhs = some height) :
    ∃ best ≤ height, best? productions heights head = some best := by
  have hlisted : height ∈ (productions.alternatives head).filterMap heights.ofRhs? :=
    List.mem_filterMap.2 ⟨rhs, hmem, hrhs⟩
  cases hbest : best? productions heights head with
  | none =>
      rw [List.min?_eq_none_iff.1 hbest] at hlisted
      cases hlisted
  | some best => exact ⟨best, (List.min?_eq_some_iff.1 hbest).2 height hlisted, rfl⟩

/-! ## One improvement -/

/-- An improvement leaves the map alone, or records a best height that beats the recorded one. -/
theorem improve_cases (productions : Productions) (heights : Heights) (head : Char) :
    (improve productions heights head = heights ∧
      ∀ best, best? productions heights head = some best →
        ∃ height ≤ best, heights[head]? = some height) ∨
    ∃ best, best? productions heights head = some best ∧
      (∀ height, heights[head]? = some height → best < height) ∧
      improve productions heights head = heights.insert head best := by
  unfold improve
  cases hbest : best? productions heights head with
  | none => exact Or.inl ⟨rfl, fun _ h => nomatch h⟩
  | some best =>
      -- A best height is recorded where there is none, and otherwise only if it is lower.
      cases hold : heights[head]? with
      | none => exact Or.inr ⟨best, rfl, fun _ h => (nomatch h), by simp⟩
      | some height =>
          by_cases hlower : best < height
          · exact Or.inr ⟨best, rfl, fun _ h => Option.some.inj h ▸ hlower, by simp [hlower]⟩
          · refine Or.inl ⟨by simp [hlower], ?_⟩
            intro other hother
            cases hother
            exact ⟨height, Nat.le_of_not_lt hlower, rfl⟩

/-- Every height that the second map records is recorded in the first, or a lower one is. -/
def Below (lowered heights : Heights) : Prop :=
  ∀ ⦃c : Char⦄ ⦃height : ℕ⦄, heights[c]? = some height → ∃ lower ≤ height, lowered[c]? = some lower

theorem Below.refl (heights : Heights) : Below heights heights :=
  fun _ height h => ⟨height, Nat.le_refl height, h⟩

theorem Below.trans {lowest lowered : Heights} (h : Below lowest lowered)
    (h' : Below lowered heights) : Below lowest heights := by
  intro c height hheight
  rcases h' hheight with ⟨lower, hle, hlower⟩
  rcases h hlower with ⟨lower', hle', hlower'⟩
  exact ⟨lower', Nat.le_trans hle' hle, hlower'⟩

theorem improve_below (productions : Productions) (heights : Heights) (head : Char) :
    Below (improve productions heights head) heights := by
  rcases improve_cases productions heights head with ⟨hsame, _⟩ | ⟨best, _, hlower, hinsert⟩
  · rw [hsame]
    exact Below.refl heights
  · intro c height hheight
    rw [hinsert]
    -- Only the head that was improved has another height, and that one is lower.
    by_cases hc : head = c
    · subst hc
      exact ⟨best, Nat.le_of_lt (hlower height hheight), by simp⟩
    · refine ⟨height, Nat.le_refl height, ?_⟩
      simpa [Std.ExtTreeMap.getElem?_insert, hc] using hheight

theorem sweep_below (productions : Productions) (heads : List Char) (heights : Heights) :
    Below (sweep productions heads heights) heights := by
  induction heads generalizing heights with
  | nil => exact Below.refl heights
  | cons head later ih => exact (ih _).trans (improve_below productions heights head)

/-! ## Recorded heights -/

def Sound (productions : Productions) (heights : Heights) : Prop :=
  ∀ ⦃c : Char⦄ ⦃height : ℕ⦄, heights[c]? = some height → height ∈ productions.treeHeights c

theorem sound_empty (productions : Productions) : Sound productions ∅ := by
  intro c height h
  simp at h

namespace Sound

theorem mem_of_ofRhs? (h : Sound productions heights) {rhs : Rhs} {height : ℕ}
    (hmem : rhs ∈ productions.alternatives head) (hrhs : heights.ofRhs? rhs = some height) :
    height ∈ productions.treeHeights head := by
  cases rhs with
  | terminal letter =>
      cases hrhs
      exact ⟨.leaf head letter, hmem, rfl, rfl⟩
  | binary left right =>
      rcases ofRhs?_binary_eq_some_iff.1 hrhs with ⟨leftHeight, rightHeight, hleft, hright, rfl⟩
      exact Productions.succ_max_mem_treeHeights hmem (h hleft) (h hright)

theorem improve (h : Sound productions heights) (head : Char) :
    Sound productions (improve productions heights head) := by
  rcases improve_cases productions heights head with ⟨hsame, _⟩ | ⟨best, hbest, _, hinsert⟩
  · rw [hsame]
    exact h
  · intro c height hheight
    rw [hinsert, Std.ExtTreeMap.getElem?_insert] at hheight
    split at hheight
    · -- The new height comes from a production of the head, whose halves are recorded.
      next hc =>
        rw [Std.compare_eq_iff_eq] at hc
        cases hc
        cases hheight
        rcases exists_rhs_of_best? hbest with ⟨rhs, hmem, hrhs⟩
        exact h.mem_of_ofRhs? hmem hrhs
    · exact h hheight

theorem sweep (h : Sound productions heights) (heads : List Char) :
    Sound productions (sweep productions heads heights) := by
  induction heads generalizing heights with
  | nil => exact h
  | cons head later ih => exact ih (h.improve head)

theorem iterate (h : Sound productions heights) (heads : List Char) (count : ℕ) :
    Sound productions ((Heights.sweep productions heads)^[count] heights) := by
  induction count with
  | zero => exact h
  | succ count ih =>
      rw [Function.iterate_succ_apply']
      exact ih.sweep heads

end Sound

/-! ## Trees that are taken into account -/

/-- No tree up to a height is lower than what is recorded for its root. -/
def Reaches (productions : Productions) (limit : ℕ) (heights : Heights) : Prop :=
  ∀ ⦃tree : Tree⦄, tree.Follows productions → tree.height ≤ limit →
    ∃ height ≤ tree.height, heights[tree.root]? = some height

theorem reaches_zero (productions : Productions) (heights : Heights) :
    Reaches productions 0 heights := by
  intro tree _ hheight
  exact absurd tree.height_pos (Nat.not_lt_of_le hheight)

namespace Reaches

variable {limit : ℕ}

theorem of_below {lowered : Heights} (h : Reaches productions limit heights)
    (hbelow : Below lowered heights) : Reaches productions limit lowered := by
  intro tree hfollows hheight
  rcases h hfollows hheight with ⟨height, hle, hsome⟩
  rcases hbelow hsome with ⟨lower, hlower, hlowered⟩
  exact ⟨lower, Nat.le_trans hlower hle, hlowered⟩

/-- Both halves of a tree are one level lower, so its first production can be judged. -/
theorem ofRhs?_le (h : Reaches productions limit heights) {tree : Tree}
    (hfollows : tree.Follows productions) (hheight : tree.height ≤ limit + 1) :
    ∃ height ≤ tree.height, heights.ofRhs? tree.rhs = some height := by
  cases tree with
  | leaf root letter => exact ⟨1, Nat.le_refl 1, rfl⟩
  | node root left right =>
      rcases hfollows with ⟨_, hfollowsLeft, hfollowsRight⟩
      have hmax : 1 + max left.height right.height ≤ limit + 1 := hheight
      rcases h hfollowsLeft (by omega) with ⟨leftHeight, hleLeft, hleft⟩
      rcases h hfollowsRight (by omega) with ⟨rightHeight, hleRight, hright⟩
      refine ⟨1 + max leftHeight rightHeight, ?_, ?_⟩
      · change 1 + max leftHeight rightHeight ≤ 1 + max left.height right.height
        omega
      · exact ofRhs?_binary_eq_some_iff.2 ⟨leftHeight, rightHeight, hleft, hright, rfl⟩

/-- Improving the root of a tree takes the tree into account. -/
theorem improve_root (h : Reaches productions limit heights) {tree : Tree}
    (hfollows : tree.Follows productions) (hheight : tree.height ≤ limit + 1) :
    ∃ height ≤ tree.height, (improve productions heights tree.root)[tree.root]? = some height := by
  rcases h.ofRhs?_le hfollows hheight with ⟨height, hle, hrhs⟩
  rcases best?_le (Tree.rhs_mem_of_follows hfollows) hrhs with ⟨best, hbestLe, hbest⟩
  have htree : best ≤ tree.height := Nat.le_trans hbestLe hle
  rcases improve_cases productions heights tree.root with ⟨hsame, hrecorded⟩ |
    ⟨other, hother, _, hinsert⟩
  · rcases hrecorded best hbest with ⟨recorded, hrecordedLe, hsome⟩
    exact ⟨recorded, Nat.le_trans hrecordedLe htree, by rw [hsame, hsome]⟩
  · rw [hbest] at hother
    cases hother
    exact ⟨best, htree, by simp [hinsert]⟩

/-- A sweep takes every tree into account that is one level higher. -/
theorem sweep_root (h : Reaches productions limit heights) {heads : List Char} {tree : Tree}
    (hfollows : tree.Follows productions) (hroot : tree.root ∈ heads)
    (hheight : tree.height ≤ limit + 1) :
    ∃ height ≤ tree.height, (sweep productions heads heights)[tree.root]? = some height := by
  induction heads generalizing heights with
  | nil => cases hroot
  | cons head later ih =>
      have hnext : Reaches productions limit (improve productions heights head) :=
        h.of_below (improve_below productions heights head)
      rcases List.mem_cons.1 hroot with rfl | hlater
      · -- The rest of the sweep can only lower what is recorded for the root.
        rcases h.improve_root hfollows hheight with ⟨height, hle, hsome⟩
        rcases sweep_below productions later _ hsome with ⟨lower, hlower, hswept⟩
        exact ⟨lower, Nat.le_trans hlower hle, hswept⟩
      · exact ih hnext hlater

theorem sweep {heads : List Char} (h : Reaches productions limit heights)
    (hheads : ∀ tree : Tree, tree.Follows productions → tree.root ∈ heads) :
    Reaches productions (limit + 1) (sweep productions heads heights) :=
  fun tree hfollows hheight => h.sweep_root hfollows (hheads tree hfollows) hheight

end Reaches

/-- As many sweeps as a tree has levels take it into account. -/
theorem reaches_iterate {heads : List Char}
    (hheads : ∀ tree : Tree, tree.Follows productions → tree.root ∈ heads) (count : ℕ) :
    Reaches productions count ((sweep productions heads)^[count] heights) := by
  -- Each sweep reaches trees that are one level higher.
  induction count with
  | zero => exact reaches_zero productions heights
  | succ count ih =>
      rw [Function.iterate_succ_apply']
      exact ih.sweep hheads

/-! ## All sweeps -/

/-- Sweeps after one that changed nothing would change nothing either. -/
theorem settle_eq_iterate (productions : Productions) (heads : List Char) (limit : ℕ)
    (heights : Heights) :
    settle productions heads limit heights = (sweep productions heads)^[limit] heights := by
  induction limit generalizing heights with
  | zero => rfl
  | succ limit ih =>
      rw [settle]
      -- Where a sweep changes nothing, any number of them is the same as none.
      by_cases hsame : sweep productions heads heights = heights
      · rw [if_pos hsame, Function.iterate_fixed hsame]
      · rw [if_neg hsame, ih, Function.iterate_succ_apply]

def Exact (productions : Productions) (heights : Heights) : Prop :=
  ∀ ⦃c : Char⦄ ⦃height : ℕ⦄,
    heights[c]? = some height ↔ IsLeast (productions.treeHeights c) height

/-- With least heights on record no tree is left out, however high it is. -/
theorem Exact.reaches (h : Exact productions heights) (limit : ℕ) :
    Reaches productions limit heights := by
  intro tree hfollows _
  rcases Productions.exists_isLeast_treeHeights (Productions.mem_treeHeights hfollows) with
    ⟨least, hle, hleast⟩
  exact ⟨least, hle, h.2 hleast⟩

/-- Heights that are those of trees, and leave out no tree up to the highest least one, are exact.
-/
theorem Sound.exact {limit : ℕ} (hsound : Sound productions heights)
    (hreaches : Reaches productions limit heights)
    (hlimit : ∀ c height, IsLeast (productions.treeHeights c) height → height ≤ limit) :
    Exact productions heights := by
  -- A lowest tree is reached, and nothing lower than it can have been recorded.
  have hrecorded : ∀ c height, IsLeast (productions.treeHeights c) height →
      heights[c]? = some height := by
    intro c height hleast
    rcases hleast.1 with ⟨tree, hfollows, rfl, hheight⟩
    rcases hreaches hfollows (hheight ▸ hlimit tree.root height hleast) with ⟨lower, hle, hsome⟩
    have hge : height ≤ lower := hleast.2 (hsound hsome)
    have hsame : lower = height := Nat.le_antisymm (hheight ▸ hle) hge
    rw [hsome, hsame]
  intro c height
  constructor
  · intro hsome
    rcases Productions.exists_isLeast_treeHeights (hsound hsome) with ⟨least, _, hleast⟩
    have hsame := hrecorded c least hleast
    rw [hsome] at hsame
    cases hsame
    exact hleast
  · exact hrecorded c height

end Heights

/-! ## Heights of a grammar -/

namespace Grammar.WellFormed

variable {grammar : Grammar}

theorem root_mem_of_follows (h : grammar.WellFormed) {tree : Tree}
    (hfollows : tree.Follows grammar.productions) : tree.root ∈ grammar.nonterminals :=
  h.alphabet.nonterminals.mem_order_iff.2 (h.head_mem (Tree.rhs_mem_of_follows hfollows))

/-- The limit on the number of sweeps is never felt. -/
theorem heights_exact (h : grammar.WellFormed) :
    Heights.Exact grammar.productions grammar.heights := by
  have hheads : ∀ tree : Tree, tree.Follows grammar.productions →
      tree.root ∈ grammar.nonterminals := fun tree => h.root_mem_of_follows
  rw [Grammar.heights, Heights.settle_eq_iterate]
  refine ((Heights.sound_empty _).iterate _ _).exact (Heights.reaches_iterate hheads _) ?_
  intro c height hleast
  exact Nat.le_succ_of_le (Productions.isLeast_le_length hheads hleast)

end Grammar.WellFormed

end ChomskyNormal
