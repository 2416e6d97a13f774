import ChomskyNormal.Proofs.Recognition.BuildOrder
import ChomskyNormal.Proofs.Sampling.Heights

/-!
# How many sweeps there are

Sweeping goes on as long as a sweep records a height. That a sweep works on the map that it changes
may make it record heights that a later one lowers again, but it never raises one, so a sweep that
records something leaves another map. With as many sweeps as nonterminals the map is exact, and an
exact map is not changed any more.

- `Heights.changes` : whether a sweep records a height;
- `Heights.Loop` : sweeping without a limit, with the number of sweeps;
- `Heights.exists_loop_settle` : the limit on the number of sweeps is high enough;
- `Grammar.Reachable.heights_least` : when sweeping ends, and what it has found by then.
-/

namespace ChomskyNormal

namespace Heights

/-! ## Sweeping without a limit -/

def beats (productions : Productions) (heights : Heights) (head : Char) : Bool :=
  (best? productions heights head).any fun best => heights[head]?.all (best < ·)

def changes (productions : Productions) : List Char → Heights → Bool
  | [], _ => false
  | head :: later, heights =>
      beats productions heights head || changes productions later (improve productions heights head)

/-- Sweeps from a map on until one records nothing. The number is that of all sweeps, the last one
included. -/
inductive Loop (productions : Productions) (heads : List Char) : Heights → ℕ → Heights → Prop
  | last {heights : Heights} :
      changes productions heads heights = false →
        Loop productions heads heights 1 (sweep productions heads heights)
  | again {heights final : Heights} {count : ℕ} :
      changes productions heads heights = true →
        Loop productions heads (sweep productions heads heights) count final →
          Loop productions heads heights (count + 1) final

variable {productions : Productions} {heads : List Char} {heights : Heights}

theorem improve_of_not_beats {head : Char} (h : beats productions heights head = false) :
    improve productions heights head = heights := by
  unfold improve
  cases hbest : best? productions heights head with
  | none => rfl
  | some best =>
      rw [beats, hbest, Option.any_some] at h
      simp [h]

theorem improve_of_beats {head : Char} (h : beats productions heights head = true) :
    ∃ best, (∀ height, heights[head]? = some height → best < height) ∧
      improve productions heights head = heights.insert head best := by
  rcases (Option.any_eq_true _ _).1 h with ⟨best, hbest, hlower⟩
  refine ⟨best, fun height hheight => ?_, ?_⟩
  · simpa [hheight] using hlower
  · simp only [improve, hbest, if_pos hlower]

/-- A sweep that records a height leaves another map. -/
theorem changes_eq_false_iff :
    changes productions heads heights = false ↔ sweep productions heads heights = heights := by
  induction heads generalizing heights with
  | nil => exact iff_of_true rfl rfl
  | cons head later ih =>
      have hsweep : sweep productions (head :: later) heights =
          sweep productions later (improve productions heights head) := rfl
      rw [changes, hsweep]
      cases hbeats : beats productions heights head with
      | false =>
          rw [improve_of_not_beats hbeats, Bool.false_or]
          exact ih
      | true =>
          rw [Bool.true_or]
          refine iff_of_false Bool.noConfusion fun hsame => ?_
          rcases improve_of_beats hbeats with ⟨best, hlower, hinsert⟩
          have hbest : (improve productions heights head)[head]? = some best := by
            rw [hinsert]
            simp
          -- What comes later can only lower the new height, which is below the old one already.
          rcases sweep_below productions later _ hbest with ⟨lower, hle, hswept⟩
          rw [hsame] at hswept
          exact absurd (hlower lower hswept) (Nat.not_lt_of_le hle)

theorem changes_eq_true_iff :
    changes productions heads heights = true ↔ sweep productions heads heights ≠ heights := by
  rw [← Bool.not_eq_false, changes_eq_false_iff]

/-- Sweeping ends in one way only. -/
theorem Loop.unique {count other : ℕ} {final otherFinal : Heights}
    (h : Loop productions heads heights count final)
    (hother : Loop productions heads heights other otherFinal) :
    count = other ∧ final = otherFinal := by
  -- Whether a sweep is the last one depends on the map that it starts from.
  induction h generalizing other otherFinal with
  | last hquiet =>
      cases hother with
      | last _ => exact ⟨rfl, rfl⟩
      | again hchanges _ =>
          rw [hquiet] at hchanges
          cases hchanges
  | again hchanges _ ih =>
      cases hother with
      | last hquiet =>
          rw [hquiet] at hchanges
          cases hchanges
      | again _ hrest =>
          rcases ih hrest with ⟨rfl, rfl⟩
          exact ⟨rfl, rfl⟩

theorem Loop.of_fixed (hsame : sweep productions heads heights = heights) :
    Loop productions heads heights 1 heights := by
  have hlast := Loop.last (changes_eq_false_iff.2 hsame)
  rwa [hsame] at hlast

/-- Once some sweeps lead to a map that the next one leaves alone, sweeping ends, and the limit
makes no difference if it allows for one more. -/
theorem exists_loop_settle {limit : ℕ}
    (hfixed : (sweep productions heads)^[limit + 1] heights =
      (sweep productions heads)^[limit] heights) :
    ∃ count ≤ limit + 1,
      Loop productions heads heights count (settle productions heads (limit + 1) heights) := by
  induction limit generalizing heights with
  | zero =>
      have hsame : sweep productions heads heights = heights := hfixed
      rw [settle, if_pos hsame]
      exact ⟨1, Nat.le_refl 1, .of_fixed hsame⟩
  | succ limit ih =>
      rw [settle]
      by_cases hsame : sweep productions heads heights = heights
      · rw [if_pos hsame]
        exact ⟨1, Nat.le_add_left 1 _, .of_fixed hsame⟩
      · -- The other sweeps start from the map that the first one leaves.
        rw [Function.iterate_succ_apply, Function.iterate_succ_apply _ limit] at hfixed
        rcases ih hfixed with ⟨count, hcount, hloop⟩
        rw [if_neg hsame]
        exact ⟨count + 1, Nat.succ_le_succ hcount, .again (changes_eq_true_iff.2 hsame) hloop⟩

/-! ## Exact maps -/

/-- There is only one exact map. -/
theorem Exact.unique {others : Heights} (h : Exact productions heights)
    (hothers : Exact productions others) : heights = others := by
  refine Std.ExtTreeMap.ext_getElem? fun c => Option.ext fun height => ?_
  rw [h, hothers]

/-- With as many sweeps as there can be roots, all trees have been taken into account. -/
theorem exact_iterate (hheads : ∀ tree : Tree, tree.Follows productions → tree.root ∈ heads)
    {count : ℕ} (hcount : heads.length ≤ count) :
    Exact productions ((sweep productions heads)^[count] ∅) := by
  refine ((sound_empty productions).iterate heads count).exact (reaches_iterate hheads count) ?_
  intro c height hleast
  exact (Productions.isLeast_le_length hheads hleast).trans hcount

end Heights

/-! ## Sweeps of a grammar -/

namespace Grammar

variable {grammar other : Grammar}

namespace WellFormed

/-- Sweeping a well-formed grammar ends with its heights. -/
theorem exists_loop (h : grammar.WellFormed) :
    ∃ sweeps ≤ grammar.nonterminals.length + 1,
      Heights.Loop grammar.productions grammar.nonterminals ∅ sweeps grammar.heights := by
  have hheads : ∀ tree : Tree, tree.Follows grammar.productions →
      tree.root ∈ grammar.nonterminals := fun tree => h.root_mem_of_follows
  have hexact := Heights.exact_iterate hheads (Nat.le_refl _)
  have hexact' := Heights.exact_iterate hheads (Nat.le_succ _)
  exact Heights.exists_loop_settle (hexact'.unique hexact)

/-- A symbol has a height when it is the root of a tree. -/
theorem mem_heights_iff (h : grammar.WellFormed) {c : Char} :
    c ∈ grammar.heights ↔ ∃ tree : Tree, tree.Follows grammar.productions ∧ tree.root = c := by
  rw [← Std.ExtTreeMap.isSome_getElem?_iff_mem, Option.isSome_iff_exists]
  constructor
  · rintro ⟨height, hheight⟩
    rcases (h.heights_exact.1 hheight).1 with ⟨tree, hfollows, hroot, _⟩
    exact ⟨tree, hfollows, hroot⟩
  · rintro ⟨tree, hfollows, rfl⟩
    rcases Productions.exists_isLeast_treeHeights (Productions.mem_treeHeights hfollows) with
      ⟨least, _, hleast⟩
    exact ⟨least, h.heights_exact.2 hleast⟩

/-- Heights are those of trees, and trees do not depend on any order. -/
theorem heights_eq (h : grammar.WellFormed) (hother : other.WellFormed)
    (hsame : ∀ head rhs, rhs ∈ grammar.alternatives head ↔ rhs ∈ other.alternatives head) :
    grammar.heights = other.heights := by
  have hexact : Heights.Exact grammar.productions other.heights := by
    intro c height
    rw [hother.heights_exact, Productions.treeHeights_congr hsame c]
  exact h.heights_exact.unique hexact

end WellFormed

/-- For every grammar that a session arrives at: sweeping ends, with at most one sweep more than
there are nonterminals. Then the nonterminals that are the root of some tree are on record, each
with the least height of its trees, which lies between one and the number of nonterminals. Neither
the order of registration nor that of insertion makes a difference. -/
theorem Reachable.heights_least (h : grammar.Reachable) :
    (∃ sweeps ≤ grammar.nonterminals.length + 1, ∀ count final,
      Heights.Loop grammar.productions grammar.nonterminals ∅ count final ↔
        count = sweeps ∧ final = grammar.heights) ∧
    (∀ c, c ∈ grammar.heights ↔
      ∃ tree : Tree, tree.Follows grammar.productions ∧ tree.root = c) ∧
    (∀ c height, grammar.heights[c]? = some height →
      IsLeast (grammar.productions.treeHeights c) height ∧
        1 ≤ height ∧ height ≤ grammar.nonterminals.length) ∧
    ∀ other : Grammar, other.Reachable →
      (∀ head rhs, rhs ∈ grammar.alternatives head ↔ rhs ∈ other.alternatives head) →
        grammar.heights = other.heights := by
  have hwell : grammar.WellFormed := h.wellFormed
  refine ⟨?_, fun c => hwell.mem_heights_iff, ?_, ?_⟩
  · rcases hwell.exists_loop with ⟨sweeps, hle, hloop⟩
    refine ⟨sweeps, hle, fun count final => ⟨fun hother => hother.unique hloop, ?_⟩⟩
    rintro ⟨rfl, rfl⟩
    exact hloop
  · intro c height hheight
    have hleast := hwell.heights_exact.1 hheight
    exact ⟨hleast, Productions.pos_of_mem_treeHeights hleast.1,
      Productions.isLeast_le_length (fun _ => hwell.root_mem_of_follows) hleast⟩
  · exact fun other hother => hwell.heights_eq hother.wellFormed

/-- The first sweep finds a height of three for `S`, the second one of two, and the third none. -/
def descending : List Session.Step :=
  [.edit (.load "R ::= r\nP ::= RR\nS ::= PP | AA | ST\nA ::= r\nT ::= ST" none)]

def ascending : List Session.Step :=
  [.edit (.load "T ::= ST\nA ::= r\nS ::= ST | AA | PP\nP ::= RR\nR ::= r" (some 'R'))]

/-- A height that is lowered in the second sweep, and a symbol without any. -/
theorem descending_heights :
    (Session.new.run descending).current.Reachable ∧
      (Session.new.run ascending).current.Reachable ∧
      (∃ sweeps ≤ 6, Heights.Loop (Session.new.run descending).current.productions
        (Session.new.run descending).current.nonterminals ∅ sweeps
        (Session.new.run descending).current.heights) ∧
      IsLeast ((Session.new.run descending).current.productions.treeHeights 'S') 2 ∧
      (∀ tree : Tree, tree.Follows (Session.new.run descending).current.productions →
        tree.root ≠ 'T') ∧
      (Session.new.run descending).current.heights =
        (Session.new.run ascending).current.heights := by
  have hreach : (Session.new.run descending).current.Reachable := ⟨descending, rfl⟩
  have hreach' : (Session.new.run ascending).current.Reachable := ⟨ascending, rfl⟩
  -- The map is evaluated, and what it tells of trees follows from the general theorem.
  have hfound : (Session.new.run descending).current.nonterminals = ['R', 'P', 'S', 'A', 'T'] ∧
      (Session.new.run descending).current.heights['S']? = some 2 ∧
      'T' ∉ (Session.new.run descending).current.heights := by
    decide +kernel
  have hlists : (Session.new.run descending).current.nonterminals.Perm
        (Session.new.run ascending).current.nonterminals ∧
      (Session.new.run descending).current.terminals.Perm
        (Session.new.run ascending).current.terminals ∧
      (Session.new.run descending).current.start? = (Session.new.run ascending).current.start? := by
    decide +kernel
  rcases hfound with ⟨hheads, hrecorded, hmissing⟩
  have halternatives : ∀ head ∈ (Session.new.run descending).current.nonterminals,
      ((Session.new.run descending).current.alternatives head).Perm
        ((Session.new.run ascending).current.alternatives head) := by
    rw [hheads]
    simp only [List.forall_mem_cons, List.not_mem_nil, false_implies, implies_true, and_true]
    decide +kernel
  have hsame : (Session.new.run descending).current.SameContent
      (Session.new.run ascending).current :=
    hreach.wellFormed.sameContent_of_perm hreach'.wellFormed hlists.1 hlists.2.1 hlists.2.2
      halternatives
  rcases Reachable.heights_least hreach with ⟨⟨sweeps, hle, hloop⟩, hmem, hvalues, horder⟩
  rw [hheads] at hle
  refine ⟨hreach, hreach', ⟨sweeps, hle, (hloop sweeps _).2 ⟨rfl, rfl⟩⟩,
    (hvalues 'S' 2 hrecorded).1, fun tree hfollows hroot => ?_, horder _ hreach' hsame.alternatives⟩
  exact hmissing ((hmem 'T').2 ⟨tree, hfollows, hroot⟩)

end Grammar

end ChomskyNormal
