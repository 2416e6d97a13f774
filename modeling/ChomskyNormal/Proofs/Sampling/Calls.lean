import ChomskyNormal.Proofs.Sampling.Growth
import ChomskyNormal.Proofs.Sampling.Heights
import Mathlib.Logic.Relation

/-!
# The calls of a growth

Growing a tree calls itself for both halves of a pair. With exact heights no call runs into a dead
end, whatever was chosen before it: the depth that is left suffices for the symbol, so there is a
candidate, and a pair is only a candidate where another level is left.

- `Call.Makes`, `Call.Visits` : the calls that a call makes, directly or through others;
- `Call.Fits` : the invariant of all calls;
- `Call.Stalls` : no number that the source offers settles the choice of a call;
- `Call.outcome_eq` : all that a call can do;
- `Call.grow_outcome`, `Call.outcome_eq_stalled_iff` : how a growth ends.
-/

namespace ChomskyNormal

/-- The first production of a tree fits every depth that the tree fits. -/
theorem rhs_mem_fitting {productions : Productions} {heights : Heights}
    (hexact : Heights.Exact productions heights) {tree : Tree} {depth : ℕ}
    (hfollows : tree.Follows productions) (hdepth : tree.height ≤ depth) :
    tree.rhs ∈ fitting productions heights depth tree.root := by
  rcases (hexact.reaches tree.height).ofRhs?_le hfollows (Nat.le_succ _) with ⟨height, hle, hrhs⟩
  have hfits : height ≤ depth := Nat.le_trans hle hdepth
  refine List.mem_filter.2 ⟨Tree.rhs_mem_of_follows hfollows, ?_⟩
  simpa [hrhs] using hfits

/-! ## Calls -/

/-- A symbol to be replaced, the depth that is left for it, and the next number's position. -/
structure Call where
  symbol : Char
  depth : ℕ
  position : ℕ
  deriving DecidableEq, Repr

namespace Call

section

variable (productions : Productions) (heights : Heights) (source : Source)

def candidates (call : Call) : List Rhs :=
  fitting productions heights call.depth call.symbol

def outcome (call : Call) : EStateM.Result SampleError ℕ Tree :=
  grow productions heights source call.depth call.symbol call.position

/-- A call that has chosen a pair calls for its left half, and then for its right half from where
the left tree ended. -/
inductive Makes (call : Call) : Call → Prop
  | left {left right : Char} {middle : ℕ} :
      source.choose (call.candidates productions heights) call.position =
          some (.binary left right, middle) →
        Makes call ⟨left, call.depth - 1, middle⟩
  | right {left right : Char} {middle later : ℕ} {tree : Tree} :
      source.choose (call.candidates productions heights) call.position =
          some (.binary left right, middle) →
        outcome productions heights source ⟨left, call.depth - 1, middle⟩ = .ok tree later →
          Makes call ⟨right, call.depth - 1, later⟩

def Visits : Call → Call → Prop :=
  Relation.ReflTransGen (Makes productions heights source)

/-- None of the numbers that the source offers for one choice suits the choice of the call. -/
def Stalls (call : Call) : Prop :=
  ∀ taken < source.patience, Source.suits (call.candidates productions heights).length
    (source.number (call.position + taken)) = false

def Fits (call : Call) : Prop :=
  ∃ needed ≤ call.depth, heights[call.symbol]? = some needed

end

/-! ## No dead ends -/

variable {productions : Productions} {heights : Heights} {source : Source} {call inner : Call}

namespace Fits

/-- A call that fits has a production to choose. -/
theorem candidates_ne_nil (hexact : Heights.Exact productions heights) (h : call.Fits heights) :
    call.candidates productions heights ≠ [] := by
  rcases h with ⟨needed, hdepth, hneeded⟩
  rcases (hexact.1 hneeded).1 with ⟨tree, hfollows, hroot, hheight⟩
  -- A lowest tree of the symbol begins with a candidate.
  rw [candidates, ← hroot]
  exact List.ne_nil_of_mem (rhs_mem_fitting hexact hfollows (hheight.trans_le hdepth))

/-- Both halves of a candidate fit one level below, and that level is there. -/
theorem of_binary_mem (hexact : Heights.Exact productions heights) {left right : Char}
    (hmem : .binary left right ∈ call.candidates productions heights) :
    2 ≤ call.depth ∧ (∀ position, Fits heights ⟨left, call.depth - 1, position⟩) ∧
      ∀ position, Fits heights ⟨right, call.depth - 1, position⟩ := by
  rcases List.mem_filter.1 hmem with ⟨_, hheight⟩
  rcases (Option.any_eq_true _ _).1 hheight with ⟨height, hrhs, hdepth⟩
  rcases Heights.ofRhs?_binary_eq_some_iff.1 hrhs with
    ⟨leftHeight, rightHeight, hleft, hright, rfl⟩
  have hle : 1 + max leftHeight rightHeight ≤ call.depth := of_decide_eq_true hdepth
  -- Each half has at least one level of its own.
  have hpos : 0 < leftHeight := Productions.pos_of_mem_treeHeights (hexact.1 hleft).1
  refine ⟨by omega, ?_, ?_⟩
  · intro position
    exact ⟨leftHeight, by change leftHeight ≤ call.depth - 1; omega, hleft⟩
  · intro position
    exact ⟨rightHeight, by change rightHeight ≤ call.depth - 1; omega, hright⟩

/-- The invariant passes from a call to those that it makes. -/
theorem makes (hexact : Heights.Exact productions heights)
    (hmakes : Makes productions heights source call inner) : inner.Fits heights := by
  cases hmakes with
  | left hchoose => exact (of_binary_mem hexact (Source.mem_of_choose hchoose)).2.1 _
  | right hchoose _ => exact (of_binary_mem hexact (Source.mem_of_choose hchoose)).2.2 _

theorem visits (hexact : Heights.Exact productions heights) (h : call.Fits heights)
    (hvisits : Visits productions heights source call inner) : inner.Fits heights := by
  induction hvisits with
  | refl => exact h
  | tail _ hmakes _ => exact makes hexact hmakes

end Fits

/-! ## One call -/

theorem Fits.depth_pos (hexact : Heights.Exact productions heights) (h : call.Fits heights) :
    0 < call.depth := by
  rcases h with ⟨needed, hdepth, hneeded⟩
  have hpos : 0 < needed := Productions.pos_of_mem_treeHeights (hexact.1 hneeded).1
  exact Nat.lt_of_lt_of_le hpos hdepth

/-- A call chooses first, and what it chooses decides how it goes on. -/
theorem outcome_eq (hpos : 0 < call.depth) :
    call.outcome productions heights source =
      match chooseRhs source call.symbol (call.candidates productions heights) call.position with
      | .error error stop => .error error stop
      | .ok (.terminal letter) next => .ok (.leaf call.symbol letter) next
      | .ok (.binary left right) middle =>
          match outcome productions heights source ⟨left, call.depth - 1, middle⟩ with
          | .error error stop => .error error stop
          | .ok leftTree later =>
              match outcome productions heights source ⟨right, call.depth - 1, later⟩ with
              | .error error stop => .error error stop
              | .ok rightTree next => .ok (.node call.symbol leftTree rightTree) next := by
  rcases call with ⟨symbol, depth, position⟩
  -- Only growths with some depth left are asked to choose.
  cases depth with
  | zero => exact absurd hpos (Nat.lt_irrefl 0)
  | succ depth =>
      simp only [outcome, candidates, grow, sampler_bind_apply, Nat.add_sub_cancel]
      cases chooseRhs source symbol (fitting productions heights (depth + 1) symbol) position with
      | error error stop => rfl
      | ok rhs middle =>
          cases rhs with
          | terminal letter => rfl
          | binary left right =>
              simp only [sampler_bind_apply]
              cases grow productions heights source depth left middle with
              | error error stop => rfl
              | ok leftTree later =>
                  simp only
                  cases grow productions heights source depth right later with
                  | error error stop => rfl
                  | ok rightTree next => rfl

variable (hexact : Heights.Exact productions heights) (h : call.Fits heights)
include hexact h

theorem stalls_iff_choose_eq_none :
    call.Stalls productions heights source ↔
      source.choose (call.candidates productions heights) call.position = none :=
  (Source.choose_eq_none_iff (h.candidates_ne_nil hexact)).symm

theorem outcome_of_stalls (hstalls : call.Stalls productions heights source) :
    call.outcome productions heights source = .error .stalled call.position := by
  have hnone := (stalls_iff_choose_eq_none hexact h).1 hstalls
  rw [outcome_eq (h.depth_pos hexact), chooseRhs, if_neg (h.candidates_ne_nil hexact), hnone]

/-! ## All calls -/

/-- A growth that fits ends with a tree, or stalls at one of its calls. -/
theorem grow_outcome :
    (∃ tree next, call.outcome productions heights source = .ok tree next) ∨
      ∃ inner, Visits productions heights source call inner ∧
        inner.Stalls productions heights source ∧
          call.outcome productions heights source = .error .stalled inner.position := by
  -- The halves of a pair have less depth left.
  induction hdepth : call.depth generalizing call with
  | zero => exact absurd (h.depth_pos hexact) (by omega)
  | succ depth ih =>
      by_cases hstalls : call.Stalls productions heights source
      · exact Or.inr ⟨call, .refl, hstalls, outcome_of_stalls hexact h hstalls⟩
      · rw [stalls_iff_choose_eq_none hexact h, ← ne_eq, Option.ne_none_iff_exists'] at hstalls
        rcases hstalls with ⟨⟨rhs, middle⟩, hchoose⟩
        have hrhs : chooseRhs source call.symbol (call.candidates productions heights)
            call.position = .ok rhs middle := chooseRhs_eq_ok_iff.2 hchoose
        rw [outcome_eq (h.depth_pos hexact), hrhs]
        cases rhs with
        | terminal letter => exact Or.inl ⟨_, _, rfl⟩
        | binary left right =>
            have hmakes : Makes productions heights source call ⟨left, call.depth - 1, middle⟩ :=
              .left hchoose
            have hleft := Fits.makes hexact hmakes
            -- The right half is only called for where the left one has come to its end.
            rcases ih hleft (by simp [hdepth]) with ⟨leftTree, later, hok⟩ |
              ⟨inner, hvisits, hinner, herror⟩
            · have hmakes' := Makes.right hchoose hok
              have hright := Fits.makes hexact hmakes'
              rcases ih hright (by simp [hdepth]) with ⟨rightTree, next, hok'⟩ |
                ⟨inner, hvisits, hinner, herror⟩
              · simp only [hok, hok']
                exact Or.inl ⟨_, _, rfl⟩
              · refine Or.inr ⟨inner, .head hmakes' hvisits, hinner, ?_⟩
                simp only [hok, herror]
            · refine Or.inr ⟨inner, .head hmakes hvisits, hinner, ?_⟩
              simp only [herror]

/-- A call that stalls stops the whole growth. -/
theorem outcome_of_visits (hvisits : Visits productions heights source call inner)
    (hstalls : inner.Stalls productions heights source) :
    call.outcome productions heights source = .error .stalled inner.position := by
  -- The error of a later call passes through the call that has made it.
  induction hvisits using Relation.ReflTransGen.head_induction_on with
  | refl => exact outcome_of_stalls hexact h hstalls
  | head hmakes hvisits ih =>
      have hinner := ih (Fits.makes hexact hmakes)
      rw [outcome_eq (h.depth_pos hexact)]
      cases hmakes with
      | left hchoose => simp only [chooseRhs_eq_ok_iff.2 hchoose, hinner]
      | right hchoose hok => simp only [chooseRhs_eq_ok_iff.2 hchoose, hok, hinner]

/-- A growth stalls exactly when one of its calls does, and at its position. -/
theorem outcome_eq_stalled_iff {stop : ℕ} :
    call.outcome productions heights source = .error .stalled stop ↔
      ∃ inner, Visits productions heights source call inner ∧
        inner.Stalls productions heights source ∧ inner.position = stop := by
  constructor
  · intro herror
    rcases grow_outcome hexact h with ⟨tree, next, hok⟩ | ⟨inner, hvisits, hstalls, hstop⟩
    · rw [herror] at hok
      cases hok
    · rw [herror] at hstop
      cases hstop
      exact ⟨inner, hvisits, hstalls, rfl⟩
  · rintro ⟨inner, hvisits, hstalls, rfl⟩
    exact outcome_of_visits hexact h hvisits hstalls

end Call

end ChomskyNormal
