import ChomskyNormal.Proofs.Rule.Scanning
import Mathlib.Data.List.TakeWhile

/-!
# Scanning turn by turn

A line can be scanned from left to right with only its next character in view. At each turn this
character decides what is taken off the line: three characters that have to be a define mark, a bar,
a whole run or a single blank. Every turn takes at least one character. So the turns come to an end,
with the tokens of the line or with the fault of a line that has none.

- `Token.turn` : one turn;
- `Token.Turns` : all turns of a line, with their number and what they come to;
- `Token.exists_turns` : the turns end, and find the tokens of the line;
- `Token.Turns.unique` : they end in one way only.
-/

namespace ChomskyNormal

namespace Token

/-- What is taken off a line that begins with `c`: the tokens found, and what is left of the line. A
colon takes the next two characters with it before any of the three is looked at. -/
def turn (c : Char) (rest : List Char) : Except RuleFault (List Token × List Char) :=
  if c = ':' then
    if (c :: rest).take 3 = [':', ':', '='] then .ok ([.define], (c :: rest).drop 3)
    else .error .malformedDefine
  else if c = '|' then .ok ([.bar], rest)
  else if !isBlank c then
    .ok ([.symbols ((c :: rest).takeWhile inRun)], (c :: rest).dropWhile inRun)
  else .ok ([], rest)

/-- Turns are taken until nothing is left of the line, or until one fails. The number is that of all
turns, the failed one included. -/
inductive Turns : List Char → List Token → ℕ → Except RuleFault (List Token) → Prop
  | done {found : List Token} : Turns [] found 0 (.ok found)
  | failed {c : Char} {rest : List Char} {found : List Token} {fault : RuleFault} :
      turn c rest = .error fault → Turns (c :: rest) found 1 (.error fault)
  | again {c : Char} {rest left : List Char} {found taken : List Token} {count : ℕ}
      {result : Except RuleFault (List Token)} :
      turn c rest = .ok (taken, left) → Turns left (found ++ taken) count result →
        Turns (c :: rest) found (count + 1) result

def outcome : Option (List Token) → Except RuleFault (List Token)
  | none => .error .malformedDefine
  | some tokens => .ok tokens

/-! ## One turn -/

/-- A run is taken as far as it goes. -/
theorem scan?_takeWhile {c : Char} (h : inRun c = true) (rest : List Char) :
    scan? (c :: rest) = (scan? ((c :: rest).dropWhile inRun)).map
      (.symbols ((c :: rest).takeWhile inRun) :: ·) := by
  have hsome : (c :: rest).takeWhile inRun ≠ [] := by
    rw [List.takeWhile_cons_of_pos h]
    exact List.cons_ne_nil _ _
  have hends : ((c :: rest).dropWhile inRun).head?.any inRun = false := by
    have hhead := List.head?_dropWhile_not inRun (c :: rest)
    cases hdrop : ((c :: rest).dropWhile inRun).head? with
    | none => rfl
    | some next =>
        rw [hdrop] at hhead
        exact hhead
  have hscan := scan?_run hsome (fun _ hmem => List.mem_takeWhile_imp hmem) hends
  rwa [List.takeWhile_append_dropWhile] at hscan

/-- A turn fails where the scan does. Otherwise the scan goes on with what the turn leaves, which is
less than there was. -/
theorem turn_cases (c : Char) (rest : List Char) :
    turn c rest = .error .malformedDefine ∧ scan? (c :: rest) = none ∨
      ∃ taken left, turn c rest = .ok (taken, left) ∧ left.length ≤ rest.length ∧
        scan? (c :: rest) = (scan? left).map (taken ++ ·) := by
  unfold turn
  by_cases hcolon : c = ':'
  · subst hcolon
    by_cases hdefine : ∃ later, rest = ':' :: '=' :: later
    · rcases hdefine with ⟨later, rfl⟩
      refine Or.inr ⟨[.define], later, rfl, ?_, scan?_define later⟩
      exact Nat.le_add_right later.length 2
    · -- Three characters are taken all the same, or fewer at the end of the line.
      have hnot : ∀ later, rest ≠ ':' :: '=' :: later := fun later heq => hdefine ⟨later, heq⟩
      have htake : (':' :: rest).take 3 ≠ [':', ':', '='] := by
        intro htake
        have hline := List.take_append_drop 3 (':' :: rest)
        rw [htake] at hline
        exact hnot _ (List.cons.inj hline).2.symm
      rw [if_pos rfl, if_neg htake]
      exact Or.inl ⟨rfl, scan?_colon_of_ne hnot⟩
  · rw [if_neg hcolon]
    by_cases hbar : c = '|'
    · subst hbar
      exact Or.inr ⟨[.bar], rest, rfl, Nat.le_refl _, scan?_bar rest⟩
    · rw [if_neg hbar]
      -- A blank is taken alone, and anything else begins a run.
      by_cases hblank : isBlank c = true
      · refine Or.inr ⟨[], rest, by simp [hblank], Nat.le_refl _, ?_⟩
        rw [scan?_cons_of_isBlank hblank]
        exact Option.map_id'.symm
      · have hrun : inRun c = true := by simp [inRun, hcolon, hbar, hblank]
        refine Or.inr ⟨[.symbols ((c :: rest).takeWhile inRun)], (c :: rest).dropWhile inRun,
          by simp [hblank], ?_, scan?_takeWhile hrun rest⟩
        rw [List.dropWhile_cons_of_pos hrun]
        exact (List.dropWhile_sublist inRun).length_le

/-! ## All turns -/

/-- There are no more turns than characters, and they find what the scan finds. -/
theorem exists_turns (line : List Char) (found : List Token) :
    ∃ count ≤ line.length,
      Turns line found count (outcome ((scan? line).map (found ++ ·))) := by
  -- A turn may take many characters, so the induction is on how many there are.
  induction hlength : line.length using Nat.strongRecOn generalizing line found with
  | ind length ih =>
      subst hlength
      cases line with
      | nil =>
          refine ⟨0, Nat.le_refl _, ?_⟩
          have hfound : (scan? []).map (found ++ ·) = some found :=
            congrArg some (List.append_nil found)
          rw [hfound]
          exact .done
      | cons c rest =>
          rcases turn_cases c rest with ⟨hturn, hscan⟩ | ⟨taken, left, hturn, hleft, hscan⟩
          · rw [hscan]
            exact ⟨1, Nat.le_add_left _ _, .failed hturn⟩
          · rcases ih left.length (Nat.lt_succ_of_le hleft) left (found ++ taken) rfl with
              ⟨count, hcount, hturns⟩
            refine ⟨count + 1, Nat.succ_le_succ (hcount.trans hleft), .again hturn ?_⟩
            have htokens :=
              calc
                (scan? (c :: rest)).map (found ++ ·)
                    = ((scan? left).map (taken ++ ·)).map (found ++ ·) := by rw [hscan]
                _ = (scan? left).map (found ++ taken ++ ·) := by
                      simp only [Option.map_map, Function.comp_def, List.append_assoc]
            rwa [htokens]

/-- Turns are taken in one way only. -/
theorem Turns.unique {line : List Char} {found : List Token} {count other : ℕ}
    {result otherResult : Except RuleFault (List Token)} (h : Turns line found count result)
    (hother : Turns line found other otherResult) : count = other ∧ result = otherResult := by
  -- The line decides what a turn takes, so two sequences of turns cannot part.
  induction h generalizing other otherResult with
  | done =>
      cases hother
      exact ⟨rfl, rfl⟩
  | failed hturn =>
      cases hother with
      | failed hsame =>
          cases hturn.symm.trans hsame
          exact ⟨rfl, rfl⟩
      | again hsame _ => cases hturn.symm.trans hsame
  | again hturn _ ih =>
      cases hother with
      | failed hsame => cases hturn.symm.trans hsame
      | again hsame hlater =>
          cases hturn.symm.trans hsame
          rcases ih hlater with ⟨rfl, rfl⟩
          exact ⟨rfl, rfl⟩

end Token

end ChomskyNormal
