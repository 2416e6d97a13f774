import ChomskyNormal.Proofs.Rule.Scanning

/-!
# Lines that have tokens

A line has tokens exactly when its colons come in pairs that stand right before an equals sign. One
colon more or less in any run of colons, or another character after it, leaves the line without any.

- `ColonRun` : colons between characters that are none;
- `PairedColons` : the lines whose colons are all in define marks;
- `Token.isSome_scan?_iff` : these are the lines that have tokens;
- `Rule.ofLine_eq_malformedDefine_iff` : on all others a malformed define mark is reported.
-/

namespace ChomskyNormal

/-- As many colons as stand together between `front` and `back`. -/
structure ColonRun (line front : List Char) (count : ℕ) (back : List Char) : Prop where
  line_eq : line = front ++ List.replicate count ':' ++ back
  count_pos : 0 < count
  not_before : front.getLast? ≠ some ':'
  not_after : back.head? ≠ some ':'

/-- Every run of colons is a pair with an equals sign right after it. -/
def PairedColons (line : List Char) : Prop :=
  ∀ front count back, ColonRun line front count back → count = 2 ∧ back.head? = some '='

/-! ## Runs of colons -/

namespace ColonRun

variable {line rest front back : List Char} {count : ℕ}

theorem append_left (h : ColonRun rest front count back) {first : List Char}
    (hfirst : first.getLast? ≠ some ':') :
    ColonRun (first ++ rest) (first ++ front) count back where
  line_eq := by rw [h.line_eq, List.append_assoc, List.append_assoc, List.append_assoc]
  count_pos := h.count_pos
  not_before := by
    have hfront := h.not_before
    rw [List.getLast?_append]
    cases hlast : front.getLast? with
    | none => exact hfirst
    | some c => rwa [hlast] at hfront
  not_after := h.not_after

/-- A line that begins with a colon begins with a run of them. -/
theorem exists_of_cons (rest : List Char) : ∃ count back, ColonRun (':' :: rest) [] count back := by
  induction rest with
  | nil => exact ⟨1, [], rfl, Nat.one_pos, by decide, by decide⟩
  | cons c rest ih =>
      by_cases hc : c = ':'
      · subst hc
        rcases ih with ⟨count, back, hrun⟩
        refine ⟨count + 1, back, ?_, Nat.succ_pos _, by decide, hrun.not_after⟩
        rw [hrun.line_eq]
        rfl
      · exact ⟨1, c :: rest, rfl, Nat.one_pos, by decide, mt Option.some.inj hc⟩

/-- What begins with another character has its runs after that character. -/
theorem of_cons {c : Char} (h : ColonRun (c :: rest) front count back) (hc : c ≠ ':') :
    ∃ later, front = c :: later ∧ ColonRun rest later count back := by
  have hline := h.line_eq
  cases front with
  | nil =>
      cases count with
      | zero => exact absurd h.count_pos (Nat.lt_irrefl 0)
      | succ more => exact absurd (List.cons.inj hline).1 hc
  | cons first later =>
      rcases List.cons.inj hline with ⟨rfl, hrest⟩
      refine ⟨later, rfl, hrest, h.count_pos, ?_, h.not_after⟩
      cases later with
      | nil => decide
      | cons next later => exact h.not_before

/-- The runs of a line with a define mark in front are that of the mark, and those after it. -/
theorem of_define (h : ColonRun (':' :: ':' :: '=' :: rest) front count back) :
    count = 2 ∧ back = '=' :: rest ∨ ∃ later, ColonRun rest later count back := by
  rcases h with ⟨hline, hpos, hbefore, hafter⟩
  -- A run begins the line, or else it begins after the mark: no colon may stand before it.
  rcases front with _ | ⟨first, _ | ⟨second, _ | ⟨third, front⟩⟩⟩
  · rcases count with _ | _ | _ | more
    · exact absurd hpos (Nat.lt_irrefl 0)
    · have hback : ':' :: '=' :: rest = back := (List.cons.inj hline).2
      rw [← hback] at hafter
      exact absurd rfl hafter
    · exact Or.inl ⟨rfl, (List.cons.inj (List.cons.inj hline).2).2.symm⟩
    · have hthird : '=' = ':' := (List.cons.inj (List.cons.inj (List.cons.inj hline).2).2).1
      exact absurd hthird (by decide)
  · rw [← (List.cons.inj hline).1] at hbefore
    exact absurd rfl hbefore
  · rw [← (List.cons.inj (List.cons.inj hline).2).1] at hbefore
    exact absurd rfl hbefore
  · have hrest : ColonRun ('=' :: rest) (third :: front) count back :=
      ⟨(List.cons.inj (List.cons.inj hline).2).2, hpos, hbefore, hafter⟩
    rcases hrest.of_cons (by decide) with ⟨later, _, hlater⟩
    exact Or.inr ⟨later, hlater⟩

end ColonRun

namespace PairedColons

variable {rest : List Char}

theorem nil : PairedColons [] := by
  rintro front count back ⟨hline, hpos, _, _⟩
  have hlength := congrArg List.length hline
  simp only [List.length_nil, List.length_append, List.length_replicate] at hlength
  omega

theorem cons_iff {c : Char} (hc : c ≠ ':') : PairedColons (c :: rest) ↔ PairedColons rest := by
  have hlast : [c].getLast? ≠ some ':' := by simpa using hc
  constructor
  · intro h front count back hrun
    exact h _ count back (hrun.append_left hlast)
  · intro h front count back hrun
    rcases hrun.of_cons hc with ⟨later, _, hlater⟩
    exact h later count back hlater

theorem define_iff : PairedColons (':' :: ':' :: '=' :: rest) ↔ PairedColons rest := by
  constructor
  · intro h front count back hrun
    have hlast : [':', ':', '='].getLast? ≠ some ':' := by decide
    exact h _ count back (hrun.append_left hlast)
  · intro h front count back hrun
    rcases hrun.of_define with ⟨rfl, rfl⟩ | ⟨later, hlater⟩
    · exact ⟨rfl, rfl⟩
    · exact h later count back hlater

/-- The first run of a line that begins with a colon is that of a define mark. -/
theorem exists_define (h : PairedColons (':' :: rest)) : ∃ later, rest = ':' :: '=' :: later := by
  rcases ColonRun.exists_of_cons rest with ⟨count, back, hrun⟩
  rcases h [] count back hrun with ⟨rfl, hequals⟩
  rcases List.head?_eq_some_iff.1 hequals with ⟨later, rfl⟩
  exact ⟨later, (List.cons.inj hrun.line_eq).2⟩

end PairedColons

/-! ## Scanned lines -/

/-- A line has tokens exactly when its colons are paired. -/
theorem Token.isSome_scan?_iff {line : List Char} :
    (Token.scan? line).isSome = true ↔ PairedColons line := by
  fun_induction Token.scan? line with
  | case1 => exact iff_of_true rfl .nil
  | case2 rest ih => rw [Option.isSome_map, ih, PairedColons.define_iff]
  | case3 rest hnot =>
      refine iff_of_false Bool.false_ne_true fun hpaired => ?_
      rcases hpaired.exists_define with ⟨later, hlater⟩
      exact hnot later rfl hlater
  | case4 rest _ _ ih => rw [Option.isSome_map, ih, PairedColons.cons_iff (by decide)]
  | case5 c rest _ hcolon _ _ ih => rw [ih, PairedColons.cons_iff hcolon]
  | case6 c rest _ hcolon _ _ ih => rw [Option.isSome_map, ih, PairedColons.cons_iff hcolon]

theorem Token.scan?_eq_none_iff {line : List Char} :
    Token.scan? line = none ↔ ¬ PairedColons line := by
  rw [← Token.isSome_scan?_iff, Option.not_isSome_iff_eq_none]

/-- No other fault of a line is taken for a malformed define mark. -/
theorem Rule.ofLine_eq_malformedDefine_iff {line : List Char} :
    Rule.ofLine line = .error .malformedDefine ↔ ¬ PairedColons line := by
  rw [← Token.scan?_eq_none_iff, Rule.ofLine]
  cases Token.scan? line with
  | none => exact iff_of_true rfl rfl
  | some tokens =>
      refine iff_of_false (fun h => ?_) (Option.some_ne_none tokens)
      exact (Rule.fault_of_ofTokens h).1 rfl

end ChomskyNormal
