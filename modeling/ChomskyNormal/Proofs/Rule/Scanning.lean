import ChomskyNormal.Proofs.Rule.Writing

/-!
# Tokens and their line

The tokens of a line are its characters without the blanks. What stands before a blank or a bar is
scanned apart from what follows, so the tokens between two bars are those of the characters
between them, and the first token tells how the line begins.

- `AllBlank` : lines that mean nothing;
- `Token.scan?_append` : scanning a line in two parts;
- `Token.flatMap_text_of_scan?` : nothing but blanks is lost;
- `Token.EndsBefore` : what may stand after a token;
- `Token.scan?_cases`, `Token.scan?_eq_cons` : how a line begins;
- `Token.scan?_pieces` : tokens and characters between bars.
-/

namespace ChomskyNormal

def AllBlank (line : List Char) : Prop :=
  ∀ c ∈ line, isBlank c = true

instance (line : List Char) : Decidable (AllBlank line) :=
  List.decidableBAll _ line

theorem allBlank_nil : AllBlank [] :=
  List.forall_mem_nil _

theorem not_inRun_of_isBlank {c : Char} (h : isBlank c = true) : Token.inRun c = false := by
  simp [Token.inRun, h]

namespace Token

/-! ## Scanning in parts -/

theorem scan?_cons_of_isBlank {c : Char} (h : isBlank c = true) (rest : List Char) :
    scan? (c :: rest) = scan? rest := by
  have hmark : ∀ mark, isBlank mark = false → c ≠ mark := by
    rintro mark hmark rfl
    rw [hmark] at h
    cases h
  rw [scan?, if_neg (hmark ':' (by decide)), if_neg (hmark '|' (by decide)), if_pos h]
  intro later hcolon
  exact absurd hcolon (hmark ':' (by decide))

theorem scan?_append_of_allBlank {blanks : List Char} (h : AllBlank blanks) (rest : List Char) :
    scan? (blanks ++ rest) = scan? rest := by
  induction blanks with
  | nil => rfl
  | cons c blanks ih =>
      rw [AllBlank, List.forall_mem_cons] at h
      rw [List.cons_append, scan?_cons_of_isBlank h.1, ih h.2]

theorem scan?_of_allBlank {blanks : List Char} (h : AllBlank blanks) : scan? blanks = some [] := by
  have hscan := scan?_append_of_allBlank h []
  rwa [List.append_nil] at hscan

theorem scan?_define (rest : List Char) :
    scan? (':' :: ':' :: '=' :: rest) = (scan? rest).map (.define :: ·) := by
  rw [scan?]

/-- What cannot join the characters before it: nothing, or what begins with a blank or a bar. -/
def Apart (line : List Char) : Prop :=
  ∀ c ∈ line.head?, isBlank c = true ∨ c = '|'

theorem apart_nil : Apart [] := by
  rintro _ ⟨⟩

theorem apart_bar (rest : List Char) : Apart ('|' :: rest) := by
  rintro _ ⟨⟩
  exact Or.inr rfl

theorem apart_of_allBlank {blanks rest : List Char} (h : AllBlank blanks)
    (hrest : blanks = [] → Apart rest) : Apart (blanks ++ rest) := by
  cases blanks with
  | nil => exact hrest rfl
  | cons c blanks =>
      rintro _ ⟨⟩
      exact Or.inl (h _ List.mem_cons_self)

theorem Apart.any_inRun {line : List Char} (h : Apart line) : line.head?.any inRun = false := by
  cases line with
  | nil => rfl
  | cons c rest =>
      rcases h c rfl with hblank | rfl
      · exact not_inRun_of_isBlank hblank
      · rfl

/-- No define mark comes about where two parts meet. -/
theorem Apart.not_completes {front back : List Char} (h : Apart back)
    (hfront : ∀ rest, front ≠ ':' :: '=' :: rest) :
    ∀ rest, front ++ back ≠ ':' :: '=' :: rest := by
  intro rest heq
  have hother : ∀ c, c = ':' ∨ c = '=' → ¬ (isBlank c = true ∨ c = '|') := by
    rintro c (rfl | rfl)
    · decide
    · decide
  -- The first two characters of a mark after its colon come from either part.
  cases front with
  | nil =>
      rw [List.nil_append] at heq
      exact hother ':' (Or.inl rfl) (h ':' (heq ▸ rfl))
  | cons first front =>
      cases front with
      | nil =>
          rw [List.singleton_append, List.cons.injEq] at heq
          exact hother '=' (Or.inr rfl) (h '=' (heq.2 ▸ rfl))
      | cons second front =>
          simp only [List.cons_append, List.cons.injEq] at heq
          rcases heq with ⟨rfl, rfl, _⟩
          exact hfront front rfl

/-- A colon has to begin a define mark. -/
theorem scan?_colon_of_ne {rest : List Char} (h : ∀ later, rest ≠ ':' :: '=' :: later) :
    scan? (':' :: rest) = none := by
  rw [scan?, if_pos rfl]
  rintro later - rfl
  exact h later rfl

/-- A run that is extended does not depend on what comes after its line. -/
theorem prepend_append {c : Char} {touches : Bool} {front : List Token}
    (h : touches = true → front ≠ []) (back : List Token) :
    prepend c touches (front ++ back) = prepend c touches front ++ back := by
  cases touches with
  | false =>
      rw [prepend_false, prepend_false]
      rfl
  | true =>
      cases front with
      | nil => exact absurd rfl (h rfl)
      | cons token front =>
          cases token with
          | symbols run => rfl
          | define => rfl
          | bar => rfl

theorem ne_nil_of_scan? {rest : List Char} {tokens : List Token} (h : scan? rest = some tokens)
    (htouches : rest.head?.any inRun = true) : tokens ≠ [] := by
  rintro rfl
  rcases (Option.any_eq_true _ _).1 htouches with ⟨c, hc, hrun⟩
  have hblank := isBlank_of_scan?_eq_nil h (List.mem_of_mem_head? hc)
  rw [not_inRun_of_isBlank hblank] at hrun
  cases hrun

/-- What is done to the first tokens only may be done before or after all are joined. -/
theorem map_bind_append {front? back? : Option (List Token)} {change : List Token → List Token}
    (h : ∀ front back, front? = some front → change (front ++ back) = change front ++ back) :
    (front?.bind fun front => back?.map (front ++ ·)).map change =
      (front?.map change).bind fun front => back?.map (front ++ ·) := by
  cases front? with
  | none => rfl
  | some front =>
      cases back? with
      | none => rfl
      | some back => exact congrArg some (h front back rfl)

/-- A line is scanned in two parts where nothing joins them. -/
theorem scan?_append {back : List Char} (h : Apart back) (front : List Char) :
    scan? (front ++ back) =
      (scan? front).bind fun first => (scan? back).map (first ++ ·) := by
  fun_induction scan? front with
  | case1 => simp
  | case2 rest ih =>
      rw [List.cons_append, List.cons_append, List.cons_append, scan?_define, ih]
      exact map_bind_append fun _ _ _ => rfl
  | case3 rest hnot =>
      have hnone := scan?_colon_of_ne (h.not_completes fun later hlater => hnot later rfl hlater)
      rw [List.cons_append, hnone]
      rfl
  | case4 rest _ _ ih =>
      rw [List.cons_append, scan?_bar, ih]
      exact map_bind_append fun _ _ _ => rfl
  | case5 first rest _ _ _ hblank ih =>
      rw [List.cons_append, scan?_cons_of_isBlank hblank, ih]
  | case6 first rest _ hcolon hbar hblank ih =>
      have hrun : inRun first = true := by simp [inRun, hcolon, hbar, hblank]
      -- The next character decides whether the run goes on, and `back` never lets it.
      have hnext : (rest ++ back).head?.any inRun = rest.head?.any inRun := by
        cases rest with
        | nil => exact h.any_inRun
        | cons next rest => rfl
      rw [List.cons_append, scan?_cons_of_inRun hrun, ih, hnext]
      exact map_bind_append fun front back hfront =>
        prepend_append (fun htouches => ne_nil_of_scan? hfront htouches) back

/-! ## Characters of tokens -/

def text : Token → List Char
  | .define => [':', ':', '=']
  | .bar => ['|']
  | .symbols run => run

theorem flatMap_text_prepend (c : Char) (touches : Bool) (tokens : List Token) :
    (prepend c touches tokens).flatMap text = c :: tokens.flatMap text := by
  unfold prepend
  split
  · split
    · rfl
    · rfl
  · rfl

/-- The tokens hold all characters of their line except for the blanks. -/
theorem flatMap_text_of_scan? {line : List Char} {tokens : List Token}
    (h : scan? line = some tokens) :
    tokens.flatMap text = line.filter fun c => !isBlank c := by
  -- One case for each way a line can begin: marks, stray colons, blanks and runs.
  fun_induction scan? line generalizing tokens with
  | case1 =>
      cases h
      rfl
  | case2 rest ih =>
      rcases Option.map_eq_some_iff.1 h with ⟨later, hlater, rfl⟩
      rw [List.flatMap_cons, ih hlater]
      rfl
  | case3 rest _ => cases h
  | case4 rest _ _ ih =>
      rcases Option.map_eq_some_iff.1 h with ⟨later, hlater, rfl⟩
      rw [List.flatMap_cons, ih hlater]
      rfl
  | case5 c rest _ _ _ hblank ih =>
      rw [ih h, List.filter_cons_of_neg (by simp [hblank])]
  | case6 c rest _ _ _ hblank ih =>
      rcases Option.map_eq_some_iff.1 h with ⟨later, hlater, rfl⟩
      rw [flatMap_text_prepend, ih hlater, List.filter_cons_of_pos (by simp [hblank])]

def IsRun (run : List Char) : Prop :=
  run ≠ [] ∧ ∀ c ∈ run, inRun c = true

theorem isRun_singleton {c : Char} (h : inRun c = true) : IsRun [c] :=
  ⟨List.cons_ne_nil _ _, List.forall_mem_singleton.2 h⟩

theorem isRun_of_mem_prepend {c : Char} {touches : Bool} {tokens : List Token}
    (hc : inRun c = true) (htokens : ∀ run, .symbols run ∈ tokens → IsRun run) :
    ∀ run, .symbols run ∈ prepend c touches tokens → IsRun run := by
  intro run hrun
  unfold prepend at hrun
  -- The character extends the first run, or is put before it as a run of its own.
  split at hrun
  · next first later =>
      split at hrun
      · rcases List.mem_cons.1 hrun with hfirst | hlater
        · cases hfirst
          refine ⟨List.cons_ne_nil _ _, List.forall_mem_cons.2 ⟨hc, ?_⟩⟩
          exact (htokens first List.mem_cons_self).2
        · exact htokens run (List.mem_cons_of_mem _ hlater)
      · rcases List.mem_cons.1 hrun with hfirst | hlater
        · cases hfirst
          exact isRun_singleton hc
        · exact htokens run hlater
  · rcases List.mem_cons.1 hrun with hfirst | hlater
    · cases hfirst
      exact isRun_singleton hc
    · exact htokens run hlater

/-- Runs hold neither blanks nor marks, and none is empty. -/
theorem isRun_of_mem_scan? {line run : List Char} {tokens : List Token}
    (h : scan? line = some tokens) (hrun : .symbols run ∈ tokens) : IsRun run := by
  -- Marks add no run, and any other character extends one or begins one.
  fun_induction scan? line generalizing tokens run with
  | case1 =>
      cases h
      cases hrun
  | case2 rest ih =>
      rcases Option.map_eq_some_iff.1 h with ⟨later, hlater, rfl⟩
      rcases List.mem_cons.1 hrun with hfirst | hmem
      · cases hfirst
      · exact ih hlater hmem
  | case3 rest _ => cases h
  | case4 rest _ _ ih =>
      rcases Option.map_eq_some_iff.1 h with ⟨later, hlater, rfl⟩
      rcases List.mem_cons.1 hrun with hfirst | hmem
      · cases hfirst
      · exact ih hlater hmem
  | case5 c rest _ _ _ _ ih => exact ih h hrun
  | case6 c rest _ hcolon hbar hblank ih =>
      rcases Option.map_eq_some_iff.1 h with ⟨later, hlater, rfl⟩
      have hc : inRun c = true := by simp [inRun, hcolon, hbar, hblank]
      exact isRun_of_mem_prepend hc (fun _ hmem => ih hlater hmem) run hrun

/-- Marks are not blank and stand in no run, so they come from a token of their own. -/
theorem exists_mark_iff {line : List Char} {tokens : List Token} (h : scan? line = some tokens)
    {mark : Char} (hblank : isBlank mark = false) (hmark : inRun mark = false) :
    mark ∈ line ↔ ∃ token ∈ tokens, mark ∈ token.text ∧ ∀ run, token ≠ .symbols run := by
  have hline : mark ∈ line ↔ mark ∈ tokens.flatMap text := by
    rw [flatMap_text_of_scan? h, List.mem_filter, hblank]
    exact (and_iff_left rfl).symm
  rw [hline, List.mem_flatMap]
  refine exists_congr fun token => and_congr_right fun hmem => (and_iff_left_of_imp ?_).symm
  rintro hin run rfl
  have hrun := (isRun_of_mem_scan? h hmem).2 mark hin
  rw [hmark] at hrun
  cases hrun

theorem bar_mem_iff {line : List Char} {tokens : List Token} (h : scan? line = some tokens) :
    .bar ∈ tokens ↔ '|' ∈ line := by
  rw [exists_mark_iff h (by decide) (by decide)]
  constructor
  · intro hmem
    exact ⟨.bar, hmem, List.mem_singleton_self _, fun run hrun => by cases hrun⟩
  · rintro ⟨token, hmem, htext, hnot⟩
    cases token with
    | bar => exact hmem
    | define => simp [text] at htext
    | symbols run => exact absurd rfl (hnot run)

theorem define_mem_iff {line : List Char} {tokens : List Token} (h : scan? line = some tokens) :
    .define ∈ tokens ↔ ':' ∈ line := by
  rw [exists_mark_iff h (by decide) (by decide)]
  constructor
  · intro hmem
    exact ⟨.define, hmem, List.mem_cons_self, fun run hrun => by cases hrun⟩
  · rintro ⟨token, hmem, htext, hnot⟩
    cases token with
    | define => exact hmem
    | bar => simp [text] at htext
    | symbols run => exact absurd rfl (hnot run)

/-- Without marks, the letters of the tokens are all characters but the blanks. -/
theorem flatMap_letters_of_scan? {line : List Char} {tokens : List Token}
    (h : scan? line = some tokens) (hcolon : ':' ∉ line) (hbar : '|' ∉ line) :
    tokens.flatMap letters = line.filter fun c => !isBlank c := by
  rw [← flatMap_text_of_scan? h]
  refine List.flatMap_congr fun token hmem => ?_
  cases token with
  | symbols run => rfl
  | define => exact absurd ((define_mem_iff h).1 hmem) hcolon
  | bar => exact absurd ((bar_mem_iff h).1 hmem) hbar

/-- Only colons can stop a scan. -/
theorem exists_scan?_of_not_mem {line : List Char} (h : ':' ∉ line) :
    ∃ tokens, scan? line = some tokens := by
  fun_induction scan? line with
  | case1 => exact ⟨[], rfl⟩
  | case2 rest ih => exact absurd List.mem_cons_self h
  | case3 rest _ => exact absurd List.mem_cons_self h
  | case4 rest _ _ ih =>
      rcases ih fun hmem => h (List.mem_cons_of_mem _ hmem) with ⟨tokens, htokens⟩
      exact ⟨_, Option.map_eq_some_iff.2 ⟨tokens, htokens, rfl⟩⟩
  | case5 c rest _ _ _ _ ih => exact ih fun hmem => h (List.mem_cons_of_mem _ hmem)
  | case6 c rest _ _ _ _ ih =>
      rcases ih fun hmem => h (List.mem_cons_of_mem _ hmem) with ⟨tokens, htokens⟩
      exact ⟨_, Option.map_eq_some_iff.2 ⟨tokens, htokens, rfl⟩⟩

/-! ## How a line begins -/

/-- A line holds only blanks, or some blanks and then a character that is none. -/
theorem blanks_cases (line : List Char) :
    AllBlank line ∨
      ∃ blanks c rest, line = blanks ++ c :: rest ∧ AllBlank blanks ∧ isBlank c = false := by
  induction line with
  | nil => exact Or.inl allBlank_nil
  | cons first line ih =>
      by_cases hfirst : isBlank first = true
      · rcases ih with hall | ⟨blanks, c, rest, rfl, hblanks, hc⟩
        · exact Or.inl (List.forall_mem_cons.2 ⟨hfirst, hall⟩)
        · exact Or.inr ⟨first :: blanks, c, rest, rfl, List.forall_mem_cons.2 ⟨hfirst, hblanks⟩, hc⟩
      · exact Or.inr ⟨[], first, line, rfl, allBlank_nil, Bool.eq_false_iff.2 hfirst⟩

/-- A run goes on up to the first character that cannot stand in it. -/
theorem exists_run {c : Char} (h : inRun c = true) (line : List Char) :
    ∃ run rest, c :: line = run ++ rest ∧ IsRun run ∧ rest.head?.any inRun = false := by
  induction line generalizing c with
  | nil => exact ⟨[c], [], rfl, isRun_singleton h, rfl⟩
  | cons next line ih =>
      by_cases hnext : inRun next = true
      · rcases ih hnext with ⟨run, rest, heq, hrun, hrest⟩
        refine ⟨c :: run, rest, congrArg (c :: ·) heq, ?_, hrest⟩
        exact ⟨List.cons_ne_nil _ _, List.forall_mem_cons.2 ⟨h, hrun.2⟩⟩
      · exact ⟨[c], next :: line, rfl, isRun_singleton h, Bool.eq_false_iff.2 hnext⟩

/-- Nothing in `rest` joins the token. Only a run can be joined, by what could stand in it. -/
def EndsBefore (token : Token) (rest : List Char) : Prop :=
  ∀ run, token = .symbols run → IsRun run ∧ rest.head?.any inRun = false

theorem EndsBefore.define (rest : List Char) : Token.define.EndsBefore rest := by
  rintro run ⟨⟩

theorem EndsBefore.bar (rest : List Char) : Token.bar.EndsBefore rest := by
  rintro run ⟨⟩

theorem EndsBefore.symbols {run rest : List Char} (hrun : IsRun run)
    (hrest : rest.head?.any inRun = false) : (Token.symbols run).EndsBefore rest := by
  rintro _ ⟨⟩
  exact ⟨hrun, hrest⟩

/-- A token is found where it stands, whatever blanks come before it. -/
theorem EndsBefore.scan?_eq {token : Token} {blanks rest : List Char} (h : token.EndsBefore rest)
    (hblanks : AllBlank blanks) :
    scan? (blanks ++ token.text ++ rest) = (scan? rest).map (token :: ·) := by
  rw [List.append_assoc, scan?_append_of_allBlank hblanks]
  cases token with
  | define => exact scan?_define rest
  | bar => exact scan?_bar rest
  | symbols run =>
      rcases h run rfl with ⟨hrun, hrest⟩
      exact scan?_run hrun.1 hrun.2 hrest

/-- What begins without a blank begins with a stray colon or with a token. -/
theorem scan?_cons_cases {c : Char} (h : isBlank c = false) (line : List Char) :
    scan? (c :: line) = none ∨
      ∃ (token : Token) (rest : List Char), c :: line = token.text ++ rest ∧
        token.EndsBefore rest := by
  by_cases hcolon : c = ':'
  · subst hcolon
    by_cases hdefine : ∃ later, line = ':' :: '=' :: later
    · rcases hdefine with ⟨later, rfl⟩
      exact Or.inr ⟨.define, later, rfl, .define later⟩
    · exact Or.inl (scan?_colon_of_ne fun later hlater => hdefine ⟨later, hlater⟩)
  · by_cases hbar : c = '|'
    · subst hbar
      exact Or.inr ⟨.bar, line, rfl, .bar line⟩
    · have hstarts : inRun c = true := by simp [inRun, hcolon, hbar, h]
      rcases exists_run hstarts line with ⟨run, rest, heq, hrun, hrest⟩
      exact Or.inr ⟨.symbols run, rest, heq, .symbols hrun hrest⟩

/-- All that a line can be: blank, or without tokens, or a token with more of the line after it. -/
theorem scan?_cases (line : List Char) :
    AllBlank line ∨ scan? line = none ∨ ∃ (blanks : List Char) (token : Token) (rest : List Char),
      AllBlank blanks ∧ line = blanks ++ token.text ++ rest ∧ token.EndsBefore rest := by
  rcases blanks_cases line with hall | ⟨blanks, c, later, rfl, hblanks, hc⟩
  · exact Or.inl hall
  · rcases scan?_cons_cases hc later with hnone | ⟨token, rest, heq, hends⟩
    · rw [scan?_append_of_allBlank hblanks]
      exact Or.inr (Or.inl hnone)
    · rw [heq, ← List.append_assoc]
      exact Or.inr (Or.inr ⟨blanks, token, rest, hblanks, rfl, hends⟩)

/-- The first token stands behind any blanks, and the others are those of the rest. -/
theorem scan?_eq_cons {line : List Char} {token : Token} {tokens : List Token}
    (h : scan? line = some (token :: tokens)) :
    ∃ blanks rest, AllBlank blanks ∧ line = blanks ++ token.text ++ rest ∧
      scan? rest = some tokens ∧ token.EndsBefore rest := by
  rcases scan?_cases line with hall | hnone | ⟨blanks, first, rest, hblanks, rfl, hends⟩
  · rw [scan?_of_allBlank hall] at h
    cases h
  · rw [hnone] at h
    cases h
  · rw [hends.scan?_eq hblanks] at h
    rcases Option.map_eq_some_iff.1 h with ⟨later, hlater, heq⟩
    cases heq
    exact ⟨blanks, rest, hblanks, rfl, hlater, hends⟩

/-! ## Tokens between bars -/

theorem pieces_of_scan? {line : List Char} {tokens : List Token} (h : scan? line = some tokens)
    (hbar : '|' ∉ line) : pieces .bar tokens = [tokens] :=
  pieces_of_not_mem fun hmem => hbar ((bar_mem_iff h).1 hmem)

/-- A bar parts the tokens where it parts the line. -/
theorem scan?_append_bar_eq_some {piece rest : List Char} {tokens : List Token}
    (h : scan? (piece ++ '|' :: rest) = some tokens) :
    ∃ part later, scan? piece = some part ∧ scan? rest = some later ∧
      tokens = part ++ .bar :: later := by
  rw [scan?_append (apart_bar rest), scan?_bar] at h
  rcases Option.bind_eq_some_iff.1 h with ⟨part, hpart, hback⟩
  rw [Option.map_map] at hback
  rcases Option.map_eq_some_iff.1 hback with ⟨later, hlater, rfl⟩
  exact ⟨part, later, hpart, hlater, rfl⟩

/-- The tokens between two bars are those of the characters between them. -/
theorem scan?_pieces {line : List Char} {tokens : List Token} (h : scan? line = some tokens) :
    List.Forall₂ (fun piece part => scan? piece = some part)
      (pieces '|' line) (pieces .bar tokens) := by
  -- The induction is on the pieces, so the line is taken as what they are joined to.
  have hjoined : ∀ items : List (List Char), items ≠ [] → (∀ item ∈ items, '|' ∉ item) →
      ∀ tokens, scan? (['|'].intercalate items) = some tokens →
        List.Forall₂ (fun piece part => scan? piece = some part) items (pieces .bar tokens) := by
    intro items
    induction items with
    | nil => exact fun hnil => absurd rfl hnil
    | cons item items ih =>
        intro _ hbars tokens htokens
        rw [List.forall_mem_cons] at hbars
        cases items with
        | nil =>
            rw [List.intercalate_singleton] at htokens
            rw [pieces_of_scan? htokens hbars.1]
            exact .cons htokens .nil
        | cons next later =>
            rw [List.intercalate_cons_cons, List.append_assoc, List.singleton_append] at htokens
            rcases scan?_append_bar_eq_some htokens with ⟨part, rest, hpart, hrest, rfl⟩
            have hnot : .bar ∉ part := fun hmem => hbars.1 ((bar_mem_iff hpart).1 hmem)
            rw [pieces_append_separator hnot]
            exact .cons hpart (ih (List.cons_ne_nil _ _) hbars.2 rest hrest)
  rw [← intercalate_pieces '|' line] at h
  exact hjoined _ (pieces_ne_nil _ _) (fun _ => separator_not_mem_of_mem_pieces) tokens h

end Token

end ChomskyNormal
