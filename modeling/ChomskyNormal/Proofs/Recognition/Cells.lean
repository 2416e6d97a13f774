import ChomskyNormal.Proofs.Derivation
import ChomskyNormal.Proofs.Recognition.Rows

/-!
# Cells hold what derives their part

The answer of a table for a part of the word is exact: a nonterminal stands in the cell if and
only if it is the root of a derivation tree over the letters of the part.

- `Table.part` : the letters that a cell is about;
- `Productions.derives_part_iff` : a derivation of a longer part splits it in two;
- `Table.mem_cell_iff_derives` : the induction over spans;
- `Grammar.table_eq_ok_iff` : when there is a table at all.
-/

namespace ChomskyNormal

/-! ## Parts of a word -/

def Table.part (word : List Char) (start span : Nat) : List Char :=
  (word.drop start).take (span + 1)

namespace Table

variable {word : List Char} {start span : Nat}

theorem length_part (h : start + span < word.length) :
    (part word start span).length = span + 1 := by
  rw [part, List.length_take, List.length_drop]
  omega

theorem part_zero (h : start < word.length) : part word start 0 = [word[start]] := by
  rw [part, List.drop_eq_getElem_cons h, List.take_succ_cons, List.take_zero]

/-- A part is the letters up to a split, followed by all others. -/
theorem part_append_part {split : Nat} (h : split < span) :
    part word start split ++ part word (start + split + 1) (span - split - 1) =
      part word start span := by
  -- The second half begins where the first one ends.
  have hlength : split + 1 + (span - split - 1 + 1) = span + 1 := by omega
  have htake := List.take_add (l := word.drop start) (i := split + 1) (j := span - split - 1 + 1)
  rw [List.drop_drop, hlength] at htake
  exact htake.symm

theorem part_whole (h : word ≠ []) : part word 0 (word.length - 1) = word := by
  have hpos : 0 < word.length := List.length_pos_of_ne_nil h
  rw [part, List.drop_zero, Nat.sub_add_cancel hpos, List.take_length]

/-- Words that make up a part between them are its two halves at some split. -/
theorem eq_parts_of_append_eq {front back : List Char} (h : start + span < word.length)
    (hfront : front ≠ []) (hback : back ≠ []) (heq : part word start span = front ++ back) :
    ∃ split < span, front = part word start split ∧
      back = part word (start + split + 1) (span - split - 1) := by
  have hlength : span + 1 = front.length + back.length := by
    rw [← length_part h, heq, List.length_append]
  have hpos : 0 < front.length := List.length_pos_of_ne_nil hfront
  have hpos' : 0 < back.length := List.length_pos_of_ne_nil hback
  have hsplit : front.length - 1 < span := by omega
  refine ⟨front.length - 1, hsplit, ?_⟩
  -- The words and the halves are the same list, cut at the same length.
  have hhalves : front ++ back =
      part word start (front.length - 1) ++
        part word (start + (front.length - 1) + 1) (span - (front.length - 1) - 1) := by
    rw [part_append_part hsplit, heq]
  have hsame : front.length = (part word start (front.length - 1)).length := by
    rw [length_part (by omega)]
    omega
  exact List.append_inj hhalves hsame

end Table

/-! ## Derivations of parts -/

namespace Productions

open Table

variable {productions : Productions} {word : List Char}

/-- A part is derived when its two halves are, for some split and some pair. -/
theorem derives_part_iff {root : Char} {start span : Nat} (h : start + span < word.length)
    (hspan : 0 < span) :
    productions.Derives root (part word start span) ↔
      ∃ split < span, ∃ b c, .binary b c ∈ productions.alternatives root ∧
        productions.Derives b (part word start split) ∧
          productions.Derives c (part word (start + split + 1) (span - split - 1)) := by
  rw [derives_iff]
  constructor
  · rintro (⟨letter, _, heq⟩ | ⟨b, c, front, back, hpair, hfront, hback, heq⟩)
    · -- The part has at least two letters.
      have hlength := length_part h
      rw [heq, List.length_singleton] at hlength
      omega
    · rcases eq_parts_of_append_eq h hfront.word_ne_nil hback.word_ne_nil heq with
        ⟨split, hsplit, rfl, rfl⟩
      exact ⟨split, hsplit, b, c, hpair, hfront, hback⟩
  · rintro ⟨split, hsplit, b, c, hpair, hfront, hback⟩
    exact Or.inr ⟨b, c, _, _, hpair, hfront, hback, (part_append_part hsplit).symm⟩

end Productions

namespace Table

variable {productions : Productions} {word : List Char}

/-- The cell of every part within the word is there and holds the roots of its derivations. -/
theorem mem_cell_iff_derives (hwell : productions.WellFormed) {span start : Nat}
    (h : start + span < word.length) :
    ∃ cell, find? (rowsTo productions word span) start span = some cell ∧
      ∀ root, root ∈ cell ↔ productions.Derives root (part word start span) := by
  -- Both halves of a part have a smaller span, and a start of their own.
  induction span using Nat.strong_induction_on generalizing start with
  | _ span ih =>
      cases span with
      | zero =>
          have hstart : start < word.length := h
          refine ⟨productions.producers (.terminal word[start]), ?_, ?_⟩
          · rw [find?_rowsTo_zero, List.getElem?_eq_getElem hstart, Option.map_some]
          · intro root
            rw [part_zero hstart, Productions.derives_singleton_iff, hwell.mem_producers_iff]
      | succ span =>
          refine ⟨joinSplits productions (rowsTo productions word span) (span + 1) start, ?_, ?_⟩
          · rw [find?_rowsTo_succ, if_pos h]
          · intro root
            rw [mem_joinSplits_iff, Productions.derives_part_iff h (Nat.succ_pos span)]
            refine exists_congr fun split => and_congr_right fun hsplit => ?_
            have hfirst : start + split < word.length := by omega
            have hsecond : start + split + 1 + (span + 1 - split - 1) < word.length := by omega
            rcases ih split hsplit hfirst with ⟨left, hleft, hmemLeft⟩
            rcases ih (span + 1 - split - 1) (by omega) hsecond with ⟨right, hright, hmemRight⟩
            -- The rows up to `span` hold the final cells of both halves.
            rw [find?_rowsTo_of_le (Nat.lt_succ_iff.1 hsplit), hleft,
              find?_rowsTo_of_le (by omega : span + 1 - split - 1 ≤ span), hright]
            constructor
            · rintro ⟨b, hb, c, hc, hroot⟩
              exact ⟨b, c, hwell.mem_producers_iff.1 hroot, (hmemLeft b).1 hb, (hmemRight c).1 hc⟩
            · rintro ⟨b, c, hpair, hb, hc⟩
              exact ⟨b, (hmemLeft b).2 hb, c, (hmemRight c).2 hc, hwell.mem_producers_iff.2 hpair⟩

end Table

/-! ## Tables of well-formed grammars -/

namespace Grammar

variable {grammar : Grammar}

/-- A word can be asked about when its letters are terminals, and there is something to look for. -/
theorem checkWord_eq_ok_iff {word : List Char} {start : Char} :
    grammar.checkWord word = .ok start ↔
      grammar.productions.isEmpty = false ∧ grammar.start? = some start ∧ word ≠ [] ∧
        ∀ c ∈ word, c ∈ grammar.alphabet.terminals := by
  -- The checks are made in this order, and each case assumes that those before it pass.
  unfold checkWord
  cases hempty : grammar.productions.isEmpty with
  | true => simp
  | false =>
      cases hstart : grammar.start? with
      | none => simp
      | some current =>
          by_cases hword : word = []
          · simp [hword]
          · cases hfind : word.find? (· ∉ grammar.alphabet.terminals) with
            | some c =>
                have hc : c ∉ grammar.alphabet.terminals := by
                  simpa using List.find?_some hfind
                have hmem : c ∈ word := List.mem_of_find?_eq_some hfind
                simp only [hword, Bool.false_eq_true, if_false, reduceCtorEq, false_iff]
                rintro ⟨_, _, _, hall⟩
                exact hc (hall c hmem)
            | none =>
                have hall : ∀ c ∈ word, c ∈ grammar.alphabet.terminals := by
                  simpa using List.find?_eq_none.1 hfind
                simp only [hword, Bool.false_eq_true, if_false, Except.ok.injEq, Option.some.injEq,
                  ne_eq, not_false_iff, true_and]
                exact (and_iff_left hall).symm

theorem table_eq_ok_iff {word : String} {table : Table} :
    grammar.table word = .ok table ↔
      ∃ start, grammar.checkWord word.toList = .ok start ∧
        table = ⟨word.toList, start,
          Table.rowsTo grammar.productions word.toList (word.toList.length - 1)⟩ :=
  map_eq_ok_iff

theorem table_word_eq {word : String} {table : Table} (htable : grammar.table word = .ok table) :
    table.word = word.toList := by
  rcases table_eq_ok_iff.1 htable with ⟨_, _, rfl⟩
  rfl

/-- A table answers for the start symbol of its grammar. -/
theorem table_start_eq {word : String} {table : Table} {start : Char}
    (htable : grammar.table word = .ok table) (hstart : grammar.start? = some start) :
    table.start = start := by
  rcases table_eq_ok_iff.1 htable with ⟨current, hcheck, rfl⟩
  have hcurrent := (checkWord_eq_ok_iff.1 hcheck).2.1
  rw [hstart] at hcurrent
  exact (Option.some.inj hcurrent).symm

namespace WellFormed

/-- There is a table exactly when there is something to look for and something to look in. -/
theorem exists_table_iff (h : grammar.WellFormed) (word : String) :
    (∃ table, grammar.table word = .ok table) ↔
      (∃ head rhs, rhs ∈ grammar.alternatives head) ∧ (∃ start, grammar.start? = some start) ∧
        word.toList ≠ [] ∧ ∀ c ∈ word.toList, c ∈ grammar.terminals := by
  have hempty : grammar.productions.isEmpty = false ↔
      ∃ head rhs, rhs ∈ grammar.alternatives head := by
    rw [← Bool.not_eq_true, h.productions.isEmpty_iff, not_forall]
    simp only [List.eq_nil_iff_forall_not_mem, not_forall, not_not, alternatives]
  -- The check asks the look-up sets, which hold what is listed.
  have hterminals : (∀ c ∈ word.toList, c ∈ grammar.terminals) ↔
      ∀ c ∈ word.toList, c ∈ grammar.alphabet.terminals :=
    forall₂_congr fun c _ => h.alphabet.terminals.mem_order_iff
  rw [hterminals, ← hempty]
  constructor
  · rintro ⟨table, htable⟩
    rcases table_eq_ok_iff.1 htable with ⟨start, hcheck, _⟩
    rcases checkWord_eq_ok_iff.1 hcheck with ⟨hsome, hstart, hword, hall⟩
    exact ⟨hsome, ⟨start, hstart⟩, hword, hall⟩
  · rintro ⟨hsome, ⟨start, hstart⟩, hword, hall⟩
    exact ⟨_, table_eq_ok_iff.2 ⟨start, checkWord_eq_ok_iff.2 ⟨hsome, hstart, hword, hall⟩, rfl⟩⟩

variable {word : String} {table : Table}

/-- A cell holds the nonterminals that derive its part. -/
theorem mem_cell?_iff_derives (h : grammar.WellFormed) (htable : grammar.table word = .ok table)
    {start span : Nat} (hpart : start + span < word.toList.length) :
    ∃ cell, table.cell? start span = some cell ∧
      ∀ root, root ∈ cell ↔
        grammar.productions.Derives root (Table.part word.toList start span) := by
  rcases table_eq_ok_iff.1 htable with ⟨_, _, rfl⟩
  rw [Table.cell?, Table.find?_rowsTo_of_le (by omega : span ≤ word.toList.length - 1)]
  exact Table.mem_cell_iff_derives h.productions hpart

theorem mem_whole_iff_derives (h : grammar.WellFormed) (htable : grammar.table word = .ok table)
    {root : Char} : root ∈ table.whole ↔ grammar.productions.Derives root word.toList := by
  rcases table_eq_ok_iff.1 htable with ⟨start, hcheck, rfl⟩
  have hword : word.toList ≠ [] := (checkWord_eq_ok_iff.1 hcheck).2.2.1
  have hpos : 0 < word.toList.length := List.length_pos_of_ne_nil hword
  have hpart : 0 + (word.toList.length - 1) < word.toList.length := by omega
  rcases h.mem_cell?_iff_derives htable hpart with ⟨cell, hcell, hmem⟩
  rw [Table.whole, Table.size, hcell, Option.getD_some, hmem, Table.part_whole hword]

/-- A word that some nonterminal derives can be asked about once there is a start symbol. -/
theorem exists_table_of_derives (h : grammar.WellFormed) {root start : Char}
    (hderives : grammar.productions.Derives root word.toList)
    (hstart : grammar.start? = some start) : ∃ table, grammar.table word = .ok table := by
  have hword : word.toList ≠ [] := hderives.word_ne_nil
  rcases hderives with ⟨tree, hfollows, _, hyield⟩
  refine (h.exists_table_iff word).2 ⟨?_, ⟨start, hstart⟩, hword, ?_⟩
  · exact ⟨tree.root, tree.rhs, Tree.rhs_mem_of_follows hfollows⟩
  · intro c hc
    rw [← hyield] at hc
    exact h.alphabet.terminals.mem_order_iff.2 (Tree.mem_terminals_of_follows h hfollows hc)

theorem isDerived_table_iff (h : grammar.WellFormed) (htable : grammar.table word = .ok table)
    {start : Char} (hstart : grammar.start? = some start) :
    table.isDerived = true ↔ grammar.productions.Derives start word.toList := by
  rw [Table.isDerived, decide_eq_true_iff, table_start_eq htable hstart]
  exact h.mem_whole_iff_derives htable

/-- The answer is yes exactly when the start symbol derives the word. -/
theorem isDerived_iff_derives (h : grammar.WellFormed) :
    grammar.isDerived word = .ok true ↔
      ∃ start, grammar.start? = some start ∧ grammar.productions.Derives start word.toList := by
  constructor
  · intro hderived
    rcases map_eq_ok_iff.1 hderived with ⟨table, htable, hanswer⟩
    rcases table_eq_ok_iff.1 htable with ⟨start, hcheck, _⟩
    have hstart : grammar.start? = some start := (checkWord_eq_ok_iff.1 hcheck).2.1
    exact ⟨start, hstart, (h.isDerived_table_iff htable hstart).1 hanswer.symm⟩
  · rintro ⟨start, hstart, hderives⟩
    rcases h.exists_table_of_derives hderives hstart with ⟨table, htable⟩
    have hanswer := (h.isDerived_table_iff htable hstart).2 hderives
    exact map_eq_ok_iff.2 ⟨table, htable, hanswer.symm⟩

end WellFormed

/-- The recognition table of any word, for any grammar that a session arrives at: when there is
one, which nonterminals each of its cells holds, and what it says about the whole word. -/
theorem Reachable.table_exact (h : grammar.Reachable) (word : String) :
    ((∃ table, grammar.table word = .ok table) ↔
      (∃ head rhs, rhs ∈ grammar.alternatives head) ∧ (∃ start, grammar.start? = some start) ∧
        word.toList ≠ [] ∧ ∀ c ∈ word.toList, c ∈ grammar.terminals) ∧
    (∀ table, grammar.table word = .ok table →
      ∀ start span, start + span < word.toList.length →
        ∃ cell, table.cell? start span = some cell ∧
          ∀ root, root ∈ cell ↔
            grammar.productions.Derives root (Table.part word.toList start span)) ∧
    (grammar.isDerived word = .ok true ↔
      ∃ start, grammar.start? = some start ∧
        grammar.productions.Derives start word.toList) := by
  have hwell : grammar.WellFormed := h.wellFormed
  refine ⟨hwell.exists_table_iff word, ?_, hwell.isDerived_iff_derives⟩
  intro table htable start span hpart
  exact hwell.mem_cell?_iff_derives htable hpart

/-- A session with refused steps that arrives at an ambiguous grammar. -/
def textbook : List Session.Step :=
  [.edit (.addTerminal 'A'),
    .edit (.load "S ::= AB | BC\nA ::= BA | a\nB ::= CC | b\nC ::= AB" none),
    .edit (.addProduction 'C' "a"), .edit (.addProduction 'S' "Ab"), .edit (.setStart 'A')]

/-- Of two words, one has a derivation and the other has none. -/
theorem textbook_derivations :
    (Session.new.run textbook).current.Reachable ∧
      (Session.new.run textbook).current.productions.Derives 'S' "baaba".toList ∧
        ¬ (Session.new.run textbook).current.productions.Derives 'S' "aab".toList := by
  have hreach : (Session.new.run textbook).current.Reachable := ⟨textbook, rfl⟩
  have hstart : (Session.new.run textbook).current.start? = some 'S' := by decide +kernel
  -- Derivations are read off the answers, as there are too many trees to look through.
  have hyes : (Session.new.run textbook).current.isDerived "baaba" = .ok true := by
    decide +kernel
  have hno : (Session.new.run textbook).current.isDerived "aab" ≠ .ok true := by
    decide +kernel
  refine ⟨hreach, ?_, ?_⟩
  · rcases (Reachable.table_exact hreach "baaba").2.2.1 hyes with ⟨start, hsome, hderives⟩
    rw [hstart] at hsome
    cases hsome
    exact hderives
  · intro hderives
    exact hno ((Reachable.table_exact hreach "aab").2.2.2 ⟨'S', hstart, hderives⟩)

end Grammar

end ChomskyNormal
