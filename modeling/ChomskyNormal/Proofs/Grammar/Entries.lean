import ChomskyNormal.Productions
import Mathlib.Algebra.BigOperators.Finprod
import Mathlib.Data.List.Induction
import Mathlib.Data.List.Nodup

/-!
# Productions as a list of entries

An entry is a head with one right-hand side. Both indexes and the counter of `Productions` say
the same about a list of entries, namely those that were inserted, in the order of insertion.

- `Productions.ofEntries` : the productions that a list of entries leaves;
- `Productions.WellFormed` : no entry was inserted twice;
- `Productions.WellFormed.count_eq_finsum` : the counter is the sum over all heads;
- `Productions.WellFormed.eq_of_alternatives` : the alternatives determine all else;
- `Productions.add_eq_ok_iff` : all that a successful addition can do.
-/

namespace ChomskyNormal

namespace Productions

/-! ## Entries -/

def ofEntries (entries : List (Char × Rhs)) : Productions :=
  entries.foldl (fun productions entry => productions.insert entry.1 entry.2) ∅

theorem ofEntries_concat (entries : List (Char × Rhs)) (head : Char) (rhs : Rhs) :
    ofEntries (entries ++ [(head, rhs)]) = (ofEntries entries).insert head rhs := by
  simp [ofEntries, List.foldl_append]

/-- The alternatives of a head are its entries, in the same order. -/
theorem alternatives_ofEntries (entries : List (Char × Rhs)) (head : Char) :
    (ofEntries entries).alternatives head =
      (entries.filter fun entry => entry.1 = head).map Prod.snd := by
  -- An insertion comes last, so the induction takes entries off the end.
  induction entries using List.reverseRecOn with
  | nil =>
      exact alternatives_empty head
  | append_singleton entries entry ih =>
      rcases entry with ⟨other, rhs⟩
      rw [ofEntries_concat, alternatives_insert, List.filter_append, List.map_append, ← ih]
      by_cases h : other = head
      · subst h
        simp
      · simp [h]

theorem mem_alternatives_ofEntries {entries : List (Char × Rhs)} {head : Char} {rhs : Rhs} :
    rhs ∈ (ofEntries entries).alternatives head ↔ (head, rhs) ∈ entries := by
  rw [alternatives_ofEntries]
  simp

theorem mem_producers_ofEntries {entries : List (Char × Rhs)} {head : Char} {rhs : Rhs} :
    head ∈ (ofEntries entries).producers rhs ↔ (head, rhs) ∈ entries := by
  induction entries using List.reverseRecOn with
  | nil =>
      simp [ofEntries]
  | append_singleton entries entry ih =>
      rcases entry with ⟨other, item⟩
      rw [ofEntries_concat, producers_insert]
      by_cases h : item = rhs
      · subst h
        rw [if_pos rfl, Std.ExtTreeSet.mem_insert, ih, List.mem_append, List.mem_singleton,
          Std.compare_eq_iff_eq, Prod.mk.injEq, or_comm]
        simp only [and_true, eq_comm]
      · simp [h, ih, Ne.symm h]

@[simp] theorem count_ofEntries (entries : List (Char × Rhs)) :
    (ofEntries entries).count = entries.length := by
  induction entries using List.reverseRecOn with
  | nil => rfl
  | append_singleton entries entry ih =>
      rcases entry with ⟨head, rhs⟩
      rw [ofEntries_concat, count_insert, ih, List.length_append, List.length_singleton]

/-- Values that are the default only by being missing are the same if they are the same up to the
default. -/
theorem eq_of_getD_eq {α : Type} {first second : Option α} {default : α}
    (h : first.getD default = second.getD default) (hfirst : first ≠ some default)
    (hsecond : second ≠ some default) : first = second := by
  cases first with
  | none =>
      cases second with
      | none => rfl
      | some other => exact absurd (congrArg some h.symm) hsecond
  | some value =>
      cases second with
      | none => exact absurd (congrArg some h) hfirst
      | some other => exact congrArg some h

/-- A head is on record only if it has an alternative. -/
theorem getElem?_byHead_ofEntries_ne (entries : List (Char × Rhs)) (head : Char) :
    (ofEntries entries).byHead[head]? ≠ some [] := by
  induction entries using List.reverseRecOn with
  | nil =>
      have hnone : (ofEntries []).byHead[head]? = none := Std.ExtTreeMap.getElem?_empty
      simp [hnone]
  | append_singleton entries entry ih =>
      rcases entry with ⟨other, rhs⟩
      rw [ofEntries_concat, insert, Std.ExtTreeMap.getElem?_insert]
      split
      · simp
      · exact ih

/-- A right-hand side is on record only if it has a producer. -/
theorem getElem?_byRhs_ofEntries_ne (entries : List (Char × Rhs)) (rhs : Rhs) :
    (ofEntries entries).byRhs[rhs]? ≠ some ∅ := by
  induction entries using List.reverseRecOn with
  | nil =>
      have hnone : (ofEntries []).byRhs[rhs]? = none := Std.ExtTreeMap.getElem?_empty
      simp [hnone]
  | append_singleton entries entry ih =>
      rcases entry with ⟨head, other⟩
      rw [ofEntries_concat, insert, Std.ExtTreeMap.getElem?_insert]
      split
      · simp
      · exact ih

/-! ## Productions without repetition -/

/-- The productions hold distinct entries, and nothing but them. -/
def WellFormed (productions : Productions) : Prop :=
  ∃ entries : List (Char × Rhs), entries.Nodup ∧ productions = ofEntries entries

theorem wellFormed_empty : (∅ : Productions).WellFormed :=
  ⟨[], List.nodup_nil, rfl⟩

namespace WellFormed

variable {productions : Productions}

/-- Either index can be asked whether an entry is there. -/
theorem mem_producers_iff (h : productions.WellFormed) {head : Char} {rhs : Rhs} :
    head ∈ productions.producers rhs ↔ rhs ∈ productions.alternatives head := by
  rcases h with ⟨entries, _, rfl⟩
  rw [mem_producers_ofEntries, mem_alternatives_ofEntries]

theorem isEmpty_iff (h : productions.WellFormed) :
    productions.isEmpty = true ↔ ∀ head, productions.alternatives head = [] := by
  rcases h with ⟨entries, _, rfl⟩
  rw [isEmpty, decide_eq_true_iff, count_ofEntries, List.length_eq_zero_iff]
  constructor
  · rintro rfl head
    exact alternatives_empty head
  · -- An entry would be found among the alternatives of its head.
    intro hnone
    refine List.eq_nil_iff_forall_not_mem.2 ?_
    rintro ⟨head, rhs⟩ hmem
    have : rhs ∈ (ofEntries entries).alternatives head := mem_alternatives_ofEntries.2 hmem
    simp [hnone head] at this

theorem nodup_alternatives (h : productions.WellFormed) (head : Char) :
    (productions.alternatives head).Nodup := by
  rcases h with ⟨entries, hdistinct, rfl⟩
  rw [alternatives_ofEntries]
  refine (hdistinct.filter _).map_on ?_
  -- Entries with one head that have the same right-hand side are the same.
  intro entry hentry other hother hrhs
  have hhead : entry.1 = head := by simpa using (List.mem_filter.1 hentry).2
  have hhead' : other.1 = head := by simpa using (List.mem_filter.1 hother).2
  exact Prod.ext (hhead.trans hhead'.symm) hrhs

/-- Any heads will do for the sum, as long as none with an alternative is left out. -/
theorem count_eq_sum (h : productions.WellFormed) {heads : Finset Char}
    (hall : ∀ head, productions.alternatives head ≠ [] → head ∈ heads) :
    productions.count = ∑ head ∈ heads, (productions.alternatives head).length := by
  rcases h with ⟨entries, hdistinct, rfl⟩
  have hheads : ∀ entry ∈ entries.toFinset, entry.1 ∈ heads := by
    intro entry hentry
    have hmem : entry.2 ∈ (ofEntries entries).alternatives entry.1 :=
      mem_alternatives_ofEntries.2 (List.mem_toFinset.1 hentry)
    exact hall entry.1 (List.ne_nil_of_mem hmem)
  -- No entry occurs twice, so they can be counted as a set, head by head.
  have hfiber : ∀ head, (entries.toFinset.filter fun entry => entry.1 = head).card =
      ((ofEntries entries).alternatives head).length := by
    intro head
    rw [alternatives_ofEntries, List.length_map,
      ← List.toFinset_card_of_nodup (hdistinct.filter _), List.toFinset_filter]
    simp only [decide_eq_true_eq]
  calc
    (ofEntries entries).count
        = entries.toFinset.card := by
          rw [count_ofEntries, List.toFinset_card_of_nodup hdistinct]
    _ = ∑ head ∈ heads, (entries.toFinset.filter fun entry => entry.1 = head).card :=
          Finset.card_eq_sum_card_fiberwise hheads
    _ = ∑ head ∈ heads, ((ofEntries entries).alternatives head).length :=
          Finset.sum_congr rfl fun head _ => hfiber head

/-- The counter is the number of all alternatives of all heads. -/
theorem count_eq_finsum (h : productions.WellFormed) :
    productions.count = ∑ᶠ head, (productions.alternatives head).length := by
  rcases h with ⟨entries, hdistinct, rfl⟩
  have hheads : ∀ head, (ofEntries entries).alternatives head ≠ [] →
      head ∈ (entries.map Prod.fst).toFinset := by
    intro head hsome
    rcases List.exists_mem_of_ne_nil _ hsome with ⟨rhs, hrhs⟩
    exact List.mem_toFinset.2 (List.mem_map.2 ⟨_, mem_alternatives_ofEntries.1 hrhs, rfl⟩)
  rw [count_eq_sum ⟨entries, hdistinct, rfl⟩ hheads]
  refine (finsum_eq_sum_of_support_subset _ ?_).symm
  intro head hsupport
  refine hheads head ?_
  intro hnone
  rw [Function.mem_support, hnone, List.length_nil] at hsupport
  exact hsupport rfl

/-- Productions that agree on the alternatives of every head are the same, both indexes and the
counter included. -/
theorem eq_of_alternatives {others : Productions} (h : productions.WellFormed)
    (hothers : others.WellFormed)
    (halternatives : ∀ head, productions.alternatives head = others.alternatives head) :
    productions = others := by
  have hproducers : ∀ rhs, productions.producers rhs = others.producers rhs := by
    intro rhs
    refine Std.ExtTreeSet.ext_mem fun head => ?_
    rw [h.mem_producers_iff, hothers.mem_producers_iff, halternatives]
  have hcount : productions.count = others.count := by
    rw [h.count_eq_finsum, hothers.count_eq_finsum]
    exact finsum_congr fun head => congrArg List.length (halternatives head)
  -- Neither index records an empty value, so what look-up shows is all that an index holds.
  rcases h with ⟨entries, _, rfl⟩
  rcases hothers with ⟨entries', _, rfl⟩
  have hbyHead : (ofEntries entries).byHead = (ofEntries entries').byHead := by
    refine Std.ExtTreeMap.ext_getElem? fun head => ?_
    refine eq_of_getD_eq ?_ (getElem?_byHead_ofEntries_ne _ _) (getElem?_byHead_ofEntries_ne _ _)
    rw [← Std.ExtTreeMap.getD_eq_getD_getElem?, ← Std.ExtTreeMap.getD_eq_getD_getElem?]
    exact halternatives head
  have hbyRhs : (ofEntries entries).byRhs = (ofEntries entries').byRhs := by
    refine Std.ExtTreeMap.ext_getElem? fun rhs => ?_
    refine eq_of_getD_eq ?_ (getElem?_byRhs_ofEntries_ne _ _) (getElem?_byRhs_ofEntries_ne _ _)
    rw [← Std.ExtTreeMap.getD_eq_getD_getElem?, ← Std.ExtTreeMap.getD_eq_getD_getElem?]
    exact hproducers rhs
  calc
    ofEntries entries
        = ⟨(ofEntries entries).byHead, (ofEntries entries).byRhs, (ofEntries entries).count⟩ := rfl
    _ = ⟨(ofEntries entries').byHead, (ofEntries entries').byRhs, (ofEntries entries').count⟩ := by
          rw [hbyHead, hbyRhs, hcount]
    _ = ofEntries entries' := rfl

/-- Entries stay distinct when a new one is inserted. -/
theorem insert (h : productions.WellFormed) {head : Char} {rhs : Rhs}
    (hnew : rhs ∉ productions.alternatives head) : (productions.insert head rhs).WellFormed := by
  rcases h with ⟨entries, hnodup, rfl⟩
  rw [mem_alternatives_ofEntries] at hnew
  refine ⟨entries ++ [(head, rhs)], ?_, (ofEntries_concat entries head rhs).symm⟩
  rw [← List.concat_eq_append]
  exact hnodup.concat hnew

end WellFormed

/-! ## Additions -/

theorem mem_alternatives_insert {productions : Productions} {head other : Char} {rhs item : Rhs} :
    item ∈ (productions.insert head rhs).alternatives other ↔
      item ∈ productions.alternatives other ∨ head = other ∧ item = rhs := by
  rw [alternatives_insert]
  by_cases h : head = other
  · subst h
    simp
  · simp [h]

/-- An addition succeeds when all checks pass, and then inserts what it has read. -/
theorem add_eq_ok_iff {productions extended : Productions} {alphabet : Alphabet} {head : Char}
    {text : String} :
    productions.add alphabet head text = .ok extended ↔
      ∃ rhs, Rhs.ofString? text = some rhs ∧ head ∈ alphabet.nonterminals ∧
        alphabet.missing? rhs = none ∧ rhs ∉ productions.alternatives head ∧
        extended = productions.insert head rhs := by
  -- The checks are made in this order, and each case assumes that those before it pass.
  unfold add
  cases hrhs : Rhs.ofString? text with
  | none => simp
  | some rhs =>
      by_cases hhead : head ∈ alphabet.nonterminals
      · cases hmissing : alphabet.missing? rhs with
        | some letter => simp [hhead, hmissing]
        | none =>
            by_cases hold : rhs ∈ productions.alternatives head
            · simp [hhead, hmissing, hold]
            · simp [hhead, hmissing, hold, eq_comm]
      · simp [hhead]

end Productions

end ChomskyNormal
