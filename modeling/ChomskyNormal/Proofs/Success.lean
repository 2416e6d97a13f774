import Mathlib.Data.List.Forall2

/-!
# When checked steps succeed

Changes that check their arguments end in a value or in an error. These lemmas take a chain of
them apart, or show that none of its steps fails.
-/

namespace ChomskyNormal

variable {ε δ α β : Type}

theorem map_eq_ok_iff {f : α → β} {x : Except ε α} {b : β} :
    x.map f = .ok b ↔ ∃ a, x = .ok a ∧ b = f a := by
  cases x with
  | ok a => simp [Except.map, eq_comm]
  | error e => simp [Except.map]

theorem map_eq_error_iff {f : α → β} {x : Except ε α} {error : ε} :
    x.map f = .error error ↔ x = .error error := by
  cases x with
  | ok a => simp [Except.map]
  | error e => simp [Except.map]

theorem mapError_eq_ok_iff {f : ε → δ} {x : Except ε α} {a : α} :
    x.mapError f = .ok a ↔ x = .ok a := by
  cases x with
  | ok a => simp [Except.mapError]
  | error e => simp [Except.mapError]

theorem mapError_eq_error_iff {f : ε → δ} {x : Except ε α} {error : δ} :
    x.mapError f = .error error ↔ ∃ original, x = .error original ∧ error = f original := by
  cases x with
  | ok a => simp [Except.mapError]
  | error e => simp [Except.mapError, eq_comm]

theorem toOption_eq_some_iff {x : Except ε α} {a : α} : x.toOption = some a ↔ x = .ok a := by
  cases x with
  | ok b => simp [Except.toOption]
  | error e => simp [Except.toOption]

/-- Two steps succeed when both do. -/
theorem bind_eq_ok_iff {x : Except ε α} {f : α → Except ε β} {b : β} :
    x >>= f = .ok b ↔ ∃ a, x = .ok a ∧ f a = .ok b := by
  cases x with
  | ok a => simp [bind, Except.bind]
  | error e => simp [bind, Except.bind]

/-- Two steps fail when the first one does, or the second one after it. -/
theorem bind_eq_error_iff {x : Except ε α} {f : α → Except ε β} {error : ε} :
    x >>= f = .error error ↔ x = .error error ∨ ∃ a, x = .ok a ∧ f a = .error error := by
  cases x with
  | ok a => simp [bind, Except.bind]
  | error e => simp [bind, Except.bind]

/-! ## Many steps -/

/-- All of a list can be read exactly when each member can. -/
theorem mapM_eq_ok_iff {f : α → Except ε β} {items : List α} {results : List β} :
    items.mapM f = .ok results ↔
      List.Forall₂ (fun item result => f item = .ok result) items results := by
  induction items generalizing results with
  | nil =>
      rw [List.mapM_nil, List.forall₂_nil_left_iff]
      constructor
      · intro h
        cases h
        rfl
      · rintro rfl
        rfl
  | cons item items ih =>
      -- The first member is read before all others are.
      rw [List.mapM_cons, bind_eq_ok_iff, List.forall₂_cons_left_iff]
      constructor
      · rintro ⟨result, hresult, hrest⟩
        rcases bind_eq_ok_iff.1 hrest with ⟨others, hothers, hlist⟩
        cases hlist
        exact ⟨result, others, hresult, ih.1 hothers, rfl⟩
      · rintro ⟨result, others, hresult, hothers, rfl⟩
        exact ⟨result, hresult, bind_eq_ok_iff.2 ⟨others, ih.2 hothers, rfl⟩⟩

/-- Each result was read from a member. -/
theorem exists_mem_of_forall₂ {γ : Type} {R : α → γ → Prop} {items : List α} {results : List γ}
    (h : List.Forall₂ R items results) {result : γ} (hmem : result ∈ results) :
    ∃ item ∈ items, R item result := by
  induction h with
  | nil => cases hmem
  | cons hfirst _ ih =>
      rcases List.mem_cons.1 hmem with rfl | hmem
      · exact ⟨_, List.mem_cons_self, hfirst⟩
      · rcases ih hmem with ⟨item, hitem, hrelated⟩
        exact ⟨item, List.mem_cons_of_mem _ hitem, hrelated⟩

/-- Reading a list fails at the leftmost member that cannot be read. -/
theorem mapM_eq_error_iff {f : α → Except ε β} {items : List α} {error : ε} :
    items.mapM f = .error error ↔
      ∃ before item after, items = before ++ item :: after ∧
        (∀ other ∈ before, ∃ result, f other = .ok result) ∧ f item = .error error := by
  induction items with
  | nil =>
      rw [List.mapM_nil]
      constructor
      · intro h
        cases h
      · rintro ⟨before, item, after, hnil, _⟩
        simp at hnil
  | cons first items ih =>
      -- Either the first member fails, or it is read and one of the others fails.
      rw [List.mapM_cons, bind_eq_error_iff]
      constructor
      · rintro (hfirst | ⟨result, hresult, hrest⟩)
        · exact ⟨[], first, items, rfl, List.forall_mem_nil _, hfirst⟩
        · rcases bind_eq_error_iff.1 hrest with hitems | ⟨others, _, hpure⟩
          · rcases ih.1 hitems with ⟨before, item, after, rfl, hbefore, hitem⟩
            exact ⟨first :: before, item, after, rfl,
              List.forall_mem_cons.2 ⟨⟨result, hresult⟩, hbefore⟩, hitem⟩
          · cases hpure
      · rintro ⟨before, item, after, heq, hbefore, hitem⟩
        cases before with
        | nil =>
            cases heq
            exact Or.inl hitem
        | cons other before =>
            cases heq
            rw [List.forall_mem_cons] at hbefore
            rcases hbefore with ⟨⟨result, hresult⟩, hbefore⟩
            refine Or.inr ⟨result, hresult, bind_eq_error_iff.2 (Or.inl ?_)⟩
            exact ih.2 ⟨before, item, after, rfl, hbefore, hitem⟩

/-- When reading a list fails, it fails at one of the members. -/
theorem exists_mem_of_mapM_eq_error {f : α → Except ε β} {items : List α} {error : ε}
    (h : items.mapM f = .error error) : ∃ item ∈ items, f item = .error error := by
  rcases mapM_eq_error_iff.1 h with ⟨before, item, after, rfl, _, hitem⟩
  exact ⟨item, by simp, hitem⟩

/-! ## Loops that do not fail -/

variable {σ : Type}

theorem mapM_eq_some_map {f : α → Option β} {g : α → β} {items : List α}
    (h : ∀ item ∈ items, f item = some (g item)) : items.mapM f = some (items.map g) := by
  induction items with
  | nil => rfl
  | cons item items ih =>
      rw [List.forall_mem_cons] at h
      rw [List.mapM_cons, h.1, ih h.2]
      rfl

/-- What holds after each number of steps, if every step can be made, holds after all of them. -/
theorem exists_foldlM {f : σ → α → Option σ} {items : List α} {motive : ℕ → σ → Prop} {first : σ}
    (hfirst : motive 0 first)
    (hstep : ∀ index item, items[index]? = some item → ∀ state, motive index state →
      ∃ next, f state item = some next ∧ motive (index + 1) next) :
    ∃ last, items.foldlM f first = some last ∧ motive items.length last := by
  induction items generalizing motive first with
  | nil => exact ⟨first, rfl, hfirst⟩
  | cons item items ih =>
      rcases hstep 0 item rfl first hfirst with ⟨next, hnext, hmotive⟩
      -- Steps are counted from the second one on for the rest of the loop.
      have hlater : ∀ index other, items[index]? = some other → ∀ state,
          motive (index + 1) state → ∃ next, f state other = some next ∧
            motive (index + 1 + 1) next :=
        fun index other hother => hstep (index + 1) other hother
      rcases @ih (fun index => motive (index + 1)) next hmotive hlater with ⟨last, hlast, hend⟩
      refine ⟨last, ?_, hend⟩
      rw [List.foldlM_cons, hnext]
      exact hlast

end ChomskyNormal
