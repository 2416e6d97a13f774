import ChomskyNormal.Proofs.Sampling.Outcome

/-!
# Sources that settle every choice

Zero suits every choice. Given numbers have zeros after them. A seeded source takes odd steps from
word to word, so within one round through all words it comes to the word zero, and that is
scrambled to zero.

- `Source.settles_ofArray`, `Source.settles_ofSeed` : the sources that the program has;
- `Source.Settles.repeatSample_ne_stalled` : with such a source no sample stalls.
-/

namespace ChomskyNormal

/-! ## Particular sources -/

namespace Source

/-- It is enough that a zero comes up before the patience is at an end. -/
theorem settles_of_zeros {source : Source}
    (h : ∀ position, ∃ taken < source.patience, source.number (position + taken) = 0) :
    source.Settles := by
  intro count position _
  rcases h position with ⟨taken, htaken, hzero⟩
  refine ⟨taken, htaken, ?_⟩
  rw [hzero]
  exact suits_zero count

/-- Given numbers end in zeros, and zero suits. -/
theorem settles_ofArray (numbers : Array UInt32) : (ofArray numbers).Settles := by
  refine settles_of_zeros fun position => ⟨numbers.size, Nat.lt_succ_self _, ?_⟩
  simp [ofArray]

/-- As many steps as this word says lead on by one. -/
def strideInverse : UInt64 := 0xF1DE83E19937733D

theorem strideInverse_mul_stride : strideInverse * stride = 1 := by
  decide

/-- From every word some number of steps leads to the word zero. -/
theorem exists_steps_to_zero (seed : UInt64) (position : ℕ) :
    ∃ taken < UInt64.size, seed + UInt64.ofNat (position + taken + 1) * stride = 0 := by
  -- So many steps have to be made in all, and some of them are made by the position.
  let steps : UInt64 := -seed * strideInverse
  let taken : UInt64 := steps - UInt64.ofNat (position + 1)
  have hsteps : UInt64.ofNat (position + taken.toNat + 1) = steps := by
    rw [Nat.add_right_comm, UInt64.ofNat_add, UInt64.ofNat_toNat]
    grind
  refine ⟨taken.toNat, UInt64.toNat_lt_size taken, ?_⟩
  calc
    seed + UInt64.ofNat (position + taken.toNat + 1) * stride
        = seed + -seed * (strideInverse * stride) := by rw [hsteps, UInt64.mul_assoc]
    _ = 0 := by rw [strideInverse_mul_stride, UInt64.mul_one, UInt64.add_right_neg]

/-- A seeded source comes to the word zero within its patience. -/
theorem settles_ofSeed (seed : UInt64) : (ofSeed seed).Settles := by
  refine settles_of_zeros fun position => ?_
  rcases exists_steps_to_zero seed position with ⟨taken, htaken, hword⟩
  refine ⟨taken, htaken, ?_⟩
  simp only [ofSeed, hword]
  decide

end Source

/-! ## Samples -/

namespace Source.Settles

variable {grammar : Grammar} {source : Source}

/-- A source that settles every choice stalls no sample. -/
theorem sample_ne_stalled (hsettles : source.Settles) (h : grammar.WellFormed)
    (maxDepth position stop : ℕ) :
    grammar.sample maxDepth source position ≠ .error .stalled stop := by
  cases hstart : grammar.start? with
  | none =>
      unfold Grammar.sample
      rw [hstart]
      intro hstop
      cases hstop
  | some start =>
      rw [Grammar.sample_eq_sampleFrom hstart]
      intro hstop
      have hends := h.sampleEnds source start maxDepth position
      rcases (hends.stalled stop).1 hstop with ⟨hfits, call, hsamples, hstalls, _⟩
      -- A call has a candidate, and one of the numbers that follow suits the choice.
      have hsome := (hends.calls hfits call hsamples).1
      rcases hsettles _ call.position (List.length_pos_of_ne_nil hsome) with
        ⟨taken, htaken, hsuits⟩
      rw [hstalls taken htaken] at hsuits
      cases hsuits

theorem repeatSample_ne_stalled (hsettles : source.Settles) (h : grammar.WellFormed)
    (maxDepth count position stop : ℕ) :
    repeatSample (grammar.sample maxDepth source) count position ≠ .error .stalled stop := by
  intro hstop
  rcases exists_of_repeatSample_eq_error hstop with ⟨place, hone⟩
  exact hsettles.sample_ne_stalled h maxDepth place stop hone

end Source.Settles

end ChomskyNormal
