/-!
# Sources of random numbers

A source is an endless sequence of 32-bit numbers. Whoever draws from it keeps the position
of the next number, so a draw is a function and two draws from one position agree.

- `Source.choose` : an even choice among some items;
- `Source.ofSeed` : the numbers that follow from a seed;
- `Source.ofArray` : given numbers, and zeros after them.
-/

namespace ChomskyNormal

/-- An endless sequence of numbers. A single choice gives up after `patience` of them. -/
structure Source where
  number : Nat → UInt32
  patience : Nat

namespace Source

/-! ## Choosing -/

/-- The greatest low word that keeps a choice among `count` items even: `count`, shifted until
its highest bit is the top one of a word, less one. -/
def zone (count : Nat) : Nat :=
  count <<< (31 - count.log2) - 1

/-- Whether a number suits a choice among `count` items: the low word of their product lies in
the zone. -/
def suits (count : Nat) (number : UInt32) : Bool :=
  number.toNat * count % UInt32.size ≤ zone count

/-- The index that a number chooses among `count` items: the high word of their product. -/
def index (count : Nat) (number : UInt32) : Nat :=
  number.toNat * count / UInt32.size

/-- Takes numbers until one suits. The index comes with the position after that number. -/
def chooseIndex (number : Nat → UInt32) (count : Nat) : Nat → Nat → Option (Nat × Nat)
  | 0, _ => none
  | patience + 1, position =>
      if suits count (number position) then
        some (index count (number position), position + 1)
      else
        chooseIndex number count patience (position + 1)

def choose {α : Type} (source : Source) (items : List α) (position : Nat) : Option (α × Nat) :=
  match chooseIndex source.number items.length source.patience position with
  | none => none
  | some (chosen, next) => items[chosen]?.map (·, next)

/-- Every choice ends: among as many numbers as the source has patience, one suits. -/
def Settles (source : Source) : Prop :=
  ∀ count position, 0 < count →
    ∃ taken < source.patience, suits count (source.number (position + taken)) = true

/-- The high word of a product with `count` is below `count`. -/
theorem index_lt {count : Nat} (h : 0 < count) (number : UInt32) : index count number < count := by
  rw [index, Nat.div_lt_iff_lt_mul (by decide), Nat.mul_comm count]
  exact Nat.mul_lt_mul_of_pos_right number.toNat_lt_size h

theorem suits_zero (count : Nat) : suits count 0 = true := by
  simp [suits]

/-! ## Particular sources -/

def scramble (word : UInt64) : UInt64 :=
  let first := (word ^^^ (word >>> 30)) * 0xBF58476D1CE4E5B9
  let second := (first ^^^ (first >>> 27)) * 0x94D049BB133111EB
  second ^^^ (second >>> 31)

/-- The step between the words that a seeded source scrambles. It is odd, so all 64-bit
words occur before one recurs. -/
def stride : UInt64 := 0x9E3779B97F4A7C15

/-- The upper halves of scrambled words, which start at the seed and go on in even steps. A
number that suits a choice comes within one round through all words. -/
def ofSeed (seed : UInt64) : Source where
  number position := (scramble (seed + UInt64.ofNat (position + 1) * stride) >>> 32).toUInt32
  patience := UInt64.size

/-- The given numbers, then zeros. Zero suits every choice. -/
def ofArray (numbers : Array UInt32) : Source where
  number position := numbers.getD position 0
  patience := numbers.size + 1

end Source

end ChomskyNormal
