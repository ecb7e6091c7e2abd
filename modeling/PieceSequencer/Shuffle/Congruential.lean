import PieceSequencer.Shuffle.Basic

/-! # The seeded shuffle

A linear congruential generator of 32-bit words, and the exchange shuffle that it drives: from the
last place down to the second, the element in a place is exchanged with the one in a random
place no further on. -/

namespace PieceSequencer

/-- A linear congruential generator; its last word is all it remembers. -/
structure Congruential where
  state : UInt32
  deriving DecidableEq, Repr

namespace Congruential

/-- The generator of a seed. Seed zero stands for one. -/
def ofSeed (seed : UInt32) : Congruential := ⟨if seed = 0 then 1 else seed⟩

instance : Inhabited Congruential := ⟨ofSeed 1⟩

/-- The factor from a word to the next. -/
def multiplier : UInt32 := 1664525

/-- The summand from a word to the next. -/
def increment : UInt32 := 1013904223

/-- The generator after one more word, which is its state. -/
def advance (g : Congruential) : Congruential := ⟨g.state * multiplier + increment⟩

/-- The next word, and the generator behind it. -/
def next (g : Congruential) : UInt32 × Congruential := (g.advance.state, g.advance)

/-- The next word reduced below `bound`, or none if the bound is zero. The word is used up either
way. -/
def below? (g : Congruential) (bound : UInt32) : Option UInt32 × Congruential :=
  let (word, g) := g.next
  (if bound = 0 then none else some (word % bound), g)

/-- Exchanges each of the places `last`, …, `1` with a random place no further on. It stops at a
draw that is refused, for which `2 ^ 32` places are wanted. -/
def exchange {α : Type} {n : Nat} : Nat → Congruential → Vector α n → Vector α n × Congruential
  | 0, g, order => (order, g)
  | last + 1, g, order =>
    match g.below? (UInt32.ofNat (last + 2)) with
    | (some place, g) => exchange last g (order.swapIfInBounds (last + 1) place.toNat)
    | (none, g) => (order, g)

/-- Rearranges a whole list. -/
def rearrange {α : Type} {n : Nat} (g : Congruential) (order : Vector α n) :
    Vector α n × Congruential :=
  exchange (n - 1) g order

/-- The generator as a shuffle. -/
def shuffle : Shuffle Congruential where
  draw := fun _ g order => g.rearrange order

/-- An exchange of two places rearranges. -/
theorem perm_swapIfInBounds {α : Type} {n : Nat} (order : Vector α n) (i j : Nat) :
    (order.swapIfInBounds i j).toList.Perm order.toList := by
  have hperm : (order.toArray.swapIfInBounds i j).Perm order.toArray := by
    rw [Array.swapIfInBounds_def]
    split
    · split
      · exact Array.swap_perm _ _
      · exact .refl _
    · exact .refl _
  exact Array.perm_iff_toList_perm.mp hperm

theorem perm_exchange {α : Type} {n : Nat} (last : Nat) (g : Congruential) (order : Vector α n) :
    (exchange last g order).1.toList.Perm order.toList := by
  induction last generalizing g order with
  | zero => exact .refl _
  | succ last ih =>
    rw [exchange]
    split
    · exact (ih _ _).trans (perm_swapIfInBounds order _ _)
    · exact .refl _

theorem permuting_shuffle : shuffle.Permuting := fun n g order => perm_exchange (n - 1) g order

theorem below?_of_ne_zero (g : Congruential) {bound : UInt32} (hbound : bound ≠ 0) :
    g.below? bound = (some (g.advance.state % bound), g.advance) :=
  congrArg (·, g.advance) (if_neg hbound)

@[simp] theorem next_fst (g : Congruential) : g.next.1 = g.advance.state := rfl

@[simp] theorem next_snd (g : Congruential) : g.next.2 = g.advance := rfl

end Congruential

end PieceSequencer
