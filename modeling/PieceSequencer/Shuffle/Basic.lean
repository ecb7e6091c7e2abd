/-! # Shuffles

A random group asks a shuffle for a fresh order whenever it begins a round. A shuffle has a state
of its own, and a draw rewrites a list of indices and moves the state on. That the list keeps
its length is part of the type; that the draw only rearranges it is left to the shuffle, and a
sequence whose shuffle does otherwise stops with a fault. -/

namespace PieceSequencer

/-- A source of orders with states in `σ`. -/
structure Shuffle (σ : Type) where
  draw : (n : Nat) → σ → Vector Nat n → Vector Nat n × σ

namespace Shuffle

/-- A fresh order of `n` places: one draw that begins with the places in their own order. -/
def deal {σ : Type} (shuffle : Shuffle σ) (n : Nat) (state : σ) : Array Nat × σ :=
  let (order, state) := shuffle.draw n state (.range n)
  (order.toArray, state)

@[simp] theorem size_deal {σ : Type} (shuffle : Shuffle σ) (n : Nat) (state : σ) :
    (shuffle.deal n state).1.size = n :=
  (shuffle.draw n state (.range n)).1.size_toArray

/-- Leaves every list as it is. -/
def identity : Shuffle Unit where
  draw := fun _ state order => (order, state)

/-- The same shuffle with a count of the draws made. -/
def counted {σ : Type} (shuffle : Shuffle σ) : Shuffle (σ × Nat) where
  draw := fun n (state, draws) order =>
    let (order, state) := shuffle.draw n state order
    (order, state, draws + 1)

/-- The same shuffle with a record of the draws made: each list that it was given, and what it made
of it. -/
def recorded {σ : Type} (shuffle : Shuffle σ) : Shuffle (σ × List (List Nat × List Nat)) where
  draw := fun n (state, record) order =>
    let (drawn, state) := shuffle.draw n state order
    (drawn, state, record ++ [(order.toList, drawn.toList)])

/-- A draw that only rearranges, whatever the state and the list. -/
def Permuting {σ : Type} (shuffle : Shuffle σ) : Prop :=
  ∀ (n : Nat) (state : σ) (order : Vector Nat n),
    (shuffle.draw n state order).1.toList.Perm order.toList

theorem permuting_identity : identity.Permuting := fun _ _ _ => .refl _

theorem Permuting.counted {σ : Type} {shuffle : Shuffle σ} (h : shuffle.Permuting) :
    shuffle.counted.Permuting := fun n state order => h n state.1 order

theorem Permuting.recorded {σ : Type} {shuffle : Shuffle σ} (h : shuffle.Permuting) :
    shuffle.recorded.Permuting := fun n state order => h n state.1 order

/-- A fresh order names nothing but places. -/
def Inside {σ : Type} (shuffle : Shuffle σ) : Prop :=
  ∀ (n : Nat) (state : σ), ∀ i ∈ (shuffle.deal n state).1, i < n

/-- A fresh order is a rearrangement of the places. -/
theorem Permuting.perm_deal {σ : Type} {shuffle : Shuffle σ} (h : shuffle.Permuting) (n : Nat)
    (state : σ) : (shuffle.deal n state).1.toList.Perm (List.range n) := by
  have hperm := h n state (.range n)
  rw [Vector.toList, Vector.toList, Vector.toArray_range, Array.toList_range] at hperm
  exact hperm

theorem Permuting.inside {σ : Type} {shuffle : Shuffle σ} (h : shuffle.Permuting) :
    shuffle.Inside := by
  intro n state i hi
  have hmem := (h.perm_deal n state).mem_iff.mp (Array.mem_toList_iff.mpr hi)
  exact List.mem_range.mp hmem

/-- The shuffle makes the draws of another one, whose state is what `forget` leaves of its own. -/
def Refines {σ τ : Type} (shuffle' : Shuffle τ) (shuffle : Shuffle σ) (forget : τ → σ) : Prop :=
  ∀ (n : Nat) (state : τ), shuffle.deal n (forget state) =
    ((shuffle'.deal n state).1, forget (shuffle'.deal n state).2)

theorem refines_counted {σ : Type} (shuffle : Shuffle σ) :
    shuffle.counted.Refines shuffle Prod.fst := fun _ _ => rfl

theorem refines_recorded {σ : Type} (shuffle : Shuffle σ) :
    shuffle.recorded.Refines shuffle Prod.fst := fun _ _ => rfl

end Shuffle

end PieceSequencer
