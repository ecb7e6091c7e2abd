import PieceSequencer.Proofs.Binary64.HalfIntegral
import PieceSequencer.Proofs.Catalogue.Validation

/-! # Which pivots are let through

A pivot is good if both coordinates are whole or both are half-integral.  The check of the second
kind subtracts before it looks, so what passes is settled by `Binary64.isHalfIntegral_iff`: the
half-integral numbers, and a few that rounding makes so (`isHalfIntegral_and_pivot_iff`). -/

namespace PieceSequencer

open Binary64 (TakenForHalfway isIntegral_iff isHalfIntegral_iff isHalfIntegral_right_iff
  isIntegral_and_isHalfIntegral_iff)

/-- Both coordinates have values, and these satisfy `P`. -/
def Point.Both (P : ℚ → Prop) (p : Point) : Prop :=
  (∃ x, p.x.toRat? = some x ∧ P x) ∧ ∃ y, p.y.toRat? = some y ∧ P y

theorem Point.isGridCenter_iff (p : Point) : p.isGridCenter = true ↔ p.Both IsWhole := by
  rw [isGridCenter, Bool.and_eq_true, isIntegral_iff, isIntegral_iff, Both]

theorem Point.isLatticePoint_iff (p : Point) :
    p.isLatticePoint = true ↔ p.Both fun q => IsHalfway q ∨ TakenForHalfway q := by
  rw [isLatticePoint, Bool.and_eq_true, isHalfIntegral_iff, isHalfIntegral_iff, Both]

/-- The same piece with another pivot. -/
def Piece.withPivot (piece : Piece) (pivot : Point) : Piece :=
  { piece with shape := { piece.shape with pivot } }

namespace Catalogue
variable {front back : List Piece} {piece : Piece} {pivot : Point}

/-- What holds of all pieces still does after one of them gets another pivot. -/
theorem forall_withPivot {P : Piece → Prop} (h : ∀ other ∈ front ++ piece :: back, P other)
    (hpiece : P piece → P (piece.withPivot pivot)) :
    ∀ other ∈ front ++ piece.withPivot pivot :: back, P other := by
  rw [List.forall_mem_append, List.forall_mem_cons] at h ⊢
  exact ⟨h.1, hpiece h.2.1, h.2.2⟩

/-- In a sound catalogue a pivot can be replaced just by one that fits. -/
theorem sound_withPivot_iff (h : Sound ⟨front ++ piece :: back⟩) :
    Sound ⟨front ++ piece.withPivot pivot :: back⟩ ↔
      pivot.isGridCenter = true ∨ pivot.isLatticePoint = true := by
  constructor
  · intro hsound
    exact hsound.pivots (piece.withPivot pivot) (List.mem_append_right _ List.mem_cons_self)
  · intro hfits
    have hkeys : keys ⟨front ++ piece.withPivot pivot :: back⟩ = keys ⟨front ++ piece :: back⟩ := by
      simp only [keys, List.map_append, List.map_cons]
      rfl
    exact
      { nonempty := List.append_ne_nil_of_right_ne_nil _ (List.cons_ne_nil _ _)
        allowed := forall_withPivot h.allowed id
        distinct := hkeys ▸ h.distinct
        offsets := forall_withPivot h.offsets id
        blocks := forall_withPivot h.blocks id
        pivots := forall_withPivot h.pivots fun _ => hfits
        origins := forall_withPivot h.origins id }

/-- **Half-integral up to rounding.**  What the check takes for half-integral is so, or beyond
`2 ^ 52`, or a negative neighbour of a half-integral number at a power of two; about these, and
no others, the check is wrong.  Beyond `2 ^ 52`, and only there, a number is taken for whole and
for half-integral.  Validation lets a pivot through just if both coordinates are whole or both are
taken for half-integral. -/
theorem isHalfIntegral_and_pivot_iff (v : Binary64) :
    (v.isHalfIntegral = true ↔ ∃ q, v.toRat? = some q ∧ (IsHalfway q ∨ TakenForHalfway q)) ∧
    ((v.isHalfIntegral = true ↔ ∃ q, v.toRat? = some q ∧ IsHalfway q) ↔
      ∀ q, v.toRat? = some q → ¬ TakenForHalfway q) ∧
    (v.isIntegral = true ∧ v.isHalfIntegral = true ↔
      ∃ q, v.toRat? = some q ∧ (2 ^ 52 < q ∨ q ≤ -2 ^ 52)) ∧
    ∀ front piece back pivot, validate ⟨front ++ piece :: back⟩ = .ok () →
      (validate ⟨front ++ piece.withPivot pivot :: back⟩ = .ok () ↔
        pivot.Both IsWhole ∨ pivot.Both fun q => IsHalfway q ∨ TakenForHalfway q) := by
  refine ⟨isHalfIntegral_iff v, isHalfIntegral_right_iff v, isIntegral_and_isHalfIntegral_iff v, ?_⟩
  intro front piece back pivot h
  rw [validate_eq_ok_iff, sound_withPivot_iff (validate_eq_ok_iff.mp h), pivot.isGridCenter_iff,
    pivot.isLatticePoint_iff]

/-- The neighbour of `-1 / 2` towards zero. -/
def nearMinusHalf : Binary64 :=
  .finite true ⟨2 ^ 53 - 1, -54, by decide, by decide, by decide, by decide⟩

/-- A catalogue of one piece with one block that turns about a given point. -/
def turning (pivot : Point) : Catalogue := ⟨[⟨'T', .ofBlocks [.zero] pivot, .zero⟩]⟩

theorem pivot_nearMinusHalf_iff :
    validate (turning .zero) = .ok () ∧
    (nearMinusHalf.isHalfIntegral = true ↔
      ∃ q, nearMinusHalf.toRat? = some q ∧ (IsHalfway q ∨ TakenForHalfway q)) ∧
    (validate (turning ⟨nearMinusHalf, .nearest (1 / 2)⟩) = .ok () ↔
      Point.Both IsWhole ⟨nearMinusHalf, .nearest (1 / 2)⟩ ∨
        Point.Both (fun q => IsHalfway q ∨ TakenForHalfway q)
          ⟨nearMinusHalf, .nearest (1 / 2)⟩) := by
  have hsound : validate (turning .zero) = .ok () := by decide +kernel
  obtain ⟨htaken, -, -, hpivot⟩ := isHalfIntegral_and_pivot_iff nearMinusHalf
  exact ⟨hsound, htaken, hpivot [] ⟨'T', .ofBlocks [.zero] .zero, .zero⟩ []
    ⟨nearMinusHalf, .nearest (1 / 2)⟩ hsound⟩

theorem toRat?_nearMinusHalf : nearMinusHalf.toRat? = some (-(1 / 2 - 1 / 2 ^ 54)) := by
  simp only [nearMinusHalf, Binary64.toRat?, Magnitude.toRat, if_true]
  norm_num

/-- The neighbour of `-1 / 2` towards zero is not half-integral, but it is taken for it, and
makes a pivot that is let through. -/
theorem nearMinusHalf_taken_for_halfway :
    nearMinusHalf.isHalfIntegral = true ∧
    (¬ ∃ q, nearMinusHalf.toRat? = some q ∧ IsHalfway q) ∧
    validate (turning ⟨nearMinusHalf, .nearest (1 / 2)⟩) = .ok () := by
  refine ⟨by decide +kernel, ?_, by decide +kernel⟩
  rintro ⟨q, hq, hhalf⟩
  obtain rfl := Option.some.inj (toRat?_nearMinusHalf.symm.trans hq)
  rw [isHalfway_iff_sub] at hhalf
  exact not_isWhole_of_lt (n := -1) (by norm_num) (by norm_num) hhalf

end Catalogue
end PieceSequencer
