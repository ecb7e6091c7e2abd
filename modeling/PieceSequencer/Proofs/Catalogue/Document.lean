import PieceSequencer.Catalogue.Document
import PieceSequencer.Catalogue.Standard
import PieceSequencer.Proofs.Json.Recovery

/-! # Stored catalogues read back

With any codec that obeys the laws, what is written of a point, a shape, a piece or a catalogue is
read as just that, if every coordinate is finite and comes back.  A coordinate that is not finite is
missing from the text, and reading the catalogue finds that out.  So a catalogue survives being
stored just if it can, and no other catalogue ever comes back in its place
(`Catalogue.ofText_toText_iff_finite`). -/

namespace PieceSequencer

open Json (Codec outcome)

/-! ### The parts of a catalogue -/

def Point.coordinates (p : Point) : List Binary64 := [p.x, p.y]

/-- All points of a shape. -/
def Shape.points (shape : Shape) : List Point := shape.blocks ++ shape.pivot :: shape.origin.toList

/-- All points of a piece: its blocks, its pivot, its origin if it has one, and its spawn offset. -/
def Piece.points (piece : Piece) : List Point := piece.shape.points ++ [piece.spawnOffset]

section
variable {codec : Codec} {Reads : ∀ {α : Type}, codec.Reader α → Json → Except Json.Fault α → Prop}
  (hlaws : codec.Laws Reads)
include hlaws

theorem Point.reads_toJson {p : Point} (h : ∀ v ∈ p.coordinates, codec.Keeps v) :
    Reads (Point.reader codec) p.toJson (outcome p.isFinite p) := by
  obtain ⟨hx, hy⟩ : codec.Keeps p.x ∧ codec.Keeps p.y := by simpa [coordinates] using h
  have htakes : (form codec).Takes Reads (form codec).start
      [("x", .number p.x), ("y", .number p.y)]
      (outcome (p.x.isFinite && (p.y.isFinite && true)) ⟨some p.x, some p.y⟩) :=
    .outcome_cons rfl rfl (hlaws.reads_number hx)
      (.outcome_cons rfl rfl (hlaws.reads_number hy) (.nil _))
  rw [Bool.and_true] at htakes
  exact hlaws.reads_record htakes rfl

namespace Shape

/-- An origin is taken up if it is there. -/
theorem takes_origin {blocks : Option { blocks : List Point // blocks.length ≤ maxBlocks }}
    {pivot origin : Option Point} (h : ∀ p ∈ origin, ∀ v ∈ p.coordinates, codec.Keeps v) :
    (form codec).Takes Reads ⟨blocks, pivot, none⟩
      (origin.toList.map fun origin => ("origin", origin.toJson))
      (outcome (origin.toList.all Point.isFinite) ⟨blocks, pivot, origin.map some⟩) := by
  cases origin with
  | none => exact .nil _
  | some origin =>
      have horigin := hlaws.reads_optional (origin.reads_toJson hlaws (h origin rfl))
      exact .outcome_cons rfl rfl horigin (.nil _)

theorem reads_toJson {shape : Shape}
    (h : ∀ p ∈ shape.points, ∀ v ∈ p.coordinates, codec.Keeps v) :
    Reads (Shape.reader codec) shape.toJson (outcome (shape.points.all Point.isFinite) shape) := by
  obtain ⟨blocks, pivot, origin, hlength⟩ := shape
  obtain ⟨hblocks, hothers⟩ := List.forall_mem_append.mp h
  obtain ⟨hpivot, horigin⟩ := List.forall_mem_cons.mp hothers
  have hread := hlaws.reads_bounded (fun p hp => p.reads_toJson hlaws (hblocks p hp)) hlength
  have htakes : (form codec).Takes Reads (form codec).start
      (("blocks", .array (blocks.map Point.toJson)) :: ("rotation_pivot", pivot.toJson) :: _)
      (outcome (blocks.all Point.isFinite && (pivot.isFinite && origin.toList.all Point.isFinite))
        ⟨some ⟨blocks, hlength⟩, some pivot, origin.map some⟩) :=
    .outcome_cons rfl rfl hread (.outcome_cons rfl rfl (pivot.reads_toJson hlaws hpivot)
      (takes_origin hlaws (by simpa using horigin)))
  rw [points, List.all_append]
  refine hlaws.reads_record htakes ?_
  cases origin <;> rfl

end Shape

theorem Piece.reads_toJson {piece : Piece}
    (h : ∀ p ∈ piece.points, ∀ v ∈ p.coordinates, codec.Keeps v) :
    Reads (Piece.reader codec) piece.toJson (outcome (piece.points.all Point.isFinite) piece) := by
  obtain ⟨hshape, hoffset⟩ := List.forall_mem_append.mp h
  have htakes : (form codec).Takes Reads (form codec).start [("key", .text piece.key.toString),
      ("shape", piece.shape.toJson), ("spawn_offset", piece.spawnOffset.toJson)]
      (outcome (true && (piece.shape.points.all Point.isFinite &&
        (piece.spawnOffset.isFinite && true)))
        ⟨some piece.key, some piece.shape, some piece.spawnOffset⟩) :=
    .outcome_cons rfl rfl (hlaws.character piece.key)
      (.outcome_cons rfl rfl (piece.shape.reads_toJson hlaws hshape)
        (.outcome_cons rfl rfl
          (piece.spawnOffset.reads_toJson hlaws (hoffset _ (List.mem_singleton_self _)))
          (.nil _)))
  rw [points, List.all_append]
  exact hlaws.reads_record htakes rfl

end

/-! ### Equality -/

theorem Point.equal_self {p : Point} (h : p.isFinite = true) : p.equal p = true := by
  rw [isFinite, Bool.and_eq_true] at h
  rw [equal, Binary64.equal_self h.1, Binary64.equal_self h.2]
  rfl

theorem Shape.equalBlocks_self {points : List Point} (h : ∀ p ∈ points, p.isFinite = true) :
    equalBlocks points points = true := by
  induction points with
  | nil => rfl
  | cons p points ih =>
      obtain ⟨hp, hpoints⟩ := List.forall_mem_cons.mp h
      rw [equalBlocks, Point.equal_self hp, ih hpoints]
      rfl

theorem Shape.equal_self {shape : Shape} (h : ∀ p ∈ shape.points, p.isFinite = true) :
    shape.equal shape = true := by
  obtain ⟨hblocks, hothers⟩ := List.forall_mem_append.mp h
  obtain ⟨hpivot, horigin⟩ := List.forall_mem_cons.mp hothers
  have hsame : equalOrigin shape.origin shape.origin = true := by
    cases hcase : shape.origin with
    | none => rfl
    | some origin => exact Point.equal_self (horigin origin (by simp [hcase]))
  rw [equal, equalBlocks_self hblocks, Point.equal_self hpivot, hsame]
  rfl

theorem Piece.equal_self {piece : Piece} (h : ∀ p ∈ piece.points, p.isFinite = true) :
    piece.equal piece = true := by
  obtain ⟨hshape, hoffset⟩ := List.forall_mem_append.mp h
  rw [equal, Shape.equal_self hshape, Point.equal_self (hoffset _ (List.mem_singleton_self _))]
  simp

/-! ### Catalogues -/

namespace Catalogue

/-- Every coordinate of every block, pivot, origin and spawn offset. -/
def coordinates (c : Catalogue) : List Binary64 :=
  c.pieces.flatMap fun piece => piece.points.flatMap Point.coordinates

/-- Every coordinate is finite. -/
def Finite (c : Catalogue) : Prop := ∀ v ∈ c.coordinates, v.isFinite = true

theorem forall_mem_coordinates {c : Catalogue} {P : Binary64 → Prop} :
    (∀ v ∈ c.coordinates, P v) ↔
      ∀ piece ∈ c.pieces, ∀ p ∈ piece.points, ∀ v ∈ p.coordinates, P v := by
  simp only [coordinates, List.mem_flatMap]
  constructor
  · exact fun h piece hpiece p hp v hv => h v ⟨piece, hpiece, p, hp, hv⟩
  · rintro h v ⟨piece, hpiece, p, hp, hv⟩
    exact h piece hpiece p hp v hv

theorem finite_iff {c : Catalogue} :
    c.Finite ↔ ∀ piece ∈ c.pieces, ∀ p ∈ piece.points, p.isFinite = true := by
  rw [Finite, forall_mem_coordinates]
  simp only [Point.coordinates, Point.isFinite, List.forall_mem_cons, Bool.and_eq_true,
    List.not_mem_nil, false_imp_iff, implies_true, and_true]

/-- A stored catalogue reads as itself if all its coordinates are finite. -/
theorem ofText_toText {codec : Codec}
    {Reads : ∀ {α : Type}, codec.Reader α → Json → Except Json.Fault α → Prop}
    (hlaws : codec.Laws Reads) {c : Catalogue} (h : ∀ v ∈ c.coordinates, codec.Keeps v) :
    ofText (c.toText codec) codec = outcome (c.pieces.all (·.points.all Point.isFinite)) c := by
  have hpieces := hlaws.document (hlaws.reads_array fun (piece : Piece) hpiece =>
    piece.reads_toJson hlaws (forall_mem_coordinates.mp h piece hpiece))
  rw [ofText, toText, toJson, hpieces]
  cases c.pieces.all (·.points.all Point.isFinite) <;> rfl

theorem all_isFinite_iff (c : Catalogue) :
    c.pieces.all (·.points.all Point.isFinite) = true ↔ c.Finite := by
  simp only [List.all_eq_true, finite_iff]

theorem Finite.equal_self {c : Catalogue} (h : c.Finite) : c.equal c = true := by
  have hpoints := finite_iff.mp h
  obtain ⟨pieces⟩ := c
  unfold equal
  induction pieces with
  | nil => rfl
  | cons piece pieces ih =>
      obtain ⟨hpiece, hpieces⟩ := List.forall_mem_cons.mp hpoints
      rw [equalPieces, Piece.equal_self hpiece, Bool.true_and]
      exact ih (finite_iff.mpr hpieces) hpieces

/-- **A catalogue survives being stored just if it can.**  The codec obeys the laws, and the finite
coordinates come back.  If every coordinate is finite, what comes back is the catalogue itself.
Otherwise nothing comes back but the fault of a number that is not there, and never another
catalogue. -/
theorem ofText_toText_iff_finite {codec : Codec}
    {Reads : ∀ {α : Type}, codec.Reader α → Json → Except Json.Fault α → Prop}
    (hlaws : codec.Laws Reads) (c : Catalogue) (hkeeps : ∀ v ∈ c.coordinates, codec.Keeps v) :
    ((∃ c', ofText (c.toText codec) codec = .ok c' ∧ c'.equal c = true) ↔ c.Finite) ∧
    (∀ c', ofText (c.toText codec) codec = .ok c' → c' = c) ∧
    (¬ c.Finite →
      ofText (c.toText codec) codec = .error (.mismatch (.wrongKind .null "f64"))) := by
  have hread := ofText_toText hlaws hkeeps
  by_cases h : c.Finite
  · rw [c.all_isFinite_iff.mpr h] at hread
    refine ⟨iff_of_true ⟨c, hread, h.equal_self⟩ h, fun c' hc' => ?_, fun hnot => absurd h hnot⟩
    exact Except.ok.inj (hc'.symm.trans hread)
  · rw [Bool.eq_false_iff.mpr (mt c.all_isFinite_iff.mp h)] at hread
    have hno : ∀ c', ofText (c.toText codec) codec ≠ .ok c' := by
      intro c' hc'
      rw [hread] at hc'
      cases hc'
    exact ⟨iff_of_false (fun ⟨c', hc', _⟩ => hno c' hc') h, fun c' hc' => absurd hc' (hno c'),
      fun _ => hread⟩

/-- The standard catalogue comes back, and a piece with an endless origin does not. -/
theorem standard_ofText_toText :
    let endless : Catalogue :=
      ⟨[⟨'"', (Shape.ofBlocks [.zero] .zero).withOrigin ⟨.infinite true, .zero⟩, .zero⟩]⟩
    Json.codec.Laws Json.Recovers ∧
    (∀ v ∈ standard.coordinates ++ endless.coordinates, Json.codec.Keeps v) ∧
    (∃ c', ofText standard.toText = .ok c' ∧ c'.equal .standard = true) ∧
    ofText endless.toText = .error (.mismatch (.wrongKind .null "f64")) := by
  intro endless
  have hkeeps : ∀ c : Catalogue, ∀ v ∈ c.coordinates, Json.codec.Keeps v :=
    fun _ v _ => Json.codec_keeps v
  obtain ⟨hstandard, -, -⟩ := ofText_toText_iff_finite Json.codec_laws standard (hkeeps _)
  obtain ⟨-, -, hendless⟩ := ofText_toText_iff_finite Json.codec_laws endless (hkeeps _)
  refine ⟨Json.codec_laws, fun v _ => Json.codec_keeps v, hstandard.mpr ?_, hendless ?_⟩
  · unfold Finite
    decide +kernel
  · unfold Finite
    decide +kernel

end Catalogue

end PieceSequencer
