import Mathlib.Data.List.Nodup
import Mathlib.Data.List.Perm.Subperm
import PieceSequencer.Proofs.Catalogue.Validation
import PieceSequencer.Proofs.Pattern.Scanning

/-! # Keys of a valid catalogue

Validation sees to it that there is a piece and that keys are allowed and distinct
(`validate_keys`).  A key then names one piece only, so pieces can be told by their keys
(`perm_pieces_of_perm_keys`).  Allowed keys are graphic characters, of which there are few, so a
valid catalogue is small (`length_lt_size_of_validate`). -/

namespace PieceSequencer.Catalogue

variable {c : Catalogue}

/-- There is a key, and keys are distinct and allowed. -/
theorem validate_keys (h : c.validate = .ok ()) :
    c.keys ≠ [] ∧ c.keys.Nodup ∧ ∀ key ∈ c.keys, isAllowedKey key = true := by
  have hsound := validate_eq_ok_iff.mp h
  refine ⟨?_, hsound.distinct, List.forall_mem_map.mpr hsound.allowed⟩
  rw [keys, ne_eq, List.map_eq_nil_iff]
  exact hsound.nonempty

/-! ### Pieces by their keys -/

theorem find?_key_of_mem (h : c.keys.Nodup) {piece : Piece} (hpiece : piece ∈ c.pieces) :
    c.find? piece.key = some piece := by
  cases hfind : c.find? piece.key with
  | none =>
      have hno := List.find?_eq_none.mp hfind piece hpiece
      simp at hno
  | some other =>
      have hkey : other.key = piece.key := by simpa using List.find?_some hfind
      have hother : other ∈ c.pieces := List.mem_of_find?_eq_some hfind
      rw [List.inj_on_of_nodup_map h hother hpiece hkey]

/-- Pieces of the catalogue are those of their keys. -/
theorem filterMap_find?_map_key (h : c.keys.Nodup) {pieces : List Piece}
    (hpieces : ∀ piece ∈ pieces, piece ∈ c.pieces) :
    (pieces.map Piece.key).filterMap c.find? = pieces := by
  have hfind : ∀ piece ∈ pieces, (c.find? ∘ Piece.key) piece = some piece :=
    fun piece hpiece => find?_key_of_mem h (hpieces piece hpiece)
  rw [List.filterMap_map, List.filterMap_congr hfind, List.filterMap_some]

/-- Pieces with all keys, each once, are all pieces, each once. -/
theorem perm_pieces_of_perm_keys (h : c.keys.Nodup) {pieces : List Piece}
    (hpieces : ∀ piece ∈ pieces, piece ∈ c.pieces) (hkeys : (pieces.map Piece.key).Perm c.keys) :
    pieces.Perm c.pieces := by
  have hperm := hkeys.filterMap c.find?
  rwa [filterMap_find?_map_key h hpieces, keys, filterMap_find?_map_key h fun _ => id] at hperm

/-! ### How many keys there are -/

/-- Distinct graphic characters are not more than there are codes below 127. -/
theorem length_le_of_isGraphic {keys : List Char} (hnodup : keys.Nodup)
    (h : ∀ key ∈ keys, isGraphic key = true) : keys.length ≤ 127 := by
  have hcodes : keys ⊆ (List.range 127).map Char.ofNat := by
    intro key hkey
    have hgraphic := h key hkey
    simp only [isGraphic, Bool.and_eq_true, decide_eq_true_eq] at hgraphic
    have hlt : key.toNat < 127 := Nat.lt_succ_of_le hgraphic.2
    exact List.mem_map.mpr ⟨key.toNat, List.mem_range.mpr hlt, Char.ofNat_toNat key⟩
  have hlen := (List.Nodup.subperm hnodup hcodes).length_le
  rwa [List.length_map, List.length_range] at hlen

/-- The pieces of a valid catalogue can be counted with 32 bits. -/
theorem length_lt_size_of_validate (h : c.validate = .ok ()) : c.length < UInt32.size := by
  obtain ⟨-, hnodup, hkeys⟩ := validate_keys h
  have hle := length_le_of_isGraphic hnodup fun key hkey =>
    isGraphic_of_isAllowedKey (hkeys key hkey)
  rw [length_keys] at hle
  exact Nat.lt_of_le_of_lt hle (by decide)

end PieceSequencer.Catalogue
