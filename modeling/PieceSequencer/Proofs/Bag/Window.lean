import PieceSequencer.Proofs.Bag.Cursor
import PieceSequencer.Proofs.Catalogue.Keys
import PieceSequencer.Proofs.Pattern.Window

/-! # Bags of distinct pieces

The pattern `[@:m]~` deals the pieces of a catalogue in windows: each of them is a fresh draw of `m`
pieces with different keys, and of all pieces if there are no more than `m`
(`build_deals_windows`).  No piece is then missing for long: wherever one begins, all of them have
come after `2 * m - 1`. -/

namespace PieceSequencer

/-- The `length` pieces of a stream from number `start` on. -/
def window (s : Nat → Piece) (start length : Nat) : List Piece :=
  (List.range' start length).map s

theorem mem_window_iff {s : Nat → Piece} {start length : Nat} {piece : Piece} :
    piece ∈ window s start length ↔ ∃ n, start ≤ n ∧ n < start + length ∧ s n = piece := by
  rw [window, List.mem_map]
  simp only [List.mem_range'_1, and_assoc]

/-- The pieces of a catalogue in windows of `m`: those of a window have different keys, and if `m`
pieces are all there are, they are all in every window, and in any `2 * m - 1` in a row. -/
structure DealsWindows (catalogue : Catalogue) (m : Nat) (s : Nat → Piece) : Prop where
  mem : ∀ n, s n ∈ catalogue.pieces
  nodup : ∀ w, ((window s (w * m) m).map Piece.key).Nodup
  perm : m = catalogue.length → ∀ w, (window s (w * m) m).Perm catalogue.pieces
  recurs : m = catalogue.length → ∀ start, ∀ piece ∈ catalogue.pieces,
    piece ∈ window s start (2 * m - 1)

/-- Wherever one begins, an aligned window begins less than `m` pieces later. -/
theorem mem_window_of_aligned {s : Nat → Piece} {m : Nat} (hpos : 0 < m) {piece : Piece}
    (h : ∀ w, piece ∈ window s (w * m) m) (start : Nat) : piece ∈ window s start (2 * m - 1) := by
  -- the first aligned window from `start` on is number `(start + (m - 1)) / m`
  have hdiv := Nat.div_add_mod (start + (m - 1)) m
  have hmod := Nat.mod_lt (start + (m - 1)) hpos
  obtain ⟨n, hlow, hhigh, hn⟩ := mem_window_iff.mp (h ((start + (m - 1)) / m))
  rw [Nat.mul_comm] at hlow hhigh
  exact mem_window_iff.mpr ⟨n, by omega, by omega, hn⟩

section
variable {σ : Type} {catalogue : Catalogue} {m : Nat} {shuffle : Shuffle σ} {source : σ}
  {s : Nat → Piece}

/-- A window of pieces has the keys of the stops in it. -/
theorem map_key_window {p : Pattern} {start : Nat} {keys : List Char}
    (hs : ∀ n stop, p.stop? shuffle source n = some stop →
      catalogue.find? stop.key = some (s n))
    (hstops : ∀ i < keys.length,
      (p.stop? shuffle source (start + i)).map Stop.key = keys[i]?) :
    (window s start keys.length).map Piece.key = keys := by
  refine List.ext_getElem (by simp [window]) fun i hi hi' => ?_
  have hstop := hstops i hi'
  rw [List.getElem?_eq_getElem hi'] at hstop
  obtain ⟨stop, hstop, hkey⟩ := Option.map_eq_some_iff.mp hstop
  have hpiece : (s (start + i)).key = stop.key := by
    simpa using List.find?_some (hs _ stop hstop)
  simp [window, hpiece, hkey]

/-- The keys of a window are the first `m` of a rearrangement of all keys. -/
theorem exists_keys_window (hperm : shuffle.Permuting) (hpos : 0 < m) (hle : m ≤ catalogue.length)
    (hsize : catalogue.length < UInt32.size)
    (hs : ∀ n stop, (Pattern.windows catalogue.keys m).stop? shuffle source n = some stop →
      catalogue.find? stop.key = some (s n)) (w : Nat) :
    ∃ drawn : List Char, drawn.Perm catalogue.keys ∧
      (window s (w * m) m).map Piece.key = drawn.take m := by
  rw [← Catalogue.length_keys] at hle hsize
  obtain ⟨drawn, hdrawn, hstops⟩ := Pattern.exists_window hperm hpos hle hsize source w
  have hlen : (drawn.take m).length = m := by
    rw [List.length_take, hdrawn.length_eq, Nat.min_eq_left hle]
  have hwindow : (window s (w * m) (drawn.take m).length).map Piece.key = drawn.take m := by
    apply map_key_window hs
    intro i hi
    rw [hlen] at hi
    rw [hstops i hi, List.getElem?_take_of_lt hi]
  rw [hlen] at hwindow
  exact ⟨drawn, hdrawn, hwindow⟩

/-- What is at the stops of the pattern comes in windows. -/
theorem dealsWindows_of_stops (hvalid : catalogue.validate = .ok ()) (hperm : shuffle.Permuting)
    (hpos : 0 < m) (hle : m ≤ catalogue.length)
    (hwf : (Pattern.windows catalogue.keys m).wellFormed catalogue.keys = true)
    (hs : ∀ n stop, (Pattern.windows catalogue.keys m).stop? shuffle source n = some stop →
      catalogue.find? stop.key = some (s n)) : DealsWindows catalogue m s := by
  obtain ⟨-, hnodup, -⟩ := Catalogue.validate_keys hvalid
  have hsize := Catalogue.length_lt_size_of_validate hvalid
  have hmem : ∀ n, s n ∈ catalogue.pieces := by
    intro n
    obtain ⟨stop, hstop⟩ := Pattern.exists_stop? hwf hperm.inside rfl source n
    exact List.mem_of_find?_eq_some (hs n stop hstop)
  have hwindow := exists_keys_window hperm hpos hle hsize hs
  have hall : m = catalogue.length → ∀ w, (window s (w * m) m).Perm catalogue.pieces := by
    intro hm w
    obtain ⟨drawn, hdrawn, hkeys⟩ := hwindow w
    have htake : drawn.take m = drawn :=
      List.take_of_length_le (by rw [hdrawn.length_eq, Catalogue.length_keys, hm])
    refine Catalogue.perm_pieces_of_perm_keys hnodup ?_ ?_
    · intro piece hpiece
      obtain ⟨n, -, -, rfl⟩ := mem_window_iff.mp hpiece
      exact hmem n
    · rwa [hkeys, htake]
  refine ⟨hmem, ?_, hall, ?_⟩
  · intro w
    obtain ⟨drawn, hdrawn, hkeys⟩ := hwindow w
    rw [hkeys]
    exact (hdrawn.nodup_iff.mpr hnodup).sublist (List.take_sublist _ _)
  · intro hm start piece hpiece
    exact mem_window_of_aligned hpos (fun w => (hall hm w).mem_iff.mpr hpiece) start

end

namespace Bag
variable {σ : Type}

/-- **Bags of distinct pieces.**  Over a valid catalogue the pattern `[@:m]~`, or `[@]~` for all
pieces, is an endless stream of windows, however it is read. -/
theorem build_deals_windows {catalogue : Catalogue} {m : Nat} {text : String} {shuffle : Shuffle σ}
    (hvalid : catalogue.validate = .ok ()) (hpos : 0 < m) (hle : m ≤ catalogue.length)
    (htext : text = windowText m ∨ text = standardPattern ∧ m = catalogue.length)
    (hperm : shuffle.Permuting) (source : σ) :
    ∃ (bag : Bag σ) (s : Nat → Piece), build catalogue text shuffle source = .ok bag ∧
      (∀ n, (bag.afterPicks n).pick.2 = .ok (s n)) ∧
      (∀ requests : List Request, (serveAll serve bag requests).2 =
        (serveAll (Cursor.serve s ⊤) .start requests).2) ∧
      DealsWindows catalogue m s := by
  obtain ⟨hne, -, -⟩ := Catalogue.validate_keys hvalid
  have hsize : catalogue.keys.length < UInt32.size := by
    rw [Catalogue.length_keys]
    exact Catalogue.length_lt_size_of_validate hvalid
  have hread : Pattern.ofText catalogue.keys text = .ok (.windows catalogue.keys m) := by
    rcases htext with rfl | ⟨rfl, rfl⟩
    · exact Pattern.ofText_windowText hpos (by rwa [Catalogue.length_keys]) hsize
    · rw [← Catalogue.length_keys]
      exact Pattern.ofText_standardPattern hne hsize
  have hcount := Pattern.countable_windows (m := m) hsize
  have hwf := Pattern.wellFormed_of_ofText hread hcount
  obtain ⟨bag, course, hbuild, rfl, rfl, hfollows⟩ :=
    build_course hvalid hread hcount hperm.inside source
  have hend : course.count = ⊤ := hfollows.count_eq
  refine ⟨bag, course.pieces, hbuild, ?_, ?_, ?_⟩
  · intro n
    exact course.pick_afterPicks_of_lt hfollows.buffer_eq (hend ▸ ENat.natCast_lt_top n)
  · intro requests
    rw [← hend]
    exact (hfollows.serveAll (fun _ _ => rfl) requests).2.1
  · exact dealsWindows_of_stops hvalid hperm hpos hle hwf hfollows.find?_eq

/-- The standard bag, and bags of three of the standard pieces. -/
theorem standard_deals_windows :
    (∃ (bag : Bag Congruential) (s : Nat → Piece), Bag.standard 42 = .ok bag ∧
      (∀ requests : List Request, (serveAll serve bag requests).2 =
        (serveAll (Cursor.serve s ⊤) .start requests).2) ∧
      ∀ w, (window s (w * 7) 7).Perm Catalogue.standard.pieces) ∧
    ∃ (bag : Bag Congruential) (s : Nat → Piece),
      Bag.seeded .standard "[@:3]~" 42 = .ok bag ∧
      ∀ w, ((window s (w * 3) 3).map Piece.key).Nodup := by
  have hvalid : Catalogue.standard.validate = .ok () := by decide +kernel
  have htext : "[@:3]~" = windowText 3 := by decide +kernel
  constructor
  · obtain ⟨bag, s, hbuild, -, hserved, hwindows⟩ := build_deals_windows (m := 7) hvalid
      (by decide) (by decide) (.inr ⟨rfl, rfl⟩) Congruential.permuting_shuffle (.ofSeed 42)
    exact ⟨bag, s, hbuild, hserved, hwindows.perm rfl⟩
  · obtain ⟨bag, s, hbuild, -, -, hwindows⟩ := build_deals_windows (m := 3) hvalid
      (by decide) (by decide) (.inl htext) Congruential.permuting_shuffle (.ofSeed 42)
    exact ⟨bag, s, hbuild, hwindows.nodup⟩

end Bag

end PieceSequencer
