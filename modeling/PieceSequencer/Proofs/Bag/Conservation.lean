import PieceSequencer.Proofs.Bag.Course
import PieceSequencer.Proofs.Catalogue.Keys
import PieceSequencer.Proofs.Pattern.Tally

/-! # No piece is lost or duplicated

A pattern that ends hands out a list of pieces (`Bag.Empties`), whose keys are those of its stops.
So what is known of how often a passage stops at a key holds of whole bags: the pieces come as often
as the repeats above them say, or less often if random groups leave children out, and where none is
left out two shuffles only differ in the order (`Bag.build_conserves_pieces`). -/

namespace PieceSequencer
namespace Bag
variable {σ τ : Type}

/-- Picking empties the bag, and these are the pieces that come out of it. -/
structure Empties (bag : Bag σ) (pieces : List Piece) : Prop where
  pick_eq : ∀ n (h : n < pieces.length), (bag.afterPicks n).pick.2 = .ok pieces[n]
  exhausted : (bag.afterPicks pieces.length).pick.2 = .error .exhausted

/-- A bag of a pattern that ends is emptied at the stops of the pattern. -/
theorem build_empties {catalogue : Catalogue} {text : String} {p : Pattern} {shuffle : Shuffle σ}
    (hvalid : catalogue.validate = .ok ()) (hread : Pattern.ofText catalogue.keys text = .ok p)
    (hcount : p.countable = true) (hf : p.forever = false) (hin : shuffle.Inside) (source : σ) :
    ∃ (bag : Bag σ) (pieces : List Piece), build catalogue text shuffle source = .ok bag ∧
      bag.Empties pieces ∧ (∀ piece ∈ pieces, piece ∈ catalogue.pieces) ∧
      pieces.map Piece.key = (p.passage shuffle 0 source).1.map Stop.key := by
  obtain ⟨bag, course, hbuild, rfl, rfl, hfollows⟩ :=
    build_course hvalid hread hcount hin source
  generalize hstops : (p.passage bag.shuffle 0 source).1 = stops
  have hend : course.count = stops.length := by
    rw [hfollows.count_eq, Pattern.stopCount, hf, if_neg (by simp), hstops]
  have hfind : ∀ n (h : n < stops.length),
      bag.catalogue.find? stops[n].key = some (course.pieces n) := by
    intro n hn
    apply hfollows.find?_eq
    rw [Pattern.stop?, hf, if_neg (by simp), hstops, List.getElem?_eq_getElem hn]
  refine ⟨bag, (List.range stops.length).map course.pieces, hbuild, ⟨?_, ?_⟩, ?_, ?_⟩
  · intro n hn
    rw [List.length_map, List.length_range] at hn
    rw [List.getElem_map, List.getElem_range]
    exact course.pick_afterPicks_of_lt hfollows.buffer_eq (hend ▸ Nat.cast_lt.mpr hn)
  · rw [List.length_map, List.length_range]
    exact course.pick_afterPicks_of_le hfollows.buffer_eq hend.le
  · intro piece hpiece
    obtain ⟨n, hn, rfl⟩ := List.mem_map.mp hpiece
    exact List.mem_of_find?_eq_some (hfind n (List.mem_range.mp hn))
  · refine List.ext_getElem (by simp) fun n hn hn' => ?_
    have hkey := List.find?_some (hfind n (by simpa using hn'))
    simpa using hkey

/-- **No piece is lost or duplicated by shuffling.**  Over a valid catalogue a pattern that ends
hands out every key at most as often as the repeats on the way down to its pieces say, under every
shuffle that only rearranges.  If every random group visits all its children it is exactly so often,
and any two such shuffles hand out the same pieces in another order. -/
theorem build_conserves_pieces {catalogue : Catalogue} {text : String} {p : Pattern}
    (hvalid : catalogue.validate = .ok ()) (hread : Pattern.ofText catalogue.keys text = .ok p)
    (hcount : p.countable = true) (hf : p.forever = false) {shuffle : Shuffle σ}
    (hperm : shuffle.Permuting) (source : σ) {shuffle' : Shuffle τ} (hperm' : shuffle'.Permuting)
    (source' : τ) :
    ∃ (bag : Bag σ) (bag' : Bag τ) (pieces pieces' : List Piece),
      build catalogue text shuffle source = .ok bag ∧ bag.Empties pieces ∧
      build catalogue text shuffle' source' = .ok bag' ∧ bag'.Empties pieces' ∧
      (∀ key, (pieces.map Piece.key).count key ≤ p.weight key) ∧
      (p.drawsAll = true →
        (∀ key, (pieces.map Piece.key).count key = p.weight key) ∧ pieces.Perm pieces') := by
  obtain ⟨bag, pieces, hbuild, hempties, hmem, hkeys⟩ :=
    build_empties hvalid hread hcount hf hperm.inside source
  obtain ⟨bag', pieces', hbuild', hempties', hmem', hkeys'⟩ :=
    build_empties hvalid hread hcount hf hperm'.inside source'
  have htally := fun key => p.tallies_passage hperm key source
  have htally' := fun key => p.tallies_passage hperm' key source'
  refine ⟨bag, bag', pieces, pieces', hbuild, hempties, hbuild', hempties', ?_, fun hall => ?_⟩
  · exact fun key => hkeys ▸ (htally key).1
  · have hsame : (pieces.map Piece.key).Perm (pieces'.map Piece.key) := by
      rw [List.perm_iff_count, hkeys, hkeys']
      exact fun key => ((htally key).2 hall).trans ((htally' key).2 hall).symm
    have hnodup := (Catalogue.validate_keys hvalid).2.1
    refine ⟨fun key => hkeys ▸ (htally key).2 hall, ?_⟩
    -- a key names one piece of the catalogue, so pieces are told by their keys
    have hperm := hsame.filterMap catalogue.find?
    rwa [Catalogue.filterMap_find?_map_key hnodup hmem,
      Catalogue.filterMap_find?_map_key hnodup hmem'] at hperm

/-- Nested random groups that visit all their children, by seed and in written order: `T` comes
twelve times. -/
theorem standard_conserves_pieces :
    ∃ (bag : Bag Congruential) (bag' : Bag Unit) (pieces pieces' : List Piece),
      build .standard "[T*2(IO[TL]*2)]*3" Congruential.shuffle (.ofSeed 42) = .ok bag ∧
      bag.Empties pieces ∧ build .standard "[T*2(IO[TL]*2)]*3" .identity () = .ok bag' ∧
      bag'.Empties pieces' ∧ (pieces.map Piece.key).count 'T' = 12 ∧ pieces.Perm pieces' := by
  have hvalid : Catalogue.standard.validate = .ok () := by decide +kernel
  have hread : Pattern.ofText Catalogue.standard.keys "[T*2(IO[TL]*2)]*3" = .ok ⟨[.random [
      .piece 'T' 2, .group [.piece 'I' 1, .piece 'O' 1,
        .random [.piece 'T' 1, .piece 'L' 1] 2 2] 1] 2 3], false⟩ := by
    decide +kernel
  obtain ⟨bag, bag', pieces, pieces', hbuild, hempties, hbuild', hempties', -, hall⟩ :=
    build_conserves_pieces hvalid hread (by decide) rfl Congruential.permuting_shuffle
      (.ofSeed 42) Shuffle.permuting_identity ()
  obtain ⟨hweight, hperm⟩ := hall (by decide)
  exact ⟨bag, bag', pieces, pieces', hbuild, hempties, hbuild', hempties', hweight 'T', hperm⟩

end Bag
end PieceSequencer
