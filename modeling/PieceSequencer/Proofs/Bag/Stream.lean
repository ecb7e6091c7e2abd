import PieceSequencer.Proofs.Bag.Course

/-! # The stream of a bag

The explicit stack computes the plain meaning.  For every shuffle that only rearranges, the pieces
that successive picks hand out are those at the stops of the pattern, and behind each pick the
shuffle is in the state that the meaning threads to the next stop (`Bag.Deals`).  Said of the
shuffle that keeps a record, this covers the draws themselves: they are made in the order of the
meaning and on the same lists. -/

namespace PieceSequencer
namespace Bag
variable {σ : Type}

/-- Successive picks hand out the pieces at the stops of a pattern, and nothing behind the last. -/
structure Deals (bag : Bag σ) (catalogue : Catalogue) (p : Pattern) (shuffle : Shuffle σ)
    (source : σ) : Prop where
  at_stop : ∀ n stop, p.stop? shuffle source n = some stop → ∃ piece,
    catalogue.find? stop.key = some piece ∧ (bag.afterPicks n).pick.2 = .ok piece
  at_end : ∀ n, p.stop? shuffle source n = none → (bag.afterPicks n).pick.2 = .error .exhausted
  source_eq : ∀ n, (bag.afterPicks n).source = p.sourceAt shuffle source n

theorem Course.Follows.deals {bag : Bag σ} {course : bag.Course} {p : Pattern} {source : σ}
    (h : course.Follows p source) (hwf : p.wellFormed bag.catalogue.keys = true)
    (hin : bag.shuffle.Inside) : bag.Deals bag.catalogue p bag.shuffle source := by
  refine ⟨?_, ?_, ?_⟩
  · intro n stop hstop
    have hn : (n : ℕ∞) < course.count := h.count_eq ▸ (p.lt_stopCount_iff hwf hin).mpr ⟨stop, hstop⟩
    exact ⟨course.pieces n, h.find?_eq n stop hstop, course.pick_afterPicks_of_lt h.buffer_eq hn⟩
  · intro n hstop
    have hn : course.count ≤ n := by
      rw [← not_lt, h.count_eq, p.lt_stopCount_iff hwf hin, hstop]
      simp
    exact course.pick_afterPicks_of_le h.buffer_eq hn
  · intro n
    rw [course.afterPicks_eq h.buffer_eq, h.source_eq]
    rcases le_total (n : ℕ∞) course.count with hn | hn
    · rw [Traversal.reach_eq_self hn]
    · have hover : ∀ m : Nat, course.count ≤ m → p.stop? bag.shuffle source m = none := by
        intro m hm
        rw [h.count_eq, ← not_lt, p.lt_stopCount_iff hwf hin, ← Option.isSome_iff_exists] at hm
        simpa using hm
      rw [p.sourceAt_of_none (hover n hn), p.sourceAt_of_none]
      exact hover _ (Traversal.cast_reach hn).ge

/-- A shuffle that refines another deals the same pieces. -/
theorem Deals.pick_eq {τ : Type} {bag : Bag σ} {bag' : Bag τ} {catalogue : Catalogue} {p : Pattern}
    {shuffle : Shuffle σ} {shuffle' : Shuffle τ} {forget : τ → σ} {source : τ}
    (h : bag.Deals catalogue p shuffle (forget source))
    (h' : bag'.Deals catalogue p shuffle' source) (hs : shuffle'.Refines shuffle forget) (n : Nat) :
    (bag'.afterPicks n).pick.2 = (bag.afterPicks n).pick.2 := by
  have hforget := p.stop?_forget hs source n
  cases hstop : p.stop? shuffle' source n with
  | none =>
      rw [hstop] at hforget
      rw [h'.at_end n hstop, h.at_end n hforget]
  | some stop =>
      rw [hstop] at hforget
      obtain ⟨piece, hpiece, hpick⟩ := h.at_stop n _ hforget
      obtain ⟨piece', hpiece', hpick'⟩ := h'.at_stop n _ hstop
      obtain rfl : piece' = piece := Option.some.inj (hpiece'.symm.trans hpiece)
      rw [hpick, hpick']

/-- **The explicit stack computes the meaning of the pattern.** -/
theorem build_deals_meaning {catalogue : Catalogue} {text : String} {p : Pattern}
    {shuffle : Shuffle σ} {source : σ} (hvalid : catalogue.validate = .ok ())
    (hread : Pattern.ofText catalogue.keys text = .ok p) (hcount : p.countable = true)
    (hperm : shuffle.Permuting) :
    ∃ (bag : Bag σ) (logged : Bag (σ × List (List Nat × List Nat))),
      build catalogue text shuffle source = .ok bag ∧
      build catalogue text shuffle.recorded (source, []) = .ok logged ∧
      bag.Deals catalogue p shuffle source ∧
      logged.Deals catalogue p shuffle.recorded (source, []) ∧
      (∀ n, (logged.afterPicks n).pick.2 = (bag.afterPicks n).pick.2) ∧
      (∀ again n stop, p.forever = true ∨ again = 0 →
        (p.passage shuffle again source).1[n]? = some stop →
        p.stop? shuffle source n = some stop) ∧
      (p.forever = true → ∀ n, ∃ stop, p.stop? shuffle source n = some stop) := by
  have hwf := p.wellFormed_of_ofText hread hcount
  have hin := hperm.inside
  obtain ⟨bag, course, hbuild, rfl, rfl, hfollows⟩ := build_course hvalid hread hcount hin source
  obtain ⟨logged, course', hbuild', hcatalogue, hshuffle, hfollows'⟩ :=
    build_course hvalid hread hcount hperm.recorded.inside (source, [])
  have hdeals := hfollows.deals hwf hin
  have hdeals' := hfollows'.deals (hcatalogue ▸ hwf) (hshuffle ▸ hperm.recorded.inside)
  rw [hcatalogue, hshuffle] at hdeals'
  refine ⟨bag, logged, hbuild, hbuild', hdeals, hdeals', ?_, ?_, ?_⟩
  · exact hdeals.pick_eq hdeals' bag.shuffle.refines_recorded
  · exact fun again n stop hagain h => p.stop?_of_passage hwf hin hagain h
  · exact fun hf n => p.exists_stop? hwf hin hf source n

/-- The standard pieces in a nested pattern, shuffled from a seed. -/
theorem standard_deals_meaning : let p : Pattern := ⟨[.random [.piece 'T' 1,
      .group [.piece 'I' 1, .piece 'O' 1] 2] 1 3, .piece 'L' 1], true⟩
    ∃ bag : Bag Congruential,
      build .standard "[T(IO)*2:1]*3L~" Congruential.shuffle (.ofSeed 42) = .ok bag ∧
      bag.Deals .standard p Congruential.shuffle (.ofSeed 42) := by
  have hvalid : Catalogue.standard.validate = .ok () := by decide +kernel
  have hread : Pattern.ofText Catalogue.standard.keys "[T(IO)*2:1]*3L~" = .ok ⟨[.random [
      .piece 'T' 1, .group [.piece 'I' 1, .piece 'O' 1] 2] 1 3, .piece 'L' 1], true⟩ := by
    decide +kernel
  obtain ⟨bag, _, hbuild, -, hdeals, -⟩ :=
    build_deals_meaning hvalid hread (by decide) Congruential.permuting_shuffle
  exact ⟨bag, hbuild, hdeals⟩

end Bag
end PieceSequencer
