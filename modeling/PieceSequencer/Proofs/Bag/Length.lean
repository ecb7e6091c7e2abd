import PieceSequencer.Proofs.Bag.Course
import PieceSequencer.Proofs.Pattern.Length

/-! # How many pieces a bag hands out

The length of a pattern is the number of pieces that every bag of it hands out.  Where a pattern
that ends has no length, two shuffles hand out different numbers of pieces, or one of them hands
out more than 64 bits can count. -/

namespace PieceSequencer
namespace Bag
variable {σ : Type}

/-- So many picks give a piece, and the next one finds nothing left. -/
structure HandsOut (bag : Bag σ) (n : Nat) : Prop where
  pieces : ∀ m < n, ∃ piece, (bag.afterPicks m).pick.2 = .ok piece
  exhausted : (bag.afterPicks n).pick.2 = .error .exhausted

/-- Some shuffle that only rearranges makes a bag of this text hand out so many pieces. -/
def MayHandOut (catalogue : Catalogue) (text : String) (n : Nat) : Prop :=
  ∃ (σ : Type) (shuffle : Shuffle σ) (source : σ) (bag : Bag σ), shuffle.Permuting ∧
    build catalogue text shuffle source = .ok bag ∧ bag.HandsOut n

/-- A bag on a course hands out all of it. -/
theorem Course.handsOut_iff {bag : Bag σ} (course : bag.Course) (hempty : bag.buffer = [])
    {n : Nat} : bag.HandsOut n ↔ course.count = n := by
  constructor
  · rintro ⟨hpieces, hexhausted⟩
    refine le_antisymm (not_lt.mp fun hlt => ?_) (not_lt.mp fun hlt => ?_)
    · rw [course.pick_afterPicks_of_lt hempty hlt] at hexhausted
      cases hexhausted
    · obtain ⟨m, hm⟩ := ENat.ne_top_iff_exists.mp (ne_top_of_lt hlt)
      rw [← hm, Nat.cast_lt] at hlt
      obtain ⟨piece, hpiece⟩ := hpieces m hlt
      rw [course.pick_afterPicks_of_le hempty hm.ge] at hpiece
      cases hpiece
  · intro hcount
    refine ⟨fun m hm => ⟨course.pieces m, ?_⟩, course.pick_afterPicks_of_le hempty hcount.le⟩
    exact course.pick_afterPicks_of_lt hempty (hcount ▸ Nat.cast_lt.mpr hm)

/-- A bag hands out a piece for each stop of its pattern, if the pattern ends. -/
theorem build_handsOut_iff {catalogue : Catalogue} {text : String} {p : Pattern}
    {shuffle : Shuffle σ} (hvalid : catalogue.validate = .ok ())
    (hread : Pattern.ofText catalogue.keys text = .ok p) (hcount : p.countable = true)
    (hperm : shuffle.Permuting) (source : σ) :
    ∃ bag : Bag σ, build catalogue text shuffle source = .ok bag ∧ ∀ n, bag.HandsOut n ↔
      p.forever = false ∧ (p.passage shuffle 0 source).1.length = n := by
  obtain ⟨bag, course, hbuild, -, hshuffle, hfollows⟩ :=
    build_course hvalid hread hcount hperm.inside source
  refine ⟨bag, hbuild, fun n => ?_⟩
  rw [course.handsOut_iff hfollows.buffer_eq, hfollows.count_eq, Pattern.stopCount, hshuffle]
  cases hf : p.forever <;> simp

/-- **The length of a pattern is the number of pieces that every bag of it hands out.** -/
theorem length?_eq_some_iff_handsOut {catalogue : Catalogue} {text : String} {p : Pattern}
    (hvalid : catalogue.validate = .ok ()) (hread : Pattern.ofText catalogue.keys text = .ok p)
    (hcount : p.countable = true) :
    (∀ n, p.length? = some n ↔ p.forever = false ∧ n < UInt64.size ∧
      ∀ (σ : Type) (shuffle : Shuffle σ) (source : σ), shuffle.Permuting →
        ∃ bag, build catalogue text shuffle source = .ok bag ∧ bag.HandsOut n) ∧
    (p.forever = false → p.length? = none →
      (∃ m n, m ≠ n ∧ MayHandOut catalogue text m ∧ MayHandOut catalogue text n) ∨
        ∃ n, UInt64.size ≤ n ∧ MayHandOut catalogue text n) := by
  have hwf := p.wellFormed_of_ofText hread hcount
  have hiff : ∀ n, p.length? = some n ↔ p.forever = false ∧ n < UInt64.size ∧
      ∀ (σ : Type) (shuffle : Shuffle σ) (source : σ), shuffle.Permuting →
        ∃ bag, build catalogue text shuffle source = .ok bag ∧ bag.HandsOut n := by
    intro n
    rw [p.length?_eq_some_iff hwf]
    refine and_congr_right fun hf => and_congr_right fun _ => ?_
    refine forall_congr' fun σ => forall_congr' fun shuffle => forall_congr' fun source =>
      forall_congr' fun hperm => ?_
    obtain ⟨bag, hbuild, hhands⟩ := build_handsOut_iff hvalid hread hcount hperm source
    simp [hbuild, hhands, hf]
  refine ⟨hiff, fun hf hnone => ?_⟩
  have hmay : ∀ (σ : Type) (shuffle : Shuffle σ) (source : σ), shuffle.Permuting →
      ∃ bag n, build catalogue text shuffle source = .ok bag ∧ bag.HandsOut n := by
    intro σ shuffle source hperm
    obtain ⟨bag, hbuild, hhands⟩ := build_handsOut_iff hvalid hread hcount hperm source
    exact ⟨bag, _, hbuild, (hhands _).mpr ⟨hf, rfl⟩⟩
  obtain ⟨bag, n, hbuild, hhands⟩ := hmay Unit .identity () Shuffle.permuting_identity
  have hn : MayHandOut catalogue text n :=
    ⟨_, _, _, bag, Shuffle.permuting_identity, hbuild, hhands⟩
  -- were there no other number and this one counted, the pattern would have it as its length
  by_contra hneither
  rw [not_or] at hneither
  obtain ⟨hsame, hsmall⟩ := hneither
  have hlength : p.length? = some n := by
    refine (hiff n).mpr ⟨hf, not_le.mp fun hle => hsmall ⟨n, hle, hn⟩, ?_⟩
    intro σ shuffle source hperm
    obtain ⟨bag', m, hbuild', hhands'⟩ := hmay σ shuffle source hperm
    have hm : m = n := by
      by_contra hne
      exact hsame ⟨m, n, hne, ⟨σ, shuffle, source, bag', hperm, hbuild', hhands'⟩, hn⟩
    exact ⟨bag', hbuild', hm ▸ hhands'⟩
  rw [hnone] at hlength
  cases hlength

/-- Six pieces of `[TI:1]*2(LJ)*2` under every shuffle, and no fixed number of pieces of
`[(TI)O:1]`. -/
theorem standard_handsOut :
    (∀ (σ : Type) (shuffle : Shuffle σ) (source : σ), shuffle.Permuting →
      ∃ bag, build .standard "[TI:1]*2(LJ)*2" shuffle source = .ok bag ∧ bag.HandsOut 6) ∧
    ((∃ m n, m ≠ n ∧ MayHandOut .standard "[(TI)O:1]" m ∧ MayHandOut .standard "[(TI)O:1]" n) ∨
      ∃ n, UInt64.size ≤ n ∧ MayHandOut .standard "[(TI)O:1]" n) := by
  have hvalid : Catalogue.standard.validate = .ok () := by decide +kernel
  have heven : Pattern.ofText Catalogue.standard.keys "[TI:1]*2(LJ)*2" = .ok ⟨[.random [
      .piece 'T' 1, .piece 'I' 1] 1 2, .group [.piece 'L' 1, .piece 'J' 1] 2], false⟩ := by
    decide +kernel
  have huneven : Pattern.ofText Catalogue.standard.keys "[(TI)O:1]" = .ok ⟨[.random [
      .group [.piece 'T' 1, .piece 'I' 1] 1, .piece 'O' 1] 1 1], false⟩ := by
    decide +kernel
  have hlength := ((length?_eq_some_iff_handsOut hvalid heven (by decide)).1 6).mp (by decide)
  exact ⟨hlength.2.2, (length?_eq_some_iff_handsOut hvalid huneven (by decide)).2 rfl (by decide)⟩

end Bag
end PieceSequencer
