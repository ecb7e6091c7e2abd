import PieceSequencer.Proofs.Bag.Cursor
import PieceSequencer.Proofs.Catalogue.Keys
import PieceSequencer.Proofs.Pattern.Enclosing

/-! # Repeats by a group around a node, in a bag

A traversal repeats a piece in place, replays a group and redraws a random group, each with code of
its own; a group around the node repeats it by leaving and entering it again.  The stacks of the two
traversals differ, but each bag is a cursor over the stream of its pattern, and the streams are the
same.  So no calls tell the bags apart, and their shuffles are moved on alike
(`Bag.build_alike_of_enclosing`). -/

namespace PieceSequencer

theorem Shuffle.Inside.recorded {σ : Type} {shuffle : Shuffle σ} (h : shuffle.Inside) :
    shuffle.recorded.Inside := fun n state => h n state.1

/-- What a cursor describes looks alike. -/
theorem Cursor.Describes.alike {σ τ : Type} {cursor : Cursor} {count : ℕ∞} {bag : Bag σ}
    {bag' : Bag τ} (h : cursor.Describes count bag) (h' : cursor.Describes count bag') :
    bag.buffered = bag'.buffered ∧ bag.isDrained = bag'.isDrained ∧
      bag.isExhausted = bag'.isExhausted := by
  refine ⟨h.buffered.trans h'.buffered.symm, ?_, ?_⟩
  · exact Bool.eq_iff_iff.mpr (h.drained.trans h'.drained.symm)
  · exact Bool.eq_iff_iff.mpr (h.exhausted.trans h'.exhausted.symm)

namespace Bag
variable {σ : Type}

/-- No calls tell the bags apart, and whatever calls are made, their shuffles are in one state. -/
structure Alike (bag bag' : Bag σ) (requests : List Request) : Prop where
  replies : (serveAll serve bag requests).2 = (serveAll serve bag' requests).2
  buffered : (serveAll serve bag requests).1.buffered = (serveAll serve bag' requests).1.buffered
  drained : (serveAll serve bag requests).1.isDrained = (serveAll serve bag' requests).1.isDrained
  exhausted : (serveAll serve bag requests).1.isExhausted =
    (serveAll serve bag' requests).1.isExhausted
  source : (serveAll serve bag requests).1.source = (serveAll serve bag' requests).1.source

/-- Bags of patterns that mean the same are alike. -/
theorem Course.Follows.alike {bag bag' : Bag σ} {course : bag.Course} {course' : bag'.Course}
    {p p' : Pattern} {source : σ} (h : course.Follows p source) (h' : course'.Follows p' source)
    (hcatalogue : bag'.catalogue = bag.catalogue) (hshuffle : bag'.shuffle = bag.shuffle)
    (hwf : p.wellFormed bag.catalogue.keys = true) (hin : bag.shuffle.Inside)
    (hforever : p'.forever = p.forever)
    (hpassage : ∀ again, p'.passage bag.shuffle again = p.passage bag.shuffle again)
    (requests : List Request) : bag.Alike bag' requests := by
  have hstop : ∀ n, p'.stop? bag.shuffle source n = p.stop? bag.shuffle source n := by
    intro n
    rw [Pattern.stop?, Pattern.stop?, hforever, hpassage]
  have hsourceAt : ∀ n, p'.sourceAt bag.shuffle source n = p.sourceAt bag.shuffle source n := by
    intro n
    rw [Pattern.sourceAt, Pattern.sourceAt, hstop, hpassage]
  have hcount : course'.count = course.count := by
    rw [h.count_eq, h'.count_eq, hshuffle, Pattern.stopCount, Pattern.stopCount, hforever, hpassage]
  have hpieces : ∀ n : Nat, n < course.count → course'.pieces n = course.pieces n := by
    intro n hn
    rw [h.count_eq, p.lt_stopCount_iff hwf hin] at hn
    obtain ⟨stop, hn⟩ := hn
    have hpiece' := h'.find?_eq n stop (hshuffle ▸ (hstop n).trans hn)
    rw [hcatalogue, h.find?_eq n stop hn] at hpiece'
    exact (Option.some.inj hpiece').symm
  obtain ⟨-, hreplies, hdescribes, hsource⟩ := h.serveAll (fun _ _ => rfl) requests
  obtain ⟨-, hreplies', hdescribes', hsource'⟩ := h'.serveAll (hcount ▸ hpieces) requests
  rw [hcount] at hreplies' hdescribes' hsource'
  obtain ⟨hbuffered, hdrained, hexhausted⟩ := hdescribes.alike hdescribes'
  refine ⟨hreplies.trans hreplies'.symm, hbuffered, hdrained, hexhausted, ?_⟩
  rw [hsource, hsource', hshuffle, hsourceAt]

/-- Bags of a pattern and of the same pattern with a node enclosed. -/
theorem build_alike {catalogue : Catalogue} {text text' : String} {p p' : Pattern}
    {shuffle : Shuffle σ} (hvalid : catalogue.validate = .ok ())
    (hread : Pattern.ofText catalogue.keys text = .ok p) (hcount : p.countable = true)
    (henclosing : p.Enclosing p') (hread' : Pattern.ofText catalogue.keys text' = .ok p')
    (hin : shuffle.Inside) (source : σ) :
    ∃ bag bag' : Bag σ, build catalogue text shuffle source = .ok bag ∧
      build catalogue text' shuffle source = .ok bag' ∧
      ∀ requests : List Request, bag.Alike bag' requests := by
  have hwf := p.wellFormed_of_ofText hread hcount
  have hcount' := p'.countable_of_wellFormed (henclosing.wellFormed hwf)
  obtain ⟨bag, course, hbuild, rfl, rfl, hfollows⟩ := build_course hvalid hread hcount hin source
  obtain ⟨bag', course', hbuild', hcatalogue, hshuffle, hfollows'⟩ :=
    build_course hvalid hread' hcount' hin source
  exact ⟨bag, bag', hbuild, hbuild', hfollows.alike hfollows' hcatalogue hshuffle hwf hin
    henclosing.forever_eq henclosing.passage_eq⟩

/-- **The three ways to repeat agree with entering again.**  If one node of a pattern, at any depth,
is put into a group that has its repeats, no calls tell the bags of the two patterns apart, under
any shuffle whose orders name children only.  The lists that the shuffle is given are the same, as a
record of the draws shows, and the patterns have the same length. -/
theorem build_alike_of_enclosing {catalogue : Catalogue} {text : String} {p p' : Pattern}
    {shuffle : Shuffle σ} (hvalid : catalogue.validate = .ok ())
    (hread : Pattern.ofText catalogue.keys text = .ok p) (hcount : p.countable = true)
    (henclosing : p.Enclosing p') (hin : shuffle.Inside) (source : σ) :
    Pattern.ofText catalogue.keys p'.text = .ok p' ∧ p'.length? = p.length? ∧
    ∀ text' : String, Pattern.ofText catalogue.keys text' = .ok p' →
      (∃ bag bag' : Bag σ, build catalogue text shuffle source = .ok bag ∧
        build catalogue text' shuffle source = .ok bag' ∧
        ∀ requests : List Request, bag.Alike bag' requests) ∧
      ∃ logged logged' : Bag (σ × List (List Nat × List Nat)),
        build catalogue text shuffle.recorded (source, []) = .ok logged ∧
        build catalogue text' shuffle.recorded (source, []) = .ok logged' ∧
        ∀ requests : List Request, logged.Alike logged' requests := by
  have hwf := p.wellFormed_of_ofText hread hcount
  have hkeys := (Catalogue.validate_keys hvalid).2.2
  refine ⟨Pattern.ofText_text hkeys (henclosing.wellFormed hwf), henclosing.length?_eq, ?_⟩
  intro text' hread'
  exact ⟨build_alike hvalid hread hcount henclosing hread' hin source,
    build_alike hvalid hread hcount henclosing hread' hin.recorded (source, [])⟩

/-- Deals the first place again and again, which is no rearrangement. -/
def firstOnly : Shuffle Unit where
  draw := fun n state _ => (.replicate n 0, state)

/-- A random group inside a replayed one, under a shuffle that breaks its promise. -/
theorem standard_alike_of_enclosing : ∃ bag bag' : Bag Unit,
    build .standard "[T(I[OL:1]*2)*3]*2S~" firstOnly () = .ok bag ∧
    build .standard "[T(I([OL:1])*2)*3]*2S~" firstOnly () = .ok bag' ∧
    ∀ requests : List Request, bag.Alike bag' requests := by
  have hvalid : Catalogue.standard.validate = .ok () := by decide +kernel
  have hread : Pattern.ofText Catalogue.standard.keys "[T(I[OL:1]*2)*3]*2S~" = .ok ⟨[.random [
      .piece 'T' 1, .group [.piece 'I' 1, .random [.piece 'O' 1, .piece 'L' 1] 1 2] 3] 2 2,
      .piece 'S' 1], true⟩ := by
    decide +kernel
  have hread' : Pattern.ofText Catalogue.standard.keys "[T(I([OL:1])*2)*3]*2S~" = .ok ⟨[.random [
      .piece 'T' 1, .group [.piece 'I' 1,
        .group [.random [.piece 'O' 1, .piece 'L' 1] 1 1] 2] 3] 2 2, .piece 'S' 1], true⟩ := by
    decide +kernel
  have hin : firstOnly.Inside := by
    intro n state i hi
    obtain ⟨hn, rfl⟩ : n ≠ 0 ∧ i = 0 := by simpa [Shuffle.deal, firstOnly] using hi
    exact Nat.pos_of_ne_zero hn
  have hinner := Node.Enclosing.here (.random [.piece 'O' 1, .piece 'L' 1] 1 2)
  have hgroup : Node.Enclosing (.group ([.piece 'I' 1] ++ _ :: []) 3) _ := .group hinner
  have hrandom : Node.Enclosing (.random ([.piece 'T' 1] ++ _ :: []) 2 2) _ := .random hgroup
  have henclosing : Pattern.Enclosing ⟨[] ++ _ :: [.piece 'S' 1], true⟩ _ := .child hrandom
  exact ((build_alike_of_enclosing hvalid hread (by decide) henclosing hin ()).2.2 _ hread').1

end Bag
end PieceSequencer
