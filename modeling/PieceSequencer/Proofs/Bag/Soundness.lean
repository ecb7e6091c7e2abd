import PieceSequencer.Proofs.Bag.Calls

/-! # A shuffle that only rearranges causes no fault

The orders that such a shuffle deals are permutations of the places, so every frame visits a child
(`Frame.Sound.exists_child`) and no traversal ever halts.  What remains of the step lemmas is the
invariant: after any calls the stack is empty or a path from the root to a piece. -/

namespace PieceSequencer

variable {σ : Type}

/-- A permutation of the places. -/
def Shuffle.IsOrder (n : Nat) (order : Array Nat) : Prop := order.toList.Perm (List.range n)

theorem Shuffle.IsOrder.size_eq {n : Nat} {order : Array Nat} (h : IsOrder n order) :
    order.size = n := by
  have hlen := h.length_eq
  rwa [Array.length_toList, List.length_range] at hlen

theorem Shuffle.IsOrder.range (n : Nat) : IsOrder n (.range n) := by
  rw [IsOrder, Array.toList_range]

/-- Every place of an order is the place of a child. -/
theorem Shuffle.IsOrder.exists_child {children order : Array Nat} {current : Nat}
    (h : IsOrder children.size order) (hlt : current < children.size) :
    ∃ i child, order[current]? = some i ∧ children[i]? = some child := by
  have hsize : current < order.size := h.size_eq ▸ hlt
  have hmem : order[current] ∈ List.range children.size :=
    h.mem_iff.mp (Array.mem_toList_iff.mpr (Array.getElem_mem hsize))
  exact ⟨_, _, Array.getElem?_eq_getElem hsize,
    Array.getElem?_eq_getElem (List.mem_range.mp hmem)⟩

theorem Shuffle.Permuting.yields {shuffle : Shuffle σ} (h : shuffle.Permuting) :
    shuffle.Yields Shuffle.IsOrder :=
  ⟨h.perm_deal, fun _ _ horder => horder.size_eq⟩

/-- A frame in an order of its children visits one of them. -/
theorem Frame.Sound.exists_child {a : Arena} {frame : Frame a} (h : frame.Sound Shuffle.IsOrder)
    (hinner : frame.content.isPiece = false) : ∃ child, frame.child? = some child := by
  have hvisits : ∀ {slot : Slot}, frame.content = slot →
      Shuffle.IsOrder slot.children.size frame.order → frame.current < slot.children.size →
      ∃ child, frame.child? = some child := by
    intro slot hslot horder hcurrent
    obtain ⟨i, child, hi, hchild⟩ := horder.exists_child hcurrent
    exact ⟨child, Frame.child?_eq hslot hi hchild⟩
  cases hcontent : frame.content with
  | root children forever =>
      obtain ⟨horder, hcurrent, -⟩ := (frame.sound_iff hcontent).mp h
      exact hvisits hcontent (horder ▸ .range _) hcurrent
  | piece index r => rw [hcontent] at hinner; cases hinner
  | group children r =>
      obtain ⟨horder, hcurrent, -⟩ := (frame.sound_iff hcontent).mp h
      exact hvisits hcontent (horder ▸ .range _) hcurrent
  | random children picks r =>
      obtain ⟨horder, hcurrent, -, -⟩ := (frame.sound_iff hcontent).mp h
      exact hvisits hcontent horder hcurrent

theorem Traversal.not_halted {a : Arena} (t : Traversal a σ) : ¬ t.Halted Shuffle.IsOrder := by
  rintro ⟨hpath, frame, hframe, hinner, hnone⟩
  have hsound := hpath.sound frame (List.mem_of_mem_head? hframe)
  obtain ⟨child, hchild⟩ := hsound.exists_child hinner
  rw [hnone] at hchild
  cases hchild

namespace Bag
variable {bag : Bag σ}

/-- No call finds a fault, and behind each the traversal is over or stands at a piece. -/
theorem Sound.standing_serveAll (h : bag.Sound Shuffle.IsOrder)
    (hstanding : bag.traversal.Standing Shuffle.IsOrder) (requests : List Request) :
    let served := PieceSequencer.serveAll serve bag requests
    (∀ reply ∈ served.2, ∀ fault, reply.error? ≠ some (.violated fault)) ∧
      served.1.traversal.Standing Shuffle.IsOrder := by
  induction requests generalizing bag with
  | nil => exact ⟨by simp [PieceSequencer.serveAll], hstanding⟩
  | cons request requests ih =>
      have hfirst := h.serves request
      have hno : ∀ fault, (bag.serve request).2.error? ≠ some (.violated fault) :=
        fun fault hfault => (Traversal.not_halted _) (hfirst.violated fault hfault)
      obtain ⟨hreplies, hlast⟩ := ih hfirst.sound (hfirst.standing hstanding hno)
      rw [serveAll_cons]
      refine ⟨?_, hlast⟩
      intro reply hreply
      rcases List.mem_cons.mp hreply with rfl | hreply
      · exact hno
      · exact hreplies reply hreply

/-- A bad catalogue and a text that cannot be read are refused as such. -/
theorem build_of_unreadable {catalogue : Catalogue} {text : String}
    (h : ¬ (catalogue.validate = .ok () ∧ ∃ p, Pattern.ofText catalogue.keys text = .ok p))
    (shuffle : Shuffle σ) (source : σ) :
    ∃ failure, build catalogue text shuffle source = .error failure ∧
      ∀ fault, failure.error ≠ .violated fault := by
  unfold build
  cases hvalid : catalogue.validate with
  | error e => exact ⟨⟨.validation e, source⟩, rfl, by simp⟩
  | ok _ =>
      cases hread : Pattern.ofText catalogue.keys text with
      | error e => exact ⟨⟨.pattern e, source⟩, rfl, by simp⟩
      | ok p => exact absurd ⟨hvalid, p, hread⟩ h

/-- Any other bag is built, and it stands at its first piece. -/
theorem build_standing {catalogue : Catalogue} {text : String} {p : Pattern} {shuffle : Shuffle σ}
    (hvalid : catalogue.validate = .ok ()) (hread : Pattern.ofText catalogue.keys text = .ok p)
    (hcount : p.countable = true) (hperm : shuffle.Permuting) (source : σ) :
    ∃ bag, build catalogue text shuffle source = .ok bag ∧ bag.catalogue = catalogue ∧
      bag.pattern = p ∧ Arena.ofPattern catalogue p = .ok bag.arena ∧
      bag.Sound Shuffle.IsOrder ∧ bag.traversal.Standing Shuffle.IsOrder := by
  rcases build_sound hvalid hread hcount hperm.yields source with h | ⟨-, -, -, a, t, ht⟩
  · exact h
  · exact absurd ht t.not_halted

/-- **No fault under a shuffle that only rearranges.**  A bag is built whenever the catalogue is
valid and the pattern can be read.  Whatever is asked of it then, no fault comes back, its stack is
empty or a path from the root to a piece, and its buffer lies inside the catalogue. -/
theorem build_keeps_path {catalogue : Catalogue} {text : String} {shuffle : Shuffle σ}
    (hcount : ∀ p, Pattern.ofText catalogue.keys text = .ok p → p.countable = true)
    (hperm : shuffle.Permuting) (source : σ) :
    ((∃ bag, build catalogue text shuffle source = .ok bag) ↔
      catalogue.validate = .ok () ∧ ∃ p, Pattern.ofText catalogue.keys text = .ok p) ∧
    (∀ failure, build catalogue text shuffle source = .error failure →
      ∀ fault, failure.error ≠ .violated fault) ∧
    ∀ bag, build catalogue text shuffle source = .ok bag →
      Pattern.ofText catalogue.keys text = .ok bag.pattern ∧
      Arena.ofPattern catalogue bag.pattern = .ok bag.arena ∧
      ∀ requests : List Request,
        let served := serveAll serve bag requests
        (∀ reply ∈ served.2, ∀ fault, reply.error? ≠ some (.violated fault)) ∧
        served.1.catalogue = catalogue ∧ served.1.arena = bag.arena ∧
        served.1.traversal.Standing Shuffle.IsOrder ∧
        (∀ frame ∈ served.1.traversal.stack, frame.rounds + 1 < UInt32.size) ∧
        ∀ index ∈ served.1.buffer, index < catalogue.length := by
  by_cases hreadable :
      catalogue.validate = .ok () ∧ ∃ p, Pattern.ofText catalogue.keys text = .ok p
  · obtain ⟨hvalid, p, hread⟩ := hreadable
    obtain ⟨bag, hbag, rfl, rfl, harena, hsound, hstanding⟩ :=
      build_standing hvalid hread (hcount p hread) hperm source
    rw [hbag]
    refine ⟨by simp [hvalid, hread], by simp, ?_⟩
    rintro _ ⟨⟩
    refine ⟨hread, harena, fun requests => ?_⟩
    obtain ⟨⟨t, buffer, hmoved⟩, hsound', -⟩ := hsound.serveAll requests
    obtain ⟨hreplies, hlast⟩ := hsound.standing_serveAll hstanding requests
    have hcatalogue : (serveAll serve bag requests).1.catalogue = bag.catalogue := by
      rw [hmoved]
      rfl
    have harena' : (serveAll serve bag requests).1.arena = bag.arena := by
      rw [hmoved]
      rfl
    refine ⟨hreplies, hcatalogue, harena', hlast, ?_, ?_⟩
    · exact fun frame hframe => (hlast.path.sound frame hframe).rounds_lt
    · exact hcatalogue ▸ hsound'.inside
  · obtain ⟨failure, herror, hno⟩ := build_of_unreadable hreadable shuffle source
    rw [herror]
    refine ⟨by simp [hreadable], ?_, by rintro _ ⟨⟩⟩
    rintro _ ⟨⟩
    exact hno

/-- A nested pattern over the standard pieces, shuffled from a seed. -/
theorem standard_keeps_path : ∃ bag : Bag Congruential,
    build .standard "[T(IO)*2:1]*3L~" Congruential.shuffle (.ofSeed 42) = .ok bag ∧
    ∀ requests : List Request,
      (∀ reply ∈ (serveAll serve bag requests).2, ∀ fault,
        reply.error? ≠ some (.violated fault)) ∧
      (serveAll serve bag requests).1.traversal.Standing Shuffle.IsOrder := by
  have hvalid : Catalogue.standard.validate = .ok () := by decide +kernel
  have hread : Pattern.ofText Catalogue.standard.keys "[T(IO)*2:1]*3L~" = .ok ⟨[.random [
      .piece 'T' 1, .group [.piece 'I' 1, .piece 'O' 1] 2] 1 3, .piece 'L' 1], true⟩ := by
    decide +kernel
  have hcount : ∀ p, Pattern.ofText Catalogue.standard.keys "[T(IO)*2:1]*3L~" = .ok p →
      p.countable = true := by
    intro p hp
    obtain rfl := Except.ok.inj (hread.symm.trans hp)
    decide
  obtain ⟨hiff, -, hkeeps⟩ :=
    build_keeps_path hcount Congruential.permuting_shuffle (.ofSeed 42)
  obtain ⟨bag, hbag⟩ := hiff.mpr ⟨hvalid, _, hread⟩
  refine ⟨bag, hbag, fun requests => ?_⟩
  obtain ⟨hreplies, -, -, hstanding, -⟩ := (hkeeps bag hbag).2.2 requests
  exact ⟨hreplies, hstanding⟩

end Bag
end PieceSequencer
