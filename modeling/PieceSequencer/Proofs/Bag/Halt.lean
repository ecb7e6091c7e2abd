import PieceSequencer.Proofs.Bag.Calls

/-! # A shuffle that breaks its promise

A draw can leave anything in its list, so an order may repeat a place or name none.  The traversal
then halts when it comes to a place without a child, and every step after that gives the same
fault and changes nothing (`Traversal.Halted.next`).  What remains of the bag is its buffer: it
answers any calls as a list of pieces does that has a fault behind it (`Stopped.serveAll`). -/

namespace PieceSequencer

variable {σ : Type}

/-- All that is sure of an order from any shuffle. -/
def Shuffle.IsSized (n : Nat) (order : Array Nat) : Prop := order.size = n

theorem Shuffle.yields_isSized (shuffle : Shuffle σ) : shuffle.Yields Shuffle.IsSized :=
  ⟨fun n state => shuffle.size_deal n state, fun _ _ h => h⟩

/-! ### Pieces with a fault behind them -/

namespace Remainder

/-- Takes the first piece that remains. -/
def pick : List Piece → List Piece × Except BagError Piece
  | [] => ([], .error (.violated .topNotPiece))
  | piece :: pieces => (pieces, .ok piece)

/-- Looks at `n` pieces, if as many remain. -/
def peek (pieces : List Piece) (n : Nat) : Except BagError (List Piece) :=
  if n ≤ pieces.length then .ok (pieces.take n) else .error (.violated .topNotPiece)

/-- A call, answered from what remains. -/
def serve (pieces : List Piece) : Request → List Piece × Reply
  | .pick | .dealerPick => ((pick pieces).1, .piece (pick pieces).2)
  | .pickKey => ((pick pieces).1, .key ((pick pieces).2.map Piece.key))
  | .peek n | .dealerPeek n => (pieces, .pieces (peek pieces n))
  | .peekKeys n => (pieces, .keys ((peek pieces n).map (·.map Piece.key)))

/-- What can be seen of a bag of which no more than these pieces remains. -/
structure Describes (pieces : List Piece) (bag : Bag σ) : Prop where
  buffered : bag.buffered = pieces.length
  drained : bag.isDrained = false
  exhausted : bag.isExhausted = false
  peeks : ∀ n, (∃ shown, (bag.peek n).2 = .ok shown) ↔ n ≤ bag.buffered

end Remainder

namespace Bag
variable {good : Nat → Array Nat → Prop} {bag : Bag σ} {pieces : List Piece}

/-- The traversal has halted, and the buffer names these pieces. -/
structure Stopped (good : Nat → Array Nat → Prop) (bag : Bag σ) (pieces : List Piece) :
    Prop where
  halted : bag.traversal.Halted good
  buffers : List.Forall₂ (fun index piece => bag.piece index = .ok piece) bag.buffer pieces

theorem Sound.exists_stopped (h : bag.Sound good) (hhalted : bag.traversal.Halted good) :
    ∃ pieces, bag.Stopped good pieces := by
  obtain ⟨pieces, hpieces, -⟩ := exists_pieces_of_lt h.inside
  exact ⟨pieces, hhalted, hpieces⟩

namespace Stopped

theorem buffered (h : bag.Stopped good pieces) : bag.buffered = pieces.length :=
  h.buffers.length_eq

/-- Taking a piece changes nothing but the buffer. -/
theorem pick (h : bag.Stopped good pieces) : ∃ buffer,
    bag.pick = (bag.moved bag.traversal buffer, (Remainder.pick pieces).2) ∧
      (bag.moved bag.traversal buffer).Stopped good (Remainder.pick pieces).1 := by
  have hbuffers := h.buffers
  -- the buffer is a field of the bag, and so cannot be split where it stands
  generalize hbuffer : bag.buffer = buffer at hbuffers
  cases hbuffers with
  | nil =>
      exact ⟨[], pick_of_fault hbuffer h.halted.next, h.halted, .nil⟩
  | cons hpiece hrest =>
      rw [pick_of_cons hbuffer, hpiece]
      exact ⟨_, rfl, h.halted, hrest⟩

/-- Looking ahead changes nothing. -/
theorem peek (h : bag.Stopped good pieces) (n : Nat) :
    bag.peek n = (bag, Remainder.peek pieces n) := by
  have hlen : bag.buffer.length = pieces.length := h.buffers.length_eq
  unfold Remainder.peek
  by_cases hn : n ≤ pieces.length
  · have hrefill : bag.refill n = (bag.moved bag.traversal bag.buffer, none) :=
      refill_of_le (hlen ▸ hn)
    have htake := mapM_eq_ok_iff.mpr (List.forall₂_take n h.buffers)
    rw [if_pos hn, peek_of_refill hrefill, htake, moved_self]
  · have hlt : bag.buffer.length < n := hlen ▸ Nat.lt_of_not_le hn
    have hrefill := refill_of_lt hlt (h.halted.pull (Nat.sub_pos_of_lt hlt))
    rw [List.append_nil] at hrefill
    rw [if_neg hn, peek_of_fault hrefill, moved_self]

theorem describes (h : bag.Stopped good pieces) : Remainder.Describes pieces bag := by
  have hdrained : bag.isDrained = false := h.halted.isOver
  refine ⟨h.buffered, hdrained, ?_, ?_⟩
  · rw [isExhausted, hdrained, Bool.and_false]
  · intro n
    rw [h.peek, h.buffered, Remainder.peek]
    by_cases hn : n ≤ pieces.length <;> simp [hn]

/-- One call is answered from the pieces that remain. -/
theorem serve (h : bag.Stopped good pieces) (request : Request) : ∃ buffer,
    bag.serve request =
        (bag.moved bag.traversal buffer, (Remainder.serve pieces request).2) ∧
      (bag.moved bag.traversal buffer).Stopped good (Remainder.serve pieces request).1 := by
  obtain ⟨buffer, hpick, hrest⟩ := h.pick
  have hpeek := h.peek
  cases request with
  | pick => exact ⟨buffer, by rw [Bag.serve, hpick]; rfl, hrest⟩
  | pickKey => exact ⟨buffer, by rw [Bag.serve, pickKey, hpick]; rfl, hrest⟩
  | dealerPick => exact ⟨buffer, by rw [Bag.serve, dealer_pick, hpick]; rfl, hrest⟩
  | peek n => exact ⟨bag.buffer, by rw [Bag.serve, hpeek]; rfl, h⟩
  | peekKeys n => exact ⟨bag.buffer, by rw [Bag.serve, peekKeys, hpeek]; rfl, h⟩
  | dealerPeek n => exact ⟨bag.buffer, by rw [Bag.serve, dealer_peek, hpeek]; rfl, h⟩

/-- Calls in a row are, and all that changes is the buffer. -/
theorem serveAll (h : bag.Stopped good pieces) (requests : List Request) :
    let served := PieceSequencer.serveAll Bag.serve bag requests
    let left := PieceSequencer.serveAll Remainder.serve pieces requests
    served.2 = left.2 ∧ (∃ buffer, served.1 = bag.moved bag.traversal buffer) ∧
      served.1.Stopped good left.1 := by
  induction requests generalizing bag pieces with
  | nil => exact ⟨rfl, ⟨bag.buffer, rfl⟩, h⟩
  | cons request requests ih =>
      obtain ⟨buffer, hfirst, hstopped⟩ := h.serve request
      obtain ⟨hreplies, ⟨buffer', hmoved⟩, hlast⟩ := ih hstopped
      rw [serveAll_cons, serveAll_cons, hfirst]
      exact ⟨congrArg _ hreplies, ⟨buffer', hmoved⟩, hlast⟩

end Stopped

/-! ### Running into a fault -/

/-- A bag that has shown a fault has stopped. -/
theorem Sound.halted_serveAll (h : bag.Sound good) (requests : List Request) :
    let served := PieceSequencer.serveAll serve bag requests
    (∃ reply ∈ served.2, ∃ fault, reply.error? = some (.violated fault)) →
      served.1.traversal.Halted good := by
  induction requests generalizing bag with
  | nil =>
      rintro served ⟨reply, hreply, -⟩
      cases hreply
  | cons request requests ih =>
      have hfirst := h.serves request
      rw [serveAll_cons]
      rintro served ⟨reply, hreply, fault, hfault⟩
      rcases List.mem_cons.mp hreply with rfl | hreply
      · -- this call showed the fault, and whatever comes after it finds the bag stopped
        obtain ⟨pieces, hstopped⟩ := hfirst.sound.exists_stopped (hfirst.violated fault hfault)
        exact (hstopped.serveAll requests).2.2.halted
      · exact ih hfirst.sound ⟨reply, hreply, fault, hfault⟩

/-- **A broken promise of the shuffle stops a bag for good.**  Whatever the shuffle does, every
piece that a bag gives is one of the catalogue, and it calls itself exhausted only when it is.
Building it can fail only because an order names no child.  Once a call has shown a fault, neither
the stack nor the shuffle moves again, and all calls are answered from the buffer. -/
theorem build_stops {catalogue : Catalogue} {text : String} {p : Pattern}
    (hvalid : catalogue.validate = .ok ()) (hread : Pattern.ofText catalogue.keys text = .ok p)
    (hcount : p.countable = true) (shuffle : Shuffle σ) (source : σ) :
    (∀ failure, build catalogue text shuffle source = .error failure →
      ∃ fault, failure.error = .violated fault ∧
        fault.message = "frame position outside its children") ∧
    ∀ bag, build catalogue text shuffle source = .ok bag → ∀ requests : List Request,
      let served := serveAll serve bag requests
      (∀ reply ∈ served.2, reply.From catalogue) ∧
      (∀ request, (served.1.serve request).2.error? = some .exhausted →
        served.1.isExhausted = true ∧ (served.1.serve request).1 = served.1) ∧
      ((∃ reply ∈ served.2, ∃ fault, reply.error? = some (.violated fault)) →
        ∃ pieces, served.1.buffer.mapM served.1.piece = .ok pieces ∧
          ∀ later : List Request,
            let now := serveAll serve served.1 later
            let left := serveAll Remainder.serve pieces later
            now.2 = left.2 ∧ now.1 = { served.1 with buffer := now.1.buffer } ∧
              Remainder.Describes left.1 now.1) := by
  rcases build_sound hvalid hread hcount shuffle.yields_isSized source with h | h
  · obtain ⟨bag, hbag, hcatalogue, -, -, hsound, -⟩ := h
    rw [hbag]
    refine ⟨by rintro _ ⟨⟩, ?_⟩
    rintro _ ⟨⟩ requests served
    obtain ⟨-, hserved, hreplies⟩ := hsound.serveAll requests
    refine ⟨hcatalogue ▸ hreplies, ?_, ?_⟩
    · intro request hexhausted
      exact ((hserved.serves request).exhausted hexhausted).symm
    · intro hfault
      obtain ⟨pieces, hstopped⟩ :=
        hserved.exists_stopped (hsound.halted_serveAll requests hfault)
      refine ⟨pieces, mapM_eq_ok_iff.mpr hstopped.buffers, fun later => ?_⟩
      obtain ⟨hlater, ⟨buffer, hmoved⟩, hlast⟩ := hstopped.serveAll later
      exact ⟨hlater, by rw [hmoved]; rfl, hlast.describes⟩
  · obtain ⟨failure, hbuild, herror, -⟩ := h
    rw [hbuild]
    refine ⟨?_, by rintro _ ⟨⟩⟩
    rintro _ ⟨⟩
    exact ⟨_, herror, rfl⟩

/-- Puts the number of places into every place. -/
def absent : Shuffle Unit where
  draw := fun n state _ => (.replicate n n, state)

/-- A bag that runs into a fault with one piece in its buffer. -/
theorem standard_stops : ∃ bag : Bag Unit, build .standard "TT[IO]" absent () = .ok bag ∧
    let served := serveAll serve bag [.peek 2]
    (∃ reply ∈ served.2, reply.error? = some (.violated .positionOutsideChildren)) ∧
    ∃ pieces, served.1.buffer.mapM served.1.piece = .ok pieces ∧ pieces.length = 1 ∧
      ∀ later : List Request, (serveAll serve served.1 later).2 =
        (serveAll Remainder.serve pieces later).2 := by
  have hvalid : Catalogue.standard.validate = .ok () := by decide +kernel
  have hread : Pattern.ofText Catalogue.standard.keys "TT[IO]" = .ok ⟨[.piece 'T' 1,
      .piece 'T' 1, .random [.piece 'I' 1, .piece 'O' 1] 2 1], false⟩ := by
    decide +kernel
  have hstops := (build_stops hvalid hread (by decide) absent ()).2
  have hrun : (build .standard "TT[IO]" absent ()).toOption.map (fun bag =>
      ((bag.peek 2).2, (bag.peek 2).1.buffered)) =
        some (.error (.violated .positionOutsideChildren), 1) := by
    decide +kernel
  cases hbuild : build .standard "TT[IO]" absent () with
  | error failure => rw [hbuild] at hrun; cases hrun
  | ok bag =>
      rw [hbuild] at hrun
      obtain ⟨hpeek, hbuffered⟩ := Prod.mk.inj (Option.some.inj hrun)
      have hfault : (Reply.pieces (bag.peek 2).2).error? =
          some (.violated .positionOutsideChildren) := by rw [hpeek]; rfl
      obtain ⟨-, -, hlater⟩ := hstops bag hbuild [.peek 2]
      obtain ⟨pieces, hpieces, hall⟩ := hlater ⟨_, List.mem_singleton_self _, _, hfault⟩
      refine ⟨bag, rfl, ⟨_, List.mem_singleton_self _, hfault⟩, pieces, hpieces, ?_,
        fun later => (hall later).1⟩
      exact (hall []).2.2.buffered.symm.trans hbuffered

end Bag
end PieceSequencer
