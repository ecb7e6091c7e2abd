import PieceSequencer.Proofs.Bag.Calls

/-! # A bag shows the answers of its walk

All that a bag shows comes from the answers that its walk gives step by step.  Two walks, over
whatever arenas and with whatever shuffles, may give the same answers at every step
(`Traversal.SameAnswers`); bags around them that hold the same pieces are then told apart by no
calls, and any calls leave both the same number of steps further on (`Bag.SameAnswers.serveAll`).
With one bag in both places this says how far its walk is after the calls. -/

namespace PieceSequencer

variable {a b : Arena} {σ τ α β : Type}

namespace Traversal
variable {shuffle : Shuffle σ} {shuffle' : Shuffle τ} {t : Traversal a σ} {t' : Traversal b τ}

/-- The walks give the same answer at every step, and they are over together. -/
structure SameAnswers (shuffle : Shuffle σ) (shuffle' : Shuffle τ) (t : Traversal a σ)
    (t' : Traversal b τ) : Prop where
  next : ∀ n, ((t.after shuffle n).next shuffle).2 = ((t'.after shuffle' n).next shuffle').2
  isOver : ∀ n, (t.after shuffle n).isOver = (t'.after shuffle' n).isOver

theorem SameAnswers.refl (shuffle : Shuffle σ) (t : Traversal a σ) :
    SameAnswers shuffle shuffle t t :=
  ⟨fun _ => rfl, fun _ => rfl⟩

theorem SameAnswers.after (h : SameAnswers shuffle shuffle' t t') (m : Nat) :
    SameAnswers shuffle shuffle' (t.after shuffle m) (t'.after shuffle' m) := by
  constructor
  · intro n
    rw [← after_add, ← after_add]
    exact h.next (m + n)
  · intro n
    rw [← after_add, ← after_add]
    exact h.isOver (m + n)

/-- Pulling goes on for as long in both, with the same pieces. -/
theorem SameAnswers.pullOnto (h : SameAnswers shuffle shuffle' t t') (n : Nat)
    (taken : Array Nat) : ∃ steps pulled,
      t.pullOnto shuffle n taken = (t.after shuffle steps, pulled) ∧
      t'.pullOnto shuffle' n taken = (t'.after shuffle' steps, pulled) := by
  induction n generalizing t t' taken with
  | zero => exact ⟨0, _, rfl, rfl⟩
  | succ n ih =>
      have hanswer : (t.next shuffle).2 = (t'.next shuffle').2 := h.next 0
      have hrest : SameAnswers shuffle shuffle' (t.next shuffle).1 (t'.next shuffle').1 := h.after 1
      rw [Traversal.pullOnto, Traversal.pullOnto]
      cases hnext : t.next shuffle with
      | mk u answer =>
          cases hnext' : t'.next shuffle' with
          | mk u' answer' =>
              rw [hnext, hnext'] at hanswer hrest
              obtain rfl : answer = answer' := hanswer
              have hone : t.after shuffle 1 = u := congrArg Prod.fst hnext
              have hone' : t'.after shuffle' 1 = u' := congrArg Prod.fst hnext'
              cases answer with
              | error fault => exact ⟨1, _, by rw [hone], by rw [hone']⟩
              | ok index? =>
                  cases index? with
                  | none => exact ⟨1, _, by rw [hone], by rw [hone']⟩
                  | some index =>
                      obtain ⟨steps, pulled, hpull, hpull'⟩ := ih hrest (taken.push index)
                      refine ⟨steps + 1, pulled, ?_, ?_⟩
                      · rw [Traversal.after, hnext]
                        exact hpull
                      · rw [Traversal.after, hnext']
                        exact hpull'

end Traversal

namespace Bag

/-- Bags with the same pieces to show whose walks give the same answers. -/
structure SameAnswers (bag : Bag σ) (bag' : Bag τ) : Prop where
  catalogue : bag.catalogue = bag'.catalogue
  buffer : bag.buffer = bag'.buffer
  walk : bag.traversal.SameAnswers bag.shuffle bag'.shuffle bag'.traversal

/-- Calls of two bags show the same and leave them the same number of steps further on. -/
structure Together (bag : Bag σ) (bag' : Bag τ) (x : Bag σ × α) (x' : Bag τ × α) : Prop where
  shown : x.2 = x'.2
  moved : ∃ steps buffer, x.1 = bag.moved (bag.traversal.after bag.shuffle steps) buffer ∧
    x'.1 = bag'.moved (bag'.traversal.after bag'.shuffle steps) buffer

variable {bag : Bag σ} {bag' : Bag τ}

theorem SameAnswers.refl (bag : Bag σ) : bag.SameAnswers bag := ⟨rfl, rfl, .refl _ _⟩

/-- Bags that were told apart by no call are told apart by none behind it. -/
theorem SameAnswers.of_together {x : Bag σ × α} {x' : Bag τ × α} (h : bag.SameAnswers bag')
    (hx : Together bag bag' x x') : x.1.SameAnswers x'.1 := by
  obtain ⟨steps, buffer, hmoved, hmoved'⟩ := hx.moved
  rw [hmoved, hmoved']
  exact ⟨h.catalogue, rfl, h.walk.after steps⟩

theorem Together.trans {x : Bag σ × α} {x' : Bag τ × α} {y : Bag σ × β} {y' : Bag τ × β}
    (h : Together bag bag' x x') (h' : Together x.1 x'.1 y y') : Together bag bag' y y' := by
  obtain ⟨-, m, buffer, hx, hx'⟩ := h
  obtain ⟨hshown, n, buffer', hy, hy'⟩ := h'
  refine ⟨hshown, m + n, buffer', ?_, ?_⟩
  · rw [hy, hx, Traversal.after_add]
    rfl
  · rw [hy', hx', Traversal.after_add]
    rfl

/-- Showing something else instead. -/
theorem Together.map {x : Bag σ × α} {x' : Bag τ × α} (h : Together bag bag' x x') (f : α → β) :
    Together bag bag' (x.1, f x.2) (x'.1, f x'.2) :=
  ⟨congrArg f h.shown, h.moved⟩

/-- Nothing happens but that the buffers are exchanged. -/
theorem Together.of_buffers {buffer buffer' : List Nat} (hbuffer : buffer = buffer') {y y' : α}
    (hy : y = y') : Together bag bag' (bag.moved bag.traversal buffer, y)
      (bag'.moved bag'.traversal buffer', y') :=
  ⟨hy, 0, buffer, rfl, by rw [hbuffer]; rfl⟩

section
variable (h : bag.SameAnswers bag')
include h

theorem SameAnswers.piece_eq : bag.piece = bag'.piece := by
  funext index
  rw [piece, piece, h.catalogue]

theorem SameAnswers.refill (n : Nat) : Together bag bag' (bag.refill n) (bag'.refill n) := by
  rcases Nat.lt_or_ge bag.buffer.length n with hlt | hle
  · have hlt' : bag'.buffer.length < n := h.buffer ▸ hlt
    obtain ⟨steps, pulled, hpull, hpull'⟩ := h.walk.pullOnto (n - bag.buffer.length) #[]
    have hmore : bag.traversal.pull bag.shuffle (n - bag.buffer.length) =
        (bag.traversal.after bag.shuffle steps, pulled.1.toList, pulled.2) := by
      rw [Traversal.pull, hpull]
    have hmore' : bag'.traversal.pull bag'.shuffle (n - bag'.buffer.length) =
        (bag'.traversal.after bag'.shuffle steps, pulled.1.toList, pulled.2) := by
      rw [Traversal.pull, ← h.buffer, hpull']
    rw [refill_of_lt hlt hmore, refill_of_lt hlt' hmore']
    exact ⟨rfl, steps, _, rfl, by rw [h.buffer]⟩
  · rw [refill_of_le hle, refill_of_le (h.buffer ▸ hle)]
    exact .of_buffers h.buffer rfl

/-! ### Calls -/

theorem SameAnswers.pick : Together bag bag' bag.pick bag'.pick := by
  have hrefill := h.refill 1
  have hsame := h.of_together hrefill
  unfold Bag.pick
  generalize bag.refill 1 = x at hrefill hsame ⊢
  generalize bag'.refill 1 = x' at hrefill hsame ⊢
  obtain ⟨c, fault⟩ := x
  obtain ⟨c', fault'⟩ := x'
  obtain rfl : fault = fault' := hrefill.shown
  cases fault with
  | some fault => exact ⟨rfl, hrefill.moved⟩
  | none =>
      have hbuffer : c.buffer = c'.buffer := hsame.buffer
      simp only [← hbuffer]
      cases c.buffer with
      | nil => exact ⟨rfl, hrefill.moved⟩
      | cons index rest =>
          exact hrefill.trans (.of_buffers rfl (congrFun hsame.piece_eq index))

theorem SameAnswers.peek (n : Nat) : Together bag bag' (bag.peek n) (bag'.peek n) := by
  have hrefill := h.refill n
  have hsame := h.of_together hrefill
  unfold Bag.peek
  generalize bag.refill n = x at hrefill hsame ⊢
  generalize bag'.refill n = x' at hrefill hsame ⊢
  obtain ⟨c, fault⟩ := x
  obtain ⟨c', fault'⟩ := x'
  obtain rfl : fault = fault' := hrefill.shown
  cases fault with
  | some fault => exact ⟨rfl, hrefill.moved⟩
  | none =>
      refine ⟨?_, hrefill.moved⟩
      have hbuffer : c.buffer = c'.buffer := hsame.buffer
      have hpiece : c.piece = c'.piece := hsame.piece_eq
      simp only [hbuffer, hpiece]

theorem SameAnswers.serve (request : Request) :
    Together bag bag' (bag.serve request) (bag'.serve request) := by
  cases request with
  | pick => exact h.pick.map Reply.piece
  | pickKey => exact h.pick.map fun result => Reply.key (result.map Piece.key)
  | dealerPick => exact h.pick.map Reply.piece
  | peek n => exact (h.peek n).map Reply.pieces
  | peekKeys n => exact (h.peek n).map fun result => Reply.keys (result.map (·.map Piece.key))
  | dealerPeek n => exact (h.peek n).map Reply.pieces

/-- **No calls tell two bags apart whose walks give the same answers.** -/
theorem SameAnswers.serveAll (requests : List Request) :
    Together bag bag' (PieceSequencer.serveAll Bag.serve bag requests)
      (PieceSequencer.serveAll Bag.serve bag' requests) := by
  induction requests generalizing bag bag' with
  | nil => exact .of_buffers h.buffer rfl
  | cons request requests ih =>
      have hfirst := h.serve request
      have hrest := ih (h.of_together hfirst)
      have hall := hfirst.trans hrest
      rw [serveAll_cons, serveAll_cons]
      exact ⟨congrArg₂ List.cons hfirst.shown hrest.shown, hall.moved⟩

/-- Nor does what they say of themselves. -/
theorem SameAnswers.states : bag.buffered = bag'.buffered ∧ bag.isDrained = bag'.isDrained ∧
    bag.isExhausted = bag'.isExhausted := by
  have hbuffer := h.buffer
  have hover : bag.isDrained = bag'.isDrained := h.walk.isOver 0
  exact ⟨congrArg List.length hbuffer, hover, by rw [isExhausted, isExhausted, hbuffer, hover]⟩

end

end Bag

end PieceSequencer
