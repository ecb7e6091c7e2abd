import PieceSequencer.Proofs.Bag.Course

/-! # A bag is a cursor over its stream

Whatever calls are made of a bag and in whatever order, it behaves as two numbers do that move
along one fixed stream: how many pieces have been taken, and how many have been resolved.  One
call of a bag on a course does what the same call of the cursor does (`Course.serve_bagAt`); a
row of calls follows by induction. -/

namespace PieceSequencer

/-! ### Calls -/

/-- A call of a bag, made directly or as of any dealer. -/
inductive Request where
  | pick
  | pickKey
  | peek (n : Nat)
  | peekKeys (n : Nat)
  | dealerPick
  | dealerPeek (n : Nat)
  deriving DecidableEq, Repr

/-- What comes back. -/
inductive Reply where
  | piece (result : Except BagError Piece)
  | key (result : Except BagError Char)
  | pieces (result : Except BagError (List Piece))
  | keys (result : Except BagError (List Char))

/-- A call of a bag. -/
def Bag.serve {σ : Type} (bag : Bag σ) : Request → Bag σ × Reply
  | .pick => (bag.pick.1, .piece bag.pick.2)
  | .pickKey => (bag.pickKey.1, .key bag.pickKey.2)
  | .peek n => ((bag.peek n).1, .pieces (bag.peek n).2)
  | .peekKeys n => ((bag.peekKeys n).1, .keys (bag.peekKeys n).2)
  | .dealerPick => (((Bag.dealer σ).pick bag).1, .piece ((Bag.dealer σ).pick bag).2)
  | .dealerPeek n => (((Bag.dealer σ).peek bag n).1, .pieces ((Bag.dealer σ).peek bag n).2)

/-- Calls in a row. -/
def serveAll {β : Type} (serve : β → Request → β × Reply) : β → List Request → β × List Reply
  | state, [] => (state, [])
  | state, request :: requests =>
    let (state, reply) := serve state request
    let (state, replies) := serveAll serve state requests
    (state, reply :: replies)

/-! ### Cursors -/

/-- How many pieces of a stream have been taken, and how many have been resolved. -/
structure Cursor where
  taken : Nat
  resolved : Nat
  deriving DecidableEq, Repr

namespace Cursor
variable {s : Nat → Piece} {count : ℕ∞}

/-- Nothing taken, nothing resolved. -/
def start : Cursor := ⟨0, 0⟩

/-- Takes the next piece, if there is one. -/
def pick (s : Nat → Piece) (count : ℕ∞) (cursor : Cursor) : Cursor × Except BagError Piece :=
  if cursor.taken < count then
    (⟨cursor.taken + 1, max cursor.resolved (cursor.taken + 1)⟩, .ok (s cursor.taken))
  else (cursor, .error .exhausted)

/-- Looks at up to `n` pieces to come, as many as there are. -/
noncomputable def peek (s : Nat → Piece) (count : ℕ∞) (cursor : Cursor) (n : Nat) :
    Cursor × List Piece :=
  let last := (min ((cursor.taken + n : Nat) : ℕ∞) count).toNat
  (⟨cursor.taken, max cursor.resolved last⟩,
    (List.range' cursor.taken (last - cursor.taken)).map s)

/-- A call of a cursor. -/
noncomputable def serve (s : Nat → Piece) (count : ℕ∞) (cursor : Cursor) : Request → Cursor × Reply
  | .pick | .dealerPick => ((cursor.pick s count).1, .piece (cursor.pick s count).2)
  | .pickKey => ((cursor.pick s count).1, .key ((cursor.pick s count).2.map Piece.key))
  | .peek n | .dealerPeek n => ((cursor.peek s count n).1, .pieces (.ok (cursor.peek s count n).2))
  | .peekKeys n =>
    ((cursor.peek s count n).1, .keys (.ok ((cursor.peek s count n).2.map Piece.key)))

/-- The cursor lies on the stream, with its two numbers in order. -/
structure Within (cursor : Cursor) (count : ℕ∞) : Prop where
  taken_le : cursor.taken ≤ cursor.resolved
  resolved_le : cursor.resolved ≤ count

theorem within_start : start.Within count := ⟨le_rfl, zero_le⟩

theorem cast_max_le {m n : Nat} (hm : m ≤ count) (hn : n ≤ count) :
    ((max m n : Nat) : ℕ∞) ≤ count := by
  rcases le_total m n with h | h
  · rwa [max_eq_right h]
  · rwa [max_eq_left h]

theorem Within.pick {cursor : Cursor} (h : cursor.Within count) (s : Nat → Piece) :
    (cursor.pick s count).1.Within count := by
  unfold Cursor.pick
  by_cases hlt : cursor.taken < count
  · have hnext : ((cursor.taken + 1 : Nat) : ℕ∞) ≤ count := by
      exact_mod_cast Order.add_one_le_of_lt hlt
    rw [if_pos hlt]
    exact ⟨le_max_right _ _, cast_max_le h.resolved_le hnext⟩
  · rw [if_neg hlt]
    exact h

theorem Within.peek {cursor : Cursor} (h : cursor.Within count) (s : Nat → Piece) (n : Nat) :
    (cursor.peek s count n).1.Within count :=
  ⟨h.taken_le.trans (le_max_left _ _), cast_max_le h.resolved_le (Traversal.reach_le _ _)⟩

theorem Within.serve {cursor : Cursor} (h : cursor.Within count) (s : Nat → Piece)
    (request : Request) : (cursor.serve s count request).1.Within count := by
  cases request with
  | pick => exact h.pick s
  | pickKey => exact h.pick s
  | peek n => exact h.peek s n
  | peekKeys n => exact h.peek s n
  | dealerPick => exact h.pick s
  | dealerPeek n => exact h.peek s n

/-- What can be seen of a bag is what the cursor says. -/
structure Describes {σ : Type} (cursor : Cursor) (count : ℕ∞) (bag : Bag σ) : Prop where
  buffered : bag.buffered = cursor.resolved - cursor.taken
  drained : bag.isDrained = true ↔ cursor.resolved = count
  exhausted : bag.isExhausted = true ↔ cursor.taken = count

end Cursor

/-! ### Bags as cursors -/

namespace Bag
variable {σ : Type} {bag : Bag σ}

/-- The bag at a cursor. -/
def Course.bagOf (course : bag.Course) (cursor : Cursor) : Bag σ :=
  course.bagAt cursor.taken cursor.resolved

namespace Course
variable (course : bag.Course) {s : Nat → Piece} {cursor : Cursor}

theorem describes_bagOf (h : cursor.Within course.count) :
    cursor.Describes course.count (course.bagOf cursor) := by
  have hdrained : (course.bagOf cursor).isDrained = true ↔
      (cursor.resolved : ℕ∞) = course.count := by
    rw [isDrained, bagOf, bagAt, course.gives.isOver_iff]
    exact ⟨fun hle => le_antisymm h.resolved_le hle, fun heq => heq.ge⟩
  have htaken := h.taken_le
  refine ⟨?_, hdrained, ?_⟩
  · rw [buffered, bagOf, bagAt, List.length_map, List.length_range']
  · rw [isExhausted, Bool.and_eq_true, hdrained, bagOf, bagAt, List.isEmpty_iff,
      List.map_eq_nil_iff, List.range'_eq_nil_iff]
    constructor
    · rintro ⟨hempty, hend⟩
      rw [← hend, Nat.cast_inj]
      omega
    · intro hend
      have hle : cursor.resolved ≤ cursor.taken := Nat.cast_le.mp (h.resolved_le.trans hend.ge)
      have heq : cursor.resolved = cursor.taken := le_antisymm hle htaken
      exact ⟨by omega, by rw [heq, hend]⟩

theorem pick_bagOf (hs : ∀ n : Nat, n < course.count → course.pieces n = s n)
    (h : cursor.Within course.count) : (course.bagOf cursor).pick =
      (course.bagOf (cursor.pick s course.count).1, (cursor.pick s course.count).2) := by
  unfold Cursor.pick bagOf
  by_cases hlt : cursor.taken < course.count
  · rw [if_pos hlt, course.pick_bagAt_of_lt h.taken_le h.resolved_le hlt, hs _ hlt]
  · have htaken : (cursor.taken : ℕ∞) = course.count :=
      le_antisymm ((Nat.cast_le.mpr h.taken_le).trans h.resolved_le) (not_lt.mp hlt)
    have hresolved : cursor.resolved = cursor.taken :=
      le_antisymm (Nat.cast_le.mp (h.resolved_le.trans htaken.ge)) h.taken_le
    rw [if_neg hlt, hresolved, course.pick_bagAt_of_eq htaken]

theorem peek_bagOf (hs : ∀ n : Nat, n < course.count → course.pieces n = s n)
    (h : cursor.Within course.count) (n : Nat) : (course.bagOf cursor).peek n =
      (course.bagOf (cursor.peek s course.count n).1, .ok (cursor.peek s course.count n).2) := by
  have hcount := Traversal.reach_le course.count (cursor.taken + n)
  have hpieces : ∀ k ∈ List.range' cursor.taken
      (Traversal.reach course.count (cursor.taken + n) - cursor.taken),
      course.pieces k = s k := by
    intro k hk
    rw [List.mem_range'_1] at hk
    exact hs k (lt_of_lt_of_le (Nat.cast_lt.mpr (by omega)) hcount)
  rw [bagOf, course.peek_bagAt h.taken_le h.resolved_le, List.map_congr_left hpieces]
  rfl

/-- One call of the bag is that call of the cursor. -/
theorem serve_bagOf (hs : ∀ n : Nat, n < course.count → course.pieces n = s n)
    (h : cursor.Within course.count) (request : Request) :
    (course.bagOf cursor).serve request =
      (course.bagOf (cursor.serve s course.count request).1,
        (cursor.serve s course.count request).2) := by
  have hpick := course.pick_bagOf hs h
  have hpeek := course.peek_bagOf hs h
  cases request with
  | pick => rw [serve, hpick]; rfl
  | pickKey => rw [serve, pickKey, hpick]; rfl
  | peek n => rw [serve, hpeek]; rfl
  | peekKeys n => rw [serve, peekKeys, hpeek]; rfl
  | dealerPick => rw [serve, dealer_pick, hpick]; rfl
  | dealerPeek n => rw [serve, dealer_peek, hpeek]; rfl

/-- Calls in a row. -/
theorem serveAll_bagOf (hs : ∀ n : Nat, n < course.count → course.pieces n = s n)
    (h : cursor.Within course.count) (requests : List Request) :
    (serveAll (Cursor.serve s course.count) cursor requests).1.Within course.count ∧
    serveAll Bag.serve (course.bagOf cursor) requests =
      (course.bagOf (serveAll (Cursor.serve s course.count) cursor requests).1,
        (serveAll (Cursor.serve s course.count) cursor requests).2) := by
  induction requests generalizing cursor with
  | nil => exact ⟨h, rfl⟩
  | cons request requests ih =>
      obtain ⟨hwithin, hrest⟩ := ih (h.serve s request)
      refine ⟨hwithin, ?_⟩
      simp only [serveAll, course.serve_bagOf hs h request, hrest]

/-- A bag from its beginning on. -/
theorem Follows.serveAll {course : bag.Course} {p : Pattern} {source : σ}
    (hfollows : course.Follows p source)
    (hs : ∀ n : Nat, n < course.count → course.pieces n = s n) (requests : List Request) :
    let served := PieceSequencer.serveAll Bag.serve bag requests
    let moved := PieceSequencer.serveAll (Cursor.serve s course.count) .start requests
    moved.1.Within course.count ∧ served.2 = moved.2 ∧ moved.1.Describes course.count served.1 ∧
      served.1.source = p.sourceAt bag.shuffle source moved.1.resolved := by
  have hall := course.serveAll_bagOf hs Cursor.within_start requests
  have hstart : course.bagOf .start = bag := course.bagAt_zero hfollows.buffer_eq
  rw [hstart] at hall
  obtain ⟨hwithin, hserved⟩ := hall
  intro served moved
  rw [show served = _ from hserved]
  exact ⟨hwithin, rfl, course.describes_bagOf hwithin, hfollows.source_eq _ _⟩

end Course

/-- Two bags of a pattern are on the same course, if the shuffle of one refines that of the
other. -/
theorem Course.Follows.pieces_eq {τ : Type} {bag' : Bag τ} {course : bag.Course}
    {course' : bag'.Course} {p : Pattern} (forget : τ → σ) {source : τ}
    (h : course.Follows p (forget source)) (h' : course'.Follows p source)
    (hcatalogue : bag'.catalogue = bag.catalogue) (hwf : p.wellFormed bag.catalogue.keys = true)
    (hin : bag.shuffle.Inside) (hs : bag'.shuffle.Refines bag.shuffle forget) :
    course'.count = course.count ∧
      ∀ n : Nat, n < course.count → course'.pieces n = course.pieces n := by
  have hcount : course'.count = course.count := by
    rw [h.count_eq, h'.count_eq, p.stopCount_forget hs]
  refine ⟨hcount, ?_⟩
  intro n hn
  rw [h.count_eq, p.lt_stopCount_iff hwf hin] at hn
  obtain ⟨stop, hstop⟩ := hn
  have hforget := p.stop?_forget hs source n
  rw [hstop] at hforget
  obtain ⟨stop', hstop', hmap⟩ := Option.map_eq_some_iff.mp hforget.symm
  have hpiece := h.find?_eq n stop hstop
  have hpiece' := h'.find?_eq n stop' hstop'
  rw [← hmap] at hpiece
  rw [hcatalogue] at hpiece'
  exact Option.some.inj (hpiece'.symm.trans hpiece)

/-- **A bag refines a cursor over its stream of picks.** -/
theorem build_refines_cursor {catalogue : Catalogue} {text : String} {p : Pattern}
    {shuffle : Shuffle σ} {source : σ} (hvalid : catalogue.validate = .ok ())
    (hread : Pattern.ofText catalogue.keys text = .ok p) (hcount : p.countable = true)
    (hperm : shuffle.Permuting) :
    ∃ (bag : Bag σ) (counted : Bag (σ × Nat)) (s : Nat → Piece) (count : ℕ∞),
      build catalogue text shuffle source = .ok bag ∧
      build catalogue text shuffle.counted (source, 0) = .ok counted ∧
      (∀ n : Nat, n < count → (bag.afterPicks n).pick.2 = .ok (s n)) ∧
      (∀ n : Nat, count ≤ n → (bag.afterPicks n).pick.2 = .error .exhausted) ∧
      ∀ requests : List Request,
        let served := serveAll serve bag requests
        let served' := serveAll serve counted requests
        let moved := serveAll (Cursor.serve s count) .start requests
        moved.1.Within count ∧ served.2 = moved.2 ∧ moved.1.Describes count served.1 ∧
        served'.2 = moved.2 ∧ moved.1.Describes count served'.1 ∧
        served'.1.source.2 = (p.sourceAt shuffle.counted (source, 0) moved.1.resolved).2 := by
  have hwf := p.wellFormed_of_ofText hread hcount
  obtain ⟨bag, course, hbuild, rfl, rfl, hfollows⟩ :=
    build_course hvalid hread hcount hperm.inside source
  obtain ⟨counted, course', hbuild', hcatalogue, hshuffle, hfollows'⟩ :=
    build_course hvalid hread hcount hperm.counted.inside (source, 0)
  obtain ⟨hend, hpieces⟩ := hfollows.pieces_eq Prod.fst hfollows' hcatalogue hwf
    hperm.inside (hshuffle ▸ bag.shuffle.refines_counted)
  refine ⟨bag, counted, course.pieces, course.count, hbuild, hbuild',
    fun n hn => course.pick_afterPicks_of_lt hfollows.buffer_eq hn,
    fun n hn => course.pick_afterPicks_of_le hfollows.buffer_eq hn, ?_⟩
  · intro requests
    obtain ⟨hwithin, hreplies, hdescribes, -⟩ := hfollows.serveAll (fun _ _ => rfl) requests
    obtain ⟨-, hreplies', hdescribes', hsource⟩ :=
      hfollows'.serveAll (hend ▸ hpieces) requests
    rw [hend] at hreplies' hdescribes' hsource
    rw [hshuffle] at hsource
    exact ⟨hwithin, hreplies, hdescribes, hreplies', hdescribes', congrArg Prod.snd hsource⟩

/-- The same calls of a bag of the standard pieces and of a cursor. -/
theorem standard_refines_cursor : ∃ (bag : Bag Congruential) (s : Nat → Piece) (count : ℕ∞),
    build .standard "[TI:1]*2(LJ)*2" Congruential.shuffle (.ofSeed 42) = .ok bag ∧
    ∀ requests : List Request, (serveAll serve bag requests).2 =
      (serveAll (Cursor.serve s count) .start requests).2 := by
  have hvalid : Catalogue.standard.validate = .ok () := by decide +kernel
  have hread : Pattern.ofText Catalogue.standard.keys "[TI:1]*2(LJ)*2" = .ok ⟨[.random [
      .piece 'T' 1, .piece 'I' 1] 1 2, .group [.piece 'L' 1, .piece 'J' 1] 2], false⟩ := by
    decide +kernel
  obtain ⟨bag, _, s, count, hbuild, -, -, -, hserved⟩ :=
    build_refines_cursor hvalid hread (by decide) Congruential.permuting_shuffle
  exact ⟨bag, s, count, hbuild, fun requests => (hserved requests).2.1⟩

end Bag

end PieceSequencer
