import PieceSequencer.Proofs.Bag.Answers

/-! # The draws of a walk

Which draws a walk makes, in order, and for which random group: `Arena.draws`.  The group matters
because of every drawn order it visits only the first few places.  The list is computed beside the
walk, by the same recursion, and is what the shuffle itself sees of it: whatever a shuffle tracks of
its own draws can be told from the list (`track_next`), in particular their number and the record
of what was dealt (`Bag.recorded_draws`). -/

namespace PieceSequencer

/-- A draw for a random group: how many places of an order the group visits, and the order that was
dealt. -/
structure Draw where
  picks : Nat
  order : Array Nat

/-- The dealt places as a recording shuffle writes them down: those in front of it and those behind
it. -/
def Draw.entry (d : Draw) : List Nat × List Nat := (List.range d.order.size, d.order.toList)

variable {a : Arena} {σ α : Type}

/-- The draw that entering a slot makes, if it is a random group: it gives the frame its order. -/
def Frame.enterDraws (shuffle : Shuffle σ) (source : σ) (slot : Fin a.size) : List Draw :=
  let frame := (Frame.enter shuffle source slot).1
  match frame.content with
  | .random _ picks _ => [⟨picks, frame.order⟩]
  | .piece .. | .group .. | .root .. => []

namespace Traversal

/-- The draws of going down from a frame. -/
def descendDraws (shuffle : Shuffle σ) (frame : Frame a) (source : σ) : List Draw :=
  match frame.content with
  | .piece .. => []
  | _ =>
    match found : frame.child? with
    | none => []
    | some child =>
      have inside : child < a.size :=
        Nat.lt_of_lt_of_le (Frame.child?_lt_rank found).2 (rank_le_size _)
      let entered := Frame.enter shuffle source ⟨child, inside⟩
      Frame.enterDraws shuffle source ⟨child, inside⟩ ++
        descendDraws shuffle entered.1 entered.2
termination_by a.rank frame.slot
decreasing_by
  have bounds := Frame.child?_lt_rank found
  rw [Frame.slot_enter, rank_of_pos bounds.1]
  exact bounds.2

/-- The draws of entering a slot and going down from there. -/
def visitDraws (shuffle : Shuffle σ) (slot : Fin a.size) (source : σ) : List Draw :=
  let entered := Frame.enter shuffle source slot
  Frame.enterDraws shuffle source slot ++ descendDraws shuffle entered.1 entered.2

/-- The draws of going up from a finished child and down again. -/
def unwindDraws (shuffle : Shuffle σ) : List (Frame a) → σ → List Draw
  | [], _ => []
  | frame :: below, source =>
    match frame.content with
    | .piece .. => []
    | .root children forever =>
      if frame.current + 1 < children.size then descendDraws shuffle frame.advance source
      else if forever then descendDraws shuffle frame source
      else []
    | .group children r =>
      if frame.current + 1 < children.size then descendDraws shuffle frame.advance source
      else if frame.rounds + 1 < r.toNat then descendDraws shuffle frame.replay source
      else unwindDraws shuffle below source
    | .random children picks r =>
      if frame.current + 1 < min picks children.size then
        descendDraws shuffle frame.advance source
      else if frame.rounds + 1 < r.toNat then
        let redrawn := frame.redraw shuffle source
        ⟨picks, redrawn.1.order⟩ :: descendDraws shuffle redrawn.1 redrawn.2
      else unwindDraws shuffle below source

/-- The draws of one step. -/
def nextDraws (shuffle : Shuffle σ) (t : Traversal a σ) : List Draw :=
  match t.stack with
  | [] => []
  | frame :: below =>
    match frame.content with
    | .piece _ r =>
      if frame.rounds + 1 < r.toNat then [] else unwindDraws shuffle below t.source
    | _ => []

/-- The draws of a number of steps. -/
def drawsFrom (shuffle : Shuffle σ) : Nat → Traversal a σ → List Draw
  | 0, _ => []
  | n + 1, t => t.nextDraws shuffle ++ drawsFrom shuffle n (t.next shuffle).1

end Traversal

/-- The draws of a walk through the arena: those on the way to the first piece, and those of a
number of steps from there. -/
def Arena.draws (a : Arena) (shuffle : Shuffle σ) (source : σ) (steps : Nat) : List Draw :=
  Traversal.visitDraws shuffle a.root source ++
    Traversal.drawsFrom shuffle steps (Traversal.start shuffle source : Traversal.Outcome a σ).1

/-! ### What a shuffle tracks of its draws -/

/-- What is tracked of the state changes with every draw by what was dealt, and by nothing else. -/
def Shuffle.Tracks (shuffle : Shuffle σ) (track : σ → α) (f : α → Array Nat → α) : Prop :=
  ∀ n state, track (shuffle.deal n state).2 = f (track state) (shuffle.deal n state).1

/-- A number that counts the draws. -/
abbrev Shuffle.Counts (shuffle : Shuffle σ) (count : σ → Nat) : Prop :=
  shuffle.Tracks count fun draws _ => draws + 1

theorem Shuffle.counts_counted (shuffle : Shuffle σ) : shuffle.counted.Counts Prod.snd :=
  fun _ _ => rfl

theorem Shuffle.tracks_recorded (shuffle : Shuffle σ) : shuffle.recorded.Tracks Prod.snd
    fun record order => record ++ [(List.range order.size, order.toList)] := by
  intro n state
  simp only [size_deal]
  simp only [deal, recorded]
  rw [Vector.toList_range]
  rfl

/-- What has been tracked behind some draws. -/
def Draw.followed (f : α → Array Nat → α) (x : α) (draws : List Draw) : α :=
  draws.foldl (fun x d => f x d.order) x

theorem Draw.followed_append (f : α → Array Nat → α) (x : α) (draws more : List Draw) :
    followed f x (draws ++ more) = followed f (followed f x draws) more := List.foldl_append

theorem Draw.followed_count (n : Nat) (draws : List Draw) :
    followed (fun draws _ => draws + 1) n draws = n + draws.length := by
  induction draws generalizing n with
  | nil => rfl
  | cons d draws ih =>
      rw [List.length_cons, Nat.add_comm draws.length, ← Nat.add_assoc]
      exact ih (n + 1)

theorem Draw.followed_record (record : List (List Nat × List Nat)) (draws : List Draw) :
    followed (fun record order => record ++ [(List.range order.size, order.toList)]) record draws =
      record ++ draws.map entry := by
  induction draws generalizing record with
  | nil => exact (List.append_nil record).symm
  | cons d draws ih =>
      rw [List.map_cons, List.append_cons]
      exact ih _

namespace Traversal
variable {shuffle : Shuffle σ} {track : σ → α} {f : α → Array Nat → α}

/-! ### Going down -/

theorem descendDraws_of_piece {frame : Frame a} {index : Nat} {r : UInt32}
    (h : frame.content = .piece index r) (source : σ) :
    descendDraws shuffle frame source = [] := by
  unfold descendDraws
  rw [h]

theorem descendDraws_of_child {frame : Frame a} (slot : Fin a.size)
    (h : frame.child? = some slot.val) (source : σ) :
    descendDraws shuffle frame source = visitDraws shuffle slot source := by
  unfold descendDraws
  split
  · rename_i index r hpiece
    rw [Frame.child?_of_piece hpiece] at h
    cases h
  · split
    · rename_i hnone
      rw [h] at hnone
      cases hnone
    · rename_i child hchild
      rw [h] at hchild
      cases hchild
      rfl

theorem descendDraws_of_none {frame : Frame a} (h : frame.child? = none) (source : σ) :
    descendDraws shuffle frame source = [] := by
  unfold descendDraws
  split
  · rfl
  · split
    · rfl
    · rename_i child hchild
      rw [h] at hchild
      cases hchild

/-- Where going down leads: nowhere from a piece or where the order names no child, and to a lower
frame otherwise. -/
theorem descent_cases (frame : Frame a) :
    (∃ index r, frame.content = .piece index r) ∨
    (frame.content.isPiece = false ∧ frame.child? = none) ∨
    ∃ slot : Fin a.size, frame.child? = some slot.val ∧ a.rank slot < a.rank frame.slot := by
  cases hchild : frame.child? with
  | none =>
      cases frame.content with
      | piece index r => exact .inl ⟨index, r, rfl⟩
      | _ => exact .inr (.inl ⟨rfl, rfl⟩)
  | some child =>
      obtain ⟨hpos, hlt⟩ := Frame.child?_lt_rank hchild
      refine .inr (.inr ⟨⟨child, hlt.trans_le (rank_le_size _)⟩, rfl, ?_⟩)
      rwa [rank_of_pos hpos]

section
variable (htracks : shuffle.Tracks track f)
include htracks

theorem track_enter (source : σ) (slot : Fin a.size) :
    track (Frame.enter shuffle source slot).2 =
      Draw.followed f (track source) (Frame.enterDraws shuffle source slot) := by
  unfold Frame.enterDraws
  simp only [Frame.content_enter]
  unfold Frame.enter
  cases a.slots[slot] with
  | random children picks r => exact htracks _ _
  | _ => rfl

theorem track_descend (frame : Frame a) (below : List (Frame a)) (source : σ) :
    track (descend shuffle frame below source).1.source =
      Draw.followed f (track source) (descendDraws shuffle frame source) := by
  induction hrank : a.rank frame.slot using Nat.strong_induction_on
    generalizing frame below source with
  | _ n ih =>
      subst hrank
      rcases descent_cases frame with ⟨index, r, hcontent⟩ | ⟨hinner, hnone⟩ | ⟨slot, hchild, hlt⟩
      · rw [descend_of_piece hcontent, descendDraws_of_piece hcontent]
        rfl
      · rw [descend_of_none hinner hnone, descendDraws_of_none hnone]
        rfl
      · rw [descend_of_child slot hchild, descendDraws_of_child slot hchild, visitDraws,
          Draw.followed_append, ← track_enter htracks]
        exact ih _ (by rwa [Frame.slot_enter]) _ _ _ rfl

theorem track_unwind (stack : List (Frame a)) (source : σ) :
    track (unwind shuffle stack source).1.source =
      Draw.followed f (track source) (unwindDraws shuffle stack source) := by
  induction stack with
  | nil => rfl
  | cons frame below ih =>
      rw [unwind, unwindDraws]
      cases frame.content with
      | piece index r => rfl
      | root children forever =>
          simp only
          split
          · exact track_descend htracks _ _ _
          · split
            · exact track_descend htracks _ _ _
            · rfl
      | group children r =>
          simp only
          split
          · exact track_descend htracks _ _ _
          · split
            · exact track_descend htracks _ _ _
            · exact ih
      | random children picks r =>
          simp only
          split
          · exact track_descend htracks _ _ _
          · split
            · have hdealt : track (frame.redraw shuffle source).2 =
                  f (track source) (frame.redraw shuffle source).1.order := htracks _ _
              rw [track_descend htracks, hdealt]
              rfl
            · exact ih

/-- One step. -/
theorem track_next (t : Traversal a σ) : track (t.next shuffle).1.source =
    Draw.followed f (track t.source) (t.nextDraws shuffle) := by
  obtain ⟨stack, source⟩ := t
  cases stack with
  | nil => rfl
  | cons frame below =>
      cases hcontent : frame.content with
      | piece index r =>
          rw [next_of_piece hcontent, nextDraws]
          simp only [hcontent]
          split
          · rfl
          · have hup := track_unwind htracks below source
            cases hunwind : unwind shuffle below source with
            | mk t fault =>
                rw [hunwind] at hup
                cases fault <;> exact hup
      | _ =>
          unfold next nextDraws
          simp only [hcontent]
          rfl

theorem track_start (source : σ) :
    track (start shuffle source : Outcome a σ).1.source =
      Draw.followed f (track source) (visitDraws shuffle a.root source) := by
  rw [start, track_descend htracks, track_enter htracks, ← Draw.followed_append]
  rfl

end

/-! ### Steps in a row -/

/-- What has been tracked after a number of steps. -/
theorem track_after (htracks : shuffle.Tracks track f) (n : Nat) (t : Traversal a σ) :
    track (t.after shuffle n).source =
      Draw.followed f (track t.source) (t.drawsFrom shuffle n) := by
  induction n generalizing t with
  | zero => rfl
  | succ n ih => rw [after, ih, track_next htracks, drawsFrom, Draw.followed_append]

end Traversal

namespace Bag
variable {bag : Bag σ}

/-- A bag that has been built stands at its first piece. -/
theorem start_of_build {catalogue : Catalogue} {text : String} {shuffle : Shuffle σ} {source : σ}
    (h : build catalogue text shuffle source = .ok bag) : bag.shuffle = shuffle ∧
      bag.buffer = [] ∧ Traversal.start shuffle source = (bag.traversal, none) := by
  unfold build at h
  split at h
  · cases h
  · split at h
    · cases h
    · split at h
      · cases h
      · split at h
        · cases h
        · rename_i hstart
          cases h
          exact ⟨rfl, rfl, hstart⟩

/-- **The draws of a walk are those that its shuffle is asked for.**  Whatever calls are made of a
bag, what its shuffle has recorded by then are the draws of a number of steps. -/
theorem recorded_draws {catalogue : Catalogue} {text : String} {shuffle : Shuffle σ} {source : σ}
    {bag : Bag (σ × List (List Nat × List Nat))}
    (h : build catalogue text shuffle.recorded (source, []) = .ok bag) (requests : List Request) :
    ∃ steps, (serveAll serve bag requests).1.source.2 =
      (bag.arena.draws shuffle.recorded (source, []) steps).map Draw.entry := by
  obtain ⟨hshuffle, -, hstart⟩ := start_of_build h
  obtain ⟨steps, buffer, hserved, -⟩ := ((SameAnswers.refl bag).serveAll requests).moved
  have htracks := shuffle.tracks_recorded
  have hfirst := Traversal.track_start (a := bag.arena) htracks (source, [])
  have hlast := Traversal.track_after htracks steps bag.traversal
  refine ⟨steps, ?_⟩
  rw [hserved, hshuffle]
  rw [hstart] at hfirst
  rw [hfirst, ← Draw.followed_append, Draw.followed_record, List.nil_append] at hlast
  rw [Arena.draws, hstart]
  exact hlast

end Bag

end PieceSequencer
