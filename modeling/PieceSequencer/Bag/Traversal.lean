import PieceSequencer.Bag.Arena
import PieceSequencer.Shuffle.Basic

/-! # Walking through an arena

A traversal stands at one piece at a time. Its stack leads from that piece up to the root; each
frame knows the order in which the children of its slot are visited, how far it has come, and
how many rounds it has completed. `Traversal.next` gives the piece and moves on to the one
behind it, so random groups are drawn one piece ahead.

A step can fail half-way; what has been changed by then stays changed. -/

namespace PieceSequencer

/-- A slot that has been entered. -/
structure Frame (a : Arena) where
  slot : Fin a.size
  /-- The order in which the children are visited. -/
  order : Array Nat
  /-- The position in `order` that is being visited. -/
  current : Nat
  /-- The number of completed rounds. -/
  rounds : Nat

/-- A place in the walk: the frames from the innermost one up to the root, and the state of the
shuffle. There is no frame when the walk is over. -/
structure Traversal (a : Arena) (σ : Type) where
  stack : List (Frame a)
  source : σ

namespace Frame

variable {a : Arena} {σ : Type}

/-- The slot of a frame. -/
def content (frame : Frame a) : Slot := a.slots[frame.slot]

/-- Enters a slot. A random group draws a fresh order, any other visits its children as written. -/
def enter (shuffle : Shuffle σ) (source : σ) (slot : Fin a.size) : Frame a × σ :=
  match a.slots[slot] with
  | .random children _ _ =>
    let (order, source) := shuffle.deal children.size source
    (⟨slot, order, 0, 0⟩, source)
  | content => (⟨slot, Array.range content.children.size, 0, 0⟩, source)

@[simp] theorem slot_enter (shuffle : Shuffle σ) (source : σ) (slot : Fin a.size) :
    (enter shuffle source slot).1.slot = slot := by
  unfold enter
  split <;> rfl

/-- The place of the child that a frame visits. -/
def child? (frame : Frame a) : Option Nat :=
  match frame.order[frame.current]? with
  | some index => frame.content.children[index]?
  | none => none

/-- A child ranks below its frame. -/
theorem child?_lt_rank {frame : Frame a} {child : Nat} (hfound : frame.child? = some child) :
    0 < child ∧ child < a.rank frame.slot := by
  unfold child? at hfound
  split at hfound
  · exact a.ordered frame.slot frame.content (by simp [content]) child
      (Array.mem_of_getElem? hfound)
  · cases hfound

/-- The next child. -/
def advance (frame : Frame a) : Frame a := { frame with current := frame.current + 1 }

/-- The first child in the same order, for another round. -/
def replay (frame : Frame a) : Frame a :=
  { frame with current := 0, rounds := frame.rounds + 1 }

/-- The first child in a fresh order, for another round. -/
def redraw (shuffle : Shuffle σ) (source : σ) (frame : Frame a) : Frame a × σ :=
  let (order, source) := shuffle.deal frame.order.size source
  ({ frame.replay with order := order }, source)

end Frame

namespace Traversal

variable {a : Arena} {σ : Type}

theorem rank_le_size (i : Fin a.size) : a.rank i ≤ a.size := by
  unfold Arena.rank
  split <;> omega

theorem rank_of_pos {i : Fin a.size} (hpos : 0 < i.val) : a.rank i = i.val := by
  simp [Arena.rank, Nat.ne_of_gt hpos]

/-- Goes down from a frame, always to the child it visits, until a piece is on top. -/
def descend (shuffle : Shuffle σ) (frame : Frame a) (below : List (Frame a)) (source : σ) :
    Traversal a σ × Option Fault :=
  match frame.content with
  | .piece .. => (⟨frame :: below, source⟩, none)
  | _ =>
    match hfound : frame.child? with
    | none => (⟨frame :: below, source⟩, some .positionOutsideChildren)
    | some child =>
      have hinside : child < a.size :=
        Nat.lt_of_lt_of_le (Frame.child?_lt_rank hfound).2 (rank_le_size _)
      let entered := Frame.enter shuffle source ⟨child, hinside⟩
      descend shuffle entered.1 (frame :: below) entered.2
termination_by a.rank frame.slot
decreasing_by
  have hbounds := Frame.child?_lt_rank hfound
  rw [Frame.slot_enter, rank_of_pos hbounds.1]
  exact hbounds.2

/-- Goes up from a finished child to the nearest frame that can move on, and down from there. The
walk is over when the root cannot. -/
def unwind (shuffle : Shuffle σ) : List (Frame a) → σ → Traversal a σ × Option Fault
  | [], source => (⟨[], source⟩, none)
  | frame :: below, source =>
    match frame.content with
    | .piece .. => (⟨frame :: below, source⟩, some .pieceBelowTop)
    | .root children forever =>
      if frame.current + 1 < children.size then descend shuffle frame.advance below source
      else if forever then descend shuffle frame below source
      else (⟨[], source⟩, none)
    | .group children r =>
      if frame.current + 1 < children.size then descend shuffle frame.advance below source
      else if frame.rounds + 1 < r.toNat then descend shuffle frame.replay below source
      else unwind shuffle below source
    | .random children picks r =>
      if frame.current + 1 < min picks children.size then
        descend shuffle frame.advance below source
      else if frame.rounds + 1 < r.toNat then
        let redrawn := frame.redraw shuffle source
        descend shuffle redrawn.1 below redrawn.2
      else unwind shuffle below source

/-- The walk at its first piece. -/
def start (shuffle : Shuffle σ) (source : σ) : Traversal a σ × Option Fault :=
  let entered := Frame.enter shuffle source a.root
  descend shuffle entered.1 [] entered.2

/-- Whether the walk is over. -/
def isOver (t : Traversal a σ) : Bool := t.stack.isEmpty

/-- The catalogue place of the piece the walk stands at, and the walk behind it. A piece is given
as often as it repeats before the stack changes. -/
def next (shuffle : Shuffle σ) (t : Traversal a σ) : Traversal a σ × Except Fault (Option Nat) :=
  match t.stack with
  | [] => (t, .ok none)
  | frame :: below =>
    match frame.content with
    | .piece index r =>
      if frame.rounds + 1 < r.toNat then
        (⟨{ frame with rounds := frame.rounds + 1 } :: below, t.source⟩, .ok (some index))
      else
        match unwind shuffle below t.source with
        | (t, none) => (t, .ok (some index))
        | (t, some fault) => (t, .error fault)
    | _ => (t, .error .topNotPiece)

/-- Up to `n` more pieces behind those in `taken`, with the fault that stopped the walk, if any. -/
def pullOnto (shuffle : Shuffle σ) :
    Nat → Array Nat → Traversal a σ → Traversal a σ × Array Nat × Option Fault
  | 0, taken, t => (t, taken, none)
  | n + 1, taken, t =>
    match t.next shuffle with
    | (t, .ok (some index)) => pullOnto shuffle n (taken.push index) t
    | (t, .ok none) => (t, taken, none)
    | (t, .error fault) => (t, taken, some fault)

/-- Up to `n` more pieces. -/
def pull (shuffle : Shuffle σ) (n : Nat) (t : Traversal a σ) :
    Traversal a σ × List Nat × Option Fault :=
  let (t, taken, fault) := pullOnto shuffle n #[] t
  (t, taken.toList, fault)

end Traversal

end PieceSequencer
