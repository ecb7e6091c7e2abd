import Mathlib.Data.List.Forall2
import PieceSequencer.Bag.Traversal
import PieceSequencer.Pattern.Meaning
import PieceSequencer.Proofs.Bag.Layout

/-! # A walk goes along the passage

`Traversal` resumes a walk from a stack of frames; `Node.passage` is the same walk by recursion
on the pattern.  `Walks` collects the stops that successive `next`s come to.  A slot that holds a
node `Follows` the passage of that node: whatever lies below it on the stack, entering it walks
along the passage and comes out by unwinding into what lies below (`follows_passage`).  For one
slot this splits into rounds (`walks_times`), and a round into the positions of its frame
(`walks_row`); the nodes below are the induction hypothesis. -/

namespace PieceSequencer

/-! ### Frames -/

namespace Frame
variable {a : Arena} {σ : Type}

theorem content_eq {frame : Frame a} {slot : Slot} (h : a.find frame.slot.val = some slot) :
    frame.content = slot := by
  unfold Arena.find at h
  obtain ⟨hlt, hslot⟩ := Array.getElem?_eq_some_iff.mp h
  exact hslot

theorem child?_of_piece {frame : Frame a} {index : Nat} {r : UInt32}
    (h : frame.content = .piece index r) : frame.child? = none := by
  unfold child?
  rw [h]
  split <;> rfl

theorem child?_eq {frame : Frame a} {slot : Slot} {i child : Nat} (hslot : frame.content = slot)
    (hi : frame.order[frame.current]? = some i) (hchild : slot.children[i]? = some child) :
    frame.child? = some child := by
  unfold child?
  rw [hi, hslot]
  exact hchild

end Frame

namespace Traversal
variable {a : Arena} {σ : Type} {catalogue : Catalogue} {shuffle : Shuffle σ}

/-- A traversal, and the fault that stopped it if there was one. -/
abbrev Outcome (a : Arena) (σ : Type) := Traversal a σ × Option Fault

/-- Enters a slot and goes down from there. -/
def visit (shuffle : Shuffle σ) (slot : Fin a.size) (below : List (Frame a)) (source : σ) :
    Outcome a σ :=
  let entered := Frame.enter shuffle source slot
  descend shuffle entered.1 below entered.2

theorem descend_of_piece {frame : Frame a} {index : Nat} {r : UInt32}
    (h : frame.content = .piece index r) (below : List (Frame a)) (source : σ) :
    descend shuffle frame below source = (⟨frame :: below, source⟩, none) := by
  unfold descend
  rw [h]

theorem descend_of_child {frame : Frame a} (slot : Fin a.size) (h : frame.child? = some slot.val)
    (below : List (Frame a)) (source : σ) :
    descend shuffle frame below source = visit shuffle slot (frame :: below) source := by
  unfold descend
  split
  · rename_i index r hpiece
    rw [Frame.child?_of_piece hpiece] at h
    cases h
  · split
    · rename_i hnone
      rw [h] at hnone
      cases hnone
    · rename_i child hchild
      rw [h] at hchild
      cases hchild
      rfl

/-! ### Walking along stops -/

/-- What `next` answers if leaving the piece at `index` has this outcome. -/
def answer (index : Nat) : Outcome a σ → Traversal a σ × Except Fault (Option Nat)
  | (t, none) => (t, .ok (some index))
  | (t, some fault) => (t, .error fault)

/-- Each `next` comes to one of the stops, in order, and the last of them leads to the final
outcome. -/
inductive Walks (catalogue : Catalogue) (shuffle : Shuffle σ) :
    Outcome a σ → List (Stop σ) → Outcome a σ → Prop
  | refl (x : Outcome a σ) : Walks catalogue shuffle x [] x
  | step {t : Traversal a σ} {x y : Outcome a σ} {key : Char} {index : Nat}
      {stops : List (Stop σ)} : catalogue.position? key = some index →
      t.next shuffle = answer index x → Walks catalogue shuffle x stops y →
      Walks catalogue shuffle (t, none) (⟨key, t.source⟩ :: stops) y

theorem Walks.trans {x y z : Outcome a σ} {stops more : List (Stop σ)}
    (h : Walks catalogue shuffle x stops y) (h' : Walks catalogue shuffle y more z) :
    Walks catalogue shuffle x (stops ++ more) z := by
  induction h with
  | refl => exact h'
  | step hkey hnext hrest ih => exact .step hkey hnext (ih h')

/-- Nothing has gone wrong before a stop. -/
theorem Walks.fault_eq_none {x y : Outcome a σ} {stops : List (Stop σ)}
    (h : Walks catalogue shuffle x stops y) (hne : stops ≠ []) : x.2 = none := by
  cases h with
  | refl => exact absurd rfl hne
  | step => rfl

/-! ### Rounds -/

theorem next_of_piece {frame : Frame a} {index : Nat} {r : UInt32}
    (h : frame.content = .piece index r) (below : List (Frame a)) (source : σ) :
    (⟨frame :: below, source⟩ : Traversal a σ).next shuffle = answer index
      (if frame.rounds + 1 < r.toNat then
        (⟨{ frame with rounds := frame.rounds + 1 } :: below, source⟩, none)
      else unwind shuffle below source) := by
  unfold next
  simp only [h]
  split
  · rfl
  · cases unwind shuffle below source with
    | mk t fault => cases fault <;> rfl

/-- Round by round, each behind what the one before has left. -/
theorem walks_times {passage : Passage σ} (opening : Nat → List (Frame a) → σ → Outcome a σ)
    {count : Nat} (hround : ∀ k < count, ∀ below source,
      Walks catalogue shuffle (opening k below source) (passage source).1
        (if k + 1 < count then opening (k + 1) below (passage source).2
          else unwind shuffle below (passage source).2))
    (hc : 0 < count) (below : List (Frame a)) (source : σ) :
    Walks catalogue shuffle (opening 0 below source) (passage.times count source).1
      (unwind shuffle below (passage.times count source).2) := by
  -- the induction is on the rounds that are left behind round `k`
  have hleft : ∀ n k, k + n + 1 = count → ∀ source, Walks catalogue shuffle
      (opening k below source) (passage.times (n + 1) source).1
      (unwind shuffle below (passage.times (n + 1) source).2) := by
    intro n
    induction n with
    | zero =>
        intro k hk source
        have h := hround k (by omega) below source
        rw [if_neg (by omega)] at h
        rw [Passage.times_succ, Passage.times_zero, Passage.andThen_nothing]
        exact h
    | succ n ih =>
        intro k hk source
        have h := hround k (by omega) below source
        rw [if_pos (by omega)] at h
        rw [Passage.times_succ]
        exact h.trans (ih (k + 1) (by omega) (passage source).2)
  obtain ⟨n, rfl⟩ : ∃ n, count = n + 1 := ⟨count - 1, by omega⟩
  exact hleft n 0 (by omega) source

/-! ### Positions -/

/-- Entering the slot at a place walks along the passage and comes out below. -/
def Follows (catalogue : Catalogue) (shuffle : Shuffle σ) (a : Arena) (place : Nat)
    (passage : Passage σ) : Prop :=
  ∀ (slot : Fin a.size), slot.val = place → ∀ below source, Walks catalogue shuffle
    (visit shuffle slot below source) (passage source).1 (unwind shuffle below (passage source).2)

/-- Going down from the frame walks along the passage and comes back to the frame. -/
def Takes (catalogue : Catalogue) (shuffle : Shuffle σ) (frame : Frame a)
    (passage : Passage σ) : Prop :=
  ∀ below source, Walks catalogue shuffle (descend shuffle frame below source) (passage source).1
    (unwind shuffle (frame :: below) (passage source).2)

theorem Follows.takes {frame : Frame a} {place : Nat} {passage : Passage σ}
    (h : Follows catalogue shuffle a place passage) (hchild : frame.child? = some place) :
    Takes catalogue shuffle frame passage := by
  intro below source
  have hlt : place < a.size := Nat.lt_of_lt_of_le (Frame.child?_lt_rank hchild).2 (rank_le_size _)
  rw [descend_of_child ⟨place, hlt⟩ hchild]
  exact h ⟨place, hlt⟩ rfl _ _

/-- Position by position, up to the last one. -/
theorem walks_row (frame : Frame a) (passages : List (Passage σ)) (below : List (Frame a))
    (htakes : ∀ j (h : j < passages.length),
      Takes catalogue shuffle { frame with current := j } passages[j])
    (hon : ∀ j, j + 1 < passages.length → ∀ source,
      unwind shuffle ({ frame with current := j } :: below) source =
        descend shuffle { frame with current := j + 1 } below source)
    (hne : 0 < passages.length) (source : σ) :
    Walks catalogue shuffle (descend shuffle { frame with current := 0 } below source)
      (Passage.sequence passages source).1
      (unwind shuffle ({ frame with current := passages.length - 1 } :: below)
        (Passage.sequence passages source).2) := by
  -- the induction is on the positions that are left behind position `j`
  have hleft : ∀ n j, j + n + 1 = passages.length → ∀ source, Walks catalogue shuffle
      (descend shuffle { frame with current := j } below source)
      (Passage.sequence (passages.drop j) source).1
      (unwind shuffle ({ frame with current := passages.length - 1 } :: below)
        (Passage.sequence (passages.drop j) source).2) := by
    intro n
    induction n with
    | zero =>
        intro j hj source
        obtain rfl : j = passages.length - 1 := by omega
        have h := htakes (passages.length - 1) (by omega) below source
        rw [List.drop_eq_getElem_cons (by omega), List.drop_eq_nil_of_le (by omega),
          Passage.sequence_cons, Passage.sequence_nil, Passage.andThen_nothing]
        exact h
    | succ n ih =>
        intro j hj source
        have h := htakes j (by omega) below source
        rw [hon j (by omega)] at h
        rw [List.drop_eq_getElem_cons (by omega), Passage.sequence_cons]
        exact h.trans (ih (j + 1) (by omega) (passages[j] source).2)
  exact hleft (passages.length - 1) 0 (by omega) source

/-! ### Slots -/

theorem content_of_slot {slot : Fin a.size} {content : Slot} (h : a.find slot.val = some content)
    (order : Array Nat) (current rounds : Nat) :
    (⟨slot, order, current, rounds⟩ : Frame a).content = content := Frame.content_eq h

theorem visit_eq {slot : Fin a.size} {content : Slot} (h : a.find slot.val = some content)
    (hnot : ∀ children picks r, content ≠ .random children picks r) (below : List (Frame a))
    (source : σ) : visit shuffle slot below source =
      descend shuffle ⟨slot, Array.range content.children.size, 0, 0⟩ below source := by
  have hslot : a.slots[slot] = content := content_of_slot h #[] 0 0
  unfold visit Frame.enter
  rw [hslot]
  cases content with
  | random children picks r => exact absurd rfl (hnot children picks r)
  | root children forever => rfl
  | piece index r => rfl
  | group children r => rfl

theorem visit_random {slot : Fin a.size} {children : Array Nat} {picks : Nat} {r : UInt32}
    (h : a.find slot.val = some (.random children picks r)) (below : List (Frame a))
    (source : σ) : visit shuffle slot below source =
      descend shuffle ⟨slot, (shuffle.deal children.size source).1, 0, 0⟩ below
        (shuffle.deal children.size source).2 := by
  have hslot : a.slots[slot] = .random children picks r := content_of_slot h #[] 0 0
  unfold visit Frame.enter
  rw [hslot]

theorem unwind_group {frame : Frame a} {children : Array Nat} {r : UInt32}
    (h : frame.content = .group children r) (below : List (Frame a)) (source : σ) :
    unwind shuffle (frame :: below) source =
      if frame.current + 1 < children.size then descend shuffle frame.advance below source
      else if frame.rounds + 1 < r.toNat then descend shuffle frame.replay below source
      else unwind shuffle below source := by
  rw [unwind, h]

theorem unwind_random {frame : Frame a} {children : Array Nat} {picks : Nat} {r : UInt32}
    (h : frame.content = .random children picks r) (hsize : frame.order.size = children.size)
    (below : List (Frame a)) (source : σ) :
    unwind shuffle (frame :: below) source =
      if frame.current + 1 < min picks children.size then descend shuffle frame.advance below source
      else if frame.rounds + 1 < r.toNat then
        descend shuffle ⟨frame.slot, (shuffle.deal children.size source).1, 0, frame.rounds + 1⟩
          below (shuffle.deal children.size source).2
      else unwind shuffle below source := by
  rw [unwind, h]
  simp only [Frame.redraw, Frame.replay, hsize]

theorem unwind_root {frame : Frame a} {children : Array Nat} {forever : Bool}
    (h : frame.content = .root children forever) (below : List (Frame a)) (source : σ) :
    unwind shuffle (frame :: below) source =
      if frame.current + 1 < children.size then descend shuffle frame.advance below source
      else if forever then descend shuffle frame below source
      else (⟨[], source⟩, none) := by
  rw [unwind, h]

/-- The slots at these places follow these passages, one by one. -/
def FollowAll (catalogue : Catalogue) (shuffle : Shuffle σ) (a : Arena) :
    List Nat → List (Passage σ) → Prop :=
  List.Forall₂ (Follows catalogue shuffle a)

/-- The frames of a slot take the passages of its children. -/
theorem FollowAll.takes {frame : Frame a} {content : Slot} {i : Nat} {passages : List (Passage σ)}
    (h : FollowAll catalogue shuffle a content.children.toList passages)
    (hcontent : frame.content = content) (hi : frame.order[frame.current]? = some i)
    (hlt : i < passages.length) : Takes catalogue shuffle frame passages[i] := by
  have hsize : i < content.children.toList.length := by rwa [h.length_eq]
  have hfollows : Follows catalogue shuffle a content.children[i] passages[i] :=
    List.Forall₂.get h hsize hlt
  apply hfollows.takes
  exact Frame.child?_eq hcontent hi (Array.getElem?_eq_getElem hsize)

theorem follows_piece {place index : Nat} {key : Char} {r : UInt32}
    (hfind : a.find place = some (.piece index r)) (hkey : catalogue.position? key = some index)
    (hr : 0 < r.toNat) :
    Follows catalogue shuffle a place ((Passage.single key).times r.toNat) := by
  rintro slot rfl below source
  rw [visit_eq hfind (by intros; simp)]
  generalize Array.range (Slot.piece index r).children.size = order
  have hcontent := content_of_slot hfind order 0
  rw [descend_of_piece (hcontent 0)]
  refine walks_times (fun k below source => (⟨⟨slot, order, 0, k⟩ :: below, source⟩, none)) ?_ hr
    below source
  intro k hk below source
  exact .step hkey (next_of_piece (hcontent k) below source) (.refl _)

theorem follows_group {place : Nat} {children : Array Nat} {r : UInt32}
    {passages : List (Passage σ)} (hfind : a.find place = some (.group children r))
    (hall : FollowAll catalogue shuffle a children.toList passages)
    (hne : 0 < children.size) (hr : 0 < r.toNat) :
    Follows catalogue shuffle a place ((Passage.sequence passages).times r.toNat) := by
  rintro slot rfl below source
  have hlen : children.size = passages.length := hall.length_eq
  have hcontent := content_of_slot hfind (Array.range children.size)
  rw [visit_eq hfind (by intros; simp)]
  refine walks_times (fun k below source =>
    descend shuffle ⟨slot, Array.range children.size, 0, k⟩ below source) ?_ hr below source
  intro k hk below source
  have htakes : ∀ j (h : j < passages.length), Takes catalogue shuffle
      (⟨slot, Array.range children.size, j, k⟩ : Frame a) passages[j] := by
    intro j hj
    exact FollowAll.takes hall (hcontent j k) (by simp [hlen, hj]) hj
  have hrow := walks_row ⟨slot, Array.range children.size, 0, k⟩ passages below htakes ?_
    (by omega) source
  · rw [unwind_group (hcontent _ _), if_neg (by simp only; omega)] at hrow
    exact hrow
  · intro j hj source
    rw [unwind_group (hcontent _ _), if_pos (by simp only; omega)]
    rfl

/-- A round of a random group goes to the first places of its order. -/
theorem walks_drawn {slot : Fin a.size} {children order : Array Nat} {picks k : Nat} {r : UInt32}
    {passages : List (Passage σ)} (hfind : a.find slot.val = some (.random children picks r))
    (hall : FollowAll catalogue shuffle a children.toList passages)
    (hsize : order.size = children.size) (hin : ∀ i ∈ order, i < children.size)
    (hne : 0 < children.size) (hp : 0 < picks) (below : List (Frame a)) (source : σ) :
    Walks catalogue shuffle (descend shuffle ⟨slot, order, 0, k⟩ below source)
      (Passage.sequence
        ((order.toList.take picks).map fun i => passages[i]?.getD .nothing) source).1
      (unwind shuffle (⟨slot, order, min picks children.size - 1, k⟩ :: below) (Passage.sequence
        ((order.toList.take picks).map fun i => passages[i]?.getD .nothing) source).2) := by
  have hlen : children.size = passages.length := hall.length_eq
  have hcontent := content_of_slot hfind order
  have hcount : ((order.toList.take picks).map fun i => passages[i]?.getD .nothing).length =
      min picks children.size := by simp [← hsize]
  rw [← hcount]
  refine walks_row ⟨slot, order, 0, k⟩ _ below ?_ ?_ (by omega) source
  · intro j hj
    have hlt : j < order.size := by omega
    have hplace : order[j] < passages.length := hlen ▸ hin _ (Array.getElem_mem hlt)
    have hget : passages[order[j]]?.getD .nothing = passages[order[j]] := by
      rw [List.getElem?_eq_getElem hplace, Option.getD_some]
    simp only [List.getElem_map, List.getElem_take, Array.getElem_toList, hget]
    exact FollowAll.takes hall (hcontent j k) (Array.getElem?_eq_getElem hlt) hplace
  · intro j hj source
    rw [unwind_random (hcontent _ _) hsize, if_pos (by simp only; omega)]
    rfl

theorem follows_random {place : Nat} {children : Array Nat} {picks : Nat} {r : UInt32}
    {passages : List (Passage σ)} (hfind : a.find place = some (.random children picks r))
    (hall : FollowAll catalogue shuffle a children.toList passages)
    (hin : shuffle.Inside) (hne : 0 < children.size) (hp : 0 < picks) (hr : 0 < r.toNat) :
    Follows catalogue shuffle a place ((Passage.round shuffle passages picks).times r.toNat) := by
  rintro slot rfl below source
  rw [visit_random hfind]
  refine walks_times (fun k below source =>
    descend shuffle ⟨slot, (shuffle.deal children.size source).1, 0, k⟩ below
      (shuffle.deal children.size source).2) ?_ hr below source
  intro k hk below source
  have hsize := shuffle.size_deal children.size source
  have h := walks_drawn (k := k) hfind hall hsize (hin _ source) hne hp below
    (shuffle.deal children.size source).2
  rw [unwind_random (content_of_slot hfind _ _ _) hsize, if_neg (by simp only; omega)] at h
  rw [Passage.round_apply, ← hall.length_eq]
  exact h

/-! ### Nodes -/

mutual

/-- **The slot of a well-formed node follows its passage.** -/
theorem follows_passage (hin : shuffle.Inside) : ∀ (node : Node) (place : Nat),
    node.wellFormed catalogue.keys = true → node.Stands catalogue a.find place →
    Follows catalogue shuffle a place (node.passage shuffle)
  | .piece key r, place, hwf, ⟨index, hkey, hfind⟩ => by
      obtain ⟨-, hr⟩ := Node.wellFormed_piece_iff.mp hwf
      rw [Node.passage]
      exact follows_piece hfind hkey (toNat_pos hr)
  | .group children r, place, hwf, ⟨places, hfind, hall⟩ => by
      obtain ⟨hne, hchildren, hr⟩ := Node.wellFormed_group_iff.mp hwf
      have hsize : places.size = children.length := hall.length_eq
      have hpos : 0 < places.size := hsize ▸ List.length_pos_iff.mpr hne
      rw [Node.passage]
      exact follows_group hfind (follows_passages hin children places.toList hchildren hall) hpos
        (toNat_pos hr)
  | .random children picks r, place, hwf, ⟨places, hfind, hall⟩ => by
      obtain ⟨hpicks, hle, -, hchildren, hr⟩ := Node.wellFormed_random_iff.mp hwf
      have hsize : places.size = children.length := hall.length_eq
      have hpos : 0 < places.size := hsize ▸ Nat.lt_of_lt_of_le (toNat_pos hpicks) hle
      rw [Node.passage]
      exact follows_random hfind (follows_passages hin children places.toList hchildren hall) hin
        hpos (toNat_pos hpicks) (toNat_pos hr)

theorem follows_passages (hin : shuffle.Inside) : ∀ (nodes : List Node) (places : List Nat),
    Node.allWellFormed catalogue.keys nodes = true → Node.AllStand catalogue a.find nodes places →
    FollowAll catalogue shuffle a places (Node.passages shuffle nodes)
  | [], _, _, rfl => .nil
  | node :: nodes, _, hwf, ⟨place, rest, rfl, hnode, hall⟩ => by
      obtain ⟨hwf, hwf'⟩ := Node.allWellFormed_cons_iff.mp hwf
      exact .cons (follows_passage hin node place hwf hnode)
        (follows_passages hin nodes rest hwf' hall)

end

/-! ### Patterns -/

/-- The root at one of its children. -/
def rootFrame (a : Arena) (p : Pattern) (j : Nat) : Frame a :=
  ⟨a.root, Array.range p.children.length, j, 0⟩

section
variable {p : Pattern} (hholds : a.Holds catalogue p)
include hholds

theorem content_rootFrame (j : Nat) : ∃ places : Array Nat,
    (rootFrame a p j).content = .root places p.forever ∧ places.size = p.children.length ∧
      Node.AllStand catalogue a.find p.children places.toList := by
  obtain ⟨places, hfind, hall⟩ := hholds
  exact ⟨places, Frame.content_eq hfind, hall.length_eq, hall⟩

theorem start_eq (source : σ) :
    start shuffle source = descend shuffle (rootFrame a p 0) [] source := by
  obtain ⟨places, hfind, hall⟩ := hholds
  have hsize : places.size = p.children.length := hall.length_eq
  have hroot : a.find a.root.val = some (.root places p.forever) := hfind
  rw [rootFrame, ← hsize]
  exact visit_eq hroot (by intros; simp) [] source

theorem unwind_rootFrame (shuffle : Shuffle σ) (j : Nat) (source : σ) :
    unwind shuffle [rootFrame a p j] source =
    if j + 1 < p.children.length then descend shuffle (rootFrame a p (j + 1)) [] source
    else if p.forever then descend shuffle (rootFrame a p j) [] source
    else (⟨[], source⟩, none) := by
  obtain ⟨places, hcontent, hsize, -⟩ := content_rootFrame hholds j
  rw [unwind_root hcontent, hsize]
  rfl

variable (hwf : p.wellFormed catalogue.keys = true) (hin : shuffle.Inside)
include hwf hin

theorem takes_rootFrame (j : Nat) (hj : j < (Node.passages shuffle p.children).length) :
    Takes catalogue shuffle (rootFrame a p j) (Node.passages shuffle p.children)[j] := by
  obtain ⟨places, hcontent, hsize, hall⟩ := content_rootFrame hholds j
  have hfollows := follows_passages hin p.children places.toList
    (Pattern.wellFormed_iff.mp hwf).2 hall
  have hlt : j < p.children.length := Node.length_passages shuffle p.children ▸ hj
  exact FollowAll.takes hfollows hcontent (by simp [rootFrame, hlt]) hj

/-- The walk goes along all children and comes to the end of the last one. -/
theorem walks_start (source : σ) : Walks catalogue shuffle (start shuffle source)
    (Passage.sequence (Node.passages shuffle p.children) source).1
    (unwind shuffle [rootFrame a p (p.children.length - 1)]
      (Passage.sequence (Node.passages shuffle p.children) source).2) := by
  have hlen := Node.length_passages shuffle p.children
  have hpos := List.length_pos_iff.mpr (Pattern.wellFormed_iff.mp hwf).1
  rw [start_eq hholds, ← hlen]
  refine walks_row (rootFrame a p 0) _ [] (takes_rootFrame hholds hwf hin) ?_ (by omega) source
  intro j hj source
  have hon := unwind_rootFrame hholds shuffle j source
  rw [if_pos (by omega)] at hon
  exact hon

/-- An endless walk goes along its last child again and again. -/
theorem walks_again (hf : p.forever = true) (again : Nat) (source : σ) :
    Walks catalogue shuffle (unwind shuffle [rootFrame a p (p.children.length - 1)] source)
      ((((Node.passages shuffle p.children).getLast?.getD .nothing).times again) source).1
      (unwind shuffle [rootFrame a p (p.children.length - 1)]
        ((((Node.passages shuffle p.children).getLast?.getD .nothing).times again) source).2) := by
  have hlen := Node.length_passages shuffle p.children
  have hpos := List.length_pos_iff.mpr (Pattern.wellFormed_iff.mp hwf).1
  have htakes : Takes catalogue shuffle (rootFrame a p (p.children.length - 1))
      ((Node.passages shuffle p.children).getLast?.getD .nothing) := by
    rw [List.getLast?_eq_getElem?, hlen, List.getElem?_eq_getElem (by omega), Option.getD_some]
    exact takes_rootFrame hholds hwf hin _ _
  induction again generalizing source with
  | zero => exact .refl _
  | succ again ih =>
      have hunwind := unwind_rootFrame hholds shuffle (p.children.length - 1) source
      rw [if_neg (by omega), if_pos hf] at hunwind
      have hfirst := htakes [] source
      rw [← hunwind] at hfirst
      rw [Passage.times_succ]
      exact hfirst.trans (ih _)

/-- **The walk goes along the passage of the pattern.** -/
theorem walks_passage (again : Nat) (h : p.forever = true ∨ again = 0) (source : σ) :
    Walks catalogue shuffle (start shuffle source) (p.passage shuffle again source).1
      (unwind shuffle [rootFrame a p (p.children.length - 1)]
        (p.passage shuffle again source).2) := by
  have hstart := walks_start hholds hwf hin source
  rcases h with hf | rfl
  · exact hstart.trans (walks_again hholds hwf hin hf again _)
  · rw [Pattern.passage, Passage.times_zero, Passage.andThen_nothing]
    exact hstart

end

end Traversal

end PieceSequencer
