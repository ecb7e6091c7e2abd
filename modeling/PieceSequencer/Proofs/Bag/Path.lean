import Mathlib.Data.List.Chain
import PieceSequencer.Proofs.Bag.Walk

/-! # Paths

Whatever the shuffle does, the stack of a traversal is a path from the root down.  The arena of a
well-formed pattern has only slots that can be walked through (`Arena.proper_ofPattern`); over such
slots every way of moving on, going down, going up, one step, lands on a path again (`Lands`):
at a piece, at the end of the walk, or at a frame whose order names no child, where the
traversal halts and stays (`Halted.next`).  What is known of the orders that a shuffle deals is a
parameter, `good`: that they are permutations, or nothing but their length. -/

namespace PieceSequencer

/-! ### Proper arenas -/

namespace Slot

/-- Whether a slot is a piece. -/
def isPiece : Slot → Bool
  | .piece .. => true
  | _ => false

/-- What it takes to walk through a slot over a catalogue of this size: children, counts that are
not zero, and a place inside the catalogue. -/
def Proper (size : Nat) : Slot → Prop
  | .root children _ => 0 < children.size
  | .piece index r => index < size ∧ 0 < r.toNat
  | .group children r => 0 < children.size ∧ 0 < r.toNat
  | .random children picks r => 0 < children.size ∧ 0 < picks ∧ 0 < r.toNat

end Slot

namespace Node
variable {catalogue : Catalogue}

theorem forall_mem_push {body : Array Slot} {slot : Slot} {P : Slot → Prop}
    (h : ∀ other ∈ body, P other) (hslot : P slot) : ∀ other ∈ body.push slot, P other := by
  intro other hother
  rcases Array.mem_push.mp hother with hother | rfl
  · exact h other hother
  · exact hslot

mutual

/-- A well-formed node is laid out in proper slots. -/
theorem proper_layOut : ∀ (node : Node) {body body' : Array Slot},
    node.wellFormed catalogue.keys = true → (∀ slot ∈ body, slot.Proper catalogue.length) →
    layOut catalogue body node = .ok body' → ∀ slot ∈ body', slot.Proper catalogue.length
  | .piece key r, body, body', hwf, hbody, h => by
      obtain ⟨index, hindex, rfl⟩ := layOut_piece_eq_ok_iff.mp h
      obtain ⟨-, hr⟩ := wellFormed_piece_iff.mp hwf
      exact forall_mem_push hbody ⟨Catalogue.position?_lt hindex, toNat_pos hr⟩
  | .group children r, body, body', hwf, hbody, h => by
      obtain ⟨middle, places, hlist, rfl⟩ := layOut_group_eq_ok_iff.mp h
      obtain ⟨hne, hchildren, hr⟩ := wellFormed_group_iff.mp hwf
      obtain ⟨hmiddle, hlen⟩ := proper_layOutList children hchildren hbody hlist
      refine forall_mem_push hmiddle ⟨?_, toNat_pos hr⟩
      rw [List.size_toArray, hlen]
      exact List.length_pos_iff.mpr hne
  | .random children picks r, body, body', hwf, hbody, h => by
      obtain ⟨middle, places, hlist, rfl⟩ := layOut_random_eq_ok_iff.mp h
      obtain ⟨hp, hle, -, hchildren, hr⟩ := wellFormed_random_iff.mp hwf
      obtain ⟨hmiddle, hlen⟩ := proper_layOutList children hchildren hbody hlist
      refine forall_mem_push hmiddle ⟨?_, toNat_pos hp, toNat_pos hr⟩
      rw [List.size_toArray, hlen]
      exact (toNat_pos hp).trans_le hle

theorem proper_layOutList : ∀ (nodes : List Node) {body body' : Array Slot} {places : List Nat},
    allWellFormed catalogue.keys nodes = true → (∀ slot ∈ body, slot.Proper catalogue.length) →
    layOutList catalogue body nodes = .ok (body', places) →
    (∀ slot ∈ body', slot.Proper catalogue.length) ∧ places.length = nodes.length
  | [], body, body', places, _, hbody, h => by
      cases h
      exact ⟨hbody, rfl⟩
  | node :: nodes, body, body', places, hwf, hbody, h => by
      obtain ⟨hnode, hnodes⟩ := allWellFormed_cons_iff.mp hwf
      obtain ⟨middle, rest, hfirst, hrest, rfl⟩ := layOutList_cons_eq_ok_iff.mp h
      obtain ⟨hproper, hlen⟩ := proper_layOutList nodes hnodes
        (proper_layOut node hnode hbody hfirst) hrest
      exact ⟨hproper, by rw [List.length_cons, List.length_cons, hlen]⟩

end

end Node

/-- All slots of an arena are proper. -/
def Arena.Proper (a : Arena) (size : Nat) : Prop := ∀ slot ∈ a.slots, slot.Proper size

theorem Arena.proper_ofPattern {catalogue : Catalogue} {p : Pattern} {a : Arena}
    (hwf : p.wellFormed catalogue.keys = true) (h : ofPattern catalogue p = .ok a) :
    a.Proper catalogue.length := by
  obtain ⟨hne, hall⟩ := Pattern.wellFormed_iff.mp hwf
  obtain ⟨body, places, hdone, hslots⟩ := ofPattern_eq_ok_iff.mp h
  obtain ⟨hbody, hlen⟩ := Node.proper_layOutList p.children hall (by simp) hdone
  intro slot hslot
  rw [hslots] at hslot
  rcases Array.mem_append.mp hslot with hroot | hslot
  · obtain rfl := Array.mem_singleton.mp hroot
    change 0 < places.toArray.size
    rw [List.size_toArray, hlen]
    exact List.length_pos_iff.mpr hne
  · exact hbody slot hslot

/-! ### Frames -/

/-- Every fresh order has this property, which tells how many places there are. -/
structure Shuffle.Yields {σ : Type} (shuffle : Shuffle σ) (good : Nat → Array Nat → Prop) :
    Prop where
  good_deal : ∀ n state, good n (shuffle.deal n state).1
  size_eq : ∀ n order, good n order → order.size = n

/-- A position and a round that a frame of this slot comes to, in an order of the kind that the slot
has: the written one, or a fresh one if it is a random group. -/
def Slot.Admits (good : Nat → Array Nat → Prop) (order : Array Nat) (current rounds : Nat) :
    Slot → Prop
  | .root children _ => order = .range children.size ∧ current < children.size ∧ rounds = 0
  | .piece _ r => rounds < r.toNat
  | .group children r => order = .range children.size ∧ current < children.size ∧ rounds < r.toNat
  | .random children picks r => good children.size order ∧ current < children.size ∧
    current < picks ∧ rounds < r.toNat

namespace Frame
variable {a : Arena} {σ : Type} {shuffle : Shuffle σ} {good : Nat → Array Nat → Prop} {size : Nat}

/-- The frame is where its slot lets a frame be. -/
def Sound (good : Nat → Array Nat → Prop) (frame : Frame a) : Prop :=
  frame.content.Admits good frame.order frame.current frame.rounds

theorem sound_iff (frame : Frame a) {slot : Slot} (h : frame.content = slot) :
    frame.Sound good ↔ slot.Admits good frame.order frame.current frame.rounds := by
  rw [Sound, h]

theorem content_enter (shuffle : Shuffle σ) (source : σ) (slot : Fin a.size) :
    (enter shuffle source slot).1.content = a.slots[slot] := by
  simp only [content, slot_enter]

/-- A slot is entered at its first position and in its first round. -/
theorem sound_enter (hproper : a.Proper size) (hyields : shuffle.Yields good) (source : σ)
    (slot : Fin a.size) : (enter shuffle source slot).1.Sound good := by
  have hslot : (a.slots[slot]).Proper size := hproper _ (Array.getElem_mem _)
  rw [sound_iff _ (content_enter shuffle source slot)]
  unfold enter
  cases h : a.slots[slot] with
  | root children forever =>
      rw [h] at hslot
      exact ⟨rfl, hslot, rfl⟩
  | piece index r =>
      rw [h] at hslot
      exact hslot.2
  | group children r =>
      rw [h] at hslot
      exact ⟨rfl, hslot⟩
  | random children picks r =>
      rw [h] at hslot
      exact ⟨hyields.good_deal _ _, hslot⟩

/-- Where a frame can be, another round never has too large a number. -/
theorem Sound.rounds_lt {frame : Frame a} (h : frame.Sound good) :
    frame.rounds + 1 < UInt32.size := by
  have hbound : ∀ r : UInt32, r.toNat < UInt32.size := fun r => r.toNat_lt
  cases hcontent : frame.content with
  | root children forever =>
      obtain ⟨-, -, hrounds⟩ := (sound_iff frame hcontent).mp h
      rw [hrounds]
      decide
  | piece index r =>
      have hrounds : frame.rounds < r.toNat := (sound_iff frame hcontent).mp h
      exact lt_of_le_of_lt hrounds (hbound r)
  | group children r =>
      obtain ⟨-, -, hrounds⟩ := (sound_iff frame hcontent).mp h
      exact lt_of_le_of_lt hrounds (hbound r)
  | random children picks r =>
      obtain ⟨-, -, -, hrounds⟩ := (sound_iff frame hcontent).mp h
      exact lt_of_le_of_lt hrounds (hbound r)

end Frame

namespace Traversal
variable {a : Arena} {σ : Type} {shuffle : Shuffle σ} {good : Nat → Array Nat → Prop} {size : Nat}

/-! ### Paths -/

/-- The frames lead from the root down: each is entered from the one below it, which visits its
slot, and only the innermost one can be at a piece. -/
structure Path (good : Nat → Array Nat → Prop) (stack : List (Frame a)) : Prop where
  linked : stack.IsChain fun upper lower => lower.child? = some upper.slot.val
  bottom : ∀ frame ∈ stack.getLast?, frame.slot = a.root
  sound : ∀ frame ∈ stack, frame.Sound good
  inner : ∀ frame ∈ stack.tail, frame.content.isPiece = false

theorem path_nil : Path good ([] : List (Frame a)) :=
  ⟨.nil, by simp, by simp, by simp⟩

theorem Path.pop {frame : Frame a} {below : List (Frame a)} (h : Path good (frame :: below)) :
    Path good below := by
  refine ⟨h.linked.tail, ?_, fun f hf => h.sound f (List.mem_cons_of_mem _ hf), ?_⟩
  · intro f hf
    apply h.bottom
    cases below with
    | nil => cases hf
    | cons lower below => exact hf
  · exact fun f hf => h.inner f (List.mem_of_mem_tail hf)

/-- A frame of a path can be exchanged for another one of its slot, if it is the innermost one. -/
theorem Path.exchange {frame frame' : Frame a} {below : List (Frame a)}
    (h : Path good (frame :: below)) (hsound : frame'.Sound good)
    (hslot : frame'.slot = frame.slot) : Path good (frame' :: below) := by
  have hlinked := List.isChain_cons.mp h.linked
  refine ⟨List.isChain_cons.mpr ⟨fun f hf => hslot ▸ hlinked.1 f hf, hlinked.2⟩, ?_, ?_, h.inner⟩
  · intro f hf
    cases below with
    | nil =>
        obtain rfl : frame' = f := Option.some.inj hf
        exact hslot.trans (h.bottom frame rfl)
    | cons lower below => exact h.bottom f hf
  · intro f hf
    rcases List.mem_cons.mp hf with rfl | hf
    · exact hsound
    · exact h.sound f (List.mem_cons_of_mem _ hf)

/-- A path goes on to the child that its innermost frame visits. -/
theorem Path.push {frame upper : Frame a} {below : List (Frame a)} (h : Path good (frame :: below))
    (hinner : frame.content.isPiece = false) (hchild : frame.child? = some upper.slot.val)
    (hsound : upper.Sound good) : Path good (upper :: frame :: below) := by
  refine ⟨List.isChain_cons_cons.mpr ⟨hchild, h.linked⟩, ?_, ?_, ?_⟩
  · exact fun f hf => h.bottom f hf
  · intro f hf
    rcases List.mem_cons.mp hf with rfl | hf
    · exact hsound
    · exact h.sound f hf
  · intro f hf
    rcases List.mem_cons.mp hf with rfl | hf
    · exact hinner
    · exact h.inner f hf

/-- The traversal is over or stands at a piece, at the end of a path. -/
structure Standing (good : Nat → Array Nat → Prop) (t : Traversal a σ) : Prop where
  path : Path good t.stack
  top : ∀ frame ∈ t.stack.head?, frame.content.isPiece = true

/-- The traversal has come to a frame that visits no child. -/
structure Halted (good : Nat → Array Nat → Prop) (t : Traversal a σ) : Prop where
  path : Path good t.stack
  top : ∃ frame ∈ t.stack.head?, frame.content.isPiece = false ∧ frame.child? = none

/-- Where a step ends: at a piece or at the end of the walk, or at a frame whose order names no
child. -/
inductive Lands (good : Nat → Array Nat → Prop) : Outcome a σ → Prop
  | standing {t : Traversal a σ} : t.Standing good → Lands good (t, none)
  | halted {t : Traversal a σ} : t.Halted good → Lands good (t, some .positionOutsideChildren)

theorem descend_of_none {frame : Frame a} (hinner : frame.content.isPiece = false)
    (h : frame.child? = none) (below : List (Frame a)) (source : σ) :
    descend shuffle frame below source =
      (⟨frame :: below, source⟩, some .positionOutsideChildren) := by
  unfold descend
  split
  · rename_i index r hpiece
    rw [hpiece] at hinner
    cases hinner
  · split
    · rfl
    · rename_i child hchild
      rw [h] at hchild
      cases hchild

section
variable (hproper : a.Proper size) (hyields : shuffle.Yields good)
include hproper hyields

/-- Going down from the innermost frame of a path. -/
theorem lands_descend {frame : Frame a} {below : List (Frame a)} (h : Path good (frame :: below))
    (source : σ) : Lands good (descend shuffle frame below source) := by
  -- a child ranks below its parent, so the rank decreases while the stack grows
  induction hrank : a.rank frame.slot using Nat.strong_induction_on
    generalizing frame below source with
  | _ rank ih =>
      by_cases hpiece : frame.content.isPiece = true
      · obtain ⟨index, r, hcontent⟩ : ∃ index r, frame.content = .piece index r := by
          cases hcontent : frame.content <;> simp_all [Slot.isPiece]
        rw [descend_of_piece hcontent]
        exact .standing ⟨h, fun f hf => Option.some.inj hf ▸ hpiece⟩
      · have hinner : frame.content.isPiece = false := by simpa using hpiece
        cases hchild : frame.child? with
        | none =>
            rw [descend_of_none hinner hchild]
            exact .halted ⟨h, frame, rfl, hinner, hchild⟩
        | some child =>
            obtain ⟨hpos, hlt⟩ := Frame.child?_lt_rank hchild
            have hsize : child < a.size := hlt.trans_le (rank_le_size _)
            rw [descend_of_child ⟨child, hsize⟩ hchild]
            have hslot := Frame.slot_enter shuffle source (⟨child, hsize⟩ : Fin a.size)
            refine ih _ ?_ ?_ _ rfl
            · rw [hslot, rank_of_pos hpos, ← hrank]
              exact hlt
            · refine h.push hinner ?_ (Frame.sound_enter hproper hyields source _)
              rw [hslot, hchild]

/-- Going up from frames none of which is at a piece. -/
theorem lands_unwind {stack : List (Frame a)} (h : Path good stack)
    (hinner : ∀ frame ∈ stack, frame.content.isPiece = false) (source : σ) :
    Lands good (unwind shuffle stack source) := by
  induction stack with
  | nil => exact .standing ⟨path_nil, by simp⟩
  | cons frame below ih =>
      have hup := ih h.pop fun f hf => hinner f (List.mem_cons_of_mem _ hf)
      have hsound := h.sound frame List.mem_cons_self
      cases hcontent : frame.content with
      | piece index r =>
          -- the one frame at a piece was popped before unwinding began
          have hframe := hinner frame List.mem_cons_self
          rw [hcontent] at hframe
          cases hframe
      | root children forever =>
          obtain ⟨horder, hcurrent, hrounds⟩ := (Frame.sound_iff frame hcontent).mp hsound
          rw [unwind_root hcontent]
          split
          · rename_i hnext
            have hadvance : frame.advance.Sound good :=
              (frame.advance.sound_iff hcontent).mpr ⟨horder, hnext, hrounds⟩
            exact lands_descend hproper hyields (h.exchange hadvance rfl) source
          · split
            · exact lands_descend hproper hyields h source
            · exact .standing ⟨path_nil, by simp⟩
      | group children r =>
          obtain ⟨horder, hcurrent, hrounds⟩ := (Frame.sound_iff frame hcontent).mp hsound
          rw [unwind_group hcontent]
          split
          · rename_i hnext
            have hadvance : frame.advance.Sound good :=
              (frame.advance.sound_iff hcontent).mpr ⟨horder, hnext, hrounds⟩
            exact lands_descend hproper hyields (h.exchange hadvance rfl) source
          · split
            · rename_i hnext
              have hreplay : frame.replay.Sound good :=
                (frame.replay.sound_iff hcontent).mpr ⟨horder, Nat.zero_lt_of_lt hcurrent, hnext⟩
              exact lands_descend hproper hyields (h.exchange hreplay rfl) source
            · exact hup
      | random children picks r =>
          obtain ⟨horder, hcurrent, hpicks, hrounds⟩ := (Frame.sound_iff frame hcontent).mp hsound
          rw [unwind_random hcontent (hyields.size_eq _ _ horder)]
          split
          · rename_i hnext
            obtain ⟨hpick, hchild⟩ := Nat.lt_min.mp hnext
            have hadvance : frame.advance.Sound good :=
              (frame.advance.sound_iff hcontent).mpr ⟨horder, hchild, hpick, hrounds⟩
            exact lands_descend hproper hyields (h.exchange hadvance rfl) source
          · split
            · rename_i hnext
              have hdealt := hyields.good_deal children.size source
              generalize shuffle.deal children.size source = dealt at hdealt
              have hredrawn := (Frame.sound_iff ⟨frame.slot, dealt.1, 0, frame.rounds + 1⟩
                hcontent).mpr ⟨hdealt, Nat.zero_lt_of_lt hcurrent, Nat.zero_lt_of_lt hpicks, hnext⟩
              exact lands_descend hproper hyields (h.exchange hredrawn rfl) _
            · exact hup

theorem lands_start (source : σ) : Lands good (start shuffle source : Outcome a σ) := by
  refine lands_descend hproper hyields ⟨.singleton _, ?_, ?_, by simp⟩ _
  · intro f hf
    obtain rfl := Option.some.inj hf
    exact Frame.slot_enter shuffle source a.root
  · intro f hf
    obtain rfl := List.mem_singleton.mp hf
    exact Frame.sound_enter hproper hyields source a.root

/-- One step from a piece gives that piece, unless it halts. -/
theorem Standing.next {t : Traversal a σ} (h : t.Standing good) (hover : t.isOver = false) :
    ∃ index < size, ∃ x, Lands good x ∧ t.next shuffle = answer index x := by
  obtain ⟨stack, source⟩ := t
  cases stack with
  | nil => cases hover
  | cons frame below =>
      obtain ⟨hpath, htop⟩ := h
      have hpiece := htop frame rfl
      cases hcontent : frame.content with
      | piece index r =>
          have hslot : (Slot.piece index r).Proper size :=
            hcontent ▸ hproper _ (Array.getElem_mem _)
          refine ⟨index, hslot.1, _, ?_, next_of_piece hcontent below source⟩
          split
          · rename_i hnext
            have hagain : ({ frame with rounds := frame.rounds + 1 } : Frame a).Sound good :=
              (Frame.sound_iff { frame with rounds := frame.rounds + 1 } hcontent).mpr hnext
            exact .standing ⟨hpath.exchange hagain rfl, fun f hf => Option.some.inj hf ▸ hpiece⟩
          · exact lands_unwind hproper hyields hpath.pop hpath.inner source
      | root children forever => rw [hcontent] at hpiece; cases hpiece
      | group children r => rw [hcontent] at hpiece; cases hpiece
      | random children picks r => rw [hcontent] at hpiece; cases hpiece

end

/-- Nothing moves a halted traversal. -/
theorem Halted.next {t : Traversal a σ} (h : t.Halted good) :
    t.next shuffle = (t, .error .topNotPiece) := by
  obtain ⟨stack, source⟩ := t
  obtain ⟨-, frame, hframe, hinner, -⟩ := h
  cases stack with
  | nil => cases hframe
  | cons top below =>
      obtain rfl : top = frame := Option.some.inj hframe
      unfold Traversal.next
      split
      · rename_i hnil
        cases hnil
      · rename_i hcons
        cases hcons
        split
        · rename_i hcontent
          rw [hcontent] at hinner
          cases hinner
        · rfl

theorem Halted.isOver {t : Traversal a σ} (h : t.Halted good) : t.isOver = false := by
  obtain ⟨-, frame, hframe, -⟩ := h
  obtain ⟨stack, source⟩ := t
  cases stack with
  | nil => cases hframe
  | cons top below => rfl

end Traversal

end PieceSequencer
