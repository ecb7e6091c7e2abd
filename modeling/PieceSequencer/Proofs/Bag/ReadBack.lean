import Mathlib.Data.List.Chain
import Mathlib.Data.List.Nodup
import Mathlib.Data.List.Perm.Basic
import PieceSequencer.Catalogue.Standard
import PieceSequencer.Proofs.Bag.Layout

/-! # Reading an arena back

`Arena.pattern?` reads a pattern off any arena, from the root down: a child ranks below its
parent, so the reading ends, as every way down does (`Arena.length_lt_of_isChain`).  Off the arena
of a pattern over the keys of the catalogue it reads that pattern (`Arena.Holds.pattern?_eq`).
That nothing else is in the arena is an invariant of laying out: each new place is a child of
one new slot or handed on to the parent, never both (`Grows`).  The root takes what is handed on
last, so every other place is a child exactly once (`Arena.IsTree`). -/

namespace PieceSequencer

/-! ### Reading back -/

/-- The node of a slot whose children are these nodes, with the key at the place of the catalogue
that a piece names. -/
def Slot.node? (catalogue : Catalogue) (nodes : List Node) : Slot → Option Node
  | .root .. => none
  | .piece index r => (catalogue.piece? index).map fun piece => .piece piece.key r
  | .group _ r => some (.group nodes r)
  | .random _ picks r =>
    if few : picks < UInt32.size then some (.random nodes (UInt32.ofNatLT picks few) r) else none

namespace Arena
variable {a : Arena} {catalogue : Catalogue}

/-- One place is a child of another. -/
def Child (a : Arena) (parent child : Nat) : Prop :=
  ∃ slot, a.find parent = some slot ∧ child ∈ slot.children

/-- The rank of a place, whether a slot stands there or not. -/
def height (a : Arena) (place : Nat) : Nat := if place = 0 then a.size else place

theorem Child.lt_height {parent child : Nat} (h : a.Child parent child) :
    0 < child ∧ child < a.height parent := by
  obtain ⟨slot, hslot, hchild⟩ := h
  exact a.ordered parent slot hslot child hchild

theorem Child.height_lt {parent child : Nat} (h : a.Child parent child) :
    a.height child < a.height parent := by
  obtain ⟨hpos, hlt⟩ := h.lt_height
  rwa [height, if_neg (by omega)]

/-- The node that can be read off at a place. -/
def nodeAt? (a : Arena) (catalogue : Catalogue) (place : Nat) : Option Node :=
  match _ : a.find place with
  | none => none
  | some slot =>
    (slot.children.toList.attach.mapM fun child => a.nodeAt? catalogue child.1).bind fun nodes =>
      slot.node? catalogue nodes
termination_by a.height place
decreasing_by exact Child.height_lt ⟨slot, by assumption, Array.mem_toList_iff.mp child.2⟩

/-- The pattern that can be read off the root. -/
def pattern? (a : Arena) (catalogue : Catalogue) : Option Pattern :=
  match a.find 0 with
  | some (.root children forever) =>
    (children.toList.mapM (a.nodeAt? catalogue)).map fun nodes => ⟨nodes, forever⟩
  | _ => none

theorem nodeAt?_eq {place : Nat} {slot : Slot} (h : a.find place = some slot) :
    a.nodeAt? catalogue place =
      (slot.children.toList.mapM (a.nodeAt? catalogue)).bind (slot.node? catalogue) := by
  rw [nodeAt?]
  split
  · rename_i hnone
    rw [h] at hnone
    cases hnone
  · rename_i other hother
    rw [h] at hother
    cases hother
    rw [List.mapM_subtype (g := a.nodeAt? catalogue) fun _ _ => rfl, List.unattach_attach]

mutual

/-- What stands at a place is read off there. -/
theorem nodeAt?_of_stands : ∀ {node : Node} {place : Nat}, node.Stands catalogue a.find place →
    a.nodeAt? catalogue place = some node
  | .piece key r, place, ⟨index, hindex, h⟩ => by
      obtain ⟨piece, hpiece, rfl⟩ :=
        Option.map_eq_some_iff.mp (Catalogue.key_of_position? hindex)
      rw [nodeAt?_eq h]
      simp [Slot.children, Slot.node?, hpiece]
  | .group children r, place, ⟨places, h, hall⟩ => by
      rw [nodeAt?_eq h, Slot.children, mapM_nodeAt?_of_allStand hall]
      rfl
  | .random children picks r, place, ⟨places, h, hall⟩ => by
      rw [nodeAt?_eq h, Slot.children, mapM_nodeAt?_of_allStand hall, Option.bind_some, Slot.node?,
        dif_pos picks.toNat_lt]
      rfl

theorem mapM_nodeAt?_of_allStand : ∀ {nodes : List Node} {places : List Nat},
    Node.AllStand catalogue a.find nodes places → places.mapM (a.nodeAt? catalogue) = some nodes
  | [], _, h => by
      obtain rfl := h
      rfl
  | node :: nodes, _, ⟨place, rest, he, h, hall⟩ => by
      rw [he, List.mapM_cons, nodeAt?_of_stands h, mapM_nodeAt?_of_allStand hall]
      rfl

end

/-- The pattern that an arena holds is the one that is read back. -/
theorem Holds.pattern?_eq {p : Pattern} (h : a.Holds catalogue p) :
    a.pattern? catalogue = some p := by
  obtain ⟨places, hroot, hall⟩ := h
  simp only [pattern?, hroot, mapM_nodeAt?_of_allStand hall, Option.map_some]

/-! ### Ways down -/

theorem length_lt_of_isChain_cons {place : Nat} {path : List Nat} (hpos : 0 < place)
    (h : (place :: path).IsChain a.Child) : path.length < place := by
  induction path generalizing place with
  | nil => exact hpos
  | cons child path ih =>
      rw [List.isChain_cons_cons] at h
      obtain ⟨hchild, hlt⟩ := h.1.lt_height
      rw [height, if_neg (by omega)] at hlt
      exact Nat.lt_of_le_of_lt (ih hchild h.2) hlt

/-- A way down from the root, always to a child, has fewer steps than there are slots. -/
theorem length_lt_of_isChain {path : List Nat} (h : (0 :: path).IsChain a.Child) :
    path.length < a.size := by
  cases path with
  | nil => exact a.nonempty
  | cons child path =>
      rw [List.isChain_cons_cons] at h
      obtain ⟨hchild, hlt⟩ := h.1.lt_height
      exact Nat.lt_of_le_of_lt (length_lt_of_isChain_cons hchild h.2) hlt

end Arena

/-! ### Places that are children -/

/-- Whether a slot is a root. -/
def Slot.IsRoot : Slot → Prop
  | .root .. => True
  | _ => False

/-- The places that slots have as children, one slot after the other. -/
def listed (slots : Array Slot) : List Nat := slots.toList.flatMap fun slot => slot.children.toList

theorem listed_push (body : Array Slot) (slot : Slot) :
    listed (body.push slot) = listed body ++ slot.children.toList := by
  rw [listed, Array.toList_push, List.flatMap_append, List.flatMap_singleton, listed]

/-- The places of the slots behind the first `size` ones, up to `size'` of them. -/
def placesBehind (size size' : Nat) : List Nat := List.range' (size + 1) (size' - size)

theorem placesBehind_self (size : Nat) : placesBehind size size = [] := by
  rw [placesBehind, Nat.sub_self, List.range'_zero]

theorem placesBehind_append {size middle size' : Nat} (h : size ≤ middle) (h' : middle ≤ size') :
    placesBehind size middle ++ placesBehind middle size' = placesBehind size size' := by
  rw [placesBehind, placesBehind, placesBehind,
    show middle + 1 = size + 1 + 1 * (middle - size) by omega, List.range'_append]
  congr 1
  omega

theorem placesBehind_succ (size : Nat) : placesBehind size (size + 1) = [size + 1] := by
  rw [placesBehind, Nat.add_sub_cancel_left, List.range'_one]

open scoped List

/-- What laying out adds to the slots `body`: no root, and each new place is a child of one new slot
or among `places`, which are handed on. -/
structure Grows (body body' : Array Slot) (places : List Nat) : Prop where
  size_le : body.size ≤ body'.size
  inner : ∀ slot ∈ body', slot ∈ body ∨ ¬ slot.IsRoot
  perm : places ++ listed body' ~ placesBehind body.size body'.size ++ listed body

namespace Grows
variable {body middle body' : Array Slot}

theorem nil (body : Array Slot) : Grows body body [] where
  size_le := Nat.le_refl _
  inner := fun _ hslot => .inl hslot
  perm := by rw [placesBehind_self]

/-- A slot over all that was handed on is handed on itself. -/
theorem push (slot : Slot) (h : Grows body middle slot.children.toList) (hslot : ¬ slot.IsRoot) :
    Grows body (middle.push slot) [(middle.push slot).size] where
  size_le := by
    rw [Array.size_push]
    exact Nat.le_succ_of_le h.size_le
  inner := by
    intro other hother
    rcases Array.mem_push.mp hother with hother | rfl
    · exact h.inner other hother
    · exact .inr hslot
  perm := by
    rw [listed_push, Array.size_push, ← placesBehind_append h.size_le (Nat.le_succ _),
      placesBehind_succ, List.append_assoc]
    calc [middle.size + 1] ++ (listed middle ++ slot.children.toList)
      _ ~ [middle.size + 1] ++ (slot.children.toList ++ listed middle) :=
        List.perm_append_comm.append_left _
      _ ~ [middle.size + 1] ++ (placesBehind body.size middle.size ++ listed body) :=
        h.perm.append_left _
      _ ~ placesBehind body.size middle.size ++ ([middle.size + 1] ++ listed body) :=
        List.perm_append_comm_assoc ..

theorem append {front back : List Nat} (h : Grows body middle front)
    (h' : Grows middle body' back) : Grows body body' (front ++ back) where
  size_le := h.size_le.trans h'.size_le
  inner := by
    intro slot hslot
    rcases h'.inner slot hslot with hslot | hslot
    · exact h.inner slot hslot
    · exact .inr hslot
  perm := by
    rw [← placesBehind_append h.size_le h'.size_le, List.append_assoc, List.append_assoc]
    calc front ++ (back ++ listed body')
      _ ~ front ++ (placesBehind middle.size body'.size ++ listed middle) := h'.perm.append_left _
      _ ~ placesBehind middle.size body'.size ++ (front ++ listed middle) :=
        List.perm_append_comm_assoc ..
      _ ~ placesBehind middle.size body'.size ++
          (placesBehind body.size middle.size ++ listed body) := h.perm.append_left _
      _ ~ placesBehind body.size middle.size ++
          (placesBehind middle.size body'.size ++ listed body) := List.perm_append_comm_assoc ..

end Grows

namespace Node
variable {catalogue : Catalogue}

mutual

theorem grows_layOut : ∀ (node : Node) {body body' : Array Slot},
    layOut catalogue body node = .ok body' → Grows body body' [body'.size]
  | .piece key r, body, body', h => by
      obtain ⟨index, -, rfl⟩ := layOut_piece_eq_ok_iff.mp h
      exact Grows.push (.piece index r) (.nil body) id
  | .group children r, body, body', h => by
      obtain ⟨middle, places, hlist, rfl⟩ := layOut_group_eq_ok_iff.mp h
      exact Grows.push (.group places.toArray r) (grows_layOutList children hlist) id
  | .random children picks r, body, body', h => by
      obtain ⟨middle, places, hlist, rfl⟩ := layOut_random_eq_ok_iff.mp h
      exact Grows.push (.random places.toArray picks.toNat r)
        (grows_layOutList children hlist) id

theorem grows_layOutList : ∀ (nodes : List Node) {body body' : Array Slot} {places : List Nat},
    layOutList catalogue body nodes = .ok (body', places) → Grows body body' places
  | [], body, body', places, h => by
      cases h
      exact .nil body
  | node :: nodes, body, body', places, h => by
      obtain ⟨middle, rest, hnode, hnodes, rfl⟩ := layOutList_cons_eq_ok_iff.mp h
      exact (grows_layOut node hnode).append (grows_layOutList nodes hnodes)

end

end Node

namespace Arena

/-- A tree from the root down.  The root stands at place 0 and nowhere else, every other place is
a child exactly once, and ways down go to smaller places and end. -/
structure IsTree (a : Arena) : Prop where
  isRoot_iff : ∀ place slot, a.find place = some slot → (slot.IsRoot ↔ place = 0)
  count_listed : ∀ place, 0 < place → place < a.size → (listed a.slots).count place = 1
  inside : ∀ place ∈ listed a.slots, 0 < place ∧ place < a.size
  child_lt : ∀ parent child, 0 < parent → a.Child parent child → child < parent
  length_lt : ∀ path, (0 :: path).IsChain a.Child → path.length < a.size

variable {a : Arena} {catalogue : Catalogue} {p : Pattern}

/-- An arena that a pattern was laid out in is a tree. -/
theorem isTree_ofPattern (h : ofPattern catalogue p = .ok a) : a.IsTree := by
  obtain ⟨body, places, hdone, hslots⟩ := ofPattern_eq_ok_iff.mp h
  have hgrows := Node.grows_layOutList p.children hdone
  have hsize : a.size = body.size + 1 := by
    rw [size, hslots, Array.size_append, Array.size_singleton, Nat.add_comm]
  -- what the body hands on are the children of the root
  have hperm : listed a.slots ~ placesBehind 0 body.size := by
    have hlisted : listed a.slots = places ++ listed body := by
      rw [listed, hslots, Array.toList_append, List.flatMap_append, List.flatMap_singleton,
        Slot.children, listed]
    rw [hlisted, ← List.append_nil (placesBehind 0 body.size)]
    exact hgrows.perm
  refine ⟨?_, ?_, ?_, ?_, fun path => length_lt_of_isChain⟩
  · intro place slot hfind
    cases place with
    | zero =>
        rw [find_root hslots] at hfind
        cases hfind
        exact iff_of_true trivial rfl
    | succ place =>
        refine iff_of_false ?_ (Nat.succ_ne_zero place)
        rw [find, hslots, Array.getElem?_append_right (by simp)] at hfind
        rcases hgrows.inner slot (Array.mem_of_getElem? hfind) with hslot | hslot
        · simp at hslot
        · exact hslot
  · intro place hpos hlt
    rw [hperm.count_eq]
    refine List.count_eq_one_of_mem List.nodup_range' (List.mem_range'_1.mpr ?_)
    omega
  · intro place hplace
    have := List.mem_range'_1.mp (hperm.mem_iff.mp hplace)
    omega
  · intro parent child hparent hchild
    obtain ⟨-, hlt⟩ := hchild.lt_height
    rwa [height, if_neg (by omega)] at hlt

/-- Children stand before the slot that they are children of, and the root before all. -/
example :
    let p : Pattern := ⟨[.group [.piece 'T' 1, .piece 'I' 2] 3, .piece 'T' 1], true⟩
    (ofPattern .standard p).map Arena.slots = .ok
      #[.root #[3, 4] true, .piece 0 1, .piece 1 2, .group #[1, 2] 3, .piece 0 1] := by
  decide +kernel

/-- **The arena of a pattern is the pattern laid out, and nothing else.**  If all keys are in the
catalogue, laying out succeeds in a tree from the root down, off which the pattern is read
back. -/
theorem ofPattern_reads_back (hkeys : p.keys ⊆ catalogue.keys) :
    ∃ a, ofPattern catalogue p = .ok a ∧ a.IsTree ∧
      (∃ children, a.find 0 = some (.root children p.forever)) ∧
      a.pattern? catalogue = some p := by
  obtain ⟨a, ha, hholds⟩ := ofPattern_holds hkeys
  have hread := hholds.pattern?_eq
  obtain ⟨children, hroot, -⟩ := hholds
  exact ⟨a, ha, isTree_ofPattern ha, ⟨children, hroot⟩, hread⟩

/-- Also a pattern that cannot be written, with an empty group, counts of zero and more picks than
children, is read back as it was. -/
theorem standard_reads_back :
    let p : Pattern := ⟨[.random [.piece 'T' 1, .group [.piece 'I' 2, .piece 'T' 0] 3] 5 1,
      .group [] 0], true⟩
    p.keys ⊆ Catalogue.standard.keys ∧ ∃ a, ofPattern .standard p = .ok a ∧ a.IsTree ∧
      (∃ children, a.find 0 = some (.root children true)) ∧ a.pattern? .standard = some p := by
  intro p
  have hkeys : p.keys ⊆ Catalogue.standard.keys := by decide
  exact ⟨hkeys, ofPattern_reads_back hkeys⟩

end Arena

end PieceSequencer
