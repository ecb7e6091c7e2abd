import PieceSequencer.Bag.Arena
import PieceSequencer.Pattern.WellFormed
import PieceSequencer.Proofs.FirstFault

/-! # What an arena holds

`Node.Stands` says that a node can be read off an arena at a place, and `Arena.Holds` that a
pattern can be read off the root.  Laying out only ever adds slots (`Extends`), so what stands
once stands in every later arena; a pattern whose keys are all in the catalogue is therefore laid
out without fault in an arena that holds it (`Arena.ofPattern_holds`). -/

namespace PieceSequencer

/-- The slot at a place of the arena that has these slots behind its root. -/
def placed (body : Array Slot) : Nat → Option Slot
  | 0 => none
  | place + 1 => body[place]?

/-- Every slot that one look-up finds, the other finds too. -/
def Extends (find find' : Nat → Option Slot) : Prop :=
  ∀ ⦃place slot⦄, find place = some slot → find' place = some slot

theorem Extends.refl (find : Nat → Option Slot) : Extends find find := fun _ _ h => h

theorem Extends.trans {find find' find'' : Nat → Option Slot} (h : Extends find find')
    (h' : Extends find' find'') : Extends find find'' := fun _ _ hf => h' (h hf)

theorem extends_push (body : Array Slot) (slot : Slot) :
    Extends (placed body) (placed (body.push slot)) := by
  intro place other hf
  cases place with
  | zero => cases hf
  | succ place =>
      rw [placed] at hf ⊢
      obtain ⟨hlt, -⟩ := Array.getElem?_eq_some_iff.mp hf
      rw [Array.getElem?_push_lt hlt, ← Array.getElem?_eq_getElem hlt, hf]

theorem placed_push_size (body : Array Slot) (slot : Slot) :
    placed (body.push slot) (body.push slot).size = some slot := by
  rw [Array.size_push, placed, Array.getElem?_push_size]

/-! ### Keys -/

namespace Node

mutual

/-- The keys of the pieces of a node. -/
def keys : Node → List Char
  | .piece key _ => [key]
  | .group children _ => keysList children
  | .random children _ _ => keysList children

/-- The keys of the pieces of nodes in a row. -/
def keysList : List Node → List Char
  | [] => []
  | node :: nodes => keys node ++ keysList nodes

end

mutual

theorem keys_subset_of_wellFormed {known : List Char} : ∀ {node : Node},
    node.wellFormed known = true → node.keys ⊆ known
  | .piece _ _, h => List.cons_subset.mpr ⟨(wellFormed_piece_iff.mp h).1, List.nil_subset _⟩
  | .group _ _, h => keysList_subset_of_allWellFormed (wellFormed_group_iff.mp h).2.1
  | .random _ _ _, h => keysList_subset_of_allWellFormed (wellFormed_random_iff.mp h).2.2.2.1

theorem keysList_subset_of_allWellFormed {known : List Char} : ∀ {nodes : List Node},
    allWellFormed known nodes = true → keysList nodes ⊆ known
  | [], _ => List.nil_subset _
  | _ :: _, h => by
      obtain ⟨hnode, hnodes⟩ := allWellFormed_cons_iff.mp h
      exact List.append_subset.mpr
        ⟨keys_subset_of_wellFormed hnode, keysList_subset_of_allWellFormed hnodes⟩

end

end Node

namespace Pattern

/-- The keys of the pieces of a pattern. -/
def keys (p : Pattern) : List Char := Node.keysList p.children

theorem keys_subset_of_wellFormed {known : List Char} {p : Pattern}
    (h : p.wellFormed known = true) : p.keys ⊆ known :=
  Node.keysList_subset_of_allWellFormed (wellFormed_iff.mp h).2

end Pattern

/-! ### Nodes -/

namespace Node

variable {catalogue : Catalogue}

mutual

/-- The node can be read off at a place. -/
def Stands (catalogue : Catalogue) (find : Nat → Option Slot) : Node → Nat → Prop
  | .piece key r, place => ∃ index, catalogue.position? key = some index ∧
    find place = some (.piece index r)
  | .group children r, place => ∃ places, find place = some (.group places r) ∧
    AllStand catalogue find children places.toList
  | .random children picks r, place => ∃ places, find place = some (.random places picks.toNat r) ∧
    AllStand catalogue find children places.toList

/-- The nodes can be read off at these places, one by one. -/
def AllStand (catalogue : Catalogue) (find : Nat → Option Slot) : List Node → List Nat → Prop
  | [], places => places = []
  | node :: nodes, places => ∃ place rest, places = place :: rest ∧
    Stands catalogue find node place ∧ AllStand catalogue find nodes rest

end

theorem AllStand.length_eq {find : Nat → Option Slot} {nodes : List Node} {places : List Nat}
    (h : AllStand catalogue find nodes places) : places.length = nodes.length := by
  induction nodes generalizing places with
  | nil =>
      obtain rfl : places = [] := h
      rfl
  | cons node nodes ih =>
      obtain ⟨place, rest, rfl, -, hrest⟩ := h
      rw [List.length_cons, List.length_cons, ih hrest]

mutual

/-- What stands once stands in every larger arena. -/
theorem Stands.extends {find find' : Nat → Option Slot} (hf : Extends find find') :
    ∀ {node : Node} {place : Nat}, node.Stands catalogue find place →
      node.Stands catalogue find' place
  | .piece _ _, _, ⟨index, hindex, h⟩ => ⟨index, hindex, hf h⟩
  | .group _ _, _, ⟨places, h, hall⟩ => ⟨places, hf h, AllStand.extends hf hall⟩
  | .random _ _ _, _, ⟨places, h, hall⟩ => ⟨places, hf h, AllStand.extends hf hall⟩

theorem AllStand.extends {find find' : Nat → Option Slot} (hf : Extends find find') :
    ∀ {nodes : List Node} {places : List Nat}, AllStand catalogue find nodes places →
      AllStand catalogue find' nodes places
  | [], _, h => h
  | _ :: _, _, ⟨place, rest, he, h, hrest⟩ =>
    ⟨place, rest, he, Stands.extends hf h, AllStand.extends hf hrest⟩

end

theorem layOut_piece_eq_ok_iff {body body' : Array Slot} {key : Char} {r : UInt32} :
    layOut catalogue body (.piece key r) = .ok body' ↔ ∃ index,
      catalogue.position? key = some index ∧ body' = body.push (.piece index r) := by
  rw [layOut]
  cases catalogue.position? key <;> simp [eq_comm]

theorem layOut_group_eq_ok_iff {body body' : Array Slot} {children : List Node} {r : UInt32} :
    layOut catalogue body (.group children r) = .ok body' ↔ ∃ middle places,
      layOutList catalogue body children = .ok (middle, places) ∧
      body' = middle.push (.group places.toArray r) := by
  rw [layOut, bind_eq_ok_iff, Prod.exists]
  simp only [pure, Except.pure, Except.ok.injEq, eq_comm]

theorem layOut_random_eq_ok_iff {body body' : Array Slot} {children : List Node}
    {picks r : UInt32} :
    layOut catalogue body (.random children picks r) = .ok body' ↔ ∃ middle places,
      layOutList catalogue body children = .ok (middle, places) ∧
      body' = middle.push (.random places.toArray picks.toNat r) := by
  rw [layOut, bind_eq_ok_iff, Prod.exists]
  simp only [pure, Except.pure, Except.ok.injEq, eq_comm]

theorem layOutList_cons_eq_ok_iff {body body' : Array Slot} {node : Node} {nodes : List Node}
    {places : List Nat} :
    layOutList catalogue body (node :: nodes) = .ok (body', places) ↔ ∃ middle rest,
      layOut catalogue body node = .ok middle ∧
      layOutList catalogue middle nodes = .ok (body', rest) ∧ places = middle.size :: rest := by
  rw [layOutList, bind_eq_ok_iff]
  constructor
  · rintro ⟨middle, hnode, h⟩
    obtain ⟨⟨last, rest⟩, hnodes, h⟩ := bind_eq_ok_iff.mp h
    cases h
    exact ⟨middle, rest, hnode, hnodes, rfl⟩
  · rintro ⟨middle, rest, hnode, hnodes, rfl⟩
    exact ⟨middle, hnode, bind_eq_ok_iff.mpr ⟨(body', rest), hnodes, rfl⟩⟩

theorem position?_of_mem_keys {key : Char} (h : key ∈ catalogue.keys) :
    ∃ index, catalogue.position? key = some index := by
  obtain ⟨piece, hpiece, rfl⟩ := List.mem_map.mp h
  have hsome : (catalogue.position? piece.key).isSome = true := by
    rw [Catalogue.position?, List.findIdx?_isSome, List.any_eq_true]
    exact ⟨piece, hpiece, by simp⟩
  exact Option.isSome_iff_exists.mp hsome

mutual

/-- A node over the keys of the catalogue is laid out behind any slots, and stands where its slot
comes last. -/
theorem layOut_stands : ∀ (node : Node) (body : Array Slot), node.keys ⊆ catalogue.keys →
    ∃ body', layOut catalogue body node = .ok body' ∧
      Extends (placed body) (placed body') ∧ node.Stands catalogue (placed body') body'.size
  | .piece key r, body, h => by
      obtain ⟨index, hindex⟩ := position?_of_mem_keys (List.cons_subset.mp h).1
      exact ⟨_, layOut_piece_eq_ok_iff.mpr ⟨index, hindex, rfl⟩, extends_push _ _, index, hindex,
        placed_push_size _ _⟩
  | .group children r, body, h => by
      obtain ⟨middle, places, hdone, hgrown, hall⟩ := layOutList_stands children body h
      exact ⟨_, layOut_group_eq_ok_iff.mpr ⟨middle, places, hdone, rfl⟩,
        hgrown.trans (extends_push _ _), places.toArray, placed_push_size _ _,
        hall.extends (extends_push _ _)⟩
  | .random children picks r, body, h => by
      obtain ⟨middle, places, hdone, hgrown, hall⟩ := layOutList_stands children body h
      exact ⟨_, layOut_random_eq_ok_iff.mpr ⟨middle, places, hdone, rfl⟩,
        hgrown.trans (extends_push _ _), places.toArray, placed_push_size _ _,
        hall.extends (extends_push _ _)⟩

theorem layOutList_stands : ∀ (nodes : List Node) (body : Array Slot),
    keysList nodes ⊆ catalogue.keys → ∃ body' places,
      layOutList catalogue body nodes = .ok (body', places) ∧
      Extends (placed body) (placed body') ∧ AllStand catalogue (placed body') nodes places
  | [], body, _ => ⟨body, [], rfl, .refl _, rfl⟩
  | node :: nodes, body, h => by
      obtain ⟨hnode, hnodes⟩ := List.append_subset.mp h
      obtain ⟨middle, hfirst, hgrown, hstands⟩ := layOut_stands node body hnode
      obtain ⟨last, places, hrest, hgrown', hall⟩ := layOutList_stands nodes middle hnodes
      exact ⟨last, middle.size :: places,
        layOutList_cons_eq_ok_iff.mpr ⟨middle, places, hfirst, hrest, rfl⟩, hgrown.trans hgrown',
        middle.size, places, rfl, hstands.extends hgrown', hall⟩

end

end Node

/-! ### Patterns -/

namespace Arena

/-- The slot at a place. -/
def find (a : Arena) (place : Nat) : Option Slot := a.slots[place]?

/-- The pattern can be read off the root. -/
def Holds (a : Arena) (catalogue : Catalogue) (p : Pattern) : Prop :=
  ∃ places, a.find 0 = some (.root places p.forever) ∧
    Node.AllStand catalogue a.find p.children places.toList

/-- The arena of a pattern is its root in front of the slots that its children are laid out in. -/
theorem ofPattern_eq_ok_iff {catalogue : Catalogue} {p : Pattern} {a : Arena} :
    ofPattern catalogue p = .ok a ↔ ∃ body places,
      Node.layOutList catalogue #[] p.children = .ok (body, places) ∧
      a.slots = #[.root places.toArray p.forever] ++ body := by
  unfold ofPattern
  split
  · rename_i fault hdone
    simp [hdone]
  · rename_i body places hdone
    constructor
    · intro h
      cases h
      exact ⟨body, places, hdone, rfl⟩
    · rintro ⟨body', places', hdone', hslots⟩
      rw [hdone] at hdone'
      cases hdone'
      cases a
      cases hslots
      rfl

section slots
variable {a : Arena} {children : Array Nat} {forever : Bool} {body : Array Slot}

theorem find_root (h : a.slots = #[.root children forever] ++ body) :
    a.find 0 = some (.root children forever) := by
  rw [find, h, Array.getElem?_append_left Nat.zero_lt_one]
  rfl

theorem extends_find (h : a.slots = #[.root children forever] ++ body) :
    Extends (placed body) a.find := by
  intro place slot hf
  cases place with
  | zero => cases hf
  | succ place =>
      rw [placed] at hf
      rw [find, h, Array.getElem?_append_right (by simp)]
      exact hf

end slots

/-- A pattern over the keys of the catalogue is laid out without fault, in an arena that holds
it. -/
theorem ofPattern_holds {catalogue : Catalogue} {p : Pattern} (h : p.keys ⊆ catalogue.keys) :
    ∃ a, ofPattern catalogue p = .ok a ∧ a.Holds catalogue p := by
  obtain ⟨body, places, hdone, -, hall⟩ := Node.layOutList_stands p.children #[] h
  have facts := Node.behind_layOutList p.children behind_empty hdone
  refine ⟨ofBody body facts.1 places facts.2.2 p.forever,
    ofPattern_eq_ok_iff.mpr ⟨body, places, hdone, rfl⟩, places.toArray, find_root rfl, ?_⟩
  exact hall.extends (extends_find rfl)

end Arena

end PieceSequencer
