import PieceSequencer.Bag.Error
import PieceSequencer.Pattern.Basic

/-! # The arena of a pattern

A pattern laid out as an array of slots that refer to their children by place. The root stands at
place 0 and every other slot behind its children, so a child always ranks below its parent
(`Arena.ordered`) and every way down from the root ends at a piece. -/

namespace PieceSequencer

/-- A node of a pattern with its key as a place of the catalogue and its children as places of the
arena. -/
inductive Slot where
  | root (children : Array Nat) (forever : Bool)
  | piece (index : Nat) (repeats : UInt32)
  | group (children : Array Nat) (repeats : UInt32)
  | random (children : Array Nat) (picks : Nat) (repeats : UInt32)
  deriving DecidableEq, Repr

namespace Slot

instance : Inhabited Slot := ⟨.root #[] false⟩

/-- The places of the children. -/
def children : Slot → Array Nat
  | .root children _ => children
  | .piece .. => #[]
  | .group children _ => children
  | .random children _ _ => children

end Slot

/-! ### Laying out nodes -/

/-- Slots that stand at the places `1`, `2`, … of an arena, each behind its children. -/
def Behind (body : Array Slot) : Prop :=
  ∀ (i : Nat) (slot : Slot), body[i]? = some slot →
    ∀ child ∈ slot.children, 0 < child ∧ child ≤ i

theorem behind_empty : Behind #[] := by
  intro i slot hfound
  simp at hfound

theorem Behind.push {body : Array Slot} (hbehind : Behind body) {slot : Slot}
    (hknown : ∀ child ∈ slot.children, 0 < child ∧ child ≤ body.size) :
    Behind (body.push slot) := by
  intro i other hfound child hmem
  rw [Array.getElem?_push] at hfound
  split at hfound
  · rename_i hlast
    cases hfound
    exact hlast ▸ hknown child hmem
  · exact hbehind i other hfound child hmem

namespace Node

mutual

/-- Lays out a node behind the slots `body`. Its own slot comes last, and its place in the arena is
the number of slots laid out. -/
def layOut (catalogue : Catalogue) (body : Array Slot) : Node → Except Fault (Array Slot)
  | .piece key r =>
    match catalogue.position? key with
    | some index => .ok (body.push (.piece index r))
    | none => .error .keyOutsideCatalogue
  | .group children r => do
    let (body, places) ← layOutList catalogue body children
    return body.push (.group places.toArray r)
  | .random children picks r => do
    let (body, places) ← layOutList catalogue body children
    return body.push (.random places.toArray picks.toNat r)

/-- Lays out nodes one behind the other and collects their places. -/
def layOutList (catalogue : Catalogue) (body : Array Slot) :
    List Node → Except Fault (Array Slot × List Nat)
  | [] => .ok (body, [])
  | node :: nodes => do
    let body ← layOut catalogue body node
    let place := body.size
    let (body, places) ← layOutList catalogue body nodes
    return (body, place :: places)

end

mutual

/-- A laid out node stands behind its children. -/
theorem behind_layOut {catalogue : Catalogue} :
    ∀ (node : Node) {body body' : Array Slot}, Behind body →
      layOut catalogue body node = .ok body' → Behind body' ∧ body.size < body'.size
  | .piece key r, body, body', hbehind, hdone => by
    rw [layOut] at hdone
    split at hdone
    · cases hdone
      exact ⟨hbehind.push (by simp [Slot.children]), by simp⟩
    · cases hdone
  | .group children r, body, body', hbehind, hdone => by
    rw [layOut] at hdone
    cases hinner : layOutList catalogue body children with
    | error e => simp [hinner, bind, Except.bind] at hdone
    | ok result =>
      simp only [hinner, bind, Except.bind, pure, Except.pure, Except.ok.injEq] at hdone
      subst hdone
      obtain ⟨hbehind', hgrown, hknown⟩ := behind_layOutList children hbehind hinner
      exact ⟨hbehind'.push (by simpa [Slot.children] using hknown), by simp; omega⟩
  | .random children picks r, body, body', hbehind, hdone => by
    rw [layOut] at hdone
    cases hinner : layOutList catalogue body children with
    | error e => simp [hinner, bind, Except.bind] at hdone
    | ok result =>
      simp only [hinner, bind, Except.bind, pure, Except.pure, Except.ok.injEq] at hdone
      subst hdone
      obtain ⟨hbehind', hgrown, hknown⟩ := behind_layOutList children hbehind hinner
      exact ⟨hbehind'.push (by simpa [Slot.children] using hknown), by simp; omega⟩

/-- Nodes laid out in a row have places among the slots. -/
theorem behind_layOutList {catalogue : Catalogue} :
    ∀ (nodes : List Node) {body : Array Slot} {result : Array Slot × List Nat}, Behind body →
      layOutList catalogue body nodes = .ok result →
      Behind result.1 ∧ body.size ≤ result.1.size ∧
        ∀ place ∈ result.2, 0 < place ∧ place ≤ result.1.size
  | [], body, result, hbehind, hdone => by
    rw [layOutList] at hdone
    cases hdone
    exact ⟨hbehind, Nat.le_refl _, by simp⟩
  | node :: nodes, body, result, hbehind, hdone => by
    rw [layOutList] at hdone
    cases hfirst : layOut catalogue body node with
    | error e => simp [hfirst, bind, Except.bind] at hdone
    | ok middle =>
      cases hrest : layOutList catalogue middle nodes with
      | error e => simp [hfirst, hrest, bind, Except.bind] at hdone
      | ok last =>
        simp only [hfirst, hrest, bind, Except.bind, pure, Except.pure, Except.ok.injEq] at hdone
        subst hdone
        obtain ⟨hbehind', hgrown⟩ := behind_layOut node hbehind hfirst
        obtain ⟨hbehind'', hgrown', hknown⟩ := behind_layOutList nodes hbehind' hrest
        refine ⟨hbehind'', by simp only; omega, ?_⟩
        intro place hmem
        simp only [List.mem_cons] at hmem
        rcases hmem with rfl | hmem
        · simp only
          omega
        · exact hknown place hmem

end

end Node

/-! ### Arenas -/

/-- The slots of a pattern. A child of the root is any other slot; a child of another slot stands
before it. -/
structure Arena where
  slots : Array Slot
  ordered : ∀ (i : Nat) (slot : Slot), slots[i]? = some slot →
    ∀ child ∈ slot.children, 0 < child ∧ child < if i = 0 then slots.size else i
  nonempty : 0 < slots.size

namespace Arena

/-- The number of slots. -/
abbrev size (a : Arena) : Nat := a.slots.size

/-- The place of the root. -/
def root (a : Arena) : Fin a.size := ⟨0, a.nonempty⟩

/-- How far a slot is from the pieces at most: a child ranks below its parent. -/
def rank (a : Arena) (i : Fin a.size) : Nat := if i.val = 0 then a.size else i.val

/-- The arena of a root in front of slots that stand behind their children. -/
def ofBody (body : Array Slot) (hbehind : Behind body) (children : List Nat)
    (hknown : ∀ child ∈ children, 0 < child ∧ child ≤ body.size) (forever : Bool) : Arena where
  slots := #[.root children.toArray forever] ++ body
  nonempty := by
    rw [Array.size_append]
    exact Nat.lt_of_lt_of_le Nat.zero_lt_one (Nat.le_add_right _ _)
  ordered := by
    intro i slot hfound child hmem
    cases i with
    | zero =>
      simp only [Array.getElem?_append, Array.size_singleton, Nat.zero_lt_one, if_pos,
        Array.getElem?_singleton, Option.some.injEq] at hfound
      subst hfound
      have := hknown child (by simpa [Slot.children] using hmem)
      simp only [if_pos, Array.size_append, Array.size_singleton]
      omega
    | succ i =>
      simp only [Array.getElem?_append, Array.size_singleton, Nat.add_one_sub_one] at hfound
      rw [if_neg (by omega)] at hfound
      have := hbehind i slot hfound child hmem
      simp only [Nat.add_one_ne_zero, if_false]
      omega

/-- The arena of a pattern over a catalogue. -/
def ofPattern (catalogue : Catalogue) (pattern : Pattern) : Except Fault Arena :=
  match hdone : Node.layOutList catalogue #[] pattern.children with
  | .error fault => .error fault
  | .ok (body, places) =>
    let hfacts := Node.behind_layOutList pattern.children behind_empty hdone
    .ok (ofBody body hfacts.1 places hfacts.2.2 pattern.forever)

end Arena

end PieceSequencer
