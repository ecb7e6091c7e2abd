import PieceSequencer.Pattern.Basic

/-! # Well-formed patterns

The patterns that can be written: no group without children, no count of zero, no pick count
beyond the children there are, and pieces named by the given keys only. What has been read is
well-formed if the children of its random groups are few enough to be counted
(`Pattern.countable`). -/

namespace PieceSequencer

/-- A count that is not zero is at least one. -/
theorem toNat_pos {count : UInt32} (h : count ≠ 0) : 0 < count.toNat :=
  Nat.pos_of_ne_zero fun hzero => h (UInt32.toNat_inj.mp hzero)

namespace Node

mutual

/-- Whether the children of every random group of a node can be counted with 32 bits. -/
def countable : Node → Bool
  | .piece .. => true
  | .group children _ => allCountable children
  | .random children _ _ => children.length < UInt32.size && allCountable children

/-- Whether the children of every random group of nodes in a row can be counted with 32 bits. -/
def allCountable : List Node → Bool
  | [] => true
  | node :: nodes => countable node && allCountable nodes

end

theorem allCountable_iff {nodes : List Node} :
    allCountable nodes = true ↔ ∀ node ∈ nodes, node.countable = true := by
  induction nodes with
  | nil => simp [allCountable]
  | cons node nodes ih => simp [allCountable, ih]

theorem countable_withRepeats (count : UInt32) (node : Node) :
    (node.withRepeats count).countable = node.countable := by
  cases node <;> simp [countable, withRepeats]

mutual

/-- Whether a node can be written over the given keys. The children of a random group are few enough
to be counted with 32 bits. -/
def wellFormed (keys : List Char) : Node → Bool
  | .piece key r => keys.contains key && r != 0
  | .group children r => !children.isEmpty && allWellFormed keys children && r != 0
  | .random children picks r =>
    picks != 0 && picks.toNat ≤ children.length && children.length < UInt32.size &&
      allWellFormed keys children && r != 0

/-- Whether nodes in a row can be written over the given keys. -/
def allWellFormed (keys : List Char) : List Node → Bool
  | [] => true
  | node :: nodes => wellFormed keys node && allWellFormed keys nodes

end

theorem allWellFormed_iff {keys : List Char} {nodes : List Node} :
    allWellFormed keys nodes = true ↔ ∀ node ∈ nodes, node.wellFormed keys = true := by
  induction nodes with
  | nil => simp [allWellFormed]
  | cons node nodes ih => simp [allWellFormed, ih]

theorem wellFormed_piece_iff {keys : List Char} {key : Char} {r : UInt32} :
    (piece key r).wellFormed keys = true ↔ key ∈ keys ∧ r ≠ 0 := by
  simp [wellFormed]

theorem wellFormed_group_iff {keys : List Char} {children : List Node} {r : UInt32} :
    (group children r).wellFormed keys = true ↔
      children ≠ [] ∧ allWellFormed keys children = true ∧ r ≠ 0 := by
  simp [wellFormed, and_assoc]

theorem wellFormed_random_iff {keys : List Char} {children : List Node} {picks r : UInt32} :
    (random children picks r).wellFormed keys = true ↔
      picks ≠ 0 ∧ picks.toNat ≤ children.length ∧ children.length < UInt32.size ∧
        allWellFormed keys children = true ∧ r ≠ 0 := by
  simp [wellFormed, and_assoc]

theorem allWellFormed_cons_iff {keys : List Char} {node : Node} {nodes : List Node} :
    allWellFormed keys (node :: nodes) = true ↔
      node.wellFormed keys = true ∧ allWellFormed keys nodes = true := by
  simp [allWellFormed]

theorem wellFormed_withRepeats {keys : List Char} {node : Node} {count : UInt32}
    (hwf : node.wellFormed keys = true) (hcount : count ≠ 0) :
    (node.withRepeats count).wellFormed keys = true := by
  cases node <;> simp_all [wellFormed, withRepeats]

mutual

/-- The children of random groups in a well-formed node can be counted. -/
theorem countable_of_wellFormed {keys : List Char} : ∀ node : Node,
    node.wellFormed keys = true → node.countable = true
  | .piece .., _ => rfl
  | .group children _, h => allCountable_of_allWellFormed children (wellFormed_group_iff.mp h).2.1
  | .random children _ _, h => by
    obtain ⟨-, -, hfew, hall, -⟩ := wellFormed_random_iff.mp h
    simp [countable, hfew, allCountable_of_allWellFormed children hall]

theorem allCountable_of_allWellFormed {keys : List Char} : ∀ nodes : List Node,
    allWellFormed keys nodes = true → allCountable nodes = true
  | [], _ => rfl
  | node :: nodes, h => by
    obtain ⟨hnode, hnodes⟩ := allWellFormed_cons_iff.mp h
    simp [allCountable, countable_of_wellFormed node hnode,
      allCountable_of_allWellFormed nodes hnodes]

end

end Node

/-- Whether the children of every random group of a pattern can be counted with 32 bits. -/
def Pattern.countable (p : Pattern) : Bool := Node.allCountable p.children

/-- Whether a pattern can be written over the given keys. -/
def Pattern.wellFormed (keys : List Char) (p : Pattern) : Bool :=
  !p.children.isEmpty && Node.allWellFormed keys p.children

theorem Pattern.wellFormed_iff {keys : List Char} {p : Pattern} : p.wellFormed keys = true ↔
    p.children ≠ [] ∧ Node.allWellFormed keys p.children = true := by
  simp [wellFormed]

theorem Pattern.countable_of_wellFormed {keys : List Char} {p : Pattern}
    (h : p.wellFormed keys = true) : p.countable = true :=
  Node.allCountable_of_allWellFormed p.children (wellFormed_iff.mp h).2

end PieceSequencer
