import PieceSequencer.Proofs.Pattern.Length

/-! # How often a key comes

Every piece of a pattern has its share in what one pass stops at: the product of the repeats on the
way down to it (`Node.leaves`).  No shuffle can make a key come more often than all its pieces
together say, and if every random group visits all its children the key comes exactly that often,
whatever the draws (`Pattern.tallies_passage`).  As for lengths there is one lemma for every way of
putting passages together; a round is stable under rearranging because sums are. -/

namespace PieceSequencer

/-! ### Shares -/

/-- A piece of a pattern, with the product of the repeats on the way down to it. -/
structure Leaf where
  key : Char
  times : Nat
  deriving DecidableEq, Repr

/-- How often the leaves with this key come, all together. -/
def Leaf.weight (key : Char) (leaves : List Leaf) : Nat :=
  total ((leaves.filter (·.key = key)).map Leaf.times)

namespace Node

mutual

/-- The pieces of a node, where the repeats around the node multiply to `outer`. -/
def leaves (outer : Nat) : Node → List Leaf
  | .piece key r => [⟨key, outer * r.toNat⟩]
  | .group children r => leavesList (outer * r.toNat) children
  | .random children _ r => leavesList (outer * r.toNat) children

/-- The pieces of nodes in a row. -/
def leavesList (outer : Nat) : List Node → List Leaf
  | [] => []
  | node :: nodes => leaves outer node ++ leavesList outer nodes

end

mutual

/-- Whether every random group of a node visits all its children. -/
def drawsAll : Node → Bool
  | .piece .. => true
  | .group children _ => allDrawAll children
  | .random children picks _ => picks.toNat = children.length && allDrawAll children

/-- Whether every random group of nodes in a row visits all its children. -/
def allDrawAll : List Node → Bool
  | [] => true
  | node :: nodes => drawsAll node && allDrawAll nodes

end

end Node

namespace Pattern

/-- How often a key comes in one pass, by the repeats on the way down to its pieces. -/
def weight (p : Pattern) (key : Char) : Nat := Leaf.weight key (Node.leavesList 1 p.children)

/-- Whether every random group of a pattern visits all its children. -/
def drawsAll (p : Pattern) : Bool := Node.allDrawAll p.children

end Pattern

/-! ### Sums of shares -/

theorem total_append (ms ns : List Nat) : total (ms ++ ns) = total ms + total ns := by
  induction ms with
  | nil => exact (Nat.zero_add _).symm
  | cons m ms ih => rw [List.cons_append, total_cons, total_cons, ih, Nat.add_assoc]

theorem Leaf.weight_append (key : Char) (front back : List Leaf) :
    weight key (front ++ back) = weight key front + weight key back := by
  rw [weight, List.filter_append, List.map_append, total_append, weight, weight]

namespace Node
variable {key : Char}

mutual

/-- Repeats around a node multiply its weight. -/
theorem weight_leaves (key : Char) (outer : Nat) : ∀ node : Node,
    Leaf.weight key (node.leaves outer) = outer * Leaf.weight key (node.leaves 1)
  | .piece k r => by
      by_cases hk : k = key <;> simp [leaves, Leaf.weight, hk]
  | .group children r => by
      rw [leaves, leaves, weight_leavesList key (outer * r.toNat) children,
        weight_leavesList key (1 * r.toNat) children, Nat.one_mul, Nat.mul_assoc]
  | .random children picks r => by
      rw [leaves, leaves, weight_leavesList key (outer * r.toNat) children,
        weight_leavesList key (1 * r.toNat) children, Nat.one_mul, Nat.mul_assoc]

theorem weight_leavesList (key : Char) (outer : Nat) : ∀ nodes : List Node,
    Leaf.weight key (leavesList outer nodes) = outer * Leaf.weight key (leavesList 1 nodes)
  | [] => rfl
  | node :: nodes => by
      rw [leavesList, leavesList, Leaf.weight_append, Leaf.weight_append,
        weight_leaves key outer node, weight_leavesList key outer nodes, Nat.mul_add]

end

/-- How often a key comes in one pass of a node. -/
def weight (key : Char) (node : Node) : Nat := Leaf.weight key (node.leaves 1)

theorem weight_piece (k : Char) (r : UInt32) :
    (piece k r).weight key = (if k = key then 1 else 0) * r.toNat := by
  by_cases hk : k = key <;> simp [weight, leaves, Leaf.weight, hk]

theorem weight_leavesList_one (nodes : List Node) :
    Leaf.weight key (leavesList 1 nodes) = total (nodes.map (weight key)) := by
  induction nodes with
  | nil => rfl
  | cons node nodes ih => rw [leavesList, Leaf.weight_append, ih, List.map_cons, total_cons, weight]

theorem weight_group (children : List Node) (r : UInt32) :
    (group children r).weight key = total (children.map (weight key)) * r.toNat := by
  rw [weight, leaves, weight_leavesList, weight_leavesList_one, Nat.one_mul, Nat.mul_comm]

theorem weight_random (children : List Node) (picks r : UInt32) :
    (random children picks r).weight key = total (children.map (weight key)) * r.toNat := by
  rw [weight, leaves, weight_leavesList, weight_leavesList_one, Nat.one_mul, Nat.mul_comm]

/-- What a round visits weighs no more than everything there is. -/
theorem total_drawnLengths_le {lengths order : List Nat} (h : order.Perm (.range lengths.length))
    (picks : Nat) : total (drawnLengths lengths order picks) ≤ total lengths := by
  have hall := total_drawnLengths_all h
  have hlen : order.length = lengths.length := by simpa using h.length_eq
  have hsplit : drawnLengths lengths order lengths.length =
      drawnLengths lengths order picks ++ (order.drop picks).map fun i => lengths[i]?.getD 0 := by
    rw [drawnLengths, drawnLengths, List.take_of_length_le hlen.le, ← List.map_append,
      List.take_append_drop]
  rw [hsplit, total_append] at hall
  omega

end Node

/-! ### Passages -/

namespace Passage
variable {σ : Type} {shuffle : Shuffle σ} {key : Char} {full : Prop}

/-- How often a key is among stops. -/
def tally (key : Char) (stops : List (Stop σ)) : Nat := (stops.map Stop.key).count key

theorem tally_append (front back : List (Stop σ)) :
    tally key (front ++ back) = tally key front + tally key back := by
  rw [tally, List.map_append, List.count_append, tally, tally]

/-- The key comes at most so often, whatever the state, and exactly so often if nothing is left
out. -/
def Tallies (key : Char) (full : Prop) (passage : Passage σ) (n : Nat) : Prop :=
  ∀ source, tally key (passage source).1 ≤ n ∧ (full → tally key (passage source).1 = n)

theorem tallies_nothing : Tallies key full (nothing : Passage σ) 0 :=
  fun _ => ⟨le_rfl, fun _ => rfl⟩

theorem tallies_single (k : Char) :
    Tallies key full (single k : Passage σ) (if k = key then 1 else 0) := by
  intro source
  have htally : tally key (single k source).1 = if k = key then 1 else 0 := by
    by_cases hk : k = key <;> simp [tally, single, hk]
  exact ⟨htally.le, fun _ => htally⟩

theorem Tallies.andThen {first second : Passage σ} {m n : Nat} (h : first.Tallies key full m)
    (h' : second.Tallies key full n) : (first.andThen second).Tallies key full (m + n) := by
  intro source
  obtain ⟨hle, heq⟩ := h source
  obtain ⟨hle', heq'⟩ := h' (first source).2
  have htally : tally key (first.andThen second source).1 =
      tally key (first source).1 + tally key (second (first source).2).1 := tally_append _ _
  rw [htally]
  exact ⟨Nat.add_le_add hle hle', fun hfull => by rw [heq hfull, heq' hfull]⟩

theorem Tallies.times {passage : Passage σ} {n : Nat} (h : passage.Tallies key full n)
    (count : Nat) : (passage.times count).Tallies key full (n * count) := by
  induction count with
  | zero => exact tallies_nothing
  | succ count ih =>
      rw [times_succ, Nat.mul_succ, Nat.add_comm]
      exact h.andThen ih

theorem tallies_sequence {passages : List (Passage σ)} {weights : List Nat}
    (h : List.Forall₂ (Tallies key full) passages weights) :
    (sequence passages).Tallies key full (total weights) := by
  induction h with
  | nil => exact tallies_nothing
  | cons h _ ih => exact h.andThen ih

/-- A round takes each child at most once, in some order, and all of them if it has room. -/
theorem tallies_round {passages : List (Passage σ)} {weights : List Nat} {picks : Nat}
    (hperm : shuffle.Permuting) (h : List.Forall₂ (Tallies key full) passages weights)
    (hpicks : full → picks = weights.length) :
    (round shuffle passages picks).Tallies key full (total weights) := by
  intro source
  have horder := hperm.perm_deal passages.length source
  have hpicked : ∀ order : List Nat, List.Forall₂ (Tallies key full)
      (order.map fun i => passages[i]?.getD nothing) (order.map fun i => weights[i]?.getD 0) := by
    intro order
    rw [List.forall₂_map_left_iff, List.forall₂_map_right_iff, List.forall₂_same]
    exact fun i _ => forall₂_getD h tallies_nothing i
  rw [round_apply, h.length_eq]
  rw [h.length_eq] at horder
  generalize shuffle.deal weights.length source = dealt at horder ⊢
  obtain ⟨hle, heq⟩ := tallies_sequence (hpicked (dealt.1.toList.take picks)) dealt.2
  refine ⟨hle.trans (Node.total_drawnLengths_le horder picks), fun hfull => ?_⟩
  have hall := Node.total_drawnLengths_all horder
  rw [← hpicks hfull] at hall
  exact (heq hfull).trans hall

end Passage

/-! ### Nodes and patterns -/

namespace Node
variable {σ : Type} {shuffle : Shuffle σ} {key : Char} {full : Prop}

mutual

/-- One pass of a node stops at a key as often as the node says. -/
theorem tallies_passage (hperm : shuffle.Permuting) : ∀ node : Node,
    (full → node.drawsAll = true) → (node.passage shuffle).Tallies key full (node.weight key)
  | .piece k r, _ => by
      rw [passage, weight_piece]
      exact (Passage.tallies_single k).times _
  | .group children r, hfull => by
      simp only [drawsAll] at hfull
      rw [passage, weight_group]
      exact (Passage.tallies_sequence (tallies_passages hperm children hfull)).times _
  | .random children picks r, hfull => by
      simp only [drawsAll, Bool.and_eq_true, decide_eq_true_eq] at hfull
      have hall := tallies_passages hperm children fun h => (hfull h).2
      rw [passage, weight_random]
      refine (Passage.tallies_round hperm hall fun h => ?_).times _
      rw [List.length_map]
      exact (hfull h).1

theorem tallies_passages (hperm : shuffle.Permuting) : ∀ nodes : List Node,
    (full → allDrawAll nodes = true) →
    List.Forall₂ (Passage.Tallies key full) (passages shuffle nodes) (nodes.map (weight key))
  | [], _ => .nil
  | node :: nodes, hfull => by
      simp only [allDrawAll, Bool.and_eq_true] at hfull
      exact .cons (tallies_passage hperm node fun h => (hfull h).1)
        (tallies_passages hperm nodes fun h => (hfull h).2)

end

end Node

/-- One pass of a pattern stops at a key no more often than its pieces say, and exactly as often if
nothing is left out. -/
theorem Pattern.tallies_passage {σ : Type} {shuffle : Shuffle σ} (hperm : shuffle.Permuting)
    (p : Pattern) (key : Char) :
    (p.passage shuffle 0).Tallies key (p.drawsAll = true) (p.weight key) := by
  have hall : List.Forall₂ (Passage.Tallies key (p.drawsAll = true))
      (Node.passages shuffle p.children) (p.children.map (Node.weight key)) :=
    Node.tallies_passages hperm p.children id
  rw [passage, Passage.times_zero, Passage.andThen_nothing, weight, Node.weight_leavesList_one]
  exact Passage.tallies_sequence hall

end PieceSequencer
