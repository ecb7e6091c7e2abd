import PieceSequencer.Proofs.Pattern.Length

/-! # Repeats by a group around a node

A node that is repeated can be put into a group that is repeated instead.  `Node.Enclosing` does so
with one node of a pattern, at any depth.  Nothing that a pattern means is changed by it: the
passages are the same functions, because the repeats of every node are those of `Passage.times`
(`Pattern.Enclosing.passage_eq`), and so is the length (`Pattern.Enclosing.length?_eq`). -/

namespace PieceSequencer

namespace Node

/-- The node once, in a group that has its repeats. -/
def enclosed (node : Node) : Node := .group [node.withRepeats 1] node.repeats

/-- The second node is the first one with one node in it, or the whole of it, enclosed. -/
inductive Enclosing : Node → Node → Prop where
  | here (node : Node) : Enclosing node node.enclosed
  | group {front back : List Node} {node node' : Node} {r : UInt32} : Enclosing node node' →
    Enclosing (.group (front ++ node :: back) r) (.group (front ++ node' :: back) r)
  | random {front back : List Node} {node node' : Node} {picks r : UInt32} : Enclosing node node' →
    Enclosing (.random (front ++ node :: back) picks r) (.random (front ++ node' :: back) picks r)

variable {σ : Type} {shuffle : Shuffle σ} {keys : List Char}

/-! ### Meaning -/

theorem passage_withRepeats (node : Node) :
    ((node.withRepeats 1).passage shuffle).times node.repeats.toNat = node.passage shuffle := by
  cases node <;>
    simp only [withRepeats, repeats, passage, UInt32.toNat_one, Passage.times_one]

theorem passage_enclosed (node : Node) :
    node.enclosed.passage shuffle = node.passage shuffle := by
  rw [enclosed, passage, passages, passages, Passage.sequence_cons, Passage.sequence_nil,
    Passage.andThen_nothing, passage_withRepeats]

theorem Enclosing.passage_eq {node node' : Node} (h : Enclosing node node') :
    node'.passage shuffle = node.passage shuffle := by
  induction h with
  | here node => exact passage_enclosed node
  | group _ ih => simp only [passage, passages_eq_map, List.map_append, List.map_cons, ih]
  | random _ ih => simp only [passage, passages_eq_map, List.map_append, List.map_cons, ih]

/-! ### Length -/

/-- Lengths of nodes in a row are the lengths of the nodes. -/
theorem lengths?_eq_mapM (nodes : List Node) : lengths? nodes = nodes.mapM length? := by
  induction nodes with
  | nil => rfl
  | cons node nodes ih => rw [lengths?, List.mapM_cons, ih]

theorem lengths?_congr {front back : List Node} {node node' : Node}
    (h : node'.length? = node.length?) :
    lengths? (front ++ node' :: back) = lengths? (front ++ node :: back) := by
  simp only [lengths?_eq_mapM, List.mapM_append, List.mapM_cons, h]

theorem roundLength?_lt {lengths : List Nat} {picks n : Nat}
    (h : roundLength? lengths picks = some n) : n < UInt64.size := by
  unfold roundLength? at h
  split at h
  · cases h
  · split at h
    · exact (fitting_eq_some_iff.mp h).2
    · split at h
      · cases h
      · exact (fitting_eq_some_iff.mp h).2

/-- A node once has the length of which the node with its repeats has a multiple. -/
theorem length?_eq_some_iff_once {node : Node} {n : Nat} :
    node.length? = some n ↔ ∃ once, (node.withRepeats 1).length? = some once ∧
      once * node.repeats.toNat = n ∧ n < UInt64.size := by
  cases node with
  | piece key r =>
      have hr : r.toNat < UInt64.size := r.toNat_lt.trans (by decide)
      simp only [withRepeats, repeats, length?, UInt32.toNat_one, Option.some.injEq]
      constructor
      · rintro rfl
        exact ⟨1, rfl, Nat.one_mul _, hr⟩
      · rintro ⟨_, rfl, rfl, -⟩
        exact (Nat.one_mul _).symm
  | group children r =>
      simp only [withRepeats, repeats, length?_group_eq_some_iff, UInt32.toNat_one, Nat.mul_one]
      constructor
      · rintro ⟨lengths, hlengths, hlt, hn, hn'⟩
        exact ⟨_, ⟨lengths, hlengths, hlt, rfl, hlt⟩, hn, hn'⟩
      · rintro ⟨_, ⟨lengths, hlengths, hlt, rfl, -⟩, hn, hn'⟩
        exact ⟨lengths, hlengths, hlt, hn, hn'⟩
  | random children picks r =>
      simp only [withRepeats, repeats, length?_random_eq_some_iff, UInt32.toNat_one, Nat.mul_one]
      constructor
      · rintro ⟨lengths, once, hlengths, honce, hn, hn'⟩
        exact ⟨once, ⟨lengths, once, hlengths, honce, rfl, roundLength?_lt honce⟩, hn, hn'⟩
      · rintro ⟨_, ⟨lengths, once, hlengths, honce, rfl, -⟩, hn, hn'⟩
        exact ⟨lengths, once, hlengths, honce, hn, hn'⟩

theorem length?_enclosed (node : Node) : node.enclosed.length? = node.length? := by
  refine Option.ext fun n => ?_
  rw [enclosed, length?_group_eq_some_iff, length?_eq_some_iff_once]
  constructor
  · rintro ⟨lengths, hlengths, -, hn, hlt⟩
    obtain ⟨once, rest, honce, hrest, rfl⟩ := lengths?_cons_eq_some_iff.mp hlengths
    cases hrest
    exact ⟨once, honce, hn, hlt⟩
  · rintro ⟨once, honce, hn, hlt⟩
    obtain ⟨-, -, -, hlt'⟩ := length?_eq_some_iff_once.mp honce
    exact ⟨[once], lengths?_cons_eq_some_iff.mpr ⟨once, [], honce, rfl, rfl⟩, hlt', hn, hlt⟩

theorem Enclosing.length?_eq {node node' : Node} (h : Enclosing node node') :
    node'.length? = node.length? := by
  induction h with
  | here node => exact length?_enclosed node
  | group _ ih => rw [length?, length?, lengths?_congr ih]
  | random _ ih => rw [length?, length?, lengths?_congr ih]

/-! ### Well-formedness -/

theorem allWellFormed_append {front back : List Node} :
    allWellFormed keys (front ++ back) = true ↔
      allWellFormed keys front = true ∧ allWellFormed keys back = true := by
  simp only [allWellFormed_iff, List.mem_append, or_imp, forall_and]

theorem repeats_ne_zero {node : Node} (h : node.wellFormed keys = true) : node.repeats ≠ 0 := by
  cases node with
  | piece key r => exact (wellFormed_piece_iff.mp h).2
  | group children r => exact (wellFormed_group_iff.mp h).2.2
  | random children picks r => exact (wellFormed_random_iff.mp h).2.2.2.2

theorem wellFormed_enclosed {node : Node} (h : node.wellFormed keys = true) :
    node.enclosed.wellFormed keys = true := by
  have honce : (node.withRepeats 1).wellFormed keys = true := wellFormed_withRepeats h (by decide)
  refine wellFormed_group_iff.mpr ⟨List.cons_ne_nil _ _, ?_, repeats_ne_zero h⟩
  exact allWellFormed_cons_iff.mpr ⟨honce, rfl⟩

theorem allWellFormed_exchange {front back : List Node} {node node' : Node}
    (h : node.wellFormed keys = true → node'.wellFormed keys = true)
    (hall : allWellFormed keys (front ++ node :: back) = true) :
    allWellFormed keys (front ++ node' :: back) = true := by
  rw [allWellFormed_append, allWellFormed_cons_iff] at hall ⊢
  exact ⟨hall.1, h hall.2.1, hall.2.2⟩

theorem Enclosing.wellFormed {node node' : Node} (h : Enclosing node node')
    (hwf : node.wellFormed keys = true) : node'.wellFormed keys = true := by
  induction h with
  | here node => exact wellFormed_enclosed hwf
  | group _ ih =>
      obtain ⟨-, hall, hr⟩ := wellFormed_group_iff.mp hwf
      exact wellFormed_group_iff.mpr ⟨by simp, allWellFormed_exchange ih hall, hr⟩
  | random _ ih =>
      obtain ⟨hp, hle, hsize, hall, hr⟩ := wellFormed_random_iff.mp hwf
      refine wellFormed_random_iff.mpr ⟨hp, ?_, ?_, allWellFormed_exchange ih hall, hr⟩
      · simpa using hle
      · simpa using hsize

end Node

namespace Pattern

/-- The second pattern is the first one with one node enclosed, at any depth. -/
inductive Enclosing : Pattern → Pattern → Prop where
  | child {front back : List Node} {node node' : Node} {forever : Bool} :
    Node.Enclosing node node' →
    Enclosing ⟨front ++ node :: back, forever⟩ ⟨front ++ node' :: back, forever⟩

variable {σ : Type} {shuffle : Shuffle σ} {keys : List Char} {p p' : Pattern}

theorem Enclosing.forever_eq (h : Enclosing p p') : p'.forever = p.forever := by
  cases h
  rfl

/-- Enclosing a node leaves the meaning of a pattern as it is. -/
theorem Enclosing.passage_eq (h : Enclosing p p') (again : Nat) :
    p'.passage shuffle again = p.passage shuffle again := by
  cases h with
  | child h =>
      simp only [passage, Node.passages_eq_map, List.map_append, List.map_cons, h.passage_eq]

/-- Enclosing a node leaves the length of a pattern as it is. -/
theorem Enclosing.length?_eq (h : Enclosing p p') : p'.length? = p.length? := by
  cases h with
  | child h => rw [length?, length?, Node.lengths?_congr h.length?_eq]

theorem Enclosing.wellFormed (h : Enclosing p p') (hwf : p.wellFormed keys = true) :
    p'.wellFormed keys = true := by
  cases h with
  | child h =>
      have hall := (wellFormed_iff.mp hwf).2
      exact wellFormed_iff.mpr ⟨by simp, Node.allWellFormed_exchange h.wellFormed hall⟩

end Pattern

end PieceSequencer
