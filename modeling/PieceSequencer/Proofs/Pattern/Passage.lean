import Mathlib.Data.ENat.Lattice
import Mathlib.Data.List.Forall2
import PieceSequencer.Pattern.Meaning
import PieceSequencer.Pattern.WellFormed

/-! # Passages

Two facts about the meaning of a pattern, each by one lemma for every way of putting passages
together.  A well-formed node is never passed through without a stop (`Node.stopping_passage`), so
an endless pattern has a stop of every number.  And a passage does not look into the shuffle: with
a shuffle that `Refines` another it stops at the same keys (`Node.covers_passage`), so a count or
a record of the draws changes nothing. -/

namespace PieceSequencer

namespace Passage
variable {σ τ : Type} {shuffle : Shuffle σ} {shuffle' : Shuffle τ} {forget : τ → σ}

/-- What holds of two lists entry by entry holds of the entries at one place. -/
theorem forall₂_getD {α β : Type} {R : α → β → Prop} {as : List α} {bs : List β} {a : α} {b : β}
    (h : List.Forall₂ R as bs) (hnone : R a b) (i : Nat) : R (as[i]?.getD a) (bs[i]?.getD b) := by
  induction h generalizing i with
  | nil => exact hnone
  | cons hab _ ih =>
      cases i with
      | zero => exact hab
      | succ i => exact ih i

/-! ### Stopping -/

/-- There is a stop, whatever the state. -/
def Stopping (passage : Passage σ) : Prop := ∀ source, 0 < (passage source).1.length

theorem stopping_single (key : Char) : (single key : Passage σ).Stopping :=
  fun _ => Nat.zero_lt_one

theorem length_andThen (first second : Passage σ) (source : σ) :
    (first.andThen second source).1.length =
      (first source).1.length + (second (first source).2).1.length := by
  simp [andThen]

theorem Stopping.andThen {first : Passage σ} (h : first.Stopping) (second : Passage σ) :
    (first.andThen second).Stopping := by
  intro source
  have hfirst := h source
  rw [length_andThen]
  omega

theorem Stopping.times {passage : Passage σ} (h : passage.Stopping) {count : Nat}
    (hc : 0 < count) : (passage.times count).Stopping := by
  obtain ⟨n, rfl⟩ : ∃ n, count = n + 1 := ⟨count - 1, by omega⟩
  rw [times_succ]
  exact h.andThen _

theorem Stopping.le_length_times {passage : Passage σ} (h : passage.Stopping) (count : Nat)
    (source : σ) : count ≤ (passage.times count source).1.length := by
  induction count generalizing source with
  | zero => exact Nat.zero_le _
  | succ count ih =>
      have hfirst := h source
      have hrest := ih (passage source).2
      rw [times_succ, length_andThen]
      omega

theorem stopping_sequence {passages : List (Passage σ)} (h : ∀ v ∈ passages, v.Stopping)
    (hne : passages ≠ []) : (sequence passages).Stopping := by
  cases passages with
  | nil => exact absurd rfl hne
  | cons v passages => exact (h v List.mem_cons_self).andThen _

theorem stopping_round {passages : List (Passage σ)} {picks : Nat} (hin : shuffle.Inside)
    (h : ∀ v ∈ passages, v.Stopping) (hne : passages ≠ []) (hp : 0 < picks) :
    (round shuffle passages picks).Stopping := by
  intro source
  have hsize := shuffle.size_deal passages.length source
  have hlen := List.length_pos_iff.mpr hne
  rw [round_apply]
  refine stopping_sequence ?_ ?_ (shuffle.deal passages.length source).2
  · intro v hv
    obtain ⟨i, hi, rfl⟩ := List.mem_map.mp hv
    have hlt := hin _ source i (Array.mem_toList_iff.mp (List.mem_of_mem_take hi))
    rw [List.getElem?_eq_getElem hlt, Option.getD_some]
    exact h _ (List.getElem_mem hlt)
  · apply List.ne_nil_of_length_pos
    rw [List.length_map, List.length_take, Array.length_toList, hsize]
    exact Nat.lt_min.mpr ⟨hp, hlen⟩

/-! ### Forgetting -/

/-- The same stops in another state of which `forget` is left. -/
def Covers (forget : τ → σ) (passage' : Passage τ) (passage : Passage σ) : Prop :=
  ∀ source, passage (forget source) =
    ((passage' source).1.map (Stop.map forget), forget (passage' source).2)

theorem covers_nothing : Covers forget nothing nothing := fun _ => rfl

theorem covers_single (key : Char) : Covers forget (single key) (single key) := fun _ => rfl

theorem Covers.andThen {first second : Passage σ} {first' second' : Passage τ}
    (h : Covers forget first' first) (h' : Covers forget second' second) :
    Covers forget (first'.andThen second') (first.andThen second) := by
  intro source
  simp only [Passage.andThen, h source, h' (first' source).2, List.map_append]

theorem covers_sequence {passages : List (Passage σ)} {passages' : List (Passage τ)}
    (h : List.Forall₂ (Covers forget) passages' passages) :
    Covers forget (sequence passages') (sequence passages) := by
  induction h with
  | nil => exact covers_nothing
  | cons h _ ih => exact h.andThen ih

theorem Covers.times {passage : Passage σ} {passage' : Passage τ}
    (h : Covers forget passage' passage) (count : Nat) :
    Covers forget (passage'.times count) (passage.times count) := by
  induction count with
  | zero => exact covers_nothing
  | succ count ih => exact h.andThen ih

theorem covers_getElem? {passages : List (Passage σ)} {passages' : List (Passage τ)}
    (h : List.Forall₂ (Covers forget) passages' passages) (i : Nat) :
    Covers forget (passages'[i]?.getD nothing) (passages[i]?.getD nothing) :=
  forall₂_getD h covers_nothing i

theorem covers_round {passages : List (Passage σ)} {passages' : List (Passage τ)}
    (hs : shuffle'.Refines shuffle forget) (h : List.Forall₂ (Covers forget) passages' passages)
    (picks : Nat) :
    Covers forget (round shuffle' passages' picks) (round shuffle passages picks) := by
  have hpicked : ∀ order : List Nat, List.Forall₂ (Covers forget)
      (order.map fun i => passages'[i]?.getD nothing)
      (order.map fun i => passages[i]?.getD nothing) := by
    intro order
    rw [List.forall₂_map_left_iff, List.forall₂_map_right_iff, List.forall₂_same]
    exact fun i _ => covers_getElem? h i
  intro source
  rw [round_apply, round_apply, ← h.length_eq, hs passages'.length source]
  exact covers_sequence (hpicked _) _

end Passage

/-! ### Nodes -/

namespace Node
variable {σ τ : Type} {shuffle : Shuffle σ} {shuffle' : Shuffle τ} {forget : τ → σ}

mutual

/-- A well-formed node is not passed through without a stop. -/
theorem stopping_passage {keys : List Char} (hin : shuffle.Inside) : ∀ node : Node,
    node.wellFormed keys = true → (node.passage shuffle).Stopping
  | .piece key r, h => by
      obtain ⟨-, hr⟩ := wellFormed_piece_iff.mp h
      rw [passage]
      exact (Passage.stopping_single key).times (toNat_pos hr)
  | .group children r, h => by
      obtain ⟨hne, hall, hr⟩ := wellFormed_group_iff.mp h
      have hpassages := stopping_passages hin children hall
      rw [passage]
      exact (Passage.stopping_sequence hpassages (passages_ne_nil shuffle hne)).times (toNat_pos hr)
  | .random children picks r, h => by
      obtain ⟨hp, hle, -, hall, hr⟩ := wellFormed_random_iff.mp h
      have hpassages := stopping_passages hin children hall
      have hne : children ≠ [] := by
        rintro rfl
        exact absurd hle (Nat.not_le_of_gt (toNat_pos hp))
      rw [passage]
      exact (Passage.stopping_round hin hpassages (passages_ne_nil shuffle hne)
        (toNat_pos hp)).times (toNat_pos hr)

theorem stopping_passages {keys : List Char} (hin : shuffle.Inside) : ∀ nodes : List Node,
    allWellFormed keys nodes = true → ∀ v ∈ passages shuffle nodes, v.Stopping
  | [], _, _, hv => by cases hv
  | node :: nodes, h, v, hv => by
      obtain ⟨hnode, hnodes⟩ := allWellFormed_cons_iff.mp h
      rcases List.mem_cons.mp hv with rfl | hv
      · exact stopping_passage hin node hnode
      · exact stopping_passages hin nodes hnodes v hv

end

mutual

/-- A passage does not look into the shuffle. -/
theorem covers_passage (hs : shuffle'.Refines shuffle forget) : ∀ node : Node,
    Passage.Covers forget (node.passage shuffle') (node.passage shuffle)
  | .piece key r => by
      simp only [passage]
      exact (Passage.covers_single key).times r.toNat
  | .group children r => by
      simp only [passage]
      exact (Passage.covers_sequence (covers_passages hs children)).times r.toNat
  | .random children picks r => by
      simp only [passage]
      exact (Passage.covers_round hs (covers_passages hs children) picks.toNat).times r.toNat

theorem covers_passages (hs : shuffle'.Refines shuffle forget) : ∀ nodes : List Node,
    List.Forall₂ (Passage.Covers forget) (passages shuffle' nodes) (passages shuffle nodes)
  | [] => .nil
  | node :: nodes => .cons (covers_passage hs node) (covers_passages hs nodes)

end

end Node

/-! ### Patterns -/

namespace Pattern
variable {σ τ : Type} {shuffle : Shuffle σ} {shuffle' : Shuffle τ} {forget : τ → σ}

/-- A well-formed pattern has a last child, and there is a stop in it. -/
theorem stopping_last {keys : List Char} {p : Pattern} (hwf : p.wellFormed keys = true)
    (hin : shuffle.Inside) :
    ((Node.passages shuffle p.children).getLast?.getD .nothing).Stopping := by
  obtain ⟨hne, hall⟩ := wellFormed_iff.mp hwf
  rw [List.getLast?_eq_some_getLast (Node.passages_ne_nil shuffle hne), Option.getD_some]
  exact Node.stopping_passages hin p.children hall _ (List.getLast_mem _)

/-- The passage through a well-formed pattern has more stops than its last child is repeated. -/
theorem lt_length_passage {keys : List Char} {p : Pattern} (hwf : p.wellFormed keys = true)
    (hin : shuffle.Inside) (again : Nat) (source : σ) :
    again < (p.passage shuffle again source).1.length := by
  obtain ⟨hne, hall⟩ := wellFormed_iff.mp hwf
  have hfirst := Passage.stopping_sequence (Node.stopping_passages hin p.children hall)
    (Node.passages_ne_nil shuffle hne) source
  have hlast := (stopping_last hwf hin).le_length_times again
    (Passage.sequence (Node.passages shuffle p.children) source).2
  rw [passage, Passage.length_andThen]
  omega

/-- An endless pattern has a stop of every number. -/
theorem exists_stop? {keys : List Char} {p : Pattern} (hwf : p.wellFormed keys = true)
    (hin : shuffle.Inside) (hf : p.forever = true) (source : σ) (n : Nat) :
    ∃ stop, p.stop? shuffle source n = some stop := by
  rw [stop?, if_pos hf]
  exact ⟨_, List.getElem?_eq_getElem (lt_length_passage hwf hin n source)⟩

theorem passage_add (shuffle : Shuffle σ) (p : Pattern) (m n : Nat) :
    p.passage shuffle (m + n) = (p.passage shuffle m).andThen
      (((Node.passages shuffle p.children).getLast?.getD .nothing).times n) := by
  rw [passage, passage, Passage.times_add, Passage.andThen_assoc]

/-- What a passage has stopped at does not change when the last child is repeated more often. -/
theorem getElem?_passage_add {shuffle : Shuffle σ} {p : Pattern} {m n i : Nat} {source : σ}
    {stop : Stop σ} (h : (p.passage shuffle m source).1[i]? = some stop) :
    (p.passage shuffle (m + n) source).1[i]? = some stop := by
  obtain ⟨hi, -⟩ := List.getElem?_eq_some_iff.mp h
  rw [passage_add]
  exact (List.getElem?_append_left hi).trans h

/-- The stops of every passage through a pattern are its stops. -/
theorem stop?_of_passage {keys : List Char} {p : Pattern} (hwf : p.wellFormed keys = true)
    (hin : shuffle.Inside) {again n : Nat} (hagain : p.forever = true ∨ again = 0) {source : σ}
    {stop : Stop σ} (h : (p.passage shuffle again source).1[n]? = some stop) :
    p.stop? shuffle source n = some stop := by
  cases hf : p.forever with
  | false =>
      obtain rfl : again = 0 := hagain.resolve_left (by simp [hf])
      rwa [stop?, hf, if_neg (by simp)]
  | true =>
      obtain ⟨other, hother⟩ := exists_stop? hwf hin hf source n
      rw [stop?, if_pos hf] at hother ⊢
      have hleft := getElem?_passage_add (n := n) h
      have hright := getElem?_passage_add (n := again) hother
      rw [Nat.add_comm, hleft] at hright
      rw [hother, hright]

/-- The number of stops of a pattern. -/
def stopCount (shuffle : Shuffle σ) (p : Pattern) (source : σ) : ℕ∞ :=
  if p.forever then ⊤ else (p.passage shuffle 0 source).1.length

theorem sourceAt_of_none {p : Pattern} {source : σ} {n : Nat}
    (h : p.stop? shuffle source n = none) :
    p.sourceAt shuffle source n = (p.passage shuffle 0 source).2 := by
  rw [sourceAt, h]

theorem lt_stopCount_iff {keys : List Char} {p : Pattern} (hwf : p.wellFormed keys = true)
    (hin : shuffle.Inside) {source : σ} {n : Nat} :
    (n : ℕ∞) < p.stopCount shuffle source ↔ ∃ stop, p.stop? shuffle source n = some stop := by
  unfold stopCount
  cases hf : p.forever with
  | true => simpa using exists_stop? hwf hin hf source n
  | false =>
      rw [if_neg (by simp), Nat.cast_lt, stop?, hf, if_neg (by simp)]
      constructor
      · exact fun h => ⟨_, List.getElem?_eq_getElem h⟩
      · rintro ⟨stop, h⟩
        exact (List.getElem?_eq_some_iff.mp h).1

theorem covers_passage (hs : shuffle'.Refines shuffle forget) (p : Pattern) (again : Nat) :
    Passage.Covers forget (p.passage shuffle' again) (p.passage shuffle again) := by
  have hall := Node.covers_passages hs p.children
  refine (Passage.covers_sequence hall).andThen (Passage.Covers.times ?_ again)
  rw [List.getLast?_eq_getElem?, List.getLast?_eq_getElem?, hall.length_eq]
  exact Passage.covers_getElem? hall _

theorem stop?_forget (hs : shuffle'.Refines shuffle forget) (p : Pattern) (source : τ) (n : Nat) :
    p.stop? shuffle (forget source) n = (p.stop? shuffle' source n).map (Stop.map forget) := by
  rw [stop?, stop?, covers_passage hs p _ source, List.getElem?_map]

theorem stopCount_forget (hs : shuffle'.Refines shuffle forget) (p : Pattern) (source : τ) :
    p.stopCount shuffle (forget source) = p.stopCount shuffle' source := by
  rw [stopCount, stopCount, covers_passage hs p 0 source, List.length_map]

end Pattern

end PieceSequencer
