import PieceSequencer.Pattern.Basic
import PieceSequencer.Shuffle.Basic

/-! # The meaning of a pattern

What a pattern hands out, by recursion on its nodes. Each node means a `Passage`, which stops at
keys and moves a shuffle on: a piece stops at its key, a group passes through its children in
order, and a random group makes one draw a round and passes through the children at the first
places of the drawn order. A stop remembers the state of the shuffle it was reached in, so a
passage also tells which draws are made before which piece.

A pattern that never ends has a passage for every number of times that its last child has been
repeated (`Pattern.passage`), each a beginning of the next. `Pattern.stop?` is the sequence of
all stops, endless or not. -/

namespace PieceSequencer

/-- A key that a passage comes to, and the state of the shuffle by then. -/
structure Stop (σ : Type) where
  key : Char
  source : σ
  deriving DecidableEq, Repr

/-- The same stop, seen with another state. -/
def Stop.map {σ τ : Type} (f : σ → τ) (stop : Stop σ) : Stop τ := ⟨stop.key, f stop.source⟩

/-- Stops at keys and moves the state of a shuffle on. -/
abbrev Passage (σ : Type) := σ → List (Stop σ) × σ

namespace Passage

variable {σ : Type}

/-- Stops nowhere. -/
def nothing : Passage σ := fun source => ([], source)

/-- Stops once. -/
def single (key : Char) : Passage σ := fun source => ([⟨key, source⟩], source)

/-- One passage and then another. -/
def andThen (first second : Passage σ) : Passage σ := fun source =>
  let (stops, source) := first source
  let (more, source) := second source
  (stops ++ more, source)

/-- Passages one after the other. -/
def sequence (passages : List (Passage σ)) : Passage σ := passages.foldr andThen nothing

/-- The same passage a number of times. -/
def times (count : Nat) (passage : Passage σ) : Passage σ :=
  sequence (List.replicate count passage)

/-- One draw, and then the passages at the first `picks` places of the drawn order. An entry that is
no place of a passage stops nowhere. -/
def round (shuffle : Shuffle σ) (passages : List (Passage σ)) (picks : Nat) : Passage σ :=
  fun source =>
    let (order, source) := shuffle.deal passages.length source
    sequence ((order.toList.take picks).map fun i => passages[i]?.getD nothing) source

@[simp] theorem sequence_nil : sequence ([] : List (Passage σ)) = nothing := rfl

@[simp] theorem sequence_cons (passage : Passage σ) (passages : List (Passage σ)) :
    sequence (passage :: passages) = passage.andThen (sequence passages) := rfl

@[simp] theorem nothing_andThen (passage : Passage σ) : nothing.andThen passage = passage := rfl

@[simp] theorem andThen_nothing (passage : Passage σ) : passage.andThen nothing = passage := by
  funext source
  simp [andThen, nothing]

theorem andThen_assoc (a b c : Passage σ) :
    (a.andThen b).andThen c = a.andThen (b.andThen c) := by
  funext source
  simp [andThen]

theorem sequence_append (front back : List (Passage σ)) :
    sequence (front ++ back) = (sequence front).andThen (sequence back) := by
  induction front with
  | nil => rfl
  | cons passage front ih => simp [ih, andThen_assoc]

@[simp] theorem times_zero (passage : Passage σ) : passage.times 0 = nothing := rfl

theorem times_succ (count : Nat) (passage : Passage σ) :
    passage.times (count + 1) = passage.andThen (passage.times count) := rfl

@[simp] theorem times_one (passage : Passage σ) : passage.times 1 = passage :=
  andThen_nothing passage

theorem times_add (m n : Nat) (passage : Passage σ) :
    passage.times (m + n) = (passage.times m).andThen (passage.times n) := by
  rw [times, times, times, ← sequence_append, List.replicate_append_replicate]

theorem round_apply (shuffle : Shuffle σ) (passages : List (Passage σ)) (picks : Nat) (source : σ) :
    round shuffle passages picks source =
      sequence (((shuffle.deal passages.length source).1.toList.take picks).map fun i =>
        passages[i]?.getD nothing) (shuffle.deal passages.length source).2 := rfl

end Passage

namespace Node

variable {σ : Type}

mutual

/-- The passage through a node with its repeats. -/
def passage (shuffle : Shuffle σ) : Node → Passage σ
  | .piece key r => (Passage.single key).times r.toNat
  | .group children r => (Passage.sequence (passages shuffle children)).times r.toNat
  | .random children picks r =>
    (Passage.round shuffle (passages shuffle children) picks.toNat).times r.toNat

/-- The passages through nodes in a row. -/
def passages (shuffle : Shuffle σ) : List Node → List (Passage σ)
  | [] => []
  | node :: nodes => passage shuffle node :: passages shuffle nodes

end

theorem passages_eq_map (shuffle : Shuffle σ) (nodes : List Node) :
    passages shuffle nodes = nodes.map (passage shuffle) := by
  induction nodes with
  | nil => simp [passages]
  | cons node nodes ih => simp [passages, ih]

@[simp] theorem length_passages (shuffle : Shuffle σ) (nodes : List Node) :
    (passages shuffle nodes).length = nodes.length := by
  rw [passages_eq_map, List.length_map]

theorem passages_ne_nil (shuffle : Shuffle σ) {nodes : List Node} (h : nodes ≠ []) :
    passages shuffle nodes ≠ [] := by
  rw [passages_eq_map]
  exact fun hnil => h (List.map_eq_nil_iff.mp hnil)

end Node

namespace Pattern

variable {σ : Type}

/-- The passage through a pattern, and then through its last child `again` more times. -/
def passage (shuffle : Shuffle σ) (p : Pattern) (again : Nat) : Passage σ :=
  let children := Node.passages shuffle p.children
  (Passage.sequence children).andThen ((children.getLast?.getD .nothing).times again)

/-- The stop number `n` of a pattern, counted from zero. Each time a child is passed through there
is a stop at least, so it is enough to repeat the last child `n` times. -/
def stop? (shuffle : Shuffle σ) (p : Pattern) (source : σ) (n : Nat) : Option (Stop σ) :=
  (p.passage shuffle (if p.forever then n else 0) source).1[n]?

/-- The state of the shuffle when stop number `n` is reached, or else when the pattern has ended. -/
def sourceAt (shuffle : Shuffle σ) (p : Pattern) (source : σ) (n : Nat) : σ :=
  match p.stop? shuffle source n with
  | some stop => stop.source
  | none => (p.passage shuffle 0 source).2

end Pattern

end PieceSequencer
