import Mathlib.Data.List.Forall2
import PieceSequencer.Pattern.Length
import PieceSequencer.Proofs.Pattern.Passage

/-! # The length of a pattern is exact

`Pattern.length?` is what all shuffles agree on.  A round of a random group has a length if it is
equally long in every order (`Node.roundLength?_eq_some_iff`).  From there one direction is an
induction on the nodes: a node with a length comes to that many stops under every shuffle
(`Node.hasLength_passage`).  For the other, a `Shuffle.scripted` plays back any draws one likes, and
whatever is put together of passages can be led through part by part (`Passage.Reaches`), so a
number of stops that never changes does not change in any part either (`Passage.Only`). -/

namespace PieceSequencer

/-! ### Sums -/

theorem fitting_eq_some_iff {m n : Nat} : fitting m = some n ↔ m = n ∧ n < UInt64.size := by
  unfold fitting
  split
  · rename_i hlt
    rw [Option.some.injEq]
    exact ⟨fun h => ⟨h, h ▸ hlt⟩, fun h => h.1⟩
  · rename_i hle
    simp only [reduceCtorEq, false_iff]
    rintro ⟨rfl, hlt⟩
    exact hle hlt

@[simp] theorem total_nil : total [] = 0 := rfl

@[simp] theorem total_cons (n : Nat) (ns : List Nat) : total (n :: ns) = n + total ns := rfl

theorem total_perm {ms ns : List Nat} (h : ms.Perm ns) : total ms = total ns := by
  induction h with
  | nil => rfl
  | cons n _ ih => rw [total_cons, total_cons, ih]
  | swap m n ns => rw [total_cons, total_cons, total_cons, total_cons, Nat.add_left_comm]
  | trans _ _ ih ih' => exact ih.trans ih'

theorem total_replicate (count n : Nat) : total (List.replicate count n) = n * count := by
  induction count with
  | zero => rfl
  | succ count ih => rw [List.replicate_succ, total_cons, ih, Nat.mul_succ, Nat.add_comm]

theorem le_total_of_mem {n : Nat} {ns : List Nat} (h : n ∈ ns) : n ≤ total ns := by
  rw [total_perm (List.perm_cons_erase h), total_cons]
  exact Nat.le_add_right _ _

namespace Node

/-! ### Rounds -/

/-- The lengths of the children at the first `picks` places of an order. -/
def drawnLengths (lengths order : List Nat) (picks : Nat) : List Nat :=
  (order.take picks).map fun i => lengths[i]?.getD 0

theorem total_drawnLengths_cons (lengths order : List Nat) (i picks : Nat) :
    total (drawnLengths lengths (i :: order) (picks + 1)) =
      lengths[i]?.getD 0 + total (drawnLengths lengths order picks) := rfl

/-- A round that visits all children is as long as they are together. -/
theorem total_drawnLengths_all {lengths order : List Nat}
    (h : order.Perm (.range lengths.length)) :
    total (drawnLengths lengths order lengths.length) = total lengths := by
  have hall : (List.range lengths.length).map (fun i => lengths[i]?.getD 0) = lengths := by
    apply List.ext_getElem (by simp)
    intro i _ hi
    simp [hi]
  have hlen : order.length = lengths.length := by simpa using h.length_eq
  rw [drawnLengths, List.take_of_length_le hlen.le]
  have hperm := h.map fun i => lengths[i]?.getD 0
  rw [hall] at hperm
  exact total_perm hperm

/-- A round over children of one length is that length times as long as it has places. -/
theorem total_drawnLengths_even {lengths order : List Nat} {first picks : Nat}
    (heven : ∀ n ∈ lengths, n = first) (h : order.Perm (.range lengths.length))
    (hle : picks ≤ lengths.length) :
    total (drawnLengths lengths order picks) = first * picks := by
  have hlen : order.length = lengths.length := by simpa using h.length_eq
  have hdrawn : drawnLengths lengths order picks = List.replicate picks first := by
    rw [List.eq_replicate_iff]
    refine ⟨by simp [drawnLengths]; omega, ?_⟩
    intro n hn
    obtain ⟨i, hi, rfl⟩ := List.mem_map.mp hn
    have hlt : i < lengths.length := by simpa using h.mem_iff.mp (List.mem_of_mem_take hi)
    rw [List.getElem?_eq_getElem hlt, Option.getD_some]
    exact heven _ (List.getElem_mem hlt)
  rw [hdrawn, total_replicate]

/-- If a round leaves children out and is equally long in every order, the children are equally
long: exchange a child that is visited with one that is not. -/
theorem getElem_eq_of_total_drawnLengths {lengths : List Nat} {n picks : Nat} (hp : 0 < picks)
    (hlt : picks < lengths.length)
    (hall : ∀ order : List Nat, order.Perm (.range lengths.length) →
      total (drawnLengths lengths order picks) = n)
    {i j : Nat} (hi : i < lengths.length) (hj : j < lengths.length) : lengths[i] = lengths[j] := by
  rcases eq_or_ne j i with rfl | hne
  · rfl
  obtain ⟨picks, rfl⟩ : ∃ m, picks = m + 1 := ⟨picks - 1, by omega⟩
  have hmem : j ∈ (List.range lengths.length).erase i :=
    (List.mem_erase_of_ne hne).mpr (List.mem_range.mpr hj)
  have hrange := (List.perm_cons_erase (List.mem_range.mpr hi)).trans
    ((List.perm_cons_erase hmem).cons i)
  generalize ((List.range lengths.length).erase i).erase j = others at hrange
  have hlen : lengths.length = others.length + 2 := by simpa using hrange.length_eq
  have hdrawn : ∀ k l : Nat, drawnLengths lengths (k :: (others ++ [l])) (picks + 1) =
      drawnLengths lengths (k :: others) (picks + 1) := by
    intro k l
    rw [drawnLengths, drawnLengths, List.take_succ_cons, List.take_succ_cons,
      List.take_append_of_le_length (by omega)]
  have hfirst := hall (i :: (others ++ [j]))
    (((List.perm_append_singleton j others).cons i).trans hrange.symm)
  have hswap := (List.Perm.swap i j others).trans hrange.symm
  have hsecond := hall (j :: (others ++ [i]))
    (((List.perm_append_singleton i others).cons j).trans hswap)
  rw [hdrawn, total_drawnLengths_cons, List.getElem?_eq_getElem hi, Option.getD_some] at hfirst
  rw [hdrawn, total_drawnLengths_cons, List.getElem?_eq_getElem hj, Option.getD_some] at hsecond
  omega

/-- A round has a length if it is that long in every order, and the length has 64 bits. -/
theorem roundLength?_eq_some_iff {lengths : List Nat} {picks n : Nat} (hp : 0 < picks)
    (hle : picks ≤ lengths.length) :
    roundLength? lengths picks = some n ↔ n < UInt64.size ∧
      ∀ order : List Nat, order.Perm (.range lengths.length) →
        total (drawnLengths lengths order picks) = n := by
  cases lengths with
  | nil => simp only [List.length_nil] at hle; omega
  | cons first others =>
      have heven : others.any (· != first) = false ↔ ∀ m ∈ first :: others, m = first := by simp
      rw [roundLength?]
      by_cases hfull : picks = (first :: others).length
      · subst hfull
        rw [if_pos rfl, fitting_eq_some_iff, and_comm]
        refine and_congr_right fun _ => ⟨?_, ?_⟩
        · rintro rfl order horder
          exact total_drawnLengths_all horder
        · exact fun h => (total_drawnLengths_all (.refl _)).symm.trans (h _ (.refl _))
      · have hlt : picks < (first :: others).length := by omega
        rw [if_neg hfull]
        simp only [hlt, decide_true, Bool.true_and]
        by_cases hany : others.any (· != first) = false
        · have hsame := heven.mp hany
          rw [if_neg (by simp [hany]), fitting_eq_some_iff, and_comm]
          refine and_congr_right fun _ => ⟨?_, ?_⟩
          · rintro rfl order horder
            exact total_drawnLengths_even hsame horder hle
          · exact fun h => (total_drawnLengths_even hsame (.refl _) hle).symm.trans (h _ (.refl _))
        · rw [if_pos (by simpa using hany)]
          simp only [reduceCtorEq, false_iff]
          rintro ⟨-, hall⟩
          refine hany (heven.mpr ?_)
          intro m hm
          obtain ⟨i, hi, rfl⟩ := List.getElem_of_mem hm
          exact getElem_eq_of_total_drawnLengths hp hlt hall hi (Nat.zero_lt_of_lt hi)


/-- No child is longer than a round that is equally long in every order. -/
theorem le_of_total_drawnLengths {lengths : List Nat} {m n picks : Nat} (hp : 0 < picks)
    (hall : ∀ order : List Nat, order.Perm (.range lengths.length) →
      total (drawnLengths lengths order picks) = n) (hm : m ∈ lengths) : m ≤ n := by
  obtain ⟨i, hi, rfl⟩ := List.getElem_of_mem hm
  obtain ⟨picks, rfl⟩ : ∃ k, picks = k + 1 := ⟨picks - 1, by omega⟩
  have hfirst := hall _ (List.perm_cons_erase (List.mem_range.mpr hi)).symm
  rw [total_drawnLengths_cons, List.getElem?_eq_getElem hi, Option.getD_some] at hfirst
  omega

end Node

namespace Shuffle

/-! ### Scripts -/

/-- Deals the orders of a script one after the other, and leaves alone what the next order does not
rearrange. -/
def scripted : Shuffle (List (List Nat)) where
  draw := fun _ script order =>
    match script with
    | [] => (order, [])
    | next :: script =>
      if h : next.Perm order.toList then (⟨next.toArray, by simpa using h.length_eq⟩, script)
      else (order, script)

theorem permuting_scripted : scripted.Permuting := by
  intro n script order
  cases script with
  | nil => exact .refl _
  | cons next script =>
      simp only [scripted]
      split
      · rename_i h
        simpa using h
      · exact .refl _

theorem deal_scripted {n : Nat} {next : List Nat} (h : next.Perm (.range n))
    (script : List (List Nat)) : scripted.deal n (next :: script) = (next.toArray, script) := by
  have hrange : next.Perm (Vector.range n).toList := by
    rwa [Vector.toList, Vector.toArray_range, Array.toList_range]
  simp [deal, scripted, hrange]

end Shuffle

namespace Passage
variable {σ : Type} {shuffle : Shuffle σ}

/-! ### Passages of one length -/

/-- So many stops, whatever the state. -/
def HasLength (passage : Passage σ) (n : Nat) : Prop := ∀ source, (passage source).1.length = n

theorem hasLength_nothing : HasLength (nothing : Passage σ) 0 := fun _ => rfl

theorem hasLength_single (key : Char) : HasLength (single key : Passage σ) 1 := fun _ => rfl

theorem HasLength.andThen {first second : Passage σ} {m n : Nat} (h : first.HasLength m)
    (h' : second.HasLength n) : (first.andThen second).HasLength (m + n) := by
  intro source
  rw [length_andThen, h, h']

theorem HasLength.times {passage : Passage σ} {n : Nat} (h : passage.HasLength n) (count : Nat) :
    (passage.times count).HasLength (n * count) := by
  induction count with
  | zero => exact hasLength_nothing
  | succ count ih =>
      rw [times_succ, Nat.mul_succ, Nat.add_comm]
      exact h.andThen ih

theorem hasLength_sequence {passages : List (Passage σ)} {lengths : List Nat}
    (h : List.Forall₂ HasLength passages lengths) :
    (sequence passages).HasLength (total lengths) := by
  induction h with
  | nil => exact hasLength_nothing
  | cons h _ ih => exact h.andThen ih

theorem hasLength_round {passages : List (Passage σ)} {lengths : List Nat} {picks n : Nat}
    (hperm : shuffle.Permuting) (h : List.Forall₂ HasLength passages lengths)
    (hall : ∀ order : List Nat, order.Perm (.range lengths.length) →
      total (Node.drawnLengths lengths order picks) = n) :
    (round shuffle passages picks).HasLength n := by
  intro source
  have horder := hperm.perm_deal passages.length source
  have hpicked : ∀ order : List Nat, List.Forall₂ HasLength
      (order.map fun i => passages[i]?.getD nothing) (order.map fun i => lengths[i]?.getD 0) := by
    intro order
    rw [List.forall₂_map_left_iff, List.forall₂_map_right_iff, List.forall₂_same]
    exact fun i _ => forall₂_getD h hasLength_nothing i
  rw [h.length_eq] at horder
  rw [round_apply, h.length_eq, ← hall _ horder]
  exact hasLength_sequence (hpicked _) _

/-! ### Lengths that draws lead to -/

/-- A script leads through the passage with so many stops, whatever follows in the script. -/
def Reaches (passage : Passage (List (List Nat))) (n : Nat) : Prop :=
  ∃ script, ∀ rest, (passage (script ++ rest)).1.length = n ∧ (passage (script ++ rest)).2 = rest

theorem reaches_single (key : Char) : Reaches (single key) 1 := ⟨[], fun _ => ⟨rfl, rfl⟩⟩

theorem reaches_nothing : Reaches nothing 0 := ⟨[], fun _ => ⟨rfl, rfl⟩⟩

variable {first second passage : Passage (List (List Nat))} {m n picks : Nat}
  {passages : List (Passage (List (List Nat)))} {lengths order : List Nat}

theorem Reaches.andThen (h : first.Reaches m) (h' : second.Reaches n) :
    (first.andThen second).Reaches (m + n) := by
  obtain ⟨script, h⟩ := h
  obtain ⟨script', h'⟩ := h'
  refine ⟨script ++ script', fun rest => ?_⟩
  obtain ⟨hlen, hrest⟩ := h (script' ++ rest)
  obtain ⟨hlen', hrest'⟩ := h' rest
  rw [List.append_assoc, length_andThen, hlen, hrest, hlen']
  refine ⟨rfl, ?_⟩
  simp only [Passage.andThen, hrest, hrest']

theorem Reaches.times (h : passage.Reaches n) (count : Nat) :
    (passage.times count).Reaches (n * count) := by
  induction count with
  | zero => exact reaches_nothing
  | succ count ih =>
      rw [times_succ, Nat.mul_succ, Nat.add_comm]
      exact h.andThen ih

theorem reaches_sequence (h : List.Forall₂ Reaches passages lengths) :
    (sequence passages).Reaches (total lengths) := by
  induction h with
  | nil => exact reaches_nothing
  | cons h _ ih => exact h.andThen ih

/-- A script can begin with any order. -/
theorem reaches_round (h : List.Forall₂ Reaches passages lengths)
    (horder : order.Perm (.range lengths.length)) (picks : Nat) :
    (round .scripted passages picks).Reaches (total (Node.drawnLengths lengths order picks)) := by
  have hpicked : List.Forall₂ Reaches
      ((order.take picks).map fun i => passages[i]?.getD nothing)
      (Node.drawnLengths lengths order picks) := by
    rw [Node.drawnLengths, List.forall₂_map_left_iff, List.forall₂_map_right_iff, List.forall₂_same]
    exact fun i _ => forall₂_getD h reaches_nothing i
  obtain ⟨script, hscript⟩ := reaches_sequence hpicked
  refine ⟨order :: script, fun rest => ?_⟩
  rw [List.cons_append, round_apply, h.length_eq, Shuffle.deal_scripted horder]
  exact hscript rest

/-- Draws lead to no other number of stops. -/
def Only (passage : Passage (List (List Nat))) (n : Nat) : Prop := ∀ m, passage.Reaches m → m = n

/-- All rounds can be made alike. -/
theorem Only.of_times {count : Nat} (h : (passage.times count).Only n) (hc : 0 < count)
    (hm : passage.Reaches m) : passage.Only m ∧ m * count = n := by
  have hn := h _ (hm.times count)
  refine ⟨?_, hn⟩
  intro k hk
  exact Nat.eq_of_mul_eq_mul_right hc ((h _ (hk.times count)).trans hn.symm)

theorem Only.of_sequence (h : (sequence passages).Only n)
    (hreaches : List.Forall₂ Reaches passages lengths) :
    List.Forall₂ Only passages lengths ∧ total lengths = n := by
  have htotal := h _ (reaches_sequence hreaches)
  refine ⟨?_, htotal⟩
  subst htotal
  induction hreaches with
  | nil => exact .nil
  | @cons passage m passages lengths hm hrest ih =>
      refine .cons ?_ (ih ?_)
      · intro k hk
        have := h _ (hk.andThen (reaches_sequence hrest))
        rw [total_cons] at this
        omega
      · intro k hk
        have := h _ (hm.andThen hk)
        rw [total_cons] at this
        omega

theorem Only.of_round (h : (round .scripted passages picks).Only n) (hp : 0 < picks)
    (hreaches : List.Forall₂ Reaches passages lengths) :
    List.Forall₂ Only passages lengths ∧
      ∀ order : List Nat, order.Perm (.range lengths.length) →
        total (Node.drawnLengths lengths order picks) = n := by
  have hall : ∀ {lengths : List Nat}, List.Forall₂ Reaches passages lengths →
      ∀ {order : List Nat}, order.Perm (.range lengths.length) →
        total (Node.drawnLengths lengths order picks) = n :=
    fun hr _ horder => h _ (reaches_round hr horder picks)
  refine ⟨?_, fun order => hall hreaches⟩
  obtain ⟨picks, rfl⟩ : ∃ k, picks = k + 1 := ⟨picks - 1, by omega⟩
  rw [List.forall₂_iff_get] at hreaches ⊢
  obtain ⟨hlen, hget⟩ := hreaches
  refine ⟨hlen, fun i hi hi' m hm => ?_⟩
  -- child `i` comes first, and only its length changes
  have horder := (List.perm_cons_erase (List.mem_range.mpr hi')).symm
  have hset : List.Forall₂ Reaches passages (lengths.set i m) := by
    rw [List.forall₂_iff_get]
    refine ⟨by simpa using hlen, fun j hj hj' => ?_⟩
    simp only [List.get_eq_getElem, List.getElem_set] at hget ⊢
    split
    · rename_i heq
      subst heq
      exact hm
    · exact hget j hj (by simpa using hj')
  have hfirst := hall (List.forall₂_iff_get.mpr ⟨hlen, hget⟩) horder
  have hsecond := hall hset (by simpa using horder)
  have hothers : Node.drawnLengths (lengths.set i m) ((List.range lengths.length).erase i) picks =
      Node.drawnLengths lengths ((List.range lengths.length).erase i) picks := by
    unfold Node.drawnLengths
    refine List.map_congr_left fun j hj => ?_
    have hne : j ≠ i := ((List.nodup_range.mem_erase_iff).mp (List.mem_of_mem_take hj)).1
    rw [List.getElem?_set_ne hne.symm]
  rw [Node.total_drawnLengths_cons, List.getElem?_eq_getElem hi', Option.getD_some] at hfirst
  rw [Node.total_drawnLengths_cons, hothers, List.getElem?_set_self hi', Option.getD_some]
    at hsecond
  change m = lengths[i]
  omega

end Passage

/-! ### Nodes -/

namespace Node
variable {σ : Type} {shuffle : Shuffle σ} {keys : List Char}

theorem length?_group_eq_some_iff {children : List Node} {r : UInt32} {n : Nat} :
    (group children r).length? = some n ↔ ∃ lengths, lengths? children = some lengths ∧
      total lengths < UInt64.size ∧ total lengths * r.toNat = n ∧ n < UInt64.size := by
  rw [length?]
  simp only [Option.bind_eq_bind, Option.bind_eq_some_iff, fitting_eq_some_iff]
  constructor
  · rintro ⟨lengths, hlengths, once, ⟨rfl, hlt⟩, hn, hlt'⟩
    exact ⟨lengths, hlengths, hlt, hn, hlt'⟩
  · rintro ⟨lengths, hlengths, hlt, hn, hlt'⟩
    exact ⟨lengths, hlengths, _, ⟨rfl, hlt⟩, hn, hlt'⟩

theorem length?_random_eq_some_iff {children : List Node} {picks r : UInt32} {n : Nat} :
    (random children picks r).length? = some n ↔ ∃ lengths once,
      lengths? children = some lengths ∧ roundLength? lengths picks.toNat = some once ∧
      once * r.toNat = n ∧ n < UInt64.size := by
  rw [length?]
  simp only [Option.bind_eq_bind, Option.bind_eq_some_iff, fitting_eq_some_iff]
  constructor
  · rintro ⟨lengths, hlengths, once, honce, hn⟩
    exact ⟨lengths, once, hlengths, honce, hn⟩
  · rintro ⟨lengths, once, hlengths, honce, hn⟩
    exact ⟨lengths, hlengths, once, honce, hn⟩

theorem lengths?_cons_eq_some_iff {node : Node} {nodes : List Node} {lengths : List Nat} :
    lengths? (node :: nodes) = some lengths ↔ ∃ first rest, node.length? = some first ∧
      lengths? nodes = some rest ∧ lengths = first :: rest := by
  rw [lengths?]
  simp only [Option.bind_eq_bind, Option.bind_eq_some_iff, Option.pure_def, Option.some.injEq]
  constructor
  · rintro ⟨first, hfirst, rest, hrest, rfl⟩
    exact ⟨first, rest, hfirst, hrest, rfl⟩
  · rintro ⟨first, rest, hfirst, hrest, rfl⟩
    exact ⟨first, hfirst, rest, hrest, rfl⟩

mutual

/-- A node with a length has that length under every shuffle. -/
theorem hasLength_passage (hperm : shuffle.Permuting) : ∀ (node : Node) {n : Nat},
    node.wellFormed keys = true → node.length? = some n → (node.passage shuffle).HasLength n
  | .piece key r, n, _, h => by
      rw [length?, Option.some.injEq] at h
      subst h
      have hlength : ((Passage.single key : Passage σ).times r.toNat).HasLength (1 * r.toNat) :=
        (Passage.hasLength_single key).times r.toNat
      rw [passage]
      rwa [Nat.one_mul] at hlength
  | .group children r, n, hwf, h => by
      obtain ⟨lengths, hlengths, -, rfl, -⟩ := length?_group_eq_some_iff.mp h
      have hall := hasLength_passages hperm children (wellFormed_group_iff.mp hwf).2.1 hlengths
      rw [passage]
      exact (Passage.hasLength_sequence hall).times _
  | .random children picks r, n, hwf, h => by
      obtain ⟨lengths, once, hlengths, honce, rfl, -⟩ := length?_random_eq_some_iff.mp h
      obtain ⟨hp, hle, -, hchildren, -⟩ := wellFormed_random_iff.mp hwf
      have hall := hasLength_passages hperm children hchildren hlengths
      have hsize : children.length = lengths.length := by simpa using hall.length_eq
      have hround := (roundLength?_eq_some_iff (toNat_pos hp) (hsize ▸ hle)).mp honce
      rw [passage]
      exact (Passage.hasLength_round hperm hall hround.2).times _

theorem hasLength_passages (hperm : shuffle.Permuting) : ∀ (nodes : List Node)
    {lengths : List Nat}, allWellFormed keys nodes = true → lengths? nodes = some lengths →
    List.Forall₂ Passage.HasLength (passages shuffle nodes) lengths
  | [], lengths, _, h => by
      rw [lengths?, Option.some.injEq] at h
      subst h
      exact .nil
  | node :: nodes, lengths, hwf, h => by
      obtain ⟨first, rest, hfirst, hrest, rfl⟩ := lengths?_cons_eq_some_iff.mp h
      obtain ⟨hnode, hnodes⟩ := allWellFormed_cons_iff.mp hwf
      exact .cons (hasLength_passage hperm node hnode hfirst)
        (hasLength_passages hperm nodes hnodes hrest)

end

mutual

/-- Some draws lead through a node. -/
theorem exists_reaches_passage : ∀ node : Node, ∃ n, (node.passage .scripted).Reaches n
  | .piece key r => by
      rw [passage]
      exact ⟨_, (Passage.reaches_single key).times _⟩
  | .group children r => by
      obtain ⟨lengths, h⟩ := exists_reaches_passages children
      rw [passage]
      exact ⟨_, (Passage.reaches_sequence h).times _⟩
  | .random children picks r => by
      obtain ⟨lengths, h⟩ := exists_reaches_passages children
      rw [passage]
      exact ⟨_, (Passage.reaches_round h (.refl _) picks.toNat).times _⟩

theorem exists_reaches_passages : ∀ nodes : List Node, ∃ lengths,
    List.Forall₂ Passage.Reaches (passages .scripted nodes) lengths
  | [] => ⟨[], .nil⟩
  | node :: nodes => by
      obtain ⟨n, h⟩ := exists_reaches_passage node
      obtain ⟨lengths, hall⟩ := exists_reaches_passages nodes
      exact ⟨n :: lengths, .cons h hall⟩

end

mutual

/-- A node has a length if draws lead through it with that number of stops only, and the number has
64 bits. -/
theorem length?_of_only : ∀ (node : Node) {n : Nat}, node.wellFormed keys = true →
    n < UInt64.size → (node.passage .scripted).Only n → node.length? = some n
  | .piece key r, n, _, _, h => by
      rw [passage] at h
      have hn := h _ ((Passage.reaches_single key).times r.toNat)
      rw [length?, ← hn, Nat.one_mul]
  | .group children r, n, hwf, hn, h => by
      obtain ⟨-, hchildren, hr⟩ := wellFormed_group_iff.mp hwf
      obtain ⟨lengths, hreaches⟩ := exists_reaches_passages children
      rw [passage] at h
      obtain ⟨honly, hproduct⟩ := h.of_times (toNat_pos hr) (Passage.reaches_sequence hreaches)
      obtain ⟨hall, -⟩ := honly.of_sequence hreaches
      have honce : total lengths < UInt64.size :=
        (Nat.le_mul_of_pos_right _ (toNat_pos hr)).trans_lt (hproduct ▸ hn)
      refine length?_group_eq_some_iff.mpr ⟨lengths, ?_, honce, hproduct, hn⟩
      exact lengths?_of_only children hchildren
        (fun m hm => (le_total_of_mem hm).trans_lt honce) hall
  | .random children picks r, n, hwf, hn, h => by
      obtain ⟨hp, hle, -, hchildren, hr⟩ := wellFormed_random_iff.mp hwf
      obtain ⟨lengths, hreaches⟩ := exists_reaches_passages children
      have hsize : children.length = lengths.length := by simpa using hreaches.length_eq
      rw [passage] at h
      obtain ⟨honly, hproduct⟩ := h.of_times (toNat_pos hr)
        (Passage.reaches_round hreaches (.refl _) picks.toNat)
      generalize total (drawnLengths lengths (.range lengths.length) picks.toNat) = once
        at honly hproduct
      obtain ⟨hall, hround⟩ := honly.of_round (toNat_pos hp) hreaches
      have honce : once < UInt64.size :=
        (Nat.le_mul_of_pos_right _ (toNat_pos hr)).trans_lt (hproduct ▸ hn)
      refine length?_random_eq_some_iff.mpr ⟨lengths, once, ?_, ?_, hproduct, hn⟩
      · refine lengths?_of_only children hchildren (fun m hm => ?_) hall
        exact (le_of_total_drawnLengths (toNat_pos hp) hround hm).trans_lt honce
      · exact (roundLength?_eq_some_iff (toNat_pos hp) (hsize ▸ hle)).mpr ⟨honce, hround⟩

theorem lengths?_of_only : ∀ (nodes : List Node) {lengths : List Nat},
    allWellFormed keys nodes = true → (∀ n ∈ lengths, n < UInt64.size) →
    List.Forall₂ Passage.Only (passages .scripted nodes) lengths → lengths? nodes = some lengths
  | [], _, _, _, .nil => rfl
  | node :: nodes, _, hwf, hlt, .cons h hall => by
      obtain ⟨hnode, hnodes⟩ := allWellFormed_cons_iff.mp hwf
      refine lengths?_cons_eq_some_iff.mpr ⟨_, _, ?_, ?_, rfl⟩
      · exact length?_of_only node hnode (hlt _ List.mem_cons_self) h
      · exact lengths?_of_only nodes hnodes (fun n hn => hlt n (List.mem_cons_of_mem _ hn)) hall

end

end Node

/-! ### Patterns -/

/-- **The length of a pattern is exact.**  A well-formed pattern has a length if it ends and comes
to that many stops under every shuffle, and the number has 64 bits. -/
theorem Pattern.length?_eq_some_iff {keys : List Char} {p : Pattern} {n : Nat}
    (hwf : p.wellFormed keys = true) : p.length? = some n ↔ p.forever = false ∧ n < UInt64.size ∧
      ∀ (σ : Type) (shuffle : Shuffle σ) (source : σ), shuffle.Permuting →
        (p.passage shuffle 0 source).1.length = n := by
  have hall := (wellFormed_iff.mp hwf).2
  have hpassage : ∀ (σ : Type) (shuffle : Shuffle σ), p.passage shuffle 0 =
      Passage.sequence (Node.passages shuffle p.children) := by
    intro σ shuffle
    rw [passage, Passage.times_zero, Passage.andThen_nothing]
  simp only [hpassage]
  rw [length?]
  cases hf : p.forever with
  | true => simp
  | false =>
      simp only [Bool.false_eq_true, if_false, Option.bind_eq_bind, Option.bind_eq_some_iff,
        fitting_eq_some_iff, true_and]
      constructor
      · rintro ⟨lengths, hlengths, rfl, hn⟩
        refine ⟨hn, fun σ shuffle source hperm => ?_⟩
        exact Passage.hasLength_sequence (Node.hasLength_passages hperm _ hall hlengths) source
      · rintro ⟨hn, hlength⟩
        obtain ⟨lengths, hreaches⟩ := Node.exists_reaches_passages p.children
        have honly : (Passage.sequence (Node.passages .scripted p.children)).Only n := by
          rintro m ⟨script, hscript⟩
          exact (hscript []).1.symm.trans (hlength _ _ _ Shuffle.permuting_scripted)
        obtain ⟨honlys, rfl⟩ := honly.of_sequence hreaches
        refine ⟨lengths, ?_, rfl, hn⟩
        exact Node.lengths?_of_only _ hall (fun m hm => (le_total_of_mem hm).trans_lt hn) honlys

end PieceSequencer
