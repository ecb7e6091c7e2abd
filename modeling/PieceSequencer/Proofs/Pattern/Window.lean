import PieceSequencer.Catalogue.Standard
import PieceSequencer.Proofs.Pattern.CanonicalText
import PieceSequencer.Proofs.Pattern.Length

/-! # Windows of shuffled keys

The pattern `[@:m]~` draws `m` of the given keys in every round, and a round is all that its last
child is.  So its stops fall into windows of `m`, each of them one round
(`Pattern.exists_window`), and a round of keys stops at the first `m` of a rearrangement of them
(`Passage.exists_drawn`). -/

namespace PieceSequencer

/-! ### Passages -/

namespace Passage
variable {σ : Type} {shuffle : Shuffle σ}

/-- Passages of one length in a row: each window of that length is one of them. -/
theorem getElem?_times {passage : Passage σ} {m : Nat} (h : passage.HasLength m) {w count : Nat}
    (hw : w < count) (source : σ) {i : Nat} (hi : i < m) :
    (passage.times count source).1[w * m + i]? =
      (passage (passage.times w source).2).1[i]? := by
  obtain ⟨rest, rfl⟩ := Nat.exists_eq_add_of_lt hw
  have hbefore : (passage.times w source).1.length = w * m := by
    rw [h.times w, Nat.mul_comm]
  rw [Nat.add_assoc, times_add, times_succ]
  simp only [andThen]
  rw [List.getElem?_append_right (by omega), hbefore, Nat.add_sub_cancel_left,
    List.getElem?_append_left (by rw [h]; exact hi)]

theorem map_key_sequence_single (keys : List Char) (source : σ) :
    (sequence (keys.map single) source).1.map Stop.key = keys := by
  induction keys with
  | nil => rfl
  | cons key keys ih =>
      rw [List.map_cons, sequence_cons]
      simp only [andThen, single, List.map_append, List.map_cons, List.map_nil, ih]
      rfl

/-- The entries at all places of a list. -/
theorem map_getD_range {α : Type} (xs : List α) (x : α) :
    (List.range xs.length).map (fun i => xs[i]?.getD x) = xs := by
  refine List.ext_getElem (by simp) fun i hi hi' => ?_
  rw [List.getElem_map, List.getElem_range, List.getElem?_eq_getElem hi', Option.getD_some]

/-- A round of keys stops at the first few of a rearrangement of them. -/
theorem exists_drawn (hperm : shuffle.Permuting) (keys : List Char) (picks : Nat) (source : σ) :
    ∃ drawn : List Char, drawn.Perm keys ∧
      (round shuffle (keys.map single) picks source).1.map Stop.key = drawn.take picks := by
  have horder := hperm.perm_deal (keys.map (single : Char → Passage σ)).length source
  rw [round_apply]
  generalize shuffle.deal (keys.map (single : Char → Passage σ)).length source = dealt at horder ⊢
  rw [List.length_map] at horder
  have hsingle : ∀ i ∈ dealt.1.toList.take picks,
      ((keys.map single)[i]?.getD nothing : Passage σ) = single (keys[i]?.getD default) := by
    intro i hi
    have hlt : i < keys.length :=
      List.mem_range.mp (horder.mem_iff.mp (List.mem_of_mem_take hi))
    rw [List.getElem?_map, List.getElem?_eq_getElem hlt]
    rfl
  refine ⟨dealt.1.toList.map fun i => keys[i]?.getD default, ?_, ?_⟩
  · have hdrawn := horder.map fun i => keys[i]?.getD default
    rwa [map_getD_range] at hdrawn
  · rw [List.map_congr_left hsingle, ← List.map_take]
    have hkeys := map_key_sequence_single
      ((dealt.1.toList.take picks).map fun i => keys[i]?.getD default) dealt.2
    rwa [List.map_map] at hkeys

end Passage

/-! ### Patterns of one round -/

/-- The pattern `[@:m]~` over the given keys. -/
def Pattern.windows (keys : List Char) (m : Nat) : Pattern :=
  ⟨[.random (keys.map Node.single) (UInt32.ofNat m) 1], true⟩

/-- The text `[@:m]~`. -/
def windowText (m : Nat) : String := "[@:" ++ Numeral.text m ++ "]~"

namespace Pattern
variable {keys : List Char} {m : Nat}

/-- A number of keys that can be counted with 32 bits. -/
theorem toNat_ofNat_of_le (hle : m ≤ keys.length) (hsize : keys.length < UInt32.size) :
    (UInt32.ofNat m).toNat = m :=
  UInt32.toNat_ofNat_of_lt' (Nat.lt_of_le_of_lt hle hsize)

theorem countable_windows (hsize : keys.length < UInt32.size) :
    (windows keys m).countable = true := by
  have hkeys : Node.allCountable (keys.map Node.single) = true := by
    rw [Node.allCountable_iff]
    intro node hnode
    obtain ⟨key, -, rfl⟩ := List.mem_map.mp hnode
    rfl
  simp [windows, countable, Node.allCountable, Node.countable, hkeys, hsize]

theorem writes_every : Writes keys .row [.symbol .every] (keys.map Node.single) := by
  simpa using Writes.cons (.once .every) .nil

theorem writesPattern_windows (hpos : 0 < m) (hle : m ≤ keys.length)
    (hsize : keys.length < UInt32.size) :
    WritesPattern keys [.symbol .openSquare, .symbol .every, .symbol .pick,
      .number (UInt32.ofNat m), .symbol .closeSquare, .symbol .forever] (windows keys m) := by
  have hnat := toNat_ofNat_of_le hle hsize
  have hpicks : UInt32.ofNat m ≠ 0 := by
    intro hzero
    rw [hzero] at hnat
    exact hpos.ne hnat
  have hgroup : Writes keys .part _ [.random (keys.map Node.single) (UInt32.ofNat m) 1] :=
    .random writes_every hpicks (by rwa [hnat, List.length_map])
  exact .forever (.cons (.once hgroup) .nil) (List.cons_ne_nil _ _)

theorem writesPattern_all (hne : keys ≠ []) (hsize : keys.length < UInt32.size) :
    WritesPattern keys [.symbol .openSquare, .symbol .every, .symbol .closeSquare,
      .symbol .forever] (windows keys keys.length) := by
  have hgroup : Writes keys .part _
      [.random (keys.map Node.single) (UInt32.ofNat keys.length) 1] :=
    .shuffled writes_every (by simpa using hne)
      (by rw [List.length_map, toNat_ofNat_of_le le_rfl hsize])
  exact .forever (.cons (.once hgroup) .nil) (List.cons_ne_nil _ _)

/-- The text `[@:m]~` is read as that pattern. -/
theorem ofText_windowText (hpos : 0 < m) (hle : m ≤ keys.length)
    (hsize : keys.length < UInt32.size) : ofText keys (windowText m) = .ok (windows keys m) := by
  have htext : windowText m = String.ofList (List.flatMap Token.chars [.symbol .openSquare,
      .symbol .every, .symbol .pick, .number (UInt32.ofNat m), .symbol .closeSquare,
      .symbol .forever]) := by
    apply String.toList_injective
    simp [windowText, Numeral.text, Token.chars, Symbol.char, toNat_ofNat_of_le hle hsize]
  rw [htext]
  exact (writesPattern_windows hpos hle hsize).ofText_eq (by simp [Token.Known])

/-- The text `[@]~` is read as the pattern that draws all keys in every round. -/
theorem ofText_standardPattern (hne : keys ≠ []) (hsize : keys.length < UInt32.size) :
    ofText keys standardPattern = .ok (windows keys keys.length) :=
  (writesPattern_all hne hsize).ofText_eq (by simp [Token.Known])

/-! ### Windows of stops -/

section
variable {σ : Type} {shuffle : Shuffle σ}

theorem passages_single (shuffle : Shuffle σ) (keys : List Char) :
    Node.passages shuffle (keys.map Node.single) = keys.map Passage.single := by
  rw [Node.passages_eq_map, List.map_map]
  refine List.map_congr_left fun key _ => ?_
  rw [Function.comp_apply, Node.single, Node.passage, UInt32.toNat_one, Passage.times_one]

/-- The passage through an endless pattern of one node is that node over and over. -/
theorem passage_endless (node : Node) (again : Nat) :
    (⟨[node], true⟩ : Pattern).passage shuffle again =
      (node.passage shuffle).times (again + 1) := by
  rw [passage, Node.passages, Node.passages, Passage.times_succ, Passage.sequence_cons,
    Passage.sequence_nil, Passage.andThen_nothing]
  rfl

/-- If the node always has as many stops, they come in windows. -/
theorem stop?_endless {node : Node} (hwf : Pattern.wellFormed keys ⟨[node], true⟩ = true)
    (hin : shuffle.Inside) (hlength : (node.passage shuffle).HasLength m) (source : σ) (w : Nat)
    {i : Nat} (hi : i < m) : (⟨[node], true⟩ : Pattern).stop? shuffle source (w * m + i) =
      (node.passage shuffle ((node.passage shuffle).times w source).2).1[i]? := by
  have hwindow := Passage.getElem?_times hlength (Nat.lt_succ_self w) source hi
  rw [← hlength ((node.passage shuffle).times w source).2] at hi
  rw [← passage_endless, List.getElem?_eq_getElem hi] at hwindow
  rw [stop?_of_passage hwf hin (.inl rfl) hwindow, List.getElem?_eq_getElem hi]

/-- The node of the pattern `[@:m]~` is one round of the keys. -/
theorem passage_window (shuffle : Shuffle σ) (hle : m ≤ keys.length)
    (hsize : keys.length < UInt32.size) :
    Node.passage shuffle (.random (keys.map Node.single) (UInt32.ofNat m) 1) =
      Passage.round shuffle (keys.map Passage.single) m := by
  rw [Node.passage, passages_single, toNat_ofNat_of_le hle hsize, UInt32.toNat_one,
    Passage.times_one]

/-- Each window of `m` stops is a round: the first `m` of a rearrangement of the keys. -/
theorem exists_window (hperm : shuffle.Permuting) (hpos : 0 < m) (hle : m ≤ keys.length)
    (hsize : keys.length < UInt32.size) (source : σ) (w : Nat) :
    ∃ drawn : List Char, drawn.Perm keys ∧ ∀ i < m,
      ((windows keys m).stop? shuffle source (w * m + i)).map Stop.key = drawn[i]? := by
  have hlength : (Passage.round shuffle (keys.map Passage.single) m).HasLength m := by
    intro source
    obtain ⟨drawn, hdrawn, hkeys⟩ := Passage.exists_drawn hperm keys m source
    rw [← List.length_map Stop.key, hkeys, List.length_take, hdrawn.length_eq,
      Nat.min_eq_left hle]
  have hread := ofText_windowText hpos hle hsize
  have hwf := wellFormed_of_ofText hread (countable_windows hsize)
  rw [← passage_window shuffle hle hsize] at hlength
  obtain ⟨drawn, hdrawn, hkeys⟩ := Passage.exists_drawn hperm keys m
    ((Passage.round shuffle (keys.map Passage.single) m).times w source).2
  refine ⟨drawn, hdrawn, fun i hi => ?_⟩
  rw [windows, stop?_endless hwf hperm.inside hlength source w hi,
    passage_window shuffle hle hsize, ← List.getElem?_map, hkeys, List.getElem?_take_of_lt hi]

end

end Pattern

end PieceSequencer
