import PieceSequencer.Proofs.Bag.Window
import PieceSequencer.Proofs.Shuffle.Exchange
import PieceSequencer.Proofs.Shuffle.Period

/-! # Random groups of two under the seeded shuffle

The factor and the summand of the generator are odd, so from one word to the next the low bit
changes (`Congruential.even_iterate_iff`).  A draw for two places looks at that bit alone: two draws
in a row never give the same order.  The pattern `[e₁ e₂]~` therefore takes its two orders in turn,
whatever the seed (`exists_alternating`), and the first round gives all others away
(`seeded_alternates`): no two seeds share the first one and not the second. -/

namespace PieceSequencer

/-! ### The low bit -/

namespace Congruential

theorem odd_multiplier : Odd multiplier.toNat := by
  have hfour := multiplier_mod_four
  rw [Nat.odd_iff]
  omega

/-- One word changes the low bit. -/
theorem even_advance_iff (g : Congruential) :
    Even g.advance.state.toNat ↔ ¬ Even g.state.toNat := by
  have hfactor := Nat.not_even_iff_odd.mpr odd_multiplier
  have hsummand := Nat.not_even_iff_odd.mpr odd_increment
  have hword : ∀ n : Nat, Even (n % 2 ^ 32) ↔ Even n := by
    intro n
    rw [Nat.even_iff, Nat.even_iff, Nat.mod_mod_of_dvd n (dvd_pow_self 2 (by decide))]
  rw [toNat_advance, hword, Nat.even_add, Nat.even_mul]
  simp only [hfactor, hsummand, or_false, iff_false]

/-- After any number of words the low bit is that of a count that went up by one with each. -/
theorem even_iterate_iff (g : Congruential) (k : Nat) :
    Even (advance^[k] g).state.toNat ↔ Even (g.state.toNat + k) := by
  induction k with
  | zero => rfl
  | succ k ih =>
      rw [Function.iterate_succ_apply', even_advance_iff, ih, ← Nat.add_assoc, Nat.even_add_one]

/-- A draw for two places takes one word and depends on its low bit. -/
theorem deal_two (g : Congruential) :
    shuffle.deal 2 g = (if Even g.state.toNat then #[0, 1] else #[1, 0], g.advance) := by
  have hplace : (g.advance.state % 2).toNat = if Even g.state.toNat then 1 else 0 := by
    rw [UInt32.toNat_mod]
    by_cases h : Even g.state.toNat
    · rw [if_pos h]
      exact Nat.not_even_iff.mp fun hnext => g.even_advance_iff.mp hnext h
    · rw [if_neg h]
      exact Nat.even_iff.mp (g.even_advance_iff.mpr h)
  unfold Shuffle.deal shuffle rearrange
  simp only [exchange_succ (show 0 + 2 < 2 ^ 32 by decide), exchange]
  -- the second place is exchanged with itself or with the first
  show (((Vector.range 2).swapIfInBounds 1 (g.advance.state % 2).toNat).toArray, g.advance) = _
  rw [hplace]
  split
  · rfl
  · rfl

end Congruential

/-! ### Fixed keys -/

namespace Passage
variable {σ : Type}

/-- Stops at keys one after the other and makes no draw. -/
def along (keys : List Char) : Passage σ := sequence (keys.map single)

theorem along_append (s t : List Char) :
    (along (s ++ t) : Passage σ) = (along s).andThen (along t) := by
  unfold along
  rw [List.map_append, sequence_append]

theorem times_along (s : List Char) (count : Nat) :
    (along s : Passage σ).times count = along (List.replicate count s).flatten := by
  induction count with
  | zero => rfl
  | succ count ih => rw [times_succ, ih, ← along_append, List.replicate_succ, List.flatten_cons]

theorem map_key_along (s : List Char) (source : σ) : (along s source).1.map Stop.key = s :=
  map_key_sequence_single s source

@[simp] theorem along_snd (s : List Char) (source : σ) : (along s source).2 = source := by
  induction s with
  | nil => rfl
  | cons key s ih => exact ih

/-- If each passage moves the shuffle by `f`, passages in a row move it by as many of them. -/
theorem times_snd {passage : Passage σ} {f : σ → σ} (h : ∀ source, (passage source).2 = f source)
    (count : Nat) (source : σ) : (passage.times count source).2 = f^[count] source := by
  induction count generalizing source with
  | zero => rfl
  | succ count ih =>
      rw [times_succ, Function.iterate_succ_apply, ← ih]
      simp only [andThen, h]

theorem hasLength_along (s : List Char) : (along s : Passage σ).HasLength s.length := by
  intro source
  rw [← List.length_map Stop.key, map_key_along]

end Passage

namespace Node

mutual

/-- The keys that a node hands out, if there is no random group in it. -/
def fixed? : Node → Option (List Char)
  | .piece key r => some (List.replicate r.toNat key)
  | .group children r => (fixedAll? children).map fun s => (List.replicate r.toNat s).flatten
  | .random .. => none

/-- The keys that nodes in a row hand out, if there is no random group in them. -/
def fixedAll? : List Node → Option (List Char)
  | [] => some []
  | node :: nodes => (fixed? node).bind fun s => (fixedAll? nodes).map (s ++ ·)

end

variable {σ : Type} {shuffle : Shuffle σ}

mutual

/-- Without a random group a node is a passage along its keys. -/
theorem passage_of_fixed? : ∀ (node : Node) {s : List Char}, node.fixed? = some s →
    node.passage shuffle = Passage.along s
  | .piece key r, s, h => by
      obtain rfl : List.replicate r.toNat key = s := Option.some.inj h
      have hsingle : (Passage.single key : Passage σ) = Passage.along [key] := rfl
      rw [passage, hsingle, Passage.times_along, List.flatten_replicate_singleton]
  | .group children r, s, h => by
      obtain ⟨t, ht, rfl⟩ := Option.map_eq_some_iff.mp h
      rw [passage, sequence_of_fixedAll? children ht, Passage.times_along]
  | .random .., _, h => by cases h

theorem sequence_of_fixedAll? : ∀ (nodes : List Node) {s : List Char}, fixedAll? nodes = some s →
    Passage.sequence (passages shuffle nodes) = Passage.along s
  | [], s, h => by
      obtain rfl : [] = s := Option.some.inj h
      rfl
  | node :: nodes, s, h => by
      obtain ⟨t, ht, hrest⟩ := Option.bind_eq_some_iff.mp h
      obtain ⟨u, hu, rfl⟩ := Option.map_eq_some_iff.mp hrest
      rw [passages, Passage.sequence_cons, passage_of_fixed? node ht,
        sequence_of_fixedAll? nodes hu, Passage.along_append]

end

mutual

theorem countable_of_fixed? : ∀ (node : Node) {s : List Char}, node.fixed? = some s →
    node.countable = true
  | .piece .., _, _ => rfl
  | .group children _, _, h => by
      obtain ⟨t, ht, -⟩ := Option.map_eq_some_iff.mp h
      exact allCountable_of_fixedAll? children ht
  | .random .., _, h => by cases h

theorem allCountable_of_fixedAll? : ∀ (nodes : List Node) {s : List Char},
    fixedAll? nodes = some s → allCountable nodes = true
  | [], _, _ => rfl
  | node :: nodes, _, h => by
      obtain ⟨t, ht, hrest⟩ := Option.bind_eq_some_iff.mp h
      obtain ⟨u, hu, -⟩ := Option.map_eq_some_iff.mp hrest
      rw [allCountable, countable_of_fixed? node ht, allCountable_of_fixedAll? nodes hu,
        Bool.and_self]

end

end Node

/-! ### Rounds of two -/

/-- Two lists of keys in turn: one after the other when `n` is even, the other way round when it is
odd. -/
def inTurn (s₁ s₂ : List Char) (n : Nat) : List Char := if Even n then s₁ ++ s₂ else s₂ ++ s₁

theorem length_inTurn (s₁ s₂ : List Char) (n : Nat) :
    (inTurn s₁ s₂ n).length = s₁.length + s₂.length := by
  unfold inTurn
  split
  · rw [List.length_append]
  · rw [List.length_append, Nat.add_comm]

theorem inTurn_succ (s₁ s₂ : List Char) (n : Nat) : inTurn s₁ s₂ (n + 1) = inTurn s₂ s₁ n := by
  unfold inTurn
  by_cases h : Even n <;> simp [Nat.even_add_one, h]

/-- Where the turns are the same once, they are the same from there on. -/
theorem inTurn_succ_eq {s₁ s₂ : List Char} {m n : Nat} (h : inTurn s₁ s₂ m = inTurn s₁ s₂ n) :
    inTurn s₁ s₂ (m + 1) = inTurn s₁ s₂ (n + 1) := by
  rw [inTurn_succ, inTurn_succ]
  unfold inTurn at h ⊢
  split_ifs at h ⊢
  · rfl
  · exact h.symm
  · exact h.symm
  · rfl

/-- The pattern `[e₁ e₂]~`. -/
def Pattern.pair (e₁ e₂ : Node) : Pattern := ⟨[Node.shuffled [e₁, e₂]], true⟩

section
variable {e₁ e₂ : Node} {s₁ s₂ : List Char}

theorem Pattern.countable_pair (h₁ : e₁.fixed? = some s₁) (h₂ : e₂.fixed? = some s₂) :
    (Pattern.pair e₁ e₂).countable = true := by
  have hfirst := Node.countable_of_fixed? e₁ h₁
  have hsecond := Node.countable_of_fixed? e₂ h₂
  simp [pair, Node.shuffled, countable, Node.allCountable, Node.countable, hfirst, hsecond,
    UInt32.size]

/-- A round takes one word, and the low bit of the generator before it tells which turn it is. -/
theorem Node.passage_shuffled_two (h₁ : e₁.fixed? = some s₁) (h₂ : e₂.fixed? = some s₂)
    (g : Congruential) : (Node.shuffled [e₁, e₂]).passage Congruential.shuffle g =
      Passage.along (inTurn s₁ s₂ g.state.toNat) g.advance := by
  have hpicks : (UInt32.ofNat [e₁, e₂].length).toNat = 2 := rfl
  rw [shuffled, passage, hpicks, UInt32.toNat_one, Passage.times_one, passages, passages, passages,
    passage_of_fixed? e₁ h₁, passage_of_fixed? e₂ h₂, Passage.round_apply]
  simp only [List.length_cons, List.length_nil, Nat.zero_add, Nat.reduceAdd]
  rw [Congruential.deal_two]
  unfold inTurn
  split <;> simp [Passage.along_append]

theorem Node.hasLength_shuffled_two (h₁ : e₁.fixed? = some s₁) (h₂ : e₂.fixed? = some s₂) :
    ((Node.shuffled [e₁, e₂]).passage Congruential.shuffle).HasLength
      (s₁.length + s₂.length) := by
  intro g
  rw [passage_shuffled_two h₁ h₂, Passage.hasLength_along, length_inTurn]

/-- Behind a number of rounds the generator is as many words on. -/
theorem Node.times_shuffled_two_snd (h₁ : e₁.fixed? = some s₁) (h₂ : e₂.fixed? = some s₂)
    (w : Nat) (g : Congruential) :
    (((Node.shuffled [e₁, e₂]).passage Congruential.shuffle).times w g).2 =
      Congruential.advance^[w] g := by
  apply Passage.times_snd
  intro g
  rw [passage_shuffled_two h₁ h₂, Passage.along_snd]

end

/-! ### Streams of two -/

/-- The keys of round number `w` in a stream with rounds of `m` pieces. -/
def roundKeys (s : Nat → Piece) (m w : Nat) : List Char := (window s (w * m) m).map Piece.key

namespace Bag

/-- A seed starts this stream of pieces. -/
def Starts (catalogue : Catalogue) (text : String) (seed : UInt32) (s : Nat → Piece) : Prop :=
  ∃ bag : Bag Congruential, seeded catalogue text seed = .ok bag ∧
    ∀ n, (bag.afterPicks n).pick.2 = .ok (s n)

/-- The first round of `m` pieces does not give the second away: two seeds agree on the first but
not on the second. -/
def Unpredictable (catalogue : Catalogue) (text : String) (m : Nat) : Prop :=
  ∃ (seed seed' : UInt32) (s s' : Nat → Piece),
    Starts catalogue text seed s ∧ Starts catalogue text seed' s' ∧
      roundKeys s m 0 = roundKeys s' m 0 ∧ roundKeys s m 1 ≠ roundKeys s' m 1

theorem Starts.unique {catalogue : Catalogue} {text : String} {seed : UInt32} {s s' : Nat → Piece}
    (h : Starts catalogue text seed s) (h' : Starts catalogue text seed s') : s = s' := by
  obtain ⟨bag, hbag, hs⟩ := h
  obtain ⟨bag', hbag', hs'⟩ := h'
  obtain rfl : bag = bag' := Except.ok.inj (hbag.symm.trans hbag')
  funext n
  exact Except.ok.inj ((hs n).symm.trans (hs' n))

section
variable {catalogue : Catalogue} {text : String} {e₁ e₂ : Node} {s₁ s₂ : List Char}

/-- Every seed takes the two orders in turn. -/
theorem exists_alternating (hvalid : catalogue.validate = .ok ())
    (hread : Pattern.ofText catalogue.keys text = .ok (.pair e₁ e₂))
    (h₁ : e₁.fixed? = some s₁) (h₂ : e₂.fixed? = some s₂) (seed : UInt32) :
    ∃ s, Starts catalogue text seed s ∧ ∀ w, roundKeys s (s₁.length + s₂.length) w =
      inTurn s₁ s₂ ((Congruential.ofSeed seed).state.toNat + w) := by
  have hcount := Pattern.countable_pair h₁ h₂
  have hin := Congruential.permuting_shuffle.inside
  have hwf := Pattern.wellFormed_of_ofText hread hcount
  obtain ⟨bag, course, hbuild, rfl, hshuffle, hfollows⟩ :=
    build_course hvalid hread hcount hin (.ofSeed seed)
  have hend : course.count = ⊤ := hfollows.count_eq
  refine ⟨course.pieces, ⟨bag, hbuild, ?_⟩, ?_⟩
  · intro n
    exact course.pick_afterPicks_of_lt hfollows.buffer_eq (hend ▸ ENat.natCast_lt_top n)
  · -- the round begins as many words behind the seed as there were rounds before it
    intro w
    have hstops := hfollows.find?_eq
    rw [hshuffle] at hstops
    unfold roundKeys
    rw [← length_inTurn s₁ s₂ ((Congruential.ofSeed seed).state.toNat + w)]
    apply map_key_window hstops
    intro i hi
    rw [length_inTurn] at hi ⊢
    rw [Pattern.pair, Pattern.stop?_endless hwf hin (Node.hasLength_shuffled_two h₁ h₂) _ w hi,
      Node.times_shuffled_two_snd h₁ h₂, Node.passage_shuffled_two h₁ h₂, ← List.getElem?_map,
      Passage.map_key_along]
    unfold inTurn
    simp only [Congruential.even_iterate_iff]

/-- The first round gives the second away. -/
theorem not_unpredictable_pair (hvalid : catalogue.validate = .ok ())
    (hread : Pattern.ofText catalogue.keys text = .ok (.pair e₁ e₂))
    (h₁ : e₁.fixed? = some s₁) (h₂ : e₂.fixed? = some s₂) :
    ¬ Unpredictable catalogue text (s₁.length + s₂.length) := by
  rintro ⟨seed, seed', s, s', hs, hs', hfirst, hsecond⟩
  obtain ⟨t, ht, hrounds⟩ := exists_alternating hvalid hread h₁ h₂ seed
  obtain ⟨t', ht', hrounds'⟩ := exists_alternating hvalid hread h₁ h₂ seed'
  obtain rfl := hs.unique ht
  obtain rfl := hs'.unique ht'
  apply hsecond
  rw [hrounds, hrounds'] at hfirst ⊢
  exact inTurn_succ_eq hfirst

/-- **Two in turn.**  If no random group is in `e₁` or `e₂`, every seed makes the stream of
`[e₁ e₂]~` take its two orders in turn, beginning with the one that the low bit of the seed tells;
so the first round of a seed gives the second away. -/
theorem seeded_alternates (hvalid : catalogue.validate = .ok ())
    (hread : Pattern.ofText catalogue.keys text = .ok (.pair e₁ e₂))
    (h₁ : e₁.fixed? = some s₁) (h₂ : e₂.fixed? = some s₂) :
    (∀ seed, ∃ s, Starts catalogue text seed s ∧ ∀ w, roundKeys s (s₁.length + s₂.length) w =
      inTurn s₁ s₂ ((Congruential.ofSeed seed).state.toNat + w)) ∧
    ¬ Unpredictable catalogue text (s₁.length + s₂.length) :=
  ⟨exists_alternating hvalid hread h₁ h₂, not_unpredictable_pair hvalid hread h₁ h₂⟩

/-- One piece and a group that is repeated, from two seeds. -/
theorem standard_alternates :
    (∃ s, Starts .standard "[T(IO)*2]~" 42 s ∧
      roundKeys s 5 0 = ['T', 'I', 'O', 'I', 'O'] ∧ roundKeys s 5 1 = ['I', 'O', 'I', 'O', 'T']) ∧
    (∃ s, Starts .standard "[T(IO)*2]~" 0 s ∧
      roundKeys s 5 0 = ['I', 'O', 'I', 'O', 'T'] ∧ roundKeys s 5 1 = ['T', 'I', 'O', 'I', 'O']) ∧
    ¬ Unpredictable .standard "[T(IO)*2]~" 5 := by
  have hvalid : Catalogue.standard.validate = .ok () := by decide +kernel
  have hread : Pattern.ofText Catalogue.standard.keys "[T(IO)*2]~" =
      .ok (.pair (.single 'T') (.group [.single 'I', .single 'O'] 2)) := by decide +kernel
  obtain ⟨hseeds, hpredictable⟩ := seeded_alternates hvalid hread
    (show _ = some ['T'] from rfl) (show _ = some ['I', 'O', 'I', 'O'] by decide)
  obtain ⟨s, hs, hrounds⟩ := hseeds 42
  obtain ⟨s', hs', hrounds'⟩ := hseeds 0
  exact ⟨⟨s, hs, (hrounds 0).trans (by decide), (hrounds 1).trans (by decide)⟩,
    ⟨s', hs', (hrounds' 0).trans (by decide), (hrounds' 1).trans (by decide)⟩, hpredictable⟩

/-- Two pieces whose orders differ, and still the first round gives the second away. -/
theorem standard_pair_predictable : Catalogue.standard.validate = .ok () ∧
    Pattern.ofText Catalogue.standard.keys "[TI]~" = .ok (.pair (.single 'T') (.single 'I')) ∧
    (Node.single 'T').fixed? = some ['T'] ∧ (Node.single 'I').fixed? = some ['I'] ∧
    ['T'] ++ ['I'] ≠ ['I'] ++ ['T'] ∧ ¬ Unpredictable .standard "[TI]~" 2 := by
  have hvalid : Catalogue.standard.validate = .ok () := by decide +kernel
  have hread : Pattern.ofText Catalogue.standard.keys "[TI]~" =
      .ok (.pair (.single 'T') (.single 'I')) := by decide +kernel
  exact ⟨hvalid, hread, rfl, rfl, by decide, not_unpredictable_pair hvalid hread rfl rfl⟩

end

end Bag

end PieceSequencer
