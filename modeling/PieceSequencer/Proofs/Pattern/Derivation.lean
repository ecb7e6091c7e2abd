import PieceSequencer.Pattern.Grammar
import PieceSequencer.Pattern.WellFormed
import PieceSequencer.Proofs.Pattern.Transition

/-! # Readings and derivations

Reading a token list and deriving it in the grammar come to the same.  `Writes.carries` follows a
derivation: wherever complete elements stand, the tokens of a part are read as its nodes and the
tokens of a row are added to the row.  Backwards, `Spelled` says what the tokens read so far
are: behind each open bracket a row, and at the end whatever the stage tells.  Every step keeps
it (`Spelled.step`), hence every run does (`Spelled.run`), and a reading that ends leaves a
derivation (`Spelled.ends`).

The reading counts the nodes of a random group with 32 bits, so what it has read is in the grammar
if they are few enough (`Spells`). -/

namespace PieceSequencer

variable {keys : List Char}

/-! ### Reading what is derived -/

/-- What reading the tokens of a phrase does behind any complete elements. -/
def Carries (keys : List Char) : Phrase → List Token → List Node → Prop
  | .part, tokens, nodes => ∀ {r openings row}, Reading.Ready r openings row →
    Reading.ReadsAll keys r tokens ⟨openings, row, .element nodes⟩
  | _, tokens, nodes => ∀ {r openings row}, Reading.Ready r openings row →
    ∃ r', Reading.ReadsAll keys r tokens r' ∧ Reading.Ready r' openings (row ++ nodes)

/-- A bracketed row is read up to its end, with its nodes behind the opening bracket. -/
theorem Carries.bracketed {tokens : List Token} {nodes : List Node} {r : Reading}
    {openings : List Opening} {row : Array Node} {bracket : Bracket} {symbol : Symbol}
    (h : Carries keys .row tokens nodes)
    (ho : Reading.Reads keys r (.symbol symbol) ⟨⟨bracket, row⟩ :: openings, #[], .fresh⟩) :
    ∃ r', Reading.ReadsAll keys r (.symbol symbol :: tokens) r' ∧
      Reading.Ready r' (⟨bracket, row⟩ :: openings) nodes.toArray := by
  obtain ⟨r', hall, hready⟩ := h (.fresh (⟨bracket, row⟩ :: openings) #[])
  exact ⟨r', .cons ho hall, by simpa using hready⟩

theorem Writes.carries {phrase : Phrase} {tokens : List Token} {nodes : List Node}
    (h : Writes keys phrase tokens nodes) : Carries keys phrase tokens nodes := by
  induction h with
  | piece key => exact fun hr => .single (.key key hr)
  | every => exact fun hr => .single (.every hr)
  | @group tokens nodes _ hne ih =>
      intro r openings row hr
      obtain ⟨r', hall, hready⟩ := ih.bracketed (.openRound hr)
      have hclose : Reading.Reads keys _ _ _ := .closeRound hready (by simp [hne])
      exact hall.append (.single hclose)
  | @shuffled tokens nodes picks _ hne hpicks ih =>
      intro r openings row hr
      obtain ⟨r', hall, hready⟩ := ih.bracketed (.openSquare hr)
      have hclose : Reading.Reads keys _ _ _ := .closeSquare hready (by simp [hne])
      have hnode : Node.shuffled nodes = .random nodes picks 1 := by
        rw [Node.shuffled, ← hpicks, UInt32.ofNat_toNat]
      rw [List.toList_toArray, hnode] at hclose
      exact hall.append (.single hclose)
  | @random tokens nodes picks _ hpos hle ih =>
      intro r openings row hr
      obtain ⟨r', hall, hready⟩ := ih.bracketed (.openSquare hr)
      have hne : nodes ≠ [] := by
        rintro rfl
        exact absurd hle (Nat.not_le_of_gt (toNat_pos hpos))
      have hpick : Reading.Reads keys _ _ _ := .pick hready (by simp [hne])
      have hcount : Reading.Reads keys ⟨⟨.square, row⟩ :: openings, nodes.toArray, .picking⟩
        (.number _) _ := .picks hpos (by simpa using hle)
      exact hall.append (.cons hpick (.cons hcount (.single .closePicked)))
  | once _ ih => exact fun hr => ⟨_, ih hr, .element _ _ _⟩
  | @repeated tokens nodes count _ hpos ih =>
      intro r openings row hr
      exact ⟨_, (ih hr).append (.cons .times (.single (.repeats hpos))), .fresh _ _⟩
  | nil => exact fun hr => ⟨_, .nil _, by simpa using hr⟩
  | @cons front back first rest _ _ ih ih' =>
      intro r openings row hr
      obtain ⟨r', hall, hready⟩ := ih hr
      obtain ⟨r'', hall', hready'⟩ := ih' hready
      have hrow : row ++ (first ++ rest) = row ++ first ++ rest := by simp [← Array.toList_inj]
      exact ⟨r'', hall.append hall', hrow ▸ hready'⟩

/-- What is derived is read. -/
theorem WritesPattern.ofTokens_eq {tokens : List Token} {p : Pattern}
    (h : WritesPattern keys tokens p) : Pattern.ofTokens keys tokens = .ok p := by
  rw [Pattern.ofTokens_eq_ok_iff]
  cases h with
  | @ending tokens nodes h hne =>
      obtain ⟨r, hall, hready⟩ := h.carries (.fresh [] #[])
      have hready' : Reading.Ready r [] nodes.toArray := by simpa using hready
      exact ⟨r, hall, .ending hready' (by simp [hne])⟩
  | @forever tokens nodes h hne =>
      obtain ⟨r, hall, hready⟩ := h.carries (.fresh [] #[])
      have hready' : Reading.Ready r [] nodes.toArray := by simpa using hready
      have hforever : Reading.Reads keys _ _ _ := .forever hready' (by simp [hne])
      exact ⟨_, hall.append (.single hforever), .forever [] nodes.toArray⟩

/-! ### Deriving what is read -/

/-- The tokens are such a phrase, if the children of the random groups can be counted. -/
def Spells (keys : List Char) (phrase : Phrase) (tokens : List Token) (nodes : List Node) : Prop :=
  (∀ node ∈ nodes, node.countable = true) → Writes keys phrase tokens nodes

theorem Spells.append {front back : List Token} {first rest : List Node}
    (h : Spells keys .row front first) (h' : Spells keys .row back rest) :
    Spells keys .row (front ++ back) (first ++ rest) := fun hc =>
  (h fun node hn => hc node (List.mem_append_left _ hn)).append rfl
    (h' fun node hn => hc node (List.mem_append_right _ hn))

theorem Spells.row {tokens : List Token} {nodes : List Node}
    (h : Spells keys .element tokens nodes) : Spells keys .row tokens nodes := fun hc => by
  simpa using Writes.cons (h hc) .nil

theorem Spells.once {tokens : List Token} {nodes : List Node}
    (h : Spells keys .part tokens nodes) : Spells keys .element tokens nodes :=
  fun hc => .once (h hc)

theorem Spells.repeated {tokens : List Token} {nodes : List Node} {count : UInt32}
    (h : Spells keys .part tokens nodes) (hpos : count ≠ 0) :
    Spells keys .element (tokens ++ [.symbol .times, .number count])
      (nodes.map (Node.withRepeats count)) := by
  intro hc
  refine .repeated (h fun node hn => ?_) hpos
  rw [← Node.countable_withRepeats count]
  exact hc _ (List.mem_map_of_mem hn)

theorem Spells.group {tokens : List Token} {nodes : List Node}
    (h : Spells keys .row tokens nodes) (hne : nodes ≠ []) :
    Spells keys .part (.symbol .openRound :: tokens ++ [.symbol .closeRound]) [.group nodes 1] := by
  intro hc
  have hnodes : Node.allCountable nodes = true := hc _ (List.mem_singleton_self _)
  exact .group (h (Node.allCountable_iff.mp hnodes)) hne

theorem Spells.shuffled {tokens : List Token} {nodes : List Node}
    (h : Spells keys .row tokens nodes) (hne : nodes ≠ []) :
    Spells keys .part (.symbol .openSquare :: tokens ++ [.symbol .closeSquare])
      [.shuffled nodes] := by
  intro hc
  have hnode : Node.countable (.shuffled nodes) = true := hc _ (List.mem_singleton_self _)
  simp only [Node.shuffled, Node.countable, Bool.and_eq_true, decide_eq_true_eq] at hnode
  refine .shuffled (h (Node.allCountable_iff.mp hnode.2)) hne ?_
  rw [UInt32.toNat_ofNat_of_lt' hnode.1]

theorem Spells.random {tokens : List Token} {nodes : List Node} {picks : UInt32}
    (h : Spells keys .row tokens nodes) (hpos : picks ≠ 0) (hle : picks.toNat ≤ nodes.length) :
    Spells keys .part
      (.symbol .openSquare :: tokens ++ [.symbol .pick, .number picks, .symbol .closeSquare])
      [.random nodes picks 1] := by
  intro hc
  have hnode : Node.countable (.random nodes picks 1) = true := hc _ (List.mem_singleton_self _)
  simp only [Node.countable, Bool.and_eq_true] at hnode
  exact .random (h (Node.allCountable_iff.mp hnode.2)) hpos hle

/-- The symbol that opens a bracket. -/
def Bracket.opening : Bracket → Symbol
  | .round => .openRound
  | .square => .openSquare

/-- The tokens up to the innermost open bracket: a row before each bracket. -/
def Encloses (keys : List Char) : List Opening → List Token → Prop
  | [], tokens => tokens = []
  | opening :: outer, tokens => ∃ front row,
    tokens = front ++ row ++ [.symbol opening.bracket.opening] ∧
      Encloses keys outer front ∧ Spells keys .row row opening.before.toList

/-- The tokens behind the complete elements of a reading. -/
def Reading.Trails (keys : List Char) (r : Reading) (tokens : List Token) : Prop :=
  match r.stage with
  | .fresh => tokens = []
  | .element nodes => Spells keys .part tokens nodes
  | .repeating nodes => ∃ part, tokens = part ++ [.symbol .times] ∧ Spells keys .part part nodes
  | .picking => tokens = [.symbol .pick] ∧ r.row.isEmpty = false ∧
    ∃ before outer, r.openings = ⟨.square, before⟩ :: outer
  | .picked n => tokens = [.symbol .pick, .number n] ∧ n ≠ 0 ∧ n.toNat ≤ r.row.size ∧
    ∃ before outer, r.openings = ⟨.square, before⟩ :: outer
  | .closed => tokens = [.symbol .forever] ∧ r.row.isEmpty = false ∧ r.openings = []

/-- What a reading says about the tokens it has read. -/
def Reading.Spelled (keys : List Char) (r : Reading) (tokens : List Token) : Prop :=
  ∃ front row back, tokens = front ++ row ++ back ∧ Encloses keys r.openings front ∧
    Spells keys .row row r.row.toList ∧ r.Trails keys back

namespace Reading

theorem Spelled.start : Spelled keys .start [] := ⟨[], [], [], rfl, rfl, fun _ => .nil, rfl⟩

/-- Complete elements make up a row. -/
theorem Spelled.ready {r : Reading} {openings : List Opening} {row : Array Node}
    {tokens : List Token} (h : Spelled keys r tokens) (hr : Ready r openings row) :
    ∃ front mid, tokens = front ++ mid ∧ Encloses keys openings front ∧
      Spells keys .row mid row.toList := by
  obtain ⟨front, mid, back, rfl, ho, hm, ht⟩ := h
  cases hr with
  | fresh =>
      obtain rfl : back = [] := ht
      exact ⟨front, mid, by simp, ho, hm⟩
  | element openings row nodes =>
      have hback : Spells keys .row back nodes := (Spells.once ht).row
      exact ⟨front, mid ++ back, by simp, ho, by simpa using hm.append hback⟩

/-- Closing a bracket makes one part of everything behind it. -/
theorem Spelled.close {bracket : Bracket} {before : Array Node} {outer : List Opening}
    {front rest : List Token} {nodes : List Node}
    (ho : Encloses keys (⟨bracket, before⟩ :: outer) front)
    (hp : Spells keys .part (.symbol bracket.opening :: rest) nodes) :
    Spelled keys ⟨outer, before, .element nodes⟩ (front ++ rest) := by
  obtain ⟨front, row, rfl, ho, hrow⟩ := ho
  exact ⟨front, row, _, by simp, ho, hrow, hp⟩

/-- Every step keeps what a reading says about its tokens. -/
theorem Spelled.step {r r' : Reading} {tokens : List Token} {token : Token}
    (h : Spelled keys r tokens) (hs : Reads keys r token r') :
    Spelled keys r' (tokens ++ [token]) := by
  cases hs with
  | key k hr =>
      obtain ⟨front, mid, rfl, ho, hm⟩ := h.ready hr
      exact ⟨front, mid, [.key k], rfl, ho, hm, fun _ => .piece k⟩
  | every hr =>
      obtain ⟨front, mid, rfl, ho, hm⟩ := h.ready hr
      exact ⟨front, mid, [.symbol .every], rfl, ho, hm, fun _ => .every⟩
  | openRound hr =>
      obtain ⟨front, mid, rfl, ho, hm⟩ := h.ready hr
      exact ⟨_, [], [], by simp [Bracket.opening], ⟨front, mid, rfl, ho, hm⟩, fun _ => .nil, rfl⟩
  | openSquare hr =>
      obtain ⟨front, mid, rfl, ho, hm⟩ := h.ready hr
      exact ⟨_, [], [], by simp [Bracket.opening], ⟨front, mid, rfl, ho, hm⟩, fun _ => .nil, rfl⟩
  | closeRound hr hne =>
      obtain ⟨front, mid, rfl, ho, hm⟩ := h.ready hr
      rw [List.append_assoc]
      exact Spelled.close ho (hm.group (by simpa using hne))
  | closeSquare hr hne =>
      obtain ⟨front, mid, rfl, ho, hm⟩ := h.ready hr
      rw [List.append_assoc]
      exact Spelled.close ho (hm.shuffled (by simpa using hne))
  | pick hr hne =>
      obtain ⟨front, mid, rfl, ho, hm⟩ := h.ready hr
      exact ⟨front, mid, [.symbol .pick], rfl, ho, hm, rfl, hne, _, _, rfl⟩
  | forever hr hne =>
      obtain ⟨front, mid, rfl, ho, hm⟩ := h.ready hr
      exact ⟨front, mid, [.symbol .forever], rfl, ho, hm, rfl, hne, rfl⟩
  | times =>
      obtain ⟨front, mid, back, rfl, ho, hm, ht⟩ := h
      exact ⟨front, mid, back ++ [.symbol .times], by simp, ho, hm, back, rfl, ht⟩
  | @repeats openings row nodes n hpos =>
      obtain ⟨front, mid, back, rfl, ho, hm, part, rfl, hp⟩ := h
      have hrow := hm.append (hp.repeated hpos).row
      refine ⟨front, mid ++ (part ++ [.symbol .times, .number n]), [], ?_, ho, ?_, rfl⟩
      · simp
      · simpa using hrow
  | picks hpos hle =>
      obtain ⟨front, mid, back, rfl, ho, hm, rfl, -, hsquare⟩ := h
      exact ⟨front, mid, _, by simp, ho, hm, rfl, hpos, hle, hsquare⟩
  | @closePicked bracket before outer row n =>
      obtain ⟨front, mid, back, rfl, ho, hm, rfl, hpos, hle, _, _, hsquare⟩ := h
      cases hsquare
      have hpart := hm.random hpos (by simpa using hle)
      simpa using Spelled.close ho hpart

theorem Spelled.run {r r' : Reading} {front tokens : List Token} (h : Spelled keys r front)
    (hall : ReadsAll keys r tokens r') : Spelled keys r' (front ++ tokens) := by
  induction hall generalizing front with
  | nil => simpa using h
  | cons hs _ ih => simpa using ih (h.step hs)

theorem Spelled.ends {r : Reading} {tokens : List Token} {p : Pattern}
    (h : Spelled keys r tokens) (he : Ends r p) (hc : p.countable = true) :
    WritesPattern keys tokens p := by
  cases he with
  | ending hr hne =>
      obtain ⟨front, mid, rfl, ho, hm⟩ := h.ready hr
      obtain rfl : front = [] := ho
      exact .ending (hm (Node.allCountable_iff.mp hc)) (by simpa using hne)
  | forever openings row =>
      obtain ⟨front, mid, back, rfl, ho, hm, rfl, hne, hopen⟩ := h
      obtain rfl : openings = [] := hopen
      obtain rfl : front = [] := ho
      exact .forever (hm (Node.allCountable_iff.mp hc)) (by simpa using hne)

end Reading

/-- What is read is derived, if the children of its random groups can be counted. -/
theorem Pattern.writesPattern_of_ofTokens {tokens : List Token} {p : Pattern}
    (h : ofTokens keys tokens = .ok p) (hc : p.countable = true) : WritesPattern keys tokens p := by
  obtain ⟨r, hall, he⟩ := ofTokens_eq_ok_iff.mp h
  exact (Reading.Spelled.start.run hall).ends he hc

/-- **Reading is deriving.**  A token list is read as a pattern iff it derives the pattern in the
grammar, and it derives at most one. -/
theorem Pattern.ofTokens_eq_ok_iff_writesPattern (keys : List Char) (tokens : List Token) :
    (∀ p : Pattern, p.countable = true →
      (ofTokens keys tokens = .ok p ↔ WritesPattern keys tokens p)) ∧
    ∀ p q : Pattern, WritesPattern keys tokens p → WritesPattern keys tokens q → p = q := by
  refine ⟨fun p hc => ⟨fun h => writesPattern_of_ofTokens h hc, fun h => h.ofTokens_eq⟩, ?_⟩
  intro p q hp hq
  have h := hp.ofTokens_eq.symm.trans hq.ofTokens_eq
  exact Except.ok.inj h

/-- `[T@:2]*3@~` over two keys: `@` adds two nodes to the group and two to the top level. -/
theorem Pattern.writesPattern_nested : WritesPattern ['T', 'I']
    [.symbol .openSquare, .key 'T', .symbol .every, .symbol .pick, .number 2, .symbol .closeSquare,
      .symbol .times, .number 3, .symbol .every, .symbol .forever]
    ⟨[.random [.piece 'T' 1, .piece 'T' 1, .piece 'I' 1] 2 3, .piece 'T' 1, .piece 'I' 1], true⟩ :=
  ((ofTokens_eq_ok_iff_writesPattern _ _).1 _ (by decide)).mp rfl

end PieceSequencer
