import PieceSequencer.Proofs.Pattern.Transition

/-! # What follows a reading

What tokens can follow a reading, and to which pattern they lead (`Reading.LeadsTo`).  Behind tokens
that have been read this is a question about the rest alone (`ReadsAll.leadsTo_iff`).  Of a reading
behind complete elements it is a question about these elements: only a repeat count could tell
whether the last of them has been counted already (`Ready.leadsTo_iff`). -/

namespace PieceSequencer

/-- The tokens begin with a repeat count. -/
def Token.BeginWithCount (tokens : List Token) : Prop :=
  ∃ n rest, tokens = .symbol .times :: .number n :: rest

namespace Reading
variable {keys : List Char} {r r' : Reading} {openings : List Opening} {row : Array Node}
  {tokens : List Token} {p : Pattern}

/-! ### Leading to a pattern -/

/-- The tokens lead from the reading to the end of the pattern. -/
def LeadsTo (keys : List Char) (r : Reading) (tokens : List Token) (p : Pattern) : Prop :=
  ∃ r', ReadsAll keys r tokens r' ∧ Ends r' p

theorem leadsTo_nil_iff : LeadsTo keys r [] p ↔ Ends r p := by
  constructor
  · rintro ⟨_, hall, he⟩
    cases hall
    exact he
  · exact fun he => ⟨r, .nil r, he⟩

theorem leadsTo_cons_iff {token : Token} : LeadsTo keys r (token :: tokens) p ↔
    ∃ r', Reads keys r token r' ∧ LeadsTo keys r' tokens p := by
  constructor
  · rintro ⟨last, hall, he⟩
    cases hall with
    | cons hr hall => exact ⟨_, hr, last, hall, he⟩
  · rintro ⟨_, hr, last, hall, he⟩
    exact ⟨last, .cons hr hall, he⟩

/-- Behind tokens that have been read only the rest matters. -/
theorem ReadsAll.leadsTo_iff {front back : List Token} (h : ReadsAll keys r front r') :
    LeadsTo keys r (front ++ back) p ↔ LeadsTo keys r' back p := by
  constructor
  · rintro ⟨last, hall, he⟩
    obtain ⟨middle, hfront, hback⟩ := hall.of_append
    obtain rfl := hfront.unique h
    exact ⟨last, hback, he⟩
  · rintro ⟨last, hback, he⟩
    exact ⟨last, h.append hback, he⟩

theorem Ready.unique {outer : List Opening} {row' : Array Node} (h : Ready r openings row)
    (h' : Ready r outer row') : openings = outer ∧ row = row' := by
  cases h <;> cases h' <;> exact ⟨rfl, rfl⟩

/-- Behind `*` there is a repeat count, and it is not zero. -/
theorem leadsTo_repeating_iff {nodes : List Node} :
    LeadsTo keys ⟨openings, row, .repeating nodes⟩ tokens p ↔ ∃ n rest,
      tokens = .number n :: rest ∧ n ≠ 0 ∧
        LeadsTo keys ⟨openings, row ++ nodes.map (Node.withRepeats n), .fresh⟩ rest p := by
  have hready : ∀ {outer row'}, ¬ Ready ⟨openings, row, .repeating nodes⟩ outer row' := nofun
  constructor
  · intro h
    cases tokens with
    | nil =>
        cases leadsTo_nil_iff.mp h with
        | ending hr _ => exact absurd hr hready
    | cons token tokens =>
        obtain ⟨_, hr, hrest⟩ := leadsTo_cons_iff.mp h
        cases hr with
        | repeats hn => exact ⟨_, tokens, rfl, hn, hrest⟩
        | key _ hr | every hr | openRound hr | openSquare hr => exact absurd hr hready
        | closeRound hr _ | closeSquare hr _ | pick hr _ | forever hr _ => exact absurd hr hready
  · rintro ⟨n, rest, rfl, hn, hrest⟩
    exact leadsTo_cons_iff.mpr ⟨_, .repeats hn, hrest⟩

theorem Ready.leadsTo (h : Ready r openings row) (h' : Ready r' openings row)
    (hcount : ¬ Token.BeginWithCount tokens) (hleads : LeadsTo keys r tokens p) :
    LeadsTo keys r' tokens p := by
  cases tokens with
  | nil =>
      rw [leadsTo_nil_iff] at hleads ⊢
      cases hleads with
      | ending hready hrow =>
          obtain ⟨rfl, rfl⟩ := h.unique hready
          exact .ending h' hrow
      | forever => cases h
  | cons token tokens =>
      obtain ⟨next, hr, hrest⟩ := leadsTo_cons_iff.mp hleads
      by_cases ht : token = .symbol .times
      · -- behind `*` only a number leads on
        subst ht
        cases hr with
        | times =>
            obtain ⟨n, rest, rfl, -⟩ := leadsTo_repeating_iff.mp hrest
            exact absurd ⟨n, rest, rfl⟩ hcount
      · have hread : r.read keys 0 token = _ := h.read_eq 0 ht
        rw [hr.read_eq 0, ← h'.read_eq 0 ht] at hread
        exact leadsTo_cons_iff.mpr ⟨next, read_eq_ok_iff.mp hread.symm, hrest⟩

/-- Readings behind the same complete elements are led to the same patterns, unless by a repeat
count. -/
theorem Ready.leadsTo_iff (h : Ready r openings row) (h' : Ready r' openings row)
    (hcount : ¬ Token.BeginWithCount tokens) :
    LeadsTo keys r tokens p ↔ LeadsTo keys r' tokens p :=
  ⟨h.leadsTo h' hcount, h'.leadsTo h hcount⟩

/-! ### Refusals -/

/-- What is refused behind tokens that have been read is refused as many places later. -/
theorem ReadsAll.complete_append {front : List Token} (h : ReadsAll keys r front r')
    (position : Nat) (back : List Token) : r.complete keys position (front ++ back) =
      r'.complete keys (position + front.length) back := by
  induction h generalizing position with
  | nil => rfl
  | cons hr _ ih =>
      rw [List.cons_append, complete, hr.read_eq position]
      simp only
      rw [ih, List.length_cons, Nat.add_assoc, Nat.add_comm 1]

/-- A pick count has to be within the nodes that there are. -/
theorem complete_picking_of_lt {n : UInt32} (h : row.size < n.toNat) (position : Nat) :
    complete keys position ⟨openings, row, .picking⟩ (.number n :: tokens) =
      .error (.pickTooLarge position n row.size) := by
  have hn : n ≠ 0 := by
    rintro rfl
    exact absurd h (Nat.not_lt_zero _)
  simp [complete, read, readCount, hn, h, bind, Except.bind, throw, throwThe, MonadExceptOf.throw]

end Reading

end PieceSequencer
