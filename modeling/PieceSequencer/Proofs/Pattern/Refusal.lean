import PieceSequencer.Proofs.Pattern.Derivation

/-! # Refusals

A token list is refused at the first token that cannot be right.  Two facts carry this.  A refusal
stands at the token that the reading was given (`StandsAt`), and a token that the reading refuses
is no step of it, so nothing behind helps.  And every reading that is reached can still be
completed (`Spelled.completes`): a count that is due is one, a row without nodes gets a piece,
and the open brackets are closed from the innermost outwards.  So the token lists that can still
become a pattern are those that can be read (`viable_iff`). -/

namespace PieceSequencer

variable {keys : List Char}

/-! ### Where a refusal stands -/

/-- The refusal stands at this position; if it tells the token there, it is this one. -/
def ParseError.StandsAt (position : Nat) (found : Option Token) : ParseError → Prop
  | .unexpected place _ token => place = position ∧ token = found
  | .zeroCount place _ => place = position
  | .pickTooLarge place _ _ => place = position

theorem ParseError.StandsAt.position_eq {e : ParseError} {position : Nat} {found : Option Token}
    (h : e.StandsAt position found) : e.position = position := by
  cases e with
  | unexpected place expected token => exact h.1
  | zeroCount place count => exact h
  | pickTooLarge place picks children => exact h

namespace Reading

theorem standsAt_endRow {position : Nat} {openings : List Opening} {row : Array Node}
    {token : Token} {e : ParseError} (h : endRow position openings row token = .error e) :
    e.StandsAt position (some token) := by
  unfold endRow at h
  split at h
  · cases h
    exact ⟨rfl, rfl⟩
  · split at h <;> cases h
    exact ⟨rfl, rfl⟩

theorem standsAt_continueRow {position : Nat} {openings : List Opening} {row : Array Node}
    {token : Token} {e : ParseError}
    (h : continueRow keys position openings row token = .error e) :
    e.StandsAt position (some token) := by
  cases token with
  | key k => cases h
  | number n => exact standsAt_endRow h
  | symbol s =>
      cases s with
      | every | openRound | openSquare => cases h
      | times | pick | forever | closeRound | closeSquare => exact standsAt_endRow h

theorem standsAt_readCount {position : Nat} {count : Count} {token : Token} {e : ParseError}
    (h : readCount position count token = .error e) : e.StandsAt position (some token) := by
  cases token with
  | number n =>
      simp only [readCount] at h
      split at h <;> cases h
      rfl
  | key k =>
      cases h
      exact ⟨rfl, rfl⟩
  | symbol s =>
      cases h
      exact ⟨rfl, rfl⟩

theorem standsAt_read {r : Reading} {position : Nat} {token : Token} {e : ParseError}
    (h : r.read keys position token = .error e) : e.StandsAt position (some token) := by
  obtain ⟨openings, row, stage⟩ := r
  cases stage with
  | fresh => exact standsAt_continueRow h
  | element nodes =>
      simp only [read] at h
      split at h
      · cases h
      · exact standsAt_continueRow h
  | repeating nodes =>
      cases hn : readCount position .repeats token with
      | error e' =>
          simp only [read, hn, bind, Except.bind, Except.error.injEq] at h
          exact h ▸ standsAt_readCount hn
      | ok n => simp [read, hn, bind, Except.bind, pure, Except.pure] at h
  | picking =>
      cases hn : readCount position .picks token with
      | error e' =>
          simp only [read, hn, bind, Except.bind, Except.error.injEq] at h
          exact h ▸ standsAt_readCount hn
      | ok n =>
          by_cases hsize : row.size < n.toNat
          · simp only [read, hn, hsize, bind, Except.bind, throw, throwThe, MonadExceptOf.throw,
              if_true, Except.error.injEq] at h
            exact h ▸ rfl
          · simp [read, hn, hsize, bind, Except.bind, pure, Except.pure] at h
  | picked n =>
      simp only [read] at h
      split at h <;> cases h
      exact ⟨rfl, rfl⟩
  | closed =>
      cases h
      exact ⟨rfl, rfl⟩

theorem standsAt_closeRow {position : Nat} {openings : List Opening} {row : Array Node}
    {e : ParseError} (h : closeRow position openings row = .error e) :
    e.StandsAt position none := by
  unfold closeRow at h
  split at h
  · cases h
    exact ⟨rfl, rfl⟩
  · split at h <;> cases h
    exact ⟨rfl, rfl⟩

theorem standsAt_finish {r : Reading} {position : Nat} {e : ParseError}
    (h : r.finish position = .error e) : e.StandsAt position none := by
  obtain ⟨openings, row, stage⟩ := r
  cases stage with
  | fresh => exact standsAt_closeRow h
  | element nodes => exact standsAt_closeRow h
  | closed => cases h
  | repeating nodes | picking | picked n =>
      cases h
      exact ⟨rfl, rfl⟩

/-- A reading is refused at a token that is no step of it, or at the end. -/
theorem complete_eq_error {r : Reading} {position : Nat} {tokens : List Token} {e : ParseError}
    (h : r.complete keys position tokens = .error e) : ∃ front back r',
      tokens = front ++ back ∧ ReadsAll keys r front r' ∧
        e.StandsAt (position + front.length) back.head? ∧
          ∀ token ∈ back.head?, ∀ r'', ¬ Reads keys r' token r'' := by
  induction tokens generalizing r position with
  | nil => exact ⟨[], [], r, rfl, .nil r, standsAt_finish h, by simp⟩
  | cons token tokens ih =>
      cases hr : r.read keys position token with
      | error e' =>
          simp only [complete, hr, Except.error.injEq] at h
          refine ⟨[], token :: tokens, r, rfl, .nil r, h ▸ standsAt_read hr, ?_⟩
          intro t ht r'' hreads
          obtain rfl : token = t := Option.some.inj ht
          rw [hreads.read_eq position] at hr
          cases hr
      | ok r' =>
          simp only [complete, hr] at h
          obtain ⟨front, back, last, rfl, hall, hstands, hno⟩ := ih h
          refine ⟨token :: front, back, last, rfl, .cons (read_eq_ok_iff.mp hr) hall, ?_, hno⟩
          rw [List.length_cons, show position + (front.length + 1) = position + 1 + front.length by
            omega]
          exact hstands

/-! ### Completing a reading -/

/-- Some tokens lead from the reading to the end of a pattern. -/
def Completes (keys : List Char) (r : Reading) : Prop :=
  ∃ more r' p, ReadsAll keys r more r' ∧ Ends r' p

theorem Reads.completes {r r' : Reading} {token : Token} (h : Reads keys r token r')
    (h' : r'.Completes keys) : r.Completes keys := by
  obtain ⟨more, last, p, hall, he⟩ := h'
  exact ⟨token :: more, last, p, .cons h hall, he⟩

/-- Behind a row with a node the open brackets can be closed one after the other. -/
theorem Ready.completes_of_row {r : Reading} {openings : List Opening} {row : Array Node}
    (h : Ready r openings row) (hrow : row.isEmpty = false) : r.Completes keys := by
  induction openings generalizing r row with
  | nil => exact ⟨[], r, _, .nil r, .ending h hrow⟩
  | cons opening outer ih =>
      obtain ⟨bracket, before⟩ := opening
      cases bracket with
      | round => exact (Reads.closeRound h hrow).completes (ih (.element _ _ _) (by simp))
      | square => exact (Reads.closeSquare h hrow).completes (ih (.element _ _ _) (by simp))

/-- Elsewhere a piece makes a row with a node first. -/
theorem Ready.completes {r : Reading} {openings : List Opening} {row : Array Node}
    (h : Ready r openings row) : r.Completes keys :=
  (Reads.key 'T' h).completes ((Ready.element _ _ _).completes_of_row (by simp))

/-- Behind a pick count the random group can be closed. -/
theorem completes_picked (before row : Array Node) (outer : List Opening) (n : UInt32) :
    Completes keys ⟨⟨.square, before⟩ :: outer, row, .picked n⟩ :=
  Reads.closePicked.completes (Ready.element _ _ _).completes

/-- Every reading that is reached can be completed. -/
theorem Spelled.completes {r : Reading} {tokens : List Token} (h : Spelled keys r tokens) :
    r.Completes keys := by
  obtain ⟨openings, row, stage⟩ := r
  obtain ⟨front, mid, back, rfl, -, -, ht⟩ := h
  cases stage with
  | fresh => exact (Ready.fresh openings row).completes
  | element nodes => exact (Ready.element openings row nodes).completes
  | repeating nodes =>
      have hone : Reads keys ⟨openings, row, .repeating nodes⟩ (.number 1) _ :=
        .repeats (by decide)
      exact hone.completes (Ready.fresh _ _).completes
  | picking =>
      obtain ⟨-, hrow, before, outer, rfl⟩ := ht
      have hsize : 1 ≤ row.size := Array.size_pos_iff.mpr (by simpa using hrow)
      have hone : Reads keys ⟨⟨.square, before⟩ :: outer, row, .picking⟩ (.number 1) _ :=
        .picks (by decide) hsize
      exact hone.completes (completes_picked before row outer 1)
  | picked n =>
      obtain ⟨-, -, -, before, outer, rfl⟩ := ht
      exact completes_picked before row outer n
  | closed => exact ⟨[], _, _, .nil _, .forever openings row⟩

end Reading

/-! ### Token lists that can become a pattern -/

namespace Pattern

/-- Some tokens behind these make a pattern of them. -/
def Viable (keys : List Char) (tokens : List Token) : Prop :=
  ∃ more p, ofTokens keys (tokens ++ more) = .ok p

theorem Viable.of_append {front back : List Token} (h : Viable keys (front ++ back)) :
    Viable keys front := by
  obtain ⟨more, p, h⟩ := h
  exact ⟨back ++ more, p, by rwa [← List.append_assoc]⟩

/-- The tokens can become a pattern just if they can be read. -/
theorem viable_iff {tokens : List Token} :
    Viable keys tokens ↔ ∃ r, Reading.ReadsAll keys .start tokens r := by
  constructor
  · rintro ⟨more, p, h⟩
    obtain ⟨last, hall, -⟩ := ofTokens_eq_ok_iff.mp h
    obtain ⟨r, hfront, -⟩ := hall.of_append
    exact ⟨r, hfront⟩
  · rintro ⟨r, hall⟩
    have hspelled : Reading.Spelled keys r tokens := Reading.Spelled.start.run hall
    obtain ⟨more, last, p, hmore, he⟩ := hspelled.completes
    exact ⟨more, p, ofTokens_eq_ok_iff.mpr ⟨last, hall.append hmore, he⟩⟩

/-- Behind a token that is no step of the reading nothing helps. -/
theorem not_viable_of_not_reads {front : List Token} {token : Token} {r : Reading}
    (hall : Reading.ReadsAll keys .start front r)
    (hno : ∀ r', ¬ Reading.Reads keys r token r') : ¬ Viable keys (front ++ [token]) := by
  intro hv
  obtain ⟨last, hlonger⟩ := viable_iff.mp hv
  obtain ⟨r', hfront, hlast⟩ := hlonger.of_append
  obtain rfl : r' = r := hfront.unique hall
  cases hlast with
  | cons hr _ => exact hno _ hr

/-- **A refusal points at the first token that cannot be right.**  Whatever the fault is, the tokens
before its position can still become a pattern, and with the token there they cannot.  It points
behind the last token just if the whole list can still become a pattern.  A refusal that tells the
token it has found tells the one at its position. -/
theorem refused_at_first_unviable (keys : List Char) (tokens : List Token) (e : ParseError)
    (h : ofTokens keys tokens = .error e) :
    e.position ≤ tokens.length ∧ Viable keys (tokens.take e.position) ∧
      (e.position < tokens.length → ¬ Viable keys (tokens.take (e.position + 1))) ∧
      (e.position = tokens.length ↔ Viable keys tokens) ∧
      ∀ position expected found, e = .unexpected position expected found →
        found = tokens[e.position]? := by
  obtain ⟨front, back, r, rfl, hall, hstands, hno⟩ := Reading.complete_eq_error h
  rw [Nat.zero_add] at hstands
  rw [hstands.position_eq, List.take_left]
  have hviable : Viable keys front := viable_iff.mpr ⟨r, hall⟩
  have hfound : ∀ position expected found, e = .unexpected position expected found →
      found = (front ++ back)[front.length]? := by
    rintro position expected found rfl
    rw [List.getElem?_append_right (Nat.le_refl _), Nat.sub_self, ← List.head?_eq_getElem?]
    exact hstands.2
  cases back with
  | nil =>
      rw [List.append_nil] at hfound ⊢
      exact ⟨Nat.le_refl _, hviable, fun hlt => absurd hlt (Nat.lt_irrefl _),
        iff_of_true rfl hviable, hfound⟩
  | cons token back =>
      have hunviable : ¬ Viable keys (front ++ [token]) :=
        not_viable_of_not_reads hall (hno token rfl)
      have hsplit : front ++ token :: back = front ++ [token] ++ back := by simp
      have hlength : front.length < (front ++ token :: back).length := by simp
      have htake : (front ++ token :: back).take (front.length + 1) = front ++ [token] := by
        rw [hsplit, List.take_left' (by simp)]
      have hwhole : ¬ Viable keys (front ++ token :: back) := fun hv =>
        hunviable (Viable.of_append (hsplit ▸ hv))
      exact ⟨Nat.le_of_lt hlength, hviable, fun _ => htake ▸ hunviable,
        iff_of_false (Nat.ne_of_lt hlength) hwhole, hfound⟩

/-- `[T:2` over one key: the pick count is refused, and no token behind it would help. -/
theorem refused_at_pick_count :
    let tokens : List Token := [.symbol .openSquare, .key 'T', .symbol .pick, .number 2]
    let e : ParseError := .pickTooLarge 3 2 1
    ofTokens ['T'] tokens = .error e ∧ e.position ≤ tokens.length ∧
      Viable ['T'] (tokens.take e.position) ∧
      (e.position < tokens.length → ¬ Viable ['T'] (tokens.take (e.position + 1))) ∧
      (e.position = tokens.length ↔ Viable ['T'] tokens) ∧
      ∀ position expected found, e = .unexpected position expected found →
        found = tokens[e.position]? :=
  ⟨rfl, refused_at_first_unviable _ _ _ rfl⟩

end Pattern

end PieceSequencer
