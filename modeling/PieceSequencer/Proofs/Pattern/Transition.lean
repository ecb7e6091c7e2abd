import PieceSequencer.Pattern.Parser

/-! # The steps of a reading

`Reading.read` is a function with refusals; what it accepts is the relation `Reads`, one
constructor for each kind of step.  The position of a token occurs only in refusals, so the
relation does without it.  `read_eq_ok_iff` ties the two together, and `complete_eq_ok_iff` says
the same of whole token lists: a list is a pattern iff it leads from the empty reading to one
that may end (`Ends`). -/

namespace PieceSequencer
namespace Reading

variable {keys : List Char}

/-- The reading stands behind the complete elements `row`, inside the brackets `openings`. -/
inductive Ready : Reading → List Opening → Array Node → Prop where
  | fresh (openings : List Opening) (row : Array Node) : Ready ⟨openings, row, .fresh⟩ openings row
  | element (openings : List Opening) (row : Array Node) (nodes : List Node) :
    Ready ⟨openings, row, .element nodes⟩ openings (row ++ nodes)

/-- One token leads from a reading to another. -/
inductive Reads (keys : List Char) : Reading → Token → Reading → Prop where
  | key {r : Reading} {openings : List Opening} {row : Array Node} (k : Char) :
    Ready r openings row → Reads keys r (.key k) ⟨openings, row, .element [.single k]⟩
  | every {r : Reading} {openings : List Opening} {row : Array Node} :
    Ready r openings row →
    Reads keys r (.symbol .every) ⟨openings, row, .element (keys.map Node.single)⟩
  | openRound {r : Reading} {openings : List Opening} {row : Array Node} :
    Ready r openings row →
    Reads keys r (.symbol .openRound) ⟨⟨.round, row⟩ :: openings, #[], .fresh⟩
  | openSquare {r : Reading} {openings : List Opening} {row : Array Node} :
    Ready r openings row →
    Reads keys r (.symbol .openSquare) ⟨⟨.square, row⟩ :: openings, #[], .fresh⟩
  | closeRound {r : Reading} {outer : List Opening} {before row : Array Node} :
    Ready r (⟨.round, before⟩ :: outer) row → row.isEmpty = false →
    Reads keys r (.symbol .closeRound) ⟨outer, before, .element [.group row.toList 1]⟩
  | closeSquare {r : Reading} {outer : List Opening} {before row : Array Node} :
    Ready r (⟨.square, before⟩ :: outer) row → row.isEmpty = false →
    Reads keys r (.symbol .closeSquare) ⟨outer, before, .element [.shuffled row.toList]⟩
  | pick {r : Reading} {outer : List Opening} {before row : Array Node} :
    Ready r (⟨.square, before⟩ :: outer) row → row.isEmpty = false →
    Reads keys r (.symbol .pick) ⟨⟨.square, before⟩ :: outer, row, .picking⟩
  | forever {r : Reading} {row : Array Node} :
    Ready r [] row → row.isEmpty = false →
    Reads keys r (.symbol .forever) ⟨[], row, .closed⟩
  | times {openings : List Opening} {row : Array Node} {nodes : List Node} :
    Reads keys ⟨openings, row, .element nodes⟩ (.symbol .times) ⟨openings, row, .repeating nodes⟩
  | repeats {openings : List Opening} {row : Array Node} {nodes : List Node} {n : UInt32} :
    n ≠ 0 →
    Reads keys ⟨openings, row, .repeating nodes⟩ (.number n)
      ⟨openings, row ++ nodes.map (Node.withRepeats n), .fresh⟩
  | picks {openings : List Opening} {row : Array Node} {n : UInt32} :
    n ≠ 0 → n.toNat ≤ row.size →
    Reads keys ⟨openings, row, .picking⟩ (.number n) ⟨openings, row, .picked n⟩
  | closePicked {bracket : Bracket} {before : Array Node} {outer : List Opening}
      {row : Array Node} {n : UInt32} :
    Reads keys ⟨⟨bracket, before⟩ :: outer, row, .picked n⟩ (.symbol .closeSquare)
      ⟨outer, before, .element [.random row.toList n 1]⟩

/-! ### Single tokens -/

/-- Behind complete elements it makes no difference whether a repeat count could still follow, save
for the repeat count itself. -/
theorem Ready.read_eq {r : Reading} {openings : List Opening} {row : Array Node}
    (h : Ready r openings row) (position : Nat) {token : Token} (ht : token ≠ .symbol .times) :
    r.read keys position token = continueRow keys position openings row token := by
  cases h with
  | fresh => rfl
  | element => simp only [read, if_neg ht]

theorem Ready.reads_of_endRow {r r' : Reading} {openings : List Opening} {row : Array Node}
    (h : Ready r openings row) {position : Nat} {token : Token}
    (hc : endRow position openings row token = .ok r') : Reads keys r token r' := by
  unfold endRow at hc
  split at hc
  · cases hc
  · rename_i hrow
    have hrow' : row.isEmpty = false := by simpa using hrow
    split at hc
    · cases hc
      exact .forever h hrow'
    · cases hc
      exact .closeRound h hrow'
    · cases hc
      exact .closeSquare h hrow'
    · cases hc
      exact .pick h hrow'
    · cases hc

theorem Ready.reads_of_continueRow {r r' : Reading} {openings : List Opening} {row : Array Node}
    (h : Ready r openings row) {position : Nat} {token : Token}
    (hc : continueRow keys position openings row token = .ok r') : Reads keys r token r' := by
  unfold continueRow at hc
  split at hc
  · cases hc
    exact .key _ h
  · cases hc
    exact .every h
  · cases hc
    exact .openRound h
  · cases hc
    exact .openSquare h
  all_goals exact h.reads_of_endRow hc

theorem readCount_eq_ok_iff {position : Nat} {count : Count} {token : Token} {n : UInt32} :
    readCount position count token = .ok n ↔ token = .number n ∧ n ≠ 0 := by
  cases token with
  | number m =>
      by_cases hm : m = 0
      · subst hm
        simp only [readCount, if_pos, reduceCtorEq, Token.number.injEq, false_iff, not_and]
        exact fun h hn => hn h.symm
      · simp only [readCount, if_neg hm, Except.ok.injEq, Token.number.injEq]
        constructor
        · rintro rfl
          exact ⟨rfl, hm⟩
        · exact fun h => h.1
  | key k => simp [readCount]
  | symbol s => simp [readCount]

theorem reads_of_read {r r' : Reading} {position : Nat} {token : Token}
    (h : r.read keys position token = .ok r') : Reads keys r token r' := by
  obtain ⟨openings, row, stage⟩ := r
  cases stage with
  | fresh => exact (Ready.fresh openings row).reads_of_continueRow h
  | element nodes =>
      by_cases ht : token = .symbol .times
      · subst ht
        cases h
        exact .times
      · rw [(Ready.element openings row nodes).read_eq position ht] at h
        exact (Ready.element openings row nodes).reads_of_continueRow h
  | repeating nodes =>
      cases hn : readCount position .repeats token with
      | error e => simp [read, hn, bind, Except.bind] at h
      | ok n =>
          obtain ⟨rfl, hpos⟩ := readCount_eq_ok_iff.mp hn
          simp only [read, hn, bind, Except.bind, pure, Except.pure, Except.ok.injEq] at h
          subst h
          exact .repeats hpos
  | picking =>
      cases hn : readCount position .picks token with
      | error e => simp [read, hn, bind, Except.bind] at h
      | ok n =>
          obtain ⟨rfl, hpos⟩ := readCount_eq_ok_iff.mp hn
          by_cases hsize : row.size < n.toNat
          · simp [read, hn, hsize, bind, Except.bind, throw, throwThe, MonadExceptOf.throw] at h
          · simp only [read, hn, hsize, bind, Except.bind, pure, Except.pure, if_false,
              Except.ok.injEq] at h
            subst h
            exact .picks hpos (Nat.le_of_not_lt hsize)
  | picked n =>
      simp only [read] at h
      split at h
      · cases h
        exact .closePicked
      · cases h
  | closed => cases h

theorem Reads.read_eq {r r' : Reading} {token : Token} (h : Reads keys r token r')
    (position : Nat) : r.read keys position token = .ok r' := by
  cases h with
  | key k h => rw [h.read_eq position (by simp)]; rfl
  | every h => rw [h.read_eq position (by simp)]; rfl
  | openRound h => rw [h.read_eq position (by simp)]; rfl
  | openSquare h => rw [h.read_eq position (by simp)]; rfl
  | closeRound h hrow => rw [h.read_eq position (by simp)]; simp [continueRow, endRow, hrow]
  | closeSquare h hrow => rw [h.read_eq position (by simp)]; simp [continueRow, endRow, hrow]
  | pick h hrow => rw [h.read_eq position (by simp)]; simp [continueRow, endRow, hrow]
  | forever h hrow => rw [h.read_eq position (by simp)]; simp [continueRow, endRow, hrow]
  | times => rfl
  | repeats hn => simp [read, readCount, hn, bind, Except.bind, pure, Except.pure]
  | picks hn hsize =>
      simp [read, readCount, hn, Nat.not_lt.mpr hsize, bind, Except.bind, pure, Except.pure]
  | closePicked => rfl

/-- The relation is what the function accepts, at whatever position. -/
theorem read_eq_ok_iff {r r' : Reading} {position : Nat} {token : Token} :
    r.read keys position token = .ok r' ↔ Reads keys r token r' :=
  ⟨reads_of_read, fun h => h.read_eq position⟩

/-! ### Token lists -/

/-- The tokens lead from a reading to another. -/
inductive ReadsAll (keys : List Char) : Reading → List Token → Reading → Prop where
  | nil (r : Reading) : ReadsAll keys r [] r
  | cons {r r' r'' : Reading} {token : Token} {tokens : List Token} :
    Reads keys r token r' → ReadsAll keys r' tokens r'' → ReadsAll keys r (token :: tokens) r''

/-- The pattern of a reading behind which nothing has to follow. -/
inductive Ends : Reading → Pattern → Prop where
  | ending {r : Reading} {row : Array Node} :
    Ready r [] row → row.isEmpty = false → Ends r ⟨row.toList, false⟩
  | forever (openings : List Opening) (row : Array Node) :
    Ends ⟨openings, row, .closed⟩ ⟨row.toList, true⟩

theorem ReadsAll.single {r r' : Reading} {token : Token} (h : Reads keys r token r') :
    ReadsAll keys r [token] r' :=
  .cons h (.nil r')

theorem ReadsAll.append {r r' r'' : Reading} {front back : List Token}
    (h : ReadsAll keys r front r') (h' : ReadsAll keys r' back r'') :
    ReadsAll keys r (front ++ back) r'' := by
  induction h with
  | nil => exact h'
  | cons hr _ ih => exact .cons hr (ih h')

theorem ReadsAll.of_append {r r'' : Reading} {front back : List Token}
    (h : ReadsAll keys r (front ++ back) r'') :
    ∃ r', ReadsAll keys r front r' ∧ ReadsAll keys r' back r'' := by
  induction front generalizing r with
  | nil => exact ⟨r, .nil r, h⟩
  | cons token front ih =>
      cases h with
      | cons hr hall =>
          obtain ⟨r', hfront, hback⟩ := ih hall
          exact ⟨r', .cons hr hfront, hback⟩

theorem Reads.unique {r r' r'' : Reading} {token : Token} (h : Reads keys r token r')
    (h' : Reads keys r token r'') : r' = r'' :=
  Except.ok.inj ((h.read_eq 0).symm.trans (h'.read_eq 0))

theorem ReadsAll.unique {r r' r'' : Reading} {tokens : List Token} (h : ReadsAll keys r tokens r')
    (h' : ReadsAll keys r tokens r'') : r' = r'' := by
  induction h with
  | nil =>
      cases h'
      rfl
  | cons hr _ ih =>
      cases h' with
      | cons hr' hall' =>
          obtain rfl := hr.unique hr'
          exact ih hall'

theorem closeRow_eq_ok_iff {position : Nat} {openings : List Opening} {row : Array Node}
    {p : Pattern} : closeRow position openings row = .ok p ↔
      openings = [] ∧ row.isEmpty = false ∧ p = ⟨row.toList, false⟩ := by
  unfold closeRow
  cases hrow : row.isEmpty with
  | true => simp
  | false =>
      cases openings with
      | nil => simp [eq_comm]
      | cons opening outer => simp

theorem finish_eq_ok_iff {r : Reading} {position : Nat} {p : Pattern} :
    r.finish position = .ok p ↔ Ends r p := by
  constructor
  · intro h
    obtain ⟨openings, row, stage⟩ := r
    cases stage with
    | fresh =>
        obtain ⟨rfl, hrow, rfl⟩ := closeRow_eq_ok_iff.mp h
        exact .ending (.fresh [] row) hrow
    | element nodes =>
        obtain ⟨rfl, hrow, rfl⟩ := closeRow_eq_ok_iff.mp h
        exact .ending (.element [] row nodes) hrow
    | closed =>
        cases h
        exact .forever openings row
    | repeating nodes => cases h
    | picking => cases h
    | picked n => cases h
  · intro h
    cases h with
    | forever => rfl
    | ending hr hrow =>
        cases hr with
        | fresh => exact closeRow_eq_ok_iff.mpr ⟨rfl, hrow, rfl⟩
        | element => exact closeRow_eq_ok_iff.mpr ⟨rfl, hrow, rfl⟩

/-- A token list completes a reading to a pattern iff it leads to a reading that ends as it. -/
theorem complete_eq_ok_iff {r : Reading} {tokens : List Token} {position : Nat} {p : Pattern} :
    r.complete keys position tokens = .ok p ↔ ∃ r', ReadsAll keys r tokens r' ∧ Ends r' p := by
  induction tokens generalizing r position with
  | nil =>
      rw [complete, finish_eq_ok_iff]
      constructor
      · exact fun h => ⟨r, .nil r, h⟩
      · rintro ⟨r', h, he⟩
        cases h
        exact he
  | cons token tokens ih =>
      constructor
      · intro h
        cases hr : r.read keys position token with
        | error e => simp [complete, hr] at h
        | ok r' =>
            simp only [complete, hr] at h
            obtain ⟨r'', hall, he⟩ := ih.mp h
            exact ⟨r'', .cons (read_eq_ok_iff.mp hr) hall, he⟩
      · rintro ⟨r'', hall, he⟩
        cases hall with
        | cons hr hall =>
            simp only [complete, hr.read_eq position]
            exact ih.mpr ⟨r'', hall, he⟩

end Reading

/-- What token lists are read as, by the steps of the reading. -/
theorem Pattern.ofTokens_eq_ok_iff {keys : List Char} {tokens : List Token} {p : Pattern} :
    ofTokens keys tokens = .ok p ↔
      ∃ r, Reading.ReadsAll keys .start tokens r ∧ Reading.Ends r p :=
  Reading.complete_eq_ok_iff

end PieceSequencer
