import PieceSequencer.Proofs.Pattern.CanonicalText
import PieceSequencer.Proofs.Pattern.Continuation
import PieceSequencer.Proofs.Pattern.Spacing

/-! # Patterns glued together

The text of a pattern can stand behind another one, or in brackets, and is read there as it is on
its own (`Pattern.ofText_composes`).  Two facts carry this.  A text that does not begin with a digit
is scanned behind any other as it is alone (`Token.scan_append`).  And a reading that begins behind
other nodes, inside other brackets, goes through the same steps as one that begins with nothing: its
frame stays where it is (`Reading.onto`, `Reads.onto`). -/

namespace PieceSequencer

variable {keys : List Char}

/-! ### Texts in a row -/

theorem Word.Splits.append {marks marks' : List (Char × Nat)} {words words' : List Word}
    (h : Splits marks words) (h' : Splits marks' words')
    (hseam : ∀ m ∈ marks'.head?, m.1.isDigit = false) :
    Splits (marks ++ marks') (words ++ words') := by
  induction h with
  | nil => exact h'
  | single hother _ ih => exact .single hother ih
  | digits hrun hhead _ ih =>
      rw [List.append_assoc]
      refine .digits hrun (fun m hm => ?_) ih
      rw [List.head?_append, Option.mem_def, Option.or_eq_some_iff] at hm
      rcases hm with hm | ⟨-, hm⟩
      · exact hhead m hm
      · exact hseam m hm

/-- Marks begin with a digit only if their first word stands for a number. -/
theorem Word.Splits.isDigit_head {marks : List (Char × Nat)} {words : List Word}
    {tokens : List Token} (h : Splits marks words)
    (htokens : List.Forall₂ (StandsFor keys) words tokens)
    (hhead : ∀ t ∈ tokens.head?, t.isNumber = false) :
    ∀ m ∈ marks.head?, m.1.isDigit = false := by
  cases h with
  | nil => simp
  | single hother _ => simpa using hother
  | digits =>
      obtain ⟨token, _, htoken, -, rfl⟩ := List.forall₂_cons_left_iff.mp htokens
      cases htoken with
      | number => cases hhead _ rfl

/-- A text behind another one is scanned as it is alone unless it begins with a number. -/
theorem Token.scan_append {front back text : String} {tokens tokens' : List Token}
    (h : scan keys front = .ok tokens) (h' : scan keys back = .ok tokens')
    (hhead : ∀ t ∈ tokens'.head?, t.isNumber = false)
    (htext : text.toList.filter (fun c => !Text.isBlank c) =
      front.toList.filter (fun c => !Text.isBlank c) ++
        back.toList.filter fun c => !Text.isBlank c) :
    scan keys text = .ok (tokens ++ tokens') := by
  have hback := Word.splits_foldr (Word.marks back.toList)
  have hwords := scan_eq_ok_iff.mp h'
  have hsplits := (Word.splits_foldr (Word.marks front.toList)).append hback
    (hback.isDigit_head hwords hhead)
  rw [← Word.map_fst_marks, ← Word.map_fst_marks, ← Word.map_fst_marks, ← List.map_append] at htext
  obtain ⟨words, hmoved, hall⟩ :=
    hsplits.moved (List.rel_append (scan_eq_ok_iff.mp h) hwords) htext
  exact scan_eq_ok_of_splits hmoved hall

theorem Token.scan_written {text : String} {tokens : List Token} (ha : NumbersApart tokens)
    (hk : ∀ t ∈ tokens, t.Known keys) (htext : text.toList = tokens.flatMap chars) :
    scan keys text = .ok tokens := by
  have hscan : scan keys (String.ofList (tokens.flatMap chars)) = .ok tokens := scan_chars ha hk
  rwa [← htext, String.ofList_toList] at hscan

theorem Token.scan_symbol (s : Symbol) : scan keys s.char.toString = .ok [.symbol s] := by
  apply scan_written
  · exact List.isChain_singleton _
  · simp [Known]
  · cases s <;> rfl

/-- A text between two others, the second of which begins with a symbol. -/
theorem Token.scan_enclosed {opening text closing : String} {tokens first rest : List Token}
    {s : Symbol} (h : scan keys text = .ok tokens) (hhead : ∀ t ∈ tokens.head?, t.isNumber = false)
    (hopening : scan keys opening = .ok first)
    (hclosing : scan keys closing = .ok (.symbol s :: rest)) :
    scan keys (opening ++ text ++ closing) = .ok (first ++ tokens ++ .symbol s :: rest) := by
  have hfront : scan keys (opening ++ text) = .ok (first ++ tokens) := by
    apply scan_append hopening h hhead
    rw [String.toList_append, List.filter_append]
  apply scan_append hfront hclosing
  · intro t ht
    obtain rfl : .symbol s = t := Option.some.inj ht
    rfl
  · rw [String.toList_append, List.filter_append]

namespace Reading

/-! ### Readings in a frame -/

/-- A row behind `base`, unless it stands in a bracket of its own. -/
def rowOnto (base : Array Node) (openings : List Opening) (row : Array Node) : Array Node :=
  match openings with
  | [] => base ++ row
  | _ :: _ => row

/-- Openings inside the `outer` ones.  The outermost of them stands behind `base`. -/
def openingsOnto (outer : List Opening) (base : Array Node) : List Opening → List Opening
  | [] => outer
  | ⟨bracket, before⟩ :: openings =>
    ⟨bracket, rowOnto base openings before⟩ :: openingsOnto outer base openings

/-- The reading, had it begun behind the nodes `base` inside the openings `outer`. -/
def onto (outer : List Opening) (base : Array Node) (r : Reading) : Reading :=
  ⟨openingsOnto outer base r.openings, rowOnto base r.openings r.row, r.stage⟩

variable {outer : List Opening} {base : Array Node} {openings : List Opening} {row : Array Node}

theorem rowOnto_append (nodes : List Node) :
    rowOnto base openings (row ++ nodes) = rowOnto base openings row ++ nodes := by
  cases openings with
  | nil => simp [rowOnto, ← Array.toList_inj]
  | cons => rfl

theorem size_le_size_rowOnto : row.size ≤ (rowOnto base openings row).size := by
  cases openings with
  | nil => simp [rowOnto]
  | cons => exact Nat.le_refl _

theorem isEmpty_rowOnto (h : row.isEmpty = false) :
    (rowOnto base openings row).isEmpty = false := by
  cases openings with
  | nil =>
      rw [Array.isEmpty_eq_false_iff] at h ⊢
      exact fun hnil => h (Array.append_eq_empty_iff.mp hnil).2
  | cons => exact h

theorem Ready.stage_ne_closed {r : Reading} (h : Ready r openings row) : r.stage ≠ .closed := by
  cases h <;> nofun

theorem Ready.onto {r : Reading} (h : Ready r openings row) :
    Ready (r.onto outer base) (openingsOnto outer base openings) (rowOnto base openings row) := by
  cases h with
  | fresh => exact .fresh _ _
  | element openings row nodes =>
      rw [rowOnto_append]
      exact .element _ _ nodes

/-- A step in a frame leaves the frame alone.  Only `~` can tell whether there is a bracket around
the reading. -/
theorem Reads.onto {r r' : Reading} {token : Token} (h : Reads keys r token r')
    (hclosed : r'.stage = .closed → outer = []) :
    Reads keys (r.onto outer base) token (r'.onto outer base) := by
  cases h with
  | key k h => exact .key k h.onto
  | every h => exact .every h.onto
  | openRound h => exact .openRound h.onto
  | openSquare h => exact .openSquare h.onto
  | closeRound h hrow => exact .closeRound h.onto hrow
  | closeSquare h hrow => exact .closeSquare h.onto hrow
  | pick h hrow => exact .pick h.onto hrow
  | @forever r row h hrow =>
      obtain rfl := hclosed rfl
      have hready : Ready (r.onto [] base) [] (rowOnto base [] row) := h.onto
      exact .forever hready (isEmpty_rowOnto hrow)
  | times => exact .times
  | @repeats openings row nodes n hn =>
      have hreads : Reads keys _ (.number n)
          ⟨openingsOnto outer base openings,
            rowOnto base openings row ++ nodes.map (Node.withRepeats n), .fresh⟩ := .repeats hn
      rw [← rowOnto_append] at hreads
      exact hreads
  | picks hn hsize => exact .picks hn (hsize.trans size_le_size_rowOnto)
  | closePicked => exact .closePicked

/-- Behind `~` nothing is read. -/
theorem Reads.stage_ne_closed {r r' : Reading} {token : Token} (h : Reads keys r token r') :
    r.stage ≠ .closed := by
  obtain ⟨openings, row, stage⟩ := r
  rintro rfl
  cases h.read_eq 0

/-- `~` is read outside of all brackets. -/
theorem Reads.openings_eq_nil {r r' : Reading} {token : Token} (h : Reads keys r token r')
    (hclosed : r'.stage = .closed) : r'.openings = [] := by
  cases h with
  | forever => rfl
  | _ => cases hclosed

theorem ReadsAll.onto {r r' : Reading} {tokens : List Token} (h : ReadsAll keys r tokens r')
    (hclosed : r'.stage = .closed → outer = []) :
    ReadsAll keys (r.onto outer base) tokens (r'.onto outer base) := by
  induction h with
  | nil => exact .nil _
  | cons hr hall ih =>
      refine .cons (hr.onto fun hs => ?_) (ih hclosed)
      cases hall with
      | nil => exact hclosed hs
      | cons hnext _ => exact absurd hs hnext.stage_ne_closed

theorem LeadsTo.onto {r : Reading} {tokens : List Token} {p : Pattern}
    (h : LeadsTo keys r tokens p) (hopen : r.stage = .closed → r.openings = []) :
    LeadsTo keys (r.onto [] base) tokens ⟨base.toList ++ p.children, p.forever⟩ := by
  induction tokens generalizing r with
  | nil =>
      rw [leadsTo_nil_iff] at h ⊢
      cases h with
      | @ending r row hready hrow =>
          have hready' : Ready (r.onto [] base) [] (rowOnto base [] row) := hready.onto
          simpa [rowOnto] using Ends.ending hready' (isEmpty_rowOnto hrow)
      | forever openings row =>
          obtain rfl : openings = [] := hopen rfl
          simpa [Reading.onto, openingsOnto, rowOnto] using Ends.forever [] (base ++ row)
  | cons token tokens ih =>
      obtain ⟨r', hr, hrest⟩ := leadsTo_cons_iff.mp h
      exact leadsTo_cons_iff.mpr ⟨_, hr.onto fun _ => rfl, ih hrest hr.openings_eq_nil⟩

/-! ### The beginning and the end of a pattern -/

/-- A pattern that is not repeated forever leads to complete elements. -/
theorem exists_ready_of_leadsTo {r : Reading} {tokens : List Token} {p : Pattern}
    (h : LeadsTo keys r tokens p) (hopen : p.forever = false) :
    ∃ r' row, ReadsAll keys r tokens r' ∧ Ready r' [] row ∧ row.isEmpty = false ∧
      row.toList = p.children := by
  obtain ⟨r', hall, hends⟩ := h
  cases hends with
  | ending hready hrow => exact ⟨r', _, hall, hready, hrow, rfl⟩
  | forever => cases hopen

/-- No pattern begins with a count. -/
theorem LeadsTo.of_start {tokens : List Token} {p : Pattern} (h : LeadsTo keys .start tokens p) :
    ¬ Token.BeginWithCount tokens ∧ ∀ t ∈ tokens.head?, t.isNumber = false := by
  cases tokens with
  | nil =>
      refine ⟨?_, by simp⟩
      rintro ⟨_, _, h⟩
      cases h
  | cons token tokens =>
      obtain ⟨r, hr, -⟩ := leadsTo_cons_iff.mp h
      have hread := hr.read_eq 0
      constructor
      · rintro ⟨n, rest, heq⟩
        cases heq
        cases hread
      · intro t ht
        obtain rfl : token = t := Option.some.inj ht
        cases token with
        | number n => cases hread
        | key | symbol => rfl

end Reading

namespace Pattern

/-- Two patterns in a row. -/
theorem ofTokens_append {tokens tokens' : List Token} {p q : Pattern}
    (hp : ofTokens keys tokens = .ok p) (hopen : p.forever = false)
    (hq : ofTokens keys tokens' = .ok q) :
    ofTokens keys (tokens ++ tokens') = .ok ⟨p.children ++ q.children, q.forever⟩ := by
  rw [ofTokens_eq_ok_iff] at hp hq ⊢
  obtain ⟨r, row, hall, hready, -, hrow⟩ := Reading.exists_ready_of_leadsTo hp hopen
  have hcount := (Reading.LeadsTo.of_start hq).1
  have hback : Reading.LeadsTo keys (Reading.start.onto [] row) tokens' _ :=
    Reading.LeadsTo.onto hq nofun
  have hstart : Reading.Ready (Reading.start.onto [] row) [] row := by
    have hfresh : Reading.Ready (Reading.start.onto [] row) [] (Reading.rowOnto row [] #[]) :=
      (Reading.Ready.fresh [] #[]).onto
    rwa [Reading.rowOnto, Array.append_empty] at hfresh
  rw [← hrow]
  exact hall.leadsTo_iff.mpr (hstart.leadsTo hready hcount hback)

/-- A pattern in a bracket, up to its end. -/
theorem exists_ready_bracketed {tokens : List Token} {p : Pattern} {s : Symbol} {bracket : Bracket}
    (hs : Reading.Reads keys .start (.symbol s) ⟨[⟨bracket, #[]⟩], #[], .fresh⟩)
    (hp : ofTokens keys tokens = .ok p) (hopen : p.forever = false) :
    ∃ r, Reading.ReadsAll keys .start (.symbol s :: tokens) r ∧
      Reading.Ready r [⟨bracket, #[]⟩] p.children.toArray ∧
      p.children.toArray.isEmpty = false := by
  obtain ⟨r, row, hall, hready, hrow, hchildren⟩ :=
    Reading.exists_ready_of_leadsTo (ofTokens_eq_ok_iff.mp hp) hopen
  obtain rfl : row = p.children.toArray := by rw [← hchildren]
  have hstage : r.stage ≠ .closed := hready.stage_ne_closed
  have hinside : Reading.ReadsAll keys (Reading.start.onto [⟨bracket, #[]⟩] #[]) tokens
      (r.onto [⟨bracket, #[]⟩] #[]) := hall.onto fun h => absurd h hstage
  have hready' : Reading.Ready (r.onto [⟨bracket, #[]⟩] #[]) [⟨bracket, #[]⟩]
      (#[] ++ p.children.toArray) := hready.onto
  rw [Array.empty_append] at hready'
  exact ⟨_, .cons hs hinside, hready', hrow⟩

/-- A pattern as a repeated group. -/
theorem ofTokens_group {tokens : List Token} {p : Pattern} (hp : ofTokens keys tokens = .ok p)
    (hopen : p.forever = false) {n : UInt32} (hn : n ≠ 0) :
    ofTokens keys (.symbol .openRound :: tokens ++
        [.symbol .closeRound, .symbol .times, .number n]) = .ok ⟨[.group p.children n], false⟩ := by
  obtain ⟨r, hall, hready, hrow⟩ :=
    exists_ready_bracketed (.openRound (.fresh [] #[])) hp hopen
  have hclose : Reading.ReadsAll keys r [.symbol .closeRound, .symbol .times, .number n] _ :=
    .cons (.closeRound hready hrow) (.cons .times (.single (.repeats hn)))
  exact ofTokens_eq_ok_iff.mpr ⟨_, hall.append hclose, .ending (.fresh [] _) rfl⟩

/-- A pattern as a repeated random group with a pick count. -/
theorem ofTokens_random {tokens : List Token} {p : Pattern} (hp : ofTokens keys tokens = .ok p)
    (hopen : p.forever = false) {m n : UInt32} (hm : m ≠ 0) (hn : n ≠ 0) :
    ofTokens keys (.symbol .openSquare :: tokens ++
        [.symbol .pick, .number m, .symbol .closeSquare, .symbol .times, .number n]) =
      if m.toNat ≤ p.children.length then .ok ⟨[.random p.children m n], false⟩
      else .error (.pickTooLarge (tokens.length + 2) m p.children.length) := by
  obtain ⟨r, hall, hready, hrow⟩ :=
    exists_ready_bracketed (.openSquare (.fresh [] #[])) hp hopen
  have hpick : Reading.Reads keys r (.symbol .pick) _ := .pick hready hrow
  by_cases hle : m.toNat ≤ p.children.length
  · rw [if_pos hle]
    have hclose : Reading.ReadsAll keys r
        [.symbol .pick, .number m, .symbol .closeSquare, .symbol .times, .number n] _ :=
      .cons hpick (.cons (.picks hm hle) (.cons .closePicked (.cons .times
        (.single (.repeats hn)))))
    exact ofTokens_eq_ok_iff.mpr ⟨_, hall.append hclose, .ending (.fresh [] _) rfl⟩
  · rw [if_neg hle]
    have hrefused := (hall.append (.single hpick)).complete_append 0
      [.number m, .symbol .closeSquare, .symbol .times, .number n]
    have hlt : p.children.toArray.size < m.toNat := Nat.lt_of_not_le hle
    rw [Reading.complete_picking_of_lt hlt] at hrefused
    simpa [ofTokens] using hrefused

/-- What is refused as tokens is refused as text. -/
theorem ofText_eq_error_of_ofTokens {text : String} {tokens : List Token} {e : ParseError}
    (hscan : Token.scan keys text = .ok tokens) (h : ofTokens keys tokens = .error e) :
    ofText keys text = .error (.parse e) := by
  simp only [ofText, hscan, h]

/-! ### Patterns as text -/

section
variable {front : String} {p : Pattern} (hp : ofText keys front = .ok p)
  (hopen : p.forever = false)
include hp hopen

/-- Two texts in a row, with or without blank characters between them. -/
theorem ofText_append {gap back : String} {q : Pattern}
    (hgap : ∀ c ∈ gap.toList, Text.isBlank c = true) (hq : ofText keys back = .ok q) :
    ofText keys (front ++ gap ++ back) = .ok ⟨p.children ++ q.children, q.forever⟩ := by
  obtain ⟨tokens, hscan, htokens⟩ := ofText_eq_ok_iff.mp hp
  obtain ⟨tokens', hscan', htokens'⟩ := ofText_eq_ok_iff.mp hq
  have hhead' := (Reading.LeadsTo.of_start (ofTokens_eq_ok_iff.mp htokens')).2
  have hboth : Token.scan keys (front ++ gap ++ back) = .ok (tokens ++ tokens') := by
    apply Token.scan_append hscan hscan' hhead'
    rw [String.toList_append, String.toList_append, List.filter_append, List.filter_append,
      Token.filter_isBlank_gap hgap, List.append_nil]
  exact ofText_eq_ok_iff.mpr ⟨_, hboth, ofTokens_append htokens hopen htokens'⟩

/-- A text as a repeated group. -/
theorem ofText_group {n : UInt32} (hn : n ≠ 0) :
    ofText keys ("(" ++ front ++ ")*" ++ Numeral.text n.toNat) =
      .ok ⟨[.group p.children n], false⟩ := by
  obtain ⟨tokens, hscan, htokens⟩ := ofText_eq_ok_iff.mp hp
  have hhead := (Reading.LeadsTo.of_start (ofTokens_eq_ok_iff.mp htokens)).2
  have hclosing : Token.scan keys (")*" ++ Numeral.text n.toNat) =
      .ok [.symbol .closeRound, .symbol .times, .number n] := by
    apply Token.scan_written
    · simp [Token.NumbersApart, Token.isNumber]
    · simp [Token.Known]
    · simp [Numeral.text, Token.chars, Symbol.char]
  have hall := Token.scan_enclosed hscan hhead (Token.scan_symbol .openRound) hclosing
  rw [← String.append_assoc] at hall
  exact ofText_eq_ok_iff.mpr ⟨_, hall, ofTokens_group htokens hopen hn⟩

/-- A text as a repeated random group with a pick count, which is refused where it stands if it is
larger than the number of nodes. -/
theorem ofText_random {m n : UInt32} (hm : m ≠ 0) (hn : n ≠ 0) :
    ∃ tokens, Token.scan keys front = .ok tokens ∧
      ofText keys ("[" ++ front ++ ":" ++ Numeral.text m.toNat ++ "]*" ++ Numeral.text n.toNat) =
        if m.toNat ≤ p.children.length then .ok ⟨[.random p.children m n], false⟩
        else .error (.parse (.pickTooLarge (tokens.length + 2) m p.children.length)) := by
  obtain ⟨tokens, hscan, htokens⟩ := ofText_eq_ok_iff.mp hp
  have hhead := (Reading.LeadsTo.of_start (ofTokens_eq_ok_iff.mp htokens)).2
  have hclosing : Token.scan keys (":" ++ Numeral.text m.toNat ++ "]*" ++ Numeral.text n.toNat) =
      .ok [.symbol .pick, .number m, .symbol .closeSquare, .symbol .times, .number n] := by
    apply Token.scan_written
    · simp [Token.NumbersApart, Token.isNumber]
    · simp [Token.Known]
    · simp [Numeral.text, Token.chars, Symbol.char]
  have hall := Token.scan_enclosed hscan hhead (Token.scan_symbol .openSquare) hclosing
  rw [← String.append_assoc, ← String.append_assoc, ← String.append_assoc] at hall
  have hread := ofTokens_random htokens hopen hm hn
  refine ⟨tokens, hscan, ?_⟩
  by_cases hle : m.toNat ≤ p.children.length
  · rw [if_pos hle] at hread ⊢
    exact ofText_eq_ok_iff.mpr ⟨_, hall, hread⟩
  · rw [if_neg hle] at hread ⊢
    exact ofText_eq_error_of_ofTokens hall hread

end

/-- **Patterns compose as text.**  Behind a text of a pattern that is not repeated forever another
one can stand, with or without blank characters between them, and their children stand in a row;
in round brackets it is a single group with any repeat count, and in square brackets a single random
group with any repeat count and any pick count up to the number of its children.  A larger pick
count is refused where it stands. -/
theorem ofText_composes {front : String} {p : Pattern} (hp : ofText keys front = .ok p)
    (hopen : p.forever = false) :
    (∀ (gap back : String) (q : Pattern), (∀ c ∈ gap.toList, Text.isBlank c = true) →
      ofText keys back = .ok q →
      ofText keys (front ++ gap ++ back) = .ok ⟨p.children ++ q.children, q.forever⟩) ∧
    (∀ n : UInt32, n ≠ 0 →
      ofText keys ("(" ++ front ++ ")*" ++ Numeral.text n.toNat) =
        .ok ⟨[.group p.children n], false⟩) ∧
    ∀ m n : UInt32, m ≠ 0 → n ≠ 0 →
      (m.toNat ≤ p.children.length →
        ofText keys ("[" ++ front ++ ":" ++ Numeral.text m.toNat ++ "]*" ++
          Numeral.text n.toNat) = .ok ⟨[.random p.children m n], false⟩) ∧
      (p.children.length < m.toNat → ∃ tokens, Token.scan keys front = .ok tokens ∧
        ofText keys ("[" ++ front ++ ":" ++ Numeral.text m.toNat ++ "]*" ++
            Numeral.text n.toNat) =
          .error (.parse (.pickTooLarge (tokens.length + 2) m p.children.length))) := by
  refine ⟨fun gap back q hgap hq => ofText_append hp hopen hgap hq,
    fun n hn => ofText_group hp hopen hn, fun m n hm hn => ?_⟩
  obtain ⟨tokens, hscan, hread⟩ := ofText_random hp hopen hm hn
  constructor
  · intro hle
    rwa [if_pos hle] at hread
  · intro hlt
    rw [if_neg (Nat.not_le.mpr hlt)] at hread
    exact ⟨tokens, hscan, hread⟩

/-- `T[I]` in front of `I*2~`, in a group, and in random groups with and without enough nodes. -/
theorem ofText_composes_nested :
    let p : Pattern := ⟨[.piece 'T' 1, .random [.piece 'I' 1] 1 1], false⟩
    ofText ['T', 'I'] "T[I]" = .ok p ∧ p.forever = false ∧
      (∀ c ∈ " \n".toList, Text.isBlank c = true) ∧ (10 : UInt32) ≠ 0 ∧
      ofText ['T', 'I'] ("T[I]" ++ " \n" ++ "I*2~") =
        .ok ⟨[.piece 'T' 1, .random [.piece 'I' 1] 1 1, .piece 'I' 2], true⟩ ∧
      ofText ['T', 'I'] ("(" ++ "T[I]" ++ ")*" ++ Numeral.text 10) =
        .ok ⟨[.group p.children 10], false⟩ ∧
      ofText ['T', 'I'] ("[" ++ "T[I]" ++ ":" ++ Numeral.text 2 ++ "]*" ++ Numeral.text 10) =
        .ok ⟨[.random p.children 2 10], false⟩ ∧
      ∃ tokens, Token.scan ['T', 'I'] "T[I]" = .ok tokens ∧
        ofText ['T', 'I'] ("[" ++ "T[I]" ++ ":" ++ Numeral.text 3 ++ "]*" ++ Numeral.text 10) =
          .error (.parse (.pickTooLarge (tokens.length + 2) 3 2)) := by
  intro p
  have hp : ofText ['T', 'I'] "T[I]" = .ok p := by decide
  have hq : ofText ['T', 'I'] "I*2~" = .ok ⟨[.piece 'I' 2], true⟩ := by decide
  have hblank : ∀ c ∈ " \n".toList, Text.isBlank c = true := List.all_eq_true.mp (by decide)
  have hten : (10 : UInt32) ≠ 0 := by decide
  obtain ⟨hrow, hgroup, hrandom⟩ := ofText_composes hp rfl
  exact ⟨hp, rfl, hblank, hten, hrow _ _ _ hblank hq, hgroup 10 hten,
    (hrandom 2 10 (by decide) hten).1 (by decide), (hrandom 3 10 (by decide) hten).2 (by decide)⟩

end Pattern

end PieceSequencer
