import PieceSequencer.Proofs.Pattern.Scanning

/-! # Tokens and blanks

Tokens may be written with blank characters before, between and behind them (`Token.Spaced`).  They
are scanned as they were just if no two numbers are adjacent (`scan_spaced_iff`): blanks do not
keep two numbers apart, and no text is ever scanned as two numbers in a row, because a run of
digits ends only where another kind of character follows (`Word.Splits.numbersApart`). -/

namespace PieceSequencer

variable {keys : List Char}

/-- A run of digits is never followed by another one. -/
theorem Word.Splits.numbersApart {marks : List (Char × Nat)} {words : List Word}
    {tokens : List Token} (h : Splits marks words)
    (htokens : List.Forall₂ (StandsFor keys) words tokens) : Token.NumbersApart tokens := by
  induction h generalizing tokens with
  | nil =>
      cases htokens
      exact .nil
  | single _ _ ih =>
      obtain ⟨token, others, htoken, hothers, rfl⟩ := List.forall₂_cons_left_iff.mp htokens
      have hnumber : token.isNumber = false := by cases htoken <;> rfl
      exact List.isChain_cons.mpr ⟨fun _ _ => .inl hnumber, ih hothers⟩
  | digits _ hhead hrest ih =>
      obtain ⟨token, others, -, hothers, rfl⟩ := List.forall₂_cons_left_iff.mp htokens
      refine List.isChain_cons.mpr ⟨fun next hnext => .inr ?_, ih hothers⟩
      cases hrest with
      | nil =>
          obtain rfl : others = [] := List.forall₂_nil_left_iff.mp hothers
          cases hnext
      | single _ _ =>
          obtain ⟨_, _, hword, -, rfl⟩ := List.forall₂_cons_left_iff.mp hothers
          cases hnext
          cases hword <;> rfl
      | @digits mark _ _ _ hrun _ _ =>
          have hdigit : mark.1.isDigit = true := hrun mark List.mem_cons_self
          have hother : mark.1.isDigit = false := hhead mark rfl
          rw [hdigit] at hother
          cases hother

namespace Token

/-- No text is scanned as two numbers in a row. -/
theorem numbersApart_of_scan {text : String} {tokens : List Token}
    (h : scan keys text = .ok tokens) : NumbersApart tokens :=
  (Word.splits_foldr (Word.marks text.toList)).numbersApart (scan_eq_ok_iff.mp h)

/-- Tokens are written in order, with blank characters, or none, before, between and behind
them. -/
inductive Spaced : List Token → List Char → Prop where
  | nil {gap : List Char} : (∀ c ∈ gap, Text.isBlank c = true) → Spaced [] gap
  | cons {gap text : List Char} {token : Token} {tokens : List Token} :
    (∀ c ∈ gap, Text.isBlank c = true) → Spaced tokens text →
    Spaced (token :: tokens) (gap ++ token.chars ++ text)

theorem filter_isBlank_gap {gap : List Char} (h : ∀ c ∈ gap, Text.isBlank c = true) :
    (gap.filter fun c => !Text.isBlank c) = [] := by
  rw [List.filter_eq_nil_iff]
  intro c hc
  simp [h c hc]

/-- Without the blank characters the tokens stand one behind the other. -/
theorem Spaced.filter_eq {tokens : List Token} {text : List Char} (h : Spaced tokens text)
    (hk : ∀ t ∈ tokens, t.Known keys) :
    (text.filter fun c => !Text.isBlank c) = tokens.flatMap chars := by
  induction h with
  | nil hgap => exact filter_isBlank_gap hgap
  | cons hgap _ ih =>
      obtain ⟨htoken, htokens⟩ := List.forall_mem_cons.mp hk
      rw [List.filter_append, List.filter_append, filter_isBlank_gap hgap,
        filter_isBlank_chars htoken, ih htokens, List.flatMap_cons, List.nil_append]

/-- **Writing and scanning tokens are inverse where numbers are apart.**  Over allowed keys, tokens
written with any blanks between them are scanned as they were just if no two numbers are adjacent;
and over any keys at all, what a text is scanned as has no two numbers adjacent. -/
theorem scan_spaced_iff :
    (∀ (keys : List Char) (tokens : List Token) (text : String),
      (∀ k ∈ keys, isAllowedKey k = true) → (∀ k, .key k ∈ tokens → k ∈ keys) →
      Spaced tokens text.toList → (scan keys text = .ok tokens ↔ NumbersApart tokens)) ∧
    ∀ (keys : List Char) (text : String) (tokens : List Token),
      scan keys text = .ok tokens → NumbersApart tokens := by
  refine ⟨fun keys tokens text hkeys hmem hspaced => ?_, fun keys text tokens h =>
    numbersApart_of_scan h⟩
  have hknown : ∀ t ∈ tokens, t.Known keys := by
    intro t ht
    cases t with
    | key k => exact ⟨hmem k ht, hkeys k (hmem k ht)⟩
    | number n => trivial
    | symbol s => trivial
  exact ⟨numbersApart_of_scan, fun hapart => scan_eq_ok hapart hknown (hspaced.filter_eq hknown)⟩

/-- The tokens of `T*10I`, with blanks before `T` and behind the number, are scanned as they were,
and no two numbers are adjacent in them. -/
theorem scan_spaced_repeat :
    let tokens : List Token := [.key 'T', .symbol .times, .number 10, .key 'I']
    (∀ k ∈ ['T', 'I'], isAllowedKey k = true) ∧ (∀ k, .key k ∈ tokens → k ∈ ['T', 'I']) ∧
      Spaced tokens " T*10  I".toList ∧
      (scan ['T', 'I'] " T*10  I" = .ok tokens ↔ NumbersApart tokens) ∧
      scan ['T', 'I'] " T*10  I" = .ok tokens ∧ NumbersApart tokens := by
  intro tokens
  have hkeys : ∀ k ∈ ['T', 'I'], isAllowedKey k = true := List.all_eq_true.mp (by decide)
  have hmem : ∀ k, .key k ∈ tokens → k ∈ ['T', 'I'] := by simp [tokens]
  have hspaced : Spaced tokens " T*10  I".toList := by
    have hten : Numeral.write 10 = ['1', '0'] := by simp [Numeral.write, Numeral.digit]
    have hone : ∀ c ∈ [' '], Text.isBlank c = true := List.all_eq_true.mp (by decide)
    have htwo : ∀ c ∈ [' ', ' '], Text.isBlank c = true := List.all_eq_true.mp (by decide)
    have hnone : ∀ c ∈ [], Text.isBlank c = true := by simp
    have hall : Spaced tokens
        ([' '] ++ ['T'] ++
          ([] ++ ['*'] ++ ([] ++ Numeral.write 10 ++ ([' ', ' '] ++ ['I'] ++ [])))) :=
      .cons hone (.cons hnone (.cons hnone (.cons htwo (.nil hnone))))
    rw [hten] at hall
    exact hall
  have hscan : scan ['T', 'I'] " T*10  I" = .ok tokens := by decide
  exact ⟨hkeys, hmem, hspaced, scan_spaced_iff.1 _ _ _ hkeys hmem hspaced, hscan,
    scan_spaced_iff.2 _ _ _ hscan⟩

/-- Two numbers with a blank between them are one. -/
example : scan [] "1 2" = .ok [.number 12] := by decide

end Token

end PieceSequencer
