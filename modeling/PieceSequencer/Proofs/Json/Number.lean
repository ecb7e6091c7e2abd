import PieceSequencer.Proofs.Binary64.Decimal
import PieceSequencer.Proofs.Json.Laws

/-! # Written numbers read back

A number is written as digits before a point, digits behind it and a power of ten, in one of four
arrangements.  The reader finds the same parts again (`readWritten_chars`), and together they have
the value that was to be written (`exists_written`), so it reads the number that was written
(`readNumber_numeral`). -/

namespace PieceSequencer.Json

/-! ### Gaps -/

/-- Nothing but characters that may stand between the parts of a document. -/
def IsGap (gap : List Char) : Prop := ∀ c ∈ gap, isSpace c = true

theorem isGap_nil : IsGap [] := by simp [IsGap]

theorem skipSpace_append {gap : List Char} (h : IsGap gap) (s : List Char) :
    skipSpace (gap ++ s) = skipSpace s :=
  List.dropWhile_append_of_pos h

theorem skipSpace_cons {c : Char} (h : isSpace c = false) (s : List Char) :
    skipSpace (c :: s) = c :: s :=
  List.dropWhile_cons_of_neg (by simp [h])

theorem skipSpace_gap {gap : List Char} {c : Char} (hgap : IsGap gap) (h : isSpace c = false)
    (s : List Char) : skipSpace (gap ++ c :: s) = c :: s :=
  (skipSpace_append hgap _).trans (skipSpace_cons h s)

theorem isSpace_of_isDigit {c : Char} (h : c.isDigit = true) : isSpace c = false := by
  by_contra hspace
  simp only [isSpace, Bool.not_eq_false, Bool.or_eq_true, decide_eq_true_eq] at hspace
  rcases hspace with ((rfl | rfl) | rfl) | rfl <;> cases h

/-! ### Digits -/

/-- No digit comes next. -/
def EndsDigits (rest : List Char) : Prop := ∀ c ∈ rest.head?, c.isDigit = false

/-- Nothing comes next that a number could go on with. -/
structure EndsNumber (rest : List Char) : Prop where
  digits : EndsDigits rest
  point : rest.head? ≠ some '.'
  power : ∀ c ∈ rest.head?, c ≠ 'e' ∧ c ≠ 'E'

/-- A run of digits that is not empty. -/
structure IsRun (run : List Char) : Prop where
  ne_nil : run ≠ []
  isDigit : ∀ c ∈ run, c.isDigit = true

theorem readDigits_append {run rest : List Char} (hrun : IsRun run) (hrest : EndsDigits rest) :
    readDigits (run ++ rest) = .ok (run, rest) := by
  have htake : (run ++ rest).takeWhile Char.isDigit = run := by
    rw [List.takeWhile_append_of_pos hrun.isDigit]
    cases rest with
    | nil => simp
    | cons c rest => simp [hrest c rfl]
  have hdrop : (run ++ rest).dropWhile Char.isDigit = rest := by
    rw [List.dropWhile_append_of_pos hrun.isDigit]
    cases rest with
    | nil => rfl
    | cons c rest => exact List.dropWhile_cons_of_neg (by simp [hrest c rfl])
  obtain ⟨c, tail, rfl⟩ := List.exists_cons_of_ne_nil hrun.ne_nil
  rw [List.cons_append] at *
  rw [readDigits, if_pos (hrun.isDigit c List.mem_cons_self), htake, hdrop]

/-! ### The parts of a number -/

/-- The point and the digits behind it. -/
def fractionChars : Option (List Char) → List Char
  | some run => '.' :: run
  | none => []

/-- The power of ten with its sign. -/
def powerChars : Option Int → List Char
  | some e => 'e' :: (if e < 0 then '-' else '+') :: Numeral.write e.natAbs
  | none => []

/-- The text of a number in its parts, behind its sign. -/
def Written.unsigned (w : Written) : List Char :=
  w.whole ++ (fractionChars w.fraction ++ powerChars w.exponent)

/-- The text of a number in its parts. -/
def Written.chars (w : Written) : List Char :=
  (if w.negative then ['-'] else []) ++ w.unsigned

/-- The parts are what a number consists of: a leading zero stands alone, and there are digits
behind a point. -/
structure Written.Proper (w : Written) : Prop where
  whole : IsRun w.whole
  leading : w.whole.head? = some '0' → w.whole = ['0']
  fraction : ∀ run ∈ w.fraction, IsRun run

theorem readWhole_append {run rest : List Char} (hrun : IsRun run)
    (hleading : run.head? = some '0' → run = ['0']) (hrest : EndsDigits rest) :
    readWhole (run ++ rest) = .ok (run, rest) := by
  by_cases hzero : run.head? = some '0'
  · rw [hleading hzero]
    cases rest with
    | nil => rfl
    | cons c rest => simp [readWhole, hrest c rfl]
  · rw [← readDigits_append hrun hrest]
    obtain ⟨c, tail, rfl⟩ := List.exists_cons_of_ne_nil hrun.ne_nil
    simp only [List.head?_cons, Option.some.injEq] at hzero
    unfold readWhole
    split
    · rename_i h
      exact absurd (List.cons.inj h).1 hzero
    · rfl

theorem readFraction_append {fraction : Option (List Char)} {rest : List Char}
    (hfraction : ∀ run ∈ fraction, IsRun run) (hrest : EndsDigits rest)
    (hpoint : rest.head? ≠ some '.') :
    readFraction (fractionChars fraction ++ rest) = .ok (fraction, rest) := by
  cases fraction with
  | some run =>
      have hread := readDigits_append (hfraction run rfl) hrest
      rw [fractionChars, List.cons_append, readFraction, hread]
      rfl
  | none =>
      rw [fractionChars, List.nil_append]
      unfold readFraction
      split
      · simp at hpoint
      · rfl

theorem isRun_write (n : Nat) : IsRun (Numeral.write n) :=
  ⟨Numeral.write_ne_nil n, fun _ hc => Numeral.isDigit_of_mem_write hc⟩

theorem readExponent_append {exponent : Option Int} {rest : List Char} (hrest : EndsNumber rest) :
    readExponent (powerChars exponent ++ rest) = .ok (exponent, rest) := by
  cases exponent with
  | some e =>
      have hread := readDigits_append (isRun_write e.natAbs) hrest.digits
      rw [powerChars, List.cons_append, List.cons_append]
      by_cases hneg : e < 0
      · have hvalue : -(e.natAbs : Int) = e := by omega
        rw [if_pos hneg]
        simp only [readExponent, hread, Except.map, Numeral.value_write, hvalue]
        rfl
      · have hvalue : (e.natAbs : Int) = e := by omega
        rw [if_neg hneg]
        simp only [readExponent, hread, Except.map, Numeral.value_write, hvalue]
        rfl
  | none =>
      rw [powerChars, List.nil_append]
      cases rest with
      | nil => rfl
      | cons c rest =>
          obtain ⟨hlower, hupper⟩ := hrest.power c rfl
          simp [readExponent, hlower, hupper]

/-- A number reads as its parts. -/
theorem readWritten_chars {w : Written} (hw : w.Proper) {rest : List Char}
    (hrest : EndsNumber rest) : readWritten (w.chars ++ rest) = .ok (w, rest) := by
  obtain ⟨negative, whole, fraction, exponent⟩ := w
  obtain ⟨hwhole, hleading, hfraction⟩ := hw
  simp only at hwhole hleading hfraction
  have hpower : EndsDigits (powerChars exponent ++ rest) ∧
      (powerChars exponent ++ rest).head? ≠ some '.' := by
    cases exponent with
    | some e => exact ⟨by rintro c ⟨⟩; rfl, by simp [powerChars]⟩
    | none => exact ⟨hrest.digits, hrest.point⟩
  have hpoint : EndsDigits (fractionChars fraction ++ (powerChars exponent ++ rest)) := by
    cases fraction with
    | some run => rintro c ⟨⟩; rfl
    | none => exact hpower.1
  have hparts := readWhole_append hwhole hleading hpoint
  have hnext := readFraction_append hfraction hpower.1 hpower.2
  have hlast : readExponent (powerChars exponent ++ rest) = .ok (exponent, rest) :=
    readExponent_append hrest
  cases negative with
  | true =>
      simp only [Written.chars, Written.unsigned, if_true, List.append_assoc, List.cons_append,
        List.nil_append]
      simp only [readWritten, hparts, hnext, hlast, bind, Except.bind, pure, Except.pure]
  | false =>
      obtain ⟨c, tail, rfl⟩ := List.exists_cons_of_ne_nil hwhole.ne_nil
      -- without a sign the reader has to see a digit first, which is no minus
      have hsign : c ≠ '-' := by
        rintro rfl
        exact absurd (hwhole.isDigit '-' List.mem_cons_self) (by decide)
      simp only [Written.chars, Written.unsigned, Bool.false_eq_true, if_false, List.append_assoc,
        List.cons_append, List.nil_append] at hparts ⊢
      simp only [readWritten]
      split
      · rename_i h
        exact absurd (List.cons.inj h).1 hsign
      · simp only [hparts, hnext, hlast, bind, Except.bind, pure, Except.pure]

/-! ### Decimals in their parts -/

/-- The decimal that the parts of a number make up. -/
def Written.decimal (w : Written) : Decimal :=
  Decimal.ofParts w.whole (w.fraction.getD []) (w.exponent.getD 0)

theorem IsRun.append {left right : List Char} (hleft : IsRun left)
    (hright : ∀ c ∈ right, c.isDigit = true) : IsRun (left ++ right) := by
  refine ⟨by simp [hleft.ne_nil], fun c hc => ?_⟩
  exact (List.mem_append.mp hc).elim (hleft.isDigit c) (hright c)

theorem isDigit_of_mem_zeros {n : Nat} {c : Char} (h : c ∈ List.replicate n '0') :
    c.isDigit = true := by
  rw [List.eq_of_mem_replicate h]
  rfl

theorem digits_eq_zero_of_head? {n : Nat} (h : (Numeral.write n).head? = some '0') : n = 0 := by
  by_contra hn
  obtain ⟨c, run, hrun, hc⟩ := Numeral.write_eq_cons hn
  rw [hrun, List.head?_cons, Option.some.injEq] at h
  exact hc h

section
variable {d : Decimal} (negative : Bool)

/-- All digits stand before the point, with zeros behind them. -/
theorem written_whole (hd : d.digits = 0 → d.exponent = 0) (h : 0 ≤ d.exponent) :
    let w : Written := ⟨negative, Numeral.write d.digits ++ List.replicate d.exponent.toNat '0',
      some ['0'], none⟩
    w.Proper ∧ w.decimal.toRat = d.toRat := by
  refine ⟨⟨?_, fun hzero => ?_, ?_⟩, ?_⟩
  · exact (isRun_write d.digits).append fun c hc => isDigit_of_mem_zeros hc
  · rw [List.head?_append_of_ne_nil _ (Numeral.write_ne_nil _)] at hzero
    have hdigits := digits_eq_zero_of_head? hzero
    simp only [hdigits, hd hdigits, Int.toNat_zero, List.replicate_zero, List.append_nil]
    exact Numeral.write_zero
  · rintro run ⟨⟩
    exact ⟨by simp, by simp⟩
  · have hvalue : Numeral.value
        ((Numeral.write d.digits ++ List.replicate d.exponent.toNat '0') ++ ['0']) =
          d.digits * 10 ^ d.exponent.toNat * 10 := by
      rw [Numeral.value_append, Numeral.value_append, Numeral.value_write,
        Numeral.value_replicate_zero, List.length_replicate]
      simp [Numeral.value, Numeral.digitValue]
    have hpow : (10 : ℚ) ^ d.exponent.toNat = 10 ^ d.exponent := by
      rw [← zpow_natCast, Int.toNat_of_nonneg h]
    simp only [Written.decimal, Decimal.ofParts, Option.getD_some, Option.getD_none, hvalue,
      Decimal.toRat]
    push_cast
    rw [hpow, List.length_singleton]
    norm_num
    ring

/-- The point stands among the digits. -/
theorem written_inside (hd : d.digits = 0 → d.exponent = 0) (h : d.exponent < 0)
    (hsize : 0 < d.size) :
    let w : Written := ⟨negative, (Numeral.write d.digits).take d.size.toNat,
      some ((Numeral.write d.digits).drop d.size.toNat), none⟩
    w.Proper ∧ w.decimal = d := by
  have hrun := isRun_write d.digits
  have hlt : d.size.toNat < (Numeral.write d.digits).length := by
    unfold Decimal.size at hsize ⊢
    omega
  refine ⟨⟨⟨?_, fun c hc => hrun.isDigit c (List.mem_of_mem_take hc)⟩, fun hzero => ?_, ?_⟩, ?_⟩
  · rw [← List.length_pos_iff, List.length_take]
    omega
  · rw [List.head?_take, if_neg (by omega)] at hzero
    exact absurd (hd (digits_eq_zero_of_head? hzero)) (by omega)
  · rintro run ⟨⟩
    refine ⟨?_, fun c hc => hrun.isDigit c (List.mem_of_mem_drop hc)⟩
    rw [← List.length_pos_iff, List.length_drop]
    omega
  · simp only [Written.decimal, Decimal.ofParts, Option.getD_some, Option.getD_none,
      List.take_append_drop, Numeral.value_write, List.length_drop]
    congr 1
    unfold Decimal.size at *
    omega

/-- All digits stand behind the point, with zeros before them. -/
theorem written_fraction (hsize : d.size ≤ 0) :
    let w : Written := ⟨negative, ['0'],
      some (List.replicate (-d.size).toNat '0' ++ Numeral.write d.digits), none⟩
    w.Proper ∧ w.decimal = d := by
  have hrun := isRun_write d.digits
  refine ⟨⟨⟨by simp, by simp⟩, fun _ => rfl, ?_⟩, ?_⟩
  · rintro run ⟨⟩
    refine ⟨by simp [hrun.ne_nil], fun c hc => ?_⟩
    exact (List.mem_append.mp hc).elim isDigit_of_mem_zeros (hrun.isDigit c)
  · have hvalue : Numeral.value
        (['0'] ++ (List.replicate (-d.size).toNat '0' ++ Numeral.write d.digits)) = d.digits := by
      rw [Numeral.value_append, Numeral.value_append, Numeral.value_replicate_zero,
        Numeral.value_write]
      simp [Numeral.value, Numeral.digitValue]
    simp only [Written.decimal, Decimal.ofParts, Option.getD_some, Option.getD_none, hvalue,
      List.length_append, List.length_replicate]
    congr 1
    unfold Decimal.size at *
    omega

/-- One digit stands before the point, and a power of ten behind the others. -/
theorem written_power :
    let w : Written := ⟨negative, (Numeral.write d.digits).take 1,
      if (Numeral.write d.digits).length = 1 then none else some ((Numeral.write d.digits).drop 1),
      some (d.size - 1)⟩
    w.Proper ∧ w.decimal = d := by
  have hrun := isRun_write d.digits
  have hpos := List.length_pos_iff.mpr hrun.ne_nil
  have hbehind : (if (Numeral.write d.digits).length = 1 then none
      else some ((Numeral.write d.digits).drop 1)).getD [] = (Numeral.write d.digits).drop 1 := by
    split
    · exact (List.drop_eq_nil_of_le (by omega)).symm
    · rfl
  refine ⟨⟨⟨?_, fun c hc => hrun.isDigit c (List.mem_of_mem_take hc)⟩, fun hzero => ?_, ?_⟩, ?_⟩
  · rw [← List.length_pos_iff, List.length_take]
    omega
  · obtain ⟨c, tail, hcons⟩ := List.exists_cons_of_ne_nil hrun.ne_nil
    simp only [hcons] at hzero ⊢
    simpa using hzero
  · intro run hmem
    split at hmem
    · cases hmem
    · cases hmem
      refine ⟨?_, fun c hc => hrun.isDigit c (List.mem_of_mem_drop hc)⟩
      rw [← List.length_pos_iff, List.length_drop]
      omega
  · simp only [Written.decimal, Decimal.ofParts, Option.getD_some, hbehind,
      List.take_append_drop, Numeral.value_write, List.length_drop]
    congr 1
    unfold Decimal.size at *
    omega

/-- A decimal is written in parts of its value. -/
theorem exists_written (hd : d.digits = 0 → d.exponent = 0) :
    ∃ w : Written, w.Proper ∧ w.negative = negative ∧ w.decimal.toRat = d.toRat ∧
      w.unsigned = Layout.document.decimal d := by
  by_cases hplaces : Layout.document.isPositional (d.size - 1) = true
  · rw [Layout.decimal, if_pos hplaces, Layout.positional]
    by_cases hexponent : 0 ≤ d.exponent
    · obtain ⟨hproper, hvalue⟩ := written_whole negative hd hexponent
      refine ⟨_, hproper, rfl, hvalue, ?_⟩
      rw [if_pos hexponent]
      rfl
    rw [if_neg hexponent]
    by_cases hsize : 0 < d.size
    · obtain ⟨hproper, hvalue⟩ := written_inside negative hd (not_le.mp hexponent) hsize
      refine ⟨_, hproper, rfl, congrArg Decimal.toRat hvalue, ?_⟩
      rw [if_pos hsize]
      simp [Written.unsigned, fractionChars, powerChars]
    · obtain ⟨hproper, hvalue⟩ := written_fraction negative (not_lt.mp hsize)
      refine ⟨_, hproper, rfl, congrArg Decimal.toRat hvalue, ?_⟩
      rw [if_neg hsize]
      simp [Written.unsigned, fractionChars, powerChars]
  · obtain ⟨hproper, hvalue⟩ := written_power (d := d) negative
    refine ⟨_, hproper, rfl, congrArg Decimal.toRat hvalue, ?_⟩
    rw [Layout.decimal, if_neg hplaces, Layout.scientific, Written.unsigned, List.append_assoc]
    by_cases hone : (Numeral.write d.digits).length = 1
    · simp [hone, fractionChars, powerChars]
    · simp [hone, fractionChars, powerChars]

end

/-! ### Numbers -/

theorem exponent_shortest {tie : Tie} {m : Magnitude} (h : (m.shortest tie).digits = 0) :
    (m.shortest tie).exponent = 0 := by
  rw [Magnitude.eq_zero_of_digits_shortest h, Magnitude.shortest, if_pos rfl]

/-- The text of a number begins with a sign or a digit. -/
theorem Written.Proper.chars_eq_cons {w : Written} (hw : w.Proper) :
    ∃ c s, w.chars = c :: s ∧ (c = '-' ∨ c.isDigit = true) := by
  cases hneg : w.negative with
  | true => exact ⟨'-', w.unsigned, by simp [chars, hneg], .inl rfl⟩
  | false =>
      obtain ⟨c, tail, hcons⟩ := List.exists_cons_of_ne_nil hw.whole.ne_nil
      refine ⟨c, tail ++ (fractionChars w.fraction ++ powerChars w.exponent), ?_, .inr ?_⟩
      · simp [chars, unsigned, hneg, hcons]
      · exact hw.whole.isDigit c (hcons ▸ List.mem_cons_self)

/-- A finite number is written in parts that make it up. -/
theorem exists_written_finite (negative : Bool) (m : Magnitude) : ∃ w : Written, w.Proper ∧
    w.chars = numeral (.finite negative m) ∧ w.nearest? = some (.finite negative m) := by
  obtain ⟨w, hproper, rfl, hvalue, hchars⟩ := exists_written negative (d := m.shortest .even)
    exponent_shortest
  refine ⟨w, hproper, ?_, ?_⟩
  · rw [Written.chars, hchars]
    rfl
  · have hread : w.decimal.nearest? = some m := by
      rw [Decimal.nearest?_eq, hvalue, ← Decimal.nearest?_eq, Magnitude.nearest?_shortest]
    rw [Written.nearest?, ← Written.decimal, hread]
    rfl

/-- **A number reads as the number that was written**, if it is finite. -/
theorem readNumber_numeral (v : Binary64) {gap rest : List Char} (hgap : IsGap gap)
    (hrest : EndsNumber rest) : readNumber (gap ++ (numeral v ++ rest)) =
      (outcome v.isFinite v).map (·, rest) := by
  have hnull : readNumber (gap ++ (['n', 'u', 'l', 'l'] ++ rest)) = .error noNumber := by
    rw [readNumber, skipSpace_append hgap]
    rfl
  cases v with
  | finite negative m =>
      obtain ⟨w, hproper, hchars, hnearest⟩ := exists_written_finite negative m
      obtain ⟨c, s, hcons, hc⟩ := hproper.chars_eq_cons
      have hwritten := readWritten_chars hproper hrest
      have hspace : isSpace c = false := by
        rcases hc with rfl | hdigit
        · rfl
        · exact isSpace_of_isDigit hdigit
      rw [← hchars, hcons, List.cons_append, readNumber, skipSpace_gap hgap hspace]
      rw [hcons, List.cons_append] at hwritten
      simp only
      rw [if_pos (by simpa using hc), hwritten]
      simp only [bind, Except.bind, hnearest]
      rfl
  | infinite negative => exact hnull
  | nan => exact hnull

end PieceSequencer.Json
