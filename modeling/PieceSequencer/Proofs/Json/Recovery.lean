import PieceSequencer.Proofs.Json.Layout

/-! # Values read back

`Recovers` says what a reader makes of a written value, wherever the value stands.  There is one
lemma for each kind of value: numbers and texts, arrays from their items, records from their
members.  Together they are the laws of a codec for the one of this library (`codec_laws`), which
reads every finite number as the one that was written (`codec_keeps`). -/

namespace PieceSequencer.Json

/-! ### Texts -/

/-- The two digits of a control character, and the unit that they write behind two zeros. -/
theorem unit?_of_control : ∀ n < 0x20,
    (if n < 0x10 then ['0'] else []) ++ Numeral.writeHex n =
      [Nat.digitChar (n / 16), Nat.digitChar (n % 16)] ∧
    unit? '0' '0' (Nat.digitChar (n / 16)) (Nat.digitChar (n % 16)) = some n := by
  decide

theorem readQuoted_control {c : Char} (h : c.toNat < 0x20) (s : List Char) :
    readQuoted ('\\' :: 'u' :: '0' :: '0' ::
      Nat.digitChar (c.toNat / 16) :: Nat.digitChar (c.toNat % 16) :: s) =
      prepend c (readQuoted s) := by
  have hunit := (unit?_of_control c.toNat h).2
  have htrail : isTrail c.toNat = false := by simp [isTrail]; omega
  have hlead : isLead c.toNat = false := by simp [isLead]; omega
  simp [readQuoted, hunit, htrail, hlead]

theorem readQuoted_plain {c : Char} (hquote : c ≠ '"') (hslash : c ≠ '\\')
    (hplain : ¬ c.toNat < 0x20) (s : List Char) :
    readQuoted (c :: s) = prepend c (readQuoted s) := by
  rw [readQuoted, if_neg hplain] <;> simp_all

/-- An escaped character reads as itself. -/
theorem readQuoted_escape (c : Char) (s : List Char) :
    readQuoted (escape c ++ s) = prepend c (readQuoted s) := by
  by_cases hquote : c = '"'
  · subst c; rfl
  by_cases hslash : c = '\\'
  · subst c; rfl
  rw [escape, if_neg hquote, if_neg hslash]
  -- the five control characters that have an escape of one letter
  iterate 5
    split
    · subst c; rfl
  split
  · rename_i hcontrol
    rw [List.append_assoc ['\\', 'u', '0', '0'], (unit?_of_control c.toNat hcontrol).1]
    exact readQuoted_control hcontrol s
  · rename_i hplain
    exact readQuoted_plain hquote hslash hplain s

/-- A text between its quotes reads as itself. -/
theorem readQuoted_append (t rest : List Char) :
    readQuoted (t.flatMap escape ++ '"' :: rest) = .ok (t, rest) := by
  induction t with
  | nil => rfl
  | cons c t ih => rw [List.flatMap_cons, List.append_assoc, readQuoted_escape, ih]; rfl

/-! ### Between the parts -/

theorem isGap_break (style : Style) (depth : Nat) : IsGap (style.break depth).toList := by
  cases style with
  | compact => simp [Style.break, IsGap]
  | indented =>
      rw [Style.break, String.toList_ofList]
      intro c hc
      rcases List.mem_cons.mp hc with rfl | hc
      · rfl
      · rw [List.eq_of_mem_replicate hc]
        rfl

theorem isGap_closing (style : Style) (depth : Nat) (empty : Bool) :
    IsGap (style.closing depth empty) := by
  unfold Style.closing
  split
  · exact isGap_nil
  · exact isGap_break style depth

theorem begins_of_isDigit {c : Char} (h : c.isDigit = true) : isSpace c = false ∧ c ≠ ']' := by
  refine ⟨isSpace_of_isDigit h, ?_⟩
  rintro rfl
  cases h

/-- A value begins with none of the characters that stand between items. -/
theorem chars_eq_cons (style : Style) (depth : Nat) (value : Json) :
    ∃ c s, chars style depth value = c :: s ∧ isSpace c = false ∧ c ≠ ']' := by
  cases value with
  | null => exact ⟨'n', _, rfl, rfl, by decide⟩
  | boolean value => cases value <;> exact ⟨_, _, rfl, rfl, by decide⟩
  | natural n =>
      have hrun := isRun_write n
      obtain ⟨c, s, hcons⟩ := List.exists_cons_of_ne_nil hrun.ne_nil
      exact ⟨c, s, hcons, begins_of_isDigit (hrun.isDigit c (hcons ▸ List.mem_cons_self))⟩
  | number v =>
      cases v with
      | finite negative m =>
          obtain ⟨w, hproper, hchars, -⟩ := exists_written_finite negative m
          obtain ⟨c, s, hcons, hc⟩ := hproper.chars_eq_cons
          refine ⟨c, s, hchars.symm.trans hcons, ?_⟩
          rcases hc with rfl | hdigit
          · decide
          · exact begins_of_isDigit hdigit
      | infinite negative => exact ⟨'n', _, rfl, rfl, by decide⟩
      | nan => exact ⟨'n', _, rfl, rfl, by decide⟩
  | text t => exact ⟨'"', _, rfl, rfl, by decide⟩
  | array items => exact ⟨'[', _, rfl, rfl, by decide⟩
  | object members => exact ⟨'\x7b', _, rfl, rfl, by decide⟩

theorem length_le_itemsChars (style : Style) (depth : Nat) (first : Bool) (items : List Json) :
    items.length ≤ (itemsChars style depth first items).length := by
  induction items generalizing first with
  | nil => exact Nat.zero_le _
  | cons item items ih =>
      obtain ⟨c, s, hcons, -⟩ := chars_eq_cons style depth item
      have hrest := ih false
      rw [itemsChars, hcons]
      simp only [List.length_append, List.length_cons]
      omega

theorem length_le_membersChars (style : Style) (depth : Nat) (first : Bool)
    (members : List (String × Json)) :
    members.length ≤ (membersChars style depth first members).length := by
  induction members generalizing first with
  | nil => exact Nat.zero_le _
  | cons member members ih =>
      have hrest := ih false
      rw [membersChars, quoted]
      simp only [List.length_append, List.length_cons]
      omega

theorem EndsNumber.of_cons {c : Char} (h : c.isDigit = false ∧ c ≠ '.' ∧ c ≠ 'e' ∧ c ≠ 'E')
    (s : List Char) : EndsNumber (c :: s) := by
  refine ⟨?_, by simpa using h.2.1, ?_⟩
  · rintro _ ⟨⟩
    exact h.1
  · rintro _ ⟨⟩
    exact h.2.2

theorem EndsNumber.of_gap {gap s : List Char} (hgap : IsGap gap) (h : EndsNumber s) :
    EndsNumber (gap ++ s) := by
  cases gap with
  | nil => exact h
  | cons c gap =>
      have hspace := hgap c List.mem_cons_self
      simp only [isSpace, Bool.or_eq_true, decide_eq_true_eq] at hspace
      rcases hspace with ((rfl | rfl) | rfl) | rfl <;> exact .of_cons (by decide) _

/-! ### Recovery -/

/-- Wherever the value stands, this is what the reader makes of it. -/
def Recovers {α : Type} (reader : Reader α) (value : Json) (result : Except Fault α) : Prop :=
  ∀ (style : Style) (depth : Nat) (gap after : List Char), IsGap gap → EndsNumber after →
    reader (gap ++ (value.chars style depth ++ after)) = result.map (·, after)

theorem recovers_number (v : Binary64) :
    Recovers readNumber (.number v) (outcome v.isFinite v) := by
  intro style depth gap after hgap hafter
  rw [chars]
  exact readNumber_numeral v hgap hafter

theorem recovers_character (c : Char) : Recovers readCharacter (.text c.toString) (.ok c) := by
  intro style depth gap after hgap hafter
  have hquoted := readQuoted_append [c] after
  have htext : quoted c.toString ++ after = '"' :: ([c].flatMap escape ++ '"' :: after) := by
    simp [quoted]
  rw [chars, htext, readCharacter, skipSpace_gap hgap rfl]
  simp only [hquoted, bind, Except.bind]
  rfl

/-- A record that is there reads as something that is there. -/
theorem recovers_optional {α : Type} {reader : Reader α} {members : List (String × Json)}
    {result : Except Fault α} (h : Recovers reader (.object members) result) :
    Recovers (readOptional reader) (.object members) (result.map some) := by
  intro style depth gap after hgap hafter
  have hread := h style depth [] after isGap_nil hafter
  rw [List.nil_append, chars, List.cons_append] at hread
  rw [chars, List.cons_append, readOptional, skipSpace_gap hgap rfl]
  split
  · rename_i hnull
    exact absurd (List.cons.inj hnull).1 (by decide)
  · simp only [hread, bind, Except.bind]
    cases result <;> rfl

/-! ### Arrays -/

section
variable {gap after : List Char} (hgap : IsGap gap)
include hgap

theorem nextItem_close (first : Bool) : nextItem first (gap ++ ']' :: after) = .ok none := by
  rw [nextItem, skipSpace_gap hgap rfl]
  rfl

theorem closeArray_close : closeArray (gap ++ ']' :: after) = .ok after := by
  rw [closeArray, skipSpace_gap hgap rfl]
  rfl

theorem nextItem_item (first : Bool) {c : Char} (hspace : isSpace c = false) (hclose : c ≠ ']')
    (s : List Char) :
    nextItem first ((comma first).toList ++ (gap ++ c :: s)) = .ok (some (c :: s)) := by
  cases first with
  | true =>
      have htext : (comma true).toList ++ (gap ++ c :: s) = gap ++ c :: s := rfl
      rw [htext, nextItem, skipSpace_gap hgap hspace]
      simp
  | false =>
      have htext : (comma false).toList ++ (gap ++ c :: s) = ',' :: (gap ++ c :: s) := rfl
      rw [htext, nextItem, skipSpace_cons rfl]
      simp [skipSpace_gap hgap hspace, hclose]

end

theorem endsNumber_itemsChars {style : Style} {depth : Nat} {items : List Json} {s : List Char}
    (h : EndsNumber s) : EndsNumber (itemsChars style depth false items ++ s) := by
  cases items with
  | nil => exact h
  | cons item items => exact @EndsNumber.of_cons ',' (by decide) _

/-- One item of an array, and then the others. -/
theorem readItems_item {β : Type} {item : Nat → Reader β} {index : Nat} {value : Json}
    {result : Except Fault β} (h : Recovers (item index) value result) (style : Style)
    (depth : Nat) {rest : List Char} (hrest : EndsNumber rest) (fuel : Nat) :
    readItems item (fuel + 1) index ((comma (index == 0)).toList ++
        ((style.break depth).toList ++ (chars style depth value ++ rest))) =
      result >>= fun b =>
        (readItems item fuel (index + 1) rest).map fun (bs, s) => (b :: bs, s) := by
  obtain ⟨c, s, hcons, hspace, hclose⟩ := chars_eq_cons style depth value
  have hitem := h style depth [] rest isGap_nil hrest
  have hnext := nextItem_item (isGap_break style depth) (index == 0) hspace hclose (s ++ rest)
  rw [hcons, List.nil_append, List.cons_append] at hitem
  rw [hcons, List.cons_append, readItems, hnext]
  simp only [bind, Except.bind, hitem]
  cases result with
  | error e => rfl
  | ok b =>
      simp only [Except.map]
      cases readItems item fuel (index + 1) rest <;> rfl

/-- The items of an array up to its closing bracket. -/
theorem readItems_itemsChars {β : Type} {item : Nat → Reader β} {limit : Nat} {values : List Json}
    {results : List (Except Fault β)}
    (h : List.Forall₂ (fun value result => ∀ i < limit, Recovers (item i) value result)
      values results)
    (style : Style) (depth : Nat) {gap : List Char} (hgap : IsGap gap) (after : List Char)
    (index fuel : Nat) (hlimit : index + values.length ≤ limit) (hfuel : values.length < fuel) :
    readItems item fuel index
        (itemsChars style depth (index == 0) values ++ (gap ++ ']' :: after)) =
      (results.mapM id).map (·, after) := by
  induction h generalizing index fuel with
  | nil =>
      obtain ⟨fuel, rfl⟩ := Nat.exists_eq_add_of_lt hfuel
      rw [itemsChars, List.nil_append, readItems, nextItem_close hgap]
      simp only [bind, Except.bind, closeArray_close hgap]
      rfl
  | @cons value result values results hvalue _ ih =>
      obtain ⟨fuel, rfl⟩ : ∃ rest, fuel = rest + 1 := ⟨fuel - 1, by omega⟩
      rw [List.length_cons] at hlimit hfuel
      have hothers := ih (index + 1) fuel (by omega) (Nat.lt_of_succ_lt_succ hfuel)
      -- a comma or the closing bracket ends the item, even if it is a number
      have hend : EndsNumber (itemsChars style depth false values ++ (gap ++ ']' :: after)) :=
        endsNumber_itemsChars (.of_gap hgap (.of_cons (by decide) after))
      rw [show (index + 1 == 0) = false from rfl] at hothers
      rw [itemsChars]
      simp only [List.append_assoc]
      rw [readItems_item (hvalue index (by omega)) style depth hend, hothers, List.mapM_cons]
      cases result with
      | error e => rfl
      | ok b => cases results.mapM id <;> rfl

/-- An array reads as its items. -/
theorem recovers_array {β : Type} (wanted : String) {item : Nat → Reader β} {values : List Json}
    {results : List (Except Fault β)}
    (h : List.Forall₂ (fun value result => ∀ i < values.length, Recovers (item i) value result)
      values results) :
    Recovers (readArray wanted item) (.array values) (results.mapM id) := by
  intro style depth gap after hgap hafter
  have hlength := length_le_itemsChars style (depth + 1) true values
  rw [chars, List.cons_append, readArray, skipSpace_gap hgap rfl]
  simp only [List.append_assoc, List.cons_append, List.nil_append]
  refine readItems_itemsChars h style (depth + 1) (isGap_closing style depth values.isEmpty) after
    0 _ (Nat.zero_add _).le ?_
  simp only [List.length_append]
  omega

theorem recovers_within {β : Type} {capacity index : Nat} {item : Reader β} {value : Json}
    {result : Except Fault β} (h : Recovers item value result) (hindex : index < capacity) :
    Recovers (readWithin capacity item index) value result := by
  intro style depth gap after hgap hafter
  have hread := h style depth gap after hgap hafter
  simp only [readWithin, hread, bind, Except.bind, if_pos hindex]
  cases result <;> rfl

/-- An array of bounded length reads as its items, if there is room for them. -/
theorem recovers_bounded {β : Type} {capacity : Nat} {item : Reader β} {values : List Json}
    {results : List (Except Fault β)} (hroom : values.length ≤ capacity)
    (h : List.Forall₂ (Recovers item) values results) :
    ∃ result, result.map Subtype.val = results.mapM id ∧
      Recovers (readBounded capacity item) (.array values) result := by
  have hitems : List.Forall₂ (fun value result =>
      ∀ i < values.length, Recovers (readWithin capacity item i) value result) values results :=
    h.imp fun value result hvalue i hi => recovers_within hvalue (hi.trans_le hroom)
  have harray := recovers_array (boundedTitle capacity) hitems
  cases hresults : results.mapM id with
  | error e =>
      refine ⟨.error e, rfl, ?_⟩
      intro style depth gap after hgap hafter
      have hread := harray style depth gap after hgap hafter
      simp only [readBounded, hread, hresults, bind, Except.bind, Except.map]
  | ok items =>
      have hlength : items.length ≤ capacity := by
        rw [← (mapM_eq_ok_iff.mp hresults).length_eq, ← h.length_eq]
        exact hroom
      refine ⟨.ok ⟨items, hlength⟩, rfl, ?_⟩
      intro style depth gap after hgap hafter
      have hread := harray style depth gap after hgap hafter
      simp only [readBounded, hread, hresults, bind, Except.bind, Except.map, dif_pos hlength]
      rfl

/-! ### Records -/

section
variable {gap after : List Char} (hgap : IsGap gap)
include hgap

theorem nextName_close (first : Bool) : nextName first (gap ++ '\x7d' :: after) = .ok none := by
  rw [nextName, skipSpace_gap hgap rfl]
  rfl

theorem closeObject_close : closeObject (gap ++ '\x7d' :: after) = .ok after := by
  rw [closeObject, skipSpace_gap hgap rfl]
  rfl

theorem nextName_member (first : Bool) (s : List Char) :
    nextName first ((comma first).toList ++ (gap ++ '"' :: s)) = .ok (some s) := by
  cases first with
  | true =>
      have htext : (comma true).toList ++ (gap ++ '"' :: s) = gap ++ '"' :: s := rfl
      rw [htext, nextName, skipSpace_gap hgap rfl]
      simp
  | false =>
      have htext : (comma false).toList ++ (gap ++ '"' :: s) = ',' :: (gap ++ '"' :: s) := rfl
      have hskip : skipSpace (gap ++ '"' :: s) = '"' :: s := skipSpace_gap hgap rfl s
      rw [htext, nextName, skipSpace_cons rfl]
      simp [hskip]

end

theorem endsNumber_membersChars {style : Style} {depth : Nat} {members : List (String × Json)}
    {s : List Char} (h : EndsNumber s) :
    EndsNumber (membersChars style depth false members ++ s) := by
  cases members with
  | nil => exact h
  | cons member members => exact @EndsNumber.of_cons ',' (by decide) _

/-- What follows a colon is a value behind a gap. -/
theorem readColon_colon (style : Style) : ∃ gap, IsGap gap ∧
    ∀ s, readColon (style.colon.toList ++ s) = .ok (gap ++ s) := by
  cases style with
  | compact => exact ⟨[], isGap_nil, fun s => rfl⟩
  | indented => exact ⟨[' '], by simp [IsGap, isSpace], fun s => rfl⟩

namespace Form
variable {δ α : Type}

/-- One member of a record, and then the others. -/
theorem readMembers_member {form : Form Reader δ α} {draft : δ} {name : String} {value : Json}
    {field : Field Reader δ} {result : Except Fault field.β}
    (hfind : form.fields.find? (·.name = name) = some field) (hnew : field.isRead draft = false)
    (h : Recovers field.value value result) (style : Style) (depth : Nat) {rest : List Char}
    (hrest : EndsNumber rest) (first : Bool) (fuel : Nat) :
    form.readMembers (fuel + 1) first draft ((comma first).toList ++ ((style.break depth).toList ++
        (quoted name ++ (style.colon.toList ++ (chars style depth value ++ rest))))) =
      result >>= fun b => form.readMembers fuel false (field.set draft b) rest := by
  obtain ⟨gap, hgap, hcolon⟩ := readColon_colon style
  have hread := h style depth gap rest hgap hrest
  rw [quoted]
  simp only [List.append_assoc, List.cons_append, List.nil_append]
  rw [readMembers, nextName_member (isGap_break style depth)]
  simp only [bind, Except.bind, readQuoted_append, String.ofList_toList, hfind, hnew, hcolon,
    Field.read, hread]
  cases result <;> rfl

/-- The members of a record up to its closing brace. -/
theorem readMembers_membersChars {form : Form Reader δ α} {draft : δ}
    {members : List (String × Json)} {result : Except Fault δ}
    (h : form.Takes Recovers draft members result) (style : Style) (depth : Nat) {gap : List Char}
    (hgap : IsGap gap) (after : List Char) (first : Bool) (fuel : Nat)
    (hfuel : members.length < fuel) :
    form.readMembers fuel first draft
        (membersChars style depth first members ++ (gap ++ '\x7d' :: after)) =
      result.map (·, after) := by
  have hend : ∀ members, EndsNumber
      (membersChars style depth false members ++ (gap ++ '\x7d' :: after)) :=
    fun _ => endsNumber_membersChars (.of_gap hgap (.of_cons (by decide) after))
  induction h generalizing first fuel with
  | nil draft =>
      obtain ⟨fuel, rfl⟩ := Nat.exists_eq_add_of_lt hfuel
      rw [membersChars, List.nil_append, readMembers, nextName_close hgap]
      simp only [bind, Except.bind, closeObject_close hgap]
      rfl
  | @cons draft name value members field b result hfind hnew hvalue _ ih =>
      obtain ⟨fuel, rfl⟩ : ∃ rest, fuel = rest + 1 := ⟨fuel - 1, by omega⟩
      have hothers := ih false fuel (Nat.lt_of_succ_lt_succ hfuel)
      rw [membersChars]
      simp only [List.append_assoc]
      rw [readMembers_member hfind hnew hvalue style depth (hend members)]
      exact hothers
  | @fault draft name value members field e hfind hnew hvalue =>
      obtain ⟨fuel, rfl⟩ : ∃ rest, fuel = rest + 1 := ⟨fuel - 1, by omega⟩
      rw [membersChars]
      simp only [List.append_assoc]
      rw [readMembers_member hfind hnew hvalue style depth (hend members)]
      rfl

/-- A record reads as the one of the draft that its members lead to. -/
theorem recovers_object {form : Form Reader δ α} {members : List (String × Json)}
    {result : Except Fault δ} (h : form.Takes Recovers form.start members result) :
    Recovers form.read (.object members) (result >>= form.complete) := by
  intro style depth gap after hgap hafter
  have hlength := length_le_membersChars style (depth + 1) true members
  have hread := readMembers_membersChars h style (depth + 1)
    (isGap_closing style depth members.isEmpty) after true
  rw [chars, List.cons_append, read, skipSpace_gap hgap rfl]
  simp only [List.append_assoc, List.cons_append, List.nil_append]
  rw [hread _ (by simp only [List.length_append]; omega)]
  cases result with
  | error e => rfl
  | ok draft =>
      simp only [Except.map, bind, Except.bind]
      cases form.complete draft <;> rfl

end Form

/-! ### The codec -/

/-- A document reads as its one value. -/
theorem readDocument_indented {α : Type} {reader : Reader α} {value : Json}
    {result : Except Fault α} (h : Recovers reader value result) :
    readDocument reader value.indented = result := by
  have hend : EndsNumber [] := ⟨by rintro _ ⟨⟩, by simp, by rintro _ ⟨⟩⟩
  have hread := h .indented 0 [] [] isGap_nil hend
  rw [List.nil_append, List.append_nil, ← toList_indented] at hread
  simp only [readDocument, hread, bind, Except.bind]
  cases result <;> rfl

theorem codec_read_outcome (v : Binary64) :
    codec.read codec.number (codec.indented (.number v)) = outcome v.isFinite v :=
  readDocument_indented (recovers_number v)

/-- **The codec of this library obeys the laws.** -/
theorem codec_laws : codec.Laws Recovers where
  number v := by
    rw [codec_read_outcome]
    exact recovers_number v
  null v hv := by
    cases v with
    | finite negative m => cases hv
    | infinite negative => rfl
    | nan => rfl
  number_null := codec_read_outcome .nan
  character := recovers_character
  optional := recovers_optional
  array h := recovers_array "a sequence" (h.imp fun _ _ hvalue _ _ => hvalue)
  bounded := recovers_bounded
  record := Form.recovers_object
  document := readDocument_indented

/-- Every finite number comes back. -/
theorem codec_keeps (v : Binary64) : codec.Keeps v :=
  fun h => (codec_read_outcome v).trans (if_pos h)

end PieceSequencer.Json
