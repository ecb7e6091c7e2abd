import Mathlib.Data.List.Chain
import PieceSequencer.Piece.Key
import PieceSequencer.Proofs.Pattern.Words

/-! # Scanning written tokens

Tokens written one behind the other, with blank characters anywhere, are scanned as they were, if
no two numbers are adjacent (`NumbersApart`) and the keys are allowed ones from the given list
(`scan_eq_ok`).  The text is split into one word for each token (`splits_of_chars`): a number is
not extended by what is written behind it because that does not begin with a digit. -/

namespace PieceSequencer

/-! ### Written tokens -/

namespace Token

/-- Whether a token is a number. -/
def isNumber : Token → Bool
  | .number _ => true
  | _ => false

/-- No two numbers are adjacent. -/
def NumbersApart (tokens : List Token) : Prop :=
  tokens.IsChain fun a b => a.isNumber = false ∨ b.isNumber = false

/-- A token whose key, if it has one, is among the given keys and allowed. -/
def Known (keys : List Char) : Token → Prop
  | .key k => k ∈ keys ∧ isAllowedKey k = true
  | _ => True

theorem chars_ne_nil (token : Token) : token.chars ≠ [] := by
  cases token with
  | number n => exact Numeral.write_ne_nil n.toNat
  | key k => exact List.cons_ne_nil _ _
  | symbol s => exact List.cons_ne_nil _ _

end Token

theorem Symbol.isDigit_char (s : Symbol) : s.char.isDigit = false := by cases s <;> rfl

theorem Symbol.isGraphic_char (s : Symbol) : isGraphic s.char = true := by cases s <;> rfl

theorem isDigit_of_isAllowedKey {k : Char} (h : isAllowedKey k = true) : k.isDigit = false := by
  simp only [isAllowedKey, Bool.and_eq_true, Bool.not_eq_true'] at h
  exact h.1.2

theorem isGraphic_of_isAllowedKey {k : Char} (h : isAllowedKey k = true) : isGraphic k = true := by
  simp only [isAllowedKey, Bool.and_eq_true] at h
  exact h.1.1

theorem ofChar?_of_isAllowedKey {k : Char} (h : isAllowedKey k = true) :
    Symbol.ofChar? k = none := by
  simp only [isAllowedKey, Bool.and_eq_true, Bool.not_eq_true'] at h
  cases hs : Symbol.ofChar? k with
  | none => rfl
  | some s =>
      rw [← Symbol.char_of_ofChar? hs] at h
      cases s <;> exact absurd h.2 (by decide)

theorem isGraphic_of_isDigit {c : Char} (h : c.isDigit = true) : isGraphic c = true := by
  simp only [Char.isDigit, Bool.and_eq_true, decide_eq_true_eq, ge_iff_le,
    UInt32.le_iff_toNat_le] at h
  have hlow : 48 ≤ c.toNat := h.1
  have hhigh : c.toNat ≤ 57 := h.2
  simp only [isGraphic, Bool.and_eq_true, decide_eq_true_eq]
  omega

theorem isBlank_of_isGraphic {c : Char} (h : isGraphic c = true) : Text.isBlank c = false := by
  simp only [isGraphic, Bool.and_eq_true, decide_eq_true_eq] at h
  exact Text.isBlank_eq_false_of_graphic h.1 h.2

/-- Nothing that a token is written with is blank. -/
theorem Token.isBlank_of_mem_chars {keys : List Char} {token : Token} (h : token.Known keys)
    {c : Char} (hc : c ∈ token.chars) : Text.isBlank c = false := by
  apply isBlank_of_isGraphic
  cases token with
  | number n => exact isGraphic_of_isDigit (Numeral.isDigit_of_mem_write hc)
  | key k =>
      obtain rfl : c = k := List.mem_singleton.mp hc
      exact isGraphic_of_isAllowedKey h.2
  | symbol s =>
      obtain rfl : c = s.char := List.mem_singleton.mp hc
      exact s.isGraphic_char

/-! ### Scanning -/

namespace Token

variable {keys : List Char}

/-- Written tokens begin with a digit only if the first token is a number. -/
theorem isDigit_head_of_chars {tokens : List Token} {marks : List (Char × Nat)}
    (hk : ∀ t ∈ tokens, t.Known keys) (hm : marks.map Prod.fst = tokens.flatMap chars)
    (hhead : ∀ t ∈ tokens.head?, t.isNumber = false) :
    ∀ m ∈ marks.head?, m.1.isDigit = false := by
  cases tokens with
  | nil =>
      obtain rfl : marks = [] := List.map_eq_nil_iff.mp hm
      simp
  | cons token tokens =>
      have hfirst : marks.head?.map Prod.fst = token.chars.head? := by
        obtain ⟨c, cs, hcs⟩ := List.exists_cons_of_ne_nil token.chars_ne_nil
        rw [← List.head?_map, hm, List.flatMap_cons, hcs]
        rfl
      intro m hmark
      rw [Option.mem_def.mp hmark] at hfirst
      have hnumber := hhead token rfl
      have hknown := hk token List.mem_cons_self
      cases token with
      | number n => cases hnumber
      | key k =>
          obtain rfl : m.1 = k := Option.some.inj hfirst
          exact isDigit_of_isAllowedKey hknown.2
      | symbol s =>
          rw [show m.1 = s.char from Option.some.inj hfirst]
          exact s.isDigit_char

/-- The words of written tokens stand for these tokens. -/
theorem splits_of_chars {tokens : List Token} {marks : List (Char × Nat)}
    (ha : NumbersApart tokens) (hk : ∀ t ∈ tokens, t.Known keys)
    (hm : marks.map Prod.fst = tokens.flatMap chars) :
    ∃ words, Word.Splits marks words ∧ List.Forall₂ (Word.StandsFor keys) words tokens := by
  induction tokens generalizing marks with
  | nil =>
      obtain rfl : marks = [] := List.map_eq_nil_iff.mp hm
      exact ⟨[], .nil, .nil⟩
  | cons token tokens ih =>
      obtain ⟨hhead, ha⟩ := List.isChain_cons.mp ha
      obtain ⟨hknown, hknowns⟩ := List.forall_mem_cons.mp hk
      rw [List.flatMap_cons, List.map_eq_append_iff] at hm
      obtain ⟨front, back, rfl, hfront, hback⟩ := hm
      obtain ⟨words, hsplits, hwords⟩ := ih ha hknowns hback
      cases token with
      | number n =>
          obtain ⟨mark, run, rfl⟩ : ∃ mark run, front = mark :: run :=
            List.exists_cons_of_ne_nil fun hnil => by
              rw [hnil] at hfront
              exact chars_ne_nil (.number n) hfront.symm
          have hchars : (mark :: run).map Prod.fst = Numeral.write n.toNat := hfront
          have hdigit : ∀ m ∈ mark :: run, m.1.isDigit = true := by
            intro m hmem
            have hwritten : m.1 ∈ Numeral.write n.toNat := hchars ▸ List.mem_map_of_mem hmem
            exact Numeral.isDigit_of_mem_write hwritten
          have hnext : ∀ m ∈ back.head?, m.1.isDigit = false :=
            isDigit_head_of_chars hknowns hback fun t ht =>
              (hhead t ht).resolve_left Bool.noConfusion
          have hvalue : Numeral.value ((mark :: run).map Prod.fst) = n.toNat := by
            rw [hchars, Numeral.value_write]
          exact ⟨_, .digits hdigit hnext hsplits, .cons (.number _ hvalue) hwords⟩
      | key k =>
          obtain ⟨mark, rfl, rfl⟩ := List.map_eq_singleton_iff.mp hfront
          have hother : ∀ s : Symbol, s.char ≠ mark.1 :=
            Word.ofChar?_eq_none_iff.mp (ofChar?_of_isAllowedKey hknown.2)
          exact ⟨_, .single (isDigit_of_isAllowedKey hknown.2) hsplits,
            .cons (.key _ hother hknown.1) hwords⟩
      | symbol s =>
          obtain ⟨mark, rfl, hmark⟩ := List.map_eq_singleton_iff.mp hfront
          have hdigit : mark.1.isDigit = false := hmark ▸ s.isDigit_char
          exact ⟨_, .single hdigit hsplits, .cons (.symbol _ hmark.symm) hwords⟩

/-- Written tokens are scanned as they were, with blank characters anywhere. -/
theorem scan_eq_ok {tokens : List Token} {text : String} (ha : NumbersApart tokens)
    (hk : ∀ t ∈ tokens, t.Known keys)
    (ht : text.toList.filter (fun c => !Text.isBlank c) = tokens.flatMap chars) :
    scan keys text = .ok tokens := by
  obtain ⟨words, hsplits, hwords⟩ := splits_of_chars ha hk ((Word.map_fst_marks _).trans ht)
  exact scan_eq_ok_of_splits hsplits hwords

theorem filter_isBlank_chars {token : Token} (h : token.Known keys) :
    (token.chars.filter fun c => !Text.isBlank c) = token.chars := by
  rw [List.filter_eq_self]
  intro c hc
  rw [isBlank_of_mem_chars h hc]
  rfl

/-- Tokens written one behind the other are scanned as they were. -/
theorem scan_chars {tokens : List Token} (ha : NumbersApart tokens)
    (hk : ∀ t ∈ tokens, t.Known keys) :
    scan keys (String.ofList (tokens.flatMap chars)) = .ok tokens := by
  refine scan_eq_ok ha hk ?_
  rw [String.toList_ofList, List.filter_flatMap]
  exact List.flatMap_congr fun t ht => filter_isBlank_chars (hk t ht)

theorem mem_keys_of_standsFor {words : List Word} {tokens : List Token}
    (h : List.Forall₂ (Word.StandsFor keys) words tokens) {k : Char} (hk : .key k ∈ tokens) :
    k ∈ keys := by
  induction h with
  | nil => cases hk
  | cons hword _ ih =>
      rcases List.mem_cons.mp hk with rfl | hk
      · cases hword with
        | key _ _ hmem => exact hmem
      · exact ih hk

/-- Every key that is scanned is one of the given keys. -/
theorem mem_keys_of_scan {text : String} {tokens : List Token} (h : scan keys text = .ok tokens)
    {k : Char} (hk : .key k ∈ tokens) : k ∈ keys :=
  mem_keys_of_standsFor (scan_eq_ok_iff.mp h) hk

end Token

end PieceSequencer
