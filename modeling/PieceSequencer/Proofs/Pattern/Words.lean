import PieceSequencer.Pattern.Scanner
import PieceSequencer.Proofs.FirstFault

/-! # The words of a text

`Word.ofText` puts words together from the right, one character at a time.  Read from the left,
they are the characters that are no digits and the maximal runs of digits, blank characters apart
(`Word.Splits`), and nothing else is (`splits_iff`).  A word stands for a token (`StandsFor`) or
has a fault (`HasFault`), and scanning takes the words from the left, so it gives their tokens or
the leftmost fault (`scan_exact`). -/

namespace PieceSequencer
namespace Word

/-! ### Single words -/

/-- Whether some words begin with a run of digits. -/
def beginsWithDigit : List Word → Bool
  | .digits .. :: _ => true
  | _ => false

theorem beginsWithDigit_cons (mark : Char × Nat) (words : List Word) :
    beginsWithDigit (cons mark words) = mark.1.isDigit := by
  unfold cons
  by_cases h : mark.1.isDigit = true
  · rw [if_pos h, h]
    split <;> rfl
  · rw [if_neg h]
    exact (Bool.eq_false_iff.mpr h).symm

theorem cons_of_not_isDigit {mark : Char × Nat} (h : mark.1.isDigit = false) (words : List Word) :
    cons mark words = .single mark.1 mark.2 :: words := by
  simp [cons, h]

/-- A run of digits in front of words that begin otherwise is a word of its own. -/
theorem foldr_cons_digits {mark : Char × Nat} {run : List (Char × Nat)} {words : List Word}
    (hrun : ∀ m ∈ mark :: run, m.1.isDigit = true) (hw : beginsWithDigit words = false) :
    (mark :: run).foldr cons words = .digits ((mark :: run).map Prod.fst) mark.2 :: words := by
  induction run generalizing mark with
  | nil =>
      have hm : mark.1.isDigit = true := hrun mark (List.mem_singleton_self _)
      simp only [List.foldr_cons, List.foldr_nil, cons, hm, if_pos]
      split
      · simp [beginsWithDigit] at hw
      · rfl
  | cons next run ih =>
      have hm : mark.1.isDigit = true := hrun mark List.mem_cons_self
      rw [List.foldr_cons, ih fun m hmem => hrun m (List.mem_cons_of_mem _ hmem)]
      simp [cons, hm]

/-! ### Marks -/

theorem map_fst_filter_zipIdx (text : List Char) (start : Nat) :
    ((text.zipIdx start).filter fun mark => !Text.isBlank mark.1).map Prod.fst =
      text.filter fun c => !Text.isBlank c := by
  induction text generalizing start with
  | nil => rfl
  | cons c text ih =>
      rw [List.zipIdx_cons, List.filter_cons, List.filter_cons]
      by_cases h : (!Text.isBlank c) = true
      · rw [if_pos h, if_pos h, List.map_cons, ih]
      · rw [if_neg h, if_neg h, ih]

theorem map_fst_marks (text : List Char) :
    (marks text).map Prod.fst = text.filter fun c => !Text.isBlank c :=
  map_fst_filter_zipIdx text 0

/-- A mark is a character of the text at its place. -/
theorem getElem?_of_mem_marks {text : List Char} {mark : Char × Nat} (h : mark ∈ marks text) :
    text[mark.2]? = some mark.1 :=
  List.mem_zipIdx_iff_getElem?.mp (List.mem_of_mem_filter h)

theorem pairwise_marks (text : List Char) :
    (marks text).Pairwise fun m m' => m.2 < m'.2 := by
  have hplaces : (text.zipIdx.map Prod.snd).Pairwise (· < ·) := by
    rw [List.zipIdx_map_snd]
    exact List.pairwise_lt_range'
  exact (List.pairwise_map.mp hplaces).filter _

/-! ### Words from the left -/

/-- The marked characters are split into characters that are no digits and runs of digits, each run
as long as it can be. -/
inductive Splits : List (Char × Nat) → List Word → Prop where
  | nil : Splits [] []
  | single {mark : Char × Nat} {marks : List (Char × Nat)} {words : List Word} :
    mark.1.isDigit = false → Splits marks words →
    Splits (mark :: marks) (.single mark.1 mark.2 :: words)
  | digits {mark : Char × Nat} {run marks : List (Char × Nat)} {words : List Word} :
    (∀ m ∈ mark :: run, m.1.isDigit = true) → (∀ m ∈ marks.head?, m.1.isDigit = false) →
    Splits marks words →
    Splits (mark :: run ++ marks) (.digits ((mark :: run).map Prod.fst) mark.2 :: words)

theorem splits_foldr (marks : List (Char × Nat)) : Splits marks (marks.foldr cons []) := by
  induction marks with
  | nil => exact .nil
  | cons mark marks ih =>
      rw [List.foldr_cons]
      by_cases hdigit : mark.1.isDigit = true
      · generalize marks.foldr cons [] = words at ih
        have hmark : ∀ m ∈ [mark], m.1.isDigit = true := by simpa using hdigit
        have hcons : cons mark words = _ := if_pos hdigit
        rw [hcons]
        -- A digit makes a run of its own unless a run follows, which it then extends.
        cases ih with
        | nil => exact @Splits.digits mark [] [] [] hmark (by simp) .nil
        | single hnext hrest =>
            exact @Splits.digits mark [] _ _ hmark (by simpa using hnext) (.single hnext hrest)
        | digits hrun hhead hrest =>
            exact .digits (List.forall_mem_cons.mpr ⟨hdigit, hrun⟩) hhead hrest
      · have hother : mark.1.isDigit = false := by simpa using hdigit
        rw [cons_of_not_isDigit hother]
        exact .single hother ih

theorem Splits.eq_foldr {marks : List (Char × Nat)} {words : List Word} (h : Splits marks words) :
    words = marks.foldr cons [] := by
  induction h with
  | nil => rfl
  | single hother _ ih => rw [List.foldr_cons, cons_of_not_isDigit hother, ← ih]
  | @digits mark run marks words hrun hhead _ ih =>
      have hwords : beginsWithDigit (marks.foldr cons []) = false := by
        cases marks with
        | nil => rfl
        | cons next marks =>
            rw [List.foldr_cons, beginsWithDigit_cons]
            exact hhead next rfl
      rw [List.foldr_append, foldr_cons_digits hrun hwords, ← ih]

/-- There is one way to split a text, and its words are that. -/
theorem splits_iff {marks : List (Char × Nat)} {words : List Word} :
    Splits marks words ↔ words = marks.foldr cons [] :=
  ⟨Splits.eq_foldr, fun h => h ▸ splits_foldr marks⟩

/-! ### Places -/

/-- The place of the first character of a word. -/
def position : Word → Nat
  | .single _ position => position
  | .digits _ position => position

/-- The characters of a word. -/
def characters : Word → List Char
  | .single c _ => [c]
  | .digits run _ => run

/-- A word stands where its first character does. -/
theorem Splits.exists_mark {marks : List (Char × Nat)} {words : List Word}
    (h : Splits marks words) :
    ∀ word ∈ words, ∃ m ∈ marks, word.position = m.2 ∧ word.characters.head? = some m.1 := by
  induction h with
  | nil => simp
  | @single mark marks words _ _ ih =>
      refine List.forall_mem_cons.mpr ⟨⟨mark, List.mem_cons_self, rfl, rfl⟩, fun word hword => ?_⟩
      obtain ⟨m, hm, hplace⟩ := ih word hword
      exact ⟨m, List.mem_cons_of_mem _ hm, hplace⟩
  | @digits mark run marks words _ _ _ ih =>
      refine List.forall_mem_cons.mpr ⟨⟨mark, List.mem_cons_self, rfl, rfl⟩, fun word hword => ?_⟩
      obtain ⟨m, hm, hplace⟩ := ih word hword
      exact ⟨m, List.mem_append_right _ hm, hplace⟩

theorem Splits.pairwise_position {marks : List (Char × Nat)} {words : List Word}
    (h : Splits marks words) (hmarks : marks.Pairwise fun m m' => m.2 < m'.2) :
    words.Pairwise fun word word' => word.position < word'.position := by
  induction h with
  | nil => exact .nil
  | single _ hrest ih =>
      obtain ⟨hfirst, hmarks⟩ := List.pairwise_cons.mp hmarks
      refine List.pairwise_cons.mpr ⟨fun word hword => ?_, ih hmarks⟩
      obtain ⟨m, hm, hplace, -⟩ := hrest.exists_mark word hword
      rw [hplace]
      exact hfirst m hm
  | digits _ _ hrest ih =>
      obtain ⟨-, hmarks, hfirst⟩ := List.pairwise_append.mp hmarks
      refine List.pairwise_cons.mpr ⟨fun word hword => ?_, ih hmarks⟩
      obtain ⟨m, hm, hplace, -⟩ := hrest.exists_mark word hword
      rw [hplace]
      exact hfirst _ List.mem_cons_self m hm

/-! ### Tokens -/

variable {keys : List Char}

/-- The token of a word: a symbol, even if it is among the keys too, a key, or the value of a
run. -/
inductive StandsFor (keys : List Char) : Word → Token → Prop where
  | symbol {c : Char} {s : Symbol} (position : Nat) :
    s.char = c → StandsFor keys (.single c position) (.symbol s)
  | key {c : Char} (position : Nat) :
    (∀ s : Symbol, s.char ≠ c) → c ∈ keys → StandsFor keys (.single c position) (.key c)
  | number {run : List Char} {n : UInt32} (position : Nat) :
    Numeral.value run = n.toNat → StandsFor keys (.digits run position) (.number n)

/-- The fault of a word that stands for no token. -/
inductive HasFault (keys : List Char) : Word → ScanError → Prop where
  | character {c : Char} (position : Nat) :
    (∀ s : Symbol, s.char ≠ c) → c ∉ keys →
    HasFault keys (.single c position) (.unexpectedCharacter c position)
  | number {run : List Char} (position : Nat) :
    UInt32.size ≤ Numeral.value run →
    HasFault keys (.digits run position) (.numberOverflow (String.ofList run) position)

theorem ofChar?_eq_none_iff {c : Char} : Symbol.ofChar? c = none ↔ ∀ s : Symbol, s.char ≠ c := by
  rw [Option.eq_none_iff_forall_ne_some]
  simp only [ne_eq, Symbol.ofChar?_eq_some_iff]

theorem token_single_of_symbol {c : Char} {s : Symbol} (h : s.char = c) (position : Nat) :
    token keys (.single c position) = .ok (.symbol s) := by
  simp only [token, Symbol.ofChar?_eq_some_iff.mpr h]

theorem token_single_of_other {c : Char} (h : ∀ s : Symbol, s.char ≠ c) (position : Nat) :
    token keys (.single c position) =
      if c ∈ keys then .ok (.key c) else .error (.unexpectedCharacter c position) := by
  simp only [token, ofChar?_eq_none_iff.mpr h, List.contains_iff_mem]

theorem StandsFor.token_eq {word : Word} {token : Token} (h : word.StandsFor keys token) :
    word.token keys = .ok token := by
  cases h with
  | symbol position hs => exact token_single_of_symbol hs position
  | key position hother hkey => rw [token_single_of_other hother, if_pos hkey]
  | @number run n position hvalue =>
      have hlt : n.toNat < UInt32.size := n.toNat_lt
      simp only [Word.token, hvalue, if_pos hlt, UInt32.ofNat_toNat]

theorem HasFault.token_eq {word : Word} {e : ScanError} (h : word.HasFault keys e) :
    word.token keys = .error e := by
  cases h with
  | character position hother hkey => rw [token_single_of_other hother, if_neg hkey]
  | number position hsize => simp only [Word.token, if_neg (Nat.not_lt.mpr hsize)]

/-- Every word stands for a token or has a fault. -/
theorem standsFor_or_hasFault (keys : List Char) (word : Word) :
    (∃ token, word.StandsFor keys token) ∨ ∃ e, word.HasFault keys e := by
  cases word with
  | single c position =>
      by_cases hs : ∃ s : Symbol, s.char = c
      · obtain ⟨s, hs⟩ := hs
        exact .inl ⟨_, .symbol position hs⟩
      · have hother : ∀ s : Symbol, s.char ≠ c := fun s h => hs ⟨s, h⟩
        by_cases hkey : c ∈ keys
        · exact .inl ⟨_, .key position hother hkey⟩
        · exact .inr ⟨_, .character position hother hkey⟩
  | digits run position =>
      by_cases hsize : Numeral.value run < UInt32.size
      · have hvalue : Numeral.value run = (UInt32.ofNat (Numeral.value run)).toNat :=
          (UInt32.toNat_ofNat_of_lt' hsize).symm
        exact .inl ⟨_, .number position hvalue⟩
      · exact .inr ⟨_, .number position (Nat.le_of_not_lt hsize)⟩

theorem token_eq_ok_iff {word : Word} {token : Token} :
    word.token keys = .ok token ↔ word.StandsFor keys token := by
  refine ⟨fun h => ?_, StandsFor.token_eq⟩
  rcases standsFor_or_hasFault keys word with ⟨token', h'⟩ | ⟨e, h'⟩
  · obtain rfl : token' = token := Except.ok.inj (h'.token_eq.symm.trans h)
    exact h'
  · rw [h'.token_eq] at h
    cases h

theorem token_eq_error_iff {word : Word} {e : ScanError} :
    word.token keys = .error e ↔ word.HasFault keys e := by
  refine ⟨fun h => ?_, HasFault.token_eq⟩
  rcases standsFor_or_hasFault keys word with ⟨token, h'⟩ | ⟨e', h'⟩
  · rw [h'.token_eq] at h
    cases h
  · obtain rfl : e' = e := Except.error.inj (h'.token_eq.symm.trans h)
    exact h'

/-! ### The same characters at other places -/

theorem StandsFor.single_moved {c : Char} {position : Nat} {token : Token}
    (h : StandsFor keys (.single c position) token) (position' : Nat) :
    StandsFor keys (.single c position') token := by
  cases h with
  | symbol _ hs => exact .symbol position' hs
  | key _ hother hkey => exact .key position' hother hkey

theorem StandsFor.digits_moved {run : List Char} {position : Nat} {token : Token}
    (h : StandsFor keys (.digits run position) token) (position' : Nat) :
    StandsFor keys (.digits run position') token := by
  cases h with
  | number _ hvalue => exact .number position' hvalue

/-- Where the characters stand makes no difference to the tokens. -/
theorem Splits.moved {marks marks' : List (Char × Nat)} {words : List Word} {tokens : List Token}
    (h : Splits marks words) (htokens : List.Forall₂ (StandsFor keys) words tokens)
    (hsame : marks'.map Prod.fst = marks.map Prod.fst) :
    ∃ words', Splits marks' words' ∧ List.Forall₂ (StandsFor keys) words' tokens := by
  induction h generalizing marks' tokens with
  | nil =>
      obtain rfl : marks' = [] := List.map_eq_nil_iff.mp hsame
      exact ⟨[], .nil, htokens⟩
  | @single mark marks words hother _ ih =>
      obtain ⟨mark', rest, rfl, hmark, hrest⟩ := List.map_eq_cons_iff.mp hsame
      obtain ⟨token, others, htoken, hothers, rfl⟩ := List.forall₂_cons_left_iff.mp htokens
      obtain ⟨words', hsplits, hwords⟩ := ih hothers hrest
      rw [← hmark] at hother htoken
      exact ⟨_, .single hother hsplits, .cons (htoken.single_moved _) hwords⟩
  | @digits mark run marks words hrun hhead _ ih =>
      rw [List.map_append, List.map_eq_append_iff] at hsame
      obtain ⟨front, rest, rfl, hfront, hrest⟩ := hsame
      obtain ⟨token, others, htoken, hothers, rfl⟩ := List.forall₂_cons_left_iff.mp htokens
      obtain ⟨words', hsplits, hwords⟩ := ih hothers hrest
      obtain ⟨mark', run', rfl, -, -⟩ := List.map_eq_cons_iff.mp hfront
      have hrun' : ∀ m ∈ mark' :: run', m.1.isDigit = true := by
        have hchars : ∀ c ∈ (mark :: run).map Prod.fst, c.isDigit = true :=
          List.forall_mem_map.mpr hrun
        rw [← hfront] at hchars
        exact List.forall_mem_map.mp hchars
      have hhead' : ∀ m ∈ rest.head?, m.1.isDigit = false := by
        intro m hm
        have hchar : rest.head?.map Prod.fst = some m.1 := congrArg (Option.map Prod.fst) hm
        rw [← List.head?_map, hrest, List.head?_map] at hchar
        obtain ⟨n, hn, hsame⟩ := Option.map_eq_some_iff.mp hchar
        rw [← hsame]
        exact hhead n hn
      rw [← hfront] at htoken
      exact ⟨_, .digits hrun' hhead' hsplits, .cons (htoken.digits_moved _) hwords⟩

end Word

/-! ### Scanning -/

namespace Token

variable {keys : List Char} {text : String}

theorem scan_eq_ok_iff {tokens : List Token} : scan keys text = .ok tokens ↔
    List.Forall₂ (Word.StandsFor keys) (Word.ofText text.toList) tokens := by
  rw [scan, mapM_eq_ok_iff]
  simp only [Word.token_eq_ok_iff]

theorem scan_eq_error_iff {e : ScanError} : scan keys text = .error e ↔
    ∃ front word back, Word.ofText text.toList = front ++ word :: back ∧
      (∀ other ∈ front, ∃ token, other.StandsFor keys token) ∧ word.HasFault keys e := by
  rw [scan, mapM_eq_error_iff]
  simp only [Word.token_eq_ok_iff, Word.token_eq_error_iff]

theorem scan_eq_ok_of_splits {words : List Word} {tokens : List Token}
    (hsplits : Word.Splits (Word.marks text.toList) words)
    (hwords : List.Forall₂ (Word.StandsFor keys) words tokens) : scan keys text = .ok tokens := by
  rw [scan_eq_ok_iff, Word.ofText, ← hsplits.eq_foldr]
  exact hwords

/-- Blank characters make no difference to what is scanned. -/
theorem scan_eq_ok_of_filter_eq {text' : String} {tokens : List Token}
    (h : scan keys text = .ok tokens)
    (hsame : text'.toList.filter (fun c => !Text.isBlank c) =
      text.toList.filter fun c => !Text.isBlank c) :
    scan keys text' = .ok tokens := by
  rw [← Word.map_fst_marks, ← Word.map_fst_marks] at hsame
  obtain ⟨words, hsplits, hwords⟩ :=
    (Word.splits_foldr (Word.marks text.toList)).moved (scan_eq_ok_iff.mp h) hsame
  exact scan_eq_ok_of_splits hsplits hwords

/-- **Scanning is exact.**  There is one way to split the characters that are not blank into words:
characters that are no digits, and runs of digits as long as they can be.  Each word stands in the
text as written where its first character does.  A text is scanned as its words stand for tokens;
otherwise the fault is that of the leftmost word which stands for none.  Blank characters, put in or
left out anywhere, change nothing about the tokens. -/
theorem scan_exact (keys : List Char) (text : String) :
    ∃ words : List Word,
      (∀ words', Word.Splits (Word.marks text.toList) words' ↔ words' = words) ∧
      (∀ word ∈ words, text.toList[word.position]? = word.characters.head?) ∧
      (words.Pairwise fun word word' => word.position < word'.position) ∧
      (∀ tokens, scan keys text = .ok tokens ↔
        List.Forall₂ (Word.StandsFor keys) words tokens) ∧
      (∀ e, scan keys text = .error e ↔ ∃ front word back, words = front ++ word :: back ∧
        (∀ other ∈ front, ∃ token, other.StandsFor keys token) ∧ word.HasFault keys e) ∧
      ∀ (text' : String) (tokens : List Token),
        text'.toList.filter (fun c => !Text.isBlank c) =
          text.toList.filter (fun c => !Text.isBlank c) →
        scan keys text = .ok tokens → scan keys text' = .ok tokens := by
  have hsplits := Word.splits_foldr (Word.marks text.toList)
  refine ⟨Word.ofText text.toList, fun words' => Word.splits_iff, ?_, ?_,
    fun tokens => scan_eq_ok_iff, fun e => scan_eq_error_iff, ?_⟩
  · intro word hword
    obtain ⟨m, hm, hplace, hfirst⟩ := hsplits.exists_mark word hword
    rw [hplace, hfirst, Word.getElem?_of_mem_marks hm]
  · exact hsplits.pairwise_position (Word.pairwise_marks text.toList)
  · intro text' tokens hsame h
    exact scan_eq_ok_of_filter_eq h hsame

/-- `T*10` with blanks put in, one of them inside the number. -/
theorem scan_spread_number :
    let tokens : List Token := [.key 'T', .symbol .times, .number 10]
    " T * 1 0".toList.filter (fun c => !Text.isBlank c) =
        "T*10".toList.filter (fun c => !Text.isBlank c) ∧
      scan ['T'] "T*10" = .ok tokens ∧ scan ['T'] " T * 1 0" = .ok tokens := by
  intro tokens
  have hsame : " T * 1 0".toList.filter (fun c => !Text.isBlank c) =
      "T*10".toList.filter (fun c => !Text.isBlank c) := by decide
  have hscan : scan ['T'] "T*10" = .ok tokens := by decide
  obtain ⟨-, -, -, -, -, -, hspread⟩ := scan_exact ['T'] "T*10"
  exact ⟨hsame, hscan, hspread _ _ hsame hscan⟩

/-- A number goes on behind a blank, and its fault stands at its first digit. -/
example : scan ['T'] "T * 4294967 296 ?" = .error (.numberOverflow "4294967296" 4) := by decide

end Token

end PieceSequencer
