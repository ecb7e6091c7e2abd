import PieceSequencer.Proofs.Pattern.Derivation
import PieceSequencer.Proofs.Pattern.Scanning

/-! # Canonical text

A well-formed pattern is what its canonical text reads as, and whatever is read is well-formed.
The text is a list of tokens written one behind the other (`Pattern.chars_eq`), which derives the
pattern in the grammar (`Pattern.writesPattern_tokens`).  That numbers are never adjacent in it,
so that it is scanned as these tokens, holds of everything the grammar derives
(`Writes.numbersApart`). -/

namespace PieceSequencer

variable {keys : List Char}

/-! ### Canonical tokens -/

namespace Node

/-- The tokens of a repeat count, which is written unless it is one. -/
def repeatTokens (count : UInt32) : List Token :=
  if count = 1 then [] else [.symbol .times, .number count]

/-- The tokens of a pick count, which is written unless every child is visited. -/
def pickTokens (picks : UInt32) (children : Nat) : List Token :=
  if picks.toNat = children then [] else [.symbol .pick, .number picks]

mutual

/-- The tokens of the canonical text of a node. -/
def tokens : Node → List Token
  | .piece key r => .key key :: repeatTokens r
  | .group children r =>
    (.symbol .openRound :: tokensList children ++ [.symbol .closeRound]) ++ repeatTokens r
  | .random children picks r =>
    (.symbol .openSquare :: tokensList children ++ (pickTokens picks children.length ++
      [.symbol .closeSquare])) ++ repeatTokens r

/-- The tokens of the canonical text of nodes in a row. -/
def tokensList : List Node → List Token
  | [] => []
  | node :: nodes => tokens node ++ tokensList nodes

end

theorem flatMap_repeatTokens (count : UInt32) :
    (repeatTokens count).flatMap Token.chars = repeatChars count := by
  unfold repeatTokens repeatChars
  split
  · rfl
  · simp [Token.chars, Symbol.char]

theorem flatMap_pickTokens (picks : UInt32) (children : Nat) :
    (pickTokens picks children).flatMap Token.chars = pickChars picks children := by
  unfold pickTokens pickChars
  split
  · rfl
  · simp [Token.chars, Symbol.char]

mutual

theorem chars_eq : ∀ node : Node, chars node = (tokens node).flatMap Token.chars
  | .piece key r => by
      rw [chars, tokens, List.flatMap_cons, flatMap_repeatTokens]
      rfl
  | .group children r => by
      rw [chars, tokens, charsList_eq children, List.flatMap_append, flatMap_repeatTokens]
      simp [Token.chars, Symbol.char]
  | .random children picks r => by
      rw [chars, tokens, charsList_eq children, List.flatMap_append, flatMap_repeatTokens,
        List.flatMap_append, List.flatMap_append, flatMap_pickTokens]
      simp [Token.chars, Symbol.char]

theorem charsList_eq : ∀ nodes : List Node,
    charsList nodes = (tokensList nodes).flatMap Token.chars
  | [] => rfl
  | node :: nodes => by
      rw [charsList, tokensList, chars_eq node, charsList_eq nodes, List.flatMap_append]

end

end Node

namespace Pattern

/-- The tokens of the canonical text of a pattern. -/
def tokens (p : Pattern) : List Token :=
  Node.tokensList p.children ++ if p.forever then [.symbol .forever] else []

/-- The canonical text is its tokens, one behind the other. -/
theorem chars_eq (p : Pattern) : p.chars = p.tokens.flatMap Token.chars := by
  unfold chars tokens
  rw [Node.charsList_eq, List.flatMap_append]
  cases p.forever <;> rfl

end Pattern

/-! ### Canonical tokens derive their pattern -/

/-- A part with its repeat count is an element. -/
theorem Writes.element_repeatTokens {tokens : List Token} (node : Node) {r : UInt32}
    (h : Writes keys .part tokens [node.withRepeats 1]) (hpos : r ≠ 0) :
    Writes keys .element (tokens ++ Node.repeatTokens r) [node.withRepeats r] := by
  unfold Node.repeatTokens
  by_cases hr : r = 1
  · rw [if_pos hr, List.append_nil, hr]
    exact .once h
  · rw [if_neg hr]
    have hrepeated := Writes.repeated h hpos
    have hnode : (node.withRepeats 1).withRepeats r = node.withRepeats r := by cases node <;> rfl
    rwa [List.map_cons, List.map_nil, hnode] at hrepeated

namespace Node

mutual

theorem writes_tokens : ∀ node : Node, node.wellFormed keys = true →
    Writes keys .element node.tokens [node]
  | .piece key r, h =>
      (Writes.piece key).element_repeatTokens (.piece key r) (wellFormed_piece_iff.mp h).2
  | .group children r, h => by
      obtain ⟨hne, hc, hr⟩ := wellFormed_group_iff.mp h
      have hrow := writes_tokensList children hc
      exact (Writes.group hrow hne).element_repeatTokens (.group children r) hr
  | .random children picks r, h => by
      obtain ⟨hpos, hle, -, hc, hr⟩ := wellFormed_random_iff.mp h
      have hrow := writes_tokensList children hc
      rw [tokens]
      refine Writes.element_repeatTokens (.random children picks r) ?_ hr
      unfold pickTokens
      by_cases hall : picks.toNat = children.length
      · rw [if_pos hall, List.nil_append]
        refine .shuffled hrow ?_ hall
        rintro rfl
        exact absurd hall (Nat.ne_of_gt (toNat_pos hpos))
      · rw [if_neg hall]
        exact .random hrow hpos hle

theorem writes_tokensList : ∀ nodes : List Node, allWellFormed keys nodes = true →
    Writes keys .row (tokensList nodes) nodes
  | [], _ => .nil
  | node :: nodes, h => by
      obtain ⟨hnode, hnodes⟩ := allWellFormed_cons_iff.mp h
      exact .cons (writes_tokens node hnode) (writes_tokensList nodes hnodes)

end

end Node

theorem Pattern.writesPattern_tokens {p : Pattern} (h : p.wellFormed keys = true) :
    WritesPattern keys p.tokens p := by
  obtain ⟨children, forever⟩ := p
  obtain ⟨hne, hall⟩ := wellFormed_iff.mp h
  have hrow := Node.writes_tokensList children hall
  cases forever with
  | false =>
      rw [tokens, if_neg (by simp), List.append_nil]
      exact .ending hrow hne
  | true => exact .forever hrow hne

/-! ### Canonical tokens are scanned -/

namespace Token

/-- No two numbers are adjacent, and none stands in front. -/
def Separate (tokens : List Token) : Prop :=
  NumbersApart tokens ∧ ∀ t ∈ tokens.head?, t.isNumber = false

theorem Separate.append {front back : List Token} (h : Separate front) (h' : Separate back) :
    Separate (front ++ back) := by
  refine ⟨List.isChain_append.mpr ⟨h.1, h'.1, fun _ _ t ht => .inr (h'.2 t ht)⟩, ?_⟩
  intro t ht
  rw [List.head?_append, Option.mem_def, Option.or_eq_some_iff] at ht
  rcases ht with ht | ⟨-, ht⟩
  · exact h.2 t ht
  · exact h'.2 t ht

theorem Separate.symbol_cons {tokens : List Token} (h : Separate tokens) (s : Symbol) :
    Separate (.symbol s :: tokens) :=
  have hs : Separate [.symbol s] := ⟨List.isChain_singleton _, by simp [isNumber]⟩
  hs.append h

theorem separate_nil : Separate [] := ⟨List.isChain_nil, by simp⟩

/-- A number behind a symbol. -/
theorem separate_count (s : Symbol) (n : UInt32) : Separate [.symbol s, .number n] :=
  ⟨by simp [NumbersApart, isNumber], by simp [isNumber]⟩

end Token

/-- In what the grammar derives, numbers are never adjacent. -/
theorem Writes.separate {phrase : Phrase} {tokens : List Token} {nodes : List Node}
    (h : Writes keys phrase tokens nodes) : Token.Separate tokens := by
  induction h with
  | piece key => exact ⟨List.isChain_singleton _, by simp [Token.isNumber]⟩
  | every => exact Token.separate_nil.symbol_cons _
  | group _ _ ih => exact (ih.symbol_cons _).append (Token.separate_nil.symbol_cons _)
  | shuffled _ _ _ ih => exact (ih.symbol_cons _).append (Token.separate_nil.symbol_cons _)
  | @random tokens nodes picks _ _ _ ih =>
      have hclose := Token.separate_nil.symbol_cons .closeSquare
      exact (ih.symbol_cons _).append ((Token.separate_count .pick picks).append hclose)
  | once _ ih => exact ih
  | repeated _ _ ih => exact ih.append (Token.separate_count _ _)
  | nil => exact Token.separate_nil
  | cons _ _ ih ih' => exact ih.append ih'

theorem WritesPattern.separate {tokens : List Token} {p : Pattern}
    (h : WritesPattern keys tokens p) : Token.Separate tokens := by
  cases h with
  | ending h _ => exact h.separate
  | forever h _ => exact h.separate.append (Token.separate_nil.symbol_cons _)

namespace Node

theorem known_repeatTokens (count : UInt32) : ∀ t ∈ repeatTokens count, t.Known keys := by
  intro t ht
  unfold repeatTokens at ht
  split at ht
  · cases ht
  · rcases List.mem_cons.mp ht with rfl | ht
    · trivial
    · obtain rfl := List.mem_singleton.mp ht
      trivial

theorem known_pickTokens (picks : UInt32) (children : Nat) :
    ∀ t ∈ pickTokens picks children, t.Known keys := by
  intro t ht
  unfold pickTokens at ht
  split at ht
  · cases ht
  · rcases List.mem_cons.mp ht with rfl | ht
    · trivial
    · obtain rfl := List.mem_singleton.mp ht
      trivial

mutual

theorem known_tokens (hkeys : ∀ k ∈ keys, isAllowedKey k = true) : ∀ node : Node,
    node.wellFormed keys = true → ∀ t ∈ node.tokens, t.Known keys
  | .piece key r, h, t, ht => by
      have hmem := (wellFormed_piece_iff.mp h).1
      rcases List.mem_cons.mp ht with rfl | ht
      · exact ⟨hmem, hkeys key hmem⟩
      · exact known_repeatTokens r t ht
  | .group children r, h, t, ht => by
      obtain ⟨-, hall, -⟩ := wellFormed_group_iff.mp h
      simp only [tokens, List.mem_append, List.mem_cons, List.not_mem_nil, or_false] at ht
      rcases ht with ((rfl | ht) | rfl) | ht
      · trivial
      · exact known_tokensList hkeys children hall t ht
      · trivial
      · exact known_repeatTokens r t ht
  | .random children picks r, h, t, ht => by
      obtain ⟨-, -, -, hall, -⟩ := wellFormed_random_iff.mp h
      simp only [tokens, List.mem_append, List.mem_cons, List.not_mem_nil, or_false] at ht
      rcases ht with ((rfl | ht) | ht | rfl) | ht
      · trivial
      · exact known_tokensList hkeys children hall t ht
      · exact known_pickTokens picks children.length t ht
      · trivial
      · exact known_repeatTokens r t ht

theorem known_tokensList (hkeys : ∀ k ∈ keys, isAllowedKey k = true) : ∀ nodes : List Node,
    allWellFormed keys nodes = true → ∀ t ∈ tokensList nodes, t.Known keys
  | [], _, t, ht => by cases ht
  | node :: nodes, h, t, ht => by
      obtain ⟨hnode, hnodes⟩ := allWellFormed_cons_iff.mp h
      rcases List.mem_append.mp ht with ht | ht
      · exact known_tokens hkeys node hnode t ht
      · exact known_tokensList hkeys nodes hnodes t ht

end

end Node

theorem Pattern.known_tokens {p : Pattern} (hkeys : ∀ k ∈ keys, isAllowedKey k = true)
    (h : p.wellFormed keys = true) : ∀ t ∈ p.tokens, t.Known keys := by
  intro t ht
  rcases List.mem_append.mp ht with ht | ht
  · exact Node.known_tokensList hkeys p.children (wellFormed_iff.mp h).2 t ht
  · split at ht
    · obtain rfl := List.mem_singleton.mp ht
      trivial
    · cases ht

theorem Pattern.ofText_eq_ok_iff {text : String} {p : Pattern} :
    ofText keys text = .ok p ↔ ∃ tokens, Token.scan keys text = .ok tokens ∧
      ofTokens keys tokens = .ok p := by
  unfold ofText
  cases hs : Token.scan keys text with
  | error e => simp
  | ok tokens =>
      cases ht : ofTokens keys tokens with
      | error e => simp [ht]
      | ok q => simp [ht]

/-- What tokens write is read from them when they are written one behind the other. -/
theorem WritesPattern.ofText_eq {tokens : List Token} {p : Pattern}
    (h : WritesPattern keys tokens p) (hk : ∀ t ∈ tokens, t.Known keys) :
    Pattern.ofText keys (String.ofList (tokens.flatMap Token.chars)) = .ok p :=
  Pattern.ofText_eq_ok_iff.mpr ⟨tokens, Token.scan_chars h.separate.1 hk, h.ofTokens_eq⟩

/-- A well-formed pattern is what its canonical text reads as. -/
theorem Pattern.ofText_text {p : Pattern} (hkeys : ∀ k ∈ keys, isAllowedKey k = true)
    (h : p.wellFormed keys = true) : ofText keys p.text = .ok p := by
  rw [text, chars_eq]
  exact (writesPattern_tokens h).ofText_eq (p.known_tokens hkeys h)

/-! ### What is read is well-formed -/

/-- A random group that can be counted is well-formed if its children are. -/
theorem Node.wellFormed_random {nodes : List Node} {picks : UInt32}
    (hc : (random nodes picks 1).countable = true) (hpos : picks ≠ 0)
    (hle : picks.toNat ≤ nodes.length)
    (h : (∀ node ∈ nodes, node.countable = true) → ∀ node ∈ nodes, node.wellFormed keys = true) :
    (random nodes picks 1).wellFormed keys = true := by
  simp only [countable, Bool.and_eq_true, decide_eq_true_eq] at hc
  obtain ⟨hsize, hnodes⟩ := hc
  have hwf := h (allCountable_iff.mp hnodes)
  exact wellFormed_random_iff.mpr ⟨hpos, hle, hsize, allWellFormed_iff.mpr hwf, by decide⟩

theorem Writes.wellFormed {phrase : Phrase} {tokens : List Token} {nodes : List Node}
    (h : Writes keys phrase tokens nodes) (hk : ∀ k, .key k ∈ tokens → k ∈ keys)
    (hc : ∀ node ∈ nodes, node.countable = true) :
    ∀ node ∈ nodes, node.wellFormed keys = true := by
  induction h with
  | piece key =>
      intro node hn
      obtain rfl := List.mem_singleton.mp hn
      exact Node.wellFormed_piece_iff.mpr ⟨hk key (List.mem_singleton_self _), by decide⟩
  | every =>
      intro node hn
      obtain ⟨key, hkey, rfl⟩ := List.mem_map.mp hn
      exact Node.wellFormed_piece_iff.mpr ⟨hkey, by decide⟩
  | @group tokens nodes _ hne ih =>
      intro node hn
      obtain rfl := List.mem_singleton.mp hn
      have hnodes := hc _ (List.mem_singleton_self _)
      rw [Node.countable, Node.allCountable_iff] at hnodes
      have hwf := ih (fun k hmem => hk k (by simp [hmem])) hnodes
      exact Node.wellFormed_group_iff.mpr ⟨hne, Node.allWellFormed_iff.mpr hwf, by decide⟩
  | @shuffled tokens nodes picks _ hne hpicks ih =>
      intro node hn
      obtain rfl := List.mem_singleton.mp hn
      have hpos : picks ≠ 0 := by
        rintro rfl
        exact hne (List.length_eq_zero_iff.mp hpicks.symm)
      exact Node.wellFormed_random (hc _ (List.mem_singleton_self _)) hpos hpicks.le
        (ih fun k hmem => hk k (by simp [hmem]))
  | @random tokens nodes picks _ hpos hle ih =>
      intro node hn
      obtain rfl := List.mem_singleton.mp hn
      exact Node.wellFormed_random (hc _ (List.mem_singleton_self _)) hpos hle
        (ih fun k hmem => hk k (by simp [hmem]))
  | once _ ih => exact ih hk hc
  | @repeated tokens nodes count _ hpos ih =>
      intro node hn
      obtain ⟨inner, hinner, rfl⟩ := List.mem_map.mp hn
      have hcount : ∀ node ∈ nodes, node.countable = true := by
        intro other hother
        rw [← Node.countable_withRepeats count]
        exact hc _ (List.mem_map_of_mem hother)
      have hwf := ih (fun k hmem => hk k (by simp [hmem])) hcount inner hinner
      exact Node.wellFormed_withRepeats hwf hpos
  | nil => exact fun node hn => by cases hn
  | cons _ _ ih ih' =>
      intro node hn
      rcases List.mem_append.mp hn with hn | hn
      · exact ih (fun k hmem => hk k (by simp [hmem]))
          (fun n hn => hc n (List.mem_append_left _ hn)) node hn
      · exact ih' (fun k hmem => hk k (by simp [hmem]))
          (fun n hn => hc n (List.mem_append_right _ hn)) node hn

theorem WritesPattern.wellFormed {tokens : List Token} {p : Pattern}
    (h : WritesPattern keys tokens p) (hk : ∀ k, .key k ∈ tokens → k ∈ keys)
    (hc : p.countable = true) : p.wellFormed keys = true := by
  rw [Pattern.countable, Node.allCountable_iff] at hc
  cases h with
  | ending h hne =>
      exact Pattern.wellFormed_iff.mpr ⟨hne, Node.allWellFormed_iff.mpr (h.wellFormed hk hc)⟩
  | forever h hne =>
      have hk' := fun k hmem => hk k (List.mem_append_left _ hmem)
      exact Pattern.wellFormed_iff.mpr ⟨hne, Node.allWellFormed_iff.mpr (h.wellFormed hk' hc)⟩

/-- Whatever is read is well-formed, if the children of its random groups can be counted. -/
theorem Pattern.wellFormed_of_ofText {text : String} {p : Pattern} (h : ofText keys text = .ok p)
    (hc : p.countable = true) : p.wellFormed keys = true := by
  obtain ⟨tokens, hs, ht⟩ := ofText_eq_ok_iff.mp h
  exact (writesPattern_of_ofTokens ht hc).wellFormed (fun k => Token.mem_keys_of_scan hs) hc

/-- **Canonical text and reading are inverse.**  Over allowed keys, the well-formed patterns are
what their canonical texts read as; what any text reads as is well-formed, so canonical texts
tell patterns that are read apart, and reading the canonical text again changes nothing. -/
theorem Pattern.canonical_text_inverse (keys : List Char)
    (hkeys : ∀ k ∈ keys, isAllowedKey k = true) :
    (∀ p : Pattern, p.wellFormed keys = true → ofText keys p.text = .ok p) ∧
    (∀ (text : String) (p : Pattern), ofText keys text = .ok p → p.countable = true →
      p.wellFormed keys = true ∧ ofText keys p.text = .ok p) ∧
    ∀ (text text' : String) (p q : Pattern), ofText keys text = .ok p → p.countable = true →
      ofText keys text' = .ok q → q.countable = true → p.text = q.text → p = q := by
  refine ⟨fun p h => ofText_text hkeys h, ?_, ?_⟩
  · intro text p h hc
    have hwf := wellFormed_of_ofText h hc
    exact ⟨hwf, ofText_text hkeys hwf⟩
  · intro text text' p q hp hpc hq hqc he
    have hp' := ofText_text hkeys (wellFormed_of_ofText hp hpc)
    have hq' := ofText_text hkeys (wellFormed_of_ofText hq hqc)
    rw [he] at hp'
    exact Except.ok.inj (hp'.symm.trans hq')

/-- The canonical text of `[T(I*2O)*10:1]O*3~`, read again. -/
theorem Pattern.ofText_text_nested : let p : Pattern := ⟨[.random [.piece 'T' 1,
      .group [.piece 'I' 2, .piece 'O' 1] 10] 1 1, .piece 'O' 3], true⟩
    (∀ k ∈ ['T', 'I', 'O'], isAllowedKey k = true) ∧ p.wellFormed ['T', 'I', 'O'] = true ∧
      ofText ['T', 'I', 'O'] p.text = .ok p := by
  have hkeys : ∀ k ∈ ['T', 'I', 'O'], isAllowedKey k = true := List.all_eq_true.mp (by decide)
  exact ⟨hkeys, by decide, (canonical_text_inverse _ hkeys).1 _ (by decide)⟩

end PieceSequencer
