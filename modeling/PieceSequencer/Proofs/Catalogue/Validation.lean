import PieceSequencer.Catalogue.Validation
import PieceSequencer.Proofs.FirstFault

/-! # What validation accepts and whom it blames

A catalogue is accepted just if it is `Sound`.  Otherwise the refusal is about the first piece that
breaks a rule behind the pieces before it, and about the first rule in order that this piece
breaks (`validate_blames_first`).  One piece is held against six rules in a row
(`checkPiece_eq_forM`), so that everything about the order of rules is a fact about the first
fault of a list; the duplicate keys are the one rule that looks at the pieces before. -/

namespace PieceSequencer

/-! ### Items behind those before them -/

theorem forall_split_cons {α : Type} {first : α} {rest : List α} {p : List α → α → Prop} :
    (∀ front item back, first :: rest = front ++ item :: back → p front item) ↔
      p [] first ∧ ∀ front item back, rest = front ++ item :: back → p (first :: front) item := by
  constructor
  · intro h
    refine ⟨h [] first rest rfl, fun front item back hrest => ?_⟩
    exact h (first :: front) item back (by rw [hrest, List.cons_append])
  · rintro ⟨hfirst, hrest⟩ front item back hsplit
    cases front with
    | nil =>
        obtain ⟨rfl, -⟩ := List.cons.inj hsplit
        exact hfirst
    | cons other front =>
        obtain ⟨rfl, htail⟩ := List.cons.inj hsplit
        exact hrest front item back htail

theorem pairwise_iff_split {α : Type} {items : List α} {r : α → α → Prop} :
    items.Pairwise r ↔
      ∀ front item back, items = front ++ item :: back → ∀ other ∈ front, r other item := by
  constructor
  · rintro h front item back rfl other hother
    exact (List.pairwise_append.mp h).2.2 other hother item List.mem_cons_self
  · intro h
    refine List.pairwise_iff_forall_sublist.mpr fun {other item} hsub => ?_
    obtain ⟨front, rest, rfl, hother, hitem⟩ := List.cons_sublist_iff.mp hsub
    obtain ⟨middle, back, rfl⟩ := List.append_of_mem (List.singleton_sublist.mp hitem)
    exact h (front ++ middle) item back (List.append_assoc ..).symm other
      (List.mem_append_left _ hother)

/-! ### Rules -/

/-- What every piece of a catalogue has to satisfy. -/
inductive Rule where
  | allowedKey
  | newKey
  | wholeOffset
  | wholeBlocks
  | fittingPivot
  | wholeOrigin
  deriving DecidableEq, Repr

/-- The order in which a piece is held against the rules. -/
def Rule.inOrder : List Rule :=
  [.allowedKey, .newKey, .wholeOffset, .wholeBlocks, .fittingPivot, .wholeOrigin]

theorem Rule.mem_inOrder (rule : Rule) : rule ∈ inOrder := by cases rule <;> decide

namespace Piece

/-- Whether a piece obeys a rule behind the pieces `before`. -/
def Obeys (before : List Piece) (piece : Piece) : Rule → Prop
  | .allowedKey => isAllowedKey piece.key = true
  | .newKey => ∀ other ∈ before, other.key ≠ piece.key
  | .wholeOffset => piece.spawnOffset.isGridCenter = true
  | .wholeBlocks => ∀ block ∈ piece.shape.blocks, block.isGridCenter = true
  | .fittingPivot =>
    piece.shape.pivot.isGridCenter = true ∨ piece.shape.pivot.isLatticePoint = true
  | .wholeOrigin => ∀ origin ∈ piece.shape.origin, origin.isGridCenter = true

/-- What is said of a piece that breaks this rule first. -/
inductive Blamed (piece : Piece) : Rule → ValidationError → Prop where
  | allowedKey : Blamed piece .allowedKey (.invalidKey piece.key)
  | newKey : Blamed piece .newKey (.duplicateKey piece.key)
  | wholeOffset :
    Blamed piece .wholeOffset (.fractionalSpawnOffset piece.key piece.spawnOffset)
  | wholeBlocks {front back : List Point} {block : Point} :
    piece.shape.blocks = front ++ block :: back →
    (∀ other ∈ front, other.isGridCenter = true) → block.isGridCenter = false →
    Blamed piece .wholeBlocks (.offGridBlock piece.key front.length block)
  | fittingPivot : Blamed piece .fittingPivot (.invalidPivot piece.key piece.shape.pivot)
  | wholeOrigin {origin : Point} :
    piece.shape.origin = some origin →
    Blamed piece .wholeOrigin (.invalidOrigin piece.key origin)

/-- The first rule in order that a piece breaks behind the pieces `before`. -/
def BreaksFirst (before : List Piece) (piece : Piece) (rule : Rule) : Prop :=
  ∃ earlier later, Rule.inOrder = earlier ++ rule :: later ∧
    (∀ other ∈ earlier, piece.Obeys before other) ∧ ¬ piece.Obeys before rule

end Piece

namespace Catalogue

/-! ### One piece -/

/-- Refuses for `e` what is bad. -/
def rejectIf (bad : Bool) (e : ValidationError) : Except ValidationError Unit :=
  if bad then .error e else .ok ()

theorem rejectIf_eq_ok_iff {bad : Bool} {e : ValidationError} :
    rejectIf bad e = .ok () ↔ bad = false := by
  cases bad <;> simp [rejectIf]

theorem rejectIf_eq_error_iff {bad : Bool} {e e' : ValidationError} :
    rejectIf bad e = .error e' ↔ bad = true ∧ e' = e := by
  cases bad <;> simp [rejectIf, eq_comm]

theorem rejectIf_of_ne_ok {bad : Bool} {e : ValidationError} (h : rejectIf bad e ≠ .ok ()) :
    rejectIf bad e = .error e := by
  cases bad with
  | false => exact absurd rfl h
  | true => rfl

theorem throw_if_eq_rejectIf {bad : Bool} {e : ValidationError}
    {rest : Except ValidationError Unit} :
    (if bad = true then do throw e; rest else rest) = (do rejectIf bad e; rest) := by
  cases bad <;> rfl

/-- The check of one rule, behind pieces with the keys `seen`. -/
def checkRule (seen : List Char) (piece : Piece) : Rule → Except ValidationError Unit
  | .allowedKey => rejectIf (!isAllowedKey piece.key) (.invalidKey piece.key)
  | .newKey => rejectIf (seen.contains piece.key) (.duplicateKey piece.key)
  | .wholeOffset =>
    rejectIf (!piece.spawnOffset.isGridCenter)
      (.fractionalSpawnOffset piece.key piece.spawnOffset)
  | .wholeBlocks => checkBlocks piece.key 0 piece.shape.blocks
  | .fittingPivot =>
    rejectIf (!piece.shape.pivot.isGridCenter && !piece.shape.pivot.isLatticePoint)
      (.invalidPivot piece.key piece.shape.pivot)
  | .wholeOrigin => checkOrigin piece.key piece.shape.origin

/-- One piece is held against the rules in order. -/
theorem checkPiece_eq_forM (seen : List Char) (piece : Piece) :
    checkPiece seen piece = Rule.inOrder.forM (checkRule seen piece) := by
  unfold checkPiece
  simp only [throw_if_eq_rejectIf]
  have hlast : checkOrigin piece.key piece.shape.origin =
      (do checkOrigin piece.key piece.shape.origin; return ()) := by
    cases checkOrigin piece.key piece.shape.origin <;> rfl
  rw [hlast]
  rfl

/-- The check of one block, which comes with its index. -/
def checkBlock (key : Char) (marked : Point × Nat) : Except ValidationError Unit :=
  rejectIf (!marked.1.isGridCenter) (.offGridBlock key marked.2 marked.1)

theorem checkBlocks_eq_forM (key : Char) (index : Nat) (blocks : List Point) :
    checkBlocks key index blocks = (blocks.zipIdx index).forM (checkBlock key) := by
  induction blocks generalizing index with
  | nil => rfl
  | cons block blocks ih =>
      show _ = (do checkBlock key (block, index); (blocks.zipIdx (index + 1)).forM (checkBlock key))
      rw [checkBlocks, ih, checkBlock]
      cases block.isGridCenter <;> rfl

theorem checkBlock_eq_ok_iff {key : Char} {marked : Point × Nat} :
    checkBlock key marked = .ok () ↔ marked.1.isGridCenter = true := by
  rw [checkBlock, rejectIf_eq_ok_iff, Bool.not_eq_false']

theorem checkBlocks_eq_ok_iff {key : Char} {index : Nat} {blocks : List Point} :
    checkBlocks key index blocks = .ok () ↔ ∀ block ∈ blocks, block.isGridCenter = true := by
  rw [checkBlocks_eq_forM, forM_eq_ok_iff]
  simp only [checkBlock_eq_ok_iff]
  conv_rhs => rw [← List.zipIdx_map_fst index blocks, List.forall_mem_map]

/-- The first block that is off the grid is named, with its index. -/
theorem checkBlocks_eq_error_iff {key : Char} {index : Nat} {blocks : List Point}
    {e : ValidationError} :
    checkBlocks key index blocks = .error e ↔
      ∃ front block back, blocks = front ++ block :: back ∧
        (∀ other ∈ front, other.isGridCenter = true) ∧ block.isGridCenter = false ∧
        e = .offGridBlock key (index + front.length) block := by
  rw [checkBlocks_eq_forM, forM_eq_error_iff]
  constructor
  · rintro ⟨front, marked, back, hmarks, hfront, hmarked⟩
    obtain ⟨front, rest, rfl, rfl, hrest⟩ := List.zipIdx_eq_append_iff.mp hmarks
    obtain ⟨block, back, rfl, rfl, -⟩ := List.zipIdx_eq_cons_iff.mp hrest.symm
    obtain ⟨hblock, rfl⟩ := rejectIf_eq_error_iff.mp hmarked
    have hfront := checkBlocks_eq_ok_iff.mp
      ((checkBlocks_eq_forM key index front).trans (forM_eq_ok_iff.mpr hfront))
    exact ⟨front, block, back, rfl, hfront, by simpa using hblock, rfl⟩
  · rintro ⟨front, block, back, rfl, hfront, hblock, rfl⟩
    have hmarks := (checkBlocks_eq_forM key index front).symm.trans
      (checkBlocks_eq_ok_iff.mpr hfront)
    refine ⟨front.zipIdx index, (block, index + front.length),
      back.zipIdx (index + front.length + 1), ?_, forM_eq_ok_iff.mp hmarks, ?_⟩
    · rw [List.zipIdx_append, List.zipIdx_cons]
    · exact rejectIf_eq_error_iff.mpr ⟨by simpa using hblock, rfl⟩

theorem checkOrigin_some (key : Char) (origin : Point) :
    checkOrigin key (some origin) =
      rejectIf (!origin.isGridCenter) (.invalidOrigin key origin) := by
  rw [checkOrigin]
  cases origin.isGridCenter <;> rfl

variable {before pieces : List Piece} {piece : Piece} {rule : Rule} {e : ValidationError}

theorem checkRule_eq_ok_iff :
    checkRule (before.map Piece.key) piece rule = .ok () ↔ piece.Obeys before rule := by
  cases rule with
  | allowedKey => rw [checkRule, rejectIf_eq_ok_iff, Bool.not_eq_false', Piece.Obeys]
  | newKey => simp [checkRule, rejectIf_eq_ok_iff, Piece.Obeys]
  | wholeOffset => rw [checkRule, rejectIf_eq_ok_iff, Bool.not_eq_false', Piece.Obeys]
  | wholeBlocks => rw [checkRule, checkBlocks_eq_ok_iff, Piece.Obeys]
  | fittingPivot =>
      rw [checkRule, rejectIf_eq_ok_iff, ← Bool.not_or, Bool.not_eq_false', Bool.or_eq_true,
        Piece.Obeys]
  | wholeOrigin =>
      rw [checkRule, Piece.Obeys]
      cases piece.shape.origin with
      | none => exact iff_of_true rfl fun _ hnone => nomatch hnone
      | some origin => simp [checkOrigin_some, rejectIf_eq_ok_iff]

theorem checkRule_eq_error_iff :
    checkRule (before.map Piece.key) piece rule = .error e ↔
      ¬ piece.Obeys before rule ∧ piece.Blamed rule e := by
  rw [← checkRule_eq_ok_iff]
  constructor
  · intro h
    refine ⟨fun hok => (nomatch h.symm.trans hok), ?_⟩
    cases rule with
    | allowedKey => exact (rejectIf_eq_error_iff.mp h).2 ▸ .allowedKey
    | newKey => exact (rejectIf_eq_error_iff.mp h).2 ▸ .newKey
    | wholeOffset => exact (rejectIf_eq_error_iff.mp h).2 ▸ .wholeOffset
    | wholeBlocks =>
        obtain ⟨front, block, back, hblocks, hfront, hblock, rfl⟩ :=
          checkBlocks_eq_error_iff.mp h
        rw [Nat.zero_add]
        exact .wholeBlocks hblocks hfront hblock
    | fittingPivot => exact (rejectIf_eq_error_iff.mp h).2 ▸ .fittingPivot
    | wholeOrigin =>
        rw [checkRule] at h
        cases horigin : piece.shape.origin with
        | none => rw [horigin] at h; cases h
        | some origin =>
            rw [horigin, checkOrigin_some] at h
            exact (rejectIf_eq_error_iff.mp h).2 ▸ .wholeOrigin horigin
  · -- One rule refuses a piece in one way only, so it is enough that the check does not pass;
    -- blocks are the exception, where the index has to be the right one.
    rintro ⟨hrefused, hblamed⟩
    cases hblamed with
    | allowedKey => exact rejectIf_of_ne_ok hrefused
    | newKey => exact rejectIf_of_ne_ok hrefused
    | wholeOffset => exact rejectIf_of_ne_ok hrefused
    | @wholeBlocks front back block hblocks hfront hblock =>
        refine checkBlocks_eq_error_iff.mpr ⟨front, block, back, hblocks, hfront, hblock, ?_⟩
        rw [Nat.zero_add]
    | fittingPivot => exact rejectIf_of_ne_ok hrefused
    | wholeOrigin horigin =>
        rw [checkRule, horigin, checkOrigin_some] at hrefused ⊢
        exact rejectIf_of_ne_ok hrefused

theorem checkPiece_eq_ok_iff :
    checkPiece (before.map Piece.key) piece = .ok () ↔ ∀ rule, piece.Obeys before rule := by
  rw [checkPiece_eq_forM, forM_eq_ok_iff]
  simp only [checkRule_eq_ok_iff]
  exact ⟨fun h rule => h rule rule.mem_inOrder, fun h rule _ => h rule⟩

theorem checkPiece_eq_error_iff :
    checkPiece (before.map Piece.key) piece = .error e ↔
      ∃ rule, piece.BreaksFirst before rule ∧ piece.Blamed rule e := by
  rw [checkPiece_eq_forM, forM_eq_error_iff]
  simp only [checkRule_eq_ok_iff, checkRule_eq_error_iff]
  constructor
  · rintro ⟨earlier, rule, later, hrules, hearlier, hbroken, hblamed⟩
    exact ⟨rule, ⟨earlier, later, hrules, hearlier, hbroken⟩, hblamed⟩
  · rintro ⟨rule, ⟨earlier, later, hrules, hearlier, hbroken⟩, hblamed⟩
    exact ⟨earlier, rule, later, hrules, hearlier, hbroken, hblamed⟩

/-! ### All pieces -/

theorem checkPieces_cons_eq_ok_iff {seen : List Char} :
    checkPieces seen (piece :: pieces) = .ok () ↔
      checkPiece seen piece = .ok () ∧ checkPieces (seen ++ [piece.key]) pieces = .ok () := by
  rw [checkPieces]
  cases checkPiece seen piece <;> simp [bind, Except.bind]

theorem checkPieces_append (seen : List Char) (front back : List Piece) :
    checkPieces seen (front ++ back) = (do
      checkPieces seen front
      checkPieces (seen ++ front.map Piece.key) back) := by
  induction front generalizing seen with
  | nil => rw [List.map_nil, List.append_nil]; rfl
  | cons piece front ih =>
      rw [List.cons_append, checkPieces, checkPieces, ih, List.map_cons, List.append_assoc,
        List.singleton_append]
      cases checkPiece seen piece <;> rfl

theorem checkPieces_eq_ok_iff {seen : List Char} :
    checkPieces seen pieces = .ok () ↔ ∀ front piece back, pieces = front ++ piece :: back →
      checkPiece (seen ++ front.map Piece.key) piece = .ok () := by
  induction pieces generalizing seen with
  | nil => exact iff_of_true rfl fun front piece back h => by simp at h
  | cons first pieces ih =>
      rw [checkPieces_cons_eq_ok_iff, ih, forall_split_cons]
      simp only [List.map_nil, List.append_nil, List.map_cons, List.append_assoc,
        List.singleton_append]

/-- The refusal is that of the first piece that is refused. -/
theorem checkPieces_eq_error_iff {seen : List Char} :
    checkPieces seen pieces = .error e ↔ ∃ front piece back, pieces = front ++ piece :: back ∧
      checkPieces seen front = .ok () ∧
      checkPiece (seen ++ front.map Piece.key) piece = .error e := by
  constructor
  · intro h
    induction pieces generalizing seen with
    | nil => cases h
    | cons first pieces ih =>
        rw [checkPieces] at h
        cases hfirst : checkPiece seen first with
        | error e' =>
            rw [hfirst] at h
            refine ⟨[], first, pieces, rfl, rfl, ?_⟩
            rw [List.map_nil, List.append_nil, hfirst]
            exact h
        | ok _ =>
            rw [hfirst] at h
            obtain ⟨front, piece, back, rfl, hfront, hpiece⟩ := ih h
            refine ⟨first :: front, piece, back, rfl, ?_, ?_⟩
            · exact checkPieces_cons_eq_ok_iff.mpr ⟨hfirst, hfront⟩
            · rwa [List.append_assoc] at hpiece
  · rintro ⟨front, piece, back, rfl, hfront, hpiece⟩
    rw [checkPieces_append, hfront]
    show checkPieces (seen ++ front.map Piece.key) (piece :: back) = .error e
    rw [checkPieces, hpiece]
    rfl

/-- Each piece obeys all rules behind the pieces before it. -/
def AllObey (pieces : List Piece) : Prop :=
  ∀ front piece back, pieces = front ++ piece :: back → ∀ rule, piece.Obeys front rule

theorem checkPieces_nil_eq_ok_iff : checkPieces [] pieces = .ok () ↔ AllObey pieces := by
  rw [checkPieces_eq_ok_iff]
  simp only [List.nil_append, checkPiece_eq_ok_iff]
  rfl

/-! ### Whole catalogues -/

/-- What validation is for: there is a piece, no two pieces have the same key, and each piece is
well-formed by itself. -/
structure Sound (c : Catalogue) : Prop where
  nonempty : c.pieces ≠ []
  allowed : ∀ piece ∈ c.pieces, isAllowedKey piece.key = true
  distinct : c.keys.Nodup
  offsets : ∀ piece ∈ c.pieces, piece.spawnOffset.isGridCenter = true
  blocks : ∀ piece ∈ c.pieces, ∀ block ∈ piece.shape.blocks, block.isGridCenter = true
  pivots : ∀ piece ∈ c.pieces,
    piece.shape.pivot.isGridCenter = true ∨ piece.shape.pivot.isLatticePoint = true
  origins : ∀ piece ∈ c.pieces, ∀ origin ∈ piece.shape.origin, origin.isGridCenter = true

theorem nodup_keys_iff {c : Catalogue} :
    c.keys.Nodup ↔ ∀ front piece back, c.pieces = front ++ piece :: back →
      piece.Obeys front .newKey := by
  rw [List.Nodup, keys, List.pairwise_map, pairwise_iff_split]
  rfl

variable {c : Catalogue}

theorem sound_iff : c.Sound ↔ c.pieces ≠ [] ∧ AllObey c.pieces := by
  constructor
  · intro h
    refine ⟨h.nonempty, fun front piece back hpieces rule => ?_⟩
    have hpiece : piece ∈ c.pieces := by
      rw [hpieces]
      exact List.mem_append_right _ List.mem_cons_self
    cases rule with
    | allowedKey => exact h.allowed piece hpiece
    | newKey => exact nodup_keys_iff.mp h.distinct front piece back hpieces
    | wholeOffset => exact h.offsets piece hpiece
    | wholeBlocks => exact h.blocks piece hpiece
    | fittingPivot => exact h.pivots piece hpiece
    | wholeOrigin => exact h.origins piece hpiece
  · rintro ⟨hnonempty, hobey⟩
    -- What the other rules say of a piece is the same wherever it stands.
    have hmem : ∀ piece ∈ c.pieces, ∃ front, ∀ rule, piece.Obeys front rule := by
      intro piece hpiece
      obtain ⟨front, back, hpieces⟩ := List.append_of_mem hpiece
      exact ⟨front, hobey front piece back hpieces⟩
    exact
      { nonempty := hnonempty
        allowed := fun piece hpiece => (hmem piece hpiece).elim fun _ h => h .allowedKey
        distinct := nodup_keys_iff.mpr fun front piece back h => hobey front piece back h .newKey
        offsets := fun piece hpiece => (hmem piece hpiece).elim fun _ h => h .wholeOffset
        blocks := fun piece hpiece => (hmem piece hpiece).elim fun _ h => h .wholeBlocks
        pivots := fun piece hpiece => (hmem piece hpiece).elim fun _ h => h .fittingPivot
        origins := fun piece hpiece => (hmem piece hpiece).elim fun _ h => h .wholeOrigin }

theorem validate_eq_ok_iff : c.validate = .ok () ↔ c.Sound := by
  rw [validate, sound_iff]
  cases hempty : c.pieces with
  | nil => simp
  | cons first rest =>
      rw [List.isEmpty_cons, if_neg Bool.false_ne_true, checkPieces_nil_eq_ok_iff]
      exact (and_iff_right (List.cons_ne_nil _ _)).symm

theorem validate_eq_error_iff :
    c.validate = .error e ↔ (c.pieces = [] ∧ e = .emptyCatalogue) ∨
      ∃ before piece after rule, c.pieces = before ++ piece :: after ∧ AllObey before ∧
        piece.BreaksFirst before rule ∧ piece.Blamed rule e := by
  rw [validate]
  cases hempty : c.pieces with
  | nil => simp [eq_comm]
  | cons first rest =>
      rw [List.isEmpty_cons, if_neg Bool.false_ne_true, checkPieces_eq_error_iff]
      simp only [List.nil_append, checkPieces_nil_eq_ok_iff, checkPiece_eq_error_iff]
      constructor
      · rintro ⟨before, piece, after, hpieces, hbefore, rule, hrule⟩
        exact .inr ⟨before, piece, after, rule, hpieces, hbefore, hrule⟩
      · rintro (⟨hnil, -⟩ | ⟨before, piece, after, rule, hpieces, hbefore, hrule⟩)
        · cases hnil
        · exact ⟨before, piece, after, hpieces, hbefore, rule, hrule⟩

/-- **Validation accepts the sound catalogues and blames the first offender.**  Otherwise than for
want of pieces a catalogue is refused for the first piece that breaks a rule behind the pieces
before it, and for the first rule in order that this piece breaks. -/
theorem validate_blames_first (c : Catalogue) :
    (c.validate = .ok () ↔ c.Sound) ∧
      ∀ e, c.validate = .error e ↔ (c.pieces = [] ∧ e = .emptyCatalogue) ∨
        ∃ before piece after rule, c.pieces = before ++ piece :: after ∧ AllObey before ∧
          piece.BreaksFirst before rule ∧ piece.Blamed rule e :=
  ⟨validate_eq_ok_iff, fun _ => validate_eq_error_iff⟩

-- a key that is there already is blamed before the offset that is not whole
example :
    let bar : Shape := .ofBlocks [.zero] .zero
    validate ⟨[⟨'I', bar, .zero⟩, ⟨'I', bar, .nearest (1 / 2) 0⟩]⟩ =
      .error (.duplicateKey 'I') := by
  decide +kernel

end Catalogue

end PieceSequencer
