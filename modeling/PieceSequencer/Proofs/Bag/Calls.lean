import PieceSequencer.Proofs.Bag.Cursor
import PieceSequencer.Proofs.Bag.Path

/-! # Calls under any shuffle

What the calls of a bag come to when the shuffle may do anything with a list but change its
length.  A bag is `Sound` if its traversal stands at a piece or has halted and its buffer lies
inside the catalogue; one call keeps that (`Sound.serves`), and so do calls in a row
(`Sound.serveAll`). -/

namespace PieceSequencer

namespace Traversal
variable {a : Arena} {σ : Type} {shuffle : Shuffle σ} {good : Nat → Array Nat → Prop} {size : Nat}

/-! ### Pulling -/

/-- Pulling from a piece gives places of the catalogue, and ends well or halts. -/
theorem Standing.pullOnto (hproper : a.Proper size) (hyields : shuffle.Yields good)
    {t : Traversal a σ} (h : t.Standing good) (n : Nat) (taken : Array Nat) :
    ∃ t' more fault, t.pullOnto shuffle n taken = (t', taken ++ more, fault) ∧
      (∀ index ∈ more, index < size) ∧ Lands good (t', fault) := by
  induction n generalizing t taken with
  | zero => exact ⟨t, #[], none, by simp [Traversal.pullOnto], by simp, .standing h⟩
  | succ n ih =>
      rw [Traversal.pullOnto]
      cases hover : t.isOver with
      | true =>
          rw [next_of_isOver hover]
          exact ⟨t, #[], none, by simp, by simp, .standing h⟩
      | false =>
          obtain ⟨index, hindex, x, hlands, hnext⟩ := h.next hproper hyields hover
          rw [hnext]
          cases hlands with
          | @standing t' ht' =>
              obtain ⟨last, more, fault, hmore, hinside, hlast⟩ := ih ht' (taken.push index)
              refine ⟨last, #[index] ++ more, fault, ?_, ?_, hlast⟩
              · rw [answer]
                simp only [hmore]
                simp
              · intro i hi
                rcases Array.mem_append.mp hi with hi | hi
                · exact Array.mem_singleton.mp hi ▸ hindex
                · exact hinside i hi
          | @halted t' ht' =>
              exact ⟨t', #[], some .positionOutsideChildren, by simp [answer], by simp, .halted ht'⟩

theorem Standing.pull (hproper : a.Proper size) (hyields : shuffle.Yields good)
    {t : Traversal a σ} (h : t.Standing good) (n : Nat) :
    ∃ t' more fault, t.pull shuffle n = (t', more, fault) ∧ (∀ index ∈ more, index < size) ∧
      Lands good (t', fault) := by
  obtain ⟨t', more, fault, hpull, hinside, hlands⟩ := h.pullOnto hproper hyields n #[]
  refine ⟨t', more.toList, fault, ?_, ?_, hlands⟩
  · rw [Traversal.pull, hpull]
    simp
  · simpa using hinside

theorem Halted.pull {t : Traversal a σ} (h : t.Halted good) {n : Nat} (hn : 0 < n) :
    t.pull shuffle n = (t, [], some .topNotPiece) := by
  obtain ⟨m, rfl⟩ : ∃ m, n = m + 1 := ⟨n - 1, by omega⟩
  rw [Traversal.pull, Traversal.pullOnto, h.next]

end Traversal

namespace Bag
variable {σ : Type} {good : Nat → Array Nat → Prop} {bag : Bag σ} {α : Type}

/-! ### Bags -/

/-- The same bag at another place of its walk and with another buffer. -/
def moved (bag : Bag σ) (t : Traversal bag.arena σ) (buffer : List Nat) : Bag σ :=
  { bag with traversal := t, buffer := buffer }

/-- A bag that has run into nothing but the faults of its shuffle. -/
structure Sound (good : Nat → Array Nat → Prop) (bag : Bag σ) : Prop where
  proper : bag.arena.Proper bag.catalogue.length
  yields : bag.shuffle.Yields good
  inside : ∀ index ∈ bag.buffer, index < bag.catalogue.length
  walking : bag.traversal.Standing good ∨ bag.traversal.Halted good

theorem Sound.moved (h : bag.Sound good) {t : Traversal bag.arena σ} {buffer : List Nat}
    (hinside : ∀ index ∈ buffer, index < bag.catalogue.length)
    (ht : t.Standing good ∨ t.Halted good) : (bag.moved t buffer).Sound good :=
  ⟨h.proper, h.yields, hinside, ht⟩

/-- Every buffered place has its piece. -/
theorem piece_of_lt {index : Nat} (h : index < bag.catalogue.length) :
    ∃ piece ∈ bag.catalogue.pieces, bag.piece index = .ok piece := by
  have hget : bag.catalogue.piece? index = some bag.catalogue.pieces[index] :=
    List.getElem?_eq_getElem h
  exact ⟨_, List.getElem_mem h, by rw [piece, hget]⟩

/-- So have buffered places in a row. -/
theorem exists_pieces_of_lt {buffer : List Nat}
    (h : ∀ index ∈ buffer, index < bag.catalogue.length) :
    ∃ pieces, List.Forall₂ (fun index piece => bag.piece index = .ok piece) buffer pieces ∧
      ∀ piece ∈ pieces, piece ∈ bag.catalogue.pieces := by
  induction buffer with
  | nil => exact ⟨[], .nil, by simp⟩
  | cons index buffer ih =>
      obtain ⟨piece, hmem, hpiece⟩ := piece_of_lt (h index List.mem_cons_self)
      obtain ⟨pieces, hpieces, hmems⟩ := ih fun i hi => h i (List.mem_cons_of_mem _ hi)
      refine ⟨piece :: pieces, .cons hpiece hpieces, ?_⟩
      intro p hp
      rcases List.mem_cons.mp hp with rfl | hp
      · exact hmem
      · exact hmems p hp

theorem refill_of_le {n : Nat} (h : n ≤ bag.buffer.length) : bag.refill n = (bag, none) := by
  unfold refill
  rw [List.length_take, Nat.min_eq_left h, Nat.sub_self]
  rfl

theorem refill_of_lt {n : Nat} (h : bag.buffer.length < n) {t : Traversal bag.arena σ}
    {more : List Nat} {fault : Option Fault}
    (hpull : bag.traversal.pull bag.shuffle (n - bag.buffer.length) = (t, more, fault)) :
    bag.refill n = (bag.moved t (bag.buffer ++ more), fault) := by
  unfold refill
  rw [List.length_take, Nat.min_eq_right h.le, if_neg (by omega), hpull]
  rfl

/-! ### Taking a piece -/

theorem moved_self (bag : Bag σ) : bag.moved bag.traversal bag.buffer = bag := rfl

theorem pick_of_cons {index : Nat} {rest : List Nat} (h : bag.buffer = index :: rest) :
    bag.pick = (bag.moved bag.traversal rest, bag.piece index) := by
  unfold pick
  rw [refill_of_le (by rw [h]; exact Nat.succ_pos _)]
  simp only [h]
  rfl

section
variable (hempty : bag.buffer = []) {t : Traversal bag.arena σ}
include hempty

theorem refill_one_of_nil {more : List Nat} {fault : Option Fault}
    (h : bag.traversal.pull bag.shuffle 1 = (t, more, fault)) :
    bag.refill 1 = (bag.moved t more, fault) := by
  have hlen : bag.buffer.length = 0 := by rw [hempty]; rfl
  have hone : bag.traversal.pull bag.shuffle (1 - bag.buffer.length) = (t, more, fault) := by
    rwa [hlen]
  rw [refill_of_lt (hlen ▸ Nat.zero_lt_one) hone, hempty]
  rfl

theorem pick_of_isOver (h : bag.traversal.isOver = true) : bag.pick = (bag, .error .exhausted) := by
  have hpull : bag.traversal.pull bag.shuffle 1 = (bag.traversal, [], none) := by
    rw [Traversal.pull, Traversal.pullOnto, Traversal.next_of_isOver h]
  have hself : bag.moved bag.traversal [] = bag := hempty ▸ bag.moved_self
  unfold pick
  rw [refill_one_of_nil hempty hpull, hself]
  simp only [hempty]

theorem pick_of_answer {index : Nat}
    (h : bag.traversal.next bag.shuffle = Traversal.answer index (t, none)) :
    bag.pick = (bag.moved t [], bag.piece index) := by
  have hpull : bag.traversal.pull bag.shuffle 1 = (t, [index], none) := by
    rw [Traversal.pull, Traversal.pullOnto, h]
    rfl
  unfold pick
  rw [refill_one_of_nil hempty hpull]
  rfl

theorem pick_of_fault {fault : Fault} (h : bag.traversal.next bag.shuffle = (t, .error fault)) :
    bag.pick = (bag.moved t [], .error (.violated fault)) := by
  have hpull : bag.traversal.pull bag.shuffle 1 = (t, [], some fault) := by
    rw [Traversal.pull, Traversal.pullOnto, h]
  unfold pick
  rw [refill_one_of_nil hempty hpull]

end

/-! ### Looking ahead -/

theorem peek_of_refill {n : Nat} {t : Traversal bag.arena σ} {buffer : List Nat}
    (h : bag.refill n = (bag.moved t buffer, none)) :
    bag.peek n = (bag.moved t buffer, (buffer.take n).mapM bag.piece) := by
  unfold peek
  rw [h]
  rfl

theorem peek_of_fault {n : Nat} {t : Traversal bag.arena σ} {buffer : List Nat} {fault : Fault}
    (h : bag.refill n = (bag.moved t buffer, some fault)) :
    bag.peek n = (bag.moved t buffer, .error (.violated fault)) := by
  unfold peek
  rw [h]

/-! ### What calls come to -/

/-- How a call of a bag ends: something is shown, nothing remains, or the traversal halts. -/
inductive Answered (good : Nat → Array Nat → Prop) (bag : Bag σ) (shows : α → Prop) :
    Bag σ × Except BagError α → Prop
  | ok {t : Traversal bag.arena σ} {buffer : List Nat} {y : α} :
    t = bag.traversal ∨ t.Standing good → (∀ index ∈ buffer, index < bag.catalogue.length) →
    shows y → Answered good bag shows (bag.moved t buffer, .ok y)
  | exhausted : bag.isExhausted = true → Answered good bag shows (bag, .error .exhausted)
  | violated {t : Traversal bag.arena σ} {buffer : List Nat} {fault : Fault} :
    t.Halted good → (∀ index ∈ buffer, index < bag.catalogue.length) →
    Answered good bag shows (bag.moved t buffer, .error (.violated fault))

theorem Answered.map {β : Type} {shows : α → Prop} {shows' : β → Prop}
    {x : Bag σ × Except BagError α} (h : Answered good bag shows x) (f : α → β)
    (hf : ∀ y, shows y → shows' (f y)) : Answered good bag shows' (x.1, x.2.map f) := by
  cases h with
  | ok ht hinside hy => exact .ok ht hinside (hf _ hy)
  | exhausted h => exact .exhausted h
  | violated ht hinside => exact .violated ht hinside

theorem Sound.answered_pick (h : bag.Sound good) :
    Answered good bag (· ∈ bag.catalogue.pieces) bag.pick := by
  cases hbuffer : bag.buffer with
  | cons index rest =>
      have hinside := h.inside
      rw [hbuffer] at hinside
      obtain ⟨piece, hmem, hpiece⟩ := piece_of_lt (hinside index List.mem_cons_self)
      rw [pick_of_cons hbuffer, hpiece]
      exact .ok (.inl rfl) (fun i hi => hinside i (List.mem_cons_of_mem _ hi)) hmem
  | nil =>
      rcases h.walking with hstanding | hhalted
      · cases hover : bag.traversal.isOver with
        | true =>
            have hexhausted : bag.isExhausted = true := by
              rw [isExhausted, isDrained, hover, hbuffer]
              rfl
            rw [pick_of_isOver hbuffer hover]
            exact .exhausted hexhausted
        | false =>
            obtain ⟨index, hindex, x, hlands, hnext⟩ := hstanding.next h.proper h.yields hover
            cases hlands with
            | standing ht =>
                obtain ⟨piece, hmem, hpiece⟩ := piece_of_lt hindex
                rw [pick_of_answer hbuffer hnext, hpiece]
                exact .ok (.inr ht) (by simp) hmem
            | halted ht =>
                rw [pick_of_fault hbuffer hnext]
                exact .violated ht (by simp)
      · rw [pick_of_fault hbuffer hhalted.next]
        exact .violated hhalted (by simp)

theorem Sound.answered_peek (h : bag.Sound good) (n : Nat) :
    Answered good bag (fun pieces => ∀ piece ∈ pieces, piece ∈ bag.catalogue.pieces)
      (bag.peek n) := by
  have hshown : ∀ {t : Traversal bag.arena σ} {buffer : List Nat},
      t = bag.traversal ∨ t.Standing good → (∀ index ∈ buffer, index < bag.catalogue.length) →
      bag.refill n = (bag.moved t buffer, none) →
      Answered good bag (fun pieces => ∀ piece ∈ pieces, piece ∈ bag.catalogue.pieces)
        (bag.peek n) := by
    intro t buffer ht hinside hrefill
    obtain ⟨pieces, hpieces, hmem⟩ :=
      exists_pieces_of_lt fun i hi => hinside i (List.mem_of_mem_take (i := n) hi)
    rw [peek_of_refill hrefill, mapM_eq_ok_iff.mpr hpieces]
    exact .ok ht hinside hmem
  rcases Nat.lt_or_ge bag.buffer.length n with hlt | hle
  · rcases h.walking with hstanding | hhalted
    · obtain ⟨t, more, fault, hpull, hmore, hlands⟩ :=
        hstanding.pull h.proper h.yields (n - bag.buffer.length)
      have hinside : ∀ index ∈ bag.buffer ++ more, index < bag.catalogue.length :=
        fun i hi => (List.mem_append.mp hi).elim (h.inside i) (hmore i)
      have hrefill := refill_of_lt hlt hpull
      cases hlands with
      | standing ht => exact hshown (.inr ht) hinside hrefill
      | halted ht =>
          rw [peek_of_fault hrefill]
          exact .violated ht hinside
    · rw [peek_of_fault (refill_of_lt hlt (hhalted.pull (Nat.sub_pos_of_lt hlt)))]
      exact .violated hhalted (by simpa using h.inside)
  · exact hshown (.inl rfl) h.inside (refill_of_le hle)

end Bag

/-! ### Replies -/

namespace Reply

/-- The error that came back, if it was one. -/
def error? : Reply → Option BagError
  | .piece (.error e) | .key (.error e) | .pieces (.error e) | .keys (.error e) => some e
  | _ => none

/-- What came back is from the catalogue. -/
def From (catalogue : Catalogue) : Reply → Prop
  | .piece (.ok p) => p ∈ catalogue.pieces
  | .key (.ok k) => k ∈ catalogue.keys
  | .pieces (.ok ps) => ∀ p ∈ ps, p ∈ catalogue.pieces
  | .keys (.ok ks) => ∀ k ∈ ks, k ∈ catalogue.keys
  | _ => True

end Reply

namespace Bag
variable {σ : Type} {good : Nat → Array Nat → Prop} {bag : Bag σ} {α : Type}

/-- What a call of a bag comes to, whatever it asks. -/
structure Serves (good : Nat → Array Nat → Prop) (bag : Bag σ) (x : Bag σ × Reply) : Prop where
  moved : ∃ t buffer, x.1 = bag.moved t buffer
  sound : x.1.Sound good
  shown : x.2.From bag.catalogue
  exhausted : x.2.error? = some .exhausted → x.1 = bag ∧ bag.isExhausted = true
  violated : ∀ fault, x.2.error? = some (.violated fault) → x.1.traversal.Halted good
  standing : bag.traversal.Standing good → (∀ fault, x.2.error? ≠ some (.violated fault)) →
    x.1.traversal.Standing good

theorem Answered.serves {shows : α → Prop} {x : Bag σ × Except BagError α}
    (h : Answered good bag shows x) (hbag : bag.Sound good) {reply : Except BagError α → Reply}
    (herror : ∀ e, (reply (.error e)).error? = some e ∧ (reply (.error e)).From bag.catalogue)
    (hshows : ∀ y, (reply (.ok y)).error? = none ∧
      (shows y → (reply (.ok y)).From bag.catalogue)) :
    Serves good bag (x.1, reply x.2) := by
  cases h with
  | @ok t buffer y ht hinside hy =>
      obtain ⟨hnone, hfrom⟩ := hshows y
      refine ⟨⟨t, buffer, rfl⟩, hbag.moved hinside ?_, hfrom hy, ?_, ?_, ?_⟩
      · exact ht.elim (fun heq => heq ▸ hbag.walking) .inl
      · simp [hnone]
      · simp [hnone]
      · exact fun hstanding _ => ht.elim (fun heq => heq ▸ hstanding) id
  | exhausted hexhausted =>
      obtain ⟨hsome, hfrom⟩ := herror .exhausted
      refine ⟨⟨_, _, bag.moved_self.symm⟩, hbag, hfrom, fun _ => ⟨rfl, hexhausted⟩, ?_, ?_⟩
      · simp [hsome]
      · exact fun hstanding _ => hstanding
  | @violated t buffer fault ht hinside =>
      obtain ⟨hsome, hfrom⟩ := herror (.violated fault)
      refine ⟨⟨t, buffer, rfl⟩, hbag.moved hinside (.inr ht), hfrom, ?_, fun _ _ => ht, ?_⟩
      · simp [hsome]
      · exact fun _ hno => absurd hsome (hno fault)

theorem mem_keys_of_mem {piece : Piece} {catalogue : Catalogue} (h : piece ∈ catalogue.pieces) :
    piece.key ∈ catalogue.keys := List.mem_map_of_mem h

/-- One call of a sound bag. -/
theorem Sound.serves (h : bag.Sound good) (request : Request) :
    Serves good bag (bag.serve request) := by
  have hpick := h.answered_pick
  have hpeek := h.answered_peek
  have hkeys : ∀ pieces : List Piece, (∀ piece ∈ pieces, piece ∈ bag.catalogue.pieces) →
      ∀ key ∈ pieces.map Piece.key, key ∈ bag.catalogue.keys := by
    intro pieces hpieces key hkey
    obtain ⟨piece, hpiece, rfl⟩ := List.mem_map.mp hkey
    exact mem_keys_of_mem (hpieces piece hpiece)
  cases request with
  | pick => exact hpick.serves h (fun e => ⟨rfl, trivial⟩) fun y => ⟨rfl, id⟩
  | dealerPick => exact hpick.serves h (fun e => ⟨rfl, trivial⟩) fun y => ⟨rfl, id⟩
  | pickKey =>
      have hkey := hpick.map Piece.key fun _ => mem_keys_of_mem
      exact hkey.serves h (fun e => ⟨rfl, trivial⟩) fun y => ⟨rfl, id⟩
  | peek n => exact (hpeek n).serves h (fun e => ⟨rfl, trivial⟩) fun y => ⟨rfl, id⟩
  | dealerPeek n => exact (hpeek n).serves h (fun e => ⟨rfl, trivial⟩) fun y => ⟨rfl, id⟩
  | peekKeys n =>
      have hkey : Answered good bag (fun keys => ∀ key ∈ keys, key ∈ bag.catalogue.keys)
          (bag.peekKeys n) := (hpeek n).map (List.map Piece.key) hkeys
      exact hkey.serves h (fun e => ⟨rfl, trivial⟩) fun y => ⟨rfl, id⟩

end Bag

/-! ### Calls in a row -/

theorem serveAll_cons {β : Type} (serve : β → Request → β × Reply) (state : β) (request : Request)
    (requests : List Request) : serveAll serve state (request :: requests) =
      ((serveAll serve (serve state request).1 requests).1,
        (serve state request).2 :: (serveAll serve (serve state request).1 requests).2) := rfl

namespace Bag
variable {σ : Type} {good : Nat → Array Nat → Prop} {bag : Bag σ} {α : Type}

/-- What a bag keeps whatever is asked of it. -/
theorem Sound.serveAll (h : bag.Sound good) (requests : List Request) :
    let served := PieceSequencer.serveAll serve bag requests
    (∃ t buffer, served.1 = bag.moved t buffer) ∧ served.1.Sound good ∧
      ∀ reply ∈ served.2, reply.From bag.catalogue := by
  induction requests generalizing bag with
  | nil => exact ⟨⟨_, _, bag.moved_self.symm⟩, h, by simp [PieceSequencer.serveAll]⟩
  | cons request requests ih =>
      have hfirst := h.serves request
      obtain ⟨hrest, hsound, hreplies⟩ := ih hfirst.sound
      obtain ⟨t, buffer, hmoved⟩ := hfirst.moved
      rw [hmoved] at hrest hreplies
      obtain ⟨t', buffer', hmoved'⟩ := hrest
      rw [serveAll_cons]
      refine ⟨⟨t', buffer', ?_⟩, hsound, ?_⟩
      · rw [hmoved, hmoved']
        rfl
      · intro reply hreply
        rcases List.mem_cons.mp hreply with rfl | hreply
        · exact hfirst.shown
        · exact hreplies reply (hmoved ▸ hreply)

/-! ### Building -/

/-- Over a valid catalogue and a pattern that can be read, building a bag fails only because the
shuffle has dealt no order. -/
theorem build_sound {catalogue : Catalogue} {text : String} {p : Pattern} {shuffle : Shuffle σ}
    (hvalid : catalogue.validate = .ok ()) (hread : Pattern.ofText catalogue.keys text = .ok p)
    (hcount : p.countable = true) (hyields : shuffle.Yields good) (source : σ) :
    (∃ bag, build catalogue text shuffle source = .ok bag ∧ bag.catalogue = catalogue ∧
      bag.pattern = p ∧ Arena.ofPattern catalogue p = .ok bag.arena ∧ bag.Sound good ∧
      bag.traversal.Standing good) ∨
    ∃ failure, build catalogue text shuffle source = .error failure ∧
      failure.error = .violated .positionOutsideChildren ∧
      ∃ (a : Arena) (t : Traversal a σ), t.Halted good := by
  have hwf := p.wellFormed_of_ofText hread hcount
  obtain ⟨a, harena, -⟩ := Arena.ofPattern_holds (Pattern.keys_subset_of_wellFormed hwf)
  have hproper := Arena.proper_ofPattern hwf harena
  have hlands : Traversal.Lands good (Traversal.start shuffle source : Traversal.Outcome a σ) :=
    Traversal.lands_start hproper hyields source
  unfold build
  simp only [hvalid, hread, harena]
  cases hstart : (Traversal.start shuffle source : Traversal.Outcome a σ) with
  | mk t fault =>
      rw [hstart] at hlands
      cases hlands with
      | standing ht =>
          exact .inl ⟨_, rfl, rfl, rfl, rfl, ⟨hproper, hyields, by simp, .inl ht⟩, ht⟩
      | halted ht => exact .inr ⟨_, rfl, rfl, a, t, ht⟩

end Bag

end PieceSequencer
