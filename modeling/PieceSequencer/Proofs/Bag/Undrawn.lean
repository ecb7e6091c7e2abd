import PieceSequencer.Proofs.Bag.Draws

/-! # Only drawn places matter

A random group visits the first few places of every order that it draws.  What a draw writes behind
them stays in the frame of the group, but nothing that a bag shows depends on it
(`Bag.build_ignores_undrawn`).  Two walks whose draws agree where they are visited go in lockstep:
their frames are of the same slots and equally far in orders that agree where the slots visit them
(`Frame.Alike`), and every way of moving on keeps this and makes equally many draws
(`Traversal.Lockstep`).  So both give the same answers at every step, and a bag shows nothing but
these (`Bag.SameAnswers.serveAll`). -/

namespace PieceSequencer

variable {a : Arena} {σ τ : Type}

/-! ### Draws that agree -/

namespace Draw

/-- The second order agrees with the first where that is visited. -/
def Agrees (d d' : Draw) : Prop := d.order.toList.take d.picks = d'.order.toList.take d.picks

/-- The draws agree one by one, as far as both rows go. -/
def AgreeAll (draws draws' : List Draw) : Prop :=
  ∀ (k : Nat) (d d' : Draw), draws[k]? = some d → draws'[k]? = some d' → d.Agrees d'

instance (d d' : Draw) : Decidable (d.Agrees d') := inferInstanceAs (Decidable (_ = _))

variable {draws draws' more more' : List Draw}

theorem agreeAll_iff_zip : AgreeAll draws draws' ↔ ∀ x ∈ draws.zip draws', x.1.Agrees x.2 := by
  constructor
  · intro h x hx
    obtain ⟨k, hk⟩ := List.mem_iff_getElem?.mp hx
    obtain ⟨hd, hd'⟩ := List.getElem?_zip_eq_some.mp hk
    exact h k _ _ hd hd'
  · intro h k d d' hd hd'
    exact h (d, d') (List.mem_of_getElem? (List.getElem?_zip_eq_some.mpr ⟨hd, hd'⟩))

instance (draws draws' : List Draw) : Decidable (AgreeAll draws draws') :=
  decidable_of_iff _ agreeAll_iff_zip.symm

theorem AgreeAll.of_append (h : AgreeAll (draws ++ more) (draws' ++ more')) :
    AgreeAll draws draws' := by
  intro k d d' hd hd'
  refine h k d d' ?_ ?_
  · rw [List.getElem?_append_left (List.getElem?_eq_some_iff.mp hd).1, hd]
  · rw [List.getElem?_append_left (List.getElem?_eq_some_iff.mp hd').1, hd']

theorem AgreeAll.rest (h : AgreeAll (draws ++ more) (draws' ++ more'))
    (hlen : draws.length = draws'.length) : AgreeAll more more' := by
  intro k d d' hd hd'
  refine h (draws.length + k) d d' ?_ ?_
  · rw [List.getElem?_append_right (Nat.le_add_right _ _), Nat.add_sub_cancel_left, hd]
  · rw [hlen, List.getElem?_append_right (Nat.le_add_right _ _), Nat.add_sub_cancel_left, hd']

theorem agrees_of_agreeAll_cons {d d' : Draw} (h : AgreeAll (d :: more) (d' :: more')) :
    d.Agrees d' ∧ AgreeAll more more' := by
  have hrest : AgreeAll ([d] ++ more) ([d'] ++ more') := h
  exact ⟨h 0 d d' rfl rfl, hrest.rest rfl⟩

end Draw

/-! ### Frames that are alike -/

namespace Slot

/-- The places of an order that a frame of this slot visits. -/
def visited (order : Array Nat) : Slot → List Nat
  | .random _ picks _ => order.toList.take picks
  | _ => order.toList

/-- The position is one of those that a frame of this slot visits, if the order has it. -/
def Reaches (current : Nat) : Slot → Prop
  | .random _ picks _ => current < picks
  | _ => True

theorem getElem?_visited {slot : Slot} {current : Nat} (h : slot.Reaches current)
    (order : Array Nat) : (slot.visited order)[current]? = order[current]? := by
  cases slot with
  | random children picks r =>
      rw [visited, List.getElem?_take_of_lt h, Array.getElem?_toList]
  | _ => exact Array.getElem?_toList

end Slot

namespace Frame

/-- Frames of one slot, equally far in orders that agree where the slot visits them. -/
structure Alike (frame frame' : Frame a) : Prop where
  slot : frame.slot = frame'.slot
  current : frame.current = frame'.current
  rounds : frame.rounds = frame'.rounds
  size : frame.order.size = frame'.order.size
  visited : frame.content.visited frame.order = frame.content.visited frame'.order
  reaches : frame.content.Reaches frame.current

variable {frame frame' : Frame a}

theorem Alike.content (h : frame.Alike frame') : frame.content = frame'.content := by
  simp only [Frame.content, h.slot]

/-- They visit the same child. -/
theorem Alike.child?_eq (h : frame.Alike frame') : frame.child? = frame'.child? := by
  have hplace : frame.order[frame.current]? = frame'.order[frame'.current]? := by
    rw [← h.current, ← Slot.getElem?_visited h.reaches, ← Slot.getElem?_visited h.reaches,
      h.visited]
  rw [child?, child?, hplace, h.content]

theorem Alike.advance (h : frame.Alike frame')
    (hreaches : frame.content.Reaches (frame.current + 1)) :
    frame.advance.Alike frame'.advance :=
  ⟨h.slot, congrArg (· + 1) h.current, h.rounds, h.size, h.visited, hreaches⟩

theorem Alike.replay (h : frame.Alike frame') (hreaches : frame.content.Reaches 0) :
    frame.replay.Alike frame'.replay :=
  ⟨h.slot, rfl, congrArg (· + 1) h.rounds, h.size, h.visited, hreaches⟩

/-- Fresh orders that agree where they are visited. -/
theorem Alike.redraw {shuffle : Shuffle σ} {shuffle' : Shuffle τ} {source : σ} {source' : τ}
    {children : Array Nat} {picks : Nat} {r : UInt32} (h : frame.Alike frame')
    (hcontent : frame.content = .random children picks r) (hpicks : 0 < picks)
    (hagrees : Draw.Agrees ⟨picks, (frame.redraw shuffle source).1.order⟩
      ⟨picks, (frame'.redraw shuffle' source').1.order⟩) :
    (frame.redraw shuffle source).1.Alike (frame'.redraw shuffle' source').1 := by
  have hredrawn : (frame.redraw shuffle source).1.content = .random children picks r := hcontent
  refine ⟨h.slot, rfl, congrArg (· + 1) h.rounds, ?_, ?_, ?_⟩
  · change (shuffle.deal frame.order.size source).1.size =
      (shuffle'.deal frame'.order.size source').1.size
    rw [Shuffle.size_deal, Shuffle.size_deal, h.size]
  · rw [hredrawn]
    exact hagrees
  · rw [hredrawn]
    exact hpicks

/-- Entering a slot. -/
theorem alike_enter {size : Nat} (hproper : a.Proper size) {shuffle : Shuffle σ}
    {shuffle' : Shuffle τ} {source : σ} {source' : τ} (slot : Fin a.size)
    (hagree : Draw.AgreeAll (enterDraws shuffle source slot) (enterDraws shuffle' source' slot)) :
    (enter shuffle source slot).1.Alike (enter shuffle' source' slot).1 ∧
      (enterDraws shuffle source slot).length = (enterDraws shuffle' source' slot).length := by
  have hslot : (a.slots[slot]).Proper size := hproper _ (Array.getElem_mem _)
  unfold enterDraws at hagree ⊢
  simp only [content_enter] at hagree ⊢
  unfold enter at hagree ⊢
  cases hcontent : a.slots[slot] with
  | random children picks r =>
      rw [hcontent] at hagree hslot
      have hagrees := (Draw.agrees_of_agreeAll_cons hagree).1
      refine ⟨⟨rfl, rfl, rfl, ?_, ?_, ?_⟩, rfl⟩
      · simp only [Shuffle.size_deal]
      · simp only [content, hcontent]
        exact hagrees
      · simp only [content, hcontent]
        exact hslot.2.1
  | _ =>
      refine ⟨⟨rfl, rfl, rfl, rfl, rfl, ?_⟩, rfl⟩
      simp only [content, hcontent]
      trivial

end Frame

namespace Traversal

/-! ### Walks in lockstep -/

/-- Both ways of moving on end at frames that are alike, fail alike and make equally many draws. -/
structure Lockstep (x : Outcome a σ) (x' : Outcome a τ) (draws draws' : List Draw) : Prop where
  stack : List.Forall₂ Frame.Alike x.1.stack x'.1.stack
  fault : x.2 = x'.2
  length : draws.length = draws'.length

variable {shuffle : Shuffle σ} {shuffle' : Shuffle τ} {size : Nat} {source : σ} {source' : τ}

section
variable (hproper : a.Proper size)
include hproper

theorem lockstep_descend {frame frame' : Frame a} {below below' : List (Frame a)}
    (h : frame.Alike frame') (hbelow : List.Forall₂ Frame.Alike below below')
    (hagree : Draw.AgreeAll (descendDraws shuffle frame source)
      (descendDraws shuffle' frame' source')) :
    Lockstep (descend shuffle frame below source) (descend shuffle' frame' below' source')
      (descendDraws shuffle frame source) (descendDraws shuffle' frame' source') := by
  -- a child ranks below its parent
  induction hrank : a.rank frame.slot using Nat.strong_induction_on
    generalizing frame frame' below below' source source' with
  | _ n ih =>
      subst hrank
      rcases descent_cases frame with ⟨index, r, hcontent⟩ | ⟨hinner, hnone⟩ | ⟨slot, hchild, hlt⟩
      · have hcontent' : frame'.content = .piece index r := h.content ▸ hcontent
        rw [descend_of_piece hcontent, descend_of_piece hcontent', descendDraws_of_piece hcontent,
          descendDraws_of_piece hcontent']
        exact ⟨.cons h hbelow, rfl, rfl⟩
      · have hnone' : frame'.child? = none := h.child?_eq ▸ hnone
        rw [descend_of_none hinner hnone, descend_of_none (h.content ▸ hinner) hnone',
          descendDraws_of_none hnone, descendDraws_of_none hnone']
        exact ⟨.cons h hbelow, rfl, rfl⟩
      · have hchild' : frame'.child? = some slot.val := h.child?_eq ▸ hchild
        rw [descendDraws_of_child slot hchild, descendDraws_of_child slot hchild'] at hagree ⊢
        rw [descend_of_child slot hchild, descend_of_child slot hchild']
        obtain ⟨halike, hlen⟩ := Frame.alike_enter hproper slot hagree.of_append
        have hdown := ih _ (by rwa [Frame.slot_enter]) halike (.cons h hbelow) (hagree.rest hlen)
          rfl
        refine ⟨hdown.stack, hdown.fault, ?_⟩
        rw [visitDraws, visitDraws, List.length_append, List.length_append, hlen, hdown.length]

theorem lockstep_unwind {stack stack' : List (Frame a)}
    (h : List.Forall₂ Frame.Alike stack stack')
    (hagree : Draw.AgreeAll (unwindDraws shuffle stack source)
      (unwindDraws shuffle' stack' source')) :
    Lockstep (unwind shuffle stack source) (unwind shuffle' stack' source')
      (unwindDraws shuffle stack source) (unwindDraws shuffle' stack' source') := by
  induction h with
  | nil => exact ⟨.nil, rfl, rfl⟩
  | @cons frame frame' below below' h hbelow ih =>
      have hproper' : frame.content.Proper size := hproper _ (Array.getElem_mem _)
      have hcontent' := h.content
      rw [unwindDraws, unwindDraws] at hagree ⊢
      rw [unwind, unwind]
      rw [← hcontent', ← h.current, ← h.rounds] at hagree ⊢
      cases hcontent : frame.content with
      | piece index r => exact ⟨.cons h hbelow, rfl, rfl⟩
      | root children forever =>
          simp only [hcontent] at hagree ⊢
          by_cases hnext : frame.current + 1 < children.size
          · simp only [if_pos hnext] at hagree ⊢
            exact lockstep_descend hproper (h.advance (hcontent ▸ trivial)) hbelow hagree
          · simp only [if_neg hnext] at hagree ⊢
            cases forever with
            | true => exact lockstep_descend hproper h hbelow hagree
            | false => exact ⟨.nil, rfl, rfl⟩
      | group children r =>
          simp only [hcontent] at hagree ⊢
          by_cases hnext : frame.current + 1 < children.size
          · simp only [if_pos hnext] at hagree ⊢
            exact lockstep_descend hproper (h.advance (hcontent ▸ trivial)) hbelow hagree
          · by_cases hround : frame.rounds + 1 < r.toNat
            · simp only [if_neg hnext, if_pos hround] at hagree ⊢
              exact lockstep_descend hproper (h.replay (hcontent ▸ trivial)) hbelow hagree
            · simp only [if_neg hnext, if_neg hround] at hagree ⊢
              exact ih hagree
      | random children picks r =>
          rw [hcontent] at hproper'
          simp only [hcontent] at hagree ⊢
          by_cases hnext : frame.current + 1 < min picks children.size
          · simp only [if_pos hnext] at hagree ⊢
            have hreaches : frame.content.Reaches (frame.current + 1) := by
              rw [hcontent]
              exact (Nat.lt_min.mp hnext).1
            exact lockstep_descend hproper (h.advance hreaches) hbelow hagree
          · by_cases hround : frame.rounds + 1 < r.toNat
            · simp only [if_neg hnext, if_pos hround] at hagree ⊢
              obtain ⟨hagrees, hrest⟩ := Draw.agrees_of_agreeAll_cons hagree
              have hdown := lockstep_descend hproper (h.redraw hcontent hproper'.2.1 hagrees)
                hbelow hrest
              exact ⟨hdown.stack, hdown.fault, congrArg (· + 1) hdown.length⟩
            · simp only [if_neg hnext, if_neg hround] at hagree ⊢
              exact ih hagree

theorem lockstep_start (hagree : Draw.AgreeAll (visitDraws shuffle a.root source)
      (visitDraws shuffle' a.root source')) :
    Lockstep (start shuffle source : Outcome a σ) (start shuffle' source' : Outcome a τ)
      (visitDraws shuffle a.root source) (visitDraws shuffle' a.root source') := by
  obtain ⟨halike, hlen⟩ := Frame.alike_enter hproper a.root hagree.of_append
  have hdown := lockstep_descend hproper halike .nil (hagree.rest hlen)
  refine ⟨hdown.stack, hdown.fault, ?_⟩
  rw [visitDraws, visitDraws, List.length_append, List.length_append, hlen, hdown.length]

/-! ### Steps -/

variable {t : Traversal a σ} {t' : Traversal a τ}

/-- One step of each. -/
theorem lockstep_next (h : List.Forall₂ Frame.Alike t.stack t'.stack)
    (hagree : Draw.AgreeAll (t.nextDraws shuffle) (t'.nextDraws shuffle')) :
    List.Forall₂ Frame.Alike (t.next shuffle).1.stack (t'.next shuffle').1.stack ∧
      (t.next shuffle).2 = (t'.next shuffle').2 ∧
      (t.nextDraws shuffle).length = (t'.nextDraws shuffle').length := by
  obtain ⟨stack, source⟩ := t
  obtain ⟨stack', source'⟩ := t'
  cases h with
  | nil => exact ⟨.nil, rfl, rfl⟩
  | @cons frame frame' below below' h hbelow =>
      have hcontent' := h.content
      unfold nextDraws at hagree ⊢
      unfold next
      simp only [← hcontent', ← h.rounds] at hagree ⊢
      cases hcontent : frame.content with
      | piece index r =>
          simp only [hcontent] at hagree ⊢
          by_cases hround : frame.rounds + 1 < r.toNat
          · simp only [if_pos hround]
            have hagain : ({ frame with rounds := frame.rounds + 1 } : Frame a).Alike
                { frame' with rounds := frame.rounds + 1 } :=
              ⟨h.slot, h.current, rfl, h.size, h.visited, h.reaches⟩
            exact ⟨.cons hagain hbelow, trivial, trivial⟩
          · simp only [if_neg hround] at hagree ⊢
            obtain ⟨hstack, hfault, hlen⟩ := lockstep_unwind hproper hbelow hagree
            generalize unwind shuffle below source = x at hstack hfault ⊢
            generalize unwind shuffle' below' source' = x' at hstack hfault ⊢
            obtain ⟨u, fault⟩ := x
            obtain ⟨u', fault'⟩ := x'
            obtain rfl : fault = fault' := hfault
            cases fault with
            | none => exact ⟨hstack, rfl, hlen⟩
            | some fault => exact ⟨hstack, rfl, hlen⟩
      | _ => exact ⟨.cons h hbelow, rfl, rfl⟩

section
variable (h : List.Forall₂ Frame.Alike t.stack t'.stack)
  (hagree : ∀ n, Draw.AgreeAll (t.drawsFrom shuffle n) (t'.drawsFrom shuffle' n))
include h hagree

/-- Any number of steps of each. -/
theorem lockstep_after (n : Nat) :
    List.Forall₂ Frame.Alike (t.after shuffle n).stack (t'.after shuffle' n).stack ∧
      ((t.after shuffle n).next shuffle).2 = ((t'.after shuffle' n).next shuffle').2 ∧
      (t.drawsFrom shuffle n).length = (t'.drawsFrom shuffle' n).length := by
  have hone : Draw.AgreeAll (t.nextDraws shuffle) (t'.nextDraws shuffle') := (hagree 1).of_append
  obtain ⟨hstack, hanswer, hlen⟩ := lockstep_next hproper h hone
  induction n generalizing t t' with
  | zero => exact ⟨h, hanswer, rfl⟩
  | succ n ih =>
      have hrest : ∀ n, Draw.AgreeAll ((t.next shuffle).1.drawsFrom shuffle n)
          ((t'.next shuffle').1.drawsFrom shuffle' n) := fun n => (hagree (n + 1)).rest hlen
      have hnext := (hrest 1).of_append
      obtain ⟨hstack', hanswer', hlen'⟩ := lockstep_next hproper hstack hnext
      obtain ⟨hlast, hshown, hall⟩ := ih hstack hrest hnext hstack' hanswer' hlen'
      refine ⟨hlast, hshown, ?_⟩
      rw [drawsFrom, drawsFrom, List.length_append, List.length_append, hlen, hall]

theorem sameAnswers_of_alike : SameAnswers shuffle shuffle' t t' := by
  constructor
  · exact fun n => (lockstep_after hproper h hagree n).2.1
  · intro n
    have hstack := (lockstep_after hproper h hagree n).1
    unfold isOver
    generalize (t.after shuffle n).stack = stack at hstack ⊢
    generalize (t'.after shuffle' n).stack = stack' at hstack ⊢
    cases hstack <;> rfl

end

end

end Traversal

/-! ### The whole walk -/

namespace Traversal
variable {shuffle : Shuffle σ} {shuffle' : Shuffle τ} {source : σ} {source' : τ} {size : Nat}

/-- What counts the draws of a shuffle has counted all draws of the walk. -/
theorem count_after {count : σ → Nat} (hcounts : shuffle.Counts count) (steps : Nat) :
    count ((start shuffle source : Outcome a σ).1.after shuffle steps).source =
      count source + (a.draws shuffle source steps).length := by
  rw [track_after hcounts, track_start hcounts, ← Draw.followed_append, Draw.followed_count]
  rfl

theorem drawsFrom_add (m n : Nat) (t : Traversal a σ) : t.drawsFrom shuffle (m + n) =
    t.drawsFrom shuffle m ++ (t.after shuffle m).drawsFrom shuffle n := by
  induction m generalizing t with
  | zero =>
      rw [Nat.zero_add]
      rfl
  | succ m ih => rw [Nat.add_right_comm, drawsFrom, drawsFrom, ih, List.append_assoc, after]

theorem drawsFrom_of_isOver {t : Traversal a σ} (h : t.isOver = true) (n : Nat) :
    t.drawsFrom shuffle n = [] := by
  have hnil : t.stack = [] := List.isEmpty_iff.mp h
  induction n with
  | zero => rfl
  | succ n ih => rw [drawsFrom, next_of_isOver h, ih, nextDraws, hnil, List.append_nil]

/-- Where both walks are over it can be seen whether their draws agree. -/
theorem agreeAll_of_isOver {steps : Nat}
    (hover : ((start shuffle source : Outcome a σ).1.after shuffle steps).isOver = true)
    (hover' : ((start shuffle' source' : Outcome a τ).1.after shuffle' steps).isOver = true)
    (h : Draw.AgreeAll (a.draws shuffle source steps) (a.draws shuffle' source' steps))
    (n : Nat) : Draw.AgreeAll (a.draws shuffle source n) (a.draws shuffle' source' n) := by
  unfold Arena.draws at h ⊢
  rcases Nat.le_total n steps with hle | hle
  · obtain ⟨m, rfl⟩ := Nat.exists_eq_add_of_le hle
    rw [drawsFrom_add, drawsFrom_add, ← List.append_assoc, ← List.append_assoc] at h
    exact h.of_append
  · obtain ⟨m, rfl⟩ := Nat.exists_eq_add_of_le hle
    rwa [drawsFrom_add, drawsFrom_add, drawsFrom_of_isOver hover, drawsFrom_of_isOver hover',
      List.append_nil, List.append_nil]

section
variable (hproper : a.Proper size) (hagree : ∀ steps,
  Draw.AgreeAll (a.draws shuffle source steps) (a.draws shuffle' source' steps))
include hproper hagree

theorem agreeAll_drawsFrom (n : Nat) :
    Draw.AgreeAll ((start shuffle source : Outcome a σ).1.drawsFrom shuffle n)
      ((start shuffle' source' : Outcome a τ).1.drawsFrom shuffle' n) :=
  (hagree n).rest (lockstep_start hproper (hagree 0).of_append).length

theorem sameAnswers_start : SameAnswers shuffle shuffle' (start shuffle source : Outcome a σ).1
    (start shuffle' source' : Outcome a τ).1 :=
  sameAnswers_of_alike hproper (lockstep_start hproper (hagree 0).of_append).stack
    (agreeAll_drawsFrom hproper hagree)

/-- Both walks make equally many draws in any number of steps. -/
theorem length_draws_eq (steps : Nat) :
    (a.draws shuffle source steps).length = (a.draws shuffle' source' steps).length := by
  have hfirst := lockstep_start hproper (hagree 0).of_append
  have hrest := agreeAll_drawsFrom hproper hagree
  obtain ⟨-, -, hlast⟩ := lockstep_after hproper hfirst.stack hrest steps
  rw [Arena.draws, Arena.draws, List.length_append, List.length_append, hfirst.length, hlast]

/-- So counters that agree at the beginning agree after any number of steps. -/
theorem count_after_eq {count : σ → Nat} {count' : τ → Nat} (hcounts : shuffle.Counts count)
    (hcounts' : shuffle'.Counts count') (hsame : count source = count' source') (steps : Nat) :
    count ((start shuffle source : Outcome a σ).1.after shuffle steps).source =
      count' ((start shuffle' source' : Outcome a τ).1.after shuffle' steps).source := by
  rw [count_after hcounts, count_after hcounts', hsame, length_draws_eq hproper hagree]

end

end Traversal

namespace Bag

/-- **Only the drawn places matter.**  Let two shuffles do what they like, as long as their draws
agree, one by one, on the first places that the random group visits for which the first walk makes
the draw.  Then the same error comes of building a bag with either, or the two bags answer all calls
alike and say the same of themselves.  The same calls take both the same number of steps on, by
which both walks have made equally many draws; so counters in the states of the shuffles agree. -/
theorem build_ignores_undrawn {catalogue : Catalogue} {text : String} {p : Pattern}
    (hvalid : catalogue.validate = .ok ()) (hread : Pattern.ofText catalogue.keys text = .ok p)
    (hcountable : p.countable = true) (harena : Arena.ofPattern catalogue p = .ok a)
    {shuffle : Shuffle σ} {shuffle' : Shuffle τ} {source : σ} {source' : τ}
    (hagree : ∀ steps,
      Draw.AgreeAll (a.draws shuffle source steps) (a.draws shuffle' source' steps)) :
    (∀ steps, (a.draws shuffle source steps).length = (a.draws shuffle' source' steps).length) ∧
    ((∃ failure failure', build catalogue text shuffle source = .error failure ∧
      build catalogue text shuffle' source' = .error failure' ∧
      failure.error = failure'.error ∧
      ∀ count count', shuffle.Counts count → shuffle'.Counts count' →
        count source = count' source' → count failure.source = count' failure'.source) ∨
    ∃ bag bag', build catalogue text shuffle source = .ok bag ∧
      build catalogue text shuffle' source' = .ok bag' ∧
      ∀ requests : List Request,
        let served := serveAll serve bag requests
        let served' := serveAll serve bag' requests
        served.2 = served'.2 ∧ served.1.buffered = served'.1.buffered ∧
        served.1.isDrained = served'.1.isDrained ∧ served.1.isExhausted = served'.1.isExhausted ∧
        (∃ steps, served.1.source = (bag.traversal.after shuffle steps).source ∧
          served'.1.source = (bag'.traversal.after shuffle' steps).source) ∧
        ∀ count count', shuffle.Counts count → shuffle'.Counts count' →
          count source = count' source' → count served.1.source = count' served'.1.source) := by
  have hproper := Arena.proper_ofPattern (p.wellFormed_of_ofText hread hcountable) harena
  have hfault := (Traversal.lockstep_start hproper (hagree 0).of_append).fault
  have hsame := Traversal.sameAnswers_start hproper hagree
  have hcounted := @Traversal.count_after_eq _ _ _ _ _ _ _ _ hproper hagree
  refine ⟨Traversal.length_draws_eq hproper hagree, ?_⟩
  unfold build
  simp only [hvalid, hread, harena]
  generalize (Traversal.start shuffle source : Traversal.Outcome a σ) = x
    at hfault hsame hcounted
  generalize (Traversal.start shuffle' source' : Traversal.Outcome a τ) = x'
    at hfault hsame hcounted
  obtain ⟨t, fault⟩ := x
  obtain ⟨t', fault'⟩ := x'
  obtain rfl : fault = fault' := hfault
  cases fault with
  | some fault =>
      exact .inl ⟨_, _, rfl, rfl, rfl, fun _ _ hcounts hcounts' hstart =>
        hcounted hcounts hcounts' hstart 0⟩
  | none =>
      refine .inr ⟨_, _, rfl, rfl, fun requests => ?_⟩
      have hbags : SameAnswers (⟨catalogue, p, shuffle, a, t, []⟩ : Bag σ)
          ⟨catalogue, p, shuffle', a, t', []⟩ := ⟨rfl, rfl, hsame⟩
      have hserved := hbags.serveAll requests
      obtain ⟨hbuffered, hdrained, hexhausted⟩ := (hbags.of_together hserved).states
      obtain ⟨steps, buffer, hmoved, hmoved'⟩ := hserved.moved
      refine ⟨hserved.shown, hbuffered, hdrained, hexhausted, ⟨steps, ?_, ?_⟩, ?_⟩
      · rw [hmoved]
        rfl
      · rw [hmoved']
        rfl
      · intro count count' hcounts hcounts' hstart
        rw [hmoved, hmoved']
        exact hcounted hcounts hcounts' hstart steps

/-- Keeps the first two places and names no place behind them. -/
def spoiled : Shuffle Unit where
  draw := fun n state _ => (.ofFn fun i => if i.val < 2 then i.val else n, state)

/-- Places in written order, and orders that are spoiled where no group comes to; the draws are
counted. -/
theorem standard_ignores_undrawn : ∃ (a : Arena) (bag bag' : Bag (Unit × Nat)),
    Arena.ofPattern .standard ⟨[.random [.piece 'T' 1, .piece 'I' 1, .piece 'O' 1, .piece 'L' 1]
      2 2, .random [.piece 'I' 1, .piece 'O' 1] 2 1], false⟩ = .ok a ∧
    (∀ steps, Draw.AgreeAll (a.draws Shuffle.identity.counted ((), 0) steps)
      (a.draws spoiled.counted ((), 0) steps)) ∧
    (Shuffle.identity.deal 4 ()).1 = #[0, 1, 2, 3] ∧ (spoiled.deal 4 ()).1 = #[0, 1, 4, 4] ∧
    build .standard "[TIOL:2]*2[IO]" Shuffle.identity.counted ((), 0) = .ok bag ∧
    build .standard "[TIOL:2]*2[IO]" spoiled.counted ((), 0) = .ok bag' ∧
    ∀ requests, (serveAll serve bag requests).2 = (serveAll serve bag' requests).2 ∧
      (serveAll serve bag requests).1.source.2 = (serveAll serve bag' requests).1.source.2 := by
  generalize hp : (⟨[.random [.piece 'T' 1, .piece 'I' 1, .piece 'O' 1, .piece 'L' 1] 2 2,
    .random [.piece 'I' 1, .piece 'O' 1] 2 1], false⟩ : Pattern) = p
  have hvalid : Catalogue.standard.validate = .ok () := by decide +kernel
  have hread : Pattern.ofText Catalogue.standard.keys "[TIOL:2]*2[IO]" = .ok p := by
    rw [← hp]
    decide +kernel
  have hcountable : p.countable = true := by
    rw [← hp]
    decide
  have hbuilt : (build .standard "[TIOL:2]*2[IO]" Shuffle.identity.counted
      ((), 0)).toOption.isSome = true := by
    decide +kernel
  have hwalks : (Arena.ofPattern .standard p).toOption.map (fun a =>
      (((Traversal.start Shuffle.identity.counted ((), 0) :
          Traversal.Outcome a (Unit × Nat)).1.after Shuffle.identity.counted 6).isOver,
        ((Traversal.start spoiled.counted ((), 0) :
          Traversal.Outcome a (Unit × Nat)).1.after spoiled.counted 6).isOver,
        decide (Draw.AgreeAll (a.draws Shuffle.identity.counted ((), 0) 6)
          (a.draws spoiled.counted ((), 0) 6)))) =
      some (true, true, true) := by
    rw [← hp]
    decide +kernel
  cases harena : Arena.ofPattern .standard p with
  | error fault => rw [harena] at hwalks; cases hwalks
  | ok a =>
      rw [harena] at hwalks
      obtain ⟨hover, hrest⟩ := Prod.mk.inj (Option.some.inj hwalks)
      obtain ⟨hover', hagree⟩ := Prod.mk.inj hrest
      have hall := Traversal.agreeAll_of_isOver hover hover' (of_decide_eq_true hagree)
      obtain ⟨-, hbuild⟩ := build_ignores_undrawn hvalid hread hcountable harena hall
      rcases hbuild with ⟨failure, _, hfailure, -⟩ | ⟨bag, bag', hbag, hbag', hserved⟩
      · rw [hfailure] at hbuilt
        cases hbuilt
      · refine ⟨a, bag, bag', rfl, hall, by decide, by decide, hbag, hbag', fun requests => ?_⟩
        obtain ⟨hshown, -, -, -, -, hcounted⟩ := hserved requests
        exact ⟨hshown, hcounted _ _ (Shuffle.counts_counted _) (Shuffle.counts_counted _) rfl⟩

end Bag

end PieceSequencer
