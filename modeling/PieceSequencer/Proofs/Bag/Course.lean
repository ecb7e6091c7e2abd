import PieceSequencer.Bag.Basic
import PieceSequencer.Proofs.Bag.Walk
import PieceSequencer.Proofs.FirstFault
import PieceSequencer.Proofs.Pattern.CanonicalText
import PieceSequencer.Proofs.Pattern.Passage

/-! # The course of a bag

The traversal of a well-formed pattern comes to all its stops, one at a time and without fault
(`Traversal.gives_start`).  `Gives` keeps what a bag needs of this: a course of catalogue places,
finite or endless.  A bag on such a course is determined by two numbers, how many pieces it has
handed out and how many it has resolved (`Course.bagAt`), and `refill`, `pick` and `peek` do
nothing but move them. -/

namespace PieceSequencer

namespace Traversal
variable {a : Arena} {σ : Type} {catalogue : Catalogue} {shuffle : Shuffle σ}

/-- The traversal behind this many more pieces. -/
def after (shuffle : Shuffle σ) : Nat → Traversal a σ → Traversal a σ
  | 0, t => t
  | n + 1, t => after shuffle n (t.next shuffle).1

theorem after_succ (n : Nat) (t : Traversal a σ) :
    after shuffle (n + 1) t = ((after shuffle n t).next shuffle).1 := by
  induction n generalizing t with
  | zero => rfl
  | succ n ih => exact ih (t.next shuffle).1

theorem after_add (m n : Nat) (t : Traversal a σ) :
    after shuffle (m + n) t = after shuffle n (after shuffle m t) := by
  induction n with
  | zero => rfl
  | succ n ih => rw [← Nat.add_assoc, after_succ, after_succ, ih]

theorem next_of_isOver {t : Traversal a σ} (h : t.isOver = true) :
    t.next shuffle = (t, .ok none) := by
  rw [isOver, List.isEmpty_iff] at h
  unfold next
  rw [h]

theorem after_of_isOver {t : Traversal a σ} (h : t.isOver = true) (n : Nat) :
    after shuffle n t = t := by
  induction n with
  | zero => rfl
  | succ n ih => rw [after, next_of_isOver h, ih]

/-! ### Along the stops -/

/-- The end of a walk is sound only if its beginning is. -/
theorem Walks.sound {x y : Outcome a σ} {stops : List (Stop σ)}
    (h : Walks catalogue shuffle x stops y) (hy : y.2 = none) : x.2 = none := by
  cases h with
  | refl => exact hy
  | step => rfl

/-- One stop after the other, and the end behind them. -/
theorem Walks.after {x y : Outcome a σ} {stops : List (Stop σ)}
    (h : Walks catalogue shuffle x stops y) (hy : y.2 = none) :
    (∀ n (hn : n < stops.length), ∃ index, catalogue.position? stops[n].key = some index ∧
      ((x.1.after shuffle n).next shuffle).2 = .ok (some index) ∧
      (x.1.after shuffle n).source = stops[n].source) ∧
    x.1.after shuffle stops.length = y.1 := by
  induction h with
  | refl => exact ⟨fun n hn => absurd hn (Nat.not_lt_zero n), rfl⟩
  | @step t x y key index stops hkey hnext hrest ih =>
      obtain ⟨t', fault⟩ := x
      obtain rfl : fault = none := hrest.sound hy
      obtain ⟨hstops, hend⟩ := ih hy
      have hafter : ∀ n, t.after shuffle (n + 1) = t'.after shuffle n := by
        intro n
        rw [Traversal.after, hnext]
        rfl
      refine ⟨?_, (hafter stops.length).trans hend⟩
      intro n hn
      cases n with
      | zero => exact ⟨index, hkey, by rw [Traversal.after, hnext]; rfl, rfl⟩
      | succ n =>
          simp only [List.getElem_cons_succ, hafter]
          exact hstops n (Nat.lt_of_succ_lt_succ hn)

section
variable {p : Pattern} (hholds : a.Holds catalogue p) (hwf : p.wellFormed catalogue.keys = true)
  (hin : shuffle.Inside)
include hholds hwf hin

/-- No fault stops the walk at the end of the last child. -/
theorem unwind_last_sound (source : σ) :
    (unwind shuffle [rootFrame a p (p.children.length - 1)] source).2 = none := by
  have hpos := List.length_pos_iff.mpr (Pattern.wellFormed_iff.mp hwf).1
  cases hf : p.forever with
  | false => rw [unwind_rootFrame hholds, if_neg (by omega), hf, if_neg (by simp)]
  | true =>
      refine (walks_again hholds hwf hin hf 1 source).fault_eq_none ?_
      exact List.ne_nil_of_length_pos ((p.stopping_last hwf hin).times Nat.zero_lt_one source)

theorem start_sound (source : σ) : (start shuffle source : Outcome a σ).2 = none :=
  (walks_passage hholds hwf hin 0 (.inr rfl) source).sound (unwind_last_sound hholds hwf hin _)

/-- At a stop of the pattern the traversal gives its piece. -/
theorem next_after {source : σ} {n : Nat} {stop : Stop σ}
    (h : p.stop? shuffle source n = some stop) :
    ∃ index, catalogue.position? stop.key = some index ∧
      (((start shuffle source : Outcome a σ).1.after shuffle n).next shuffle).2 =
        .ok (some index) ∧
      ((start shuffle source : Outcome a σ).1.after shuffle n).source = stop.source := by
  have hwalk := walks_passage hholds hwf hin (if p.forever then n else 0) (by split <;> simp_all)
    source
  obtain ⟨hn, rfl⟩ := List.getElem?_eq_some_iff.mp h
  exact (hwalk.after (unwind_last_sound hholds hwf hin _)).1 n hn

/-- Behind all stops of the pattern the traversal is over. -/
theorem after_of_stop?_eq_none {source : σ} {n : Nat} (h : p.stop? shuffle source n = none) :
    (start shuffle source : Outcome a σ).1.after shuffle n =
      ⟨[], (p.passage shuffle 0 source).2⟩ := by
  have hpos := List.length_pos_iff.mpr (Pattern.wellFormed_iff.mp hwf).1
  have hf : p.forever = false := by
    by_contra hf
    obtain ⟨stop, hstop⟩ := p.exists_stop? hwf hin (by simpa using hf) source n
    rw [h] at hstop
    cases hstop
  have hwalk := walks_passage hholds hwf hin 0 (.inr rfl) source
  have hend := (hwalk.after (unwind_last_sound hholds hwf hin _)).2
  rw [unwind_rootFrame hholds, if_neg (by omega), hf, if_neg (by simp)] at hend
  rw [Pattern.stop?, hf, if_neg (by simp), List.getElem?_eq_none_iff] at h
  obtain ⟨m, rfl⟩ := Nat.exists_eq_add_of_le h
  rw [after_add, hend]
  exact after_of_isOver rfl m

/-- The shuffle is where the pattern has it. -/
theorem source_after (source : σ) (n : Nat) :
    ((start shuffle source : Outcome a σ).1.after shuffle n).source =
      p.sourceAt shuffle source n := by
  unfold Pattern.sourceAt
  cases hstop : p.stop? shuffle source n with
  | none => rw [after_of_stop?_eq_none hholds hwf hin hstop]
  | some stop =>
      obtain ⟨-, -, -, hsource⟩ := next_after hholds hwf hin hstop
      exact hsource

end

/-! ### Courses -/

/-- The traversal gives these places of the catalogue, so many of them, and is over behind them. -/
structure Gives (shuffle : Shuffle σ) (t : Traversal a σ) (index : Nat → Nat) (count : ℕ∞) :
    Prop where
  next : ∀ n : Nat, n < count → ((t.after shuffle n).next shuffle).2 = .ok (some (index n))
  isOver_iff : ∀ n : Nat, (t.after shuffle n).isOver = true ↔ count ≤ n

/-- The traversal of a pattern comes to all its stops and is over behind them. -/
theorem gives_start {p : Pattern} (hholds : a.Holds catalogue p)
    (hwf : p.wellFormed catalogue.keys = true) (hin : shuffle.Inside) {source : σ}
    {index : Nat → Nat} (hindex : ∀ n stop, p.stop? shuffle source n = some stop →
      catalogue.position? stop.key = some (index n)) :
    (start shuffle source : Outcome a σ).1.Gives shuffle index (p.stopCount shuffle source) := by
  constructor
  · intro n hn
    obtain ⟨stop, hstop⟩ := (p.lt_stopCount_iff hwf hin).mp hn
    obtain ⟨place, hplace, hnext, -⟩ := next_after hholds hwf hin hstop
    obtain rfl : place = index n := Option.some.inj (hplace.symm.trans (hindex n stop hstop))
    exact hnext
  · intro n
    rw [← not_lt, p.lt_stopCount_iff hwf hin]
    cases hstop : p.stop? shuffle source n with
    | none => simp [after_of_stop?_eq_none hholds hwf hin hstop, isOver]
    | some stop =>
        obtain ⟨place, -, hnext, -⟩ := next_after hholds hwf hin hstop
        simp only [Option.some.injEq, exists_eq', not_true, iff_false]
        intro hover
        rw [next_of_isOver hover] at hnext
        cases hnext

/-- Where a course of this length is when it has gone on to `n`, or not so far if it is over. -/
noncomputable def reach (count : ℕ∞) (n : Nat) : Nat := (min (n : ℕ∞) count).toNat

theorem reach_eq_self {count : ℕ∞} {n : Nat} (h : n ≤ count) : reach count n = n := by
  rw [reach, min_eq_left h, ENat.toNat_natCast]

theorem cast_reach {count : ℕ∞} {n : Nat} (h : count ≤ n) : (reach count n : ℕ∞) = count := by
  have htop : count ≠ ⊤ := ne_top_of_le_ne_top (ENat.natCast_ne_top n) h
  rw [reach, min_eq_right h, ENat.natCast_toNat htop]

theorem reach_le (count : ℕ∞) (n : Nat) : (reach count n : ℕ∞) ≤ count := by
  rcases le_total (n : ℕ∞) count with h | h
  · rwa [reach_eq_self h]
  · exact (cast_reach h).le

theorem reach_le_self (count : ℕ∞) (n : Nat) : reach count n ≤ n := by
  rcases le_total (n : ℕ∞) count with h | h
  · exact (reach_eq_self h).le
  · exact Nat.cast_le.mp ((cast_reach h).trans_le h)

theorem le_reach {count : ℕ∞} {g n : Nat} (hg : g ≤ count) (hn : g ≤ n) : g ≤ reach count n := by
  rcases le_total (n : ℕ∞) count with h | h
  · rwa [reach_eq_self h]
  · exact Nat.cast_le.mp (hg.trans (cast_reach h).ge)

theorem range'_append_of_le {c g last : Nat} (hcg : c ≤ g) (hlast : g ≤ last) :
    List.range' c (g - c) ++ List.range' g (last - g) = List.range' c (last - c) := by
  obtain ⟨m, rfl⟩ := Nat.exists_eq_add_of_le hcg
  obtain ⟨n, rfl⟩ := Nat.exists_eq_add_of_le hlast
  rw [Nat.add_sub_cancel_left, Nat.add_sub_cancel_left, List.range'_append_1,
    show c + m + n - c = m + n by omega]

/-- Pulling goes on as far as the course goes. -/
theorem Gives.pullOnto {t : Traversal a σ} {index : Nat → Nat} {count : ℕ∞}
    (h : t.Gives shuffle index count) (n g : Nat) (hg : g ≤ count) (taken : Array Nat) :
    (t.after shuffle g).pullOnto shuffle n taken = (t.after shuffle (reach count (g + n)),
      taken ++ ((List.range' g (reach count (g + n) - g)).map index).toArray, none) := by
  induction n generalizing g taken with
  | zero =>
      rw [Traversal.pullOnto, Nat.add_zero, reach_eq_self hg]
      simp
  | succ n ih =>
      by_cases hlt : g < count
      · have hnext := h.next g hlt
        have hle : ((g + 1 : Nat) : ℕ∞) ≤ count := by exact_mod_cast Order.add_one_le_of_lt hlt
        have hfar : g + 1 ≤ reach count (g + 1 + n) := le_reach hle (by omega)
        have hstep : (t.after shuffle g).next shuffle =
            (t.after shuffle (g + 1), .ok (some (index g))) := by
          rw [after_succ, ← hnext]
        rw [Traversal.pullOnto, hstep]
        simp only
        rw [ih (g + 1) hle, show g + (n + 1) = g + 1 + n by omega]
        obtain ⟨m, hm⟩ : ∃ m, reach count (g + 1 + n) - g = m + 1 :=
          ⟨reach count (g + 1 + n) - (g + 1), by omega⟩
        rw [hm, show reach count (g + 1 + n) - (g + 1) = m by omega, List.range'_succ]
        simp
      · have hover := (h.isOver_iff g).mpr (not_lt.mp hlt)
        have hreach : reach count (g + (n + 1)) = g := by
          refine le_antisymm ?_ (le_reach hg (by omega))
          exact Nat.cast_le.mp ((reach_le count _).trans (not_lt.mp hlt))
        rw [Traversal.pullOnto, next_of_isOver hover, hreach]
        simp

theorem Gives.pull {t : Traversal a σ} {index : Nat → Nat} {count : ℕ∞}
    (h : t.Gives shuffle index count) (n g : Nat) (hg : g ≤ count) :
    (t.after shuffle g).pull shuffle n = (t.after shuffle (reach count (g + n)),
      (List.range' g (reach count (g + n) - g)).map index, none) := by
  unfold Traversal.pull
  rw [h.pullOnto n g hg]
  simp

end Traversal

/-! ### Bags on a course -/

namespace Bag
variable {σ : Type}

/-- What a bag hands out: pieces, their places in the catalogue and how many there are. -/
structure Course (bag : Bag σ) where
  index : Nat → Nat
  pieces : Nat → Piece
  count : ℕ∞
  gives : bag.traversal.Gives bag.shuffle index count
  resolves : ∀ n : Nat, n < count → bag.catalogue.piece? (index n) = some (pieces n)

namespace Course
variable {bag : Bag σ} (course : bag.Course)

/-- The bag when it has handed out `c` pieces and has resolved `g`. -/
def bagAt (c g : Nat) : Bag σ :=
  { bag with
    traversal := bag.traversal.after bag.shuffle g
    buffer := (List.range' c (g - c)).map course.index }

theorem bagAt_zero (h : bag.buffer = []) : course.bagAt 0 0 = bag := by
  rw [bagAt, Nat.sub_zero, List.range'_zero, List.map_nil, ← h]
  rfl

/-- The bag goes on as far as it is asked to and as far as there are pieces. -/
theorem refill_bagAt {c g : Nat} (hcg : c ≤ g) (hg : g ≤ course.count) (n : Nat) :
    (course.bagAt c g).refill n =
      (course.bagAt c (max g (Traversal.reach course.count (c + n))), none) := by
  have htaken : ((course.bagAt c g).buffer.take n).length = min n (g - c) := by
    rw [bagAt, List.length_take, List.length_map, List.length_range']
  have hself := Traversal.reach_le_self course.count (c + n)
  unfold refill
  rw [htaken]
  by_cases hmissing : n - min n (g - c) = 0
  · rw [if_pos hmissing, max_eq_left (by omega)]
  · have hle := Traversal.le_reach (n := c + n) hg (by omega)
    have hpull := course.gives.pull (n - min n (g - c)) g hg
    rw [show g + (n - min n (g - c)) = c + n by omega] at hpull
    have hbuffer := Traversal.range'_append_of_le hcg hle
    rw [if_neg hmissing, max_eq_right hle]
    simp only [bagAt, hpull, ← List.map_append, hbuffer]

/-- Taking a piece of the course. -/
theorem pick_bagAt_of_lt {c g : Nat} (hcg : c ≤ g) (hg : g ≤ course.count) (hc : c < course.count) :
    (course.bagAt c g).pick = (course.bagAt (c + 1) (max g (c + 1)), .ok (course.pieces c)) := by
  have hreach : Traversal.reach course.count (c + 1) = c + 1 :=
    Traversal.reach_eq_self (by exact_mod_cast Order.add_one_le_of_lt hc)
  obtain ⟨m, hm⟩ : ∃ m, max g (c + 1) - c = m + 1 := ⟨max g (c + 1) - (c + 1), by omega⟩
  unfold pick
  rw [course.refill_bagAt hcg hg, hreach]
  simp only [bagAt, hm, List.range'_succ, List.map_cons, piece, course.resolves c hc]
  rw [show max g (c + 1) - (c + 1) = m by omega]

/-- At the end of the course there is nothing to take. -/
theorem pick_bagAt_of_eq {c : Nat} (hc : c = course.count) :
    (course.bagAt c c).pick = (course.bagAt c c, .error .exhausted) := by
  have hreach : Traversal.reach course.count (c + 1) = c := by
    have hcast := Traversal.cast_reach (n := c + 1) (hc ▸ Nat.cast_le.mpr (Nat.le_succ c))
    exact Nat.cast_inj.mp (hcast.trans hc.symm)
  unfold pick
  rw [course.refill_bagAt le_rfl hc.le, hreach]
  simp [bagAt]

theorem mapM_piece (c g : Nat) {places : List Nat} (h : ∀ n ∈ places, (n : ℕ∞) < course.count) :
    (places.map course.index).mapM (course.bagAt c g).piece = .ok (places.map course.pieces) := by
  have hpiece : ∀ n ∈ places,
      (course.bagAt c g).piece (course.index n) = .ok (course.pieces n) := by
    intro n hn
    unfold piece
    rw [show (course.bagAt c g).catalogue = bag.catalogue from rfl, course.resolves n (h n hn)]
  rw [mapM_eq_ok_iff, List.forall₂_map_left_iff, List.forall₂_map_right_iff]
  exact List.forall₂_same.mpr hpiece

/-- Looking ahead shows the pieces to come, as many as there are. -/
theorem peek_bagAt {c g : Nat} (hcg : c ≤ g) (hg : g ≤ course.count) (n : Nat) :
    (course.bagAt c g).peek n =
      (course.bagAt c (max g (Traversal.reach course.count (c + n))),
        .ok ((List.range' c (Traversal.reach course.count (c + n) - c)).map course.pieces)) := by
  have hcount := Traversal.reach_le course.count (c + n)
  have hself := Traversal.reach_le_self course.count (c + n)
  have hshort : Traversal.reach course.count (c + n) = c + n ∨
      g ≤ Traversal.reach course.count (c + n) := by
    rcases le_total ((c + n : Nat) : ℕ∞) course.count with h | h
    · exact .inl (Traversal.reach_eq_self h)
    · exact .inr (Nat.cast_le.mp (hg.trans (Traversal.cast_reach h).ge))
  have hshown : ((course.bagAt c (max g (Traversal.reach course.count (c + n)))).buffer.take n) =
      (List.range' c (Traversal.reach course.count (c + n) - c)).map course.index := by
    rw [bagAt, ← List.map_take]
    rcases hshort with h | h
    · rw [List.take_range'_of_length_ge (by omega), h, Nat.add_sub_cancel_left]
    · rw [List.take_range'_of_length_le (by omega), max_eq_right h]
  unfold peek
  rw [course.refill_bagAt hcg hg]
  simp only [hshown]
  rw [course.mapM_piece]
  intro k hk
  rw [List.mem_range'_1] at hk
  exact lt_of_lt_of_le (Nat.cast_lt.mpr (by omega)) hcount

end Course

/-! ### Picking only -/

/-- The bag behind this many picks. -/
def afterPicks (bag : Bag σ) : Nat → Bag σ
  | 0 => bag
  | n + 1 => (bag.afterPicks n).pick.1

/-- Picks move both numbers of the course together, up to its end. -/
theorem Course.afterPicks_eq {bag : Bag σ} (course : bag.Course) (h : bag.buffer = []) (n : Nat) :
    bag.afterPicks n = course.bagAt (Traversal.reach course.count n)
      (Traversal.reach course.count n) := by
  induction n with
  | zero =>
      have hzero : Traversal.reach course.count 0 = 0 := Traversal.reach_eq_self zero_le
      rw [hzero]
      exact (course.bagAt_zero h).symm
  | succ n ih =>
      rw [afterPicks, ih]
      rcases lt_or_ge (n : ℕ∞) course.count with hn | hn
      · have hnext : ((n + 1 : Nat) : ℕ∞) ≤ course.count := by
          exact_mod_cast Order.add_one_le_of_lt hn
        rw [Traversal.reach_eq_self hn.le, course.pick_bagAt_of_lt le_rfl hn.le hn,
          Traversal.reach_eq_self hnext, max_eq_right (Nat.le_succ n)]
      · have hcount := Traversal.cast_reach hn
        have hnext := Traversal.cast_reach (hn.trans (Nat.cast_le.mpr (Nat.le_succ n)))
        rw [course.pick_bagAt_of_eq hcount, Nat.cast_inj.mp (hnext.trans hcount.symm)]

theorem Course.pick_afterPicks_of_lt {bag : Bag σ} (course : bag.Course) (h : bag.buffer = [])
    {n : Nat} (hn : n < course.count) : (bag.afterPicks n).pick.2 = .ok (course.pieces n) := by
  rw [course.afterPicks_eq h, Traversal.reach_eq_self hn.le,
    course.pick_bagAt_of_lt le_rfl hn.le hn]

theorem Course.pick_afterPicks_of_le {bag : Bag σ} (course : bag.Course) (h : bag.buffer = [])
    {n : Nat} (hn : course.count ≤ n) : (bag.afterPicks n).pick.2 = .error .exhausted := by
  rw [course.afterPicks_eq h, course.pick_bagAt_of_eq (Traversal.cast_reach hn)]

/-! ### Building -/

/-- The course is that of a pattern. -/
structure Course.Follows {bag : Bag σ} (course : bag.Course) (p : Pattern) (source : σ) : Prop where
  buffer_eq : bag.buffer = []
  count_eq : course.count = p.stopCount bag.shuffle source
  find?_eq : ∀ n stop, p.stop? bag.shuffle source n = some stop →
    bag.catalogue.find? stop.key = some (course.pieces n)
  source_eq : ∀ c g, (course.bagAt c g).source = p.sourceAt bag.shuffle source g

/-- The traversal of an arena that holds a pattern is on the course of the pattern. -/
theorem exists_course {catalogue : Catalogue} {p : Pattern} {shuffle : Shuffle σ} {a : Arena}
    (hwf : p.wellFormed catalogue.keys = true) (hholds : a.Holds catalogue p)
    (hin : shuffle.Inside) (source : σ) :
    ∃ course : (⟨catalogue, p, shuffle, a, (Traversal.start shuffle source).1, []⟩ : Bag σ).Course,
      course.Follows p source := by
  obtain ⟨first, hfirst⟩ : ∃ stop, p.stop? shuffle source 0 = some stop :=
    ⟨_, List.getElem?_eq_getElem (Nat.zero_lt_of_lt (p.lt_length_passage hwf hin _ source))⟩
  have hpiece : ∀ n stop, p.stop? shuffle source n = some stop → ∃ index piece,
      catalogue.position? stop.key = some index ∧ catalogue.piece? index = some piece ∧
      catalogue.find? stop.key = some piece := by
    intro n stop hstop
    obtain ⟨index, hindex, -⟩ := Traversal.next_after hholds hwf hin hstop
    obtain ⟨piece, hpiece, hfind⟩ := Catalogue.piece?_of_position? hindex
    exact ⟨index, piece, hindex, hpiece, hfind⟩
  -- beyond the last stop any piece will do, the first one for instance
  have hall : ∀ n, ∃ index piece, ∀ stop, p.stop? shuffle source n = some stop →
      catalogue.position? stop.key = some index ∧ catalogue.piece? index = some piece ∧
      catalogue.find? stop.key = some piece := by
    intro n
    cases hstop : p.stop? shuffle source n with
    | none =>
        obtain ⟨index, piece, -⟩ := hpiece 0 first hfirst
        exact ⟨index, piece, fun stop h => by cases h⟩
    | some stop =>
        obtain ⟨index, piece, h⟩ := hpiece n stop hstop
        exact ⟨index, piece, fun stop' h' => by cases h'; exact h⟩
  choose index pieces hcourse using hall
  have hgives := Traversal.gives_start hholds hwf hin fun n stop h => (hcourse n stop h).1
  have hresolves : ∀ n : Nat, n < p.stopCount shuffle source →
      catalogue.piece? (index n) = some (pieces n) := by
    intro n hn
    obtain ⟨stop, hstop⟩ := (p.lt_stopCount_iff hwf hin).mp hn
    exact (hcourse n stop hstop).2.1
  exact ⟨⟨index, pieces, p.stopCount shuffle source, hgives, hresolves⟩, rfl, rfl,
    fun n stop h => (hcourse n stop h).2.2,
    fun c g => Traversal.source_after hholds hwf hin source g⟩

/-- Building a bag succeeds, and the bag is on the course of the pattern. -/
theorem build_course {catalogue : Catalogue} {text : String} {p : Pattern} {shuffle : Shuffle σ}
    (hvalid : catalogue.validate = .ok ()) (hread : Pattern.ofText catalogue.keys text = .ok p)
    (hcount : p.countable = true) (hin : shuffle.Inside) (source : σ) :
    ∃ (bag : Bag σ) (course : bag.Course), build catalogue text shuffle source = .ok bag ∧
      bag.catalogue = catalogue ∧ bag.shuffle = shuffle ∧ course.Follows p source := by
  have hwf := p.wellFormed_of_ofText hread hcount
  obtain ⟨a, ha, hholds⟩ := Arena.ofPattern_holds (Pattern.keys_subset_of_wellFormed hwf)
  obtain ⟨course, hfollows⟩ := exists_course hwf hholds hin source
  refine ⟨_, course, ?_, rfl, rfl, hfollows⟩
  have hsound := Traversal.start_sound hholds hwf hin source
  have hstart : (Traversal.start shuffle source : Traversal.Outcome a σ) =
      ((Traversal.start shuffle source).1, none) := Prod.ext rfl hsound
  unfold build
  simp only [hvalid, hread, ha]
  rw [hstart]

end Bag

end PieceSequencer
