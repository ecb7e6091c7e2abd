import Mathlib.Algebra.Ring.Nat
import Mathlib.Data.List.Forall2
import Mathlib.Data.List.Nodup
import PieceSequencer.Shuffle.Congruential

/-! # The exchange shuffle is fair

A rearrangement of `n` places calls for `n - 1` words, below `n`, `n - 1`, …, `2`, and what it does
with the list depends on these draws only (`exchange_eq`).  As a function of its draws it is a
bijection onto the rearrangements (`existsUnique_draws`): the last place shows the first draw, for
no later exchange touches it, and what remains is the same question about one place less. -/

namespace PieceSequencer
namespace Congruential

/-! ### Draws -/

/-- The bounds of the draws for `n` places: `n`, …, `2`. -/
def bounds (n : Nat) : List Nat := (List.range' 2 (n - 1)).reverse

theorem length_bounds (n : Nat) : (bounds n).length = n - 1 := by
  rw [bounds, List.length_reverse, List.length_range']

theorem bounds_succ (last : Nat) : bounds (last + 2) = (last + 2) :: bounds (last + 1) := by
  rw [bounds, show last + 2 - 1 = last + 1 from rfl, List.range'_1_concat, List.reverse_append,
    Nat.add_comm 2 last]
  rfl

/-- The draws for `n` places in their order, each below its bound. -/
def AreDraws (n : Nat) (draws : List Nat) : Prop := List.Forall₂ (· < ·) draws (bounds n)

theorem areDraws_one_iff {draws : List Nat} : AreDraws 1 draws ↔ draws = [] :=
  List.forall₂_nil_right_iff

theorem areDraws_succ_iff {last : Nat} {draws : List Nat} : AreDraws (last + 2) draws ↔
    ∃ place rest, place < last + 2 ∧ AreDraws (last + 1) rest ∧ draws = place :: rest := by
  rw [AreDraws, bounds_succ, List.forall₂_cons_right_iff]
  rfl

theorem AreDraws.length_eq {n : Nat} {draws : List Nat} (h : AreDraws n draws) :
    draws.length = n - 1 :=
  (List.Forall₂.length_eq h).trans (length_bounds n)

/-- The loop as a function of its draws.  As many places are open to further exchanges as there
are draws to come, and the first place. -/
def exchangeBy {α : Type} {n : Nat} : List Nat → Vector α n → Vector α n
  | [], order => order
  | place :: draws, order => exchangeBy draws (order.swapIfInBounds (draws.length + 1) place)

/-! ### Calls -/

/-- Calls for words below the given bounds in a row. -/
def belowAll? : List UInt32 → Congruential → List (Option UInt32) × Congruential
  | [], g => ([], g)
  | bound :: bounds, g =>
    let (word?, g) := g.below? bound
    let (words?, g) := belowAll? bounds g
    (word? :: words?, g)

theorem toNat_bound {last : Nat} (hlast : last + 1 < 2 ^ 32) :
    (UInt32.ofNat (last + 1)).toNat = last + 1 :=
  UInt32.toNat_ofNat_of_lt' hlast

/-- A draw below this many places is not refused. -/
theorem below?_bound (g : Congruential) {last : Nat} (hlast : last + 1 < 2 ^ 32) :
    g.below? (UInt32.ofNat (last + 1)) =
      (some (g.advance.state % UInt32.ofNat (last + 1)), g.advance) := by
  refine g.below?_of_ne_zero fun h => ?_
  have hzero := congrArg UInt32.toNat h
  rw [toNat_bound hlast] at hzero
  exact last.succ_ne_zero hzero

/-- The loop makes one draw and goes on with one place less. -/
theorem exchange_succ {α : Type} {n last : Nat} (hlast : last + 2 < 2 ^ 32) (g : Congruential)
    (order : Vector α n) : exchange (last + 1) g order = exchange last g.advance
      (order.swapIfInBounds (last + 1) (g.advance.state % UInt32.ofNat (last + 2)).toNat) := by
  rw [exchange, below?_bound g hlast]

/-- The loop makes the calls for its bounds and depends on their results only. -/
theorem exchange_eq {α : Type} {n : Nat} (last : Nat) (hlast : last + 1 < 2 ^ 32)
    (g : Congruential) (order : Vector α n) : ∃ draws : List UInt32,
      belowAll? ((bounds (last + 1)).map .ofNat) g =
        (draws.map some, (exchange last g order).2) ∧
      AreDraws (last + 1) (draws.map UInt32.toNat) ∧
      (exchange last g order).1 = exchangeBy (draws.map UInt32.toNat) order := by
  induction last generalizing g order with
  | zero => exact ⟨[], rfl, .nil, rfl⟩
  | succ last ih =>
      let word := g.advance.state % UInt32.ofNat (last + 2)
      obtain ⟨draws, hcalls, hdraws, horder⟩ := ih (by omega) g.advance
        (order.swapIfInBounds (last + 1) word.toNat)
      have hlt : word.toNat < last + 2 := by
        rw [UInt32.toNat_mod, toNat_bound hlast]
        exact Nat.mod_lt _ (last + 1).succ_pos
      refine ⟨word :: draws, ?_, ?_, ?_⟩
      · rw [bounds_succ, List.map_cons, belowAll?, below?_bound g hlast, exchange_succ hlast]
        simp only [hcalls]
        rfl
      · exact areDraws_succ_iff.mpr ⟨_, _, hlt, hdraws, rfl⟩
      · rw [exchange_succ hlast, List.map_cons, exchangeBy, hdraws.length_eq, Nat.add_sub_cancel,
          ← horder]

/-! ### Places -/

section Places
variable {α : Type} {n : Nat} {order target : Vector α n} {last : Nat}

theorem swapIfInBounds_eq_swap {i j : Nat} (hi : i < n) (hj : j < n) :
    order.swapIfInBounds i j = order.swap i j hi hj := by
  have hi' : i < order.toArray.size := by rwa [order.size_toArray]
  have hj' : j < order.toArray.size := by rwa [order.size_toArray]
  apply Vector.toArray_inj.mp
  show order.toArray.swapIfInBounds i j = order.toArray.swap i j hi' hj'
  rw [Array.swapIfInBounds, dif_pos hi', dif_pos hj']

theorem eq_of_getElem_eq (hnodup : order.toList.Nodup) {i j : Nat} (hi : i < n) (hj : j < n)
    (h : order[i] = order[j]) : i = j := by
  rw [← Vector.getElem_toList (by rwa [order.length_toList]),
    ← Vector.getElem_toList (by rwa [order.length_toList])] at h
  exact hnodup.getElem_inj_iff.mp h

/-- Exchanges leave the places behind the last one alone. -/
theorem getElem_exchangeBy {draws : List Nat} (hdraws : AreDraws (last + 1) draws) {i : Nat}
    (hlt : last < i) (hi : i < n) : (exchangeBy draws order)[i] = order[i] := by
  induction last generalizing draws order with
  | zero => rw [areDraws_one_iff.mp hdraws, exchangeBy]
  | succ last ih =>
      obtain ⟨place, rest, hplace, hrest, rfl⟩ := areDraws_succ_iff.mp hdraws
      rw [exchangeBy, ih hrest (by omega), hrest.length_eq, Nat.add_sub_cancel,
        swapIfInBounds_eq_swap (by omega) (by omega),
        Vector.getElem_swap_of_ne (by omega) (by omega)]

/-- The first draw is the place whose item comes to stand last. -/
theorem getElem_exchangeBy_last {place : Nat} {draws : List Nat} (hplace : place < last + 2)
    (hdraws : AreDraws (last + 1) draws) (hlast : last + 1 < n) :
    (exchangeBy (place :: draws) order)[last + 1] = order[place] := by
  rw [exchangeBy, getElem_exchangeBy hdraws (by omega), hdraws.length_eq, Nat.add_sub_cancel,
    swapIfInBounds_eq_swap hlast (by omega), Vector.getElem_swap_left]

/-- The two lists differ up to a place only. -/
def AgreeBehind (last : Nat) (order target : Vector α n) : Prop :=
  ∀ i (hi : i < n), last < i → order[i] = target[i]

/-- The item that is wanted at a place stands there or before it. -/
theorem exists_place (hnodup : order.toList.Nodup) (hperm : target.toList.Perm order.toList)
    (hagree : AgreeBehind last order target) (hlast : last < n) :
    ∃ place, ∃ (_ : place < last + 1) (_ : place < n), order[place] = target[last] := by
  have hmem : target[last] ∈ order.toList :=
    hperm.mem_iff.mp (Vector.mem_toList_iff.mpr (Vector.getElem_mem hlast))
  obtain ⟨place, hplace, hitem⟩ := Vector.getElem_of_mem (Vector.mem_toList_iff.mp hmem)
  by_cases hle : place < last + 1
  · exact ⟨place, hle, hplace, hitem⟩
  · have hbehind : target[place] = target[last] :=
      (hagree place hplace (by omega)).symm.trans hitem
    have := eq_of_getElem_eq (hperm.nodup_iff.mpr hnodup) hplace hlast hbehind
    omega

/-- Once the wanted item is exchanged to the last place, the lists agree there too. -/
theorem AgreeBehind.swap (hagree : AgreeBehind (last + 1) order target) {place : Nat}
    (hplace : place < last + 2) (hlast : last + 1 < n)
    (hitem : order[place] = target[last + 1]) :
    AgreeBehind last (order.swap (last + 1) place) target := by
  intro i hi hlt
  by_cases hlast' : i = last + 1
  · subst hlast'
    rw [Vector.getElem_swap_left, hitem]
  · rw [Vector.getElem_swap_of_ne hlast' (by omega), hagree i hi (by omega)]

theorem eq_of_agreeBehind_zero (hnodup : order.toList.Nodup)
    (hperm : target.toList.Perm order.toList) (hagree : AgreeBehind 0 order target) :
    order = target := by
  refine Vector.ext fun i hi => ?_
  cases i with
  | zero =>
      obtain ⟨place, hplace, _, hitem⟩ := exists_place hnodup hperm hagree hi
      obtain rfl : place = 0 := by omega
      exact hitem
  | succ i => exact hagree (i + 1) hi i.succ_pos

/-- **Every rearrangement comes from one vector of draws.** -/
theorem existsUnique_draws (hnodup : order.toList.Nodup)
    (hperm : target.toList.Perm order.toList) (hagree : AgreeBehind last order target)
    (hlast : last ≤ n - 1) :
    ∃! draws, AreDraws (last + 1) draws ∧ exchangeBy draws order = target := by
  induction last generalizing order with
  | zero =>
      refine ⟨[], ⟨.nil, eq_of_agreeBehind_zero hnodup hperm hagree⟩, ?_⟩
      rintro draws ⟨hdraws, -⟩
      exact areDraws_one_iff.mp hdraws
  | succ last ih =>
      have hlt : last + 1 < n := by omega
      obtain ⟨place, hplace, hin, hitem⟩ := exists_place hnodup hperm hagree hlt
      have hswap : (order.swap (last + 1) place).toList.Perm order.toList :=
        (Vector.swap_perm hlt hin).toList
      obtain ⟨rest, ⟨hrest, htarget⟩, hunique⟩ := ih (hswap.nodup_iff.mpr hnodup)
        (hperm.trans hswap.symm) (hagree.swap hplace hlt hitem) (by omega)
      refine ⟨place :: rest, ⟨areDraws_succ_iff.mpr ⟨place, rest, hplace, hrest, rfl⟩, ?_⟩, ?_⟩
      · rw [exchangeBy, hrest.length_eq, Nat.add_sub_cancel,
          swapIfInBounds_eq_swap hlt (by omega), htarget]
      · rintro draws ⟨hdraws, hdrawn⟩
        obtain ⟨other, rest', hother, hrest', rfl⟩ := areDraws_succ_iff.mp hdraws
        -- the item in the last place tells the first draw, and the rest is told by induction
        have hitem' : order[other] = order[place] := by
          rw [← getElem_exchangeBy_last hother hrest' hlt, hitem]
          simp only [hdrawn]
        obtain rfl := eq_of_getElem_eq hnodup (by omega) (by omega) hitem'
        rw [exchangeBy, hrest'.length_eq, Nat.add_sub_cancel,
          swapIfInBounds_eq_swap hlt (by omega)] at hdrawn
        rw [hunique rest' ⟨hrest', hdrawn⟩]

end Places

/-- Exchanges rearrange, whatever the draws. -/
theorem perm_exchangeBy {α : Type} {n : Nat} (draws : List Nat) (order : Vector α n) :
    (exchangeBy draws order).toList.Perm order.toList := by
  induction draws generalizing order with
  | nil => exact .refl _
  | cons place draws ih => exact (ih _).trans (perm_swapIfInBounds order _ _)

/-- **The exchange shuffle is fair.**  A rearrangement of `n` places makes the `n - 1` calls for
words below `n`, …, `2`, none of which is refused, and is what the loop makes of their results; and
each rearrangement of the places comes from one vector of draws. -/
theorem exchange_shuffle_fair {n : Nat} (hn : n < 2 ^ 32) :
    (∀ (α : Type) (g : Congruential) (order : Vector α n), ∃ draws : List UInt32,
      belowAll? ((bounds n).map .ofNat) g = (draws.map some, (g.rearrange order).2) ∧
      AreDraws n (draws.map UInt32.toNat) ∧
      (g.rearrange order).1 = exchangeBy (draws.map UInt32.toNat) order ∧
      (g.rearrange order).1.toList.Perm order.toList) ∧
    (bounds n).length = n - 1 ∧
    ∀ target : Vector Nat n, target.toList.Perm (List.range n) ↔
      ∃! draws, AreDraws n draws ∧ exchangeBy draws (.range n) = target := by
  refine ⟨fun α g order => ?_, length_bounds n, fun target => ?_⟩
  · obtain ⟨draws, hcalls, hdraws, horder⟩ := exchange_eq (n - 1) (by omega) g order
    exact ⟨draws, hcalls, hdraws, horder, perm_exchange (n - 1) g order⟩
  · rw [← Vector.toList_range]
    constructor
    · intro hperm
      have hnodup : (Vector.range n).toList.Nodup := by
        rw [Vector.toList_range]
        exact List.nodup_range
      have hagree : AgreeBehind (n - 1) (.range n) target := fun i hi hlt => by omega
      exact existsUnique_draws hnodup hperm hagree (Nat.le_refl _)
    · rintro ⟨draws, ⟨-, rfl⟩, -⟩
      exact perm_exchangeBy draws _

theorem exchange_shuffle_fair_three :
    3 < 2 ^ 32 ∧
    (∃ draws : List UInt32,
      belowAll? ((bounds 3).map .ofNat) (ofSeed 42) =
        (draws.map some, ((ofSeed 42).rearrange #v['T', 'I', 'O']).2) ∧
      AreDraws 3 (draws.map UInt32.toNat) ∧
      ((ofSeed 42).rearrange #v['T', 'I', 'O']).1 =
        exchangeBy (draws.map UInt32.toNat) #v['T', 'I', 'O'] ∧
      ((ofSeed 42).rearrange #v['T', 'I', 'O']).1.toList.Perm ['T', 'I', 'O']) ∧
    (bounds 3).length = 2 ∧
    ∃! draws, AreDraws 3 draws ∧ exchangeBy draws (.range 3) = #v[2, 0, 1] := by
  have hthree : 3 < 2 ^ 32 := by decide
  obtain ⟨hcalls, hlength, hdraws⟩ := exchange_shuffle_fair hthree
  exact ⟨hthree, hcalls Char (ofSeed 42) #v['T', 'I', 'O'], hlength,
    (hdraws #v[2, 0, 1]).mp (by decide)⟩

end Congruential
end PieceSequencer
