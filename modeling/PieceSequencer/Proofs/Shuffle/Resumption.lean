import PieceSequencer.Proofs.Shuffle.Exchange
import PieceSequencer.Proofs.Shuffle.Period

/-! # Stopping and resuming

A generator is all in its last word, so the generator made from that word carries on as if nothing
had happened, unless the word is zero: as a seed, zero stands for one.  Every seed comes by zero,
once in a round of `2 ^ 32` words, and there alone resuming goes wrong (`resumes_iff`). -/

namespace PieceSequencer
namespace Congruential

/-! ### Calls -/

/-- What is asked of a generator. -/
inductive Call where
  | next
  | below (bound : UInt32) (hbound : 0 < bound)
  | rearrange {n : Nat} (order : Vector Nat n) (hn : n < 2 ^ 32)

/-- What comes back. -/
inductive Answer where
  | word (word : UInt32)
  | below (word? : Option UInt32)
  | order (places : List Nat)
  deriving DecidableEq, Repr

/-- A call of a generator. -/
def serve (g : Congruential) : Call → Answer × Congruential
  | .next => (.word g.next.1, g.next.2)
  | .below bound _ => (.below (g.below? bound).1, (g.below? bound).2)
  | .rearrange order _ => (.order (g.rearrange order).1.toList, (g.rearrange order).2)

/-- Calls in a row: each answer with the state behind it, and the generator in the end. -/
def run : Congruential → List Call → List (Answer × UInt32) × Congruential
  | g, [] => ([], g)
  | g, call :: calls =>
    let (answer, g) := g.serve call
    let (answers, last) := g.run calls
    ((answer, g.state) :: answers, last)

/-- The number of words that a call uses up. -/
def Call.words : Call → Nat
  | .next => 1
  | .below _ _ => 1
  | @Call.rearrange n _ _ => n - 1

/-- The number of words that calls in a row use up. -/
def wordCount (calls : List Call) : Nat := (calls.map Call.words).sum

theorem exchange_snd {α : Type} {n last : Nat} (hlast : last + 1 < 2 ^ 32) (g : Congruential)
    (order : Vector α n) : (exchange last g order).2 = advance^[last] g := by
  induction last generalizing g order with
  | zero => rfl
  | succ last ih =>
      rw [exchange_succ hlast, Function.iterate_succ_apply]
      exact ih (by omega) _ _

theorem serve_snd (g : Congruential) (call : Call) :
    (g.serve call).2 = advance^[call.words] g := by
  cases call with
  | next => rfl
  | below bound hbound => rfl
  | @rearrange n order hn => exact exchange_snd (by omega) g order

/-- Whatever is asked, the generator moves on by the words that are used up. -/
theorem run_snd (g : Congruential) (calls : List Call) :
    (g.run calls).2 = advance^[wordCount calls] g := by
  induction calls generalizing g with
  | nil => rfl
  | cons call calls ih =>
      rw [wordCount, List.map_cons, List.sum_cons, add_comm, Function.iterate_add_apply,
        ← serve_snd]
      exact ih _

/-! ### Resuming -/

/-- The generator made from the state answers every further row of calls as the generator itself
does, with the same states. -/
def Resumes (g : Congruential) : Prop :=
  ∀ calls, ((ofSeed g.state).run calls).1 = (g.run calls).1

theorem ofSeed_state {g : Congruential} (h : g.state ≠ 0) : ofSeed g.state = g := by
  rw [ofSeed, if_neg h]

/-- The words after zero and after one differ. -/
theorem resumes_iff_state_ne_zero (g : Congruential) : Resumes g ↔ g.state ≠ 0 := by
  constructor
  · intro h hzero
    obtain rfl : g = ⟨0⟩ := congrArg mk hzero
    exact absurd (h [.next]) (by decide)
  · intro h calls
    rw [ofSeed_state h]

/-- **A generator can be resumed from its state unless that is zero.**  Every seed has one number
of words, up to whole rounds, after which this happens. -/
theorem resumes_iff (seed : UInt32) : ∃ unlucky < 2 ^ 32, ∀ calls,
    (Resumes ((ofSeed seed).run calls).2 ↔ ((ofSeed seed).run calls).2.state ≠ 0) ∧
      (((ofSeed seed).run calls).2.state = 0 ↔ wordCount calls % 2 ^ 32 = unlucky) := by
  obtain ⟨unlucky, ⟨hlt, hzero⟩, -⟩ := existsUnique_iterate (ofSeed seed) 0
  refine ⟨unlucky, hlt, fun calls => ⟨resumes_iff_state_ne_zero _, ?_⟩⟩
  rw [run_snd, ← hzero, iterate_state_eq_iff, Nat.ModEq, Nat.mod_eq_of_lt hlt]

/-- The first word of this seed is zero. -/
theorem not_resumes_zero_word : ¬ Resumes ((ofSeed 634785765).run [.next]).2 := by
  intro h
  exact absurd (h [.next]) (by decide)

end Congruential
end PieceSequencer
