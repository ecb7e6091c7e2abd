import PieceSequencer.Proofs.Pattern.Continuation

/-! # Writing `@` out

A token list with `@` in it is read as the list in which the keys stand in its place
(`Pattern.ofTokens_writtenOut_iff`).  The two readings do not go through the same states: behind
`@` all its nodes wait for a repeat count, behind the last of the keys only that one does.  But both
stand behind the same complete elements, and from there every token except a repeat count leads to
the same reading (`Ready.leadsTo_iff`); with a repeat count, `@` is written out together with it. -/

namespace PieceSequencer

/-- The tokens with the keys in place of every `@`.  A repeat count behind `@` goes to each key. -/
def Token.writtenOut (keys : List Char) : List Token → List Token
  | .symbol .every :: .symbol .times :: .number n :: tokens =>
    keys.flatMap (fun k => [.key k, .symbol .times, .number n]) ++ writtenOut keys tokens
  | .symbol .every :: tokens => keys.map .key ++ writtenOut keys tokens
  | token :: tokens => token :: writtenOut keys tokens
  | [] => []

namespace Reading
variable {keys : List Char} {r : Reading} {openings : List Opening} {row : Array Node}

/-! ### Keys in a row -/

/-- Keys in a row add a piece each. -/
theorem Ready.readsAll_keys (h : Ready r openings row) (ks : List Char) :
    ∃ r', ReadsAll keys r (ks.map .key) r' ∧ Ready r' openings (row ++ ks.map Node.single) := by
  induction ks generalizing r row with
  | nil => exact ⟨r, .nil r, by simpa using h⟩
  | cons k ks ih =>
      obtain ⟨last, hall, hlast⟩ := ih (.element openings row [.single k])
      refine ⟨last, .cons (.key k h) hall, ?_⟩
      simpa [← Array.toList_inj] using hlast

/-- Keys with a repeat count each add as many repeated pieces. -/
theorem Ready.readsAll_counted (h : Ready r openings row) {n : UInt32} (hn : n ≠ 0)
    {ks : List Char} (hne : ks ≠ []) :
    ReadsAll keys r (ks.flatMap fun k => [.key k, .symbol .times, .number n])
      ⟨openings, row ++ (ks.map Node.single).map (Node.withRepeats n), .fresh⟩ := by
  induction ks generalizing r row with
  | nil => exact absurd rfl hne
  | cons k ks ih =>
      have hfirst : ReadsAll keys r [.key k, .symbol .times, .number n]
          ⟨openings, row ++ [Node.single k].map (Node.withRepeats n), .fresh⟩ :=
        .cons (.key k h) (.cons .times (.single (.repeats hn)))
      cases ks with
      | nil => exact hfirst
      | cons k' ks =>
          have hall := hfirst.append (ih (.fresh _ _) (List.cons_ne_nil k' ks))
          rw [List.flatMap_cons, List.map_cons, List.map_cons]
          simpa [← Array.toList_inj] using hall

end Reading

/-! ### Both readings -/

namespace Token
variable {keys : List Char} {tokens : List Token}

/-- Keys never begin with a repeat count, so writing `@` out brings none to the front. -/
theorem BeginWithCount.of_writtenOut (hne : keys ≠ [])
    (h : BeginWithCount (writtenOut keys tokens)) : BeginWithCount tokens := by
  obtain ⟨k, ks, rfl⟩ := List.exists_cons_of_ne_nil hne
  obtain ⟨n, rest, h⟩ := h
  unfold writtenOut at h
  split at h
  · cases h
  · cases h
  · obtain ⟨rfl, h⟩ := List.cons.inj h
    unfold writtenOut at h
    split at h
    · cases h
    · cases h
    · cases h
      exact ⟨n, _, rfl⟩
    · cases h
  · cases h

end Token

namespace Reading
variable {keys : List Char}

/-- `@` can be read only behind complete elements. -/
theorem exists_ready_of_every {r : Reading} {tokens : List Token} {p : Pattern}
    (h : LeadsTo keys r (.symbol .every :: tokens) p) : ∃ openings row, Ready r openings row := by
  obtain ⟨_, hr, -⟩ := leadsTo_cons_iff.mp h
  cases hr with
  | every hready => exact ⟨_, _, hready⟩

/-- So can a key. -/
theorem exists_ready_of_key {r : Reading} {k : Char} {tokens : List Token} {p : Pattern}
    (h : LeadsTo keys r (.key k :: tokens) p) : ∃ openings row, Ready r openings row := by
  obtain ⟨_, hr, -⟩ := leadsTo_cons_iff.mp h
  cases hr with
  | key _ hready => exact ⟨_, _, hready⟩

/-- A repeat count that is read is not zero. -/
theorem count_ne_zero {r : Reading} {token : Token} {n : UInt32} {tokens : List Token} {p : Pattern}
    (h : LeadsTo keys r (token :: .symbol .times :: .number n :: tokens) p) : n ≠ 0 := by
  obtain ⟨_, -, h⟩ := leadsTo_cons_iff.mp h
  obtain ⟨_, hr, h⟩ := leadsTo_cons_iff.mp h
  cases hr with
  | times =>
      obtain ⟨_, _, heq, hn, -⟩ := leadsTo_repeating_iff.mp h
      cases heq
      exact hn

section
variable (hne : keys ≠ []) {tokens tokens' : List Token} {p : Pattern}
  (h : ∀ r, LeadsTo keys r tokens p ↔ LeadsTo keys r tokens' p)
include hne h

/-- `@` with a repeat count is read as the keys with that count each. -/
theorem leadsTo_every_counted_iff (r : Reading) (n : UInt32) :
    LeadsTo keys r (.symbol .every :: .symbol .times :: .number n :: tokens) p ↔
      LeadsTo keys r
        ((keys.flatMap fun k => [.key k, .symbol .times, .number n]) ++ tokens') p := by
  by_cases hr : (∃ openings row, Ready r openings row) ∧ n ≠ 0
  · obtain ⟨⟨openings, row, hready⟩, hn⟩ := hr
    have hevery : ReadsAll keys r [.symbol .every, .symbol .times, .number n] _ :=
      .cons (.every hready) (.cons .times (.single (.repeats hn)))
    exact hevery.leadsTo_iff.trans
      ((h _).trans (hready.readsAll_counted hn hne).leadsTo_iff.symm)
  · obtain ⟨k, ks, hkeys⟩ := List.exists_cons_of_ne_nil hne
    refine iff_of_false (fun hl => hr ⟨exists_ready_of_every hl, count_ne_zero hl⟩) fun hl => ?_
    rw [hkeys] at hl
    exact hr ⟨exists_ready_of_key hl, count_ne_zero hl⟩

/-- `@` without a repeat count is read as the keys. -/
theorem leadsTo_every_iff (hcount : ¬ Token.BeginWithCount tokens') (r : Reading) :
    LeadsTo keys r (.symbol .every :: tokens) p ↔
      LeadsTo keys r (keys.map .key ++ tokens') p := by
  by_cases hr : ∃ openings row, Ready r openings row
  · obtain ⟨openings, row, hready⟩ := hr
    obtain ⟨last, hkeys, hlast⟩ :
        ∃ r', ReadsAll keys r (keys.map .key) r' ∧ Ready r' openings _ := hready.readsAll_keys keys
    have hevery : ReadsAll keys r [.symbol .every] _ := .single (.every hready)
    have hsame : LeadsTo keys _ tokens' p ↔ LeadsTo keys last tokens' p :=
      (Ready.element openings row (keys.map Node.single)).leadsTo_iff hlast hcount
    exact hevery.leadsTo_iff.trans ((h _).trans (hsame.trans hkeys.leadsTo_iff.symm))
  · obtain ⟨k, ks, hkeys⟩ := List.exists_cons_of_ne_nil hne
    refine iff_of_false (fun hl => hr (exists_ready_of_every hl)) fun hl => ?_
    rw [hkeys] at hl
    exact hr (exists_ready_of_key hl)

end

/-- From every reading on, the tokens lead to the same patterns when `@` is written out. -/
theorem leadsTo_writtenOut_iff (hne : keys ≠ []) (tokens : List Token) (p : Pattern)
    (r : Reading) :
    LeadsTo keys r tokens p ↔ LeadsTo keys r (Token.writtenOut keys tokens) p := by
  induction tokens using Token.writtenOut.induct generalizing r with
  | case1 n tokens ih =>
      rw [Token.writtenOut]
      exact leadsTo_every_counted_iff hne ih r n
  | case2 tokens hother ih =>
      rw [Token.writtenOut]
      · refine leadsTo_every_iff hne ih (fun hcount => ?_) r
        obtain ⟨n, rest, rfl⟩ := hcount.of_writtenOut hne
        exact hother n rest rfl
      · exact hother
  | case3 token tokens hcounted hevery ih =>
      rw [Token.writtenOut]
      · rw [leadsTo_cons_iff, leadsTo_cons_iff]
        exact exists_congr fun _ => and_congr_right fun _ => ih _
      · exact hcounted
      · exact hevery
  | case4 => rfl

end Reading

namespace Pattern
variable {keys : List Char}

/-- The repeat count goes to each key, the loop mark to the last alone. -/
theorem ofTokens_every_counted_forever (hne : keys ≠ []) {n : UInt32} (hn : n ≠ 0) :
    ofTokens keys [.symbol .every, .symbol .times, .number n, .symbol .forever] =
      .ok ⟨keys.map fun k => .piece k n, true⟩ := by
  generalize hrow : (#[] : Array Node) ++ (keys.map Node.single).map (Node.withRepeats n) = row
  have hcounted : Reading.ReadsAll keys .start [.symbol .every, .symbol .times, .number n]
      ⟨[], row, .fresh⟩ := by
    rw [← hrow]
    exact .cons (.every (.fresh [] #[])) (.cons .times (.single (.repeats hn)))
  have hforever : Reading.Reads keys _ (.symbol .forever) ⟨[], row, .closed⟩ :=
    .forever (.fresh [] row) (by simp [← hrow, hne])
  have hpattern := ofTokens_eq_ok_iff.mpr ⟨_, hcounted.append (.single hforever), .forever _ _⟩
  simpa [← hrow, Node.single, Node.withRepeats, Function.comp_def] using hpattern

section
variable (hne : keys ≠ [])
include hne

/-- A random group of all keys, up to its end. -/
theorem readsAll_bracket_every : ∃ r,
    Reading.ReadsAll keys .start [.symbol .openSquare, .symbol .every] r ∧
    Reading.Ready r [⟨.square, #[]⟩] (keys.map Node.single).toArray ∧
    (keys.map Node.single).toArray.isEmpty = false := by
  refine ⟨_, .cons (.openSquare (.fresh [] #[])) (.single (.every (.fresh _ _))), ?_, ?_⟩
  · simpa using Reading.Ready.element [⟨.square, #[]⟩] #[] (keys.map Node.single)
  · simpa using hne

theorem ofTokens_bracket_every :
    ofTokens keys [.symbol .openSquare, .symbol .every, .symbol .closeSquare] =
      .ok ⟨[.random (keys.map Node.single) (UInt32.ofNat keys.length) 1], false⟩ := by
  obtain ⟨r, hall, hready, hrow⟩ := readsAll_bracket_every hne
  have hclose : Reading.Reads keys _ _ _ := .closeSquare hready hrow
  have hend := Reading.Ends.ending (.element [] #[] [.shuffled (keys.map Node.single)]) (by simp)
  have hpattern := ofTokens_eq_ok_iff.mpr ⟨_, hall.append (.single hclose), hend⟩
  simpa [Node.shuffled] using hpattern

theorem ofTokens_bracket_every_picks {n : UInt32} (hn : n ≠ 0) :
    ofTokens keys [.symbol .openSquare, .symbol .every, .symbol .pick, .number n,
        .symbol .closeSquare] =
      if n.toNat ≤ keys.length then .ok ⟨[.random (keys.map Node.single) n 1], false⟩
      else .error (.pickTooLarge 3 n keys.length) := by
  obtain ⟨r, hall, hready, hrow⟩ := readsAll_bracket_every hne
  have hpick : Reading.Reads keys _ _ _ := .pick hready hrow
  have hfront := hall.append (.single hpick)
  by_cases hle : n.toNat ≤ keys.length
  · rw [if_pos hle]
    have hcount : Reading.Reads keys ⟨[⟨.square, #[]⟩], (keys.map Node.single).toArray, .picking⟩
      (.number n) _ := .picks hn (by simpa using hle)
    have hend :=
      Reading.Ends.ending (.element [] #[] [.random (keys.map Node.single) n 1]) (by simp)
    have hpattern := ofTokens_eq_ok_iff.mpr
      ⟨_, hfront.append (.cons hcount (.single .closePicked)), by simpa using hend⟩
    simpa using hpattern
  · rw [if_neg hle]
    have hlarge : (keys.map Node.single).toArray.size < n.toNat := by simpa using hle
    have hrefused := hfront.complete_append 0 [.number n, .symbol .closeSquare]
    rw [Reading.complete_picking_of_lt hlarge] at hrefused
    simpa [ofTokens] using hrefused

end

/-- **`@` is a textual macro.**  Over any keys but none, a token list is read as a pattern just if
it is when every `@` is written out, and as the same one.  So `@*n~` repeats each key `n` times and
loops the last alone, and the pick count of `[@]` or `[@:n]` is measured by the keys. -/
theorem ofTokens_writtenOut_iff (hne : keys ≠ []) :
    (∀ (tokens : List Token) (p : Pattern), ofTokens keys tokens = .ok p ↔
      ofTokens keys (Token.writtenOut keys tokens) = .ok p) ∧
    (∀ n : UInt32, n ≠ 0 →
      ofTokens keys [.symbol .every, .symbol .times, .number n, .symbol .forever] =
        .ok ⟨keys.map fun k => .piece k n, true⟩) ∧
    ofTokens keys [.symbol .openSquare, .symbol .every, .symbol .closeSquare] =
      .ok ⟨[.random (keys.map Node.single) (UInt32.ofNat keys.length) 1], false⟩ ∧
    ∀ n : UInt32, n ≠ 0 →
      ofTokens keys [.symbol .openSquare, .symbol .every, .symbol .pick, .number n,
          .symbol .closeSquare] =
        if n.toNat ≤ keys.length then .ok ⟨[.random (keys.map Node.single) n 1], false⟩
        else .error (.pickTooLarge 3 n keys.length) := by
  refine ⟨fun tokens p => ?_, fun n hn => ofTokens_every_counted_forever hne hn,
    ofTokens_bracket_every hne, fun n hn => ofTokens_bracket_every_picks hne hn⟩
  rw [ofTokens_eq_ok_iff, ofTokens_eq_ok_iff]
  exact Reading.leadsTo_writtenOut_iff hne tokens p .start

/-- `[@*2@:3]~` over two keys. -/
theorem ofTokens_writtenOut_brackets :
    ['T', 'I'] ≠ [] ∧
    ofTokens ['T', 'I']
        [.symbol .openSquare, .key 'T', .symbol .times, .number 2, .key 'I', .symbol .times,
          .number 2, .key 'T', .key 'I', .symbol .pick, .number 3, .symbol .closeSquare,
          .symbol .forever] =
      .ok ⟨[.random [.piece 'T' 2, .piece 'I' 2, .piece 'T' 1, .piece 'I' 1] 3 1], true⟩ :=
  have hne : ['T', 'I'] ≠ [] := by decide
  ⟨hne, ((ofTokens_writtenOut_iff hne).1
    [.symbol .openSquare, .symbol .every, .symbol .times, .number 2, .symbol .every,
      .symbol .pick, .number 3, .symbol .closeSquare, .symbol .forever] _).mp rfl⟩

end Pattern
end PieceSequencer
