import Mathlib.Data.List.Forall2

/-! # The first fault of a list

A step that may fail, taken for the items of a list from left to right, gives one result for each
item, or the fault of the leftmost item that has one.  Nothing behind that item is looked at
(`mapM_eq_error_iff`); where only the fault matters, `forM` has the same one. -/

namespace PieceSequencer

variable {α β ε : Type} {items : List α}

theorem bind_eq_ok_iff {first : Except ε α} {next : α → Except ε β} {result : β} :
    (first >>= next) = .ok result ↔ ∃ item, first = .ok item ∧ next item = .ok result := by
  cases first <;> simp [bind, Except.bind]

theorem mapM_eq_ok_iff {f : α → Except ε β} {results : List β} :
    items.mapM f = .ok results ↔
      List.Forall₂ (fun item result => f item = .ok result) items results := by
  induction items generalizing results with
  | nil =>
      rw [List.forall₂_nil_left_iff, List.mapM_nil]
      simp [pure, Except.pure, eq_comm]
  | cons item items ih =>
      rw [List.mapM_cons, List.forall₂_cons_left_iff]
      constructor
      · intro h
        obtain ⟨result, hitem, h⟩ := bind_eq_ok_iff.mp h
        obtain ⟨rest, hrest, h⟩ := bind_eq_ok_iff.mp h
        cases h
        exact ⟨result, rest, hitem, ih.mp hrest, rfl⟩
      · rintro ⟨result, rest, hitem, hrest, rfl⟩
        rw [hitem, ih.mpr hrest]
        rfl

/-- The fault is that of the leftmost item that has one. -/
theorem mapM_eq_error_iff {f : α → Except ε β} {e : ε} :
    items.mapM f = .error e ↔ ∃ front item back, items = front ++ item :: back ∧
      (∀ other ∈ front, ∃ result, f other = .ok result) ∧ f item = .error e := by
  induction items with
  | nil => simp [pure, Except.pure]
  | cons item items ih =>
      rw [List.mapM_cons]
      constructor
      · intro h
        cases hitem : f item with
        | error e' =>
            simp only [hitem, bind, Except.bind, Except.error.injEq] at h
            exact ⟨[], item, items, rfl, by simp, by rw [hitem, h]⟩
        | ok result =>
            cases hrest : items.mapM f with
            | ok rest => simp [hitem, hrest, bind, Except.bind, pure, Except.pure] at h
            | error e' =>
                simp only [hitem, hrest, bind, Except.bind, Except.error.injEq] at h
                obtain ⟨front, other, back, rfl, hfront, hother⟩ := ih.mp (h ▸ hrest)
                refine ⟨item :: front, other, back, rfl, ?_, hother⟩
                exact List.forall_mem_cons.mpr ⟨⟨result, hitem⟩, hfront⟩
      · rintro ⟨front, other, back, hitems, hfront, hother⟩
        cases front with
        | nil =>
            obtain ⟨rfl, rfl⟩ := List.cons.inj hitems
            rw [hother]
            rfl
        | cons first front =>
            obtain ⟨rfl, rfl⟩ := List.cons.inj hitems
            obtain ⟨⟨result, hitem⟩, hfront⟩ := List.forall_mem_cons.mp hfront
            rw [hitem, ih.mpr ⟨front, other, back, rfl, hfront, hother⟩]
            rfl

theorem forM_eq_mapM {f : α → Except ε Unit} :
    items.forM f = (items.mapM f).map fun _ => () := by
  induction items with
  | nil => rfl
  | cons item items ih =>
      rw [show (item :: items).forM f = (f item >>= fun _ => items.forM f) from rfl,
        List.mapM_cons, ih]
      cases f item <;> cases items.mapM f <;> rfl

theorem forM_eq_ok_iff {f : α → Except ε Unit} :
    items.forM f = .ok () ↔ ∀ item ∈ items, f item = .ok () := by
  induction items with
  | nil => exact iff_of_true rfl (by simp)
  | cons item items ih =>
      rw [show (item :: items).forM f = (f item >>= fun _ => items.forM f) from rfl,
        List.forall_mem_cons, ← ih]
      cases f item <;> simp [bind, Except.bind]

theorem forM_eq_error_iff {f : α → Except ε Unit} {e : ε} :
    items.forM f = .error e ↔ ∃ front item back, items = front ++ item :: back ∧
      (∀ other ∈ front, f other = .ok ()) ∧ f item = .error e := by
  have hmap : items.forM f = .error e ↔ items.mapM f = .error e := by
    rw [forM_eq_mapM]
    cases items.mapM f <;> simp [Except.map]
  have hunit : ∀ item, (∃ result, f item = .ok result) ↔ f item = .ok () :=
    fun item => ⟨fun ⟨(), h⟩ => h, fun h => ⟨(), h⟩⟩
  rw [hmap, mapM_eq_error_iff]
  simp only [hunit]

end PieceSequencer
