import Mathlib.Data.List.Forall2

/-!
# Computations that may fail

What a sequence of two computations in `Except` does, read off from its result,
and what a computation in `Option` makes of the elements of a list.
-/

universe u v

/-- The results of a computation on every element of a list. -/
theorem List.forall₂_of_mapM {α : Type u} {β : Type v} {f : α → Option β} {xs : List α}
    {ys : List β} (h : xs.mapM f = some ys) : Forall₂ (fun x y ↦ f x = some y) xs ys := by
  induction xs generalizing ys with
  | nil =>
      rw [List.mapM_nil] at h
      cases h
      exact .nil
  | cons x xs ih =>
      rw [List.mapM_cons] at h
      obtain ⟨y, hy, h⟩ := Option.bind_eq_some_iff.mp h
      obtain ⟨ys', hys, h⟩ := Option.bind_eq_some_iff.mp h
      cases h
      exact .cons hy (ih hys)

/-- A computation on every element of a list succeeds if it does on each. -/
theorem List.isSome_mapM {α : Type u} {β : Type v} {f : α → Option β} {xs : List α}
    (h : ∀ x ∈ xs, (f x).isSome) : (xs.mapM f).isSome := by
  induction xs with
  | nil => rfl
  | cons x xs ih =>
      rw [List.forall_mem_cons] at h
      obtain ⟨y, hy⟩ := Option.isSome_iff_exists.mp h.1
      obtain ⟨ys, hys⟩ := Option.isSome_iff_exists.mp (ih h.2)
      rw [List.mapM_cons, hy, hys]
      rfl

/-- Related lists agree on the first element with a property the relation respects. -/
theorem List.Forall₂.find?_eq_some {α : Type u} {β : Type v} {R : α → β → Prop} {p : α → Bool}
    {q : β → Bool} (hR : ∀ x y, R x y → p x = q y) {xs : List α} {ys : List β}
    (h : Forall₂ R xs ys) {x : α} (hx : xs.find? p = some x) :
    ∃ y, ys.find? q = some y ∧ R x y := by
  induction h with
  | nil => cases hx
  | @cons a b as bs hab _ ih =>
      rw [List.find?_cons] at hx ⊢
      rw [← hR a b hab]
      cases hp : p a with
      | true =>
          rw [hp] at hx
          cases hx
          exact ⟨b, rfl, hab⟩
      | false =>
          rw [hp] at hx
          exact ih hx

/-- Every element of the second list is related to one of the first. -/
theorem List.Forall₂.exists_of_mem {α : Type u} {β : Type v} {R : α → β → Prop} {xs : List α}
    {ys : List β} (h : Forall₂ R xs ys) {y : β} (hy : y ∈ ys) : ∃ x ∈ xs, R x y := by
  induction h with
  | nil => cases hy
  | @cons a b as bs hab _ ih =>
      rcases List.mem_cons.mp hy with rfl | hy
      · exact ⟨a, List.mem_cons_self, hab⟩
      · obtain ⟨x, hx, hR⟩ := ih hy
        exact ⟨x, List.mem_cons_of_mem _ hx, hR⟩

namespace Except

variable {ε : Type u} {α β : Type v}

/-- A sequence succeeds when both computations do. -/
theorem bind_eq_ok_iff {x : Except ε α} {f : α → Except ε β} {b : β} :
    (x >>= f) = .ok b ↔ ∃ a, x = .ok a ∧ f a = .ok b := by
  cases x with
  | error e =>
      constructor
      · intro h
        cases h
      · rintro ⟨a, ha, -⟩
        cases ha
  | ok a =>
      constructor
      · intro h
        exact ⟨a, rfl, h⟩
      · rintro ⟨_, ⟨⟩, h⟩
        exact h

/-- The second computation matters only at the results of the first. -/
theorem bind_congr_ok {x : Except ε α} {f g : α → Except ε β}
    (h : ∀ a, x = .ok a → f a = g a) : (x >>= f) = (x >>= g) := by
  cases x with
  | error e => rfl
  | ok a => exact h a rfl

theorem toOption_eq_some_iff {x : Except ε α} {a : α} : x.toOption = some a ↔ x = .ok a := by
  cases x <;> simp [Except.toOption]

end Except
