import Mathlib.Data.List.Nodup

/-!
# Tables with an index

A table that grows at its end, and the map from its entries to their positions
that decides whether an entry is already there.
-/

universe u

variable {α : Type u} [BEq α]

/-- The index is the inverse of the table. -/
def IndexOf (index : List (α × ℕ)) (table : List α) : Prop :=
  ∀ a i, index.lookup a = some i ↔ table[i]? = some a

namespace IndexOf

variable {index : List (α × ℕ)} {table : List α}

theorem nil : IndexOf ([] : List (α × ℕ)) [] := fun a i ↦ by simp

/-- What the index is consulted for. -/
theorem isSome_iff (h : IndexOf index table) (a : α) :
    (index.lookup a).isSome ↔ a ∈ table := by
  rw [Option.isSome_iff_exists, List.mem_iff_getElem?]
  exact exists_congr fun i ↦ h a i

variable [LawfulBEq α]

/-- An entry that is not in the table yet is added at its end. -/
theorem append (h : IndexOf index table) {a : α} (ha : a ∉ table) :
    IndexOf ((a, table.length) :: index) (table ++ [a]) := by
  intro b i
  rw [List.lookup_cons, List.getElem?_append]
  by_cases hb : b = a
  · subst hb
    simp only [BEq.rfl, Option.some.injEq]
    constructor
    · rintro rfl
      simp
    · split_ifs with hi
      · intro hmem
        exact absurd (List.mem_of_getElem? hmem) ha
      · intro hsome
        have := (List.getElem?_eq_some_iff.mp hsome).1
        simp only [List.length_singleton] at this
        omega
  · have hbeq : (b == a) = false := by simpa using hb
    simp only [hbeq]
    rw [h b i]
    split_ifs with hi
    · rfl
    · rw [List.getElem?_eq_none (by omega : table.length ≤ i)]
      refine iff_of_false (fun hn ↦ nomatch hn) fun hsome ↦ hb ?_
      have := List.mem_of_getElem? hsome
      simpa using this

omit [LawfulBEq α] in
/-- No entry is in the table twice. -/
theorem nodup (h : IndexOf index table) : table.Nodup := by
  rw [List.nodup_iff_getElem?_ne_getElem?]
  intro i j hij hj heq
  have hi := List.getElem?_eq_getElem (Nat.lt_trans hij hj)
  have hi' := (h _ _).mpr hi
  have hj' := (h _ _).mpr (heq ▸ hi)
  rw [hi'] at hj'
  exact absurd (Option.some.inj hj') (by omega)

end IndexOf
