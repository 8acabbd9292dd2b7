import Mathlib.Data.List.Basic
import Mathlib.Logic.Equiv.Basic

/-!
# Words

A list is a sequence of words with separators between them.  A function on words that
brings in no separator acts on a list word by word, and so on a list of lists that are
joined by separators.
-/

universe u

variable {α : Type u} [DecidableEq α] {sep : α}

/-- The words of a list have no separator. -/
theorem sep_notMem_of_mem_splitOn {l w : List α} (h : w ∈ l.splitOn sep) : sep ∉ w := by
  induction l generalizing w with
  | nil =>
      rw [List.splitOn_nil, List.mem_singleton] at h
      rw [h]
      exact List.not_mem_nil
  | cons a l ih =>
      rw [List.splitOn_cons_eq_if_modifyHead] at h
      split_ifs at h with ha
      · rcases List.mem_cons.mp h with rfl | h
        · exact List.not_mem_nil
        · exact ih h
      · obtain ⟨v, ws, hws⟩ := List.exists_cons_of_ne_nil (List.splitOn_ne_nil sep l)
        rw [hws] at h ih
        rcases List.mem_cons.mp h with rfl | h
        · rw [List.mem_cons, not_or]
          exact ⟨fun heq ↦ ha (beq_iff_eq.mpr heq.symm), ih List.mem_cons_self⟩
        · exact ih (List.mem_cons_of_mem _ h)

/-- The words of lists that are joined are those of each list. -/
theorem splitOn_intercalate_flatMap {ls : List (List α)} (h : ls ≠ []) :
    ([sep].intercalate ls).splitOn sep = ls.flatMap (·.splitOn sep) := by
  induction ls with
  | nil => exact absurd rfl h
  | cons l ls ih =>
      cases ls with
      | nil => simp
      | cons l' ls =>
          rw [List.intercalate_cons_cons, List.append_assoc, List.singleton_append,
            List.splitOn_append_cons_self, ih (List.cons_ne_nil _ _)]
          rfl

/-- A function on words that keeps different words apart and brings in no separator. -/
structure WordMap (sep : α) where
  word : List α → List α
  injective : Function.Injective word
  free : ∀ w, sep ∉ w → sep ∉ word w

namespace WordMap

variable (f : WordMap sep)

/-- The function, word by word. -/
def apply (l : List α) : List α := [sep].intercalate ((l.splitOn sep).map f.word)

theorem splitOn_apply (l : List α) : (f.apply l).splitOn sep = (l.splitOn sep).map f.word := by
  refine List.splitOn_intercalate sep (fun w hw ↦ ?_) (by simp)
  obtain ⟨v, hv, rfl⟩ := List.mem_map.mp hw
  exact f.free v (sep_notMem_of_mem_splitOn hv)

theorem apply_injective : Function.Injective f.apply := by
  intro l m h
  have hsplit : (l.splitOn sep).map f.word = (m.splitOn sep).map f.word := by
    rw [← f.splitOn_apply, h, f.splitOn_apply]
  calc l = [sep].intercalate (l.splitOn sep) := (List.intercalate_splitOn sep).symm
    _ = [sep].intercalate (m.splitOn sep) := by rw [f.injective.list_map hsplit]
    _ = m := List.intercalate_splitOn sep

/-- On lists that are joined the function acts on each list. -/
theorem apply_intercalate {ls : List (List α)} (h : ls ≠ []) :
    f.apply ([sep].intercalate ls) = [sep].intercalate (ls.map f.apply) := by
  have hmap : ls.map f.apply ≠ [] := by simpa using h
  have hwords : (f.apply ([sep].intercalate ls)).splitOn sep =
      ([sep].intercalate (ls.map f.apply)).splitOn sep := by
    rw [f.splitOn_apply, splitOn_intercalate_flatMap h, splitOn_intercalate_flatMap hmap,
      List.map_flatMap, List.flatMap_map]
    exact List.flatMap_congr fun l _ ↦ (f.splitOn_apply l).symm
  calc f.apply ([sep].intercalate ls)
      = [sep].intercalate ((f.apply ([sep].intercalate ls)).splitOn sep) :=
        (List.intercalate_splitOn sep).symm
    _ = [sep].intercalate (([sep].intercalate (ls.map f.apply)).splitOn sep) := by rw [hwords]
    _ = [sep].intercalate (ls.map f.apply) := List.intercalate_splitOn sep

/-- Two words, each in the place of the other. -/
def swap (v w : List α) (hv : sep ∉ v) (hw : sep ∉ w) : WordMap sep where
  word := Equiv.swap v w
  injective := (Equiv.swap v w).injective
  free u hu := by
    rw [Equiv.swap_apply_def]
    split_ifs
    · exact hw
    · exact hv
    · exact hu

end WordMap
