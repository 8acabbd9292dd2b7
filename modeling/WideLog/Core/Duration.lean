import Mathlib.Algebra.Field.Rat
import Mathlib.Algebra.Order.Field.Rat
import Mathlib.Data.List.SplitBy
import Mathlib.Tactic.NormNum

/-!
# The unit of the duration

A guard records the elapsed time in the unit that the leaf of the duration is named
after.  `rsplit` also returns a last piece of a name without underscores: the name.
-/

namespace WideLog

/-- `leaf_name.rsplit('_').next()`. -/
def rsplitNext (leafName : String) : Option String :=
  (leafName.toList.splitOnP (· = '_')).getLast?.map String.ofList

/-- `duration_to_unit_f64`, in exact arithmetic. -/
def durationToUnit (leafName : String) (nanos : ℕ) : ℚ :=
  match rsplitNext leafName with
  | some "ns" => nanos
  | some "us" => nanos / 1000
  | some "ms" => nanos / 1000000
  | some "s" => nanos / 1000000000
  | some "m" => nanos / 1000000000 / 60
  | some "h" => nanos / 1000000000 / 3600
  | _ => nanos / 1000000

/-- The units, in nanoseconds. -/
def durationUnits : List (String × ℕ) :=
  [("ns", 1), ("us", 1000), ("ms", 1000000), ("s", 1000000000), ("m", 60000000000),
    ("h", 3600000000000)]

/-- A name that ends in an underscore and the name of a unit. -/
def NamesUnit (leafName : String) (unit : String × ℕ) : Prop :=
  unit ∈ durationUnits ∧ ∃ stem, leafName = stem ++ "_" ++ unit.1

/-- A number of nanoseconds, in the unit that the name asks for, and in milliseconds if it
asks for none. -/
structure InNamedUnit (leafName : String) (nanos : ℕ) (value : ℚ) : Prop where
  named : ∀ unit, NamesUnit leafName unit → value = nanos / unit.2
  default : (∀ unit, ¬ NamesUnit leafName unit) → value = nanos / 1000000

theorem rsplitNext_append {stem suffix : String} (h : '_' ∉ suffix.toList) :
    rsplitNext (stem ++ "_" ++ suffix) = some suffix := by
  have hlist : (stem ++ "_" ++ suffix).toList = stem.toList ++ '_' :: suffix.toList := by
    simp [String.toList_append]
  have hsuffix : suffix.toList.splitOnP (· = '_') = [suffix.toList] :=
    List.splitOnP_eq_singleton fun c hc ↦ decide_eq_false fun heq ↦ h (heq ▸ hc)
  rw [rsplitNext, hlist, List.splitOnP_append_cons _ _ (by decide), hsuffix,
    List.getLast?_concat, Option.map_some, String.ofList_toList]

/-- Without an underscore, the last piece is the name. -/
theorem rsplitNext_of_notMem {leafName : String} (h : '_' ∉ leafName.toList) :
    rsplitNext leafName = some leafName := by
  have hname : leafName.toList.splitOnP (· = '_') = [leafName.toList] :=
    List.splitOnP_eq_singleton fun c hc ↦ decide_eq_false fun heq ↦ h (heq ▸ hc)
  rw [rsplitNext, hname, List.getLast?_singleton, Option.map_some, String.ofList_toList]

/-- A name with an underscore has a last one. -/
theorem exists_suffix {leafName : String} (h : '_' ∈ leafName.toList) :
    ∃ stem suffix, '_' ∉ suffix.toList ∧ leafName = stem ++ "_" ++ suffix := by
  obtain ⟨after, before, hrev, hafter⟩ :=
    List.eq_append_cons_of_mem (List.mem_reverse.mpr h)
  refine ⟨.ofList before.reverse, .ofList after.reverse, by simpa using hafter, ?_⟩
  rw [← String.toList_inj]
  simp [String.toList_append, List.reverse_eq_iff.mp hrev]

theorem underscore_notMem_unit {unit : String × ℕ} (h : unit ∈ durationUnits) :
    '_' ∉ unit.1.toList := by
  have hall : ∀ unit ∈ durationUnits, '_' ∉ unit.1.toList := by decide
  exact hall unit h

/-- The unit of a last piece, in nanoseconds. -/
def nanosOf (suffix : String) : ℕ := (durationUnits.lookup suffix).getD 1000000

theorem nanosOf_of_mem {unit : String × ℕ} (h : unit ∈ durationUnits) :
    nanosOf unit.1 = unit.2 := by
  have hall : ∀ unit ∈ durationUnits, nanosOf unit.1 = unit.2 := by decide
  exact hall unit h

theorem nanosOf_of_notMem {suffix : String} (h : suffix ∉ durationUnits.map Prod.fst) :
    nanosOf suffix = 1000000 := by
  have hnone : durationUnits.lookup suffix = none := by
    rw [List.lookup_eq_none_iff]
    intro unit hunit
    rw [bne_iff_ne]
    rintro rfl
    exact h (List.mem_map_of_mem hunit)
  rw [nanosOf, hnone, Option.getD_none]

theorem durationToUnit_eq {leafName suffix : String} (h : rsplitNext leafName = some suffix)
    (nanos : ℕ) : durationToUnit leafName nanos = nanos / nanosOf suffix := by
  by_cases hs : suffix ∈ durationUnits.map Prod.fst
  · obtain ⟨unit, hunit, rfl⟩ := List.mem_map.mp hs
    rw [durationToUnit, h, nanosOf_of_mem hunit]
    simp only [durationUnits, List.mem_cons, List.not_mem_nil, or_false] at hunit
    rcases hunit with rfl | rfl | rfl | rfl | rfl | rfl <;> norm_num [div_div]
  · rw [durationToUnit, h, nanosOf_of_notMem hs]
    split <;> simp_all [durationUnits]

theorem nanosOf_pos (suffix : String) : 0 < nanosOf suffix := by
  by_cases hs : suffix ∈ durationUnits.map Prod.fst
  · obtain ⟨unit, hunit, rfl⟩ := List.mem_map.mp hs
    have hall : ∀ unit ∈ durationUnits, 0 < unit.2 := by decide
    rw [nanosOf_of_mem hunit]
    exact hall unit hunit
  · rw [nanosOf_of_notMem hs]
    decide

/-- Only milliseconds and texts that name no unit give milliseconds. -/
theorem nanosOf_eq_millis_iff (suffix : String) :
    nanosOf suffix = 1000000 ↔ suffix ∉ ["ns", "us", "s", "m", "h"] := by
  by_cases hs : suffix ∈ durationUnits.map Prod.fst
  · have hall : ∀ s ∈ durationUnits.map Prod.fst,
        (nanosOf s = 1000000 ↔ s ∉ ["ns", "us", "s", "m", "h"]) := by decide
    exact hall suffix hs
  · refine iff_of_true (nanosOf_of_notMem hs) fun hmem ↦ hs ?_
    have hsub : ["ns", "us", "s", "m", "h"] ⊆ durationUnits.map Prod.fst := by decide
    exact hsub hmem

/-- A name that asks for a unit gets it. -/
theorem durationToUnit_of_namesUnit {leafName : String} {unit : String × ℕ}
    (h : NamesUnit leafName unit) (nanos : ℕ) : durationToUnit leafName nanos = nanos / unit.2 := by
  obtain ⟨hunit, stem, rfl⟩ := h
  rw [durationToUnit_eq (rsplitNext_append (underscore_notMem_unit hunit)), nanosOf_of_mem hunit]

/-- **The duration is in the unit its leaf asks for exactly if the leaf is not itself the
name of a unit**, other than milliseconds, or no time has passed. -/
theorem inNamedUnit_iff (leafName : String) (nanos : ℕ) :
    InNamedUnit leafName nanos (durationToUnit leafName nanos) ↔
      leafName ∉ ["ns", "us", "s", "m", "h"] ∨ nanos = 0 := by
  by_cases hleaf : '_' ∈ leafName.toList
  · obtain ⟨stem, suffix, hsuffix, rfl⟩ := exists_suffix hleaf
    have hplain : ∀ s ∈ ["ns", "us", "s", "m", "h"], '_' ∉ s.toList := by decide
    refine iff_of_true ⟨fun unit h ↦ durationToUnit_of_namesUnit h nanos, fun hnone ↦ ?_⟩
      (.inl fun hmem ↦ hplain _ hmem hleaf)
    have hs : suffix ∉ durationUnits.map Prod.fst := by
      intro hs
      obtain ⟨unit, hunit, rfl⟩ := List.mem_map.mp hs
      exact hnone unit ⟨hunit, stem, rfl⟩
    rw [durationToUnit_eq (rsplitNext_append hsuffix), nanosOf_of_notMem hs]
    norm_num
  · have hnone : ∀ unit, ¬ NamesUnit leafName unit := by
      rintro unit ⟨-, stem, rfl⟩
      simp [String.toList_append] at hleaf
    have hunits : (nanos : ℚ) / nanosOf leafName = nanos / 1000000 ↔
        nanosOf leafName = 1000000 ∨ nanos = 0 := by
      have hpos : (nanosOf leafName : ℚ) ≠ 0 := Nat.cast_ne_zero.mpr (nanosOf_pos leafName).ne'
      rw [div_eq_div_iff hpos (by norm_num), mul_eq_mul_left_iff, Nat.cast_eq_zero, eq_comm]
      norm_cast
    rw [← nanosOf_eq_millis_iff, ← hunits, durationToUnit_eq (rsplitNext_of_notMem hleaf)]
    exact ⟨fun h ↦ h.default hnone, fun h ↦ ⟨fun unit hunit ↦ absurd hunit (hnone unit),
      fun _ ↦ h⟩⟩

/-- **A leaf that is named like a unit is taken for one.** -/
theorem not_inNamedUnit :
    ¬ ∀ (leafName : String) (nanos : ℕ),
      InNamedUnit leafName nanos (durationToUnit leafName nanos) := by
  intro h
  have hnone : ∀ unit, ¬ NamesUnit "s" unit := by
    rintro unit ⟨-, stem, hstem⟩
    have hmem : '_' ∈ "s".toList := by
      rw [hstem]
      simp [String.toList_append]
    exact absurd hmem (by decide)
  have hvalue := (h "s" 1).default hnone
  rw [durationToUnit_eq (rsplitNext_of_notMem (by decide))] at hvalue
  rw [show nanosOf "s" = 1000000000 by decide] at hvalue
  norm_num at hvalue

end WideLog
