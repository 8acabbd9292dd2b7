import Mathlib.Data.List.Infix
import WideLog.Core.Mutate

/-!
# What a mutator does to an event

Every mutator ends in the same write: grow the vector, store one slot, count it
if it was empty.  That write is `put`; this file says what it does to each field,
reduces `update` and `object` to it, and the path methods to a single descent.
-/

namespace WideLog

namespace WideEvent

section Slots

variable {K : Type}

/-- Store `v` in slot `i`, growing the vector and counting the slot as needed. -/
def put (i : ℕ) (v : Value K) (ev : WideEvent K) : WideEvent K :=
  (ev.ensureCapacity i).store i v (ev.slot i).isNone

/-- The nested event `object` hands out: the one in the slot, or a fresh child. -/
def childAt (i : ℕ) (ev : WideEvent K) : WideEvent K :=
  match ev.slot i with
  | some (.object child) => child
  | _ => ev.newChild

@[simp] theorem logEntries_ensureCapacity (i : ℕ) (ev : WideEvent K) :
    (ev.ensureCapacity i).logEntries = ev.logEntries := by
  unfold ensureCapacity; split <;> rfl

@[simp] theorem onTypeConflict_ensureCapacity (i : ℕ) (ev : WideEvent K) :
    (ev.ensureCapacity i).onTypeConflict = ev.onTypeConflict := by
  unfold ensureCapacity; split <;> rfl

@[simp] theorem presentCount_ensureCapacity (i : ℕ) (ev : WideEvent K) :
    (ev.ensureCapacity i).presentCount = ev.presentCount := by
  unfold ensureCapacity; split <;> rfl

@[simp] theorem newChild_ensureCapacity (i : ℕ) (ev : WideEvent K) :
    (ev.ensureCapacity i).newChild = ev.newChild := by simp [newChild]

theorem values_ensureCapacity (i : ℕ) (ev : WideEvent K) :
    (ev.ensureCapacity i).values =
      ev.values ++ List.replicate (i + 1 - ev.values.length) none := by
  unfold ensureCapacity
  split
  · rfl
  · rename_i h
    rw [Nat.sub_eq_zero_of_le (by omega)]
    simp

theorem length_ensureCapacity (i : ℕ) (ev : WideEvent K) :
    (ev.ensureCapacity i).values.length = max ev.values.length (i + 1) := by
  rw [values_ensureCapacity, List.length_append, List.length_replicate]
  omega

theorem lt_length_ensureCapacity (i : ℕ) (ev : WideEvent K) :
    i < (ev.ensureCapacity i).values.length := by
  rw [length_ensureCapacity]; omega

@[simp] theorem slot_ensureCapacity (i j : ℕ) (ev : WideEvent K) :
    (ev.ensureCapacity i).slot j = ev.slot j := by
  rw [slot, slot, values_ensureCapacity, List.getElem?_append]
  split
  · rfl
  · rename_i h
    rw [List.getElem?_eq_none (by omega : ev.values.length ≤ j), List.getElem?_replicate]
    split <;> rfl

@[simp] theorem countSome_ensureCapacity (i : ℕ) (ev : WideEvent K) :
    (ev.ensureCapacity i).countSome = ev.countSome := by
  rw [countSome, countSome, values_ensureCapacity, List.countP_append, List.countP_replicate]
  simp

theorem mem_values_ensureCapacity {i : ℕ} {ev : WideEvent K} {v : Value K} :
    some v ∈ (ev.ensureCapacity i).values ↔ some v ∈ ev.values := by
  simp [values_ensureCapacity]

/-- The vector after a `put`, entry by entry. -/
theorem values_put_getElem? (i j : ℕ) (v : Value K) (ev : WideEvent K) :
    (ev.put i v).values[j]? =
      if i = j then some (some v) else (ev.ensureCapacity i).values[j]? := by
  have h := lt_length_ensureCapacity i ev
  rw [put, store, List.getElem?_set]
  split <;> simp_all

theorem length_put (i : ℕ) (v : Value K) (ev : WideEvent K) :
    (ev.put i v).values.length = max ev.values.length (i + 1) := by
  simp [put, store, length_ensureCapacity]

@[simp] theorem logEntries_put (i : ℕ) (v : Value K) (ev : WideEvent K) :
    (ev.put i v).logEntries = ev.logEntries := by simp [put, store]

@[simp] theorem onTypeConflict_put (i : ℕ) (v : Value K) (ev : WideEvent K) :
    (ev.put i v).onTypeConflict = ev.onTypeConflict := by simp [put, store]

theorem presentCount_put (i : ℕ) (v : Value K) (ev : WideEvent K) :
    (ev.put i v).presentCount = ev.presentCount + if (ev.slot i).isNone then 1 else 0 := by
  simp only [put, store, presentCount_ensureCapacity]
  split <;> rfl

@[simp] theorem slot_put_self (i : ℕ) (v : Value K) (ev : WideEvent K) :
    (ev.put i v).slot i = some v := by
  simp [slot, values_put_getElem?]

theorem slot_put_of_ne {i j : ℕ} (h : i ≠ j) (v : Value K) (ev : WideEvent K) :
    (ev.put i v).slot j = ev.slot j := by
  rw [slot, values_put_getElem?, if_neg h, ← slot, slot_ensureCapacity]

theorem mem_values_put {i : ℕ} {v w : Value K} {ev : WideEvent K}
    (h : some w ∈ (ev.put i v).values) : w = v ∨ some w ∈ ev.values := by
  rcases List.mem_or_eq_of_mem_set h with h | h
  · exact .inr (mem_values_ensureCapacity.mp h)
  · exact .inl (Option.some.inj h)

/-- A `put` adds one present slot exactly when the slot was empty. -/
theorem countSome_put (i : ℕ) (v : Value K) (ev : WideEvent K) :
    (ev.put i v).countSome = ev.countSome + if (ev.slot i).isNone then 1 else 0 := by
  have hlen := lt_length_ensureCapacity i ev
  have hold : (ev.ensureCapacity i).values[i] = ev.slot i := by
    rw [← slot_ensureCapacity i i ev, slot, List.getElem?_eq_getElem hlen]; rfl
  have hcount : (ev.ensureCapacity i).values.countP Option.isSome = ev.countSome :=
    countSome_ensureCapacity i ev
  have hpos : (ev.slot i).isSome → 0 < ev.countSome := fun hs ↦
    hcount ▸ List.countP_pos_iff.mpr ⟨_, List.getElem_mem hlen, by rw [hold]; exact hs⟩
  change ((ev.ensureCapacity i).values.set i (some v)).countP Option.isSome = _
  rw [List.countP_set hlen, hold, hcount]
  cases hs : ev.slot i with
  | none => simp
  | some w =>
      have := hpos (by rw [hs]; rfl)
      simp only [Option.isSome_some, Option.isNone_some, if_true, Bool.false_eq_true, if_false]
      omega

theorem ensureCapacity_put (i : ℕ) (v : Value K) (ev : WideEvent K) :
    (ev.put i v).ensureCapacity i = ev.put i v :=
  if_neg (by rw [length_put]; omega)

/-- Storing again in the slot of a `put`, without counting, overwrites it. -/
theorem store_put_self (i : ℕ) (v w : Value K) (ev : WideEvent K) :
    (ev.put i v).store i w false = ev.put i w := by
  apply WideEvent.ext <;> simp [put, store]

/-- Only the last of two writes to one slot survives. -/
theorem put_put_self (i : ℕ) (v w : Value K) (ev : WideEvent K) :
    (ev.put i v).put i w = ev.put i w := by
  rw [put, ensureCapacity_put, slot_put_self]
  exact store_put_self i v w ev

/-- Writing what a slot holds changes nothing. -/
theorem put_of_slot {i : ℕ} {v : Value K} {ev : WideEvent K} (h : ev.slot i = some v) :
    ev.put i v = ev := by
  have hentry : ev.values[i]? = some (some v) := Option.join_eq_some_iff.mp h
  obtain ⟨hi, hv⟩ := List.getElem?_eq_some_iff.mp hentry
  have hgrown : ev.ensureCapacity i = ev := if_neg (Nat.not_le.mpr hi)
  rw [put, hgrown, h]
  apply WideEvent.ext
  · show ev.values.set i (some v) = ev.values
    rw [← hv, List.set_getElem_self]
  · rfl
  · rfl
  · rfl

/-- Writes to different slots commute. -/
theorem put_comm {i j : ℕ} (h : i ≠ j) (v w : Value K) (ev : WideEvent K) :
    (ev.put i v).put j w = (ev.put j w).put i v := by
  apply WideEvent.ext
  · apply List.ext_getElem?
    intro k
    simp only [values_put_getElem?, values_ensureCapacity, List.getElem?_append, length_put,
      List.getElem?_replicate]
    grind
  · simp
  · simp
  · simp only [presentCount_put, slot_put_of_ne h, slot_put_of_ne h.symm]
    omega

@[simp] theorem slot_newChild (i : ℕ) (ev : WideEvent K) : ev.newChild.slot i = none := by
  simp [newChild, slot]

/-- `childAt` either finds an event in the slot or is a fresh child. -/
theorem childAt_cases (i : ℕ) (ev : WideEvent K) :
    (∃ child, ev.slot i = some (.object child) ∧ ev.childAt i = child) ∨
      (∀ child, ev.slot i ≠ some (.object child)) ∧ ev.childAt i = ev.newChild := by
  unfold childAt
  split
  · exact .inl ⟨_, ‹_›, rfl⟩
  · rename_i h
    exact .inr ⟨h, rfl⟩

theorem childAt_put_self (i : ℕ) (child : WideEvent K) (ev : WideEvent K) :
    (ev.put i (.object child)).childAt i = child := by simp [childAt]

theorem childAt_put_of_ne {i j : ℕ} (h : i ≠ j) (v : Value K) (ev : WideEvent K) :
    (ev.put i v).childAt j = ev.childAt j := by
  simp [childAt, slot_put_of_ne h, newChild]

/-- Entering a slot that holds an event, on the grown vector. -/
theorem enter_ensureCapacity {i : ℕ} {ev child : WideEvent K}
    (hs : ev.slot i = some (.object child)) (k : WideEvent K → Outcome (WideEvent K)) :
    (ev.ensureCapacity i).enter i k = (k child).map fun child => ev.put i (.object child) := by
  simp [enter, hs, put]

/-- Replacing a slot by a fresh child and entering it. -/
theorem replaceWithChild_enter (i : ℕ) (ev : WideEvent K)
    (k : WideEvent K → Outcome (WideEvent K)) :
    ((ev.ensureCapacity i).replaceWithChild i (ev.slot i).isNone).bind (·.enter i k) =
      (k ev.newChild).map fun child => ev.put i (.object child) := by
  rw [replaceWithChild, if_pos (lt_length_ensureCapacity i ev), newChild_ensureCapacity, ← put]
  simp only [Outcome.bind_ret, enter, slot_put_self, store_put_self]

/-- The slice of all but the last segment is what it should be off the empty path. -/
@[simp] theorem initSlice_concat (env : Env K) (path : List K) (key : K) :
    initSlice env (path ++ [key]) = some path := by
  simp [initSlice]

/-- On the empty path the slice fails, whether or not overflow is checked. -/
@[simp] theorem initSlice_nil (env : Env K) : initSlice env ([] : List K) = none := by
  cases h : env.overflowChecks <;> simp [initSlice, h]

end Slots

section Reduction

variable {K : Type} [Key K] (env : Env K)

/-- `update` is a `put` of the new value, or a panic that leaves the slots alone. -/
theorem update_eq (newVal : Option (Value K) → Option (Value K)) (key : K) (ev : WideEvent K) :
    update newVal key ev =
      match newVal (ev.slot (Key.asIndex key)) with
      | some v => .ret (ev.put (Key.asIndex key) v)
      | none => .panic (ev.ensureCapacity (Key.asIndex key)) := by
  cases h : newVal (ev.slot (Key.asIndex key)) with
  | none => simp [update, h]
  | some v => simp [update, h, put]

/-- With no callback, `object` runs `k` on the nested event and puts it back. -/
theorem object_eq {ev : WideEvent K} (hq : ev.onTypeConflict = none) (key : K)
    (k : WideEvent K → Outcome (WideEvent K)) :
    ev.object env key k = (k (ev.childAt (Key.asIndex key))).map fun child =>
      ev.put (Key.asIndex key) (.object child) := by
  have hfire : (ev.ensureCapacity (Key.asIndex key)).fireConflict env key =
      .ret (ev.ensureCapacity (Key.asIndex key)) := by simp [fireConflict, hq]
  have hreplace := replaceWithChild_enter (Key.asIndex key) ev k
  simp only [object, slot_ensureCapacity, childAt, hfire, Outcome.bind_ret]
  cases hs : ev.slot (Key.asIndex key) with
  | none => simpa [hs] using hreplace
  | some v =>
      cases v with
      | object child => simpa [Value.isObject] using enter_ensureCapacity hs k
      | _ => simpa [Value.isObject, hs] using hreplace

/-! ## One descent for all path lengths -/

/-- The generic branch runs the slot method at the end of the descent. -/
theorem viaDescend_concat (op : K → WideEvent K → Outcome (WideEvent K)) (path : List K)
    (key : K) (ev : WideEvent K) :
    viaDescend env op (path ++ [key]) ev = descendLoop env path (op key) ev := by
  simp [viaDescend, descendMut]

theorem viaDescend_nil (op : K → WideEvent K → Outcome (WideEvent K)) (ev : WideEvent K) :
    viaDescend env op [] ev = .panic ev := by
  simp [viaDescend, descendMut]

/-- The inlined branches agree with the descent they replace. -/
theorem atPath_concat (op : K → WideEvent K → Outcome (WideEvent K)) (path : List K)
    (key : K) (ev : WideEvent K) :
    atPath env op (path ++ [key]) ev = descendLoop env path (op key) ev := by
  have hne : (path ++ [key]).isEmpty = false := by simp
  simp only [atPath, hne, Bool.and_false, Bool.false_eq_true, if_false]
  match path with
  | [] => rfl
  | [_] => rfl
  | k₀ :: k₁ :: rest =>
      have h := viaDescend_concat env op (k₀ :: k₁ :: rest) key ev
      obtain ⟨k₂, tail, htail⟩ : ∃ k₂ tail, rest ++ [key] = k₂ :: tail :=
        List.exists_cons_of_ne_nil (by simp)
      rw [List.cons_append, List.cons_append, htail] at h ⊢
      exact h

/-- A path method on the empty path panics in every build, and touches nothing. -/
theorem atPath_nil (op : K → WideEvent K → Outcome (WideEvent K)) (ev : WideEvent K) :
    atPath env op [] ev = .panic ev := by
  simp [atPath, viaDescend_nil]

end Reduction

end WideEvent

end WideLog
