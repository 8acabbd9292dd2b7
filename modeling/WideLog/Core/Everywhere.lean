import WideLog.Core.Put

/-!
# Properties of every event in a tree

`Everywhere P` says that an event and all the events nested in it satisfy `P`.
The two instances that matter are that no event has a conflict callback, and that
every cached count is exact.
-/

namespace WideLog

variable {K : Type}

mutual

/-- Every event inside a value satisfies `P`. -/
inductive Value.Everywhere (P : WideEvent K → Prop) : Value K → Prop
  | null : Value.Everywhere P .null
  | bool (b : Bool) : Value.Everywhere P (.bool b)
  | i64 (n : Int64) : Value.Everywhere P (.i64 n)
  | u64 (n : UInt64) : Value.Everywhere P (.u64 n)
  | f64 (x : F64) : Value.Everywhere P (.f64 x)
  | str (s : String) : Value.Everywhere P (.str s)
  | staticStr (s : String) : Value.Everywhere P (.staticStr s)
  | array {arr : List (Value K)} : (∀ v ∈ arr, Value.Everywhere P v) →
      Value.Everywhere P (.array arr)
  | object {ev : WideEvent K} : WideEvent.Everywhere P ev → Value.Everywhere P (.object ev)

/-- An event and every event nested in it satisfy `P`. -/
inductive WideEvent.Everywhere (P : WideEvent K → Prop) : WideEvent K → Prop
  | mk {ev : WideEvent K} : P ev → (∀ v, some v ∈ ev.values → Value.Everywhere P v) →
      WideEvent.Everywhere P ev

end

mutual

theorem Value.Everywhere.mono {P Q : WideEvent K → Prop} (hPQ : ∀ ev, P ev → Q ev)
    {v : Value K} : v.Everywhere P → v.Everywhere Q
  | .null => .null
  | .bool b => .bool b
  | .i64 n => .i64 n
  | .u64 n => .u64 n
  | .f64 x => .f64 x
  | .str s => .str s
  | .staticStr s => .staticStr s
  | .array h => .array fun v hv ↦ Value.Everywhere.mono hPQ (h v hv)
  | .object h => .object (WideEvent.Everywhere.mono hPQ h)

/-- A weaker property holds everywhere too. -/
theorem WideEvent.Everywhere.mono {P Q : WideEvent K → Prop} (hPQ : ∀ ev, P ev → Q ev)
    {ev : WideEvent K} : ev.Everywhere P → ev.Everywhere Q
  | .mk h hvs => .mk (hPQ _ h) fun v hv ↦ Value.Everywhere.mono hPQ (hvs v hv)

end

namespace WideEvent

/-- No conflict callback on an event or on anything nested in it. -/
abbrev Quiet (ev : WideEvent K) : Prop := ev.Everywhere (·.onTypeConflict = none)

/-- The cached count of an event is the number of its present slots. -/
def CountExact (ev : WideEvent K) : Prop := ev.presentCount = ev.countSome

theorem countExact_new : (new : WideEvent K).CountExact := rfl

/-- A `put` keeps the count exact. -/
theorem CountExact.put {ev : WideEvent K} (h : ev.CountExact) (i : ℕ) (v : Value K) :
    (ev.put i v).CountExact := by
  rw [CountExact] at h ⊢
  rw [presentCount_put, countSome_put, h]

namespace Everywhere

variable {P : WideEvent K → Prop} {ev : WideEvent K}

theorem here (h : ev.Everywhere P) : P ev := by cases h; assumption

theorem values (h : ev.Everywhere P) {v : Value K} (hv : some v ∈ ev.values) :
    v.Everywhere P := by
  cases h with
  | mk _ hvs => exact hvs v hv

/-- What a slot holds satisfies the property. -/
theorem slot (h : ev.Everywhere P) {i : ℕ} {v : Value K} (hv : ev.slot i = some v) :
    v.Everywhere P := by
  rw [WideEvent.slot, Option.join_eq_some_iff] at hv
  exact h.values (List.mem_of_getElem? hv)

theorem childAt (h : ev.Everywhere P) (hnew : ev.newChild.Everywhere P) (i : ℕ) :
    (ev.childAt i).Everywhere P := by
  rcases ev.childAt_cases i with ⟨child, hs, hc⟩ | ⟨-, hc⟩
  · rw [hc]
    cases h.slot hs with
    | object h => exact h
  · rw [hc]; exact hnew

/-- Only the outermost event changes in a `put`. -/
theorem put (h : ev.Everywhere P) {i : ℕ} {v : Value K} (hhere : P (ev.put i v))
    (hv : v.Everywhere P) : (ev.put i v).Everywhere P := by
  apply WideEvent.Everywhere.mk hhere
  intro w hw
  rcases mem_values_put hw with rfl | hw
  · exact hv
  · exact h.values hw

end Everywhere

theorem everywhere_new {P : WideEvent K → Prop} {ev : WideEvent K} (hP : P ev)
    (hnil : ev.values = []) : ev.Everywhere P :=
  .mk hP fun v hv ↦ absurd hv (by rw [hnil]; exact List.not_mem_nil)

end WideEvent

theorem Value.Everywhere.of_object {P : WideEvent K → Prop} {ev : WideEvent K}
    (h : (Value.object ev).Everywhere P) : ev.Everywhere P := by
  cases h with
  | object h => exact h

end WideLog
