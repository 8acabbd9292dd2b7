import WideLog.Core.Everywhere
import WideLog.Lib.Serde
import WideLog.Serialize.Text

/-!
# Serialization through serde

The `Serialize` implementations of events, values and log entries, as the calls
they make, and `to_json`, which hands them to the JSON serializer of the crate
`sonic_rs`.
-/

namespace WideLog

open Serde (Call)

variable {K : Type} [Key K]

/-- `Serialize for LogEntry`. -/
def LogEntry.serialize (K : Type) [Key K] (entry : LogEntry) : Call :=
  .map (some 2) [(Key.levelKey K, .str entry.level), (Key.messageKey K, .str entry.message.asStr)]

/-- The log entry of the map, when there are log entries. -/
def serializeLog (K : Type) [Key K] (logEntries : List LogEntry) : List (String × Call) :=
  if logEntries.isEmpty then []
  else [(Key.logKey K, .seq (some logEntries.length) (logEntries.map (LogEntry.serialize K)))]

mutual

/-- `Serialize for Value`. -/
def Value.serialize : Value K → Call
  | .null => .unit
  | .bool b => .bool b
  | .i64 n => .i64 n
  | .u64 n => .u64 n
  | .f64 x => .f64 x
  | .str s => .str s
  | .staticStr s => .str s
  | .array arr => .seq (some arr.length) (serializeElements arr)
  | .object obj => obj.serialize
termination_by structural v => v

def serializeElements : List (Value K) → List Call
  | [] => []
  | v :: vs => v.serialize :: serializeElements vs
termination_by structural vs => vs

/-- `Serialize for WideEvent`: the hint is the cached count, plus one for the log. -/
def WideEvent.serialize : WideEvent K → Call
  | ⟨values, logEntries, _, presentCount⟩ =>
      .map (some (presentCount + if logEntries.isEmpty then 0 else 1))
        (serializeSlots Key.keys values ++ serializeLog K logEntries)
termination_by structural ev => ev

/-- The entries of the present slots, in the order of the keys. -/
def serializeSlots : List K → List (Option (Value K)) → List (String × Call)
  | [], _ => []
  | _ :: _, [] => []
  | _ :: keys, none :: slots => serializeSlots keys slots
  | key :: keys, some val :: slots => (Key.asStr key, val.serialize) :: serializeSlots keys slots
termination_by structural _ slots => slots

end

/-- `to_json`, over the serializer of `sonic_rs`. -/
def toJson (sonic : Call → Except String String) (ev : WideEvent K) : Except Error String :=
  match sonic ev.serialize with
  | .ok s => .ok s
  | .error e => .error (.serialize e)

/-! ## The length hints -/

/-- No entries come from empty slots. -/
theorem serializeSlots_eq_nil {slots : List (Option (Value K))}
    (h : slots.countP Option.isSome = 0) (keys : List K) : serializeSlots keys slots = [] := by
  induction slots generalizing keys with
  | nil => cases keys <;> rfl
  | cons slot slots ih =>
      rw [List.countP_cons] at h
      cases slot with
      | none =>
          cases keys with
          | nil => rfl
          | cons key keys => exact ih (by omega) keys
      | some v => simp at h

theorem honestHints_logEntry (entry : LogEntry) : (entry.serialize K).HonestHints := by
  apply Call.HonestHints.map (by simp)
  intro e he
  rcases List.mem_pair.mp he with rfl | rfl <;> exact .str _

theorem honestHints_log (logEntries : List LogEntry) :
    ∀ e ∈ serializeLog K logEntries, e.2.HonestHints := by
  unfold serializeLog
  split_ifs with h
  · simp
  · intro e he
    rw [List.mem_singleton.mp he]
    apply Call.HonestHints.seq
    · simp_all
    · intro c hc
      obtain ⟨entry, -, rfl⟩ := List.mem_map.mp hc
      exact honestHints_logEntry entry

mutual

theorem honestHints_value (v : Value K) (h : v.Everywhere WideEvent.CountExact) :
    v.serialize.HonestHints :=
  match v with
  | .null => .unit
  | .bool b => .bool b
  | .i64 n => .i64 n
  | .u64 n => .u64 n
  | .f64 x => .f64 x
  | .str s => .str s
  | .staticStr s => .str s
  | .array arr => by
      cases h with
      | array h =>
          refine .seq (fun hlen ↦ ?_) (honestHints_elements arr h)
          rw [List.length_eq_zero_iff.mp (Option.some.inj hlen)]
          rfl
  | .object obj => honestHints_event obj h.of_object
termination_by structural v

theorem honestHints_elements (vs : List (Value K))
    (h : ∀ v ∈ vs, v.Everywhere WideEvent.CountExact) :
    ∀ c ∈ serializeElements vs, c.HonestHints :=
  match vs with
  | [] => by simp [serializeElements]
  | v :: vs => List.forall_mem_cons.mpr
      ⟨honestHints_value v (h v (by simp)),
        honestHints_elements vs fun w hw ↦ h w (List.mem_cons_of_mem _ hw)⟩
termination_by structural vs

/-- Where the cached counts are exact, the hints are honest. -/
theorem honestHints_event (ev : WideEvent K) (h : ev.Everywhere WideEvent.CountExact) :
    ev.serialize.HonestHints :=
  match ev with
  | ⟨values, logEntries, cb, presentCount⟩ => by
      refine .map (fun hlen ↦ ?_) (List.forall_mem_append.mpr
        ⟨honestHints_slots Key.keys values fun v hv ↦ h.values hv, honestHints_log logEntries⟩)
      have hcount : presentCount = values.countP Option.isSome := h.here
      have hzero := Option.some.inj hlen
      rw [serializeSlots_eq_nil (by omega), List.nil_append, serializeLog]
      split_ifs at hzero ⊢
      rfl
termination_by structural ev

theorem honestHints_slots (keys : List K) (slots : List (Option (Value K)))
    (h : ∀ v, some v ∈ slots → v.Everywhere WideEvent.CountExact) :
    ∀ e ∈ serializeSlots keys slots, e.2.HonestHints :=
  match keys, slots with
  | [], [] => by simp [serializeSlots]
  | [], _ :: _ => by simp [serializeSlots]
  | _ :: _, [] => by simp [serializeSlots]
  | _ :: keys, none :: slots =>
      honestHints_slots keys slots fun v hv ↦ h v (List.mem_cons_of_mem _ hv)
  | _ :: keys, some val :: slots => List.forall_mem_cons.mpr
      ⟨honestHints_value val (h val (by simp)),
        honestHints_slots keys slots fun v hv ↦ h v (List.mem_cons_of_mem _ hv)⟩
termination_by structural slots

end

end WideLog
