import WideLog.Lib.F64
import WideLog.Lib.Outcome
import WideLog.Core.Key

/-!
# Wide events

The data of `value.rs`, `log.rs` and `wide_event.rs`: an event is a vector of
optional values, indexed by key, next to its log entries.  Values nest: an array
holds values and an object holds a whole event, with log entries of its own.
-/

namespace WideLog

/-- A log message: a literal, or formatted text. -/
inductive LogMsg where
  | static (s : String)
  | owned (s : String)
deriving DecidableEq, Repr

/-- `LogMsg::as_str`. -/
def LogMsg.asStr : LogMsg → String
  | .static s => s
  | .owned s => s

/-- One accumulated log entry. -/
structure LogEntry where
  level : String
  message : LogMsg
deriving DecidableEq, Repr

/-- A type-conflict callback is a bare function pointer, so an event stores its
address.  What a call through it does is part of the `Env` a call runs in. -/
structure ConflictFn (K : Type) where
  addr : ℕ
deriving DecidableEq, Repr

mutual

/-- A JSON value stored in a wide event. -/
inductive Value (K : Type) where
  | null
  | bool (b : Bool)
  | i64 (n : Int64)
  | u64 (n : UInt64)
  | f64 (x : F64)
  | str (s : String)
  | staticStr (s : String)
  | array (arr : List (Value K))
  | object (obj : WideEvent K)

/-- A wide event. -/
structure WideEvent (K : Type) where
  /-- Indexed slots: `values[key.as_index()]` is the value of that key. -/
  values : List (Option (Value K))
  /-- Entries appended by the level macros. -/
  logEntries : List LogEntry
  /-- Fired when a key's value type conflicts. -/
  onTypeConflict : Option (ConflictFn K)
  /-- Cached count of the present slots. -/
  presentCount : ℕ

end

variable {K : Type}

/-- `Value::is_object`. -/
def Value.isObject : Value K → Bool
  | .object _ => true
  | _ => false

namespace WideEvent

/-- `WideEvent::new`: an empty event with no conflict callback. -/
def new : WideEvent K := ⟨[], [], none, 0⟩

/-- `WideEvent::new_child`: an empty event under the same callback. -/
def newChild (ev : WideEvent K) : WideEvent K := ⟨[], [], ev.onTypeConflict, 0⟩

/-- The content of slot `i`; a slot past the end of the vector is absent. -/
def slot (ev : WideEvent K) (i : ℕ) : Option (Value K) := ev.values[i]?.join

/-- The number of present slots, recounted. -/
def countSome (ev : WideEvent K) : ℕ := ev.values.countP Option.isSome

@[ext] theorem ext {a b : WideEvent K} (hv : a.values = b.values)
    (hl : a.logEntries = b.logEntries) (hc : a.onTypeConflict = b.onTypeConflict)
    (hp : a.presentCount = b.presentCount) : a = b := by
  cases a; cases b; simp_all

end WideEvent

end WideLog
