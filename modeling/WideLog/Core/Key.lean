import Mathlib.Data.List.Basic

/-!
# Keys

The `Key` trait: one JSON key of a schema per value, indexing the slots of an
event.  The schema macro implements it; the event code is generic in it.
-/

namespace WideLog

/-- The `Key` trait.  `keys_asIndex` is the contract stated on `KEYS`: all keys
in enum order, indexed by `as_index`. -/
class Key (K : Type) where
  /-- The JSON name of a key. -/
  asStr : K → String
  /-- All keys in enum order. -/
  keys : List K
  /-- The slot a key occupies. -/
  asIndex : K → ℕ
  durationPath : List K
  timestampPath : List K
  idPath : List K
  /-- JSON key of the log array. -/
  logKey : String
  /-- JSON key of the level inside a log entry. -/
  levelKey : String
  /-- JSON key of the message inside a log entry. -/
  messageKey : String
  keys_asIndex : ∀ k, keys[asIndex k]? = some k

namespace Key

variable {K : Type} [Key K]

/-- Different keys occupy different slots. -/
theorem asIndex_inj {j k : K} (h : asIndex j = asIndex k) : j = k := by
  have hj := keys_asIndex j
  rw [h, keys_asIndex] at hj
  exact (Option.some.inj hj).symm

end Key

/-- The key enum of the crate's own tests. -/
inductive TestKey where
  | duration
  | totalMs
  | event
  | timestamp
  | id
  | service
  | name
  | version
  | requests
  | status
  | details
  | tag
  | count
  | flag
deriving DecidableEq, Repr

/-- `as_str` of the test keys. -/
def TestKey.asStr : TestKey → String
  | duration => "duration"
  | totalMs => "total_ms"
  | event => "event"
  | timestamp => "timestamp"
  | id => "id"
  | service => "service"
  | name => "name"
  | version => "version"
  | requests => "requests"
  | status => "status"
  | details => "details"
  | tag => "tag"
  | count => "count"
  | flag => "flag"

instance : Key TestKey where
  asStr := TestKey.asStr
  keys := [.duration, .totalMs, .event, .timestamp, .id, .service, .name, .version, .requests,
    .status, .details, .tag, .count, .flag]
  asIndex := TestKey.ctorIdx
  durationPath := [.duration, .totalMs]
  timestampPath := [.event, .timestamp]
  idPath := [.event, .id]
  logKey := "log"
  levelKey := "level"
  messageKey := "message"
  keys_asIndex k := by cases k <;> rfl

end WideLog
