import WideLog.Core.Event
import WideLog.Lib.Format
import WideLog.Lib.Utf8

/-!
# The direct serializer

`serialize_to` and the writers under it, which bypass serde: each writes to an
arbitrary `io::Write` and stops at the first error.  A writer is a state with a
fallible `write_all`; the two number printers are those of the crates `itoa`
(decimal) and `ryu`, of which the second is a parameter.
-/

namespace WideLog

/-- `io::Error`. -/
structure IoError where
  message : String
deriving DecidableEq, Repr

/-- The crate's `Error`. -/
inductive Error where
  | serialize (message : String)
deriving DecidableEq, Repr

/-- `io::Write` on a state `W`. -/
structure Writer (W : Type) where
  writeAll : List UInt8 → W → Except IoError W

/-- The bytes of a literal. -/
def bytes (s : String) : List UInt8 := utf8 s.toList

section Writers

variable {W : Type} (wr : Writer W) (ryu : F64 → String)

/-- The body of the loop of `write_json_str`. -/
def writeJsonChar (c : Char) (w : W) : Except IoError W :=
  if c = '"' then wr.writeAll (bytes "\\\"") w
  else if c = '\\' then wr.writeAll (bytes "\\\\") w
  else if c = '\n' then wr.writeAll (bytes "\\n") w
  else if c = '\t' then wr.writeAll (bytes "\\t") w
  else if c = '\r' then wr.writeAll (bytes "\\r") w
  else if c = '\x08' then wr.writeAll (bytes "\\b") w
  else if c = '\x0c' then wr.writeAll (bytes "\\f") w
  else if c = '\u2028' then wr.writeAll (bytes "\\u2028") w
  else if c = '\u2029' then wr.writeAll (bytes "\\u2029") w
  else if c.toNat < 0x20 then wr.writeAll (utf8 (unicodeEscape c.toNat)) w
  else wr.writeAll (String.utf8EncodeChar c) w

/-- `write_json_str`. -/
def writeJsonStr (s : String) (w : W) : Except IoError W := do
  let w ← wr.writeAll (bytes "\"") w
  let w ← s.toList.foldlM (fun w c => writeJsonChar wr c w) w
  wr.writeAll (bytes "\"") w

/-- `if !first { w.write_all(b",")?; }`, and the like with an index. -/
def writeComma (first : Bool) (w : W) : Except IoError W :=
  if first then pure w else wr.writeAll (bytes ",") w

variable {K : Type} [Key K]

/-- One turn of the loop over the log entries. -/
def writeLogEntry (K : Type) [Key K] (entry : LogEntry) (w : W) : Except IoError W := do
  let w ← wr.writeAll (bytes "\x7b") w
  let w ← writeJsonStr wr (Key.levelKey K) w
  let w ← wr.writeAll (bytes ":") w
  let w ← writeJsonStr wr entry.level w
  let w ← wr.writeAll (bytes ",") w
  let w ← writeJsonStr wr (Key.messageKey K) w
  let w ← wr.writeAll (bytes ":") w
  let w ← writeJsonStr wr entry.message.asStr w
  wr.writeAll (bytes "\x7d") w

/-- The loop over the log entries, from an index on. -/
def writeLogEntries (K : Type) [Key K] (first : Bool) :
    List LogEntry → W → Except IoError W
  | [], w => pure w
  | entry :: entries, w => do
    let w ← writeComma wr first w
    let w ← writeLogEntry wr K entry w
    writeLogEntries K false entries w

/-- The log member of an event, when there are entries. -/
def writeLog (K : Type) [Key K] (logEntries : List LogEntry) (first : Bool) (w : W) :
    Except IoError W :=
  if logEntries.isEmpty then pure w
  else do
    let w ← writeComma wr first w
    let w ← writeJsonStr wr (Key.logKey K) w
    let w ← wr.writeAll (bytes ":") w
    let w ← wr.writeAll (bytes "[") w
    let w ← writeLogEntries wr K true logEntries w
    wr.writeAll (bytes "]") w

mutual

/-- `write_value`. -/
def writeValue : Value K → W → Except IoError W
  | .null, w => wr.writeAll (bytes "null") w
  | .bool b, w => if b then wr.writeAll (bytes "true") w else wr.writeAll (bytes "false") w
  | .i64 n, w => wr.writeAll (utf8 (itoa n.toInt)) w
  | .u64 n, w => wr.writeAll (utf8 (itoa n.toNat)) w
  | .f64 x, w =>
    if !x.isFinite then wr.writeAll (bytes "null") w else wr.writeAll (bytes (ryu x)) w
  | .str s, w => writeJsonStr wr s w
  | .staticStr s, w => writeJsonStr wr s w
  | .array arr, w => do
    let w ← wr.writeAll (bytes "[") w
    let w ← writeArray arr true w
    wr.writeAll (bytes "]") w
  | .object obj, w => writeEvent obj w
termination_by structural v => v

/-- The loop of `write_value` over an array. -/
def writeArray : List (Value K) → Bool → W → Except IoError W
  | [], _, w => pure w
  | v :: vs, first, w => do
    let w ← writeComma wr first w
    let w ← writeValue v w
    writeArray vs false w
termination_by structural vs => vs

/-- `write_event`. -/
def writeEvent : WideEvent K → W → Except IoError W
  | ⟨values, logEntries, _, _⟩, w => do
    let w ← wr.writeAll (bytes "\x7b") w
    let (first, w) ← writeSlots Key.keys values true w
    let w ← writeLog wr K logEntries first w
    wr.writeAll (bytes "\x7d") w
termination_by structural ev => ev

/-- The loop of `write_event` over the keys: key `i` looks at slot `i`, and a key
past the end of the slots has none. -/
def writeSlots : List K → List (Option (Value K)) → Bool → W → Except IoError (Bool × W)
  | [], _, first, w => pure (first, w)
  | _ :: _, [], first, w => pure (first, w)
  | _ :: keys, none :: slots, first, w => writeSlots keys slots first w
  | key :: keys, some val :: slots, first, w => do
    let w ← writeComma wr first w
    let w ← writeJsonStr wr (Key.asStr key) w
    let w ← wr.writeAll (bytes ":") w
    let w ← writeValue val w
    writeSlots keys slots false w
termination_by structural _ slots => slots

end

/-- `serialize_to`. -/
def serializeTo (ev : WideEvent K) (w : W) : Except Error W :=
  match writeEvent wr ryu ev w with
  | .ok w => .ok w
  | .error e => .error (.serialize e.message)

end Writers

/-- `Vec<u8>` as a writer: it appends, and never fails. -/
def vecWriter : Writer (List UInt8) where
  writeAll bs w := .ok (w ++ bs)

end WideLog
