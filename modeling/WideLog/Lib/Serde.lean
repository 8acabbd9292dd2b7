import WideLog.Lib.F64
import WideLog.Lib.Format

/-!
# Serde calls

What a `Serialize` implementation does to a serializer, as a tree of calls: the
methods of the data model that events use.  A compact JSON printer follows the
calls in order; the lengths announced for sequences and maps are hints to it.
-/

namespace Serde

/-- The calls to a serializer.  An entry of a map has a string for its key. -/
inductive Call where
  | unit
  | bool (b : Bool)
  | i64 (n : Int64)
  | u64 (n : UInt64)
  | f64 (x : F64)
  | str (s : String)
  | seq (len : Option ℕ) (elems : List Call)
  | map (len : Option ℕ) (entries : List (String × Call))

/-- No hint announces an empty sequence or map where entries follow. -/
inductive Call.HonestHints : Call → Prop
  | unit : Call.HonestHints .unit
  | bool (b : Bool) : Call.HonestHints (.bool b)
  | i64 (n : Int64) : Call.HonestHints (.i64 n)
  | u64 (n : UInt64) : Call.HonestHints (.u64 n)
  | f64 (x : F64) : Call.HonestHints (.f64 x)
  | str (s : String) : Call.HonestHints (.str s)
  | seq {len : Option ℕ} {elems : List Call} (hlen : len = some 0 → elems = [])
      (h : ∀ e ∈ elems, Call.HonestHints e) : Call.HonestHints (.seq len elems)
  | map {len : Option ℕ} {entries : List (String × Call)} (hlen : len = some 0 → entries = [])
      (h : ∀ e ∈ entries, Call.HonestHints e.2) : Call.HonestHints (.map len entries)

/-- A character inside a string: only the quote, the backslash and the control
characters are escaped. -/
def escapeChar (c : Char) : List Char :=
  if c = '"' then ['\\', '"']
  else if c = '\\' then ['\\', '\\']
  else if c = '\x08' then ['\\', 'b']
  else if c = '\x0c' then ['\\', 'f']
  else if c = '\n' then ['\\', 'n']
  else if c = '\r' then ['\\', 'r']
  else if c = '\t' then ['\\', 't']
  else if c.toNat < 0x20 then unicodeEscape c.toNat
  else [c]

/-- A quoted string. -/
def quote (s : String) : List Char := '"' :: (s.toList.flatMap escapeChar ++ ['"'])

section

variable (float : F64 → String)

mutual

/-- Compact output, with a given printer for finite floats. -/
def Call.compact : Call → List Char
  | .unit => "null".toList
  | .bool b => if b then "true".toList else "false".toList
  | .i64 n => itoa n.toInt
  | .u64 n => itoa n.toNat
  | .f64 x => if x.isFinite then (float x).toList else "null".toList
  | .str s => quote s
  | .seq _ elems => arrayText (compactElems elems)
  | .map _ entries => objectText (compactEntries entries)
termination_by structural c => c

def compactElems : List Call → List (List Char)
  | [] => []
  | e :: es => e.compact :: compactElems es
termination_by structural es => es

def compactEntries : List (String × Call) → List (List Char)
  | [] => []
  | (k, e) :: es => (quote k ++ ':' :: e.compact) :: compactEntries es
termination_by structural es => es

end

theorem compactEntries_append (es fs : List (String × Call)) :
    compactEntries float (es ++ fs) = compactEntries float es ++ compactEntries float fs := by
  induction es with
  | nil => rfl
  | cons e es ih => simp only [List.cons_append, compactEntries, ih]

end

end Serde
