import WideLog.Macros.Schema
import Mathlib.Data.List.DropRight

/-!
# Literals

`unescape_json_string` and `parse_literal_str` of `parse.rs`, on the characters of
a literal's text, with the number parsers of the standard library they call.
-/

namespace WideLog.Macros

/-! ## Strings -/

/-- The value of a hexadecimal digit of either case. -/
def hexDigitVal (c : Char) : Option ℕ :=
  if c.isDigit then some (c.toNat - '0'.toNat)
  else if 'a'.toNat ≤ c.toNat ∧ c.toNat ≤ 'f'.toNat then some (c.toNat - 'a'.toNat + 10)
  else if 'A'.toNat ≤ c.toNat ∧ c.toNat ≤ 'F'.toNat then some (c.toNat - 'A'.toNat + 10)
  else none

/-- `u32::from_str_radix(_, 16)` on at most eight characters: a sign is allowed. -/
def fromStrRadix16 (cs : List Char) : Option ℕ :=
  let digits := if cs.head? = some '+' then cs.tail else cs
  if digits.isEmpty then none
  else digits.foldl (fun acc c ↦ do return 16 * (← acc) + (← hexDigitVal c)) (some 0)

/-- `char::from_u32(_).unwrap_or('\u{FFFD}')`. -/
def charOr (code : ℕ) : Char :=
  if h : code.isValidChar then Char.ofNatAux code h else '\uFFFD'

/-- The character of a one-letter escape. -/
def shortEscape (esc : Char) : Option Char :=
  if esc = '"' then some '"'
  else if esc = '\\' then some '\\'
  else if esc = 'n' then some '\n'
  else if esc = 't' then some '\t'
  else if esc = 'r' then some '\r'
  else if esc = '/' then some '/'
  else if esc = 'b' then some '\x08'
  else if esc = 'f' then some '\x0c'
  else none

/-- A `\u` escape: four characters, zeros for those that are missing. -/
def unicodeChar (hex : List Char) : Except String Char :=
  match fromStrRadix16 hex with
  | some code => .ok (charOr code)
  | none => .error ("invalid unicode escape: \\u" ++ .ofList hex)

/-- The loop of `unescape_json_string` over the characters between the quotes. -/
def unescapeChars : List Char → Except String (List Char)
  | [] => .ok []
  | c :: cs =>
    if c ≠ '\\' then do return c :: (← unescapeChars cs)
    else match cs with
      | [] => .error "unterminated escape in string literal"
      | esc :: cs =>
        match shortEscape esc with
        | some c => do return c :: (← unescapeChars cs)
        | none =>
          if esc = 'u' then match cs with
            | h₁ :: h₂ :: h₃ :: h₄ :: cs => do
              let c ← unicodeChar [h₁, h₂, h₃, h₄]
              return c :: (← unescapeChars cs)
            | hs => do return [← unicodeChar (hs.rightpad 4 '0')]
          else .error ("invalid escape sequence: \\" ++ .ofList [esc])

/-- `unescape_json_string`. -/
def unescapeJsonString (raw : String) : Except String String :=
  let chars := raw.toList
  if chars.length < 2 ∨ chars.head? ≠ some '"' ∨ chars.getLast? ≠ some '"' then
    .error ("invalid string literal: " ++ raw)
  else do return .ofList (← unescapeChars chars.tail.dropLast)

/-! ## Numbers -/

/-- Digits without separators, at least one. -/
def parseDigits (cs : List Char) : Option ℕ :=
  if ¬ cs.isEmpty ∧ cs.all Char.isDigit then some (Nat.ofDigitChars 10 cs 0) else none

/-- `str::parse::<u64>`. -/
def parseU64 (cs : List Char) : Option UInt64 := do
  let n ← parseDigits (if cs.head? = some '+' then cs.tail else cs)
  if n < 2 ^ 64 then some (.ofNat n) else none

/-- `str::parse::<i64>`. -/
def parseI64 (cs : List Char) : Option Int64 :=
  if cs.head? = some '-' then do
    let n ← parseDigits cs.tail
    if n ≤ 2 ^ 63 then some (.ofInt (-n)) else none
  else do
    let n ← parseDigits (if cs.head? = some '+' then cs.tail else cs)
    if n < 2 ^ 63 then some (.ofInt n) else none

/-- The digits at the front, and the rest. -/
def spanDigits (cs : List Char) : List Char × List Char := cs.span Char.isDigit

/-- A decimal exponent, with its sign. -/
def parseExponent (cs : List Char) : Option ℤ :=
  if cs.head? = some '-' then (parseDigits cs.tail).map fun n ↦ -(n : ℤ)
  else (parseDigits (if cs.head? = some '+' then cs.tail else cs)).map fun n ↦ (n : ℤ)

/-- A decimal float without its sign: digits on at least one side of the point. -/
def parseDecimal (neg : Bool) (cs : List Char) : Option Decimal := do
  let (int, cs) := spanDigits cs
  let (frac, cs) := if cs.head? = some '.' then spanDigits cs.tail else ([], cs)
  if int.isEmpty ∧ frac.isEmpty then none
  else
    let exp ← match cs with
      | [] => some 0
      | e :: cs => if e = 'e' ∨ e = 'E' then parseExponent cs else none
    return ⟨neg, Nat.ofDigitChars 10 (int ++ frac) 0, exp - frac.length⟩

/-- `str::parse::<f64>`: a decimal float, or a spelled out infinity or NaN. -/
def parseF64 (cs : List Char) : Option F64 :=
  let neg : Bool := cs.head? = some '-'
  let cs := if neg ∨ cs.head? = some '+' then cs.tail else cs
  let lower := cs.map Char.toLower
  if lower = "inf".toList ∨ lower = "infinity".toList then some (.infinity neg)
  else if lower = "nan".toList then some (.ofFields neg ((2 ^ 11 - 1) * 2 ^ 52 + 2 ^ 51))
  else (parseDecimal neg cs).map .ofDecimal

/-- `s.strip_suffix(suffix)`, followed by the parse of what is left. -/
def parseSuffixed {α : Type} (suffix : String) (parse : List Char → Option α)
    (cs : List Char) : Option α :=
  if suffix.toList <:+ cs then parse (cs.rdrop suffix.toList.length) else none

/-- The number parsers `parse_literal_str` tries, in its order. -/
def parseNumber (cs : List Char) : Option Number :=
  ((parseSuffixed "i64" parseI64 cs).map .int).or <|
  ((parseSuffixed "u64" parseU64 cs).map .uint).or <|
  ((parseSuffixed "f64" parseF64 cs).map .float).or <|
  ((parseU64 cs).map .uint).or <| ((parseI64 cs).map .int).or ((parseF64 cs).map .float)

/-- `parse_literal_str`. -/
def parseLiteralStr (s : String) : Except String JsonNode :=
  if s.toList.head? = some '"' then do return .str (← unescapeJsonString s)
  else match parseNumber s.toList with
    | some n => .ok (.number n)
    | none => .error ("cannot parse literal as a JSON value: " ++ s)

example : (unescapeJsonString "\"a\\u0041\\n\"").toOption = some "aA\n" := by decide +kernel

example : parseNumber "-3".toList = some (.int (-3)) := by decide +kernel

end WideLog.Macros
