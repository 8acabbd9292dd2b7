import Mathlib.Data.Nat.Notation

/-!
# Text formats

Decimal integers, `\\u` escapes, and lists of texts with commas between them: the
pieces that JSON printers share.
-/

/-- A lower-case hexadecimal digit. -/
def hexDigit (n : ℕ) : Char := Nat.digitChar (n % 16)

/-- `format!("\\u{:04x}", n)`, for a code point below `0x10000`. -/
def unicodeEscape (n : ℕ) : List Char :=
  ['\\', 'u', hexDigit (n / 4096), hexDigit (n / 256), hexDigit (n / 16), hexDigit n]

/-- The canonical decimal of an integer, as the crate `itoa` prints it. -/
def itoa (n : Int) : List Char :=
  if n < 0 then '-' :: Nat.toDigits 10 n.natAbs else Nat.toDigits 10 n.natAbs

/-- Texts with commas before all of them, or before all but the first. -/
def commaSep (first : Bool) : List (List Char) → List Char
  | [] => []
  | t :: ts => (if first then [] else [',']) ++ (t ++ commaSep false ts)

/-- An array of texts. -/
def arrayText (ts : List (List Char)) : List Char := '[' :: (commaSep true ts ++ [']'])

/-- An object of member texts. -/
def objectText (ts : List (List Char)) : List Char := '\x7b' :: (commaSep true ts ++ ['\x7d'])

theorem commaSep_append (first : Bool) (ts us : List (List Char)) :
    commaSep first (ts ++ us) = commaSep first ts ++ commaSep (first && ts.isEmpty) us := by
  induction ts generalizing first with
  | nil => simp [commaSep]
  | cons t ts ih => simp [commaSep, ih]
