import WideLog.Lib.F64

/-!
# The grammar of JSON texts

The syntax of RFC 8259 as a judgement on lists of characters, with the value each
phrase denotes.  Numbers denote what common readers make of them: an integer when
the token has neither fraction nor exponent, else the nearest binary64 float.
An object denotes its members in order, repeated names included.
-/

/-- A JSON value. -/
inductive Json where
  | null
  | bool (b : Bool)
  | int (n : ℤ)
  | real (x : F64)
  | str (s : String)
  | arr (elems : List Json)
  | obj (members : List (String × Json))

namespace Rfc8259

/-! ## Tokens -/

/-- A character of insignificant whitespace. -/
def isWs (c : Char) : Bool := c = ' ' || c = '\t' || c = '\n' || c = '\r'

/-- Insignificant whitespace. -/
def Ws (cs : List Char) : Prop := ∀ c ∈ cs, isWs c

/-- A non-empty run of digits. -/
def Digits (ds : List Char) : Prop := ds ≠ [] ∧ ∀ c ∈ ds, c.isDigit

/-- The number a run of digits denotes. -/
def natOf (ds : List Char) : ℕ := Nat.ofDigitChars 10 ds 0

/-- An optional minus sign. -/
inductive Minus : List Char → Bool → Prop
  | absent : Minus [] false
  | present : Minus ['-'] true

/-- An integer part: digits, where a leading zero stands alone. -/
def IntPart (ds : List Char) : Prop := Digits ds ∧ (ds.head? = some '0' → ds = ['0'])

/-- An optional fraction, with its digits. -/
inductive Frac : List Char → List Char → Prop
  | absent : Frac [] []
  | present {ds : List Char} (hds : Digits ds) : Frac ('.' :: ds) ds

/-- The optional sign of an exponent. -/
inductive ExpSign : List Char → Bool → Prop
  | absent : ExpSign [] false
  | plus : ExpSign ['+'] false
  | minus : ExpSign ['-'] true

/-- An integer from its sign and its digits. -/
def intOf (neg : Bool) (ds : List Char) : ℤ := if neg then -(natOf ds : ℤ) else natOf ds

/-- An optional exponent. -/
inductive Exponent : List Char → Option ℤ → Prop
  | absent : Exponent [] none
  | present {e : Char} {sign ds : List Char} {neg : Bool} (he : e = 'e' ∨ e = 'E')
      (hsign : ExpSign sign neg) (hds : Digits ds) :
      Exponent (e :: (sign ++ ds)) (some (intOf neg ds))

/-- The value of a number, from its parts. -/
def numberValue (neg : Bool) (ds fs : List Char) (e : Option ℤ) : Json :=
  if fs = [] ∧ e = none then .int (intOf neg ds)
  else .real (.ofDecimal ⟨neg, natOf (ds ++ fs), e.getD 0 - fs.length⟩)

/-- A number token and its value. -/
inductive Number : List Char → Json → Prop
  | mk {m ds f fs e : List Char} {neg : Bool} {x : Option ℤ} (hm : Minus m neg)
      (hds : IntPart ds) (hf : Frac f fs) (he : Exponent e x) :
      Number (m ++ (ds ++ (f ++ e))) (numberValue neg ds fs x)

/-- The value of a hexadecimal digit. -/
def hexVal (c : Char) : Option ℕ :=
  if '0' ≤ c ∧ c ≤ '9' then some (c.toNat - '0'.toNat)
  else if 'a' ≤ c ∧ c ≤ 'f' then some (c.toNat - 'a'.toNat + 10)
  else if 'A' ≤ c ∧ c ≤ 'F' then some (c.toNat - 'A'.toNat + 10)
  else none

/-- The code unit that four hexadecimal digits denote. -/
def hex4 (a b c d : Char) : Option ℕ := do
  let a ← hexVal a
  let b ← hexVal b
  let c ← hexVal c
  let d ← hexVal d
  return ((a * 16 + b) * 16 + c) * 16 + d

/-- The two-character escapes. -/
def shortEscape (c : Char) : Option Char :=
  if c = '"' then some '"'
  else if c = '\\' then some '\\'
  else if c = '/' then some '/'
  else if c = 'b' then some '\x08'
  else if c = 'f' then some '\x0c'
  else if c = 'n' then some '\n'
  else if c = 'r' then some '\r'
  else if c = 't' then some '\t'
  else none

/-- A character that stands for itself in a string. -/
def Unescaped (c : Char) : Prop := c ≠ '"' ∧ c ≠ '\\' ∧ 0x20 ≤ c.toNat

instance (c : Char) : Decidable (Unescaped c) := inferInstanceAs (Decidable (_ ∧ _ ∧ _))

/-- The code points of the two halves of a surrogate pair. -/
def IsHigh (n : ℕ) : Prop := 0xD800 ≤ n ∧ n < 0xDC00

/-- The second half of a surrogate pair. -/
def IsLow (n : ℕ) : Prop := 0xDC00 ≤ n ∧ n < 0xE000

instance (n : ℕ) : Decidable (IsHigh n) := inferInstanceAs (Decidable (_ ∧ _))

instance (n : ℕ) : Decidable (IsLow n) := inferInstanceAs (Decidable (_ ∧ _))

/-- The character of a surrogate pair. -/
def pairChar (hi lo : ℕ) : Char := Char.ofNat (0x10000 + (hi - 0xD800) * 0x400 + (lo - 0xDC00))

/-- The inside of a string and the text it denotes.  An escaped surrogate that is
not part of a pair denotes no text. -/
inductive Chars : List Char → List Char → Prop
  | nil : Chars [] []
  | raw {c : Char} {cs ds : List Char} (hc : Unescaped c) (h : Chars cs ds) :
      Chars (c :: cs) (c :: ds)
  | short {e c : Char} {cs ds : List Char} (he : shortEscape e = some c) (h : Chars cs ds) :
      Chars ('\\' :: e :: cs) (c :: ds)
  | unit {x₃ x₂ x₁ x₀ : Char} {n : ℕ} {cs ds : List Char} (hx : hex4 x₃ x₂ x₁ x₀ = some n)
      (hhi : ¬ IsHigh n) (hlo : ¬ IsLow n) (h : Chars cs ds) :
      Chars ('\\' :: 'u' :: x₃ :: x₂ :: x₁ :: x₀ :: cs) (Char.ofNat n :: ds)
  | pair {x₃ x₂ x₁ x₀ y₃ y₂ y₁ y₀ : Char} {hi lo : ℕ} {cs ds : List Char}
      (hx : hex4 x₃ x₂ x₁ x₀ = some hi) (hhi : IsHigh hi)
      (hy : hex4 y₃ y₂ y₁ y₀ = some lo) (hlo : IsLow lo) (h : Chars cs ds) :
      Chars ('\\' :: 'u' :: x₃ :: x₂ :: x₁ :: x₀ :: '\\' :: 'u' :: y₃ :: y₂ :: y₁ :: y₀ :: cs)
        (pairChar hi lo :: ds)

/-- A string token and the text it denotes. -/
inductive Str : List Char → String → Prop
  | mk {cs ds : List Char} (h : Chars cs ds) : Str ('"' :: (cs ++ ['"'])) (String.ofList ds)

/-! ## Values -/

/-- What a phrase of the recursive part of the grammar denotes: a value, the
elements of an array or the members of an object. -/
inductive Phrase where
  | value (j : Json)
  | elements (js : List Json)
  | members (ms : List (String × Json))

/-- The phrases: a value has no whitespace around it, the elements of a
non-empty array and the members of a non-empty object may. -/
inductive Derives : Phrase → List Char → Prop
  | null : Derives (.value .null) ['n', 'u', 'l', 'l']
  | true : Derives (.value (.bool .true)) ['t', 'r', 'u', 'e']
  | false : Derives (.value (.bool .false)) ['f', 'a', 'l', 's', 'e']
  | number {cs : List Char} {j : Json} (h : Number cs j) : Derives (.value j) cs
  | string {cs : List Char} {s : String} (h : Str cs s) : Derives (.value (.str s)) cs
  | emptyArr {w : List Char} (hw : Ws w) : Derives (.value (.arr [])) ('[' :: (w ++ [']']))
  | arr {cs : List Char} {js : List Json} (h : Derives (.elements js) cs) :
      Derives (.value (.arr js)) ('[' :: (cs ++ [']']))
  | emptyObj {w : List Char} (hw : Ws w) : Derives (.value (.obj [])) ('\x7b' :: (w ++ ['\x7d']))
  | obj {cs : List Char} {ms : List (String × Json)} (h : Derives (.members ms) cs) :
      Derives (.value (.obj ms)) ('\x7b' :: (cs ++ ['\x7d']))
  | element {u cs v : List Char} {j : Json} (hu : Ws u) (h : Derives (.value j) cs)
      (hv : Ws v) : Derives (.elements [j]) (u ++ (cs ++ v))
  | elements {u cs v ds : List Char} {j : Json} {js : List Json} (hu : Ws u)
      (h : Derives (.value j) cs) (hv : Ws v) (hs : Derives (.elements js) ds) :
      Derives (.elements (j :: js)) (u ++ (cs ++ (v ++ ',' :: ds)))
  | member {u ks v w cs x : List Char} {k : String} {j : Json} (hu : Ws u) (hk : Str ks k)
      (hv : Ws v) (hw : Ws w) (h : Derives (.value j) cs) (hx : Ws x) :
      Derives (.members [(k, j)]) (u ++ (ks ++ (v ++ ':' :: (w ++ (cs ++ x)))))
  | members {u ks v w cs x ds : List Char} {k : String} {j : Json} {ms : List (String × Json)}
      (hu : Ws u) (hk : Str ks k) (hv : Ws v) (hw : Ws w) (h : Derives (.value j) cs)
      (hx : Ws x) (hs : Derives (.members ms) ds) :
      Derives (.members ((k, j) :: ms))
        (u ++ (ks ++ (v ++ ':' :: (w ++ (cs ++ (x ++ ',' :: ds))))))

/-- A JSON text: one value, with whitespace around it. -/
inductive Text : List Char → Json → Prop
  | mk {u cs v : List Char} {j : Json} (hu : Ws u) (h : Derives (.value j) cs) (hv : Ws v) :
      Text (u ++ (cs ++ v)) j

end Rfc8259
