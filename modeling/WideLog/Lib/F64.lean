import Mathlib.Algebra.Ring.Int.Defs
import Mathlib.Algebra.Ring.Nat
import Mathlib.Data.Nat.Log

/-!
# Binary64 floats by their bit patterns

A float is its 64 bits.  What a development about printing and parsing needs of
them is small: which patterns are finite, and which pattern a decimal numeral
rounds to (round to nearest, ties to even, overflow to infinity), the conversion
that correctly rounding readers of decimal numerals perform.
-/

/-- An IEEE 754 binary64 datum. -/
structure F64 where
  bits : UInt64
deriving DecidableEq, Repr

namespace F64

/-- The biased exponent field. -/
def biasedExp (x : F64) : ℕ := x.bits.toNat / 2 ^ 52 % 2 ^ 11

/-- Neither an infinity nor a NaN: the exponent field is not all ones. -/
def isFinite (x : F64) : Bool := x.biasedExp != 2 ^ 11 - 1

/-- A pattern from its sign and its remaining 63 bits. -/
def ofFields (neg : Bool) (magnitude : ℕ) : F64 :=
  ⟨UInt64.ofNat ((if neg then 2 ^ 63 else 0) + magnitude)⟩

/-- The positive or negative infinity. -/
def infinity (neg : Bool) : F64 := ofFields neg ((2 ^ 11 - 1) * 2 ^ 52)

/-- `num / den` rounded to an integer, ties to even. -/
def roundHalfEven (num den : ℕ) : ℕ :=
  let q := num / den
  let r := num % den
  if 2 * r < den then q else if den < 2 * r then q + 1 else q + q % 2

/-- The exponent of the leading bit of `num / den`. -/
def leadExp (num den : ℕ) : ℤ :=
  let guess : ℤ := (Nat.log 2 num : ℤ) - Nat.log 2 den
  let below : Bool :=
    if 0 ≤ guess then num < den * 2 ^ guess.toNat else num * 2 ^ (-guess).toNat < den
  if below then guess - 1 else guess

/-- `num / den` in units of `2 ^ e`, rounded. -/
def inUnits (num den : ℕ) (e : ℤ) : ℕ :=
  if 0 ≤ e then roundHalfEven num (den * 2 ^ e.toNat)
  else roundHalfEven (num * 2 ^ (-e).toNat) den

/-- The pattern of `± m * 2 ^ e`, for a significand of at most 53 bits. -/
def pack (neg : Bool) (m : ℕ) (e : ℤ) : F64 :=
  if 971 < e then infinity neg
  else if m < 2 ^ 52 then ofFields neg m
  else ofFields neg ((e + 1075).toNat * 2 ^ 52 + (m - 2 ^ 52))

/-- The float nearest to `num / den`, with ties to even.  The unit in the last
place is `2 ^ e`, chosen so that the significand has 53 bits, or as small as
subnormals allow. -/
def ofRatio (neg : Bool) (num den : ℕ) : F64 :=
  if num = 0 then ofFields neg 0
  else
    let e := max (leadExp num den - 52) (-1074)
    let m := inUnits num den e
    -- rounding up can carry into a 54th bit
    if m = 2 ^ 53 then pack neg (2 ^ 52) (e + 1) else pack neg m e

end F64

/-- A decimal numeral `± coeff * 10 ^ exp`, kept exactly. -/
structure Decimal where
  neg : Bool
  coeff : ℕ
  exp : ℤ
deriving DecidableEq, Repr

/-- The float a decimal numeral rounds to. -/
def F64.ofDecimal (d : Decimal) : F64 :=
  if 0 ≤ d.exp then .ofRatio d.neg (d.coeff * 10 ^ d.exp.toNat) 1
  else .ofRatio d.neg d.coeff (10 ^ (-d.exp).toNat)
