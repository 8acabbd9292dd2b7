import Mathlib.Algebra.Order.Field.Power
import Mathlib.Data.Rat.Cast.Order
import Mathlib.Tactic.GCongr
import Mathlib.Tactic.NormNum
import Mathlib.Tactic.Positivity
import Mathlib.Tactic.Ring
import WideLog.Lib.F64

/-!
# Exact decimals of finite floats

A finite float is `± m * 2 ^ e`, and so exactly a decimal numeral.  Reading this
numeral gives the float back: nothing is rounded.
-/

namespace F64

/-- The sign bit. -/
def neg (x : F64) : Bool := decide (2 ^ 63 ≤ x.bits.toNat)

/-- The fraction field. -/
def fraction (x : F64) : ℕ := x.bits.toNat % 2 ^ 52

/-- The integer significand `m`: subnormals lack the leading one. -/
def significand (x : F64) : ℕ := if x.biasedExp = 0 then x.fraction else 2 ^ 52 + x.fraction

/-- The exponent `e` of the unit in the last place. -/
def ulpExp (x : F64) : ℤ := (max x.biasedExp 1 : ℕ) - 1075

/-- The exact decimal numeral of a finite float. -/
def toDecimal (x : F64) : Decimal :=
  if 0 ≤ x.ulpExp then ⟨x.neg, x.significand * 2 ^ x.ulpExp.toNat, 0⟩
  else ⟨x.neg, x.significand * 5 ^ (-x.ulpExp).toNat, x.ulpExp⟩

/-- A multiple is rounded to the exact quotient. -/
theorem roundHalfEven_mul {d : ℕ} (hd : 0 < d) (m : ℕ) : roundHalfEven (m * d) d = m := by
  simp [roundHalfEven, Nat.mul_div_cancel _ hd, hd]

section Ratio

variable {num den : ℕ}

/-- The comparison of `ofRatio` compares the ratio with a power of two. -/
theorem below_iff (num : ℕ) {den : ℕ} (hden : 0 < den) (g : ℤ) :
    (if 0 ≤ g then decide (num < den * 2 ^ g.toNat) else decide (num * 2 ^ (-g).toNat < den)) =
      true ↔ (num : ℚ) / den < 2 ^ g := by
  have hden' : (0 : ℚ) < den := by exact_mod_cast hden
  rw [div_lt_iff₀ hden']
  split_ifs with hg
  · obtain ⟨n, rfl⟩ := Int.eq_ofNat_of_zero_le hg
    rw [decide_eq_true_eq, Int.toNat_natCast, zpow_natCast, mul_comm]
    exact_mod_cast Iff.rfl
  · obtain ⟨n, hn⟩ := Int.eq_ofNat_of_zero_le (by omega : 0 ≤ -g)
    obtain rfl : g = -n := by omega
    have hpow : (0 : ℚ) < 2 ^ n := by positivity
    rw [decide_eq_true_eq, neg_neg, Int.toNat_natCast, zpow_neg, zpow_natCast,
      inv_mul_eq_div, lt_div_iff₀ hpow]
    exact_mod_cast Iff.rfl

/-- A positive natural number lies between two powers of two. -/
theorem log_bounds {n : ℕ} (hn : 0 < n) :
    (2 : ℚ) ^ (Nat.log 2 n : ℤ) ≤ n ∧ (n : ℚ) < 2 ^ ((Nat.log 2 n : ℤ) + 1) := by
  constructor
  · rw [zpow_natCast]
    exact_mod_cast Nat.pow_log_le_self 2 hn.ne'
  · have h := Nat.lt_pow_succ_log_self (b := 2) (by decide) n
    rw [← Nat.cast_succ, zpow_natCast]
    exact_mod_cast h

/-- The leading exponent is found. -/
theorem leadExp_eq (hnum : 0 < num) (hden : 0 < den) {l : ℤ}
    (hlo : (2 : ℚ) ^ l ≤ num / den) (hhi : (num : ℚ) / den < 2 ^ (l + 1)) :
    leadExp num den = l := by
  have hden' : (0 : ℚ) < den := by exact_mod_cast hden
  obtain ⟨hn₁, hn₂⟩ := log_bounds hnum
  obtain ⟨hd₁, hd₂⟩ := log_bounds hden
  set a := (Nat.log 2 num : ℤ)
  set b := (Nat.log 2 den : ℤ)
  rw [le_div_iff₀ hden'] at hlo
  rw [div_lt_iff₀ hden'] at hhi
  -- the logarithms miss the exponent by one at most
  have hge : l ≤ a - b := by
    have h : (2 : ℚ) ^ (l + b) < 2 ^ (a + 1) := by
      rw [zpow_add₀ (by norm_num)]
      calc (2 : ℚ) ^ l * 2 ^ b ≤ 2 ^ l * den := by gcongr
        _ ≤ num := hlo
        _ < _ := hn₂
    have := (zpow_lt_zpow_iff_right₀ (by norm_num)).mp h
    omega
  have hle : a - b ≤ l + 1 := by
    have h : (2 : ℚ) ^ a < 2 ^ (l + 1 + (b + 1)) := by
      rw [zpow_add₀ (by norm_num) (l + 1)]
      calc (2 : ℚ) ^ a ≤ num := hn₁
        _ < 2 ^ (l + 1) * den := hhi
        _ ≤ _ := by gcongr
    have := (zpow_lt_zpow_iff_right₀ (by norm_num)).mp h
    omega
  have hbelow := below_iff num hden (a - b)
  unfold leadExp
  rcases (by omega : a - b = l ∨ a - b = l + 1) with h | h
  · rw [if_neg, h]
    rw [hbelow, h, div_lt_iff₀ hden', not_lt]
    exact hlo
  · rw [if_pos, h]
    · omega
    · rw [hbelow, h, div_lt_iff₀ hden']
      exact hhi

/-- A ratio that is a number of units is rounded to this number. -/
theorem inUnits_eq {m : ℕ} {e : ℤ} (hden : 0 < den)
    (hval : num * 2 ^ (-e).toNat = m * 2 ^ e.toNat * den) : inUnits num den e = m := by
  unfold inUnits
  split_ifs with he
  · have hzero : (-e).toNat = 0 := by omega
    rw [hzero, pow_zero, mul_one] at hval
    rw [hval, mul_assoc, mul_comm _ den]
    exact roundHalfEven_mul (by positivity) m
  · have hzero : e.toNat = 0 := by omega
    rw [hzero, pow_zero, mul_one] at hval
    rw [hval]
    exact roundHalfEven_mul hden m

theorem ratio_eq {m : ℕ} {e : ℤ} (hden : 0 < den)
    (hval : num * 2 ^ (-e).toNat = m * 2 ^ e.toNat * den) : (num : ℚ) / den = m * 2 ^ e := by
  have hden' : (den : ℚ) ≠ 0 := by exact_mod_cast hden.ne'
  have hval' : (num : ℚ) * 2 ^ (-e).toNat = m * 2 ^ e.toNat * den := by exact_mod_cast hval
  rw [div_eq_iff hden']
  rcases Int.le_total 0 e with he | he
  · obtain ⟨n, rfl⟩ := Int.eq_ofNat_of_zero_le he
    have hzero : (-(n : ℤ)).toNat = 0 := by omega
    rw [hzero, pow_zero, mul_one, Int.toNat_natCast] at hval'
    rw [zpow_natCast, hval']
  · obtain ⟨n, hn⟩ := Int.eq_ofNat_of_zero_le (by omega : 0 ≤ -e)
    obtain rfl : e = -n := by omega
    have hzero : (-(n : ℤ)).toNat = 0 := by omega
    have hpow : (2 : ℚ) ^ n ≠ 0 := by positivity
    rw [neg_neg, Int.toNat_natCast, hzero, pow_zero, mul_one] at hval'
    rw [zpow_neg, zpow_natCast, mul_right_comm, ← hval', mul_assoc, mul_inv_cancel₀ hpow, mul_one]

/-- A ratio `m * 2 ^ e` that a float can hold is packed as it is. -/
theorem ofRatio_eq_pack (neg : Bool) {m : ℕ} {e : ℤ} (hm : 0 < m) (hm' : m < 2 ^ 53)
    (he : -1074 ≤ e) (hnorm : 2 ^ 52 ≤ m ∨ e = -1074) (hden : 0 < den)
    (hval : num * 2 ^ (-e).toNat = m * 2 ^ e.toNat * den) :
    ofRatio neg num den = pack neg m e := by
  have hnum : 0 < num := by
    have : 0 < num * 2 ^ (-e).toNat := by
      rw [hval]
      positivity
    exact Nat.pos_of_mul_pos_right this
  have hratio := ratio_eq hden hval
  obtain ⟨hlo, hhi⟩ := log_bounds hm
  have hpow : (0 : ℚ) < 2 ^ e := by positivity
  have hlead : leadExp num den = Nat.log 2 m + e := by
    refine leadExp_eq hnum hden ?_ ?_
    · rw [hratio, zpow_add₀ (by norm_num)]
      gcongr
    · rw [hratio, add_right_comm, zpow_add₀ (by norm_num) _ e]
      gcongr
  have hlog : Nat.log 2 m < 53 := Nat.log_lt_of_lt_pow hm.ne' hm'
  have hunit : max (leadExp num den - 52) (-1074) = e := by
    rcases hnorm with h | h
    · have : 52 ≤ Nat.log 2 m := Nat.le_log_of_pow_le (by decide) h
      omega
    · omega
  rw [ofRatio, if_neg hnum.ne']
  simp only [hunit, inUnits_eq hden hval]
  rw [if_neg hm'.ne]

end Ratio

/-! ## The numeral of a float -/

/-- A word is its sign, its exponent field and its fraction. -/
theorem ofFields_fields (x : F64) :
    ofFields x.neg (x.biasedExp * 2 ^ 52 + x.fraction) = x := by
  have hlt := x.bits.toNat_lt
  have hword : (if x.neg then 2 ^ 63 else 0) + (x.biasedExp * 2 ^ 52 + x.fraction) =
      x.bits.toNat := by
    simp only [neg, biasedExp, fraction, decide_eq_true_eq]
    split_ifs <;> omega
  rw [ofFields, hword, UInt64.ofNat_toNat]

theorem significand_lt (x : F64) : x.significand < 2 ^ 53 := by
  unfold significand fraction
  split_ifs <;> omega

theorem ulpExp_bounds {x : F64} (hx : x.isFinite) :
    -1074 ≤ x.ulpExp ∧ x.ulpExp ≤ 971 ∧ (2 ^ 52 ≤ x.significand ∨ x.ulpExp = -1074) := by
  have hexp : x.biasedExp < 2 ^ 11 := Nat.mod_lt _ (by decide)
  have hfin : x.biasedExp ≠ 2 ^ 11 - 1 := by simpa [isFinite] using hx
  unfold ulpExp significand
  split_ifs <;> omega

/-- Packing the significand and the exponent of a finite float gives it back. -/
theorem pack_self {x : F64} (hx : x.isFinite) : pack x.neg x.significand x.ulpExp = x := by
  obtain ⟨-, hle, -⟩ := ulpExp_bounds hx
  rw [pack, if_neg (by omega)]
  have hfrac : x.fraction < 2 ^ 52 := Nat.mod_lt _ (by decide)
  by_cases hexp : x.biasedExp = 0
  · have hm : x.significand = x.fraction := if_pos hexp
    rw [hm, if_pos hfrac]
    simpa [hexp] using x.ofFields_fields
  · have hm : x.significand = 2 ^ 52 + x.fraction := if_neg hexp
    have he : (x.ulpExp + 1075).toNat = x.biasedExp := by
      unfold ulpExp
      omega
    rw [hm, if_neg (by omega), he, Nat.add_sub_cancel_left]
    exact x.ofFields_fields

/-- **Exact numerals are read back**: the decimal numeral of a finite float rounds to
the float. -/
theorem ofDecimal_toDecimal {x : F64} (hx : x.isFinite) : ofDecimal x.toDecimal = x := by
  obtain ⟨hlo, -, hnorm⟩ := ulpExp_bounds hx
  by_cases hm : x.significand = 0
  · -- a signed zero
    have hpack := pack_self hx
    have hzero : pack x.neg 0 x.ulpExp = ofFields x.neg 0 := by
      rw [pack, if_neg (by omega), if_pos (by decide)]
    rw [hm, hzero] at hpack
    unfold toDecimal
    split_ifs <;> simpa [ofDecimal, ofRatio, hm] using hpack
  · have hpos : 0 < x.significand := Nat.pos_of_ne_zero hm
    unfold toDecimal
    split_ifs with he
    · have hzero : (-x.ulpExp).toNat = 0 := by omega
      have hval : x.significand * 2 ^ x.ulpExp.toNat * 2 ^ (-x.ulpExp).toNat =
          x.significand * 2 ^ x.ulpExp.toNat * 1 := by rw [hzero, pow_zero]
      have h := ofRatio_eq_pack x.neg hpos x.significand_lt hlo hnorm Nat.one_pos hval
      rw [pack_self hx] at h
      simpa [ofDecimal] using h
    · have hzero : x.ulpExp.toNat = 0 := by omega
      have hval : x.significand * 5 ^ (-x.ulpExp).toNat * 2 ^ (-x.ulpExp).toNat =
          x.significand * 2 ^ x.ulpExp.toNat * 10 ^ (-x.ulpExp).toNat := by
        rw [hzero, pow_zero, mul_one, mul_assoc, ← mul_pow]
        norm_num
      have h := ofRatio_eq_pack x.neg hpos x.significand_lt hlo hnorm (by positivity) hval
      rw [pack_self hx] at h
      simpa [ofDecimal, he] using h

end F64
