import WideLog.Lib.F64Exact
import WideLog.Lib.Json.Grammar

/-!
# Numerals as number tokens

The decimal digits of a natural number are an integer part that denotes it, and a
decimal numeral in exponent notation is a token for the float it rounds to.
-/

namespace Rfc8259

theorem digits_toDigits (n : ℕ) : Digits (Nat.toDigits 10 n) :=
  ⟨Nat.toDigits_ne_nil, fun _ h ↦ Nat.isDigit_of_mem_toDigits (by decide) (by decide) h⟩

/-- A decimal starts with a zero only if it is the zero. -/
theorem head_toDigits {n : ℕ} (h : (Nat.toDigits 10 n).head? = some '0') : n = 0 := by
  induction n using Nat.strong_induction_on with
  | _ n ih =>
      rw [Nat.toDigits_eq_if (by decide)] at h
      split at h
      · rename_i hlt
        have : ∀ k < 10, (k.digitChar :: []).head? = some '0' → k = 0 := by decide
        exact this n hlt h
      · rename_i hge
        rw [List.head?_append_of_ne_nil _ Nat.toDigits_ne_nil] at h
        have := ih (n / 10) (by omega) h
        omega

theorem intPart_toDigits (n : ℕ) : IntPart (Nat.toDigits 10 n) :=
  ⟨digits_toDigits n, fun h ↦ by rw [head_toDigits h]; rfl⟩

theorem natOf_toDigits (n : ℕ) : natOf (Nat.toDigits 10 n) = n := by
  simp [natOf]

/-- A decimal numeral in exponent notation. -/
def decimalText (d : Decimal) : List Char :=
  (if d.neg then ['-'] else []) ++ (Nat.toDigits 10 d.coeff ++
    'e' :: ((if d.exp < 0 then ['-'] else []) ++ Nat.toDigits 10 d.exp.natAbs))

theorem number_decimalText (d : Decimal) : Number (decimalText d) (.real (.ofDecimal d)) := by
  obtain ⟨neg, coeff, exp⟩ := d
  have hm : Minus (if neg then ['-'] else []) neg := by
    cases neg
    · exact .absent
    · exact .present
  have hs : ExpSign (if exp < 0 then ['-'] else []) (decide (exp < 0)) := by
    by_cases h : exp < 0
    · simpa [h] using ExpSign.minus
    · simpa [h] using ExpSign.absent
  have he : intOf (decide (exp < 0)) (Nat.toDigits 10 exp.natAbs) = exp := by
    unfold intOf
    rw [natOf_toDigits]
    split_ifs with h
    · have := of_decide_eq_true h
      omega
    · have := of_decide_eq_false (Bool.not_eq_true _ ▸ h)
      omega
  have h := Number.mk hm (intPart_toDigits coeff) .absent
    (.present (.inl rfl) hs (digits_toDigits exp.natAbs))
  have hval : numberValue neg (Nat.toDigits 10 coeff) [] (some exp) =
      .real (.ofDecimal ⟨neg, coeff, exp⟩) := by
    simp [numberValue, natOf_toDigits]
  rw [he, hval] at h
  exact h

/-- Every finite float has a token. -/
theorem number_exact {x : F64} (hx : x.isFinite) :
    Number (decimalText x.toDecimal) (.real x) := by
  have h := number_decimalText x.toDecimal
  rwa [F64.ofDecimal_toDecimal hx] at h

end Rfc8259
