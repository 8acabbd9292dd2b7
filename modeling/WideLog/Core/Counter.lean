import WideLog.Core.Mutate

/-!
# What the field operations are meant to compute

`updated` states, in exact integers, the value each operation leaves in a field,
and `InRange` when that value fits the kind of the field.  In range, the code
computes it in every build; out of range it panics or wraps.
-/

namespace WideLog

namespace FieldOp

variable {K : Type}

/-- The result of an operation on the old value fits the kind it is stored in. -/
def InRange : FieldOp K → Option (Value K) → Prop
  | inc, some (.u64 n) => n.toNat + 1 < 2 ^ 64
  | inc, some (.i64 n) => n.toInt + 1 < 2 ^ 63
  | dec, some (.i64 n) => -2 ^ 63 ≤ n.toInt - 1
  | add d, some (.i64 n) => -2 ^ 63 ≤ n.toInt + d.toInt ∧ n.toInt + d.toInt < 2 ^ 63
  | _, _ => True

/-- The value an operation leaves: an unsigned counter never drops below zero, a
field that held no number starts at the operation's delta. -/
def updated : FieldOp K → Option (Value K) → Value K
  | set v, _ => v
  | inc, some (.u64 n) => .u64 (.ofNat (n.toNat + 1))
  | inc, some (.i64 n) => .i64 (.ofInt (n.toInt + 1))
  | inc, _ => .u64 1
  | dec, some (.u64 n) => .u64 (.ofNat (n.toNat - 1))
  | dec, some (.i64 n) => .i64 (.ofInt (n.toInt - 1))
  | dec, _ => .i64 (-1)
  | add d, some (.u64 n) => .u64 (saturatingAddSigned n d)
  | add d, some (.i64 n) => .i64 (.ofInt (n.toInt + d.toInt))
  | add d, _ => initialN d

theorem checkedU64_of_lt (env : Env K) {n : ℕ} (h : n < 2 ^ 64) :
    checkedU64 env n = some (.ofNat n) := if_pos h

theorem checkedI64_of_mem (env : Env K) {n : ℤ} (h : -2 ^ 63 ≤ n) (h' : n < 2 ^ 63) :
    checkedI64 env n = some (.ofInt n) := if_pos ⟨h, h'⟩

/-- Subtracting one from a positive word does not borrow. -/
theorem ofNat_toNat_sub_one {n : UInt64} (h : 0 < n) : UInt64.ofNat (n.toNat - 1) = n - 1 := by
  have hle : (1 : UInt64) ≤ n := by
    rw [UInt64.le_iff_toNat_le]
    exact UInt64.lt_iff_toNat_lt.mp h
  rw [← UInt64.toNat_inj, UInt64.toNat_sub_of_le _ _ hle, UInt64.toNat_ofNat']
  have := n.toNat_lt
  exact Nat.mod_eq_of_lt (by omega)

/-- In range, the code computes the intended value in every build. -/
theorem newVal_of_inRange (env : Env K) {op : FieldOp K} {old : Option (Value K)}
    (h : op.InRange old) : op.newVal env old = some (op.updated old) := by
  cases op with
  | set v => rfl
  | inc =>
      rcases old with _ | v
      · rfl
      · cases v with
        | u64 n => simp only [newVal, incValue, checkedU64_of_lt env h, Option.map_some, updated]
        | i64 n =>
            have hlo := n.le_toInt
            have hhi : n.toInt + 1 < 2 ^ 63 := h
            simp only [newVal, incValue, checkedI64_of_mem env (by omega) hhi, Option.map_some,
              updated]
        | _ => rfl
  | dec =>
      rcases old with _ | v
      · rfl
      · cases v with
        | u64 n =>
            by_cases hn : 0 < n
            · simp only [newVal, decValue, if_pos hn, updated, ofNat_toNat_sub_one hn]
            · have hz : n = 0 := by
                rw [UInt64.lt_iff_toNat_lt] at hn
                rw [← UInt64.toNat_inj]
                simpa using hn
              subst hz
              simp [newVal, decValue, updated]
        | i64 n =>
            have hhi := n.toInt_lt
            have hlo : -2 ^ 63 ≤ n.toInt - 1 := h
            simp only [newVal, decValue, checkedI64_of_mem env hlo (by omega), Option.map_some,
              updated]
        | _ => rfl
  | add d =>
      rcases old with _ | v
      · rfl
      · cases v with
        | i64 n =>
            simp only [newVal, addNValue, checkedI64_of_mem env h.1 h.2, Option.map_some, updated]
        | _ => rfl

end FieldOp

end WideLog
