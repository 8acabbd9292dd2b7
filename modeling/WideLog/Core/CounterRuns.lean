import WideLog.Core.TreeMap
import WideLog.Lib.Run

/-!
# Runs of counter operations

What the field macros make of one field over a run: when a step panics or wraps, and
what a counter that is only incremented, decremented and added to holds.  A panic may be
caught, so a run goes on from the event it leaves.
-/

namespace WideLog

variable {K : Type} [Key K]

namespace WideEvent

/-! ## One path, whatever happens elsewhere -/

omit [Key K] in
theorem childAt_congr {a b : WideEvent K} {i : ℕ} (hslot : a.slot i = b.slot i)
    (hcb : a.onTypeConflict = b.onTypeConflict) : a.childAt i = b.childAt i := by
  unfold childAt newChild
  rw [hslot, hcb]

/-- A path only sees the slot that it starts with. -/
theorem read_congr {a b : WideEvent K} {k : K} (ks : List K)
    (hslot : a.slot (Key.asIndex k) = b.slot (Key.asIndex k))
    (hcb : a.onTypeConflict = b.onTypeConflict) :
    a.read (k :: ks) = b.read (k :: ks) ∧ (b.QuietAlong (k :: ks) → a.QuietAlong (k :: ks)) := by
  have hchild := childAt_congr hslot hcb
  constructor
  · by_cases hks : ks = []
    · rw [hks, read_singleton, read_singleton, hslot]
    · rw [read_cons hks, read_cons hks, hchild]
  · rintro ⟨hnone, hquiet⟩
    exact ⟨hcb.trans hnone, hchild ▸ hquiet⟩

/-- An update leaves the other slots, whether or not it panics. -/
theorem update_of_ne (newVal : Option (Value K) → Option (Value K)) {key k : K} (h : key ≠ k)
    (ev : WideEvent K) :
    (update newVal key ev).state.slot (Key.asIndex k) = ev.slot (Key.asIndex k) ∧
      (update newVal key ev).state.onTypeConflict = ev.onTypeConflict := by
  have hidx : Key.asIndex key ≠ Key.asIndex k := fun he ↦ h (Key.asIndex_inj he)
  rw [update_eq]
  split
  · exact ⟨slot_put_of_ne hidx _ _, onTypeConflict_put _ _ _⟩
  · exact ⟨slot_ensureCapacity _ _ _, onTypeConflict_ensureCapacity _ _⟩

/-- A descent to an incomparable path leaves what a path reads, and the events on the
way to it quiet. -/
theorem descendLoop_beside (env : Env K) (newVal : Option (Value K) → Option (Value K))
    (path : List K) (key : K) {p : List K} {ev : WideEvent K} (hq : ev.QuietAlong p)
    (h : Incomparable p (path ++ [key])) :
    (descendLoop env path (update newVal key) ev).state.read p = ev.read p ∧
      (descendLoop env path (update newVal key) ev).state.QuietAlong p := by
  obtain ⟨l, ls, rfl⟩ := List.exists_cons_of_ne_nil h.ne_nil_left
  induction path generalizing l ls ev with
  | nil =>
      have hne : key ≠ l := by
        rintro rfl
        exact h.2 (List.cons_prefix_cons.mpr ⟨rfl, List.nil_prefix⟩)
      obtain ⟨hslot, hcb⟩ := update_of_ne newVal hne ev
      obtain ⟨hread, hquiet⟩ := read_congr ls hslot hcb
      exact ⟨hread, hquiet hq⟩
  | cons seg segs ih =>
      rw [descendLoop, object_eq env hq.1, Outcome.state_map]
      by_cases hseg : l = seg
      · subst hseg
        have htail : Incomparable ls (segs ++ [key]) :=
          (Incomparable.cons_iff.mp h).resolve_left (· rfl)
        obtain ⟨m, ms, rfl⟩ := List.exists_cons_of_ne_nil htail.ne_nil_left
        obtain ⟨hread, hquiet⟩ := ih m ms hq.2 htail
        rw [read_cons (List.cons_ne_nil _ _), read_cons (List.cons_ne_nil _ _), childAt_put_self]
        refine ⟨hread, (onTypeConflict_put _ _ _).trans hq.1, ?_⟩
        rw [childAt_put_self]
        exact hquiet
      · have hidx : Key.asIndex seg ≠ Key.asIndex l := fun he ↦ hseg (Key.asIndex_inj he).symm
        obtain ⟨hread, hquiet⟩ :=
          read_congr (a := ev.put (Key.asIndex seg) _) ls (slot_put_of_ne hidx _ ev)
            (onTypeConflict_put _ _ ev)
        exact ⟨hread, hquiet hq⟩

/-- A descent whose slot mutator panics leaves what its path reads. -/
theorem descendLoop_panic (env : Env K) {newVal : Option (Value K) → Option (Value K)}
    (path : List K) (key : K) {ev : WideEvent K} (hq : ev.QuietAlong (path ++ [key]))
    (hv : newVal (ev.read (path ++ [key])) = none) :
    ∃ ev', descendLoop env path (update newVal key) ev = .panic ev' ∧
      ev'.read (path ++ [key]) = ev.read (path ++ [key]) ∧ ev'.QuietAlong (path ++ [key]) := by
  induction path generalizing ev with
  | nil =>
      rw [List.nil_append, read_singleton] at hv
      rw [descendLoop, update_eq, hv]
      exact ⟨_, rfl, slot_ensureCapacity _ _ _, (onTypeConflict_ensureCapacity _ _).trans hq.1,
        trivial⟩
  | cons k ks ih =>
      have hks : ks ++ [key] ≠ [] := by simp
      rw [List.cons_append, read_cons hks] at hv
      obtain ⟨child, hrun, hread, hquiet⟩ := ih hq.2 hv
      rw [descendLoop, object_eq env hq.1, hrun, Outcome.map_panic, List.cons_append]
      refine ⟨_, rfl, ?_, (onTypeConflict_put _ _ _).trans hq.1, ?_⟩
      · rw [read_cons hks, read_cons hks, childAt_put_self, hread]
      · rw [childAt_put_self]
        exact hquiet

theorem QuietAlong.insert_self {p : List K} {ev : WideEvent K} (hq : ev.QuietAlong p)
    (v : Value K) : (ev.insert p v).QuietAlong p := by
  induction p generalizing ev with
  | nil => trivial
  | cons k ks ih =>
      by_cases hks : ks = []
      · subst hks
        exact ⟨(onTypeConflict_put _ _ _).trans hq.1, trivial⟩
      · rw [insert_cons hks]
        refine ⟨(onTypeConflict_put _ _ _).trans hq.1, ?_⟩
        rw [childAt_put_self]
        exact ih hq.2

end WideEvent

namespace FieldOp

variable (env : Env K) {p : List K} {ev : WideEvent K}

/-- An operation returns with its new value inserted, or panics and leaves what the
path reads. -/
theorem run_cases (op : FieldOp K) (hp : p ≠ []) (hq : ev.QuietAlong p) :
    (∃ v, op.newVal env (ev.read p) = some v ∧ op.run env p ev = .ret (ev.insert p v)) ∨
      op.newVal env (ev.read p) = none ∧ ∃ ev', op.run env p ev = .panic ev' ∧
        ev'.read p = ev.read p ∧ ev'.QuietAlong p := by
  obtain ⟨path, key, rfl⟩ := (List.eq_nil_or_concat' p).resolve_left hp
  rw [run_eq_atPath, WideEvent.atPath_concat, atKey_eq_update]
  cases hv : op.newVal env (ev.read (path ++ [key])) with
  | some v => exact .inl ⟨v, rfl, WideEvent.descendLoop_update env path key hq hv⟩
  | none => exact .inr ⟨rfl, WideEvent.descendLoop_panic env path key hq hv⟩

/-- What an operation leaves in its field: the new value, or the old one after a panic. -/
theorem read_run (op : FieldOp K) (hp : p ≠ []) (hq : ev.QuietAlong p) :
    (op.run env p ev).state.read p = (op.newVal env (ev.read p)).or (ev.read p) ∧
      (op.run env p ev).state.QuietAlong p := by
  rcases op.run_cases env hp hq with ⟨v, hv, hrun⟩ | ⟨hv, ev', hrun, hread, hquiet⟩
  · rw [hrun, hv]
    exact ⟨WideEvent.read_insert_self hp v ev, hq.insert_self v⟩
  · rw [hrun, hv]
    exact ⟨hread, hquiet⟩

/-- An operation at an incomparable path leaves a field as it is. -/
theorem read_run_beside (op : FieldOp K) {q : List K} (h : Incomparable p q)
    (hq : ev.QuietAlong p) :
    (op.run env q ev).state.read p = ev.read p ∧ (op.run env q ev).state.QuietAlong p := by
  obtain ⟨path, key, rfl⟩ := (List.eq_nil_or_concat' q).resolve_left h.ne_nil_right
  rw [run_eq_atPath, WideEvent.atPath_concat, atKey_eq_update]
  exact WideEvent.descendLoop_beside env _ path key hq h

/-! ## Saturation -/

omit [Key K] in
/-- The change a counter operation asks for. -/
def delta : FieldOp K → Option ℤ
  | set _ => none
  | inc => some 1
  | dec => some (-1)
  | add n => some n.toInt

end FieldOp

/-- The `u64` nearest to an integer. -/
def nearestU64 (z : ℤ) : UInt64 := .ofNat (max 0 (min z (2 ^ 64 - 1))).toNat

/-- The `i64` nearest to an integer. -/
def nearestI64 (z : ℤ) : Int64 := .ofInt (max (-2 ^ 63) (min z (2 ^ 63 - 1)))

/-- The bounds of a `u64`. -/
def clampU64 (z : ℤ) : ℤ := max 0 (min z (2 ^ 64 - 1))

/-- An integer that an `i64` can hold. -/
def FitsI64 (z : ℤ) : Prop := -2 ^ 63 ≤ z ∧ z < 2 ^ 63

section Arithmetic

variable (env : Env K)

theorem toNat_nearestU64 (z : ℤ) : ((nearestU64 z).toNat : ℤ) = clampU64 z := by
  have hsize : UInt64.size = 2 ^ 64 := rfl
  rw [nearestU64, clampU64, UInt64.toNat_ofNat_of_lt' (by omega)]
  omega

theorem toInt_ofInt_of_fits {z : ℤ} (hz : FitsI64 z) : (Int64.ofInt z).toInt = z :=
  Int64.toInt_ofInt_of_le hz.1 hz.2

omit [Key K] in
/-- A sum of two `u64` values is the nearest one exactly when it fits. -/
theorem checkedU64_eq_nearest_iff {n : ℕ} (hn : n < 2 ^ 64 + 1) :
    checkedU64 env n = some (nearestU64 n) ↔ n < 2 ^ 64 := by
  by_cases hfits : n < 2 ^ 64
  · have hnat : (max 0 (min (n : ℤ) (2 ^ 64 - 1))).toNat = n := by omega
    rw [FieldOp.checkedU64_of_lt env hfits, nearestU64, hnat]
    exact iff_of_true rfl hfits
  · obtain rfl : n = 2 ^ 64 := by omega
    refine iff_of_false ?_ hfits
    rw [checkedU64, if_neg hfits]
    split_ifs
    · nofun
    · decide

omit [Key K] in
/-- A sum of two `i64` values is the nearest one exactly when it fits. -/
theorem checkedI64_eq_nearest_iff {z : ℤ} (hlo : -2 ^ 64 ≤ z) (hhi : z < 2 ^ 64) :
    checkedI64 env z = some (nearestI64 z) ↔ FitsI64 z := by
  by_cases hfits : FitsI64 z
  · have hz : max (-2 ^ 63) (min z (2 ^ 63 - 1)) = z := by
      unfold FitsI64 at hfits
      omega
    rw [FieldOp.checkedI64_of_mem env hfits.1 hfits.2, nearestI64, hz]
    exact iff_of_true rfl hfits
  · refine iff_of_false ?_ hfits
    have hno : ¬ (-2 ^ 63 ≤ z ∧ z < 2 ^ 63) := hfits
    rw [checkedI64, if_neg hno]
    split_ifs
    · nofun
    · intro heq
      have hint := congrArg Int64.toInt (Option.some.inj heq)
      rw [nearestI64, Int64.toInt_ofInt, Int64.toInt_ofInt, Int.bmod_def, Int.bmod_def] at hint
      have hsize : Int64.size = 2 ^ 64 := rfl
      rw [hsize] at hint
      omega

end Arithmetic

namespace FieldOp

variable (env : Env K) {p : List K} {ev : WideEvent K}

/-- An operation returns, and moves a number in its field by what it asks for, or to the
bound of the number's kind that is nearest to that. -/
def Saturates (op : FieldOp K) (p : List K) (ev : WideEvent K) : Prop :=
  ∃ ev', op.run env p ev = .ret ev' ∧ ∀ d ∈ op.delta,
    (∀ n, ev.read p = some (.u64 n) → ev'.read p = some (.u64 (nearestU64 (n.toNat + d)))) ∧
      ∀ n, ev.read p = some (.i64 n) → ev'.read p = some (.i64 (nearestI64 (n.toInt + d)))

omit [Key K] in
/-- What an operation computes from a `u64` is the nearest one exactly in range. -/
theorem newVal_u64_iff (op : FieldOp K) {d : ℤ} (hd : op.delta = some d) (n : UInt64) :
    op.newVal env (some (.u64 n)) = some (.u64 (nearestU64 (n.toNat + d))) ↔
      op.InRange (some (.u64 n)) := by
  have hn := n.toNat_lt
  cases op with
  | set v => cases hd
  | inc =>
      cases hd
      have hsum := checkedU64_eq_nearest_iff env (show n.toNat + 1 < 2 ^ 64 + 1 by omega)
      rw [Nat.cast_add, Nat.cast_one] at hsum
      exact (Option.map_injective (fun _ _ h ↦ Value.u64.inj h)).eq_iff.trans hsum
  | dec =>
      cases hd
      refine iff_of_true ?_ trivial
      have hnat : (max 0 (min ((n.toNat : ℤ) + -1) (2 ^ 64 - 1))).toNat = n.toNat - 1 := by omega
      have hr : (dec : FieldOp K).InRange (some (.u64 n)) := trivial
      rw [newVal_of_inRange env hr, nearestU64, hnat]
      rfl
  | add m =>
      cases hd
      exact iff_of_true rfl trivial

omit [Key K] in
theorem fits_delta (op : FieldOp K) {d : ℤ} (hd : op.delta = some d) : FitsI64 d := by
  cases op with
  | set v => cases hd
  | inc | dec =>
      cases hd
      exact ⟨by decide, by decide⟩
  | add n =>
      cases hd
      exact ⟨n.le_toInt, n.toInt_lt⟩

omit [Key K] in
theorem newVal_i64 (op : FieldOp K) {d : ℤ} (hd : op.delta = some d) (n : Int64) :
    op.newVal env (some (.i64 n)) = (checkedI64 env (n.toInt + d)).map .i64 := by
  cases op with
  | set v => cases hd
  | _ =>
      cases hd
      rfl

omit [Key K] in
theorem inRange_i64_iff (op : FieldOp K) {d : ℤ} (hd : op.delta = some d) (n : Int64) :
    op.InRange (some (.i64 n)) ↔ FitsI64 (n.toInt + d) := by
  have hlo := n.le_toInt
  have hhi := n.toInt_lt
  cases op with
  | set v => cases hd
  | inc =>
      cases hd
      exact ⟨fun h ↦ ⟨by omega, h⟩, fun h ↦ h.2⟩
  | dec =>
      cases hd
      exact ⟨fun h ↦ ⟨h, by omega⟩, fun h ↦ h.1⟩
  | add m =>
      cases hd
      exact Iff.rfl

omit [Key K] in
/-- What an operation computes from an `i64` is the nearest one exactly in range. -/
theorem newVal_i64_iff (op : FieldOp K) {d : ℤ} (hd : op.delta = some d) (n : Int64) :
    op.newVal env (some (.i64 n)) = some (.i64 (nearestI64 (n.toInt + d))) ↔
      op.InRange (some (.i64 n)) := by
  have hlo := n.le_toInt
  have hhi := n.toInt_lt
  obtain ⟨hdlo, hdhi⟩ := op.fits_delta hd
  rw [op.newVal_i64 env hd, op.inRange_i64_iff hd]
  exact (Option.map_injective (fun _ _ h ↦ Value.i64.inj h)).eq_iff.trans
    (checkedI64_eq_nearest_iff env (by omega) (by omega))

omit [Key K] in
/-- A counter starts at its first delta, and with its kind. -/
theorem newVal_none (op : FieldOp K) {d : ℤ} (hd : op.delta = some d) :
    (d < 0 → ∃ n : Int64, op.newVal env none = some (.i64 n) ∧ n.toInt = d) ∧
      (0 ≤ d → ∃ n : UInt64, op.newVal env none = some (.u64 n) ∧ (n.toNat : ℤ) = d) := by
  cases op with
  | set v => cases hd
  | inc =>
      cases hd
      exact ⟨nofun, fun _ ↦ ⟨1, rfl, rfl⟩⟩
  | dec =>
      cases hd
      exact ⟨fun _ ↦ ⟨-1, rfl, by decide⟩, nofun⟩
  | add n =>
      cases hd
      have hhi := n.toInt_lt
      constructor
      · intro hlt
        have hval : initialN (K := K) n = .i64 n := if_neg (by omega)
        exact ⟨n, congrArg some hval, rfl⟩
      · intro hle
        have hval : initialN (K := K) n = .u64 (.ofNat n.toInt.toNat) := if_pos hle
        have hsize : UInt64.size = 2 ^ 64 := rfl
        refine ⟨_, congrArg some hval, ?_⟩
        rw [UInt64.toNat_ofNat_of_lt' (by omega)]
        omega

omit [Key K] in
/-- What an operation leaves of an `i64` is one, and the exact result if that fits. -/
theorem exists_i64 (op : FieldOp K) {d : ℤ} (hd : op.delta = some d) (n : Int64) :
    ∃ m : Int64, (op.newVal env (some (.i64 n))).or (some (.i64 n)) = some (.i64 m) ∧
      (FitsI64 (n.toInt + d) → m.toInt = n.toInt + d) := by
  rw [op.newVal_i64 env hd]
  by_cases hfits : FitsI64 (n.toInt + d)
  · rw [checkedI64_of_mem env hfits.1 hfits.2]
    exact ⟨_, rfl, toInt_ofInt_of_fits⟩
  · cases checkedI64 env (n.toInt + d) with
    | none => exact ⟨n, rfl, fun h ↦ absurd h hfits⟩
    | some m => exact ⟨m, rfl, fun h ↦ absurd h hfits⟩

omit [Key K] in
/-- What an operation leaves of a `u64` is one, and the clamped result if that is in
range. -/
theorem exists_u64 (op : FieldOp K) {d : ℤ} (hd : op.delta = some d) (n : UInt64) :
    ∃ m : UInt64, (op.newVal env (some (.u64 n))).or (some (.u64 n)) = some (.u64 m) ∧
      (op.InRange (some (.u64 n)) → (m.toNat : ℤ) = clampU64 (n.toNat + d)) := by
  by_cases hr : op.InRange (some (.u64 n))
  · rw [(op.newVal_u64_iff env hd n).mpr hr]
    exact ⟨_, rfl, fun _ ↦ toNat_nearestU64 _⟩
  · cases op with
    | inc =>
        rw [newVal, incValue]
        cases checkedU64 env (n.toNat + 1) with
        | none => exact ⟨n, rfl, fun h ↦ absurd h hr⟩
        | some m => exact ⟨m, rfl, fun h ↦ absurd h hr⟩
    | _ => exact absurd trivial hr

/-- An operation saturates exactly when its result is in range. -/
theorem saturates_iff (op : FieldOp K) (hp : p ≠ []) (hq : ev.QuietAlong p) :
    op.Saturates env p ev ↔ op.InRange (ev.read p) := by
  constructor
  · rintro ⟨ev', hrun, hsat⟩
    have hnew : ∃ v, op.newVal env (ev.read p) = some v ∧ ev'.read p = some v := by
      rcases op.run_cases env hp hq with ⟨v, hv, hret⟩ | ⟨-, s, hpanic, -⟩
      · cases hrun.symm.trans hret
        exact ⟨v, hv, WideEvent.read_insert_self hp v ev⟩
      · cases hrun.symm.trans hpanic
    obtain ⟨v, hv, hread⟩ := hnew
    cases hd : op.delta with
    | none =>
        cases op with
        | set => trivial
        | _ => cases hd
    | some d =>
        obtain ⟨hu, hi⟩ := hsat d hd
        cases hold : ev.read p with
        | none => cases op <;> trivial
        | some old =>
            rw [hold] at hv
            cases old with
            | u64 n =>
                have hnew := hv.trans (hread.symm.trans (hu n hold))
                exact (op.newVal_u64_iff env hd n).mp hnew
            | i64 n =>
                have hnew := hv.trans (hread.symm.trans (hi n hold))
                exact (op.newVal_i64_iff env hd n).mp hnew
            | _ => cases op <;> trivial
  · intro hr
    have hnew := newVal_of_inRange env hr
    refine ⟨_, run_eq_insert env hp hq hr, fun d hd ↦ ⟨fun n hn ↦ ?_, fun n hn ↦ ?_⟩⟩
    · rw [hn] at hr hnew ⊢
      rw [WideEvent.read_insert_self hp, ← hnew]
      exact (op.newVal_u64_iff env hd n).mpr hr
    · rw [hn] at hr hnew ⊢
      rw [WideEvent.read_insert_self hp, ← hnew]
      exact (op.newVal_i64_iff env hd n).mpr hr

/-- A field macro on the field at a path. -/
def Step (p : List K) (ev : WideEvent K) (op : FieldOp K) (ev' : WideEvent K) : Prop :=
  ev' = (op.run env p ev).state

/-- **No step of a run overflows exactly when every result is in range**: elsewhere the
step panics or wraps. -/
theorem run_saturates_iff (hp : p ≠ []) (hq : ev.QuietAlong p)
    {tr : List (WideEvent K × FieldOp K)} {t : WideEvent K} (h : Run (Step env p) ev tr t) :
    (∀ x ∈ tr, x.2.Saturates env p x.1) ↔ ∀ x ∈ tr, x.2.InRange (x.1.read p) := by
  have hquiet : ∀ r ∈ Run.states tr t, r.QuietAlong p := by
    refine h.always (I := fun r ↦ r.QuietAlong p) ?_ hq
    rintro s op _ rfl hs
    exact (op.read_run env hp hs).2
  refine forall₂_congr fun x hx ↦ ?_
  exact x.2.saturates_iff env hp (hquiet _ (h.step_of_mem hx).1)

/-- A counter that is set, incremented and decremented. -/
theorem run_saturates_iff_sample :
    let ev : WideEvent TestKey := .new
    let ev₁ := ev.insert [.details, .count] (.u64 7)
    let ev₂ := ev₁.insert [.details, .count] (.u64 8)
    let tr : List (WideEvent TestKey × FieldOp TestKey) := [(ev, .set (.u64 7)), (ev₁, .inc)]
    Run (Step .release [.details, .count]) ev tr ev₂ ∧
      ∀ x ∈ tr, x.2.Saturates .release [.details, .count] x.1 := by
  intro ev ev₁ ev₂ tr
  have hrun : Run (Step .release [.details, .count]) ev tr ev₂ :=
    .cons rfl (.cons rfl (.nil _))
  have hquiet : ev.QuietAlong [.details, .count] := ⟨rfl, rfl, trivial⟩
  refine ⟨hrun, (run_saturates_iff .release (by decide) hquiet hrun).mpr ?_⟩
  rw [List.forall_mem_cons, List.forall_mem_singleton]
  exact ⟨trivial, show (7 : UInt64).toNat + 1 < 2 ^ 64 by decide⟩

/-- **Counters overflow**: one more than the largest `i64` is none. -/
theorem run_does_not_saturate :
    ¬ ∀ (env : Env TestKey) (p : List TestKey) (tr : List (WideEvent TestKey × FieldOp TestKey))
      (t : WideEvent TestKey), p ≠ [] → Run (Step env p) .new tr t →
        ∀ x ∈ tr, x.2.Saturates env p x.1 := by
  intro h
  let ev : WideEvent TestKey := WideEvent.new.insert [.count] (.i64 .maxValue)
  have hrun : Run (Step .release [.count]) .new
      [(.new, .set (.i64 .maxValue)), (ev, .inc)] _ := .cons rfl (.cons rfl (.nil _))
  have hsat := h _ _ _ _ (by decide) hrun (ev, .inc) (by simp)
  have hquiet : ev.QuietAlong [.count] := ⟨rfl, trivial⟩
  have hrange : Int64.maxValue.toInt + 1 < 2 ^ 63 :=
    (saturates_iff .release .inc (by decide) hquiet).mp hsat
  exact absurd hrange (by decide +kernel)

end FieldOp

/-! ## A counter from its first operation -/

/-- A step of a run of a counter at a path: an operation that counts there, or any
operation at an incomparable path. -/
inductive CounterStep (p : List K) where
  | count (op : FieldOp K) (d : ℤ) (hd : op.delta = some d)
  | beside (q : List K) (h : Incomparable p q) (op : FieldOp K)

namespace CounterStep

variable {p : List K} {env : Env K} {ev s s' t : WideEvent K}
  {tr : List (WideEvent K × CounterStep p)}

/-- What a step does to the event. -/
def run (env : Env K) : CounterStep p → WideEvent K → Outcome (WideEvent K)
  | count op _ _ => op.run env p
  | beside q _ op => op.run env q

/-- A step, after which the run goes on even from a panic. -/
def Step (env : Env K) (ev : WideEvent K) (step : CounterStep p) (ev' : WideEvent K) : Prop :=
  ev' = (step.run env ev).state

omit [Key K] in
/-- What a step adds to the counter. -/
def delta : CounterStep p → Option ℤ
  | count _ d _ => some d
  | beside .. => none

omit [Key K] in
/-- The deltas of a run, in order. -/
def deltas (tr : List (WideEvent K × CounterStep p)) : List ℤ := tr.flatMap fun x ↦ x.2.delta.toList

/-- An increment that finds the counter at the largest `u64`. -/
def AtMax (ev : WideEvent K) : CounterStep p → Prop
  | count .inc _ _ => ∃ n, ev.read p = some (.u64 n) ∧ n.toNat = 2 ^ 64 - 1
  | _ => False

/-- What a counter holds after some deltas, when `noneAtMax` says that no increment found
it at the largest `u64`.  The sign of the first delta decides its kind. -/
def Counted (noneAtMax : Prop) : List ℤ → Option (Value K) → Prop
  | [], slot => slot = none
  | d :: ds, slot =>
      (d < 0 → ∃ n : Int64, slot = some (.i64 n) ∧
        ((∀ l, l <+: d :: ds → FitsI64 l.sum) → n.toInt = (d :: ds).sum)) ∧
      (0 ≤ d → ∃ n : UInt64, slot = some (.u64 n) ∧
        (noneAtMax → (n.toNat : ℤ) = ds.foldl (fun v x ↦ clampU64 (v + x)) d))

omit [Key K] in
/-- One more operation that counts. -/
theorem Counted.concat {Q : Prop} {ds : List ℤ} {slot : Option (Value K)} (h : Counted Q ds slot)
    (op : FieldOp K) {d : ℤ} (hd : op.delta = some d) (hrange : Q → ∀ n, slot = some (.u64 n) →
      op.InRange (some (.u64 n))) :
    Counted Q (ds ++ [d]) ((op.newVal env slot).or slot) := by
  cases ds with
  | nil =>
      obtain rfl : slot = none := h
      obtain ⟨hneg, hpos⟩ := op.newVal_none env hd
      constructor
      · intro hlt
        obtain ⟨n, hn, heq⟩ := hneg hlt
        exact ⟨n, by rw [hn, Option.some_or], fun _ ↦ by rw [heq, List.sum_singleton]⟩
      · intro hle
        obtain ⟨n, hn, heq⟩ := hpos hle
        exact ⟨n, by rw [hn, Option.some_or], fun _ ↦ heq⟩
  | cons d₀ ds =>
      rw [List.cons_append]
      constructor
      · intro hlt
        obtain ⟨n, rfl, hsum⟩ := h.1 hlt
        obtain ⟨m, hm, heq⟩ := op.exists_i64 env hd n
        refine ⟨m, hm, fun hfits ↦ ?_⟩
        have hn : n.toInt = (d₀ :: ds).sum :=
          hsum fun l hl ↦ hfits l (hl.trans ⟨[d], rfl⟩)
        have hall : FitsI64 (d₀ :: (ds ++ [d])).sum := hfits _ (List.prefix_refl _)
        rw [← List.cons_append, List.sum_append, List.sum_singleton, ← hn] at hall ⊢
        exact heq hall
      · intro hle
        obtain ⟨n, rfl, hfold⟩ := h.2 hle
        obtain ⟨m, hm, heq⟩ := op.exists_u64 env hd n
        refine ⟨m, hm, fun hQ ↦ ?_⟩
        rw [List.foldl_concat, ← hfold hQ]
        exact heq (hrange hQ n rfl)

/-- A step of the run. -/
theorem Counted.step {Q : Prop} {ds : List ℤ} {a : CounterStep p} (hp : p ≠ [])
    (h : Step env s a s') (hmax : Q → ¬ a.AtMax s) (hs : s.QuietAlong p ∧ Counted Q ds (s.read p)) :
    s'.QuietAlong p ∧ Counted Q (ds ++ a.delta.toList) (s'.read p) := by
  obtain ⟨hq, hcounted⟩ := hs
  subst h
  cases a with
  | count op d hd =>
      obtain ⟨hread, hquiet⟩ := op.read_run env hp hq
      refine ⟨hquiet, ?_⟩
      rw [run, hread]
      refine hcounted.concat op hd fun hQ n hn ↦ ?_
      cases op with
      | inc =>
          have hne : n.toNat ≠ 2 ^ 64 - 1 := fun heq ↦ hmax hQ ⟨n, hn, heq⟩
          have hlt := n.toNat_lt
          exact show n.toNat + 1 < 2 ^ 64 by omega
      | _ => trivial
  | beside q h op =>
      obtain ⟨hread, hquiet⟩ := op.read_run_beside env h hq
      refine ⟨hquiet, ?_⟩
      rw [run, hread, delta, Option.toList_none, List.append_nil]
      exact hcounted

/-- **What a counter holds after a run**: its kind is that of the first delta, an `i64`
counts exactly and a `u64` clamps at every step. -/
theorem counter_run (hp : p ≠ []) (hq : ev.QuietAlong p) (habsent : ev.read p = none)
    (h : Run (Step env) ev tr t) {d : ℤ} {ds : List ℤ} (hds : deltas tr = d :: ds) :
    (d < 0 → ∃ n : Int64, t.read p = some (.i64 n) ∧
      ((∀ l, l <+: d :: ds → FitsI64 l.sum) → n.toInt = (d :: ds).sum)) ∧
    (0 ≤ d → ∃ n : UInt64, t.read p = some (.u64 n) ∧
      ((∀ x ∈ tr, ¬ x.2.AtMax x.1) →
        (n.toNat : ℤ) = ds.foldl (fun v x ↦ clampU64 (v + x)) d)) := by
  have hstart : ev.QuietAlong p ∧ Counted (∀ x ∈ tr, ¬ x.2.AtMax x.1) [] (ev.read p) :=
    ⟨hq, habsent⟩
  have hrun := h.history (fun a ↦ a.delta.toList)
    (I := fun ds s ↦ s.QuietAlong p ∧ Counted (∀ x ∈ tr, ¬ x.2.AtMax x.1) ds (s.read p))
    (C := fun s a ↦ (∀ x ∈ tr, ¬ x.2.AtMax x.1) → ¬ a.AtMax s)
    (fun hstep hmax hs ↦ Counted.step hp hstep hmax hs) hstart
    fun x hx hall ↦ hall x hx
  rw [List.nil_append] at hrun
  have hcounted : Counted (∀ x ∈ tr, ¬ x.2.AtMax x.1) (deltas tr) (t.read p) := hrun.2
  rw [hds] at hcounted
  exact hcounted

/-- A counter that starts at one and goes below zero. -/
theorem counter_run_sample :
    let p : List TestKey := [.details, .count]
    let ev₁ := WideEvent.new.insert p (.u64 1)
    let ev₂ := ev₁.insert p (.u64 0)
    let tr : List (WideEvent TestKey × CounterStep p) :=
      [(.new, .count .inc 1 rfl), (ev₁, .count (.add (-5)) (-5) rfl)]
    Run (Step .release) .new tr ev₂ ∧ ∃ n : UInt64, ev₂.read p = some (.u64 n) ∧
      (n.toNat : ℤ) = clampU64 (1 + -5) := by
  intro p ev₁ ev₂ tr
  have hrun : Run (Step .release) .new tr ev₂ := .cons rfl (.cons rfl (.nil _))
  have hquiet : (WideEvent.new : WideEvent TestKey).QuietAlong p := ⟨rfl, rfl, trivial⟩
  have hds : deltas tr = [1, -5] := rfl
  obtain ⟨n, hread, hn⟩ := (counter_run (by decide) hquiet rfl hrun hds).2 (by decide)
  refine ⟨hrun, n, hread, hn ?_⟩
  rw [List.forall_mem_cons, List.forall_mem_singleton]
  exact ⟨fun ⟨_, hold, _⟩ ↦ (nomatch hold), id⟩

end CounterStep

end WideLog
