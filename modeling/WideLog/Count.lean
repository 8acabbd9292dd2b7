import WideLog.Core.Guard
import WideLog.Serialize.Serde

/-!
# The cached count

Every mutator keeps the cached count of an event exact, at every level, and so the
length hint of the `Serialize` implementation.  The writes of a dropped guard do
not always: the fast path counts a slot that held a scalar, and counts a slot
twice that both paths start with.
-/

namespace WideLog

variable {K : Type} [Key K]

namespace WideEvent

/-- The cached count is exact, and the hint is the number of entries that follow. -/
def HintExact (ev : WideEvent K) : Prop :=
  ev.CountExact ∧ ∃ entries, ev.serialize = .map (some entries.length) entries

/-- What the mutators maintain: no conflict callback, an exact count, and no slots
beyond those of the keys. -/
structure Tidy (ev : WideEvent K) : Prop where
  quiet : ev.onTypeConflict = none
  exact : ev.CountExact
  fits : ev.values.length ≤ (Key.keys : List K).length

/-- The condition on the event a guard is dropped with.  It matters only where both
paths have two segments: then the slots they start with hold objects or nothing,
and an object if they start with the same key. -/
def DropCounts (ev : WideEvent K) : Prop :=
  match (Key.durationPath : List K), (Key.timestampPath : List K) with
  | [d₀, _], [t₀, _] =>
      if Key.asIndex d₀ = Key.asIndex t₀ then
        ∃ child, ev.slot (Key.asIndex d₀) = some (.object child)
      else (∀ v, ev.slot (Key.asIndex d₀) = some v → v.isObject) ∧
        ∀ v, ev.slot (Key.asIndex t₀) = some v → v.isObject
  | _, _ => True

end WideEvent

mutual

/-- The events that operations build from an empty one.  An operation that panics
leaves an event too.  Guards are dropped as `DropCounts` asks. -/
inductive Reachable (env : Env K) : WideEvent K → Prop
  | new : Reachable env .new
  | run {ev : WideEvent K} {op : FieldOp K} (path : List K)
      (hop : ∀ v, op = .set v → Insertable env v) (h : Reachable env ev) :
      Reachable env (op.run env path ev).state
  | appendLogEntry {ev : WideEvent K} (level message : String) (h : Reachable env ev) :
      Reachable env (ev.appendLogEntry level message)
  | appendLogEntryStatic {ev : WideEvent K} (level message : String) (h : Reachable env ev) :
      Reachable env (ev.appendLogEntryStatic level message)
  | dropWrites {ev : WideEvent K} (elapsed : String → F64) (now : String)
      (hdrop : ev.DropCounts) (h : Reachable env ev) :
      Reachable env (ev.dropWrites env elapsed now).state

/-- The values that operations insert: their objects are such events. -/
inductive Insertable (env : Env K) : Value K → Prop
  | null : Insertable env .null
  | bool (b : Bool) : Insertable env (.bool b)
  | i64 (n : Int64) : Insertable env (.i64 n)
  | u64 (n : UInt64) : Insertable env (.u64 n)
  | f64 (x : F64) : Insertable env (.f64 x)
  | str (s : String) : Insertable env (.str s)
  | staticStr (s : String) : Insertable env (.staticStr s)
  | array {arr : List (Value K)} (h : ∀ v ∈ arr, Insertable env v) : Insertable env (.array arr)
  | object {ev : WideEvent K} (h : Reachable env ev) : Insertable env (.object ev)

end

namespace WideEvent

/-! ## The invariant -/

theorem asIndex_lt (k : K) : Key.asIndex k < (Key.keys : List K).length := by
  obtain ⟨h, -⟩ := List.getElem?_eq_some_iff.mp (Key.keys_asIndex k)
  exact h

theorem tidy_new : (new : WideEvent K).Tidy := ⟨rfl, countExact_new, Nat.zero_le _⟩

theorem stable_tidy : Stable (Tidy : WideEvent K → Prop) where
  put ev k v h := by
    refine ⟨by rw [onTypeConflict_put, h.quiet], h.exact.put _ _, ?_⟩
    have := asIndex_lt k
    have := h.fits
    rw [length_put]
    omega
  grow ev k h := by
    refine ⟨by rw [onTypeConflict_ensureCapacity, h.quiet], ?_, ?_⟩
    · rw [CountExact, presentCount_ensureCapacity, countSome_ensureCapacity]
      exact h.exact
    · have := asIndex_lt k
      have := h.fits
      rw [length_ensureCapacity]
      omega
  newChild ev h := ⟨h.quiet, rfl, Nat.zero_le _⟩

/-- The entries of the slots are as many as the present slots, if these fit the keys. -/
theorem length_serializeSlots {keys : List K} {slots : List (Option (Value K))}
    (h : slots.length ≤ keys.length) :
    (serializeSlots keys slots).length = slots.countP Option.isSome := by
  induction slots generalizing keys with
  | nil => cases keys <;> rfl
  | cons slot slots ih =>
      cases keys with
      | nil => simp at h
      | cons key keys =>
          have hlen : slots.length ≤ keys.length := by simpa using h
          cases slot with
          | none => simpa [serializeSlots] using ih hlen
          | some v => simpa [serializeSlots] using ih hlen

/-- In a tidy event the hint is exact. -/
theorem Tidy.hintExact {ev : WideEvent K} (h : ev.Tidy) : ev.HintExact := by
  refine ⟨h.exact, ?_⟩
  obtain ⟨values, logEntries, cb, presentCount⟩ := ev
  refine ⟨serializeSlots Key.keys values ++ serializeLog K logEntries, ?_⟩
  have hcount : presentCount = values.countP Option.isSome := h.exact
  have hlog : (serializeLog K logEntries).length = if logEntries.isEmpty then 0 else 1 := by
    unfold serializeLog
    split_ifs <;> rfl
  rw [serialize, List.length_append, length_serializeSlots h.fits, hcount, hlog]

theorem Everywhere.hintExact {ev : WideEvent K} (h : ev.Everywhere Tidy) :
    ev.Everywhere HintExact := h.mono fun _ ↦ Tidy.hintExact

/-- A log append changes neither slots nor count. -/
theorem Everywhere.appendLog {ev ev' : WideEvent K} (h : ev.Everywhere Tidy)
    (hv : ev'.values = ev.values) (hc : ev'.onTypeConflict = ev.onTypeConflict)
    (hp : ev'.presentCount = ev.presentCount) : ev'.Everywhere Tidy := by
  refine .mk ⟨?_, ?_, ?_⟩ fun v hmem ↦ h.values (hv ▸ hmem)
  · rw [hc, h.here.quiet]
  · rw [CountExact, countSome, hp, hv]
    exact h.here.exact
  · rw [hv]
    exact h.here.fits

/-! ## The drop -/

/-- The slow path: two path writes. -/
theorem everywhere_addPaths (env : Env K) (p q : List K) {v w : Value K}
    (hv : v.Everywhere Tidy) (hw : w.Everywhere Tidy) {ev : WideEvent K}
    (h : ev.Everywhere Tidy) :
    ((ev.addPath env p v).bind fun ev ↦ ev.addPath env q w).state.Everywhere Tidy := by
  have hstep (p : List K) {v : Value K} (hv : v.Everywhere Tidy) {ev : WideEvent K}
      (h : ev.Everywhere Tidy) : (ev.addPath env p v).state.Everywhere Tidy :=
    (FieldOp.set v).everywhere_run env stable_tidy (fun _ ↦ Tidy.quiet)
      (fun _ he ↦ by cases he; exact hv) p h
  have hp := hstep p hv h
  cases hrun : ev.addPath env p v with
  | ret ev' =>
      rw [hrun] at hp
      exact hstep q hw hp
  | panic ev' =>
      rw [hrun] at hp
      exact hp

omit [Key K] in
/-- The two counts of the fast path are right under the condition of `DropCounts`. -/
theorem needsChild_count_iff (d t : ℕ) (ev : WideEvent K) :
    (ev.needsChild d).toNat + (ev.needsChild t).toNat =
      (if (ev.slot d).isNone then 1 else 0) +
        (if d = t then 0 else if (ev.slot t).isNone then 1 else 0) ↔
    if d = t then ∃ child, ev.slot d = some (.object child)
    else (∀ v, ev.slot d = some v → v.isObject) ∧ ∀ v, ev.slot t = some v → v.isObject := by
  -- a slot is absent, or holds an object, or a scalar
  have hcases (i : ℕ) : (ev.slot i = none ∧ ev.needsChild i = true) ∨
      (∃ child, ev.slot i = some (.object child) ∧ ev.needsChild i = false) ∨
      ∃ v, ev.slot i = some v ∧ v.isObject = false ∧ ev.needsChild i = true := by
    unfold needsChild
    rcases ev.slot i with _ | v
    · exact .inl ⟨rfl, rfl⟩
    · cases v <;> simp [Value.isObject]
  by_cases hdt : d = t
  · subst hdt
    rcases hcases d with ⟨hs, hn⟩ | ⟨child, hs, hn⟩ | ⟨v, hs, hv, hn⟩
    · simp [hs, hn]
    · simp [hs, hn]
    · have hne : ∀ child, v ≠ .object child := by
        rintro child rfl
        exact Bool.noConfusion hv
      simpa [hs, hn] using hne
  · rcases hcases d with ⟨hs, hn⟩ | ⟨child, hs, hn⟩ | ⟨v, hs, hv, hn⟩ <;>
      rcases hcases t with ⟨hs', hn'⟩ | ⟨child', hs', hn'⟩ | ⟨v', hs', hv', hn'⟩ <;>
      simp_all [Value.isObject]

/-- The fast path leaves exact counts exactly under the condition of `DropCounts`. -/
theorem everywhere_dropFast_iff (d₀ d₁ t₀ t₁ : K) {v w : Value K} (hv : v.Everywhere Tidy)
    (hw : w.Everywhere Tidy) {ev : WideEvent K} (h : ev.Everywhere Tidy) :
    ((ev.dropFast d₀ d₁ t₀ t₁ v w).state.Everywhere HintExact ↔
      if Key.asIndex d₀ = Key.asIndex t₀ then
        ∃ child, ev.slot (Key.asIndex d₀) = some (.object child)
      else (∀ v, ev.slot (Key.asIndex d₀) = some v → v.isObject) ∧
        ∀ v, ev.slot (Key.asIndex t₀) = some v → v.isObject) ∧
    ((ev.dropFast d₀ d₁ t₀ t₁ v w).state.Everywhere HintExact →
      (ev.dropFast d₀ d₁ t₀ t₁ v w).state.Everywhere Tidy) := by
  set a := (ev.needsChild (Key.asIndex d₀)).toNat + (ev.needsChild (Key.asIndex t₀)).toNat with ha
  set ins := (ev.insert [d₀, d₁] v).insert [t₀, t₁] w with hins
  have htidy : ins.Everywhere Tidy := (h.insert stable_tidy hv _).insert stable_tidy hw _
  have hdrop : (ev.dropFast d₀ d₁ t₀ t₁ v w).state =
      { ins with presentCount := ev.presentCount + a } := by
    rw [dropFast_eq, Outcome.state_ret, Nat.add_assoc]
  have hcount : ins.presentCount = ev.presentCount +
      ((if (ev.slot (Key.asIndex d₀)).isNone then 1 else 0) +
        (if Key.asIndex d₀ = Key.asIndex t₀ then 0
          else if (ev.slot (Key.asIndex t₀)).isNone then 1 else 0)) := by
    obtain ⟨x, hx⟩ := insert_eq_put d₀ [d₁] v ev
    rw [hins, presentCount_insert, presentCount_insert, hx, Nat.add_assoc]
    by_cases hdt : Key.asIndex d₀ = Key.asIndex t₀
    · rw [if_pos hdt, ← hdt, slot_put_self]
      rfl
    · rw [if_neg hdt, slot_put_of_ne hdt]
  rw [← needsChild_count_iff, ← ha, hdrop]
  have hiff : WideEvent.Everywhere HintExact { ins with presentCount := ev.presentCount + a } ↔
      ev.presentCount + a = ins.presentCount := by
    constructor
    · intro hR
      have hcount' : ev.presentCount + a = ins.countSome := hR.here.1
      rw [hcount', ← htidy.here.exact]
    · intro heq
      rw [heq]
      exact htidy.hintExact
  constructor
  · rw [hiff, hcount]
    omega
  · intro hR
    rw [hiff.mp hR]
    exact htidy

/-- The drop leaves exact counts exactly if `DropCounts` holds, and then keeps the
invariant. -/
theorem everywhere_dropWrites_iff (env : Env K) (elapsed : String → F64) (now : String)
    {ev : WideEvent K} (h : ev.Everywhere Tidy) :
    ((ev.dropWrites env elapsed now).state.Everywhere HintExact ↔ ev.DropCounts) ∧
      (ev.DropCounts → (ev.dropWrites env elapsed now).state.Everywhere Tidy) := by
  by_cases hpair : ∃ d₀ d₁ t₀ t₁ : K, Key.durationPath = [d₀, d₁] ∧ Key.timestampPath = [t₀, t₁]
  · obtain ⟨d₀, d₁, t₀, t₁, hd, ht⟩ := hpair
    unfold dropWrites DropCounts
    rw [hd, ht]
    obtain ⟨hiff, htidy⟩ :=
      everywhere_dropFast_iff d₀ d₁ t₀ t₁ (.f64 (elapsed (Key.asStr d₁))) (.str now) h
    exact ⟨hiff, fun hdrop ↦ htidy (hiff.mpr hdrop)⟩
  · have hdrop : ev.DropCounts := by
      unfold DropCounts
      split
      next hd ht => exact (hpair ⟨_, _, _, _, hd, ht⟩).elim
      next => trivial
    suffices htidy : (ev.dropWrites env elapsed now).state.Everywhere Tidy from
      ⟨iff_of_true htidy.hintExact hdrop, fun _ ↦ htidy⟩
    unfold dropWrites
    split
    next => exact h
    next leaf hleaf =>
      dsimp only
      split
      next hd ht => exact (hpair ⟨_, _, _, _, hd, ht⟩).elim
      next => exact everywhere_addPaths env _ _ (.f64 _) (.str now) h

end WideEvent

/-! ## Reachable events -/

mutual

/-- Every reachable event keeps the invariant, at every level. -/
theorem Reachable.tidy {env : Env K} {ev : WideEvent K} :
    Reachable env ev → ev.Everywhere WideEvent.Tidy
  | .new => WideEvent.everywhere_new WideEvent.tidy_new rfl
  | .run path hop h => FieldOp.everywhere_run env _ WideEvent.stable_tidy
      (fun _ ↦ WideEvent.Tidy.quiet) (fun v hv ↦ Insertable.tidy (hop v hv)) path h.tidy
  | .appendLogEntry _ _ h => h.tidy.appendLog rfl rfl rfl
  | .appendLogEntryStatic _ _ h => h.tidy.appendLog rfl rfl rfl
  | .dropWrites elapsed now hdrop h =>
      (WideEvent.everywhere_dropWrites_iff env elapsed now h.tidy).2 hdrop

theorem Insertable.tidy {env : Env K} {v : Value K} :
    Insertable env v → v.Everywhere WideEvent.Tidy
  | .null => .null
  | .bool b => .bool b
  | .i64 n => .i64 n
  | .u64 n => .u64 n
  | .f64 x => .f64 x
  | .str s => .str s
  | .staticStr s => .staticStr s
  | .array h => .array fun v hv ↦ Insertable.tidy (h v hv)
  | .object h => .object h.tidy

end

/-- **The cached count is exact, up to the drop.**  In every reachable event, at every
level, the cached count is that of the present slots and the length hint that of
the entries serialized.  The event a guard leaves when it is dropped has exact
counts if and only if `DropCounts` holds of the event it was dropped with. -/
theorem count_exact_iff {env : Env K} {ev : WideEvent K} (h : Reachable env ev) :
    ev.Everywhere WideEvent.HintExact ∧
      ∀ (elapsed : String → F64) (now : String),
        (ev.dropWrites env elapsed now).state.Everywhere WideEvent.HintExact ↔ ev.DropCounts :=
  ⟨h.tidy.hintExact,
    fun elapsed now ↦ (WideEvent.everywhere_dropWrites_iff env elapsed now h.tidy).1⟩

/-- An event with a scalar in the slot that the duration path starts with. -/
def scalarDuration : WideEvent TestKey :=
  ((FieldOp.set (.u64 5)).run .release [.duration] .new).state

theorem reachable_scalarDuration : Reachable .release scalarDuration :=
  Reachable.run (K := TestKey) [.duration] (fun v hv ↦ by
    have : v = .u64 5 := by simpa using hv.symm
    rw [this]
    exact .u64 5) .new

theorem count_exact_iff_scalar :
    scalarDuration.Everywhere WideEvent.HintExact ∧
      ∀ (elapsed : String → F64) (now : String),
        (scalarDuration.dropWrites .release elapsed now).state.Everywhere
          WideEvent.HintExact ↔ scalarDuration.DropCounts :=
  count_exact_iff reachable_scalarDuration

/-- The drop of this event counts three slots where two are present. -/
theorem count_not_exact :
    ¬ ∀ (env : Env TestKey) (ev : WideEvent TestKey), Reachable env ev →
      ∀ (elapsed : String → F64) (now : String),
        (ev.dropWrites env elapsed now).state.Everywhere WideEvent.HintExact := by
  intro h
  have hcount := (h _ _ reachable_scalarDuration (fun _ ↦ ⟨0⟩) "now").here.1
  exact absurd hcount (by unfold WideEvent.CountExact; decide +kernel)

end WideLog
