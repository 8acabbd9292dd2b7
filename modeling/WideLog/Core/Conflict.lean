import WideLog.Core.TreeMap

/-!
# Conflict callbacks

`object` calls the conflict callback of an event before it replaces a value that is not an
object.  A callback has the whole event and may do anything to it, so what it does stays a
parameter here.  A descent meets one such value at most: below it nothing is stored, and
what takes its place is empty.
-/

namespace WideLog

variable {K : Type}

/-- The same build, with callbacks that do nothing. -/
def Env.silent (env : Env K) : Env K := { env with conflict := fun _ ev _ ↦ .ret ev }

theorem Value.exists_object {v : Value K} (hv : v.isObject = true) :
    ∃ child, v = .object child := by
  cases v with
  | object child => exact ⟨child, rfl⟩
  | _ => cases hv

variable [Key K] (env : Env K)

namespace WideEvent

/-- The conflict branch of `object`: the callback runs, and an empty object takes the place
of whatever is in the slot then. -/
def resolve (key : K) (ev : WideEvent K) : Outcome (WideEvent K) :=
  (ev.fireConflict env key).bind (·.replaceWithChild (Key.asIndex key) false)

/-- Where a descent meets a value that is not an object: the path of the event that holds
it, and the key it is at. -/
def conflictAt : List K → WideEvent K → Option (List K × K)
  | [], _ => none
  | seg :: segs, ev => match ev.slot (Key.asIndex seg) with
    | none => none
    | some (.object child) => (child.conflictAt segs).map fun c ↦ (seg :: c.1, c.2)
    | some _ => some ([], seg)

/-- A mutation of the event at a path of keys. -/
def atEvent (f : WideEvent K → Outcome (WideEvent K)) :
    List K → WideEvent K → Outcome (WideEvent K)
  | [], ev => f ev
  | seg :: segs, ev => match ev.slot (Key.asIndex seg) with
    | some (.object child) =>
        (atEvent f segs child).map fun child ↦ ev.put (Key.asIndex seg) (.object child)
    | _ => .ret ev

/-- What a descent resolves on its way. -/
def settle (segs : List K) (ev : WideEvent K) : Outcome (WideEvent K) :=
  (ev.conflictAt segs).elim (.ret ev) fun c ↦ ev.atEvent (resolve env c.2) c.1

variable {env} {ev child : WideEvent K} {key : K} {v : Value K}
  {k : WideEvent K → Outcome (WideEvent K)}

/-! ## What a step of the descent does -/

omit [Key K] in
theorem ensureCapacity_of_slot {i : ℕ} (hs : ev.slot i = some v) : ev.ensureCapacity i = ev :=
  if_neg (Nat.not_le.mpr (List.getElem?_eq_some_iff.mp (Option.join_eq_some_iff.mp hs)).1)

/-- An object is entered, whatever callback the event has. -/
theorem object_of_object (hs : ev.slot (Key.asIndex key) = some (.object child)) :
    ev.object env key k =
      (k child).map fun child ↦ ev.put (Key.asIndex key) (.object child) := by
  simpa [object, hs, Value.isObject] using enter_ensureCapacity hs k

/-- An empty slot is no conflict. -/
theorem object_of_none (hs : ev.slot (Key.asIndex key) = none) :
    ev.object env key k =
      (k ev.newChild).map fun child ↦ ev.put (Key.asIndex key) (.object child) := by
  have hfire : (ev.ensureCapacity (Key.asIndex key)).fireConflict env key =
      .ret (ev.ensureCapacity (Key.asIndex key)) := by
    unfold fireConflict
    split <;> simp [hs]
  simpa [object, hs, hfire] using replaceWithChild_enter (Key.asIndex key) ev k

/-- Any other value is resolved first, and the empty object in its place is entered. -/
theorem object_of_conflict {k' : WideEvent K → Outcome (WideEvent K)}
    (hs : ev.slot (Key.asIndex key) = some v) (hv : v.isObject = false)
    (hk : ∀ ev : WideEvent K, k ev.newChild = k' ev.newChild) :
    ev.object env key k = (ev.resolve env key).bind (·.object env.silent key k') := by
  have hentered : ev.object env key k =
      (ev.resolve env key).bind (·.enter (Key.asIndex key) k) := by
    have hgrown := ensureCapacity_of_slot hs
    simp only [object, resolve, hgrown, hs, hv]
    rfl
  rw [hentered]
  unfold resolve
  cases ev.fireConflict env key with
  | panic => rfl
  | ret called =>
      rw [Outcome.bind_ret]
      unfold replaceWithChild
      split_ifs with hlen
      · let placed := called.store (Key.asIndex key) (.object called.newChild) false
        have hslot : placed.slot (Key.asIndex key) = some (.object called.newChild) := by
          simp [placed, slot, store, hlen]
        show placed.enter _ k = placed.object env.silent key k'
        rw [object_of_object hslot, ← hk, ← enter_ensureCapacity hslot,
          ensureCapacity_of_slot hslot]
      · -- the callback took the slot away
        rfl

/-! ## The descent -/

@[simp] theorem conflictAt_newChild (segs : List K) (ev : WideEvent K) :
    ev.newChild.conflictAt segs = none := by
  cases segs with
  | nil => rfl
  | cons => simp [conflictAt]

theorem settle_of_none {segs : List K} (h : ev.conflictAt segs = none) :
    ev.settle env segs = .ret ev := by
  rw [settle, h]
  rfl

/-- What is met below an object is resolved there. -/
theorem settle_of_object {segs : List K} (hs : ev.slot (Key.asIndex key) = some (.object child)) :
    ev.settle env (key :: segs) =
      (child.settle env segs).map fun child ↦ ev.put (Key.asIndex key) (.object child) := by
  have hconflict : ev.conflictAt (key :: segs) =
      (child.conflictAt segs).map fun c ↦ (key :: c.1, c.2) := by
    simp only [conflictAt, hs]
  cases hchild : child.conflictAt segs with
  | none =>
      rw [hchild] at hconflict
      rw [settle_of_none hconflict, settle_of_none hchild, Outcome.map_ret, put_of_slot hs]
  | some c =>
      rw [settle, settle, hconflict, hchild]
      show atEvent (resolve env c.2) (key :: c.1) ev = (atEvent (resolve env c.2) c.1 child).map _
      simp only [atEvent, hs]

theorem conflictAt_of_conflict {segs : List K} (hs : ev.slot (Key.asIndex key) = some v)
    (hv : v.isObject = false) : ev.conflictAt (key :: segs) = some ([], key) := by
  cases v with
  | object => cases hv
  | _ => simp only [conflictAt, hs]

theorem settle_of_conflict {segs : List K} (hs : ev.slot (Key.asIndex key) = some v)
    (hv : v.isObject = false) : ev.settle env (key :: segs) = ev.resolve env key := by
  rw [settle, conflictAt_of_conflict hs hv]
  rfl

/-- A descent resolves what it meets, and goes on as if there were no callbacks. -/
theorem descendLoop_eq_settle (segs : List K) (ev : WideEvent K) :
    descendLoop env segs k ev = (ev.settle env segs).bind (descendLoop env.silent segs k) := by
  induction segs generalizing ev with
  | nil => rfl
  | cons key segs ih =>
      have hfresh (ev : WideEvent K) :
          descendLoop env segs k ev.newChild = descendLoop env.silent segs k ev.newChild := by
        rw [ih, settle_of_none (conflictAt_newChild segs ev), Outcome.bind_ret]
      cases hs : ev.slot (Key.asIndex key) with
      | none =>
          have hconflict : ev.conflictAt (key :: segs) = none := by simp only [conflictAt, hs]
          rw [settle_of_none hconflict, Outcome.bind_ret, descendLoop, descendLoop,
            object_of_none hs, object_of_none hs, hfresh]
      | some v =>
          cases hv : v.isObject with
          | false =>
              rw [settle_of_conflict hs hv, descendLoop, object_of_conflict hs hv hfresh]
              rfl
          | true =>
              obtain ⟨child, rfl⟩ := Value.exists_object hv
              rw [settle_of_object hs, descendLoop, object_of_object hs, ih]
              cases child.settle env segs with
              | panic => rfl
              | ret settled =>
                  rw [Outcome.bind_ret, Outcome.map_ret, Outcome.bind_ret, descendLoop,
                    object_of_object (slot_put_self _ _ _)]
                  simp only [put_put_self]

theorem conflictAt_eq_here {seg : K} {segs : List K} :
    ev.conflictAt (seg :: segs) = some ([], key) ↔
      seg = key ∧ ∃ v, ev.slot (Key.asIndex key) = some v ∧ v.isObject = false := by
  cases hs : ev.slot (Key.asIndex seg) with
  | none =>
      refine iff_of_false (by simp [conflictAt, hs]) ?_
      rintro ⟨rfl, v, hv, -⟩
      cases hs.symm.trans hv
  | some v =>
      cases hv : v.isObject with
      | false =>
          rw [conflictAt_of_conflict hs hv]
          constructor
          · rintro ⟨⟩
            exact ⟨rfl, v, hs, hv⟩
          · rintro ⟨rfl, -⟩
            rfl
      | true =>
          obtain ⟨child, rfl⟩ := Value.exists_object hv
          refine iff_of_false (by simp [conflictAt, hs]) ?_
          rintro ⟨rfl, v, hslot, hv⟩
          cases hs.symm.trans hslot
          cases hv

theorem conflictAt_eq_below {seg l : K} {segs p : List K} :
    ev.conflictAt (seg :: segs) = some (l :: p, key) ↔
      seg = l ∧ (ev.childAt (Key.asIndex seg)).conflictAt segs = some (p, key) := by
  rcases ev.childAt_cases (Key.asIndex seg) with ⟨child, hs, hc⟩ | ⟨hs, hc⟩
  · rw [hc]
    simp only [conflictAt, hs, Option.map_eq_some_iff]
    constructor
    · rintro ⟨c, hchild, ⟨⟩⟩
      exact ⟨rfl, hchild⟩
    · rintro ⟨rfl, hchild⟩
      exact ⟨(p, key), hchild, rfl⟩
  · -- below what is not an object nothing is met
    rw [hc, conflictAt_newChild]
    refine iff_of_false ?_ nofun
    unfold conflictAt
    split <;> simp_all

/-- The value that is met is the one on the way that is not an object. -/
theorem conflictAt_eq_some_iff {segs p : List K} :
    ev.conflictAt segs = some (p, key) ↔
      p ++ [key] <+: segs ∧ ∃ v, ev.read (p ++ [key]) = some v ∧ v.isObject = false := by
  induction segs generalizing ev p with
  | nil => simp [conflictAt]
  | cons seg segs ih =>
      cases p with
      | nil =>
          rw [conflictAt_eq_here, List.nil_append, List.cons_prefix_cons, read_singleton,
            eq_comm (a := seg), and_iff_left List.nil_prefix]
      | cons l p =>
          rw [conflictAt_eq_below, ih, List.cons_append, List.cons_prefix_cons,
            read_cons (by simp), and_assoc, eq_comm (a := seg)]
          refine and_congr_right fun hseg ↦ ?_
          rw [hseg]

end WideEvent

/-- **A field operation meets one conflict at most.**  Whatever callbacks the events on the
way have, and whatever these do, the operation is the resolution of the one value above
the end of the path that is not an object, if there is one, by the callback of the event
that holds it; and from there on what it is when callbacks do nothing. -/
theorem FieldOp.run_eq_settle (op : FieldOp K) (path : List K) (ev : WideEvent K) :
    op.run env path ev = (ev.settle env path.dropLast).bind (op.run env.silent path) ∧
      ∀ p key, ev.conflictAt path.dropLast = some (p, key) ↔
        p ++ [key] <+: path.dropLast ∧ ∃ v, ev.read (p ++ [key]) = some v ∧ v.isObject = false := by
  refine ⟨?_, fun _ _ ↦ WideEvent.conflictAt_eq_some_iff⟩
  have hkey : op.atKey env.silent = op.atKey env := by
    cases op <;> rfl
  rcases List.eq_nil_or_concat' path with rfl | ⟨segs, key, rfl⟩
  · rw [run_eq_atPath, run_eq_atPath, WideEvent.atPath_nil]
    exact (WideEvent.atPath_nil env.silent _ ev).symm
  · have hrun (env : Env K) (ev : WideEvent K) :
        op.run env (segs ++ [key]) ev = WideEvent.descendLoop env segs (op.atKey env key) ev := by
      rw [run_eq_atPath, WideEvent.atPath_concat]
    rw [List.dropLast_concat, hrun, WideEvent.descendLoop_eq_settle]
    refine congrArg _ (funext fun ev ↦ ?_)
    rw [hrun, hkey]

end WideLog
