import WideLog.Core.Guard

/-!
# Keys are slots

An event is a vector, and a key is the number of a slot of it.  Whatever the keys are
called, and whatever enum they are variants of, an operation does the same to the slots.
-/

namespace WideLog

variable {K K' : Type}

/-- The callback of an address, for other keys. -/
def ConflictFn.rekey (cb : ConflictFn K) : ConflictFn K' := ⟨cb.addr⟩

mutual

/-- A value with the same slots, for other keys. -/
def Value.rekey : Value K → Value K'
  | .null => .null
  | .bool b => .bool b
  | .i64 n => .i64 n
  | .u64 n => .u64 n
  | .f64 x => .f64 x
  | .str s => .str s
  | .staticStr s => .staticStr s
  | .array arr => .array (rekeyElements arr)
  | .object obj => .object obj.rekey
termination_by structural v => v

def rekeyElements : List (Value K) → List (Value K')
  | [] => []
  | v :: vs => v.rekey :: rekeyElements vs
termination_by structural vs => vs

/-- An event with the same slots, for other keys. -/
def WideEvent.rekey : WideEvent K → WideEvent K'
  | ⟨values, logEntries, onTypeConflict, presentCount⟩ =>
      ⟨rekeySlots values, logEntries, onTypeConflict.map ConflictFn.rekey, presentCount⟩
termination_by structural ev => ev

def rekeySlots : List (Option (Value K)) → List (Option (Value K'))
  | [] => []
  | none :: slots => none :: rekeySlots slots
  | some v :: slots => some v.rekey :: rekeySlots slots
termination_by structural slots => slots

end

/-- An operation for other keys. -/
def FieldOp.rekey : FieldOp K → FieldOp K'
  | .set v => .set v.rekey
  | .inc => .inc
  | .dec => .dec
  | .add n => .add n

theorem rekeySlots_eq_map (slots : List (Option (Value K))) :
    (rekeySlots slots : List (Option (Value K'))) = slots.map (Option.map Value.rekey) := by
  induction slots with
  | nil => rfl
  | cons slot slots ih =>
      cases slot with
      | none => rw [rekeySlots, ih, List.map_cons, Option.map_none]
      | some v => rw [rekeySlots, ih, List.map_cons, Option.map_some]

@[simp] theorem Value.isObject_rekey (v : Value K) :
    (v.rekey : Value K').isObject = v.isObject := by
  cases v <;> rfl

/-! ## The parts of an event -/

namespace WideEvent

theorem values_rekey (ev : WideEvent K) :
    (ev.rekey : WideEvent K').values = ev.values.map (Option.map Value.rekey) := by
  obtain ⟨values, logEntries, cb, n⟩ := ev
  exact rekeySlots_eq_map values

@[simp] theorem logEntries_rekey (ev : WideEvent K) :
    (ev.rekey : WideEvent K').logEntries = ev.logEntries := by
  cases ev
  rfl

@[simp] theorem onTypeConflict_rekey (ev : WideEvent K) :
    (ev.rekey : WideEvent K').onTypeConflict = ev.onTypeConflict.map ConflictFn.rekey := by
  cases ev
  rfl

@[simp] theorem presentCount_rekey (ev : WideEvent K) :
    (ev.rekey : WideEvent K').presentCount = ev.presentCount := by
  cases ev
  rfl

@[simp] theorem length_values_rekey (ev : WideEvent K) :
    (ev.rekey : WideEvent K').values.length = ev.values.length := by
  rw [values_rekey, List.length_map]

@[simp] theorem slot_rekey (ev : WideEvent K) (i : ℕ) :
    (ev.rekey : WideEvent K').slot i = (ev.slot i).map Value.rekey := by
  rw [slot, slot, values_rekey, List.getElem?_map]
  cases ev.values[i]? <;> rfl

@[simp] theorem rekey_newChild (ev : WideEvent K) :
    (ev.rekey : WideEvent K').newChild = ev.newChild.rekey := by
  cases ev
  rfl

@[simp] theorem rekey_ensureCapacity (i : ℕ) (ev : WideEvent K) :
    (ev.rekey : WideEvent K').ensureCapacity i = (ev.ensureCapacity i).rekey := by
  unfold ensureCapacity
  rw [length_values_rekey]
  split_ifs with hlen
  · apply ext
    · rw [values_rekey, values_rekey, List.map_append, List.map_replicate]
      rfl
    · simp
    · simp
    · simp
  · rfl

@[simp] theorem rekey_store (i : ℕ) (v : Value K) (prevNone : Bool) (ev : WideEvent K) :
    (ev.rekey : WideEvent K').store i v.rekey prevNone = (ev.store i v prevNone).rekey := by
  unfold store
  apply ext
  · rw [values_rekey, values_rekey, List.map_set, Option.map_some]
  · simp
  · simp
  · simp

theorem rekey_replaceWithChild (i : ℕ) (prevNone : Bool) (ev : WideEvent K) :
    (ev.rekey : WideEvent K').replaceWithChild i prevNone =
      (ev.replaceWithChild i prevNone).map rekey := by
  unfold replaceWithChild
  rw [length_values_rekey, rekey_newChild]
  split_ifs
  · exact congrArg Outcome.ret (rekey_store i (.object ev.newChild) prevNone ev)
  · rfl

/-- The nested event in a slot. -/
theorem rekey_enter {k : WideEvent K → Outcome (WideEvent K)}
    {k' : WideEvent K' → Outcome (WideEvent K')} (hk : ∀ ev, k' ev.rekey = (k ev).map rekey)
    (i : ℕ) (ev : WideEvent K) : ev.rekey.enter i k' = (ev.enter i k).map rekey := by
  unfold enter
  rw [slot_rekey]
  cases ev.slot i with
  | none => rfl
  | some v =>
      cases v with
      | object child =>
          show (k' child.rekey).map _ = ((k child).map _).map _
          rw [hk]
          cases k child with
          | ret child => exact congrArg Outcome.ret (rekey_store i (.object child) false ev)
          | panic child => exact congrArg Outcome.panic (rekey_store i (.object child) false ev)
      | _ => rfl

end WideEvent

/-- The same slots under other keys. -/
structure Rekeying (K K' : Type) [Key K] [Key K'] where
  key : K → K'
  asIndex : ∀ k, Key.asIndex (key k) = Key.asIndex k

variable [Key K] [Key K']

/-- The same build, with callbacks that do the same to the slots. -/
structure Env.Rekeys (e : Rekeying K K') (env : Env K) (env' : Env K') : Prop where
  debugAssertions : env'.debugAssertions = env.debugAssertions
  overflowChecks : env'.overflowChecks = env.overflowChecks
  conflict : ∀ cb ev k,
    env'.conflict cb.rekey ev.rekey (e.key k) = (env.conflict cb ev k).map WideEvent.rekey

variable {e : Rekeying K K'} {env : Env K} {env' : Env K'}

namespace WideEvent

/-- The slot mutators. -/
theorem rekey_update {f : Option (Value K) → Option (Value K)}
    {f' : Option (Value K') → Option (Value K')}
    (h : ∀ old, f' (old.map Value.rekey) = (f old).map Value.rekey) (key : K)
    (ev : WideEvent K) : ev.rekey.update f' (e.key key) = (ev.update f key).map rekey := by
  unfold update
  simp only [e.asIndex, rekey_ensureCapacity, slot_rekey, h, Option.isNone_map]
  cases f ((ev.ensureCapacity (Key.asIndex key)).slot (Key.asIndex key)) with
  | none => rfl
  | some v => exact congrArg Outcome.ret (rekey_store ..)

theorem rekey_add (key : K) (v : Value K) (ev : WideEvent K) :
    ev.rekey.add (e.key key) v.rekey = (ev.add key v).map rekey :=
  rekey_update (f := fun _ ↦ some v) (fun _ ↦ rfl) key ev

theorem rekey_fireConflict (henv : env.Rekeys e env') (key : K) (ev : WideEvent K) :
    ev.rekey.fireConflict env' (e.key key) = (ev.fireConflict env key).map rekey := by
  unfold fireConflict
  rw [onTypeConflict_rekey, e.asIndex, slot_rekey, Option.isSome_map]
  cases ev.onTypeConflict with
  | none => rfl
  | some cb =>
      show (if _ then _ else _) = Outcome.map _ (if _ then _ else _)
      split_ifs
      · exact henv.conflict cb ev key
      · rfl

theorem rekey_object (henv : env.Rekeys e env') {k : WideEvent K → Outcome (WideEvent K)}
    {k' : WideEvent K' → Outcome (WideEvent K')} (hk : ∀ ev, k' ev.rekey = (k ev).map rekey)
    (key : K) (ev : WideEvent K) :
    ev.rekey.object env' (e.key key) k' = (ev.object env key k).map rekey := by
  unfold object
  simp only [e.asIndex, rekey_ensureCapacity, slot_rekey, Option.isNone_map]
  refine Outcome.bind_map ?_ (rekey_enter hk _)
  generalize ev.ensureCapacity (Key.asIndex key) = ev
  have hreplaced (prevNone : Bool) :
      (ev.rekey.fireConflict env' (e.key key)).bind
          (·.replaceWithChild (Key.asIndex key) prevNone) =
        ((ev.fireConflict env key).bind
          (·.replaceWithChild (Key.asIndex key) prevNone)).map rekey :=
    Outcome.bind_map (rekey_fireConflict henv key ev) (rekey_replaceWithChild _ _)
  cases ev.slot (Key.asIndex key) with
  | none => exact hreplaced true
  | some v =>
      simp only [Option.map_some, Value.isObject_rekey]
      split_ifs
      · exact hreplaced false
      · rfl

theorem rekey_descendLoop (henv : env.Rekeys e env') {k : WideEvent K → Outcome (WideEvent K)}
    {k' : WideEvent K' → Outcome (WideEvent K')} (hk : ∀ ev, k' ev.rekey = (k ev).map rekey)
    (segs : List K) (ev : WideEvent K) :
    descendLoop env' (segs.map e.key) k' ev.rekey = (descendLoop env segs k ev).map rekey := by
  induction segs generalizing ev with
  | nil => exact hk ev
  | cons seg segs ih => exact rekey_object henv ih seg ev

theorem initSlice_rekey (henv : env.Rekeys e env') (path : List K) :
    initSlice env' (path.map e.key) = (initSlice env path).map (List.map e.key) := by
  simp only [initSlice, henv.overflowChecks, List.length_map, Option.map_bind]
  refine congrArg (Option.bind _) (funext fun stop ↦ ?_)
  show (if _ then _ else _) = Option.map _ (if _ then _ else _)
  split_ifs
  · rw [Option.map_some, List.map_take]
  · rfl

/-- The path methods. -/
theorem rekey_atPath (henv : env.Rekeys e env') {op : K → WideEvent K → Outcome (WideEvent K)}
    {op' : K' → WideEvent K' → Outcome (WideEvent K')}
    (hop : ∀ key ev, op' (e.key key) ev.rekey = (op key ev).map rekey) (path : List K)
    (ev : WideEvent K) :
    atPath env' op' (path.map e.key) ev.rekey = (atPath env op path ev).map rekey := by
  have hvia : viaDescend env' op' (path.map e.key) ev.rekey =
      (viaDescend env op path ev).map rekey := by
    unfold viaDescend descendMut
    rw [initSlice_rekey henv, List.getLast?_map]
    cases initSlice env path with
    | none => rfl
    | some segs =>
        refine rekey_descendLoop henv (fun target ↦ ?_) segs ev
        cases path.getLast? with
        | none => rfl
        | some key => exact hop key target
  unfold atPath
  rw [henv.debugAssertions, List.isEmpty_map]
  split_ifs
  · rfl
  · rcases path with - | ⟨k₀, - | ⟨k₁, - | ⟨k₂, path⟩⟩⟩
    · exact hvia
    · exact hop k₀ ev
    · exact rekey_object henv (hop k₁) k₀ ev
    · exact hvia

theorem rekey_addPath (henv : env.Rekeys e env') (path : List K) (v : Value K)
    (ev : WideEvent K) :
    ev.rekey.addPath env' (path.map e.key) v.rekey = (ev.addPath env path v).map rekey :=
  rekey_atPath henv (fun key ev ↦ rekey_add key v ev) path ev

end WideEvent

namespace WideEvent

end WideEvent

end WideLog
