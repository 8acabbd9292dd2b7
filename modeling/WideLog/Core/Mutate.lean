import WideLog.Core.Event

/-!
# The mutators of an event

`wide_event.rs` from `ensure_capacity` to `append_log_entry_static`.  A method
that takes `&mut self` is a function from the event to the `Outcome` it leaves;
a method that returns `&mut` takes what its caller does with the reference.

`add`, `inc`, `dec` and `add_n` share one body and differ in the value they
compute from the old one (`update`); so do the four path methods (`atPath`).
-/

namespace WideLog

/-- What the mutators take from their surroundings: how the crate was built, and
what the conflict callbacks do when called. -/
structure Env (K : Type) where
  debugAssertions : Bool
  overflowChecks : Bool
  conflict : ConflictFn K → WideEvent K → K → Outcome (WideEvent K)

/-- A release build without overflow checks, where callbacks do nothing. -/
def Env.release {K : Type} : Env K := ⟨false, false, fun _ ev _ ↦ .ret ev⟩

section Arithmetic

variable {K : Type}

/-- A `u64` sum with exact value `n`: it panics or wraps when `n` does not fit. -/
def checkedU64 (env : Env K) (n : ℕ) : Option UInt64 :=
  if n < 2 ^ 64 then some (.ofNat n)
  else if env.overflowChecks then none else some (.ofNat n)

/-- An `i64` sum with exact value `n`: it panics or wraps when `n` does not fit. -/
def checkedI64 (env : Env K) (n : ℤ) : Option Int64 :=
  if -2 ^ 63 ≤ n ∧ n < 2 ^ 63 then some (.ofInt n)
  else if env.overflowChecks then none else some (.ofInt n)

/-- `u64::saturating_add_signed`. -/
def saturatingAddSigned (u : UInt64) (n : Int64) : UInt64 :=
  .ofNat (max 0 (min (u.toNat + n.toInt) (2 ^ 64 - 1))).toNat

/-- `Value::from(n as u64)` for a non-negative `n`, `Value::from(n)` otherwise. -/
def initialN (n : Int64) : Value K :=
  if 0 ≤ n.toInt then .u64 (.ofNat n.toInt.toNat) else .i64 n

/-- The value `inc` stores, from the old one; `none` when computing it panics. -/
def incValue (env : Env K) : Option (Value K) → Option (Value K)
  | some (.u64 n) => (checkedU64 env (n.toNat + 1)).map .u64
  | some (.i64 n) => (checkedI64 env (n.toInt + 1)).map .i64
  | some _ => some (.u64 1)
  | none => some (.u64 1)

/-- The value `dec` stores: a `u64` stops at zero. -/
def decValue (env : Env K) : Option (Value K) → Option (Value K)
  | some (.u64 n) => if 0 < n then some (.u64 (n - 1)) else some (.u64 0)
  | some (.i64 n) => (checkedI64 env (n.toInt - 1)).map .i64
  | some _ => some (.i64 (-1))
  | none => some (.i64 (-1))

/-- The value `add_n` stores: a `u64` saturates at both ends. -/
def addNValue (env : Env K) (n : Int64) : Option (Value K) → Option (Value K)
  | some (.u64 u) => some (.u64 (saturatingAddSigned u n))
  | some (.i64 i) => (checkedI64 env (i.toInt + n.toInt)).map .i64
  | some _ => some (initialN n)
  | none => some (initialN n)

end Arithmetic

namespace WideEvent

variable {K : Type} [Key K] (env : Env K)

/-- `ensure_capacity`. -/
def ensureCapacity (idx : ℕ) (ev : WideEvent K) : WideEvent K :=
  if ev.values.length ≤ idx then
    { ev with values := ev.values ++ List.replicate (idx + 1 - ev.values.length) none }
  else ev

/-- `self.values[idx] = Some(value)`, and one more present slot if the caller
found the slot empty. -/
def store (idx : ℕ) (value : Value K) (prevNone : Bool) (ev : WideEvent K) : WideEvent K :=
  { ev with
    values := ev.values.set idx (some value)
    presentCount := if prevNone then ev.presentCount + 1 else ev.presentCount }

/-- The common body of the slot mutators: grow, look at the old value, store the
new one, count the slot if it was empty. -/
def update (newVal : Option (Value K) → Option (Value K)) (key : K) (ev : WideEvent K) :
    Outcome (WideEvent K) :=
  let idx := Key.asIndex key
  let ev := ev.ensureCapacity idx
  let prevNone := (ev.slot idx).isNone
  match newVal (ev.slot idx) with
  | some v => .ret (ev.store idx v prevNone)
  | none => .panic ev

/-- `add`. -/
def add (key : K) (value : Value K) : WideEvent K → Outcome (WideEvent K) :=
  update (fun _ => some value) key

/-- `inc`. -/
def inc (key : K) : WideEvent K → Outcome (WideEvent K) := update (incValue env) key

/-- `dec`. -/
def dec (key : K) : WideEvent K → Outcome (WideEvent K) := update (decValue env) key

/-- `add_n`. -/
def addN (key : K) (n : Int64) : WideEvent K → Outcome (WideEvent K) :=
  update (addNValue env n) key

/-- The conflict branch of `object`: the callback runs when there is one and the
slot holds something. -/
def fireConflict (key : K) (ev : WideEvent K) : Outcome (WideEvent K) :=
  match ev.onTypeConflict with
  | some cb => if (ev.slot (Key.asIndex key)).isSome then env.conflict cb ev key else .ret ev
  | none => .ret ev

/-- `self.values[idx] = Some(Value::from_object(self.new_child()))`.  The
callback had the whole event, so the index may be out of bounds by now. -/
def replaceWithChild (idx : ℕ) (prevNone : Bool) (ev : WideEvent K) : Outcome (WideEvent K) :=
  if idx < ev.values.length then .ret (ev.store idx (.object ev.newChild) prevNone)
  else .panic ev

/-- The final `match` of `object`, followed by what the caller does to the nested
event through the reference it gets. -/
def enter (idx : ℕ) (k : WideEvent K → Outcome (WideEvent K)) (ev : WideEvent K) :
    Outcome (WideEvent K) :=
  match ev.slot idx with
  | some (.object child) => (k child).map fun child => ev.store idx (.object child) false
  | _ => .panic ev

/-- `object`: get or create the nested event at `key`, and run `k` on it. -/
def object (key : K) (k : WideEvent K → Outcome (WideEvent K)) (ev : WideEvent K) :
    Outcome (WideEvent K) :=
  let idx := Key.asIndex key
  let ev := ev.ensureCapacity idx
  let prevNone := (ev.slot idx).isNone
  let needsReplace := match ev.slot idx with
    | none => true
    | some v => !v.isObject
  let ready := if needsReplace then
      (ev.fireConflict env key).bind (·.replaceWithChild idx prevNone)
    else .ret ev
  ready.bind (·.enter idx k)

/-- `&path[..path.len() - 1]`.  On an empty path the subtraction overflows: it
panics, or wraps to `usize::MAX`, an end that the slice rejects. -/
def initSlice (path : List K) : Option (List K) :=
  let stop := if path.length = 0 then
      if env.overflowChecks then none else some (2 ^ 64 - 1)
    else some (path.length - 1)
  stop.bind fun stop => if stop ≤ path.length then some (path.take stop) else none

/-- The loop of `descend_mut` over the leading segments. -/
def descendLoop : List K → (WideEvent K → Outcome (WideEvent K)) → WideEvent K →
    Outcome (WideEvent K)
  | [], k, ev => k ev
  | seg :: segs, k, ev => ev.object env seg (descendLoop segs k)

/-- `descend_mut`. -/
def descendMut (path : List K) (k : WideEvent K → Outcome (WideEvent K)) (ev : WideEvent K) :
    Outcome (WideEvent K) :=
  match initSlice env path with
  | some segs => descendLoop env segs k ev
  | none => .panic ev

/-- The generic branch of the path methods: descend, then run the slot method at
`path[path.len() - 1]`. -/
def viaDescend (op : K → WideEvent K → Outcome (WideEvent K)) (path : List K) :
    WideEvent K → Outcome (WideEvent K) :=
  descendMut env path fun target => match path.getLast? with
    | some key => op key target
    | none => .panic target

/-- The common body of the path methods: the assertion, the inlined two- and
one-segment cases, and the loop for the rest. -/
def atPath (op : K → WideEvent K → Outcome (WideEvent K)) (path : List K) (ev : WideEvent K) :
    Outcome (WideEvent K) :=
  if env.debugAssertions && path.isEmpty then .panic ev
  else match path with
    | [k₀, k₁] => ev.object env k₀ (op k₁)
    | [k₀] => op k₀ ev
    | path => viaDescend env op path ev

/-- `add_path`. -/
def addPath (path : List K) (value : Value K) : WideEvent K → Outcome (WideEvent K) :=
  atPath env (fun key => add key value) path

/-- `inc_path`. -/
def incPath (path : List K) : WideEvent K → Outcome (WideEvent K) := atPath env (inc env) path

/-- `dec_path`. -/
def decPath (path : List K) : WideEvent K → Outcome (WideEvent K) := atPath env (dec env) path

/-- `add_n_path`. -/
def addNPath (path : List K) (n : Int64) : WideEvent K → Outcome (WideEvent K) :=
  atPath env (fun key => addN env key n) path

/-- `append_log_entry`. -/
def appendLogEntry (level message : String) (ev : WideEvent K) : WideEvent K :=
  { ev with logEntries := ev.logEntries ++ [⟨level, .owned message⟩] }

/-- `append_log_entry_static`. -/
def appendLogEntryStatic (level message : String) (ev : WideEvent K) : WideEvent K :=
  { ev with logEntries := ev.logEntries ++ [⟨level, .static message⟩] }

end WideEvent

/-- The four field operations the macros issue at a path. -/
inductive FieldOp (K : Type) where
  | set (value : Value K)
  | inc
  | dec
  | add (n : Int64)

namespace FieldOp

variable {K : Type} [Key K] (env : Env K)

/-- The slot mutator behind an operation. -/
def atKey : FieldOp K → K → WideEvent K → Outcome (WideEvent K)
  | set value => fun key => WideEvent.add key value
  | inc => WideEvent.inc env
  | dec => WideEvent.dec env
  | add n => fun key => WideEvent.addN env key n

/-- The path method behind an operation. -/
def run : FieldOp K → List K → WideEvent K → Outcome (WideEvent K)
  | set value => fun path => WideEvent.addPath env path value
  | inc => WideEvent.incPath env
  | dec => WideEvent.decPath env
  | add n => fun path => WideEvent.addNPath env path n

/-- The value an operation stores, from the old one; `none` when it panics. -/
def newVal : FieldOp K → Option (Value K) → Option (Value K)
  | set value => fun _ => some value
  | inc => incValue env
  | dec => decValue env
  | add n => addNValue env n

theorem atKey_eq_update (op : FieldOp K) (key : K) :
    op.atKey env key = WideEvent.update (op.newVal env) key := by
  cases op <;> rfl

theorem run_eq_atPath (op : FieldOp K) (path : List K) :
    op.run env path = WideEvent.atPath env (op.atKey env) path := by
  cases op <;> rfl

end FieldOp

end WideLog
