import WideLog.Context
import WideLog.Hooks.Registry
import WideLog.Lib.TaskLocal
import WideLog.Macros.Recording

/-!
# Services

The code of a service issues field and log operations, and may build guards and poll
scopes of its own as it goes on, of one schema and of others: the future of a further
layer is such a scope.  What an operation reaches is read from the thread that runs the
code.
-/

namespace WideLog

open Macros

/-- An operation of a service: a macro of the schema, or a level macro of the crate root. -/
inductive ServiceOp (p : Program) where
  | call (call : QuietCall p)
  | log (level : Level) (message : String)

/-- What an operation does to the event it reaches. -/
def ServiceOp.apply {p : Program} (env : Env p.EventKey) :
    ServiceOp p → WideEvent p.EventKey → WideEvent p.EventKey
  | .call c, ev => (c.val.apply env ev).state
  | .log level message, ev => ev.appendLogEntry level.asStr message

/-- The call that is recorded for an operation. -/
def ServiceOp.recorded {p : Program} : ServiceOp p → QuietCall p
  | .call c => c
  | .log level message => .append level message

/-- What the macros read on the thread that runs the service: `CURRENT_EVENT`,
`LOG_HOOKS`, `TASK_EVENT` and `TASK_LOG_HOOKS`.  The hooks are those of schemas `S`. -/
structure ThreadLocals (S : Type) where
  currentEvent : ContextCell Nat
  logHooks : HookStack S
  taskEvent : Option (ContextCell Nat)
  taskLogHooks : Option (HookStack S)

namespace ThreadLocals

variable {S : Type} (on : ThreadLocals S)

/-- A thread without guards or scopes. -/
def new : ThreadLocals S := ⟨.new, .thread, none, none⟩

/-- `current()`. -/
def current : Option Nat :=
  match on.taskEvent.bind (·.getPtr) with
  | some ptr => some ptr
  | none => on.currentEvent.getPtr

/-- The last hook `append_log_entry` finds. -/
def lastHook : Option (Hook S) :=
  match on.taskLogHooks.bind (·.hooks.head?) with
  | some hook => some hook
  | none => on.logHooks.hooks.head?

/-- The event of the schema `ours` that an operation reaches.  The hook of another
schema appends to an event of its own. -/
def reach [DecidableEq S] (ours : S) {p : Program} : ServiceOp p → Option Nat
  | .call _ => on.current
  | .log _ _ => match on.lastHook with
    | some hook => if hook.schema = ours then on.current else none
    | none => none

/-- `push_log_hook`. -/
def pushLogHook (hook : Hook S) : ThreadLocals S :=
  match on.taskLogHooks with
  | some st => { on with taskLogHooks := some (st.push hook) }
  | none => { on with logHooks := on.logHooks.push hook }

/-- `pop_log_hook`.  A debug build panics where no hook is found. -/
def popLogHook [DecidableEq S] (schema : S) : ThreadLocals S :=
  match on.taskLogHooks.bind (·.removeHook schema) with
  | some st => { on with taskLogHooks := some st }
  | none => { on with logHooks := (on.logHooks.removeHook schema).getD on.logHooks }

@[simp] theorem taskEvent_pushLogHook (hook : Hook S) :
    (on.pushLogHook hook).taskEvent = on.taskEvent := by
  unfold pushLogHook
  split <;> rfl

@[simp] theorem taskEvent_popLogHook [DecidableEq S] (schema : S) :
    (on.popLogHook schema).taskEvent = on.taskEvent := by
  unfold popLogHook
  split <;> rfl

@[simp] theorem currentEvent_pushLogHook (hook : Hook S) :
    (on.pushLogHook hook).currentEvent = on.currentEvent := by
  unfold pushLogHook
  split <;> rfl

@[simp] theorem currentEvent_popLogHook [DecidableEq S] (schema : S) :
    (on.popLogHook schema).currentEvent = on.currentEvent := by
  unfold popLogHook
  split <;> rfl

end ThreadLocals

/-- Code of a service as it runs: what its thread has, what the scopes that are being
polled there have displaced, and the schemas of those the service polls itself, the
innermost first. -/
structure Running (S : Type) where
  on : ThreadLocals S
  events : List (Option (ContextCell Nat))
  hooks : List (Option (HookStack S))
  polls : List S

/-- A scope other than that of the request, with the hooks it holds between its polls. -/
structure InnerScope (S : Type) where
  schema : S
  ptr : Nat
  hooks : HookStack S

/-- What a service does with guards and scopes of its own.  A scope is entered when it is
polled for the first time, and left at the end of every poll. -/
inductive InnerOp (S : Type) where
  | build (schema : S)
  | drop (schema : S) (prev : Option Nat)
  | enter (schema : S)
  | poll (scope : InnerScope S)
  | leave

namespace Running

section Model

variable {S : Type} (run : Running S)

/-- `TASK_EVENT`. -/
def taskEvent : TaskLocal (ContextCell Nat) := ⟨run.on.taskEvent, run.events⟩

/-- `TASK_LOG_HOOKS`. -/
def taskLogHooks : TaskLocal (HookStack S) := ⟨run.on.taskLogHooks, run.hooks⟩

/-- The slots are exchanged. -/
def exchange (events : TaskLocal (ContextCell Nat)) (hooks : TaskLocal (HookStack S)) :
    Running S :=
  { run with
    on := { run.on with taskEvent := events.value, taskLogHooks := hooks.value }
    events := events.slots
    hooks := hooks.slots }

/-- The cells on the thread have no event from `n` on. -/
structure Below (n : Nat) : Prop where
  current : ∀ ptr ∈ run.on.currentEvent.ptr, ptr < n
  task : ∀ cell, some cell ∈ run.taskEvent.value :: run.taskEvent.slots → ∀ ptr ∈ cell.ptr, ptr < n

variable [DecidableEq S] (ours : S)

/-- A guard is built: one of another schema has a `CURRENT_EVENT` of its own. -/
def build (schema : S) (ptr : Nat) : Running S :=
  let on := run.on.pushLogHook ⟨schema, ptr⟩
  if schema = ours then
    { run with on := { on with currentEvent := (on.currentEvent.replace (some ptr)).1 } }
  else { run with on }

/-- A guard is dropped. -/
def drop (schema : S) (prev : Option Nat) : Running S :=
  let on := run.on.popLogHook schema
  if schema = ours then
    { run with on := { on with currentEvent := on.currentEvent.restore prev } }
  else { run with on }

/-- A poll of a scope begins: one of another schema has a `TASK_EVENT` of its own. -/
def poll (scope : InnerScope S) : Running S :=
  let events := if scope.schema = ours then
      run.taskEvent.enter ((ContextCell.new).replace (some scope.ptr)).1
    else run.taskEvent
  { run.exchange events (run.taskLogHooks.enter scope.hooks) with
    polls := scope.schema :: run.polls }

/-- The poll ends. -/
def leave (schema : S) : Running S :=
  let events := if schema = ours then run.taskEvent.leave else run.taskEvent
  { run.exchange events run.taskLogHooks.leave with polls := run.polls.tail }

/-- The steps of a service that has been given `event`, with guards and scopes of its own:
those it opens get the event `n`, and none of them has the event of the request. -/
inductive Step (event : Option Nat) (n : Nat) : Running S → InnerOp S → Running S → Prop where
  | build {run : Running S} (schema : S) :
      Step event n run (.build schema) (run.build ours schema n)
  | drop {run : Running S} (schema : S) (prev : Option Nat) : (∀ ptr ∈ prev, ptr < n) →
      Step event n run (.drop schema prev) (run.drop ours schema prev)
  | enter {run : Running S} (schema : S) :
      Step event n run (.enter schema) (run.poll ours ⟨schema, n, .seeded n schema⟩)
  | poll {run : Running S} (scope : InnerScope S) : scope.ptr < n → event ≠ some scope.ptr →
      Step event n run (.poll scope) (run.poll ours scope)
  | leave {run : Running S} {schema : S} {polls : List S} : run.polls = schema :: polls →
      Step event n run .leave (run.leave ours schema)

end Model

/-! ## What a step of a service does -/

variable {S : Type} [DecidableEq S] {ours : S} {run run' : Running S} {op : InnerOp S}
  {event : Option Nat} {ptr n m : Nat}

@[simp] theorem taskEvent_build (schema : S) (ptr : Nat) :
    (run.build ours schema ptr).taskEvent = run.taskEvent := by
  unfold build
  split <;> simp [taskEvent]

@[simp] theorem taskEvent_drop (schema : S) (prev : Option Nat) :
    (run.drop ours schema prev).taskEvent = run.taskEvent := by
  unfold drop
  split <;> simp [taskEvent]

@[simp] theorem polls_build (schema : S) (ptr : Nat) :
    (run.build ours schema ptr).polls = run.polls := by
  unfold build
  split <;> rfl

@[simp] theorem polls_drop (schema : S) (prev : Option Nat) :
    (run.drop ours schema prev).polls = run.polls := by
  unfold drop
  split <;> rfl

/-- What a poll of a scope does to `TASK_EVENT`, if the scope is of the schema. -/
theorem taskEvent_poll (run : Running S) (scope : InnerScope S) :
    (scope.schema = ours ∧ (run.poll ours scope).taskEvent =
        run.taskEvent.enter ⟨some scope.ptr⟩ ∧
        (run.poll ours scope).polls.count ours = run.polls.count ours + 1) ∨
      ((run.poll ours scope).taskEvent = run.taskEvent ∧
        (run.poll ours scope).polls.count ours = run.polls.count ours) := by
  unfold poll
  by_cases hours : scope.schema = ours
  · rw [if_pos hours]
    exact .inl ⟨hours, rfl, by rw [hours, List.count_cons_self]⟩
  · rw [if_neg hours]
    exact .inr ⟨rfl, List.count_cons_of_ne hours⟩

/-- What a step does to `TASK_EVENT`: nothing, or it enters a scope of the schema, or
leaves one. -/
theorem Step.taskEvent (h : Step ours event n run op run') :
    (run'.taskEvent = run.taskEvent ∧ run'.polls.count ours = run.polls.count ours) ∨
      (∃ q, q ≤ n ∧ (event = some q → q = n) ∧ run'.taskEvent = run.taskEvent.enter ⟨some q⟩ ∧
        run'.polls.count ours = run.polls.count ours + 1) ∨
      (run'.taskEvent = run.taskEvent.leave ∧
        run.polls.count ours = run'.polls.count ours + 1) := by
  cases h with
  | build schema => exact .inl ⟨taskEvent_build .., by rw [polls_build]⟩
  | drop schema prev => exact .inl ⟨taskEvent_drop .., by rw [polls_drop]⟩
  | enter schema =>
      rcases taskEvent_poll run ⟨schema, n, .seeded n schema⟩ with ⟨-, h⟩ | h
      · exact .inr (.inl ⟨n, Nat.le_refl n, fun _ ↦ rfl, h⟩)
      · exact .inl h
  | poll scope hlt hne =>
      rcases taskEvent_poll run scope with ⟨-, h⟩ | h
      · exact .inr (.inl ⟨scope.ptr, Nat.le_of_lt hlt, fun h ↦ absurd h hne, h⟩)
      · exact .inl h
  | @leave schema polls hpolls =>
      have hrest : (run.leave ours schema).polls = polls := congrArg List.tail hpolls
      rw [hrest, hpolls]
      by_cases hours : schema = ours
      · refine .inr (.inr ⟨if_pos hours, ?_⟩)
        rw [hours, List.count_cons_self]
      · exact .inl ⟨if_neg hours, (List.count_cons_of_ne hours).symm⟩

/-- What a step does to `CURRENT_EVENT`. -/
theorem Step.currentEvent (h : Step ours event n run op run') :
    run'.on.currentEvent = run.on.currentEvent ∨
      ∀ ptr ∈ run'.on.currentEvent.ptr, ptr ≤ n := by
  cases h with
  | build schema =>
      unfold Running.build
      split
      · exact .inr fun ptr hptr ↦ Nat.le_of_eq (Option.some.inj hptr).symm
      · exact .inl (ThreadLocals.currentEvent_pushLogHook ..)
  | drop schema prev hprev =>
      unfold Running.drop
      split
      · exact .inr fun ptr hptr ↦ Nat.le_of_lt (hprev ptr hptr)
      · exact .inl (ThreadLocals.currentEvent_popLogHook ..)
  | enter | poll | leave => exact .inl rfl

omit [DecidableEq S] in
theorem Below.mono (h : run.Below n) (hle : n ≤ m) : run.Below m :=
  ⟨fun ptr hptr ↦ Nat.lt_of_lt_of_le (h.current ptr hptr) hle,
    fun cell hcell ptr hptr ↦ Nat.lt_of_lt_of_le (h.task cell hcell ptr hptr) hle⟩

theorem Below.step (h : Step ours event n run op run') (hrun : run.Below n) :
    run'.Below (n + 1) := by
  have hrun := hrun.mono (Nat.le_succ n)
  constructor
  · rcases h.currentEvent with hsame | hnew
    · rw [hsame]
      exact hrun.current
    · exact fun ptr hptr ↦ Nat.lt_succ_of_le (hnew ptr hptr)
  · rcases h.taskEvent with ⟨hsame, -⟩ | ⟨q, hq, -, henter, -⟩ | ⟨hleave, -⟩
    · rw [hsame]
      exact hrun.task
    · rw [henter]
      intro cell hcell
      rcases List.mem_cons.mp hcell with hcell | hcell
      · cases hcell
        rintro _ ⟨⟩
        exact Nat.lt_succ_of_le hq
      · exact hrun.task cell hcell
    · rw [hleave]
      exact fun cell hcell ↦ hrun.task cell (TaskLocal.mem_of_mem_leave hcell)

omit [DecidableEq S] in
/-- The event that code of the service finds is below. -/
theorem Below.current_lt (h : run.Below n) (hptr : run.on.current = some ptr) : ptr < n := by
  unfold ThreadLocals.current at hptr
  cases htask : run.on.taskEvent.bind (·.getPtr) with
  | none =>
      rw [htask] at hptr
      exact h.current ptr hptr
  | some q =>
      rw [htask] at hptr
      cases hptr
      obtain ⟨cell, hcell, hq⟩ := Option.bind_eq_some_iff.mp htask
      exact h.task cell (hcell ▸ List.mem_cons_self) _ hq

/-- The scope of the request is being polled, and within it scopes with events of their
own, as many as the service polls of the schema. -/
def Inside (ours : S) (ptr : Nat) (run : Running S) : Prop :=
  ∃ base inner, run.taskEvent.Polled base ((inner ++ [ptr]).map fun q ↦ ⟨some q⟩) ∧
    inner.length = run.polls.count ours ∧ ptr ∉ inner

theorem Inside.step (h : Step ours (some ptr) n run op run') (hlt : ptr < n)
    (hrun : run.Inside ours ptr) : run'.Inside ours ptr := by
  obtain ⟨base, inner, hpolled, hlength, hptr⟩ := hrun
  rcases h.taskEvent with ⟨hsame, hcount⟩ | ⟨q, -, hq, henter, hcount⟩ | ⟨hleave, hcount⟩
  · exact ⟨base, inner, hsame ▸ hpolled, hlength.trans hcount.symm, hptr⟩
  · refine ⟨base, q :: inner, henter ▸ hpolled.enter _, ?_, ?_⟩
    · rw [hcount, List.length_cons, hlength]
    · rw [List.mem_cons, not_or]
      refine ⟨?_, hptr⟩
      rintro rfl
      exact Nat.lt_irrefl _ ((hq rfl) ▸ hlt)
  · cases inner with
    | nil =>
        rw [hcount] at hlength
        cases hlength
    | cons q inner =>
        refine ⟨base, inner, hleave ▸ TaskLocal.Polled.leave hpolled, ?_, ?_⟩
        · rw [hcount, List.length_cons] at hlength
          exact Nat.succ.inj hlength
        · exact fun hmem ↦ hptr (List.mem_cons_of_mem q hmem)

/-- Within the scope of the request `current()` is its event, unless the service polls a
scope of the schema. -/
theorem Inside.current_eq_iff (h : run.Inside ours ptr) :
    run.on.current = some ptr ↔ ours ∉ run.polls := by
  obtain ⟨base, inner, hpolled, hlength, hptr⟩ := h
  have hvalue := hpolled.value_eq
  rw [← List.count_eq_zero, ← hlength, List.length_eq_zero_iff]
  unfold ThreadLocals.current
  change run.on.taskEvent = _ at hvalue
  rw [hvalue]
  cases inner with
  | nil => exact iff_of_true rfl rfl
  | cons q inner =>
      refine iff_of_false ?_ (List.cons_ne_nil q inner)
      rintro ⟨⟩
      exact hptr List.mem_cons_self

/-- A poll of the request that ends has the event of the request alone. -/
theorem Inside.suspend (h : run.Inside ours ptr) (hpolls : run.polls = []) :
    run.taskEvent.suspend.slots = [some ⟨some ptr⟩] := by
  obtain ⟨base, inner, hpolled, hlength, -⟩ := h
  rw [hpolls, List.count_nil, List.length_eq_zero_iff] at hlength
  subst hlength
  exact hpolled.suspend.2

end Running

/-- A thread without guards or scopes has no event. -/
theorem ThreadLocals.below_new {S : Type} (n : Nat) :
    (⟨ThreadLocals.new, [], [], []⟩ : Running S).Below n :=
  ⟨nofun, by simp [Running.taskEvent, ThreadLocals.new]⟩

/-- The hook an operation goes through is that of the schema. -/
def ServiceOp.Hooked {S : Type} {p : Program} (ours : S) (on : ThreadLocals S) :
    ServiceOp p → Prop
  | .call _ => True
  | .log _ _ => ∃ hook ∈ on.lastHook, hook.schema = ours

/-- An operation reaches what `current()` returns, if its hook is that of the schema. -/
theorem ThreadLocals.reach_eq_some_iff {S : Type} [DecidableEq S] {ours : S} {p : Program}
    {on : ThreadLocals S} {op : ServiceOp p} {ptr : Nat} :
    on.reach ours op = some ptr ↔ on.current = some ptr ∧ op.Hooked ours on := by
  cases op with
  | call => exact (and_iff_left trivial).symm
  | log =>
      simp only [reach, ServiceOp.Hooked]
      cases on.lastHook with
      | none => simp
      | some hook => by_cases hours : hook.schema = ours <;> simp [hours]

end WideLog
