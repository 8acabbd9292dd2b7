import WideLog.Lib.Run
import WideLog.Scope.Isolation
import WideLog.Scope.Service

/-!
# The tower middleware

`WideLogMiddleware` calls its inner service and wraps the future it returns in a scope,
whose event is created when the wrapped future is first polled.  Code of the service
runs while it is called and while its future is polled.

A request is handled among other things: it is called and polled on any threads, under
any guards and scopes, and in between the rest of the process does what it likes to
every event but that of the request, which nothing else has a pointer to.
-/

namespace WideLog

open Macros

/-- How far a request has come: `self.inner.call(req)` runs on a thread, the future is
created, its scope is being polled on a thread, or is not. -/
inductive Stage (S : Type) where
  | idle
  | calling (run : Running S)
  | created
  | polling (run : Running S)
  | suspended (events : List (Option (ContextCell Nat))) (hooks : List (Option (HookStack S)))
  | done

/-- The code of the service that runs. -/
def Stage.running {S : Type} : Stage S → Option (Running S)
  | .calling run | .polling run => some run
  | .idle | .created | .suspended _ _ | .done => none

/-- The code has come to another point. -/
def Stage.goOn {S : Type} (run : Running S) : Stage S → Stage S
  | .calling _ => .calling run
  | .polling _ => .polling run
  | stage => stage

/-- Code of the service runs while it is called and while its future is polled. -/
theorem Stage.running_cases {S : Type} {stage : Stage S} {run : Running S}
    (h : stage.running = some run) : stage = .calling run ∨ stage = .polling run := by
  cases stage with
  | calling =>
      cases h
      exact .inl rfl
  | polling =>
      cases h
      exact .inr rfl
  | _ => cases h

/-- A request whose service runs is not done. -/
theorem Stage.ne_done_of_running {S : Type} {stage : Stage S} {run run' : Running S}
    (h : stage.running = some run) : stage ≠ .done ∧ stage.goOn run' ≠ .done := by
  rcases Stage.running_cases h with rfl | rfl
  · exact ⟨nofun, nofun⟩
  · exact ⟨nofun, nofun⟩

/-- The future has not been polled. -/
def Stage.Unpolled {S : Type} : Stage S → Prop
  | .idle | .calling _ | .created => True
  | .polling _ | .suspended _ _ | .done => False

/-- A request to a `WideLogMiddleware`, in a process. -/
structure Request (S : Type) (p : Program) where
  stage : Stage S
  /-- The event that is created for the request. -/
  event : Option Nat
  heap : Nat → Option (WideEvent p.EventKey)
  allocated : Nat
  /-- What `default_emit` is given. -/
  emitted : Option (WideEvent p.EventKey)

/-- What happens in the course of a request. -/
inductive RequestStep (S : Type) (p : Program) where
  | call (on : ThreadLocals S)
  | wrap
  | poll (on : ThreadLocals S)
  | op (op : ServiceOp p)
  | inner (op : InnerOp S)
  | pending
  | finish (elapsed : String → F64) (now : String)
  | others

/-- The operation of a step, as it is recorded. -/
def RequestStep.issued {S : Type} {p : Program} : RequestStep S p → List (QuietCall p)
  | .op o => [o.recorded]
  | _ => []

namespace Request

variable {S : Type} {p : Program}

/-- A request that is about to be handled, in any process. -/
def new (heap : Nat → Option (WideEvent p.EventKey)) (allocated : Nat) : Request S p :=
  ⟨.idle, none, heap, allocated, none⟩

/-- The first poll of a scope: it installs its cell and its hook on the thread. -/
def enter (ours : S) (ptr : Nat) (on : ThreadLocals S) : Stage S :=
  let run : Running S := ⟨on, [], [], []⟩
  .polling (run.exchange (run.taskEvent.enter ((ContextCell.new).replace (some ptr)).1)
    (run.taskLogHooks.enter (.seeded ptr ours)))

/-- A later poll. -/
def resume (on : ThreadLocals S) (events : List (Option (ContextCell Nat)))
    (hooks : List (Option (HookStack S))) : Stage S :=
  let run : Running S := ⟨on, events, hooks, []⟩
  .polling (run.exchange run.taskEvent.resume run.taskLogHooks.resume)

/-- The end of a poll that is pending. -/
def suspend (run : Running S) : Stage S :=
  .suspended run.taskEvent.suspend.slots run.taskLogHooks.suspend.slots

/-- The scope is left, or dropped, and its guard with it. -/
def finish (env : Env p.EventKey) (elapsed : String → F64) (now : String) (r : Request S p) :
    Request S p :=
  { r with
    stage := .done
    emitted := (r.event.bind r.heap).bind fun ev ↦
      Runtime.finished (ev.dropWrites env elapsed now) }

/-- An operation changes the event it reaches. -/
def apply [DecidableEq S] (env : Env p.EventKey) (ours : S) (on : ThreadLocals S) (op : ServiceOp p)
    (r : Request S p) : Request S p :=
  match on.reach ours op with
  | some ptr => { r with heap := Function.update r.heap ptr ((r.heap ptr).map (op.apply env)) }
  | none => r

/-- The steps of a request to the middleware.  The layer has a preset or not, and the
request gets an id: `start`.  A call or a poll that ends has left the scopes that it was
polling. -/
inductive Step [DecidableEq S] (env : Env p.EventKey) (ours : S) (start : Start p) :
    Request S p → RequestStep S p → Request S p → Prop where
  | call {r : Request S p} {on} : r.stage = .idle →
      (⟨on, [], [], []⟩ : Running S).Below r.allocated →
      Step env ours start r (.call on) { r with stage := .calling ⟨on, [], [], []⟩ }
  | wrap {r : Request S p} {run} : r.stage = .calling run → run.polls = [] →
      Step env ours start r .wrap { r with stage := .created }
  | first {r : Request S p} {on ev} : r.stage = .created →
      p.build env start.preset start.id = .ret ev →
      Step env ours start r (.poll on) { r with
        stage := enter ours r.allocated on
        event := some r.allocated
        heap := Function.update r.heap r.allocated (some ev)
        allocated := r.allocated + 1 }
  | again {r : Request S p} {on events hooks} : r.stage = .suspended events hooks →
      Step env ours start r (.poll on) { r with stage := resume on events hooks }
  | op {r : Request S p} {run} (op : ServiceOp p) : r.stage.running = some run →
      Step env ours start r (.op op) (r.apply env ours run.on op)
  | inner {r : Request S p} {run run' op} (heap) : r.stage.running = some run →
      Running.Step ours r.event r.allocated run op run' → (∀ ptr ∈ r.event, heap ptr = r.heap ptr) →
      Step env ours start r (.inner op) { r with
        stage := r.stage.goOn run'
        heap
        allocated := r.allocated + 1 }
  | pending {r : Request S p} {run} : r.stage = .polling run → run.polls = [] →
      Step env ours start r .pending { r with stage := suspend run }
  | ready {r : Request S p} {run} (elapsed now) : r.stage = .polling run → run.polls = [] →
      Step env ours start r (.finish elapsed now) (r.finish env elapsed now)
  | drop {r : Request S p} (elapsed now) :
      (r.stage = .created ∨ ∃ events hooks, r.stage = .suspended events hooks) →
      Step env ours start r (.finish elapsed now) (r.finish env elapsed now)
  | others {r : Request S p} (heap) (allocated) : r.allocated ≤ allocated →
      (∀ ptr ∈ r.event, heap ptr = r.heap ptr) →
      Step env ours start r .others { r with heap, allocated }

/-! ## Where operations go -/

section Wired

variable [DecidableEq S] {ours : S} {event : Option Nat} {n m : Nat} {stage : Stage S}

/-- What is installed at a stage, for the event of the request. -/
inductive Wired (ours : S) : Option Nat → Nat → Stage S → Prop where
  | idle {n : Nat} : Wired ours none n .idle
  | calling {n : Nat} {run : Running S} : run.Below n → Wired ours none n (.calling run)
  | created {n : Nat} : Wired ours none n .created
  | polling {ptr n : Nat} {run : Running S} : ptr < n → run.Inside ours ptr →
      Wired ours (some ptr) n (.polling run)
  | suspended {ptr n : Nat} {hooks} : ptr < n →
      Wired ours (some ptr) n (.suspended [some ⟨some ptr⟩] hooks)
  | done {event : Option Nat} {n : Nat} : Wired ours event n .done

theorem Wired.mono (h : Wired ours event n stage) (hle : n ≤ m) : Wired ours event m stage := by
  cases h with
  | idle => exact .idle
  | calling hrun => exact .calling (hrun.mono hle)
  | created => exact .created
  | polling hlt hrun => exact .polling (Nat.lt_of_lt_of_le hlt hle) hrun
  | suspended hlt => exact .suspended (Nat.lt_of_lt_of_le hlt hle)
  | done => exact .done

theorem Wired.event_eq_none (h : Wired ours event n stage) (hstage : stage.Unpolled) :
    event = none := by
  cases h with
  | idle | calling | created => rfl
  | _ => exact hstage.elim

theorem Wired.inner {run run' : Running S} {op : InnerOp S} (h : Wired ours event n stage)
    (hstep : Running.Step ours event n run op run') (hrunning : stage.running = some run) :
    Wired ours event (n + 1) (stage.goOn run') := by
  cases h with
  | calling hrun =>
      cases hrunning
      exact .calling (hrun.step hstep)
  | polling hlt hrun =>
      cases hrunning
      exact .polling (Nat.lt_succ_of_lt hlt) (hrun.step hstep hlt)
  | _ => cases hrunning

end Wired

/-! ## What the event records -/

/-- The operations of the service, in order. -/
def issued (tr : List (Request S p × RequestStep S p)) : List (QuietCall p) :=
  tr.flatMap fun x ↦ x.2.issued

/-- The event of the request, once it exists, has had these calls and no others, and so
has the event that is emitted in the end. -/
structure Records (env : Env p.EventKey) (start : Start p) (calls : List (QuietCall p))
    (r : Request S p) : Prop where
  heap : ∀ ptr ∈ r.event, r.stage ≠ .done →
    ∃ ev, r.heap ptr = some ev ∧ Recording.Holds env ⟨start, calls⟩ ev
  emitted : ∀ ptr ∈ r.event, r.stage = .done → ∃ ev elapsed now, r.emitted = some ev ∧
    ((⟨start, calls⟩ : Recording p).run env elapsed now).event = .ret ev

theorem apply_eq (env : Env p.EventKey) (op : ServiceOp p) (ev : WideEvent p.EventKey) :
    op.apply env ev = (op.recorded.val.apply env ev).state := by
  cases op <;> rfl

variable [DecidableEq S]

/-- The event is created with the first poll, and then gets every operation. -/
structure Covered (env : Env p.EventKey) (ours : S) (start : Start p) (calls : List (QuietCall p))
    (r : Request S p) : Prop where
  wired : Wired ours r.event r.allocated r.stage
  records : r.Records env start calls
  unborn : r.event = none → calls = []

/-- A change of the stage that neither ends the request nor follows its end. -/
theorem Covered.go {env : Env p.EventKey} {ours : S} {start : Start p} {calls : List (QuietCall p)}
    {r : Request S p} (hr : r.Covered env ours start calls) {stage : Stage S}
    (hold : r.stage ≠ .done) (hnew : stage ≠ .done) (hw : Wired ours r.event r.allocated stage) :
    ({ r with stage } : Request S p).Covered env ours start calls :=
  ⟨hw, ⟨fun ptr hptr _ ↦ hr.records.heap ptr hptr hold, fun _ _ hdone ↦ absurd hdone hnew⟩,
    hr.unborn⟩

theorem Covered.finish {ours : S} {tc : Toolchain} {input : List TokenTree} (a : Accepted tc input)
    {env : Env a.program.EventKey} {start : Start a.program} {calls : List (QuietCall a.program)}
    {r : Request S a.program} (hr : r.Covered env ours start calls) (hstage : r.stage ≠ .done)
    (elapsed : String → F64) (now : String) :
    (r.finish env elapsed now).Covered env ours start calls := by
  refine ⟨.done, ⟨fun _ _ hdone ↦ absurd rfl hdone, fun ptr hptr _ ↦ ?_⟩, hr.unborn⟩
  obtain ⟨ev, hev, hholds⟩ := hr.records.heap ptr hptr hstage
  obtain ⟨ev', hdrop, hrun⟩ := hholds.emit a elapsed now
  refine ⟨ev', elapsed, now, ?_, hrun⟩
  show (r.event.bind r.heap).bind _ = _
  rw [show r.event = some ptr from hptr, Option.bind_some, hev, Option.bind_some, hdrop]
  rfl

/-! ## The steps -/

variable {env : Env p.EventKey} {ours : S} {start : Start p}
  {heap : Nat → Option (WideEvent p.EventKey)} {allocated : Nat}
  {r r' s t : Request S p} {a : RequestStep S p} {tr : List (Request S p × RequestStep S p)}

@[simp] theorem apply_stage (on : ThreadLocals S) (op : ServiceOp p) :
    (r.apply env ours on op).stage = r.stage := by
  unfold apply
  split <;> rfl

@[simp] theorem apply_event (on : ThreadLocals S) (op : ServiceOp p) :
    (r.apply env ours on op).event = r.event := by
  unfold apply
  split <;> rfl

@[simp] theorem apply_allocated (on : ThreadLocals S) (op : ServiceOp p) :
    (r.apply env ours on op).allocated = r.allocated := by
  unfold apply
  split <;> rfl

theorem Step.wired (h : Step env ours start r a r') (hr : Wired ours r.event r.allocated r.stage) :
    Wired ours r'.event r'.allocated r'.stage := by
  obtain ⟨stage, event, heap, allocated, emitted⟩ := r
  cases h with
  | call hstage hon =>
      cases hstage
      cases hr
      exact .calling hon
  | wrap hstage =>
      cases hstage
      cases hr
      exact .created
  | @first on _ hstage =>
      cases hstage
      have hidle : TaskLocal.Polled on.taskEvent [] ⟨on.taskEvent, []⟩ := rfl
      exact .polling (Nat.lt_succ_self _) ⟨_, [], hidle.enter _, rfl, List.not_mem_nil⟩
  | again hstage =>
      cases hstage
      cases hr with
      | suspended hlt =>
          exact .polling hlt ⟨_, [], TaskLocal.Idle.resume ⟨rfl, rfl⟩, rfl, List.not_mem_nil⟩
  | op op =>
      rw [apply_event, apply_allocated, apply_stage]
      exact hr
  | inner _ hrunning hstep => exact hr.inner hstep hrunning
  | pending hstage hpolls =>
      cases hstage
      cases hr with
      | polling hlt hrun =>
          show Wired ours _ _ (.suspended _ _)
          rw [hrun.suspend hpolls]
          exact .suspended hlt
  | ready | drop => exact .done
  | others _ _ hle => exact hr.mono hle

/-- The event of a request is created once, after all others that exist then. -/
theorem Step.event (h : Step env ours start r a r') (hr : Wired ours r.event r.allocated r.stage) :
    (r'.event = r.event ∧ r.allocated ≤ r'.allocated) ∨
      (r.event = none ∧ r'.event = some r.allocated) := by
  obtain ⟨stage, event, heap, allocated, emitted⟩ := r
  cases h with
  | first hstage =>
      cases hstage
      cases hr
      exact .inr ⟨rfl, rfl⟩
  | op op =>
      rw [apply_event, apply_allocated]
      exact .inl ⟨rfl, Nat.le_refl _⟩
  | inner => exact .inl ⟨rfl, Nat.le_succ _⟩
  | others _ _ hle => exact .inl ⟨rfl, hle⟩
  | _ => exact .inl ⟨rfl, Nat.le_refl _⟩

theorem wired_of_run (h : Run (Step env ours start) r tr t)
    (hr : Wired ours r.event r.allocated r.stage) :
    ∀ s ∈ Run.states tr t, Wired ours s.event s.allocated s.stage :=
  h.always (I := fun s ↦ Wired ours s.event s.allocated s.stage) Step.wired hr

/-- An event keeps its request. -/
theorem event_of_run (h : Run (Step env ours start) r tr t)
    (hr : Wired ours r.event r.allocated r.stage) :
    (∀ ptr, r.event = some ptr → t.event = some ptr) ∧
      (r.event = none → ∀ ptr, t.event = some ptr → r.allocated ≤ ptr) := by
  induction h with
  | nil r =>
      refine ⟨fun _ ↦ id, fun hnone ptr hptr ↦ ?_⟩
      cases hnone.symm.trans hptr
  | cons ha _ ih =>
      obtain ⟨hkeep, hfresh⟩ := ih (ha.wired hr)
      rcases ha.event hr with ⟨hsame, hle⟩ | ⟨hnone, hnew⟩
      · rw [← hsame]
        exact ⟨hkeep, fun hnone ptr hptr ↦ Nat.le_trans hle (hfresh hnone ptr hptr)⟩
      · refine ⟨fun ptr hptr ↦ ?_, fun _ ptr hptr ↦ ?_⟩
        · cases hnone.symm.trans hptr
        · cases (hkeep _ hnew).symm.trans hptr
          exact Nat.le_refl _

/-- The event an operation of the service would reach. -/
def reach (ours : S) (r : Request S p) (op : ServiceOp p) : Option Nat :=
  r.stage.running.bind fun run ↦ run.on.reach ours op

/-- The operation is issued while the future is polled, while the service itself polls no
scope of the schema, and goes through the hook of the schema, if it needs one. -/
def Within (ours : S) (r : Request S p) (op : ServiceOp p) : Prop :=
  ∃ run, r.stage = .polling run ∧ ours ∉ run.polls ∧ op.Hooked ours run.on

/-- While the future is polled, these are the operations that reach the event of the
request. -/
theorem Wired.reach_eq_iff {run : Running S} {ptr : Nat}
    (h : Wired ours r.event r.allocated r.stage) (hstage : r.stage = .polling run)
    (hevent : r.event = some ptr) (op : ServiceOp p) :
    r.reach ours op = some ptr ↔ r.Within ours op := by
  rw [hstage, hevent] at h
  cases h with
  | polling _ hrun =>
      show (r.stage.running.bind _ = some ptr) ↔ _
      rw [hstage]
      show run.on.reach ours op = some ptr ↔ _
      rw [ThreadLocals.reach_eq_some_iff, hrun.current_eq_iff]
      refine ⟨fun ⟨hpolls, hhook⟩ ↦ ⟨run, hstage, hpolls, hhook⟩, ?_⟩
      rintro ⟨_, hstage', hpolls, hhook⟩
      cases hstage.symm.trans hstage'
      exact ⟨hpolls, hhook⟩

/-- While the service is called, the event of the request does not exist. -/
theorem Wired.reach_lt {run : Running S} {ptr : Nat}
    (h : Wired ours r.event r.allocated r.stage) (hstage : r.stage = .calling run)
    {op : ServiceOp p} (hreach : r.reach ours op = some ptr) :
    r.event = none ∧ ptr < r.allocated := by
  have hnone : r.event = none := h.event_eq_none (by rw [hstage]; trivial)
  refine ⟨hnone, ?_⟩
  rw [Request.reach, hstage] at hreach
  rw [hstage, hnone] at h
  cases h with
  | calling hrun => exact hrun.current_lt (ThreadLocals.reach_eq_some_iff.mp hreach).1

/-- The event of a request that is polled. -/
theorem Wired.exists_event {run : Running S} (h : Wired ours r.event r.allocated r.stage)
    (hstage : r.stage = .polling run) : ∃ ptr, r.event = some ptr := by
  rw [hstage] at h
  generalize r.event = event at h
  cases h with
  | polling => exact ⟨_, rfl⟩

/-- An operation of a poll is recorded. -/
theorem Covered.apply {calls : List (QuietCall p)} (hr : r.Covered env ours start calls)
    {run : Running S} (hrunning : r.stage.running = some run) {op : ServiceOp p}
    (hop : r.Within ours op) :
    (r.apply env ours run.on op).Covered env ours start (calls ++ [op.recorded]) := by
  obtain ⟨_, hstage, hwithin⟩ := id hop
  obtain ⟨ptr, hevent⟩ := hr.wired.exists_event hstage
  have hreach := (hr.wired.reach_eq_iff hstage hevent op).mpr hop
  rw [Request.reach, hrunning, Option.bind_some] at hreach
  obtain ⟨ev, hev, hholds⟩ := hr.records.heap ptr hevent (by rw [hstage]; nofun)
  have hheap : (r.apply env ours run.on op).heap =
      Function.update r.heap ptr (some (op.apply env ev)) := by
    unfold Request.apply
    rw [hreach]
    show Function.update r.heap ptr ((r.heap ptr).map _) = _
    rw [hev]
    rfl
  refine ⟨?_, ⟨?_, ?_⟩, ?_⟩
  · rw [apply_event, apply_allocated, apply_stage]
    exact hr.wired
  · rw [apply_event, hheap]
    intro ptr' hptr' _
    cases hevent.symm.trans hptr'
    exact ⟨_, Function.update_self .., apply_eq env op ev ▸ hholds.issue _⟩
  · rw [apply_stage, hstage]
    exact fun _ _ hdone ↦ nomatch hdone
  · rw [apply_event]
    intro hnone
    cases hevent.symm.trans hnone

/-- A change of other events. -/
theorem Covered.others {calls : List (QuietCall p)} (hr : r.Covered env ours start calls)
    {heap : Nat → Option (WideEvent p.EventKey)} (hheap : ∀ ptr ∈ r.event, heap ptr = r.heap ptr)
    {n : Nat} (hle : r.allocated ≤ n) :
    ({ r with heap, allocated := n } : Request S p).Covered env ours start calls := by
  refine ⟨hr.wired.mono hle, ⟨fun ptr hptr hstage ↦ ?_, hr.records.emitted⟩, hr.unborn⟩
  show ∃ ev, heap ptr = some ev ∧ _
  rw [hheap ptr hptr]
  exact hr.records.heap ptr hptr hstage

theorem Step.covered {tc : Toolchain} {input : List TokenTree} (a : Accepted tc input)
    {env : Env a.program.EventKey} {start : Start a.program} {calls : List (QuietCall a.program)}
    {r r' : Request S a.program} {b : RequestStep S a.program} (h : Step env ours start r b r')
    (hwithin : ∀ op, b = .op op → r.Within ours op)
    (hr : r.Covered env ours start calls) : r'.Covered env ours start (calls ++ b.issued) := by
  have hwired := h.wired hr.wired
  have hsilent : calls ++ [] = calls := List.append_nil calls
  cases h with
  | call hstage | wrap hstage | again hstage | pending hstage =>
      exact hsilent.symm ▸ hr.go (by rw [hstage]; nofun) nofun hwired
  | first hstage hbuild =>
      have hevent := hr.wired.event_eq_none (hstage ▸ trivial)
      rw [hr.unborn hevent]
      refine ⟨hwired, ⟨?_, fun _ _ hdone ↦ nomatch hdone⟩, nofun⟩
      rintro _ ⟨⟩ -
      exact ⟨_, Function.update_self .., .of_build hbuild⟩
  | op op hrunning => exact hr.apply hrunning (hwithin op rfl)
  | inner _ hrunning _ hheap =>
      obtain ⟨hold, hnew⟩ := Stage.ne_done_of_running hrunning
      exact hsilent.symm ▸ (hr.others hheap (Nat.le_succ _)).go hold hnew hwired
  | ready _ _ hstage => exact hsilent.symm ▸ hr.finish a (by rw [hstage]; nofun) _ _
  | drop _ _ hstage =>
      refine hsilent.symm ▸ hr.finish a ?_ _ _
      rcases hstage with hstage | ⟨_, _, hstage⟩
      · rw [hstage]
        nofun
      · rw [hstage]
        nofun
  | others _ _ hle hheap => exact hsilent.symm ▸ hr.others hheap hle

/-- The hook of the request is the only one of its task. -/
def Plain (ours : S) (r : Request S p) : Prop :=
  match r.stage with
  | .polling run => run.polls = [] ∧ ∃ base ptr, run.taskLogHooks.Polled base [.seeded ptr ours]
  | .suspended _ hooks => ∃ ptr, hooks = [some (.seeded ptr ours)]
  | .idle | .calling _ | .created | .done => True

theorem Step.plain (h : Step env ours start r a r') (ha : ∀ op, a ≠ .inner op)
    (hr : r.Plain ours) : r'.Plain ours := by
  obtain ⟨stage, event, heap, allocated, emitted⟩ := r
  cases h with
  | call | wrap | ready | drop => trivial
  | @first on =>
      have hidle : TaskLocal.Polled on.taskLogHooks [] ⟨on.taskLogHooks, []⟩ := rfl
      exact ⟨rfl, _, allocated, hidle.enter _⟩
  | again hstage =>
      cases hstage
      obtain ⟨ptr, hhooks⟩ := hr
      exact ⟨rfl, _, ptr, TaskLocal.Idle.resume ⟨rfl, hhooks⟩⟩
  | op =>
      unfold Plain
      rw [apply_stage]
      exact hr
  | inner => exact absurd rfl (ha _)
  | pending hstage =>
      cases hstage
      obtain ⟨-, base, ptr, hpolled⟩ := hr
      exact ⟨ptr, hpolled.suspend.2⟩
  | others => exact hr

/-- **A service without guards and scopes of its own** is covered exactly if it issues
its operations while its future is polled. -/
theorem within_iff_polling (h : Run (Step env ours start) (new heap allocated) tr t)
    (hplain : ∀ x ∈ tr, ∀ op, x.2 ≠ .inner op) :
    (∀ r op, (r, .op op) ∈ tr → r.Within ours op) ↔
      ∀ r op, (r, .op op) ∈ tr → ∃ run, r.stage = .polling run := by
  have hstates := h.invariant (I := Plain ours) (C := fun _ b ↦ ∀ op, b ≠ .inner op)
    (fun ha hC hI ↦ ha.plain hC hI) trivial hplain
  constructor
  · intro hwithin r op hmem
    obtain ⟨run, hstage, -⟩ := hwithin r op hmem
    exact ⟨run, hstage⟩
  · intro hpolling r op hmem
    obtain ⟨run, hstage⟩ := hpolling r op hmem
    have hr := hstates r (h.step_of_mem hmem).1
    unfold Plain at hr
    rw [hstage] at hr
    obtain ⟨hpolls, base, ptr, hpolled⟩ := hr
    refine ⟨run, hstage, by rw [hpolls]; exact List.not_mem_nil, ?_⟩
    cases op with
    | call => trivial
    | log =>
        have hhooks : run.on.taskLogHooks = some (.seeded ptr ours) := hpolled.value_eq
        refine ⟨⟨ours, ptr⟩, ?_, rfl⟩
        unfold ThreadLocals.lastHook
        rw [hhooks]
        rfl

/-- **When the middleware covers the request.**  Every operation of the service reaches
the event of the request, which records them in order, exactly if each is issued within
its polls: not while the service is called, not in a scope of the schema that the service
polls itself, and if it goes through a hook, through that of the schema. -/
theorem middleware_covers_iff {tc : Toolchain} {input : List TokenTree} (a : Accepted tc input)
    {env : Env a.program.EventKey} {ours : S} {start : Start a.program}
    {heap : Nat → Option (WideEvent a.program.EventKey)} {allocated : Nat}
    {tr : List (Request S a.program × RequestStep S a.program)} {t : Request S a.program}
    (h : Run (Step env ours start) (new heap allocated) tr t) :
    ((∀ r op, (r, .op op) ∈ tr → ∃ ptr, t.event = some ptr ∧ r.reach ours op = some ptr) ∧
        t.Records env start (issued tr)) ↔
      ∀ r op, (r, .op op) ∈ tr → r.Within ours op := by
  have hwired := wired_of_run h .idle
  constructor
  · rintro ⟨hreach, -⟩ r op hmem
    obtain ⟨ptr, hevent, hptr⟩ := hreach r op hmem
    obtain ⟨hstate, r', -, hstep⟩ := h.step_of_mem hmem
    have hw := hwired r hstate
    obtain ⟨_, hrest⟩ := h.exists_run_of_mem hmem
    obtain ⟨hkeep, hfresh⟩ := event_of_run hrest hw
    cases hstep with
    | op _ hrunning =>
        rcases Stage.running_cases hrunning with hstage | hstage
        · obtain ⟨hnone, hlt⟩ := hw.reach_lt hstage hptr
          exact absurd hlt (Nat.not_lt.mpr (hfresh hnone ptr hevent))
        · obtain ⟨ptr', hevent'⟩ := hw.exists_event hstage
          cases (hkeep ptr' hevent').symm.trans hevent
          exact (hw.reach_eq_iff hstage hevent' op).mp hptr
  · intro hwithin
    have hnew : (new heap allocated : Request S a.program).Covered env ours start [] :=
      ⟨.idle, ⟨nofun, nofun⟩, fun _ ↦ rfl⟩
    have hcovered := h.history (I := Covered env ours start)
      (C := fun r b ↦ ∀ op, b = .op op → r.Within ours op) RequestStep.issued
      (fun ha hC hI ↦ ha.covered a hC hI) hnew fun x hx op hop ↦ hwithin x.1 op (hop ▸ hx)
    refine ⟨fun r op hmem ↦ ?_, hcovered.records⟩
    have hw := hwired r (h.step_of_mem hmem).1
    obtain ⟨_, hrest⟩ := h.exists_run_of_mem hmem
    obtain ⟨run, hstage, -⟩ := hwithin r op hmem
    obtain ⟨ptr, hevent⟩ := hw.exists_event hstage
    exact ⟨ptr, (event_of_run hrest hw).1 ptr hevent,
      (hw.reach_eq_iff hstage hevent op).mpr (hwithin r op hmem)⟩

/-- A service that logs under a guard of its own, calls within a scope of another schema,
and logs again in a second poll, in a scope around the request. -/
theorem middleware_covers_iff_polled :
    ∃ (p : Program) (t : Request Bool p), t.event = some 0 ∧ t.emitted.isSome := by
  obtain ⟨a, -⟩ := exists_statusSchema
  let start : Start a.program := ⟨none, "id", nofun⟩
  let env : Env a.program.EventKey := .release
  obtain ⟨ev, hbuild, -⟩ := a.build_ret env "id"
  let on : ThreadLocals Bool := .new
  let outer : ThreadLocals Bool := ⟨.new, .thread, some ⟨some 1⟩, some (.seeded 1 false)⟩
  let count : ServiceOp a.program := .call (.append .debug "c")
  obtain ⟨tr, t, hrun, hwithin, hevent, hdone⟩ :
      ∃ tr t, Run (Step env false start) (new (fun _ ↦ none) 0) tr t ∧
        (∀ x ∈ tr, ∀ op, x.2 = .op op → x.1.Within false op) ∧
        t.event = some 0 ∧ t.stage = .done := by
    refine ⟨[(_, .call on), (_, .wrap), (_, .poll on), (_, .inner (.build false)),
        (_, .op (.log .info "a")), (_, .inner (.enter true)), (_, .op count), (_, .inner .leave),
        (_, .pending), (_, .poll outer), (_, .op (.log .info "b")),
        (_, .finish (fun _ ↦ ⟨0⟩) "now")], _,
      .cons (.call rfl (ThreadLocals.below_new 0)) (.cons (.wrap rfl rfl)
      (.cons (.first rfl hbuild) (.cons (.inner _ rfl (.build false) fun _ _ ↦ rfl)
      (.cons (.op _ rfl) (.cons (.inner _ rfl (.enter true) fun _ _ ↦ rfl)
      (.cons (.op _ rfl) (.cons (.inner _ rfl (.leave rfl) fun _ _ ↦ rfl)
      (.cons (.pending rfl rfl) (.cons (.again rfl) (.cons (.op _ rfl)
      (.cons (.ready _ _ rfl rfl) (.nil _)))))))))))), ?_, rfl, rfl⟩
    have hsilent : ∀ (r : Request Bool a.program) (b : RequestStep Bool a.program),
        b.issued = [] → ∀ op, b = .op op → r.Within false op := by
      rintro r _ hb op rfl
      cases hb
    simp only [List.forall_mem_cons]
    refine ⟨hsilent _ _ rfl, hsilent _ _ rfl, hsilent _ _ rfl, hsilent _ _ rfl, ?_,
      hsilent _ _ rfl, ?_, hsilent _ _ rfl, hsilent _ _ rfl, hsilent _ _ rfl, ?_, hsilent _ _ rfl,
      fun _ h ↦ absurd h List.not_mem_nil⟩
    · rintro _ ⟨⟩
      exact ⟨_, rfl, List.not_mem_nil, ⟨false, 1⟩, rfl, rfl⟩
    · rintro _ ⟨⟩
      exact ⟨_, rfl, show false ∉ [true] by decide, trivial⟩
    · rintro _ ⟨⟩
      exact ⟨_, rfl, List.not_mem_nil, ⟨false, 1⟩, rfl, rfl⟩
  obtain ⟨-, hrecords⟩ := (middleware_covers_iff a hrun).mpr fun r op hmem ↦ hwithin _ hmem op rfl
  obtain ⟨ev', -, -, hemitted, -⟩ := hrecords.emitted 0 hevent hdone
  exact ⟨a.program, t, hevent, by rw [hemitted]; rfl⟩

/-- A service that logs while it is called. -/
theorem middleware_does_not_cover : ¬ ∀ {tc : Toolchain} {input : List TokenTree}
    (a : Accepted tc input) (env : Env a.program.EventKey) (start : Start a.program)
    (tr : List (Request Unit a.program × RequestStep Unit a.program)) (t : Request Unit a.program),
    Run (Step env () start) (new (fun _ ↦ none) 0) tr t →
      (∀ r op, (r, .op op) ∈ tr → ∃ ptr, t.event = some ptr ∧ r.reach () op = some ptr) ∧
        t.Records env start (issued tr) := by
  intro h
  obtain ⟨a, -⟩ := exists_statusSchema
  have hrun : Run (Step .release () (⟨none, "id", nofun⟩ : Start a.program))
      (new (fun _ ↦ none) 0) [(_, .call .new), (_, .op (.log .info "a"))] _ :=
    .cons (.call rfl (ThreadLocals.below_new 0)) (.cons (.op _ rfl) (.nil _))
  obtain ⟨hreach, -⟩ := h a _ _ _ _ hrun
  obtain ⟨_, hevent, -⟩ := hreach _ _ (List.mem_cons_of_mem _ List.mem_cons_self)
  cases hevent

end Request

end WideLog
