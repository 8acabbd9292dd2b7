import WideLog.Context
import WideLog.Lib.TaskLocal

/-!
# Guards and scopes of one task

With the `tokio` feature a schema has two cells: `CURRENT_EVENT`, which guards set
and restore, and the task-local `TASK_EVENT`, of which every `scope()` installs a
cell of its own.  `current()` asks the task-local cell first.

A task enters and leaves guards and scopes in well-nested order.  An event stands
for its pointer, and the pointers are allocation numbers, as for the guards of a
thread.
-/

namespace WideLog

/-- A guard that was built and not dropped, or a scope that was entered and not left. -/
inductive Frame where
  | guard (g : WideLogGuard Nat)
  | scope (event : Nat)
deriving DecidableEq

namespace Frame

/-- The event of a guard or scope. -/
def event : Frame → Nat
  | guard g => g.inner
  | scope event => event

/-- The guard of a frame. -/
def guard? : Frame → Option (WideLogGuard Nat)
  | guard g => some g
  | scope _ => none

/-- The event of a scope. -/
def scope? : Frame → Option Nat
  | guard _ => none
  | scope event => some event

@[simp] theorem event_guard (g : WideLogGuard Nat) : (guard g).event = g.inner := rfl

@[simp] theorem event_scope (event : Nat) : (scope event).event = event := rfl

@[simp] theorem filterMap_guard?_guard (g : WideLogGuard Nat) (fs : List Frame) :
    (guard g :: fs).filterMap guard? = g :: fs.filterMap guard? := rfl

@[simp] theorem filterMap_guard?_scope (event : Nat) (fs : List Frame) :
    (scope event :: fs).filterMap guard? = fs.filterMap guard? := rfl

@[simp] theorem filterMap_scope?_guard (g : WideLogGuard Nat) (fs : List Frame) :
    (guard g :: fs).filterMap scope? = fs.filterMap scope? := rfl

@[simp] theorem filterMap_scope?_scope (event : Nat) (fs : List Frame) :
    (scope event :: fs).filterMap scope? = event :: fs.filterMap scope? := rfl

/-- Scopes are listed by their events. -/
theorem mem_scopes {fs : List Frame} {event : Nat} :
    event ∈ fs.filterMap scope? ↔ scope event ∈ fs := by
  rw [List.mem_filterMap]
  constructor
  · rintro ⟨f, hf, hscope⟩
    cases f with
    | guard => cases hscope
    | scope event' =>
        cases hscope
        exact hf
  · intro hf
    exact ⟨_, hf, rfl⟩

end Frame

/-- A task and the cells of the thread that polls it. -/
structure Task where
  currentEvent : ContextCell Nat
  taskEvent : TaskLocal (ContextCell Nat)
  /-- What was entered and not yet left, the latest first. -/
  frames : List Frame
  allocated : Nat
deriving DecidableEq

/-- What a task does to its guards and scopes.  It yields when a poll returns
`Pending`; then the next poll takes up where it stopped.  It is assumed that the next
poll is on the same thread and that nothing else has set `CURRENT_EVENT` there in the
meantime: a task that may move to another thread is not to hold a guard across a poll. -/
inductive TaskOp where
  | build
  | drop
  | enter
  | leave
  | yield
deriving DecidableEq

namespace Task

/-- A task before its first guard or scope. -/
def new : Task := ⟨.new, .new, [], 0⟩

/-- `current()`. -/
def current (t : Task) : Option Nat :=
  match t.taskEvent.value.bind ContextCell.getPtr with
  | some ptr => some ptr
  | none => t.currentEvent.getPtr

/-- `WideLogGuardBuilder::build`. -/
def build (t : Task) : Task :=
  let ptr := t.allocated
  let (cell, prev) := t.currentEvent.replace (some ptr)
  { t with currentEvent := cell, frames := .guard ⟨ptr, prev⟩ :: t.frames, allocated := ptr + 1 }

/-- The first poll of `scope()`: the event goes into a cell of its own, which
`TASK_EVENT.scope` installs. -/
def enter (t : Task) : Task :=
  let ptr := t.allocated
  let (cell, _) := (ContextCell.new).replace (some ptr)
  { t with
    taskEvent := t.taskEvent.enter cell
    frames := .scope ptr :: t.frames
    allocated := ptr + 1 }

/-- The steps of a task: what it entered last it leaves first. -/
inductive Step (debugAssertions : Bool) : Task → TaskOp → Task → Prop where
  | build (t : Task) : Step debugAssertions t .build t.build
  | drop {t : Task} {g : WideLogGuard Nat} {fs : List Frame} {cell : ContextCell Nat} :
      t.frames = .guard g :: fs → g.drop debugAssertions t.currentEvent = .ret cell →
      Step debugAssertions t .drop { t with currentEvent := cell, frames := fs }
  | enter (t : Task) : Step debugAssertions t .enter t.enter
  | leave {t : Task} {event : Nat} {fs : List Frame} :
      t.frames = .scope event :: fs →
      Step debugAssertions t .leave { t with taskEvent := t.taskEvent.leave, frames := fs }
  | yield (t : Task) :
      Step debugAssertions t .yield { t with taskEvent := t.taskEvent.suspend.resume }

/-- The event of what was entered last and has not been left. -/
def innermost (t : Task) : Option Nat := t.frames.head?.map Frame.event

/-- The events of the open scopes, innermost first. -/
def scopes (t : Task) : List Nat := t.frames.filterMap Frame.scope?

/-- The live guards, innermost first. -/
def guards (t : Task) : List (WideLogGuard Nat) := t.frames.filterMap Frame.guard?

/-- No guard is built while a scope is open. -/
def OutsideScopes (t : Task) (op : TaskOp) : Prop := op = .build → t.scopes = []

instance (t : Task) (op : TaskOp) : Decidable (t.OutsideScopes op) :=
  inferInstanceAs (Decidable (op = .build → t.scopes = []))

/-! ## The two cells -/

/-- Each storage follows the frames of its kind, and no two events are the same. -/
structure Mirrored (t : Task) : Prop where
  task : t.taskEvent.Polled none (t.scopes.map fun event ↦ ⟨some event⟩)
  thread : Thread.Stacked t.currentEvent.ptr t.guards
  lt : ∀ f ∈ t.frames, f.event < t.allocated
  nodup : (t.frames.map Frame.event).Nodup

variable {debugAssertions : Bool} {t t' : Task} {op : TaskOp}

theorem Step.cases (h : Step debugAssertions t op t') :
    (op = .build ∧ t' = ⟨⟨some t.allocated⟩, t.taskEvent,
        .guard ⟨t.allocated, t.currentEvent.ptr⟩ :: t.frames, t.allocated + 1⟩) ∨
    (∃ g fs, op = .drop ∧ t.frames = .guard g :: fs ∧
        t' = ⟨⟨g.prev⟩, t.taskEvent, fs, t.allocated⟩) ∨
    (op = .enter ∧ t' = ⟨t.currentEvent, t.taskEvent.enter ⟨some t.allocated⟩,
        .scope t.allocated :: t.frames, t.allocated + 1⟩) ∨
    (∃ event fs, op = .leave ∧ t.frames = .scope event :: fs ∧
        t' = ⟨t.currentEvent, t.taskEvent.leave, fs, t.allocated⟩) ∨
    (op = .yield ∧ t' = t) := by
  cases h with
  | build => exact .inl ⟨rfl, rfl⟩
  | @drop g fs cell hframes hcell =>
      rw [WideLogGuard.drop_eq] at hcell
      cases hcell
      exact .inr (.inl ⟨g, fs, rfl, hframes, rfl⟩)
  | enter => exact .inr (.inr (.inl ⟨rfl, rfl⟩))
  | @leave event fs hframes => exact .inr (.inr (.inr (.inl ⟨event, fs, rfl, hframes, rfl⟩)))
  | yield =>
      refine .inr (.inr (.inr (.inr ⟨rfl, ?_⟩)))
      rw [TaskLocal.resume_suspend]

theorem mirrored_new : new.Mirrored :=
  ⟨TaskLocal.polled_new, Thread.stacked_new, fun _ hf ↦ (nomatch hf), List.nodup_nil⟩

/-- A frame with a new event keeps the events apart. -/
theorem Mirrored.push (ht : t.Mirrored) {f : Frame} (hf : f.event = t.allocated) :
    (∀ f' ∈ f :: t.frames, f'.event < t.allocated + 1) ∧
      ((f :: t.frames).map Frame.event).Nodup := by
  refine ⟨?_, ?_⟩
  · rw [List.forall_mem_cons]
    exact ⟨by rw [hf]; exact Nat.lt_succ_self _, fun f' hf' ↦ Nat.lt_succ_of_lt (ht.lt f' hf')⟩
  · rw [List.map_cons, List.nodup_cons]
    refine ⟨?_, ht.nodup⟩
    intro hmem
    obtain ⟨f', hf', heq⟩ := List.mem_map.mp hmem
    exact Nat.ne_of_lt (ht.lt f' hf') (heq.trans hf)

theorem Mirrored.pop (ht : t.Mirrored) {f : Frame} {fs : List Frame}
    (hframes : t.frames = f :: fs) :
    (∀ f' ∈ fs, f'.event < t.allocated) ∧ (fs.map Frame.event).Nodup := by
  have hlt := ht.lt
  have hnodup := ht.nodup
  rw [hframes] at hlt hnodup
  exact ⟨fun f' hf' ↦ hlt f' (List.mem_cons_of_mem _ hf'), (List.nodup_cons.mp hnodup).2⟩

theorem Mirrored.step (h : Step debugAssertions t op t') (ht : t.Mirrored) : t'.Mirrored := by
  have htask := ht.task
  have hthread := ht.thread
  rcases h.cases with ⟨-, rfl⟩ | ⟨g, fs, -, hframes, rfl⟩ | ⟨-, rfl⟩ |
    ⟨event, fs, -, hframes, rfl⟩ | ⟨-, rfl⟩
  · obtain ⟨hlt, hnodup⟩ := ht.push (f := .guard ⟨t.allocated, t.currentEvent.ptr⟩) rfl
    exact ⟨htask, ⟨rfl, hthread⟩, hlt, hnodup⟩
  · obtain ⟨hlt, hnodup⟩ := ht.pop hframes
    unfold scopes at htask
    unfold guards at hthread
    rw [hframes] at htask hthread
    exact ⟨htask, hthread.2, hlt, hnodup⟩
  · obtain ⟨hlt, hnodup⟩ := ht.push (f := .scope t.allocated) rfl
    exact ⟨htask.enter _, hthread, hlt, hnodup⟩
  · obtain ⟨hlt, hnodup⟩ := ht.pop hframes
    unfold scopes at htask
    unfold guards at hthread
    rw [hframes] at htask hthread
    exact ⟨htask.leave, hthread, hlt, hnodup⟩
  · exact ht

/-- `current()` is the event of the innermost scope, and only without an open scope
that of the innermost guard. -/
theorem Mirrored.current_eq (ht : t.Mirrored) :
    t.current = (t.scopes ++ t.guards.map WideLogGuard.inner).head? := by
  unfold current
  rw [ht.task.value_eq]
  cases hscopes : t.scopes with
  | cons event scopes => rfl
  | nil =>
      have hthread := ht.thread
      cases hguards : t.guards with
      | nil =>
          rw [hguards] at hthread
          exact hthread
      | cons g gs =>
          rw [hguards] at hthread
          exact hthread.1

/-! ## Runs -/

/-- No guard was entered after an open scope. -/
def Layered (fs : List Frame) : Prop :=
  fs.map Frame.event =
    fs.filterMap Frame.scope? ++ (fs.filterMap Frame.guard?).map WideLogGuard.inner

theorem layered_scope {event : Nat} {fs : List Frame} :
    Layered (.scope event :: fs) ↔ Layered fs := by
  simp [Layered]

theorem layered_guard {g : WideLogGuard Nat} {fs : List Frame}
    (hscopes : fs.filterMap Frame.scope? = []) : Layered (.guard g :: fs) ↔ Layered fs := by
  simp [Layered, hscopes]

/-- Below a guard there are only guards. -/
theorem Layered.scopes_eq_nil {g : WideLogGuard Nat} {fs : List Frame}
    (h : Layered (.guard g :: fs)) (hnodup : (g.inner :: fs.map Frame.event).Nodup) :
    fs.filterMap Frame.scope? = [] := by
  cases hscopes : fs.filterMap Frame.scope? with
  | nil => rfl
  | cons event scopes =>
      exfalso
      have hhead : g.inner = event := by
        unfold Layered at h
        rw [Frame.filterMap_scope?_guard, hscopes] at h
        exact (List.cons_eq_cons.mp h).1
      have hmem : Frame.scope event ∈ fs := Frame.mem_scopes.mp (by simp [hscopes])
      rw [List.nodup_cons] at hnodup
      exact hnodup.1 (List.mem_map.mpr ⟨_, hmem, hhead.symm⟩)

theorem Layered.step (h : Step debugAssertions t op t') (hop : t.OutsideScopes op)
    (ht : t.Mirrored ∧ Layered t.frames) : t'.Mirrored ∧ Layered t'.frames := by
  refine ⟨ht.1.step h, ?_⟩
  obtain ⟨hmirrored, hlayered⟩ := ht
  rcases h.cases with ⟨rfl, rfl⟩ | ⟨g, fs, -, hframes, rfl⟩ | ⟨-, rfl⟩ |
    ⟨event, fs, -, hframes, rfl⟩ | ⟨-, rfl⟩
  · exact (layered_guard (hop rfl)).mpr hlayered
  · have hnodup := hmirrored.nodup
    rw [hframes] at hlayered hnodup
    exact (layered_guard (hlayered.scopes_eq_nil hnodup)).mp hlayered
  · exact layered_scope.mpr hlayered
  · rw [hframes] at hlayered
    exact layered_scope.mp hlayered
  · exact hlayered

/-- A guard that is built inside a scope is not current. -/
theorem Step.outsideScopes (h : Step debugAssertions t op t') (ht : t.Mirrored)
    (hcurrent : t'.current = t'.innermost) : t.OutsideScopes op := by
  rintro rfl
  have ht' := ht.step h
  rcases h.cases with ⟨-, rfl⟩ | ⟨-, -, ⟨⟩, -⟩ | ⟨⟨⟩, -⟩ | ⟨-, -, ⟨⟩, -⟩ | ⟨⟨⟩, -⟩
  rw [ht'.current_eq] at hcurrent
  cases hscopes : t.scopes with
  | nil => rfl
  | cons event scopes =>
      exfalso
      have hframes : t.frames.filterMap Frame.scope? = event :: scopes := hscopes
      have hmem : Frame.scope event ∈ t.frames := Frame.mem_scopes.mp (by simp [hframes])
      have heq : event = t.allocated := by
        unfold Task.scopes at hcurrent
        rw [Frame.filterMap_scope?_guard, hframes] at hcurrent
        exact Option.some.inj hcurrent
      exact Nat.ne_of_lt (ht.lt _ hmem) heq

variable {tr : List (Task × TaskOp)}

/-- **`current()` is the event of what was entered last exactly when no guard is
built inside a scope.** -/
theorem current_innermost_iff (h : Run (Step debugAssertions) new tr t) :
    (∀ r ∈ Run.states tr t, r.current = r.innermost) ↔ ∀ x ∈ tr, x.1.OutsideScopes x.2 := by
  constructor
  · intro hcurrent x hx
    have hmirrored : ∀ r ∈ Run.states tr t, r.Mirrored :=
      h.always (I := Mirrored) Mirrored.step mirrored_new
    obtain ⟨hmem, s', hs', hstep⟩ := h.step_of_mem hx
    exact hstep.outsideScopes (hmirrored _ hmem) (hcurrent s' hs')
  · intro hops r hr
    obtain ⟨hmirrored, hlayered⟩ :=
      h.invariant (I := fun r ↦ r.Mirrored ∧ Layered r.frames) Layered.step
        ⟨mirrored_new, by rfl⟩ hops r hr
    rw [hmirrored.current_eq]
    exact (congrArg List.head? hlayered).symm.trans List.head?_map

/-- The steps of a task that enters a scope inside a guard, and yields in it. -/
def scopeInGuard : List (Task × TaskOp) :=
  [(new, .build), (new.build, .enter), (new.build.enter, .yield), (new.build.enter, .leave),
    (⟨⟨some 0⟩, .new, [.guard ⟨0, none⟩], 2⟩, .drop)]

theorem current_innermost_iff_scopeInGuard :
    (∀ x ∈ scopeInGuard, x.1.OutsideScopes x.2) ∧
      ∀ r ∈ Run.states scopeInGuard ⟨.new, .new, [], 2⟩, r.current = r.innermost := by
  have hrun : Run (Step true) new scopeInGuard ⟨.new, .new, [], 2⟩ :=
    .cons (.build _) (.cons (.enter _) (.cons (.yield _) (.cons (.leave rfl)
      (.cons (.drop rfl rfl) (.nil _)))))
  have hops : ∀ x ∈ scopeInGuard, x.1.OutsideScopes x.2 := by decide
  exact ⟨hops, (current_innermost_iff hrun).mpr hops⟩

/-- **A guard that is built inside a scope is not current**: field writes go to the
event of the scope. -/
theorem current_not_innermost :
    ¬ ∀ tr t, Run (Step true) new tr t → ∀ r ∈ Run.states tr t, r.current = r.innermost := by
  intro h
  have hrun : Run (Step true) new [(new, .enter), (new.enter, .build)] new.enter.build :=
    .cons (.enter _) (.cons (.build _) (.nil _))
  have hcurrent := h _ _ hrun _ (Run.mem_states_last _ _)
  exact absurd hcurrent (by decide)

end Task

end WideLog
