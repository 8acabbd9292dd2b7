import WideLog.Context
import WideLog.Hooks.Registry
import WideLog.Lib.TaskLocal
import WideLog.Macros.Recording
import Mathlib.Data.List.Forall2
import Mathlib.Logic.Function.Basic

/-!
# Scopes of many tasks

Tasks run programs of nested `scope()` blocks, without sync guards, and are polled on
any threads in any order, each thread polling one task at a time.  A scope installs
two task-local values, the cell with the pointer to its event and the stack with its
hook; both are exchanged with the slots of the thread at each poll.

A task that is dropped between two polls drops its innermost scope first.  Each scope
is re-entered while what it contains is dropped, so destructors still find its event;
the event itself is finished and emitted after the scope was left, as in a task that
runs to its end.
-/

namespace WideLog

open Macros

/-- What a scope installs: the values of `TASK_EVENT` and of `TASK_LOG_HOOKS`. -/
structure ScopeLocals where
  event : ContextCell Nat
  hooks : HookStack Unit
deriving DecidableEq

/-- The values `scope()` installs for an event. -/
def ScopeLocals.of (ptr : Nat) : ScopeLocals :=
  ⟨((ContextCell.new).replace (some ptr)).1, .seeded ptr ()⟩

/-- How far a task has come. -/
inductive Phase where
  | running
  | dropping
  | done
deriving DecidableEq

/-- A task: the events of its open scopes, the innermost first, the slots of their
futures, and the thread that is polling or dropping it. -/
structure ScopedTask (Θ : Type) where
  scopes : List Nat
  slots : List (Option ScopeLocals)
  on : Option Θ
  phase : Phase

/-- A runtime with threads `Θ` and tasks `T`. -/
structure Runtime (Θ T : Type) (p : Program) where
  currentEvent : Θ → ContextCell Nat
  logHooks : Θ → HookStack Unit
  taskLocals : Θ → Option ScopeLocals
  tasks : T → ScopedTask Θ
  heap : Nat → Option (WideEvent p.EventKey)
  emitted : List (T × WideEvent p.EventKey)
  allocated : Nat

/-- What a task does, or what is done with it. -/
inductive ScopeOp (Θ : Type) (p : Program) where
  | poll (θ : Θ)
  | pending
  | enter (start : Start p)
  | call (call : QuietCall p)
  | log (level : Level) (message : String)
  | leave (elapsed : String → F64) (now : String)
  | cancel (θ : Θ)
  | finish

namespace Runtime

variable {Θ T : Type} {p : Program}

/-- A runtime whose tasks have not been polled. -/
def new : Runtime Θ T p :=
  ⟨fun _ ↦ .new, fun _ ↦ .thread, fun _ ↦ none, fun _ ↦ ⟨[], [], none, .running⟩,
    fun _ ↦ none, [], 0⟩

/-- `current()` on a thread. -/
def current (t : Runtime Θ T p) (θ : Θ) : Option Nat :=
  match (t.taskLocals θ).bind (·.event.getPtr) with
  | some ptr => some ptr
  | none => (t.currentEvent θ).getPtr

/-- The last hook `append_log_entry` finds. -/
def lastHook (t : Runtime Θ T p) (θ : Θ) : Option (Hook Unit) :=
  match (t.taskLocals θ).bind (·.hooks.hooks.head?) with
  | some hook => some hook
  | none => (t.logHooks θ).hooks.head?

/-- The slots of a thread and of the scopes of a task. -/
def slots (t : Runtime Θ T p) (τ : T) (θ : Θ) : TaskLocal ScopeLocals :=
  ⟨t.taskLocals θ, (t.tasks τ).slots⟩

/-- A change of the event a pointer points to. -/
def modify (ptr : Option Nat) (f : WideEvent p.EventKey → WideEvent p.EventKey)
    (t : Runtime Θ T p) : Runtime Θ T p :=
  match ptr with
  | some ptr => { t with heap := Function.update t.heap ptr ((t.heap ptr).map f) }
  | none => t

variable [DecidableEq Θ] [DecidableEq T]

/-- A task and a thread after a step of the task on the thread. -/
def set (τ : T) (task : ScopedTask Θ) (θ : Θ) (slot : Option ScopeLocals) (t : Runtime Θ T p) :
    Runtime Θ T p :=
  { t with
    tasks := Function.update t.tasks τ task
    taskLocals := Function.update t.taskLocals θ slot }

/-- A poll, or the drop, of a task begins on a thread. -/
def begin (τ : T) (θ : Θ) (phase : Phase) (t : Runtime Θ T p) : Runtime Θ T p :=
  let l := (t.slots τ θ).resume
  t.set τ { t.tasks τ with slots := l.slots, on := some θ, phase } θ l.value

/-- A poll, or the drop, of a task ends. -/
def stop (τ : T) (θ : Θ) (phase : Phase) (t : Runtime Θ T p) : Runtime Θ T p :=
  let l := (t.slots τ θ).suspend
  t.set τ { t.tasks τ with slots := l.slots, on := none, phase } θ l.value

/-- The first poll of `scope()`, from the event it has set up. -/
def enter (τ : T) (θ : Θ) (ev : WideEvent p.EventKey) (t : Runtime Θ T p) : Runtime Θ T p :=
  let ptr := t.allocated
  let l := (t.slots τ θ).enter (.of ptr)
  { t.set τ { t.tasks τ with scopes := ptr :: (t.tasks τ).scopes, slots := l.slots } θ l.value with
    heap := Function.update t.heap ptr (some ev)
    allocated := ptr + 1 }

/-- The event that reaches the emit function, unless there was a panic on the way. -/
def finished : Outcome (WideEvent p.EventKey) → Option (WideEvent p.EventKey)
  | .ret ev => some ev
  | .panic _ => none

/-- `Drop for ScopedGuard`. -/
def emit (env : Env p.EventKey) (τ : T) (ptr : Nat) (elapsed : String → F64) (now : String)
    (t : Runtime Θ T p) : Runtime Θ T p :=
  { t with
    heap := Function.update t.heap ptr none
    emitted := t.emitted ++
      ((t.heap ptr).bind fun ev ↦ finished (ev.dropWrites env elapsed now)).toList.map (τ, ·) }

/-- A scope is left, and its event emitted. -/
def leave (env : Env p.EventKey) (τ : T) (θ : Θ) (ptr : Nat) (scopes : List Nat)
    (elapsed : String → F64) (now : String) (t : Runtime Θ T p) : Runtime Θ T p :=
  let l := (t.slots τ θ).leave
  (t.set τ { t.tasks τ with scopes, slots := l.slots } θ l.value).emit env τ ptr elapsed now

/-- The steps of a runtime: an operation of one of the tasks. -/
inductive Step (env : Env p.EventKey) :
    Runtime Θ T p → T × ScopeOp Θ p → Runtime Θ T p → Prop where
  | poll {t : Runtime Θ T p} {τ : T} {θ : Θ} :
      (t.tasks τ).phase = .running → (t.tasks τ).on = none → (∀ τ', (t.tasks τ').on ≠ some θ) →
      Step env t (τ, .poll θ) (t.begin τ θ .running)
  | pending {t : Runtime Θ T p} {τ : T} {θ : Θ} :
      (t.tasks τ).phase = .running → (t.tasks τ).on = some θ →
      Step env t (τ, .pending) (t.stop τ θ .running)
  | enter {t : Runtime Θ T p} {τ : T} {θ : Θ} {start : Start p} {ev : WideEvent p.EventKey} :
      (t.tasks τ).phase = .running → (t.tasks τ).on = some θ →
      p.build env start.preset start.id = .ret ev →
      Step env t (τ, .enter start) (t.enter τ θ ev)
  | call {t : Runtime Θ T p} {τ : T} {θ : Θ} (call : QuietCall p) :
      (t.tasks τ).on = some θ →
      Step env t (τ, .call call) (t.modify (t.current θ) fun ev ↦ (call.val.apply env ev).state)
  | log {t : Runtime Θ T p} {τ : T} {θ : Θ} (level : Level) (message : String) :
      (t.tasks τ).on = some θ →
      Step env t (τ, .log level message) (t.modify ((t.lastHook θ).bind fun _ ↦ t.current θ)
        fun ev ↦ ev.appendLogEntry level.asStr message)
  | leave {t : Runtime Θ T p} {τ : T} {θ : Θ} {ptr : Nat} {scopes : List Nat}
      (elapsed : String → F64) (now : String) :
      (t.tasks τ).on = some θ → (t.tasks τ).scopes = ptr :: scopes →
      Step env t (τ, .leave elapsed now) (t.leave env τ θ ptr scopes elapsed now)
  | cancel {t : Runtime Θ T p} {τ : T} {θ : Θ} :
      (t.tasks τ).phase = .running → (t.tasks τ).on = none → (∀ τ', (t.tasks τ').on ≠ some θ) →
      Step env t (τ, .cancel θ) (t.begin τ θ .dropping)
  | finish {t : Runtime Θ T p} {τ : T} {θ : Θ} :
      (t.tasks τ).on = some θ → (t.tasks τ).scopes = [] →
      Step env t (τ, .finish) (t.stop τ θ .done)

end Runtime

/-- The operations of one task. -/
def ScopeOp.ofTask {Θ T : Type} {p : Program} [DecidableEq T] (τ : T)
    (ops : List (T × ScopeOp Θ p)) : List (ScopeOp Θ p) :=
  (ops.filter (·.1 = τ)).map Prod.snd

/-- An operation that enters a scope. -/
def ScopeOp.isEnter {Θ : Type} {p : Program} : ScopeOp Θ p → Bool
  | .enter _ => true
  | _ => false

/-! ## A task on its own -/

/-- What a task records when it runs alone: its open scopes, the innermost first, and
those it has left. -/
structure Solo (p : Program) where
  opened : List (Recording p)
  left : List (GuardRun p)

namespace Solo

variable {Θ : Type} {p : Program}

/-- A call goes to the innermost scope. -/
def issue (call : QuietCall p) (s : Solo p) : Solo p :=
  match s.opened with
  | r :: rs => { s with opened := r.issue call :: rs }
  | [] => s

/-- What an operation of the task adds. -/
def step (env : Env p.EventKey) (s : Solo p) : ScopeOp Θ p → Solo p
  | .enter start => { s with opened := ⟨start, []⟩ :: s.opened }
  | .call call => s.issue call
  | .log level message => s.issue (.append level message)
  | .leave elapsed now => match s.opened with
    | r :: rs => ⟨rs, s.left ++ [r.run env elapsed now]⟩
    | [] => s
  | _ => s

/-- What the operations of a task record. -/
def of (env : Env p.EventKey) (ops : List (ScopeOp Θ p)) : Solo p := ops.foldl (step env) ⟨[], []⟩

theorem size_issue (call : QuietCall p) (s : Solo p) :
    (s.issue call).opened.length + (s.issue call).left.length =
      s.opened.length + s.left.length := by
  unfold issue
  split
  · next hopened =>
      rw [hopened]
      rfl
  · rfl

/-- Every scope that was entered is open, or has been left. -/
theorem size_foldl (env : Env p.EventKey) (s : Solo p) (ops : List (ScopeOp Θ p)) :
    (ops.foldl (step env) s).opened.length + (ops.foldl (step env) s).left.length =
      s.opened.length + s.left.length + ops.countP ScopeOp.isEnter := by
  induction ops generalizing s with
  | nil => rfl
  | cons op ops ih =>
      rw [List.foldl_cons, ih, List.countP_cons]
      cases op with
      | enter start =>
          show s.opened.length + 1 + s.left.length + _ = s.opened.length + s.left.length + (_ + 1)
          omega
      | call call =>
          show (s.issue call).opened.length + (s.issue call).left.length + _ = _
          rw [size_issue]
          rfl
      | log level message =>
          show (s.issue _).opened.length + (s.issue _).left.length + _ = _
          rw [size_issue]
          rfl
      | leave elapsed now =>
          unfold step
          cases hopened : s.opened with
          | nil => simp [ScopeOp.isEnter, hopened]
          | cons r rs =>
              simp [ScopeOp.isEnter]
              omega
      | _ => rfl

end Solo

namespace Runtime

/-- A symmetric relation holds of all pairs if it holds of those with `a` and of those
without. -/
theorem forall_pairs {ι : Type} {P : ι → ι → Prop} (a : ι) (hsymm : ∀ i j, P i j → P j i)
    (hself : P a a) (hone : ∀ j, j ≠ a → P a j) (hrest : ∀ i j, i ≠ a → j ≠ a → P i j) :
    ∀ i j, P i j := by
  intro i j
  by_cases hi : i = a <;> by_cases hj : j = a
  · exact hi ▸ hj ▸ hself
  · exact hi ▸ hone j hj
  · exact hj ▸ hsymm _ _ (hone i hi)
  · exact hrest i j hi hj

variable {Θ T : Type} {p : Program}

/-! ## The slots -/

/-- The slots of threads and tasks hold what the open scopes have installed. -/
structure Wired (t : Runtime Θ T p) : Prop where
  currentEvent : ∀ θ, t.currentEvent θ = .new
  logHooks : ∀ θ, t.logHooks θ = .thread
  free : ∀ θ, (∀ τ, (t.tasks τ).on ≠ some θ) → t.taskLocals θ = none
  alone : ∀ τ τ' θ, (t.tasks τ).on = some θ → (t.tasks τ').on = some θ → τ = τ'
  polled : ∀ τ θ, (t.tasks τ).on = some θ →
    (t.slots τ θ).Polled none ((t.tasks τ).scopes.map .of)
  idle : ∀ τ, (t.tasks τ).on = none → (t.tasks τ).slots = ((t.tasks τ).scopes.map .of).map some
  ended : ∀ τ, (t.tasks τ).phase = .done → (t.tasks τ).on = none ∧ (t.tasks τ).scopes = []

variable {t t' : Runtime Θ T p} {τ : T} {θ : Θ}

theorem wired_new : (new : Runtime Θ T p).Wired where
  currentEvent _ := rfl
  logHooks _ := rfl
  free _ _ := rfl
  alone _ _ _ h := by cases h
  polled _ _ h := by cases h
  idle _ _ := rfl
  ended _ h := by cases h

/-- A polled task finds the event of its innermost scope. -/
theorem Wired.current_eq (ht : t.Wired) (hon : (t.tasks τ).on = some θ) :
    t.current θ = (t.tasks τ).scopes.head? := by
  have hvalue : t.taskLocals θ = _ := (ht.polled τ θ hon).value_eq
  unfold current
  rw [hvalue, ht.currentEvent]
  cases (t.tasks τ).scopes <;> rfl

/-- The hook of the innermost scope is the last one. -/
theorem Wired.lastHook_eq (ht : t.Wired) (hon : (t.tasks τ).on = some θ) :
    t.lastHook θ = (t.tasks τ).scopes.head?.map (⟨(), ·⟩) := by
  have hvalue : t.taskLocals θ = _ := (ht.polled τ θ hon).value_eq
  unfold lastHook
  rw [hvalue, ht.logHooks]
  cases (t.tasks τ).scopes <;> rfl

theorem Wired.phase_ne (ht : t.Wired) (hon : (t.tasks τ).on = some θ) :
    (t.tasks τ).phase ≠ .done := by
  intro hphase
  cases hon.symm.trans (ht.ended τ hphase).1

/-- The thread of a task polls no other task. -/
theorem Wired.ne_of_on (ht : t.Wired) (hon : (t.tasks τ).on = some θ) :
    (∀ τ', τ' ≠ τ → (t.tasks τ').on ≠ some θ) ∧ ∀ θ', (t.tasks τ).on = some θ' → θ' = θ :=
  ⟨fun τ' hτ hon' ↦ hτ (ht.alone τ' τ θ hon' hon),
    fun _ hon' ↦ Option.some.inj (hon'.symm.trans hon)⟩

theorem Wired.emit (ht : t.Wired) (env : Env p.EventKey) (τ : T) (ptr : Nat)
    (elapsed : String → F64) (now : String) : (t.emit env τ ptr elapsed now).Wired :=
  { ht with }

theorem Wired.modify (ht : t.Wired) (ptr : Option Nat)
    (f : WideEvent p.EventKey → WideEvent p.EventKey) : (t.modify ptr f).Wired := by
  cases ptr with
  | none => exact ht
  | some ptr => exact { ht with }

variable [DecidableEq Θ] [DecidableEq T]

section Set

variable {task : ScopedTask Θ} {slot : Option ScopeLocals}

@[simp] theorem set_tasks_self : (t.set τ task θ slot).tasks τ = task := Function.update_self ..

theorem set_tasks_of_ne {τ' : T} (hτ : τ' ≠ τ) : (t.set τ task θ slot).tasks τ' = t.tasks τ' :=
  Function.update_of_ne hτ ..

@[simp] theorem set_taskLocals_self : (t.set τ task θ slot).taskLocals θ = slot :=
  Function.update_self ..

theorem set_taskLocals_of_ne {θ' : Θ} (hθ : θ' ≠ θ) :
    (t.set τ task θ slot).taskLocals θ' = t.taskLocals θ' :=
  Function.update_of_ne hθ ..

theorem forall_set (P : T → ScopedTask Θ → Prop) :
    (∀ τ', P τ' ((t.set τ task θ slot).tasks τ')) ↔
      P τ task ∧ ∀ τ', τ' ≠ τ → P τ' (t.tasks τ') := Function.forall_update_iff _ P

end Set

/-- A step of a task on a thread leaves the slots of other tasks and threads. -/
theorem Wired.set (ht : t.Wired) (hθ : ∀ τ', τ' ≠ τ → (t.tasks τ').on ≠ some θ)
    (hon : ∀ θ', (t.tasks τ).on = some θ' → θ' = θ) {task : ScopedTask Θ}
    {slot : Option ScopeLocals}
    (h : task.on = some θ ∧ TaskLocal.Polled none (task.scopes.map .of) ⟨slot, task.slots⟩ ∨
      task.on = none ∧ TaskLocal.Idle none (task.scopes.map .of) ⟨slot, task.slots⟩)
    (hended : task.phase = .done → task.on = none ∧ task.scopes = []) :
    (t.set τ task θ slot).Wired := by
  have hne : ∀ τ' θ', τ' ≠ τ → (t.tasks τ').on = some θ' → θ' ≠ θ := by
    rintro τ' θ' hτ hon' rfl
    exact hθ τ' hτ hon'
  have honθ : ∀ θ', task.on = some θ' → θ' = θ := by
    intro θ' hθ'
    rcases h with ⟨hsome, -⟩ | ⟨hnone, -⟩
    · exact Option.some.inj (hθ'.symm.trans hsome)
    · cases hnone.symm.trans hθ'
  refine ⟨ht.currentEvent, ht.logHooks, ?_, ?_, ?_, ?_, ?_⟩
  · intro θ' hfree
    by_cases hθ' : θ' = θ
    · subst hθ'
      rw [set_taskLocals_self]
      rcases h with ⟨hsome, -⟩ | ⟨-, hidle⟩
      · exact absurd ((congrArg ScopedTask.on set_tasks_self).trans hsome) (hfree τ)
      · exact hidle.1
    · rw [set_taskLocals_of_ne hθ']
      refine ht.free θ' fun τ' hτ' ↦ ?_
      by_cases hτ : τ' = τ
      · subst hτ
        exact hθ' (hon θ' hτ')
      · exact hfree τ' (by rw [set_tasks_of_ne hτ, hτ'])
  · refine forall_pairs τ (fun _ _ h θ' h₁ h₂ ↦ (h θ' h₂ h₁).symm) (fun _ _ _ ↦ rfl) ?_ ?_
    · intro τ' hτ θ' h₁ h₂
      rw [set_tasks_self] at h₁
      rw [set_tasks_of_ne hτ] at h₂
      exact absurd (honθ θ' h₁) (hne τ' θ' hτ h₂)
    · intro τ₁ τ₂ hτ₁ hτ₂ θ' h₁ h₂
      rw [set_tasks_of_ne hτ₁] at h₁
      rw [set_tasks_of_ne hτ₂] at h₂
      exact ht.alone τ₁ τ₂ θ' h₁ h₂
  · intro τ' θ' hon'
    unfold slots
    by_cases hτ : τ' = τ
    · subst hτ
      rw [set_tasks_self] at hon' ⊢
      cases honθ θ' hon'
      rw [set_taskLocals_self]
      rcases h with ⟨-, hpolled⟩ | ⟨hnone, -⟩
      · exact hpolled
      · cases hnone.symm.trans hon'
    · rw [set_tasks_of_ne hτ] at hon' ⊢
      rw [set_taskLocals_of_ne (hne τ' θ' hτ hon')]
      exact ht.polled τ' θ' hon'
  · rw [forall_set fun _ s ↦ s.on = none → s.slots = (s.scopes.map .of).map some]
    refine ⟨fun hon' ↦ ?_, fun τ' _ ↦ ht.idle τ'⟩
    rcases h with ⟨hsome, -⟩ | ⟨-, hidle⟩
    · cases hon'.symm.trans hsome
    · exact hidle.2
  · rw [forall_set fun _ s ↦ s.phase = .done → s.on = none ∧ s.scopes = []]
    exact ⟨hended, fun τ' _ ↦ ht.ended τ'⟩

theorem Wired.begin (ht : t.Wired) (hon : (t.tasks τ).on = none)
    (hfree : ∀ τ', (t.tasks τ').on ≠ some θ) {phase : Phase} (hphase : phase ≠ .done) :
    (t.begin τ θ phase).Wired := by
  have hidle : TaskLocal.Idle none ((t.tasks τ).scopes.map .of) (t.slots τ θ) :=
    ⟨ht.free θ hfree, ht.idle τ hon⟩
  exact ht.set (fun τ' _ ↦ hfree τ') (fun θ' hon' ↦ by cases hon.symm.trans hon')
    (.inl ⟨rfl, hidle.resume⟩) fun hdone ↦ absurd hdone hphase

theorem Wired.stop (ht : t.Wired) (hon : (t.tasks τ).on = some θ) {phase : Phase}
    (hphase : phase = .done → (t.tasks τ).scopes = []) : (t.stop τ θ phase).Wired :=
  ht.set (ht.ne_of_on hon).1 (ht.ne_of_on hon).2 (.inr ⟨rfl, (ht.polled τ θ hon).suspend⟩)
    fun hdone ↦ ⟨rfl, hphase hdone⟩

theorem Wired.enter (ht : t.Wired) (hon : (t.tasks τ).on = some θ) (ev : WideEvent p.EventKey) :
    (t.enter τ θ ev).Wired := by
  let l := (t.slots τ θ).enter (.of t.allocated)
  have hset : (t.set τ { t.tasks τ with
      scopes := t.allocated :: (t.tasks τ).scopes, slots := l.slots } θ l.value).Wired :=
    ht.set (ht.ne_of_on hon).1 (ht.ne_of_on hon).2 (.inl ⟨hon, (ht.polled τ θ hon).enter _⟩)
      fun hdone ↦ absurd hdone (ht.phase_ne hon)
  exact { hset with }

theorem Wired.leave (ht : t.Wired) (hon : (t.tasks τ).on = some θ) {ptr : Nat} {scopes : List Nat}
    (hscopes : (t.tasks τ).scopes = ptr :: scopes) (env : Env p.EventKey) (elapsed : String → F64)
    (now : String) : (t.leave env τ θ ptr scopes elapsed now).Wired := by
  have hpolled := ht.polled τ θ hon
  rw [hscopes] at hpolled
  let l := (t.slots τ θ).leave
  have hset : (t.set τ { t.tasks τ with scopes, slots := l.slots } θ l.value).Wired :=
    ht.set (ht.ne_of_on hon).1 (ht.ne_of_on hon).2 (.inl ⟨hon, hpolled.leave⟩)
      fun hdone ↦ absurd hdone (ht.phase_ne hon)
  exact hset.emit ..

end Runtime

namespace Runtime

variable {Θ T : Type} {p : Program} {t t' : Runtime Θ T p} {τ : T} {θ : Θ}

/-! ## The events -/

/-- The event of a scope is what its recording says. -/
def Tracks (env : Env p.EventKey) (heap : Nat → Option (WideEvent p.EventKey)) (ptr : Nat)
    (r : Recording p) : Prop :=
  ∃ ev, heap ptr = some ev ∧ r.Holds env ev

/-- What the scopes of a task have emitted. -/
def emittedBy [DecidableEq T] (t : Runtime Θ T p) (τ : T) : List (WideEvent p.EventKey) :=
  (t.emitted.filter (·.1 = τ)).map Prod.snd

/-- The events of the scopes are apart, and they are what each task records alone. -/
structure Isolated [DecidableEq T] (env : Env p.EventKey) (t : Runtime Θ T p) (n : T → Solo p) :
    Prop where
  lt : ∀ τ, ∀ ptr ∈ (t.tasks τ).scopes, ptr < t.allocated
  nodup : ∀ τ, (t.tasks τ).scopes.Nodup
  apart : ∀ τ τ' ptr, ptr ∈ (t.tasks τ).scopes → ptr ∈ (t.tasks τ').scopes → τ = τ'
  opened : ∀ τ, List.Forall₂ (Tracks env t.heap) (t.tasks τ).scopes (n τ).opened
  left : ∀ τ, List.Forall₂ (fun ev run ↦ run.event = .ret ev) (t.emittedBy τ) (n τ).left

variable {env : Env p.EventKey} {n : T → Solo p}

theorem emit_eq {ptr : Nat} {ev ev' : WideEvent p.EventKey} {elapsed : String → F64} {now : String}
    (hev : t.heap ptr = some ev) (hdrop : ev.dropWrites env elapsed now = .ret ev') :
    t.emit env τ ptr elapsed now =
      { t with heap := Function.update t.heap ptr none, emitted := t.emitted ++ [(τ, ev')] } := by
  simp only [emit, hev, Option.bind_some, hdrop, finished, Option.toList_some, List.map_cons,
    List.map_nil]

/-- A change of an event that no scope of a list has. -/
theorem forall₂_tracks_update {ptrs : List Nat} {rs : List (Recording p)}
    {heap : Nat → Option (WideEvent p.EventKey)} (h : List.Forall₂ (Tracks env heap) ptrs rs)
    {ptr : Nat} (hptr : ptr ∉ ptrs) (ev : Option (WideEvent p.EventKey)) :
    List.Forall₂ (Tracks env (Function.update heap ptr ev)) ptrs rs := by
  induction h with
  | nil => exact .nil
  | cons hr _ ih =>
      rw [List.mem_cons, not_or] at hptr
      obtain ⟨ev', hev', hholds⟩ := hr
      exact .cons ⟨ev', by rw [Function.update_of_ne (Ne.symm hptr.1), hev'], hholds⟩ (ih hptr.2)

variable [DecidableEq T]

theorem isolated_new : (new : Runtime Θ T p).Isolated env fun _ ↦ ⟨[], []⟩ where
  lt _ _ h := nomatch h
  nodup _ := List.nodup_nil
  apart _ _ _ h := nomatch h
  opened _ := .nil
  left _ := .nil

/-- What a task has emitted stays as it is while the task leaves no scope. -/
theorem Isolated.left_update (hi : t.Isolated env n) {s : Solo p} (hs : s.left = (n τ).left) :
    ∀ τ', List.Forall₂ (fun ev run ↦ run.event = .ret ev) (t.emittedBy τ')
      (Function.update n τ s τ').left := by
  rw [Function.forall_update_iff n fun τ' s ↦
    List.Forall₂ (fun ev run ↦ run.event = .ret ev) (t.emittedBy τ') s.left]
  exact ⟨hs ▸ hi.left τ, fun τ' _ ↦ hi.left τ'⟩

/-- Other tasks do not have the event of a scope of a task. -/
theorem Isolated.not_mem (hi : t.Isolated env n) {τ' : T} (hτ : τ' ≠ τ) {ptr : Nat}
    {ptrs : List Nat} (hscopes : (t.tasks τ).scopes = ptr :: ptrs) : ptr ∉ (t.tasks τ').scopes :=
  fun hmem ↦ hτ (hi.apart τ' τ ptr hmem (hscopes ▸ List.mem_cons_self))

/-- The steps that change neither scopes nor events. -/
theorem Isolated.of_scopes (hi : t.Isolated env n)
    (hscopes : ∀ τ, (t'.tasks τ).scopes = (t.tasks τ).scopes) (hheap : t'.heap = t.heap)
    (hemitted : t'.emitted = t.emitted) (hallocated : t'.allocated = t.allocated) :
    t'.Isolated env n := by
  refine ⟨?_, ?_, ?_, ?_, ?_⟩
  · intro τ
    rw [hscopes, hallocated]
    exact hi.lt τ
  · intro τ
    rw [hscopes]
    exact hi.nodup τ
  · intro τ τ'
    rw [hscopes, hscopes]
    exact hi.apart τ τ'
  · intro τ
    rw [hscopes, hheap]
    exact hi.opened τ
  · intro τ
    rw [emittedBy, hemitted]
    exact hi.left τ

/-- A call on the event of the innermost scope of a task is recorded there. -/
theorem Isolated.issue (hi : t.Isolated env n) (τ : T) (call : QuietCall p) :
    (t.modify (t.tasks τ).scopes.head? fun ev ↦ (call.val.apply env ev).state).Isolated env
      (Function.update n τ ((n τ).issue call)) := by
  have hopened := hi.opened τ
  cases hscopes : (t.tasks τ).scopes with
  | nil =>
      rw [hscopes] at hopened
      have hissue : (n τ).issue call = n τ := by
        unfold Solo.issue
        cases hn : (n τ).opened with
        | nil => rfl
        | cons r rs => rw [hn] at hopened; cases hopened
      rw [hissue, Function.update_eq_self]
      exact hi
  | cons ptr ptrs =>
      have hnodup := hi.nodup τ
      rw [hscopes] at hopened hnodup
      rw [List.nodup_cons] at hnodup
      cases hn : (n τ).opened with
      | nil => rw [hn] at hopened; cases hopened
      | cons r rs =>
          rw [hn] at hopened
          obtain ⟨⟨ev, hev, hholds⟩, hrest⟩ := List.forall₂_cons.mp hopened
          have hissue : (n τ).issue call = ⟨r.issue call :: rs, (n τ).left⟩ := by
            simp only [Solo.issue, hn]
          rw [hissue]
          refine ⟨hi.lt, hi.nodup, hi.apart, ?_, ?_⟩
          · intro τ'
            show List.Forall₂ (Tracks env (Function.update t.heap ptr _)) _ _
            by_cases hτ : τ' = τ
            · subst hτ
              rw [Function.update_self, show (t.modify _ _).tasks τ' = t.tasks τ' from rfl, hscopes]
              refine .cons ⟨_, ?_, hholds.issue call⟩ (forall₂_tracks_update hrest hnodup.1 _)
              rw [Function.update_self, hev]
              rfl
            · rw [Function.update_of_ne hτ]
              exact forall₂_tracks_update (hi.opened τ') (hi.not_mem hτ hscopes) _
          · exact hi.left_update rfl

/-- The innermost scope of a task is gone, and its event is emitted. -/
theorem Isolated.of_left (hi : t.Isolated env n) {ptr : Nat} {ptrs : List Nat} {r : Recording p}
    {rs : List (Recording p)} (hscopes : (t.tasks τ).scopes = ptr :: ptrs)
    (hn : (n τ).opened = r :: rs) (hself : (t'.tasks τ).scopes = ptrs)
    (hother : ∀ τ', τ' ≠ τ → (t'.tasks τ').scopes = (t.tasks τ').scopes)
    (hheap : t'.heap = Function.update t.heap ptr none) {ev' : WideEvent p.EventKey}
    {run : GuardRun p} (hemitted : t'.emitted = t.emitted ++ [(τ, ev')])
    (hevent : run.event = .ret ev') (hallocated : t'.allocated = t.allocated) :
    t'.Isolated env (Function.update n τ ⟨rs, (n τ).left ++ [run]⟩) := by
  have hopened := hi.opened τ
  have hnodup := hi.nodup τ
  rw [hscopes] at hopened hnodup
  rw [hn] at hopened
  have hrest := (List.forall₂_cons.mp hopened).2
  have hptr := (List.nodup_cons.mp hnodup).1
  have hsub : ∀ τ', (t'.tasks τ').scopes.Sublist (t.tasks τ').scopes := by
    intro τ'
    by_cases hτ : τ' = τ
    · subst hτ
      rw [hself, hscopes]
      exact List.sublist_cons_self ptr ptrs
    · rw [hother τ' hτ]
  refine ⟨?_, fun τ' ↦ (hi.nodup τ').sublist (hsub τ'), ?_, ?_, ?_⟩
  · intro τ' q hq
    rw [hallocated]
    exact hi.lt τ' q ((hsub τ').subset hq)
  · exact fun τ₁ τ₂ q h₁ h₂ ↦ hi.apart τ₁ τ₂ q ((hsub τ₁).subset h₁) ((hsub τ₂).subset h₂)
  · intro τ'
    rw [hheap]
    by_cases hτ : τ' = τ
    · subst hτ
      rw [hself, Function.update_self]
      exact forall₂_tracks_update hrest hptr none
    · rw [hother τ' hτ, Function.update_of_ne hτ]
      exact forall₂_tracks_update (hi.opened τ') (hi.not_mem hτ hscopes) none
  · intro τ'
    rw [emittedBy, hemitted, List.filter_append, List.map_append]
    by_cases hτ : τ' = τ
    · subst hτ
      rw [Function.update_self, List.filter_cons_of_pos (by simp)]
      exact List.rel_append (hi.left τ') (.cons hevent .nil)
    · rw [Function.update_of_ne hτ, List.filter_cons_of_neg (by simpa using Ne.symm hτ),
        List.filter_nil, List.map_nil, List.append_nil]
      exact hi.left τ'

variable [DecidableEq Θ]

theorem Isolated.enter (hi : t.Isolated env n) {start : Start p} {ev : WideEvent p.EventKey}
    (hbuild : p.build env start.preset start.id = .ret ev) (θ : Θ) :
    (t.enter τ θ ev).Isolated env
      (Function.update n τ ⟨⟨start, []⟩ :: (n τ).opened, (n τ).left⟩) := by
  have hnew : ∀ τ', t.allocated ∉ (t.tasks τ').scopes :=
    fun τ' hmem ↦ Nat.lt_irrefl _ (hi.lt τ' _ hmem)
  have hself : ((t.enter τ θ ev).tasks τ).scopes = t.allocated :: (t.tasks τ).scopes := by
    show (Function.update t.tasks τ _ τ).scopes = _
    rw [Function.update_self]
  have hother : ∀ τ', τ' ≠ τ → ((t.enter τ θ ev).tasks τ').scopes = (t.tasks τ').scopes := by
    intro τ' hτ
    show (Function.update t.tasks τ _ τ').scopes = _
    rw [Function.update_of_ne hτ]
  refine ⟨?_, ?_, ?_, ?_, ?_⟩
  · have hlt : ∀ τ', ∀ ptr ∈ (t.tasks τ').scopes, ptr < t.allocated + 1 :=
      fun τ' ptr hptr ↦ Nat.lt_succ_of_lt (hi.lt τ' ptr hptr)
    refine (Function.forall_update_iff t.tasks fun _ s ↦
      ∀ ptr ∈ s.scopes, ptr < t.allocated + 1).mpr ⟨?_, fun τ' _ ↦ hlt τ'⟩
    rw [List.forall_mem_cons]
    exact ⟨Nat.lt_succ_self _, hlt τ⟩
  · refine (Function.forall_update_iff t.tasks fun _ s ↦ s.scopes.Nodup).mpr
      ⟨?_, fun τ' _ ↦ hi.nodup τ'⟩
    exact List.nodup_cons.mpr ⟨hnew τ, hi.nodup τ⟩
  · refine forall_pairs τ (fun _ _ h ptr h₁ h₂ ↦ (h ptr h₂ h₁).symm) (fun _ _ _ ↦ rfl) ?_ ?_
    · intro τ' hτ ptr h₁ h₂
      rw [hself] at h₁
      rw [hother τ' hτ] at h₂
      rcases List.mem_cons.mp h₁ with rfl | h₁
      · exact absurd h₂ (hnew τ')
      · exact hi.apart τ τ' ptr h₁ h₂
    · intro τ₁ τ₂ hτ₁ hτ₂ ptr h₁ h₂
      rw [hother τ₁ hτ₁] at h₁
      rw [hother τ₂ hτ₂] at h₂
      exact hi.apart τ₁ τ₂ ptr h₁ h₂
  · intro τ'
    show List.Forall₂ (Tracks env (Function.update t.heap t.allocated (some ev))) _ _
    have hrest := forall₂_tracks_update (hi.opened τ') (hnew τ') (some ev)
    by_cases hτ : τ' = τ
    · subst hτ
      rw [hself, Function.update_self]
      exact .cons ⟨ev, Function.update_self .., .of_build hbuild⟩ hrest
    · rw [hother τ' hτ, Function.update_of_ne hτ]
      exact hrest
  · exact hi.left_update rfl

theorem set_scopes {task : ScopedTask Θ} (htask : task.scopes = (t.tasks τ).scopes)
    (slot : Option ScopeLocals) (τ' : T) :
    ((t.set τ task θ slot).tasks τ').scopes = (t.tasks τ').scopes := by
  revert τ'
  rw [forall_set fun τ' s ↦ s.scopes = (t.tasks τ').scopes]
  exact ⟨htask, fun τ' _ ↦ rfl⟩

/-- A step that keeps the scopes of its task. -/
theorem Isolated.set (hi : t.Isolated env n) {task : ScopedTask Θ} {slot : Option ScopeLocals}
    (htask : task.scopes = (t.tasks τ).scopes) : (t.set τ task θ slot).Isolated env n :=
  hi.of_scopes (set_scopes htask slot) rfl rfl rfl

/-- A scope that is left is emitted with what was recorded for it. -/
theorem Isolated.leave {tc : Toolchain} {input : List TokenTree} (a : Accepted tc input)
    {env : Env a.program.EventKey} {t : Runtime Θ T a.program} {n : T → Solo a.program}
    (hi : t.Isolated env n) {ptr : Nat} {ptrs : List Nat}
    (hscopes : (t.tasks τ).scopes = ptr :: ptrs) (θ : Θ) (elapsed : String → F64) (now : String) :
    (t.leave env τ θ ptr ptrs elapsed now).Isolated env
      (Function.update n τ ((n τ).step env (.leave elapsed now : ScopeOp Θ a.program))) := by
  have hopened := hi.opened τ
  rw [hscopes] at hopened
  cases hn : (n τ).opened with
  | nil => rw [hn] at hopened; cases hopened
  | cons r rs =>
      rw [hn] at hopened
      obtain ⟨ev, hev, hholds⟩ := (List.forall₂_cons.mp hopened).1
      obtain ⟨ev', hdrop, hevent⟩ := hholds.emit a elapsed now
      let l := (t.slots τ θ).leave
      let task : ScopedTask Θ := { t.tasks τ with scopes := ptrs, slots := l.slots }
      have hleave : t.leave env τ θ ptr ptrs elapsed now =
          { t.set τ task θ l.value with
            heap := Function.update t.heap ptr none, emitted := t.emitted ++ [(τ, ev')] } := by
        exact emit_eq (t := t.set τ task θ l.value) hev hdrop
      have hself : ((t.set τ task θ l.value).tasks τ).scopes = ptrs := by rw [set_tasks_self]
      have hother : ∀ τ', τ' ≠ τ →
          ((t.set τ task θ l.value).tasks τ').scopes = (t.tasks τ').scopes := by
        intro τ' hτ
        rw [set_tasks_of_ne hτ]
      have hstep : (n τ).step env (.leave elapsed now : ScopeOp Θ a.program) =
          ⟨rs, (n τ).left ++ [r.run env elapsed now]⟩ := by
        simp only [Solo.step, hn]
      rw [hleave, hstep]
      refine hi.of_left hscopes hn ?_ ?_ rfl rfl hevent rfl
      · exact hself
      · exact hother

/-! ## Runs -/

theorem Wired.step {op : T × ScopeOp Θ p} (ht : t.Wired) (hstep : Step env t op t') : t'.Wired := by
  cases hstep with
  | poll _ hon hfree => exact ht.begin hon hfree nofun
  | pending _ hon => exact ht.stop hon nofun
  | enter _ hon _ => exact ht.enter hon _
  | call _ _ => exact ht.modify _ _
  | log _ _ _ => exact ht.modify _ _
  | leave elapsed now hon hscopes => exact ht.leave hon hscopes env elapsed now
  | cancel _ hon hfree => exact ht.begin hon hfree nofun
  | finish hon hscopes => exact ht.stop hon fun _ ↦ hscopes

/-- A step of a task adds to what that task records, and to nothing else. -/
theorem Isolated.step {tc : Toolchain} {input : List TokenTree} (a : Accepted tc input)
    {env : Env a.program.EventKey} {t t' : Runtime Θ T a.program} {n : T → Solo a.program}
    {op : ScopeOp Θ a.program} (hw : t.Wired) (hi : t.Isolated env n)
    (hstep : Step env t (τ, op) t') :
    t'.Isolated env (Function.update n τ ((n τ).step env op)) := by
  cases hstep with
  | poll =>
      rw [show (n τ).step env (.poll _) = n τ from rfl, Function.update_eq_self]
      refine Isolated.set hi ?_
      rfl
  | pending =>
      rw [show (n τ).step env .pending = n τ from rfl, Function.update_eq_self]
      refine Isolated.set hi ?_
      rfl
  | enter _ _ hbuild => exact hi.enter hbuild _
  | call call hon =>
      rw [hw.current_eq hon]
      exact hi.issue τ call
  | log level message hon =>
      rw [hw.lastHook_eq hon, hw.current_eq hon]
      have htarget : ((t.tasks τ).scopes.head?.map (Hook.mk ())).bind
          (fun _ ↦ (t.tasks τ).scopes.head?) = (t.tasks τ).scopes.head? := by
        cases (t.tasks τ).scopes <;> rfl
      rw [htarget]
      exact hi.issue τ (.append level message)
  | leave elapsed now _ hscopes => exact hi.leave a hscopes _ elapsed now
  | cancel =>
      rw [show (n τ).step env (.cancel _) = n τ from rfl, Function.update_eq_self]
      refine Isolated.set hi ?_
      rfl
  | finish =>
      rw [show (n τ).step env .finish = n τ from rfl, Function.update_eq_self]
      refine Isolated.set hi ?_
      rfl

theorem Isolated.run {tc : Toolchain} {input : List TokenTree} (a : Accepted tc input)
    {env : Env a.program.EventKey} {s t : Runtime Θ T a.program} {n : T → Solo a.program}
    {tr : List (Runtime Θ T a.program × T × ScopeOp Θ a.program)} (h : Run (Step env) s tr t)
    (hw : s.Wired) (hi : s.Isolated env n) :
    t.Wired ∧ t.Isolated env fun τ ↦
      (ScopeOp.ofTask τ (tr.map Prod.snd)).foldl (Solo.step env) (n τ) := by
  induction h generalizing n with
  | nil => exact ⟨hw, hi⟩
  | @cons s s' t op tr hstep _ ih =>
      obtain ⟨hw', hi'⟩ := ih (hw.step hstep) (Isolated.step a hw hi hstep)
      refine ⟨hw', ?_⟩
      convert hi' using 2 with τ
      by_cases hτ : op.1 = τ
      · subst hτ
        rw [List.map_cons, ScopeOp.ofTask, List.filter_cons_of_pos (by simp), List.map_cons,
          List.foldl_cons, Function.update_self]
        rfl
      · rw [List.map_cons, ScopeOp.ofTask, List.filter_cons_of_neg (by simpa using hτ),
          Function.update_of_ne (Ne.symm hτ)]
        rfl

/-- **Scopes of different tasks are isolated.**  Wherever a run has come to, an open
scope of a task has an event with what the task itself has issued in that scope, a
scope it has left has emitted that event once, and no scope is open when the task has
ended. -/
theorem scopes_isolated {tc : Toolchain} {input : List TokenTree} (a : Accepted tc input)
    {env : Env a.program.EventKey} {t : Runtime Θ T a.program}
    {tr : List (Runtime Θ T a.program × T × ScopeOp Θ a.program)} (h : Run (Step env) new tr t)
    (τ : T) :
    List.Forall₂ (Tracks env t.heap) (t.tasks τ).scopes
        (Solo.of env (ScopeOp.ofTask τ (tr.map Prod.snd))).opened ∧
      List.Forall₂ (fun ev run ↦ run.event = .ret ev) (t.emittedBy τ)
        (Solo.of env (ScopeOp.ofTask τ (tr.map Prod.snd))).left ∧
      (ScopeOp.ofTask τ (tr.map Prod.snd)).countP ScopeOp.isEnter =
        (t.tasks τ).scopes.length + (t.emittedBy τ).length ∧
      ((t.tasks τ).phase = .done → (t.tasks τ).scopes = []) := by
  obtain ⟨hw, hi⟩ := Isolated.run a h wired_new isolated_new
  refine ⟨hi.opened τ, hi.left τ, ?_, fun hphase ↦ (hw.ended τ hphase).2⟩
  have hsize := Solo.size_foldl env ⟨[], []⟩ (ScopeOp.ofTask τ (tr.map Prod.snd))
  rw [(hi.opened τ).length_eq, (hi.left τ).length_eq]
  exact ((Nat.zero_add _).symm.trans hsize.symm)

/-- Two tasks on one thread: the first is polled again after the second was dropped in
its scope. -/
theorem scopes_isolated_interleaved :
    ∃ (p : Program) (t : Runtime Unit Bool p), (t.tasks false).scopes = [0] ∧
      (t.emittedBy false).length = 0 ∧ (t.tasks true).phase = .done ∧
        (t.emittedBy true).length = 1 := by
  obtain ⟨a, -⟩ := exists_statusSchema
  let start : Start a.program := ⟨none, "id", nofun⟩
  let env : Env a.program.EventKey := .release
  obtain ⟨ev, hbuild, -⟩ := a.build_ret env "id"
  have hfree : ∀ {t : Runtime Unit Bool a.program}, (t.tasks false).on = none →
      (t.tasks true).on = none → ∀ τ, (t.tasks τ).on ≠ some () := by
    rintro t hfalse htrue (_ | _) hon
    · cases hon.symm.trans hfalse
    · cases hon.symm.trans htrue
  obtain ⟨tr, t, hrun, hops, hscopes, hphase⟩ :
      ∃ tr t, Run (Step env) (new : Runtime Unit Bool a.program) tr t ∧
        tr.map Prod.snd = [(false, .poll ()), (false, .enter start), (false, .log .info "a"),
          (false, .pending), (true, .poll ()), (true, .enter start), (true, .pending),
          (true, .cancel ()), (true, .log .info "b"), (true, .leave (fun _ ↦ ⟨0⟩) "now"),
          (true, .finish), (false, .poll ())] ∧
        (t.tasks false).scopes = [0] ∧ (t.tasks true).phase = .done :=
    ⟨_, _, .cons (.poll rfl rfl nofun) (.cons (.enter rfl rfl hbuild) (.cons (.log _ _ rfl)
      (.cons (.pending rfl rfl) (.cons (.poll rfl rfl (hfree rfl rfl))
      (.cons (.enter rfl rfl hbuild) (.cons (.pending rfl rfl)
      (.cons (.cancel rfl rfl (hfree rfl rfl)) (.cons (.log _ _ rfl) (.cons (.leave _ _ rfl rfl)
      (.cons (.finish rfl rfl) (.cons (.poll rfl rfl (hfree rfl rfl)) (.nil _)))))))))))), rfl,
      rfl, rfl⟩
  obtain ⟨-, hfalse, -, -⟩ := scopes_isolated a hrun false
  obtain ⟨-, htrue, -, -⟩ := scopes_isolated a hrun true
  rw [hops] at hfalse htrue
  exact ⟨a.program, t, hscopes, hfalse.length_eq, hphase, htrue.length_eq⟩

end Runtime

end WideLog
