import WideLog.Lib.Outcome
import Mathlib.Data.List.Perm.Basic
import Mathlib.Data.List.Nodup

/-!
# The hook stacks of a thread

`hook_registry.rs` with the `tokio` feature, and how guards and scopes use it.  A
guard pushes the hook of its schema when it is built and pops one when it is
dropped; `scope()` runs its future with a fresh task-local stack that holds its own
hook.  Pushes go to the stack of the scope that is being polled, or to that of the
thread; pops look for the hook in the one, then in the other.

A schema has one hook, so the entries of a stack are schemas.  Each also carries who
installed it, which the code cannot see: guards and scopes are numbered in the order
they come.  Stacks are listed from the innermost hook.
-/

namespace WideLog

universe u

/-- A hook on a stack: the schema it belongs to, and the guard or scope that
installed it. -/
@[ext]
structure Hook (S : Type u) where
  schema : S
  owner : Nat
deriving DecidableEq

/-- The stack of a thread, or the stack of an open scope. -/
structure HookStack (S : Type u) where
  /-- The scope, or `none` for the thread. -/
  context : Option Nat
  /-- The hook a scope starts with. -/
  seed : List (Hook S)
  hooks : List (Hook S)
deriving DecidableEq

/-- A live guard, and the scope that was being polled when it was built. -/
structure HookGuard (S : Type u) where
  id : Nat
  schema : S
  home : Option Nat
deriving DecidableEq

/-- The hook a guard installs. -/
def HookGuard.hook {S : Type u} (g : HookGuard S) : Hook S := ⟨g.schema, g.id⟩

@[simp] theorem HookGuard.schema_hook {S : Type u} (g : HookGuard S) :
    g.hook.schema = g.schema := rfl

@[simp] theorem HookGuard.owner_hook {S : Type u} (g : HookGuard S) : g.hook.owner = g.id := rfl

namespace HookStack

variable {S : Type u}

/-- `LOG_HOOKS` at first. -/
def thread : HookStack S := ⟨none, [], []⟩

/-- The stack `scope_log_hook` seeds for a scope. -/
def seeded (id : Nat) (schema : S) : HookStack S := ⟨some id, [⟨schema, id⟩], [⟨schema, id⟩]⟩

/-- `cell.borrow_mut().push(hook)`. -/
def push (h : Hook S) (st : HookStack S) : HookStack S := { st with hooks := h :: st.hooks }

/-- The stack has a hook of the schema. -/
def Has (st : HookStack S) (schema : S) : Prop := ∃ h ∈ st.hooks, h.schema = schema

variable [DecidableEq S]

instance (st : HookStack S) (schema : S) : Decidable (st.Has schema) :=
  inferInstanceAs (Decidable (∃ h ∈ st.hooks, h.schema = schema))

/-- What is left without the innermost hook of the schema. -/
def erase (schema : S) (st : HookStack S) : HookStack S :=
  { st with hooks := st.hooks.eraseP (·.schema = schema) }

/-- `remove_hook`: the last hook of the schema goes; `none` when there is none. -/
def removeHook (schema : S) (st : HookStack S) : Option (HookStack S) :=
  if st.Has schema then some (st.erase schema) else none

end HookStack

/-- A thread: the stack of its own, those of the scopes it is polling, the innermost
first, those of the open scopes it is not polling, and the live guards, the latest
first. -/
structure HookThread (S : Type u) where
  logHooks : HookStack S
  polled : List (HookStack S)
  suspended : List (HookStack S)
  guards : List (HookGuard S)
  next : Nat
deriving DecidableEq

/-- What a thread does.  A scope that is entered is polled until its poll is pending,
and when it is polled again it goes on; a scope that is left is finished or
cancelled. -/
inductive HookOp (S : Type u) where
  | build (schema : S)
  | drop (g : HookGuard S)
  | enter (schema : S)
  | pending
  | poll (st : HookStack S)
  | leave
deriving DecidableEq

namespace HookThread

section Model

variable {S : Type u}

/-- A thread before its first guard or scope. -/
def new : HookThread S := ⟨.thread, [], [], [], 0⟩

/-- The context of what happens now: the scope being polled, or the thread. -/
def active (t : HookThread S) : HookStack S := t.polled.headD t.logHooks

/-- `push_log_hook`. -/
def pushLogHook (h : Hook S) (t : HookThread S) : HookThread S :=
  match t.polled with
  | st :: rest => { t with polled := st.push h :: rest }
  | [] => { t with logHooks := t.logHooks.push h }

/-- A guard is built: its hook goes onto the active stack. -/
def build (schema : S) (t : HookThread S) : HookThread S :=
  let g : HookGuard S := ⟨t.next, schema, t.active.context⟩
  { t.pushLogHook g.hook with guards := g :: t.guards, next := t.next + 1 }

/-- A scope is entered. -/
def enter (schema : S) (t : HookThread S) : HookThread S :=
  { t with polled := .seeded t.next schema :: t.polled, next := t.next + 1 }

variable [DecidableEq S]

/-- The attempt of `pop_log_hook` at the task-local stack. -/
def popTask (schema : S) (t : HookThread S) : Option (HookThread S) :=
  match t.polled with
  | st :: rest => (st.removeHook schema).map fun st ↦ { t with polled := st :: rest }
  | [] => none

/-- `pop_log_hook`. -/
def popLogHook (debugAssertions : Bool) (schema : S) (t : HookThread S) :
    Outcome (HookThread S) :=
  match t.popTask schema with
  | some t => .ret t
  | none => match t.logHooks.removeHook schema with
    | some st => .ret { t with logHooks := st }
    | none => if debugAssertions then .panic t else .ret t

/-- A guard is dropped: a hook of its schema is popped, and the guard is gone even if
the assertion panics. -/
def drop (debugAssertions : Bool) (g : HookGuard S) (t : HookThread S) : HookThread S :=
  { (t.popLogHook debugAssertions g.schema).state with
    guards := t.guards.erase g, next := t.next }

/-- The steps of a thread.  Any live guard may be dropped anywhere. -/
inductive Step (debugAssertions : Bool) : HookThread S → HookOp S → HookThread S → Prop where
  | build (t : HookThread S) (schema : S) :
      Step debugAssertions t (.build schema) (t.build schema)
  | drop {t : HookThread S} {g : HookGuard S} :
      g ∈ t.guards → Step debugAssertions t (.drop g) (t.drop debugAssertions g)
  | enter (t : HookThread S) (schema : S) :
      Step debugAssertions t (.enter schema) (t.enter schema)
  | pending {t : HookThread S} {st : HookStack S} {rest : List (HookStack S)} :
      t.polled = st :: rest → Step debugAssertions t .pending
        { t with polled := rest, suspended := st :: t.suspended }
  | poll {t : HookThread S} {st : HookStack S} :
      st ∈ t.suspended → Step debugAssertions t (.poll st)
        { t with polled := st :: t.polled, suspended := t.suspended.erase st }
  | leave {t : HookThread S} {st : HookStack S} {rest : List (HookStack S)} :
      t.polled = st :: rest → Step debugAssertions t .leave { t with polled := rest }

end Model

/-! ## What is promised -/

section Promise

variable {S : Type u}

/-- The stacks there are: of the thread and of the open scopes. -/
def hookStacks (t : HookThread S) : List (HookStack S) :=
  t.logHooks :: (t.polled ++ t.suspended)

/-- The live guards built in a context. -/
def guardsIn (t : HookThread S) (context : Option Nat) : List (HookGuard S) :=
  t.guards.filter (·.home = context)

/-- What should be on a stack: the hooks of the live guards built there, on top of
the one the scope started with. -/
def expected (t : HookThread S) (st : HookStack S) : List (Hook S) :=
  (t.guardsIn st.context).map HookGuard.hook ++ st.seed

/-- The hooks that live guards and open scopes installed are still there. -/
def Intact (t : HookThread S) : Prop :=
  ∀ st ∈ t.hookStacks, (∀ g ∈ t.guardsIn st.context, g.hook ∈ st.hooks) ∧ st.seed ⊆ st.hooks

/-- Every stack has as many hooks of a schema as there are live guards of the schema
that were built there, and the one the scope started with. -/
def Counted [DecidableEq S] (t : HookThread S) : Prop :=
  ∀ st ∈ t.hookStacks, ∀ schema : S, st.hooks.countP (·.schema = schema) =
    (t.guardsIn st.context).countP (·.schema = schema) + st.seed.countP (·.schema = schema)

/-- A live guard of the schema was built in the context of a stack, or its scope is of
the schema. -/
def Installed (t : HookThread S) (st : HookStack S) (schema : S) : Prop :=
  (∃ g ∈ t.guards, g.home = st.context ∧ g.schema = schema) ∨ ∃ h ∈ st.seed, h.schema = schema

/-- The context has not been left. -/
def Open (t : HookThread S) (context : Option Nat) : Prop :=
  ∃ st ∈ t.hookStacks, st.context = context

/-- The guard is dropped in the context it was built in; or in a scope with no hook of
its schema, and it was built outside of scopes; or its scope has been left, and no
hook of its schema is in reach. -/
def DropsThere (t : HookThread S) (g : HookGuard S) : Prop :=
  g.home = t.active.context ∨
    ¬ t.Installed t.active g.schema ∧
      (g.home = none ∨ ¬ t.Open g.home ∧ ¬ t.Installed t.logHooks g.schema)

/-- Of the live guards of its schema built in the same context, the guard is the
latest. -/
def Latest (t : HookThread S) (g : HookGuard S) : Prop :=
  ∀ g' ∈ t.guards, g'.home = g.home → g'.schema = g.schema → g'.id ≤ g.id

/-- A drop finds the stack the guard was built on, or none when that is gone. -/
def InReach (t : HookThread S) : HookOp S → Prop
  | .drop g => t.DropsThere g
  | _ => True

/-- A drop finds the stack the guard was built on, before those of the earlier guards
of the schema, or none when that is gone. -/
def InTurn (t : HookThread S) : HookOp S → Prop
  | .drop g => t.DropsThere g ∧ (t.Open g.home → t.Latest g)
  | _ => True

end Promise

/-! ## What a step does to the stacks -/

section Effect

variable {S : Type u} {t t' : HookThread S} {op : HookOp S} {g : HookGuard S} {schema : S}
  {debugAssertions : Bool}

/-- A stack and its seed came before the next guard or scope, and the seed belongs to
no guard. -/
structure Placed (t : HookThread S) (st : HookStack S) : Prop where
  context_lt : ∀ id, st.context = some id → id < t.next
  seed_lt : ∀ h ∈ st.seed, h.owner < t.next
  seed_ne : ∀ h ∈ st.seed, ∀ g ∈ t.guards, h.owner ≠ g.id

/-- Scopes and guards are numbered apart, and the guards are listed from the latest. -/
structure Numbered (t : HookThread S) : Prop where
  thread : t.logHooks.context = none
  nodup : (t.hookStacks.map HookStack.context).Nodup
  placed : ∀ st ∈ t.hookStacks, t.Placed st
  sorted : t.guards.Pairwise fun g g' ↦ g'.id < g.id
  id_lt : ∀ g ∈ t.guards, g.id < t.next
  home_lt : ∀ g ∈ t.guards, ∀ id, g.home = some id → id < t.next

theorem active_mem (t : HookThread S) : t.active ∈ t.hookStacks := by
  unfold active hookStacks
  cases t.polled <;> simp

theorem active_of_nil (h : t.polled = []) : t.active = t.logHooks := by
  rw [active, h, List.headD_nil]

theorem active_of_cons {st : HookStack S} {rest : List (HookStack S)} (h : t.polled = st :: rest) :
    t.active = st := by
  rw [active, h, List.headD_cons]

theorem logHooks_mem (t : HookThread S) : t.logHooks ∈ t.hookStacks := List.mem_cons_self

/-- A change of the element with a key, in a list without repeated keys. -/
theorem map_if_key {α β : Type*} [DecidableEq β] {key : α → β} (f : α → α) {x : α}
    (l₁ : List α) {l₂ : List α} (h : ((l₁ ++ x :: l₂).map key).Nodup) :
    (l₁ ++ x :: l₂).map (fun y ↦ if key y = key x then f y else y) = l₁ ++ f x :: l₂ := by
  rw [List.map_append, List.map_cons, List.nodup_append, List.nodup_cons] at h
  obtain ⟨-, ⟨htail, -⟩, hapart⟩ := h
  have hother : ∀ l : List α, (∀ y ∈ l, key y ≠ key x) →
      l.map (fun y ↦ if key y = key x then f y else y) = l := by
    intro l hl
    conv_rhs => rw [← List.map_id l]
    exact List.map_congr_left fun y hy ↦ if_neg (hl y hy)
  rw [List.map_append, List.map_cons, if_pos rfl, hother l₁, hother l₂]
  · exact fun y hy heq ↦ htail (heq ▸ List.mem_map_of_mem hy)
  · exact fun y hy ↦ hapart _ (List.mem_map_of_mem hy) _ List.mem_cons_self

/-- A stack after a change of the hooks of the one of a context. -/
def changed (context : Option Nat) (f : List (Hook S) → List (Hook S)) (st : HookStack S) :
    HookStack S :=
  if st.context = context then { st with hooks := f st.hooks } else st

@[simp] theorem context_changed (context : Option Nat) (f : List (Hook S) → List (Hook S))
    (st : HookStack S) : (changed context f st).context = st.context := by
  unfold changed
  split <;> rfl

@[simp] theorem seed_changed (context : Option Nat) (f : List (Hook S) → List (Hook S))
    (st : HookStack S) : (changed context f st).seed = st.seed := by
  unfold changed
  split <;> rfl

theorem change_logHooks (ht : t.Numbered) (f : List (Hook S) → List (Hook S)) :
    { t.logHooks with hooks := f t.logHooks.hooks } :: (t.polled ++ t.suspended) =
      t.hookStacks.map (changed t.logHooks.context f) :=
  (map_if_key (fun st : HookStack S ↦ { st with hooks := f st.hooks }) [] ht.nodup).symm

theorem change_polled (ht : t.Numbered) (f : List (Hook S) → List (Hook S)) {st : HookStack S}
    {rest : List (HookStack S)} (hpolled : t.polled = st :: rest) :
    t.logHooks :: ({ st with hooks := f st.hooks } :: rest ++ t.suspended) =
      t.hookStacks.map (changed st.context f) := by
  have hnodup := ht.nodup
  unfold hookStacks at *
  rw [hpolled] at hnodup ⊢
  exact (map_if_key (fun st : HookStack S ↦ { st with hooks := f st.hooks }) [t.logHooks]
    hnodup).symm

/-- A push goes onto the active stack. -/
theorem pushLogHook_hookStacks (ht : t.Numbered) (h : Hook S) :
    (t.pushLogHook h).hookStacks = t.hookStacks.map (changed t.active.context (h :: ·)) := by
  have hthread := change_logHooks ht (h :: ·)
  unfold pushLogHook active
  cases hpolled : t.polled with
  | nil =>
      rw [hpolled] at hthread
      exact hthread
  | cons st rest => exact change_polled ht (h :: ·) hpolled

variable [DecidableEq S]

/-- The stack a pop takes the hook from. -/
def target (t : HookThread S) (schema : S) : Option (HookStack S) :=
  if t.active.Has schema then some t.active
  else if t.logHooks.Has schema then some t.logHooks else none

theorem target_cases (t : HookThread S) (schema : S) :
    (t.active.Has schema ∧ t.target schema = some t.active) ∨
      (¬ t.active.Has schema ∧ t.logHooks.Has schema ∧ t.target schema = some t.logHooks) ∨
      (¬ t.active.Has schema ∧ ¬ t.logHooks.Has schema ∧ t.target schema = none) := by
  unfold target
  by_cases hactive : t.active.Has schema
  · exact .inl ⟨hactive, if_pos hactive⟩
  · rw [if_neg hactive]
    by_cases hlog : t.logHooks.Has schema
    · exact .inr (.inl ⟨hactive, hlog, if_pos hlog⟩)
    · exact .inr (.inr ⟨hactive, hlog, if_neg hlog⟩)

/-- A stack after a pop of a hook of the schema. -/
def popped (t : HookThread S) (schema : S) (st : HookStack S) : HookStack S :=
  match t.target schema with
  | some target => changed target.context (·.eraseP (·.schema = schema)) st
  | none => st

/-- The stacks after a pop. -/
theorem popLogHook_hookStacks (ht : t.Numbered) (debugAssertions : Bool) (schema : S) :
    (t.popLogHook debugAssertions schema).state.hookStacks =
      t.hookStacks.map (t.popped schema) := by
  have hthread := change_logHooks ht (·.eraseP (·.schema = schema))
  unfold popLogHook popTask HookStack.removeHook popped
  cases hpolled : t.polled with
  | nil =>
      rcases t.target_cases schema with ⟨hlog, heq⟩ | ⟨hactive, hlog, -⟩ | ⟨-, hlog, heq⟩
      · rw [active_of_nil hpolled] at hlog heq
        rw [hpolled] at hthread
        simp only [heq, if_pos hlog]
        exact hthread
      · exact absurd hlog (active_of_nil hpolled ▸ hactive)
      · simp only [heq, if_neg hlog, List.map_id']
        cases debugAssertions <;> rfl
  | cons st rest =>
      have hactive := active_of_cons hpolled
      rcases t.target_cases schema with ⟨htask, heq⟩ | ⟨htask, hlog, heq⟩ | ⟨htask, hlog, heq⟩
      · rw [hactive] at htask heq
        simp only [heq, if_pos htask, Option.map_some]
        exact change_polled ht (·.eraseP (·.schema = schema)) hpolled
      · rw [hactive] at htask
        rw [hpolled] at hthread
        simp only [heq, if_neg htask, if_pos hlog, Option.map_none]
        exact hthread
      · rw [hactive] at htask
        simp only [heq, if_neg htask, if_neg hlog, Option.map_none, List.map_id']
        cases debugAssertions <;> rfl

@[simp] theorem context_popped (t : HookThread S) (schema : S) (st : HookStack S) :
    (t.popped schema st).context = st.context := by
  unfold popped
  split <;> simp

@[simp] theorem seed_popped (t : HookThread S) (schema : S) (st : HookStack S) :
    (t.popped schema st).seed = st.seed := by
  unfold popped
  split <;> simp

/-- What a step does: to the stacks, to the guards and to the numbers. -/
theorem Step.cases (h : Step debugAssertions t op t') (ht : t.Numbered) :
    (∃ schema, op = .build schema ∧
      t'.hookStacks = t.hookStacks.map (changed t.active.context (⟨schema, t.next⟩ :: ·)) ∧
      t'.guards = ⟨t.next, schema, t.active.context⟩ :: t.guards ∧ t'.next = t.next + 1) ∨
    (∃ g ∈ t.guards, op = .drop g ∧ t'.hookStacks = t.hookStacks.map (t.popped g.schema) ∧
      t'.guards = t.guards.erase g ∧ t'.next = t.next) ∨
    (∃ schema, op = .enter schema ∧ t'.logHooks = t.logHooks ∧
      t'.hookStacks.Perm (.seeded t.next schema :: t.hookStacks) ∧
      t'.guards = t.guards ∧ t'.next = t.next + 1) ∨
    ((∀ g, op ≠ .drop g) ∧ t'.logHooks = t.logHooks ∧ t'.hookStacks.Subperm t.hookStacks ∧
      t'.guards = t.guards ∧ t'.next = t.next) := by
  cases h with
  | build schema => exact .inl ⟨schema, rfl, pushLogHook_hookStacks ht _, rfl, rfl⟩
  | drop hg => exact .inr (.inl ⟨_, hg, rfl, popLogHook_hookStacks ht _ _, rfl, rfl⟩)
  | enter schema => exact .inr (.inr (.inl ⟨schema, rfl, rfl, .swap _ _ _, rfl, rfl⟩))
  | @pending st rest hpolled =>
      refine .inr (.inr (.inr ⟨nofun, rfl, ?_, rfl, rfl⟩))
      unfold hookStacks
      rw [hpolled]
      exact (List.perm_middle.cons _).subperm
  | @poll st hst =>
      refine .inr (.inr (.inr ⟨nofun, rfl, ?_, rfl, rfl⟩))
      have hperm := ((List.perm_cons_erase hst).symm.append_left t.polled).cons t.logHooks
      exact ((List.perm_middle.symm.cons _).trans hperm).subperm
  | @leave st rest hpolled =>
      refine .inr (.inr (.inr ⟨nofun, rfl, ?_, rfl, rfl⟩))
      unfold hookStacks
      rw [hpolled]
      exact ((List.sublist_cons_self st _).cons_cons t.logHooks).subperm

end Effect

/-! ## Numbers -/

section Numbers

variable {S : Type u} {t t' : HookThread S} {op : HookOp S} {debugAssertions : Bool}

theorem numbered_new : (new : HookThread S).Numbered := by
  refine ⟨rfl, List.nodup_singleton _, ?_, .nil, nofun, nofun⟩
  intro st hst
  cases List.mem_singleton.mp hst
  exact ⟨nofun, nofun, nofun⟩

theorem Placed.mono {st st' : HookStack S} (h : t.Placed st) (hcontext : st'.context = st.context)
    (hseed : st'.seed = st.seed) (hguards : t'.guards ⊆ t.guards) (hnext : t.next ≤ t'.next) :
    t'.Placed st' := by
  refine ⟨?_, ?_, ?_⟩
  · rw [hcontext]
    exact fun id hid ↦ Nat.lt_of_lt_of_le (h.context_lt id hid) hnext
  · rw [hseed]
    exact fun h' hh' ↦ Nat.lt_of_lt_of_le (h.seed_lt h' hh') hnext
  · rw [hseed]
    exact fun h' hh' g hg ↦ h.seed_ne h' hh' g (hguards hg)

/-- The number of a new guard is new to every stack. -/
theorem Placed.build {st st' : HookStack S} (h : t.Placed st) (hcontext : st'.context = st.context)
    (hseed : st'.seed = st.seed) {g : HookGuard S} (hg : g.id = t.next)
    (hguards : t'.guards = g :: t.guards) (hnext : t'.next = t.next + 1) : t'.Placed st' := by
  refine ⟨?_, ?_, ?_⟩
  · rw [hcontext, hnext]
    exact fun id hid ↦ Nat.lt_succ_of_lt (h.context_lt id hid)
  · rw [hseed, hnext]
    exact fun h' hh' ↦ Nat.lt_succ_of_lt (h.seed_lt h' hh')
  · rw [hseed, hguards]
    intro h' hh' g' hg'
    rcases List.mem_cons.mp hg' with rfl | hg'
    · exact hg ▸ Nat.ne_of_lt (h.seed_lt h' hh')
    · exact h.seed_ne h' hh' g' hg'

/-- The number of a new scope is new to every guard. -/
theorem Numbered.placed_seeded (ht : t.Numbered) (schema : S) (hguards : t'.guards = t.guards)
    (hnext : t'.next = t.next + 1) : t'.Placed (.seeded t.next schema) := by
  refine ⟨?_, ?_, ?_⟩
  · rintro id ⟨⟩
    exact hnext ▸ Nat.lt_succ_self _
  · intro h hh
    cases List.mem_singleton.mp hh
    exact hnext ▸ Nat.lt_succ_self _
  · intro h hh g hg
    cases List.mem_singleton.mp hh
    exact Nat.ne_of_gt (ht.id_lt g (hguards ▸ hg))

/-- The stacks change in their hooks only. -/
theorem map_hookStacks {f : HookStack S → HookStack S}
    (hcontext : ∀ st, (f st).context = st.context) (heq : t'.hookStacks = t.hookStacks.map f) :
    t'.logHooks.context = t.logHooks.context ∧
      t'.hookStacks.map HookStack.context = t.hookStacks.map HookStack.context := by
  refine ⟨?_, ?_⟩
  · rw [(List.cons_eq_cons.mp heq).1, hcontext]
  · rw [heq, List.map_map]
    exact List.map_congr_left fun st _ ↦ hcontext st

variable [DecidableEq S]

theorem Numbered.step (h : Step debugAssertions t op t') (ht : t.Numbered) : t'.Numbered := by
  rcases h.cases ht with ⟨schema, -, hstacks, hguards, hnext⟩ |
    ⟨g, hg, -, hstacks, hguards, hnext⟩ | ⟨schema, -, hlog, hstacks, hguards, hnext⟩ |
    ⟨-, hlog, hstacks, hguards, hnext⟩
  · obtain ⟨hlog, hcontexts⟩ := map_hookStacks (context_changed _ _) hstacks
    refine ⟨hlog.trans ht.thread, hcontexts ▸ ht.nodup, ?_, ?_, ?_, ?_⟩
    · rw [hstacks, List.forall_mem_map]
      intro st hst
      exact (ht.placed st hst).build (context_changed _ _ _) (seed_changed _ _ _) rfl hguards hnext
    · rw [hguards]
      exact .cons (fun g hg ↦ ht.id_lt g hg) ht.sorted
    · rw [hguards, hnext, List.forall_mem_cons]
      exact ⟨Nat.lt_succ_self _, fun g hg ↦ Nat.lt_succ_of_lt (ht.id_lt g hg)⟩
    · rw [hguards, hnext, List.forall_mem_cons]
      refine ⟨?_, fun g hg id hid ↦ Nat.lt_succ_of_lt (ht.home_lt g hg id hid)⟩
      exact fun id hid ↦ Nat.lt_succ_of_lt ((ht.placed _ t.active_mem).context_lt id hid)
  · obtain ⟨hlog, hcontexts⟩ := map_hookStacks (context_popped t g.schema) hstacks
    have hsub : t'.guards ⊆ t.guards := hguards ▸ List.erase_subset
    refine ⟨hlog.trans ht.thread, hcontexts ▸ ht.nodup, ?_, ?_, ?_, ?_⟩
    · rw [hstacks, List.forall_mem_map]
      exact fun st hst ↦ (ht.placed st hst).mono (context_popped _ _ _) (seed_popped _ _ _) hsub
        (Nat.le_of_eq hnext.symm)
    · rw [hguards]
      exact ht.sorted.sublist List.erase_sublist
    · exact fun g hg ↦ hnext ▸ ht.id_lt g (hsub hg)
    · exact fun g hg ↦ hnext ▸ ht.home_lt g (hsub hg)
  · refine ⟨hlog ▸ ht.thread, ?_, ?_, hguards ▸ ht.sorted, ?_, ?_⟩
    · refine (hstacks.map HookStack.context).nodup_iff.mpr ?_
      rw [List.map_cons, List.nodup_cons]
      refine ⟨?_, ht.nodup⟩
      intro hmem
      obtain ⟨st, hst, hcontext⟩ := List.mem_map.mp hmem
      exact Nat.lt_irrefl _ ((ht.placed st hst).context_lt _ hcontext)
    · intro st hst
      rcases List.mem_cons.mp (hstacks.mem_iff.mp hst) with rfl | hst
      · exact ht.placed_seeded schema hguards hnext
      · exact (ht.placed st hst).mono rfl rfl (hguards ▸ List.Subset.refl _)
          (hnext ▸ Nat.le_succ _)
    · exact fun g hg ↦ hnext ▸ Nat.lt_succ_of_lt (ht.id_lt g (hguards ▸ hg))
    · exact fun g hg id hid ↦ hnext ▸ Nat.lt_succ_of_lt (ht.home_lt g (hguards ▸ hg) id hid)
  · refine ⟨hlog ▸ ht.thread, ?_, ?_, hguards ▸ ht.sorted, ?_, ?_⟩
    · obtain ⟨l, hperm, hsub⟩ := hstacks
      refine (hperm.map HookStack.context).nodup_iff.mp ?_
      exact ht.nodup.sublist (hsub.map HookStack.context)
    · intro st hst
      exact (ht.placed st (hstacks.subset hst)).mono rfl rfl (hguards ▸ List.Subset.refl _)
        (Nat.le_of_eq hnext.symm)
    · exact fun g hg ↦ hnext ▸ ht.id_lt g (hguards ▸ hg)
    · exact fun g hg ↦ hnext ▸ ht.home_lt g (hguards ▸ hg)

end Numbers

end HookThread

end WideLog
