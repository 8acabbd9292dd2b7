import WideLog.Hooks.Registry
import Mathlib.Logic.Function.Iterate

/-!
# Hooks are scoped lexically

`LogHookGuard`, `scope_log_hook` and the appends of the crate root, in code that nests
them: a guard lives to the end of its block, which may end by a panic, and a scope to the
end of its future, which may be pending while the executor of the thread runs other tasks.

The registry pushes and pops.  The same code may be read without it: what is logged in a
block goes to the hook of the innermost block around it, as with a variable that is bound
there.
-/

namespace WideLog

universe u

variable {S : Type u}

/-- Code that logs, built from blocks.  `depth` is a call of `log_hook_stack_depth`, and
`await` a point at which the future is pending while other tasks of the thread run. -/
inductive LoggingCode (S : Type u) where
  | skip
  | seq (first second : LoggingCode S)
  | log (level message : String)
  | depth
  | panic
  | guarded (schema : S) (body : LoggingCode S)
  | inScope (schema : S) (body : LoggingCode S)
  | await (others : LoggingCode S)
  | caught (body : LoggingCode S)

/-- What there is to see of such code: the calls of hooks, and the depths it was told. -/
inductive Seen (S : Type u) where
  | entry (schema : S) (level message : String)
  | depth (n : Nat)
deriving DecidableEq

/-- A thread, and what was seen so far. -/
structure Watched (S : Type u) where
  thread : HookThread S
  seen : List (Seen S)

namespace HookThread

/-- The hook that `append_log_entry` calls. -/
def lastHook (t : HookThread S) : Option S :=
  ((t.polled.head?.bind fun st ↦ st.hooks.head?) <|> t.logHooks.hooks.head?).map Hook.schema

/-- `log_hook_stack_depth`. -/
def logHookStackDepth (t : HookThread S) : Nat := t.active.hooks.length

/-- The guard `LogHookGuard::new` is about to return. -/
def nextGuard (schema : S) (t : HookThread S) : HookGuard S :=
  ⟨t.next, schema, t.active.context⟩

/-- The scope that is polled is left. -/
def leave (t : HookThread S) : HookThread S := { t with polled := t.polled.tail }

/-- The poll of the innermost scope is pending. -/
def suspend (t : HookThread S) : HookThread S :=
  { t with polled := t.polled.tail, suspended := t.polled.head?.toList ++ t.suspended }

variable [DecidableEq S]

/-- A scope is polled again. -/
def resume (st : HookStack S) (t : HookThread S) : HookThread S :=
  { t with polled := st :: t.polled, suspended := t.suspended.erase st }

/-- `Drop for LogHookGuard`. -/
def dropLogHookGuard (debugAssertions : Bool) (g : HookGuard S) (t : HookThread S) :
    Outcome (HookThread S) :=
  (t.popLogHook debugAssertions g.schema).map fun t' ↦ { t' with guards := t.guards.erase g }

end HookThread

namespace LoggingCode

open HookThread

section Run

variable [DecidableEq S] (debugAssertions : Bool)

/-- What the code does with the registry.  The executor catches the panics of the other
tasks. -/
def run : LoggingCode S → Watched S → Outcome (Watched S)
  | skip, s => .ret s
  | seq first second, s => (first.run s).bind second.run
  | log level message, s =>
    .ret { s with seen := s.seen ++ (s.thread.lastHook.map (.entry · level message)).toList }
  | depth, s => .ret { s with seen := s.seen ++ [.depth s.thread.logHookStackDepth] }
  | panic, s => .panic s
  | guarded schema body, s =>
    (body.run { s with thread := s.thread.build schema }).andFinally fun s' ↦
      (s'.thread.dropLogHookGuard debugAssertions (s.thread.nextGuard schema)).map fun t ↦
        { s' with thread := t }
  | inScope schema body, s =>
    (body.run { s with thread := s.thread.enter schema }).map fun s' ↦
      { s' with thread := s'.thread.leave }
  | await others, s =>
    let s' := (others.run { s with thread := suspend^[s.thread.polled.length] s.thread }).state
    .ret { s' with thread := s.thread.polled.foldr resume s'.thread }
  | caught body, s => .ret (body.run s).state

end Run

end LoggingCode

/-! ## Without the registry -/

/-- The hooks around a place in the code: of the guards outside of scopes, and within the
innermost scope, if there is one. -/
structure HookScope (S : Type u) where
  thread : List S
  task : Option (List S)

namespace HookScope

variable (e : HookScope S)

/-- The hook of the innermost block. -/
def innermost : Option S := e.task.bind List.head? <|> e.thread.head?

/-- The number of blocks around, up to the innermost scope. -/
def depth : Nat := (e.task.getD e.thread).length

/-- Inside a guarded block. -/
def guarded (schema : S) : HookScope S :=
  match e.task with
  | some hooks => { e with task := some (schema :: hooks) }
  | none => { e with thread := schema :: e.thread }

/-- Inside a scope. -/
def inScope (schema : S) : HookScope S := { e with task := some [schema] }

/-- Outside of every scope. -/
def outside : HookScope S := { e with task := none }

end HookScope

namespace LoggingCode

/-- What the code should do: no hook is ever installed or removed. -/
def lexical : LoggingCode S → HookScope S → Outcome (List (Seen S))
  | skip, _ => .ret []
  | seq first second, e =>
    match first.lexical e with
    | .ret seen => (second.lexical e).map (seen ++ ·)
    | .panic seen => .panic seen
  | log level message, e => .ret (e.innermost.map (.entry · level message)).toList
  | depth, e => .ret [.depth e.depth]
  | panic, _ => .panic []
  | guarded schema body, e => body.lexical (e.guarded schema)
  | inScope schema body, e => body.lexical (e.inScope schema)
  | await others, e => .ret (others.lexical e.outside).state
  | caught body, e => .ret (body.lexical e).state

end LoggingCode

/-! ## The registry keeps to the blocks -/

namespace HookThread

/-- The hooks around the code that a thread is running. -/
def hookScope (t : HookThread S) : HookScope S :=
  ⟨t.logHooks.hooks.map Hook.schema, t.polled.head?.map fun st ↦ st.hooks.map Hook.schema⟩

variable {t : HookThread S}

theorem innermost_hookScope (t : HookThread S) : t.hookScope.innermost = t.lastHook := by
  unfold hookScope HookScope.innermost lastHook
  rw [List.head?_map]
  cases t.polled with
  | nil => rfl
  | cons st rest =>
      show ((st.hooks.map Hook.schema).head? <|> _) = (st.hooks.head? <|> _).map _
      rw [List.head?_map]
      cases st.hooks.head? <;> rfl

theorem depth_hookScope (t : HookThread S) : t.hookScope.depth = t.logHookStackDepth := by
  unfold hookScope HookScope.depth logHookStackDepth active
  cases t.polled with
  | nil => exact List.length_map _
  | cons st rest => exact List.length_map _

theorem hookScope_build (schema : S) (t : HookThread S) :
    (t.build schema).hookScope = t.hookScope.guarded schema := by
  unfold build pushLogHook hookScope HookScope.guarded
  cases t.polled <;> rfl

theorem hookScope_enter (schema : S) (t : HookThread S) :
    (t.enter schema).hookScope = t.hookScope.inScope schema := rfl

theorem iterate_suspend (t : HookThread S) :
    suspend^[t.polled.length] t =
      { t with polled := [], suspended := t.polled.reverse ++ t.suspended } := by
  obtain ⟨logHooks, polled, suspended, guards, next⟩ := t
  induction polled generalizing suspended with
  | nil => rfl
  | cons st rest ih =>
      show suspend^[rest.length] ⟨logHooks, rest, st :: suspended, guards, next⟩ = _
      rw [ih, List.reverse_cons, List.append_assoc]
      rfl

variable [DecidableEq S]

theorem foldr_resume (logHooks : HookStack S) (polled suspended : List (HookStack S))
    (guards : List (HookGuard S)) (next : Nat) :
    polled.foldr resume ⟨logHooks, [], polled.reverse ++ suspended, guards, next⟩ =
      ⟨logHooks, polled, suspended, guards, next⟩ := by
  induction polled generalizing suspended with
  | nil => rfl
  | cons st rest ih =>
      rw [List.foldr_cons, List.reverse_cons, List.append_assoc, ih]
      show (⟨_, _, (st :: suspended).erase st, _, _⟩ : HookThread S) = _
      rw [List.erase_cons_head]

/-- The hook on top of a stack is the one that is removed. -/
theorem removeHook_push (h : Hook S) (st : HookStack S) :
    (st.push h).removeHook h.schema = some st := by
  have hhas : (st.push h).Has h.schema := ⟨h, List.mem_cons_self, rfl⟩
  rw [HookStack.removeHook, if_pos hhas]
  simp [HookStack.erase, HookStack.push]

/-- A guard that is dropped on the stacks it left removes its own hook. -/
theorem dropLogHookGuard_build (debugAssertions : Bool) (schema : S) (next : Nat) :
    dropLogHookGuard debugAssertions (t.nextGuard schema) { t.build schema with next } =
      .ret { t with next } := by
  have hremove (st : HookStack S) : (st.push ⟨schema, t.next⟩).removeHook schema = some st :=
    removeHook_push ⟨schema, t.next⟩ st
  obtain ⟨logHooks, polled, suspended, guards, n⟩ := t
  unfold dropLogHookGuard popLogHook popTask build pushLogHook nextGuard
  cases polled with
  | nil => simp only [HookGuard.hook, hremove, Outcome.map_ret, List.erase_cons_head]
  | cons st rest =>
      simp only [HookGuard.hook, hremove, Option.map_some, Outcome.map_ret, List.erase_cons_head]

end HookThread

namespace LoggingCode

open HookThread

variable [DecidableEq S]

/-- **Hooks are scoped lexically.**  Whatever guards and scopes code nests, of whatever
schemas, and wherever it panics or awaits, on whatever stacks it is started: every append
calls the hook of the innermost block around it, every depth is that of the blocks, no
assertion fires, and the stacks are left as they were found. -/
theorem run_eq_lexical (debugAssertions : Bool) (code : LoggingCode S) (t : HookThread S)
    (seen : List (Seen S)) :
    ∃ next, code.run debugAssertions ⟨t, seen⟩ =
      (code.lexical t.hookScope).map fun seen' ↦ ⟨{ t with next }, seen ++ seen'⟩ := by
  induction code generalizing t seen with
  | skip => exact ⟨t.next, by simp [run, lexical]⟩
  | seq first second ih₁ ih₂ =>
      obtain ⟨next, h₁⟩ := ih₁ t seen
      rw [run, lexical, h₁]
      cases first.lexical t.hookScope with
      | panic seen₁ => exact ⟨next, rfl⟩
      | ret seen₁ =>
          obtain ⟨next', h₂⟩ := ih₂ { t with next } (seen ++ seen₁)
          refine ⟨next', ?_⟩
          rw [Outcome.map_ret, Outcome.bind_ret, h₂]
          show (second.lexical t.hookScope).map _ = ((second.lexical t.hookScope).map _).map _
          cases second.lexical t.hookScope <;> simp
  | log level message =>
      exact ⟨t.next, by simp [run, lexical, innermost_hookScope]⟩
  | depth => exact ⟨t.next, by simp [run, lexical, depth_hookScope]⟩
  | panic => exact ⟨t.next, by simp [run, lexical]⟩
  | guarded schema body ih =>
      obtain ⟨next, h⟩ := ih (t.build schema) seen
      refine ⟨next, ?_⟩
      rw [run, lexical, h, hookScope_build]
      cases body.lexical (t.hookScope.guarded schema) with
      | ret seen' => simp [dropLogHookGuard_build]
      | panic seen' => simp [dropLogHookGuard_build]
  | inScope schema body ih =>
      obtain ⟨next, h⟩ := ih (t.enter schema) seen
      refine ⟨next, ?_⟩
      rw [run, lexical, h, hookScope_enter]
      cases body.lexical (t.hookScope.inScope schema) <;> rfl
  | await others ih =>
      obtain ⟨next, h⟩ := ih (suspend^[t.polled.length] t) seen
      refine ⟨next, ?_⟩
      have houtside : (suspend^[t.polled.length] t).hookScope = t.hookScope.outside := by
        rw [iterate_suspend]
        rfl
      rw [run, lexical, h, houtside, iterate_suspend, Outcome.state_map]
      simp only [foldr_resume, Outcome.map_ret]
  | caught body ih =>
      obtain ⟨next, h⟩ := ih t seen
      exact ⟨next, by rw [run, lexical, h, Outcome.state_map, Outcome.map_ret]⟩

end LoggingCode

end WideLog
