import WideLog.Process.Threads
import WideLog.Scope.Isolation

/-!
# A process of tasks

Any number of tasks run programs of nested `scope()` blocks, polled on any threads, and any
of them may be dropped between two polls.  A task that leaves a scope calls `submit`, which
may block the thread that polls it: the task does nothing else until then, and the thread
polls no other.
-/

namespace WideLog

open Macros StdoutEmit

variable {Θ T : Type} {p : Program}

/-- What a task has left stays left. -/
theorem Solo.left_prefix_foldl (env : Env p.EventKey) (s : Solo p) (ops : List (ScopeOp Θ p)) :
    s.left <+: (ops.foldl (step env) s).left := by
  induction ops generalizing s with
  | nil => exact List.prefix_rfl
  | cons op ops ih =>
      refine List.IsPrefix.trans ?_ (ih (s.step env op))
      obtain ⟨opened, left⟩ := s
      cases op with
      | call | log => cases opened <;> exact List.prefix_rfl
      | leave =>
          cases opened with
          | nil => exact List.prefix_rfl
          | cons r rs => exact List.prefix_append _ _
      | _ => exact List.prefix_rfl

namespace Runtime

variable [DecidableEq Θ] [DecidableEq T] {env : Env p.EventKey} {s s' : Runtime Θ T p} {τ τ' : T}
  {op : ScopeOp Θ p}

omit [DecidableEq Θ] [DecidableEq T] in
theorem emitted_modify (ptr : Option Nat) (f : WideEvent p.EventKey → WideEvent p.EventKey)
    (t : Runtime Θ T p) : (t.modify ptr f).emitted = t.emitted := by
  cases ptr <;> rfl

/-- A step of a task finishes one event of the task at most. -/
theorem Step.exists_emitted (h : Step env s (τ, op) s') :
    ∃ e : Option (WideEvent p.EventKey), s'.emitted = s.emitted ++ e.toList.map (τ, ·) := by
  cases h with
  | leave elapsed now => exact ⟨_, rfl⟩
  | call | log => exact ⟨none, (emitted_modify _ _ s).trans (List.append_nil _).symm⟩
  | _ => exact ⟨none, (List.append_nil _).symm⟩

theorem Step.emittedBy (h : Step env s (τ, op) s') :
    ∃ e : Option (WideEvent p.EventKey), s'.emittedBy τ = s.emittedBy τ ++ e.toList := by
  obtain ⟨e, he⟩ := h.exists_emitted
  refine ⟨e, ?_⟩
  show stepsOf τ s'.emitted = stepsOf τ s.emitted ++ _
  rw [he, stepsOf_append]
  cases e with
  | none => rfl
  | some ev => exact congrArg _ (stepsOf_cons_self τ ev [])

theorem Step.emittedBy_of_ne (h : Step env s (τ, op) s') (hτ : τ' ≠ τ) :
    s'.emittedBy τ' = s.emittedBy τ' := by
  obtain ⟨e, he⟩ := h.exists_emitted
  show stepsOf τ' s'.emitted = stepsOf τ' s.emitted
  rw [he, stepsOf_append]
  cases e with
  | none => exact List.append_nil _
  | some ev =>
      have hnone : stepsOf τ' [(τ, ev)] = [] := stepsOf_cons_of_ne (Ne.symm hτ) []
      exact (congrArg _ hnone).trans (List.append_nil _)

/-- The lines of the events of the scopes a task has left. -/
def lines (debugAssertions : Bool) (ryu : F64 → String) (τ : T) (t : Runtime Θ T p) :
    List (List UInt8) :=
  (t.emittedBy τ).filterMap (emitBuf debugAssertions ryu)

/-- Tasks with scopes, as callers of `default_emit`. -/
def emitters (Θ T : Type) [DecidableEq Θ] [DecidableEq T] {tc : Toolchain}
    {input : List TokenTree} (a : Accepted tc input) (env : Env a.program.EventKey)
    (debugAssertions : Bool) {ryu : F64 → String} (hryu : PrintsFloats ryu) : Emitters T where
  State := Runtime Θ T a.program
  Op := ScopeOp Θ a.program
  start := new
  Step := Step env
  lines := lines debugAssertions ryu
  Record := GuardRun a.program
  text run := run.output ryu
  finished ops := (Solo.of env ops).left
  lines_start _ := rfl
  lines_step h := by
    obtain ⟨e, he⟩ := h.emittedBy
    refine ⟨e.map (line ryu), ?_⟩
    rw [lines, he, List.filterMap_append]
    cases e with
    | none => rfl
    | some ev => exact congrArg _ (List.filterMap_cons_some (emitBuf_eq ev))
  lines_other h hτ := by rw [lines, lines, h.emittedBy_of_ne hτ]
  finished_append ops ops' := by
    rw [Solo.of, Solo.of, List.foldl_append]
    exact Solo.left_prefix_foldl env _ ops'
  lines_eq {tr t} τ h := by
    obtain ⟨-, hi⟩ := Isolated.run a h wired_new isolated_new
    have hlines : t.lines debugAssertions ryu τ = (t.emittedBy τ).map (line ryu) := by
      have hbuf : emitBuf debugAssertions ryu = fun ev : WideEvent a.program.EventKey ↦
          some (line ryu ev) := funext emitBuf_eq
      rw [lines, hbuf, List.filterMap_eq_map']
    rw [hlines, List.forall₂_map_right_iff]
    exact ((hi.left τ).imp fun _ _ hevent ↦ isLine_of_event hryu hevent).flip

/-- **A process of tasks delivers what its scopes recorded.**  In every run in which the
writer is spawned and writes succeed, whatever threads poll the tasks and wherever tasks
are dropped, splitting the output at the line ends gives what the scopes serialize, one
line for each scope that was left, with what its own task did in it; the lines of a task
are in the order in which it left its scopes, and only the last one may still be in its
hands.  When a flush is acknowledged, the output as it was when the flush was sent is at
the terminal. -/
theorem scopes_delivered {tc : Toolchain} {input : List TokenTree} (a : Accepted tc input)
    {env : Env a.program.EventKey} {debugAssertions : Bool} {ryu : F64 → String}
    (hryu : PrintsFloats ryu) {capacity : Option ChannelCapacity} {policy : Option FlushPolicy}
    {dropped : UInt64} {t : Process (emitters Θ T a env debugAssertions hryu)}
    {tr : List (Process (emitters Θ T a env debugAssertions hryu) × ProcessOp _)}
    (h : Run Process.Step (Process.new capacity policy dropped) tr t)
    (hio : ∀ x ∈ tr, x.2.Succeeds) : Process.Delivers tr t :=
  Process.delivers_of_run h hio

/-- One task leaves a scope, and another caller asks for a flush. -/
theorem scopes_delivered_flush :
    ∃ (a : Accepted asciiToolchain statusSchema) (E : Emitters Bool)
      (tr₁ : List (Process E × ProcessOp E)) (r r' : Process E) (order : List (Bool × E.Record)),
      E = emitters Unit Bool a .release true printsFloats_sampleRyu ∧
        Process.Delivered tr₁ r order ∧ (stepsOf true order).length = 1 ∧
          r.output <+: r'.stdout.flushed := by
  obtain ⟨a, -⟩ := exists_statusSchema
  let env : Env a.program.EventKey := .release
  let E : Emitters Bool := emitters Unit Bool a env true printsFloats_sampleRyu
  let start : Start a.program := ⟨none, "id", nofun⟩
  obtain ⟨ev, hbuild, -⟩ := a.build_ret env "id"
  let s₁ : Runtime Unit Bool a.program := new.begin true () .running
  let s₂ : Runtime Unit Bool a.program := s₁.enter true () ev
  let s₃ : Runtime Unit Bool a.program := s₂.leave env true () 0 [] (fun _ ↦ ⟨0⟩) "now"
  have hpoll : Step env new (true, .poll ()) s₁ := .poll rfl rfl nofun
  have henter : Step env s₁ (true, .enter start) s₂ := .enter rfl rfl hbuild
  have hleave : Step env s₂ (true, .leave (fun _ ↦ ⟨0⟩) "now") s₃ := .leave _ _ rfl rfl
  obtain ⟨-, hi⟩ := Isolated.run a (.cons hpoll (.cons henter (.cons hleave (.nil s₃)))) wired_new
    isolated_new
  obtain ⟨ev', hemitted⟩ : ∃ ev', s₃.emittedBy true = [ev'] :=
    List.length_eq_one_iff.mp ((hi.left true).length_eq.trans rfl)
  have hlines : E.lines true s₃ = E.lines true s₂ ++ [line sampleRyu ev'] := by
    show s₃.lines true sampleRyu true = [] ++ [line sampleRyu ev']
    rw [lines, hemitted]
    simp [emitBuf_eq]
  have hrun₁ : Process.Step (Process.new none none 0 : Process E)
      (.caller true (.poll ()) none) ⟨s₁, .new none none 0⟩ :=
    .of_caller rfl hpoll (Process.handOver_eq (e := none) rfl)
  have hrun₂ : Process.Step (⟨s₁, .new none none 0⟩ : Process E)
      (.caller true (.enter start) none) ⟨s₂, .new none none 0⟩ :=
    .of_caller rfl henter (Process.handOver_eq (e := none) rfl)
  have hrun₃ : Process.Step (⟨s₂, .new none none 0⟩ : Process E)
      (.caller true (.leave (fun _ ↦ ⟨0⟩) "now") (some (line sampleRyu ev')))
      ⟨s₃, Process.submitting true (some (line sampleRyu ev')) (.new none none 0)⟩ :=
    .of_caller rfl hleave (Process.handOver_eq (e := some _) hlines)
  obtain ⟨tr₁, r, tr₂, r', t, hidle, hops, hio, hrun⟩ := Process.exists_flush
    (.cons hrun₁ (.cons hrun₂ (.cons hrun₃ (.nil _)))) (by simp [ProcessOp.Succeeds]) rfl
  obtain ⟨_, -, hflush⟩ := scopes_delivered a printsFloats_sampleRyu hrun hio
  obtain ⟨hflushed, order, -, hdelivered⟩ := hflush tr₁ tr₂ [] r r' false false 0 rfl
  refine ⟨a, E, tr₁, r, r', order, rfl, hdelivered, ?_, hflushed⟩
  obtain ⟨held, hfinished, hheld⟩ := hdelivered.finished true
  have hlength := congrArg List.length hfinished
  rw [Process.finished, hops, List.length_append, hheld, hidle] at hlength
  exact hlength.symm

end Runtime

end WideLog
