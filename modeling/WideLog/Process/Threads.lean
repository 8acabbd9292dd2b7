import WideLog.Hooks.Routing
import WideLog.Process.Delivery

/-!
# A process of threads

Any number of threads build guards of any number of schema crates, use their macros and
drop them, each in its own time.  What a thread finishes are the guards it drops.
-/

namespace WideLog

open Macros StdoutEmit

variable {S P : Type} {c : Crates S} {debugAssertions : Bool} {ryu : F64 → String}

/-- What is handed over for an event is the line of its guard. -/
theorem isLine_of_event {p : Program} (hryu : PrintsFloats ryu) {run : GuardRun p}
    {ev : WideEvent p.EventKey} (h : run.event = .ret ev) :
    IsLine (fun run : GuardRun p ↦ run.output ryu) run (line ryu ev) := by
  refine ⟨utf8 (ev.text ryu), ?_, (line_safe hryu ev).1, rfl⟩
  simp only [GuardRun.output, h, serializeTo_vecWriter, Except.toOption]

variable [DecidableEq S]

/-- What has been emitted stays emitted. -/
theorem Nesting.emitted_prefix_foldl (n : Nesting c) (ops : List (CrateOp c)) :
    n.emitted <+: (ops.foldl Nesting.step n).emitted := by
  induction ops generalizing n with
  | nil => exact List.prefix_rfl
  | cons op ops ih =>
      refine List.IsPrefix.trans ?_ (ih (n.step op))
      obtain ⟨live, emitted⟩ := n
      cases op with
      | log => cases live <;> exact List.prefix_rfl
      | drop =>
          cases live with
          | nil => exact List.prefix_rfl
          | cons r rs => exact List.prefix_append _ _
      | _ => exact List.prefix_rfl

namespace CrateThread

variable [DecidableEq P]

/-- The lines of the events a thread has finished. -/
def lines (debugAssertions : Bool) (ryu : F64 → String) (t : CrateThread c) : List (List UInt8) :=
  t.emitted.filterMap fun e ↦ emitBuf debugAssertions ryu e.2

/-- A step of one of the threads. -/
def StepOf (debugAssertions : Bool) (s : P → CrateThread c) (a : P × CrateOp c)
    (s' : P → CrateThread c) : Prop :=
  ∃ t', Step debugAssertions (s a.1) a.2 t' ∧ s' = Function.update s a.1 t'

variable {s s' : P → CrateThread c} {p q : P} {op : CrateOp c}

theorem StepOf.self (h : StepOf debugAssertions s (p, op) s') :
    Step debugAssertions (s p) op (s' p) := by
  obtain ⟨t', hstep, rfl⟩ := h
  rwa [Function.update_self]

theorem StepOf.other (h : StepOf debugAssertions s (p, op) s') (hq : q ≠ p) : s' q = s q := by
  obtain ⟨t', -, rfl⟩ := h
  exact Function.update_of_ne hq _ _

/-- A run of the threads is a run of each of them. -/
theorem run_of_threads {tr : List ((P → CrateThread c) × P × CrateOp c)}
    (h : Run (StepOf debugAssertions) s tr s') (p : P) :
    ∃ tr', Run (Step debugAssertions) (s p) tr' (s' p) ∧
      tr'.map Prod.snd = stepsOf p (tr.map Prod.snd) := by
  induction h with
  | nil s => exact ⟨[], .nil _, rfl⟩
  | @cons s _ _ a tr hstep _ ih =>
      obtain ⟨q, op⟩ := a
      obtain ⟨tr', hrun, hops⟩ := ih
      rw [List.map_cons]
      by_cases hq : q = p
      · subst hq
        exact ⟨(s q, op) :: tr', .cons hstep.self hrun, by rw [stepsOf_cons_self, ← hops]; rfl⟩
      · rw [hstep.other (Ne.symm hq)] at hrun
        exact ⟨tr', hrun, by rw [stepsOf_cons_of_ne hq, hops]⟩

theorem lines_step {t t' : CrateThread c} (h : Step debugAssertions t op t') :
    ∃ e : Option (List UInt8),
      t'.lines debugAssertions ryu = t.lines debugAssertions ryu ++ e.toList := by
  obtain ⟨e, he⟩ := h.exists_emitted
  rw [lines, he, List.filterMap_append]
  cases e with
  | none => exact ⟨none, rfl⟩
  | some e => exact ⟨some (line ryu e.2), by simp [lines, emitBuf_eq]⟩

/-- The lines of a thread are those of the guards it has dropped. -/
theorem Simulates.lines {t : CrateThread c} {n : Nesting c} (h : t.Simulates n)
    (hryu : PrintsFloats ryu) :
    List.Forall₂ (IsLine fun g : Σ σ, GuardRun (c.program σ) ↦ g.2.output ryu) n.emitted
      (t.lines debugAssertions ryu) := by
  have hlines : t.lines debugAssertions ryu = t.emitted.map fun e ↦ line ryu e.2 := by
    simp only [CrateThread.lines, emitBuf_eq]
    exact congrFun List.filterMap_eq_map' t.emitted
  rw [hlines, List.forall₂_map_right_iff]
  refine (h.emitted.imp fun e g hemits ↦ ?_).flip
  obtain ⟨σ, run⟩ := g
  unfold Emits at hemits
  cases hevent : run.event with
  | panic ev => rw [hevent] at hemits; cases hemits
  | ret ev =>
      rw [hevent] at hemits
      cases hemits
      exact isLine_of_event hryu hevent

/-- Threads with guards, as callers of `default_emit`. -/
def emitters (c : Crates S) (debugAssertions : Bool) {ryu : F64 → String}
    (hryu : PrintsFloats ryu) : Emitters P where
  State := P → CrateThread c
  Op := CrateOp c
  start _ := new
  Step := StepOf debugAssertions
  lines p s := (s p).lines debugAssertions ryu
  Record := Σ σ, GuardRun (c.program σ)
  text g := g.2.output ryu
  finished ops := (Nesting.after ops).emitted
  lines_start _ := rfl
  lines_step h := lines_step h.self
  lines_other h hq := by rw [h.other hq]
  finished_append ops ops' := by
    rw [Nesting.after, Nesting.after, List.foldl_append]
    exact Nesting.emitted_prefix_foldl _ _
  lines_eq p h := by
    obtain ⟨tr', hrun, hops⟩ := run_of_threads h p
    rw [← hops]
    exact (simulates_new.run hrun).lines hryu

/-- **A process of threads delivers what its guards recorded.**  In every run in which the
writer is spawned and writes succeed, splitting the output at the line ends gives what the
guards serialize, one line for each guard, whatever threads emit at the same time and
whatever they log; the lines of a thread are those of the guards it has dropped, in order,
and only the last one may still be in its hands.  When a flush is acknowledged, the output
as it was when the flush was sent is at the terminal. -/
theorem process_delivers (hryu : PrintsFloats ryu) {capacity : Option ChannelCapacity}
    {policy : Option FlushPolicy} {dropped : UInt64}
    {t : Process (emitters c debugAssertions hryu : Emitters P)}
    {tr : List (Process (emitters c debugAssertions hryu : Emitters P) × ProcessOp _)}
    (h : Run Process.Step (Process.new capacity policy dropped) tr t)
    (hio : ∀ x ∈ tr, x.2.Succeeds) : Process.Delivers tr t :=
  Process.delivers_of_run h hio

/-- One thread drops a guard, and another asks for a flush. -/
theorem process_delivers_flush :
    ∃ (c : Crates Unit) (E : Emitters Bool) (tr₁ : List (Process E × ProcessOp E))
      (r r' : Process E) (order : List (Bool × E.Record)),
      E = emitters c true printsFloats_sampleRyu ∧ Process.Delivered tr₁ r order ∧
        (stepsOf true order).length = 1 ∧ r.output <+: r'.stdout.flushed := by
  obtain ⟨a, -⟩ := exists_statusSchema
  let c : Crates Unit := ⟨asciiToolchain, fun _ ↦ statusSchema, fun _ ↦ a, fun _ ↦ .release⟩
  let E : Emitters Bool := emitters c true printsFloats_sampleRyu
  let start : Start a.program := ⟨none, "id", nofun⟩
  obtain ⟨ev, hbuild, -⟩ := a.build_ret .release "id"
  let guarded : CrateThread c := CrateThread.new.build () ev
  let dropped : CrateThread c :=
    { guarded with guards := [] }.drop ⟨⟨0, none⟩, ()⟩ ⟨none⟩ (fun _ ↦ ⟨0⟩) "now"
  have hbuilt : Step true (.new : CrateThread c) (.build () start) guarded := .build hbuild
  have hdropped : Step true guarded (.drop (fun _ ↦ ⟨0⟩) "now") dropped := .drop _ _ rfl rfl
  let s₁ : Bool → CrateThread c := Function.update (fun _ ↦ .new) true guarded
  let s₂ : Bool → CrateThread c := Function.update s₁ true dropped
  have hstep₁ : StepOf true (fun _ ↦ .new) (true, .build () start) s₁ := ⟨guarded, hbuilt, rfl⟩
  have hstep₂ : StepOf true s₁ (true, .drop (fun _ ↦ ⟨0⟩) "now") s₂ := ⟨dropped, hdropped, rfl⟩
  obtain ⟨e, hemitted⟩ : ∃ e, dropped.emitted = [e] :=
    List.length_eq_one_iff.mp
      (((simulates_new.step hbuilt).step hdropped).emitted.length_eq.trans rfl)
  have hlines : E.lines true s₂ = E.lines true s₁ ++ [line sampleRyu e.2] := by
    show dropped.lines true sampleRyu = [] ++ [line sampleRyu e.2]
    rw [lines, hemitted]
    simp [emitBuf_eq]
  have hrun₁ : Process.Step (Process.new none none 0 : Process E)
      (.caller true (.build () start) none) ⟨s₁, .new none none 0⟩ :=
    .of_caller rfl hstep₁ (Process.handOver_eq (e := none) rfl)
  have hrun₂ : Process.Step (⟨s₁, .new none none 0⟩ : Process E)
      (.caller true (.drop (fun _ ↦ ⟨0⟩) "now") (some (line sampleRyu e.2)))
      ⟨s₂, Process.submitting true (some (line sampleRyu e.2)) (.new none none 0)⟩ :=
    .of_caller rfl hstep₂ (Process.handOver_eq (e := some _) hlines)
  obtain ⟨tr₁, r, tr₂, r', t, hidle, hops, hio, hrun⟩ := Process.exists_flush
    (.cons hrun₁ (.cons hrun₂ (.nil _))) (by simp [ProcessOp.Succeeds]) rfl
  obtain ⟨_, -, hflush⟩ := process_delivers printsFloats_sampleRyu hrun hio
  obtain ⟨hflushed, order, -, hdelivered⟩ := hflush tr₁ tr₂ [] r r' false false 0 rfl
  refine ⟨c, E, tr₁, r, r', order, rfl, hdelivered, ?_, hflushed⟩
  obtain ⟨held, hfinished, hheld⟩ := hdelivered.finished true
  have hlength := congrArg List.length hfinished
  rw [Process.finished, hops, List.length_append, hheld, hidle] at hlength
  exact hlength.symm

end CrateThread

end WideLog
