import WideLog.Lib.Interleave
import WideLog.Serialize.Emit
import WideLog.Stdout.Delivery

/-!
# A process

Callers finish events, each one after the other: threads that drop guards, or tasks that
leave scopes.  The emit closure of every event is `default_emit`, which hands a line to
`submit`, and one writer thread serves them all.  Callers may also ask for flushes, and set
the capacity of the channel and the flush policy.

The parts are the callers, whatever they are, and the pipeline to standard output.  Seen
from each of its parts, a run of the process is a run of the part.
-/

namespace WideLog

open StdoutEmit

/-- The bytes that `default_emit` hands to `submit`, if it gets that far. -/
def emitBuf (debugAssertions : Bool) (ryu : F64 → String) {K : Type} [Key K] (ev : WideEvent K) :
    Option (List UInt8) :=
  (defaultEmit debugAssertions ryu ev ⟨[], []⟩).state.queue.head?

/-- What is handed over for an event is its line. -/
theorem emitBuf_eq {debugAssertions : Bool} {ryu : F64 → String} {K : Type} [Key K]
    (ev : WideEvent K) : emitBuf debugAssertions ryu ev = some (line ryu ev) := by
  rw [emitBuf, defaultEmit_eq]
  rfl

/-- The bytes that are handed over for a record: its text, in one line. -/
def IsLine {R : Type} (text : R → Option (List UInt8)) (r : R) (bytes : List UInt8) : Prop :=
  ∃ t, text r = some t ∧ (0x0A : UInt8) ∉ t ∧ bytes = t ++ [0x0A]

/-- Callers that finish events.  What a caller has handed over is what it has finished by
what it did itself, in order, and a step of a caller finishes one event at most. -/
structure Emitters (P : Type) [DecidableEq P] where
  State : Type
  Op : Type
  start : State
  Step : State → P × Op → State → Prop
  /-- The lines of the events that a caller has finished. -/
  lines : P → State → List (List UInt8)
  /-- What is recorded for an event. -/
  Record : Type
  text : Record → Option (List UInt8)
  finished : List Op → List Record
  lines_start : ∀ p, lines p start = []
  lines_step : ∀ {s s' p op}, Step s (p, op) s' →
    ∃ e : Option (List UInt8), lines p s' = lines p s ++ e.toList
  lines_other : ∀ {s s' p op q}, Step s (p, op) s' → q ≠ p → lines q s' = lines q s
  finished_append : ∀ ops ops', finished ops <+: finished (ops ++ ops')
  lines_eq : ∀ {tr t} p, Run Step start tr t →
    List.Forall₂ (IsLine text) (finished (stepsOf p (tr.map Prod.snd))) (lines p t)

variable {P : Type} [DecidableEq P]

/-- The callers of a process, and the pipeline they share. -/
structure Process (E : Emitters P) where
  callers : E.State
  stdout : Pipeline P

/-- A step of a process: of a caller outside of the module, with the line it hands over, or
in the module, or of the writer. -/
inductive ProcessOp (E : Emitters P) where
  | caller (p : P) (op : E.Op) (line : Option (List UInt8))
  | flush (p : P)
  | stdout (a : Action P)

namespace ProcessOp

variable {E : Emitters P}

/-- What a step is to the pipeline. -/
def onStdout : ProcessOp E → Option (Action P)
  | .caller p _ line => line.map fun bytes ↦ .call p (.submit bytes)
  | .flush p => some (.call p .flush)
  | .stdout a => some a

/-- What a step is to the callers. -/
def onCallers : ProcessOp E → Option (P × E.Op)
  | .caller p op _ => some (p, op)
  | .flush _ | .stdout _ => none

/-- The system does what a step asks of it: it spawns the writer, and it writes. -/
def Succeeds : ProcessOp E → Prop
  | .stdout (.initSender _ spawned) => spawned = true
  | .stdout a => a.WritesSucceed
  | .caller _ _ _ | .flush _ => True

end ProcessOp

/-- What a step of a caller hands over: the line of the event it has finished. -/
def Emitters.handOver (E : Emitters P) (p : P) (s s' : E.State) : Option (List UInt8) :=
  ((E.lines p s').drop (E.lines p s).length).head?

namespace Process

variable {E : Emitters P}

/-- A process before its first event, whatever is set. -/
def new (capacity : Option ChannelCapacity) (policy : Option FlushPolicy) (dropped : UInt64) :
    Process E :=
  ⟨E.start, .new capacity policy dropped⟩

/-- A caller calls `submit` with the line it hands over. -/
def submitting (p : P) : Option (List UInt8) → Pipeline P → Pipeline P
  | some bytes, s => s.go p (Call.submit bytes).enter
  | none, s => s

/-- A step of a process.  A caller that is in the module does nothing else. -/
inductive Step : Process E → ProcessOp E → Process E → Prop where
  | caller {s : Process E} {p : P} {op : E.Op} {callers' : E.State} :
      s.stdout.producers p = .idle → E.Step s.callers (p, op) callers' →
      Step s (.caller p op (E.handOver p s.callers callers'))
        ⟨callers', submitting p (E.handOver p s.callers callers') s.stdout⟩
  | flush {s : Process E} {p : P} : s.stdout.producers p = .idle →
      Step s (.flush p) { s with stdout := s.stdout.go p Call.flush.enter }
  | stdout {s : Process E} {a : Action P} {stdout' : Pipeline P} : (∀ p call, a ≠ .call p call) →
      s.stdout.Step a stdout' → Step s (.stdout a) { s with stdout := stdout' }

/-- A step of a caller, from what it hands over. -/
theorem Step.of_caller {s : Process E} {p : P} {op : E.Op} {callers' : E.State}
    {line : Option (List UInt8)} (hidle : s.stdout.producers p = .idle)
    (hstep : E.Step s.callers (p, op) callers') (hline : E.handOver p s.callers callers' = line) :
    Step s (.caller p op line) ⟨callers', submitting p line s.stdout⟩ :=
  hline ▸ .caller hidle hstep

variable {s s' t : Process E} {a : ProcessOp E} {tr : List (Process E × ProcessOp E)}

/-! ## The parts of a run -/

theorem Step.onStdout (h : Step s a s') {b : Action P} (hb : a.onStdout = some b) :
    s.stdout.Step b s'.stdout := by
  cases h with
  | @caller p op callers' hidle hstep =>
      unfold ProcessOp.onStdout at hb
      cases hline : E.handOver p s.callers callers' with
      | none => rw [hline] at hb; cases hb
      | some bytes =>
          rw [hline] at hb
          cases hb
          exact .call hidle
  | flush hidle => cases hb; exact .call hidle
  | stdout _ hstep => cases hb; exact hstep

theorem Step.stdout_eq (h : Step s a s') (hb : a.onStdout = none) : s'.stdout = s.stdout := by
  cases h with
  | @caller p op callers' hidle hstep =>
      unfold ProcessOp.onStdout at hb
      cases hline : E.handOver p s.callers callers' with
      | none => rfl
      | some bytes => rw [hline] at hb; cases hb
  | flush | stdout => cases hb

theorem Step.onCallers (h : Step s a s') {b : P × E.Op} (hb : a.onCallers = some b) :
    E.Step s.callers b s'.callers := by
  cases h with
  | caller _ hstep => cases hb; exact hstep
  | flush | stdout => cases hb

theorem Step.callers_eq (h : Step s a s') (hb : a.onCallers = none) : s'.callers = s.callers := by
  cases h with
  | caller => cases hb
  | flush | stdout => rfl

/-- A run, as the pipeline sees it. -/
def stdoutTrace (tr : List (Process E × ProcessOp E)) : List (Pipeline P × Action P) :=
  tr.filterMap fun x ↦ x.2.onStdout.map (x.1.stdout, ·)

theorem stdoutTrace_append (tr₁ tr₂ : List (Process E × ProcessOp E)) :
    stdoutTrace (tr₁ ++ tr₂) = stdoutTrace tr₁ ++ stdoutTrace tr₂ := List.filterMap_append

/-- A run, as the callers see it. -/
def callersTrace (tr : List (Process E × ProcessOp E)) : List (E.State × P × E.Op) :=
  tr.filterMap fun x ↦ x.2.onCallers.map (x.1.callers, ·)

theorem run_stdout (h : Run Step s tr t) : Run Pipeline.Step s.stdout (stdoutTrace tr) t.stdout :=
  h.view Process.stdout ProcessOp.onStdout (fun ha hb ↦ ha.onStdout hb)
    fun ha hb ↦ ha.stdout_eq hb

theorem run_callers (h : Run Step s tr t) : Run E.Step s.callers (callersTrace tr) t.callers :=
  h.view Process.callers ProcessOp.onCallers (fun ha hb ↦ ha.onCallers hb)
    fun ha hb ↦ ha.callers_eq hb

/-! ## The account of a caller -/

/-- What the callers do, in order. -/
def ops (tr : List (Process E × ProcessOp E)) : List (P × E.Op) :=
  (tr.map Prod.snd).filterMap ProcessOp.onCallers

theorem ops_eq (tr : List (Process E × ProcessOp E)) : ops tr = (callersTrace tr).map Prod.snd := by
  rw [ops, callersTrace, List.map_filterMap, List.filterMap_map]
  refine List.filterMap_congr fun x _ ↦ ?_
  rw [Option.map_map, Function.comp_apply]
  exact Option.map_id'.symm

/-- What is recorded for the events that a caller has finished, in order. -/
def finished (p : P) (tr : List (Process E × ProcessOp E)) : List E.Record :=
  E.finished (stepsOf p (ops tr))

/-- What is asked of the callers later adds to what they have finished. -/
theorem finished_append (p : P) (tr₁ tr₂ : List (Process E × ProcessOp E)) :
    finished p tr₁ <+: finished p (tr₁ ++ tr₂) := by
  rw [finished, finished, ops, ops, List.map_append, List.filterMap_append, stepsOf_append]
  exact E.finished_append _ _

/-- The payload that a step of the process calls the module with. -/
def calledBy (p : P) (a : ProcessOp E) : List (List UInt8) :=
  (a.onStdout.map (Action.called p)).getD []

/-- A caller hands over the line that it adds. -/
theorem handOver_eq {p : P} {s s' : E.State} {e : Option (List UInt8)}
    (h : E.lines p s' = E.lines p s ++ e.toList) : E.handOver p s s' = e := by
  rw [Emitters.handOver, h, List.drop_left]
  cases e <;> rfl

/-- A caller calls the module with the lines of the events it finishes. -/
theorem Step.calledBy (h : Step s a s') (p : P) :
    E.lines p s.callers ++ calledBy p a = E.lines p s'.callers := by
  cases h with
  | @caller q op callers' hidle hstep =>
      obtain ⟨e, he⟩ := E.lines_step hstep
      have hcalled : Process.calledBy p (.caller q op (E.handOver q s.callers callers')) =
          if q = p then e.toList else [] := by
        rw [handOver_eq he]
        cases e with
        | none => exact (ite_self _).symm
        | some bytes => rfl
      rw [hcalled]
      by_cases hq : q = p
      · subst hq
        rw [if_pos rfl]
        exact he.symm
      · rw [if_neg hq, List.append_nil]
        exact (E.lines_other hstep (Ne.symm hq)).symm
  | @flush q hidle =>
      have hnone : Process.calledBy p (.flush q : ProcessOp E) = [] := ite_self []
      rw [hnone, List.append_nil]
  | @stdout a _ hcall hstep =>
      have hnone : Process.calledBy p (.stdout a : ProcessOp E) = [] := by
        cases a with
        | call q call => exact absurd rfl (hcall q call)
        | _ => rfl
      rw [hnone, List.append_nil]

theorem called_stdoutTrace (p : P) (tr : List (Process E × ProcessOp E)) :
    Pipeline.called p (stdoutTrace tr) = tr.flatMap fun x ↦ calledBy p x.2 := by
  induction tr with
  | nil => rfl
  | cons x tr ih =>
      rw [List.flatMap_cons, ← ih]
      unfold stdoutTrace calledBy
      cases hx : x.2.onStdout with
      | none => rw [List.filterMap_cons_none (by simp [hx])]; rfl
      | some a => rw [List.filterMap_cons_some (by simp [hx]; rfl)]; rfl

end Process

end WideLog
