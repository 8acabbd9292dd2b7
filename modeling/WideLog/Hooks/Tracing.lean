import WideLog.Hooks.Capture
import WideLog.Hooks.Routing
import WideLog.Serialize.Emit

/-!
# Guards under a `tracing` subscriber

With the `tracing` feature, the level macros are those of `tracing`, and there is no hook
registry: `tracing` gives a record that every layer of the subscriber enables to each of
them.  Each schema crate has a capture layer of its own, which appends the record to the
current event of the crate.  The `default_emit` of a crate sends the finished line as a
record too, to the reserved target.

The emit closures are those, and the other layers look at records without logging.  What
is rendered has no effects.  The hooks that a thread of guards also has are not compiled
here, and nothing reads them.
-/

namespace WideLog

open Macros

variable {S : Type}

/-- A thread of guards, the buffers of each crate, and the records that the other layers
of the subscriber were shown. -/
structure TracedThread {S : Type} (c : Crates S) where
  thread : CrateThread c
  fieldsBuf : S → FormatBuf
  fmtBuf : S → FormatBuf
  shown : List Record

/-- What a thread does with guards and macros, or a record it logs. -/
inductive TracedOp {S : Type} (c : Crates S) where
  | guard (op : CrateOp c)
  | log (record : Record)

/-- `str::trim_end_matches`, for a character. -/
def trimEndMatches (c : Char) (s : List Char) : List Char := s.rdropWhile (· = c)

namespace TracedThread

variable {c : Crates S}

/-- A thread before its first guard. -/
def new : TracedThread c := ⟨.new, fun _ ↦ ⟨"", false⟩, fun _ ↦ ⟨"", false⟩, []⟩

section Model

variable (debugAssertions : Bool) (ryu : F64 → String)

/-- The record that `default_emit` sends, if it gets that far. -/
def emission {K : Type} [Key K] (ev : WideEvent K) : Option Record :=
  match serializeTo vecWriter ryu ev [] with
  | .ok buf =>
    let buf := buf ++ bytes "\n"
    if debugAssertions && (utf8Decode buf).isNone then none
    else (utf8Decode buf).map fun s ↦
      ⟨wideLogTarget, .info, [("event", .ofList (trimEndMatches '\n' s))]⟩
  | .error _ => none

variable [DecidableEq S]

/-- The event that `current()` of a crate returns. -/
def currentEvent (t : TracedThread c) (s : S) : Option (c.Event s) :=
  (t.thread.current s).bind (t.thread.heap s)

/-- A record passes through the capture layer of a crate. -/
def capture (record : Record) (t : TracedThread c) (layer : S × WideLogCaptureLayer) :
    TracedThread c :=
  let s := layer.1
  let after := layer.2.onEvent record ⟨t.currentEvent s, t.fieldsBuf s, t.fmtBuf s⟩
  { t with
    thread := after.current.elim t.thread fun ev ↦ t.thread.call s fun _ ↦ ev
    fieldsBuf := Function.update t.fieldsBuf s after.fieldsBuf
    fmtBuf := Function.update t.fmtBuf s after.fmtBuf }

/-- A record is given to the layers of the subscriber, the capture layers and the others. -/
def deliver (layers : List (S × WideLogCaptureLayer)) (record : Record) (t : TracedThread c) :
    TracedThread c :=
  { layers.foldl (capture record) t with shown := t.shown ++ [record] }

/-- What `tracing` does with a record that is logged on the thread. -/
abbrev Dispatch (c : Crates S) := Record → TracedThread c → TracedThread c

/-- What is documented of `tracing`, for a subscriber with these capture layers and others
that enable every record: a record that all layers enable is given to all of them, and one
that some layer does not enable is given to none. -/
structure Dispatches (layers : List (S × WideLogCaptureLayer)) (dispatch : Dispatch c) :
    Prop where
  enabled : ∀ {record t}, (∀ layer ∈ layers, layer.2.enabled record) →
    dispatch record t = deliver layers record t
  disabled : ∀ {record t}, (∃ layer ∈ layers, ¬ layer.2.enabled record) → dispatch record t = t

/-- The events a step has finished, each sent by its `default_emit`. -/
def sendAll (dispatch : Dispatch c) (events : List (Σ s, c.Event s)) (t : TracedThread c) :
    TracedThread c :=
  (events.filterMap fun e ↦ emission debugAssertions ryu e.2).foldl
    (fun t record ↦ dispatch record t) t

/-- The steps of a thread. -/
inductive Step (dispatch : Dispatch c) : TracedThread c → TracedOp c → TracedThread c → Prop where
  | guard {t : TracedThread c} {op : CrateOp c} {thread : CrateThread c} :
      (∀ level message, op ≠ .log level message) →
      CrateThread.Step debugAssertions t.thread op thread →
      Step dispatch t (.guard op) (sendAll debugAssertions ryu dispatch
        (thread.emitted.drop t.thread.emitted.length) { t with thread })
  | log {t : TracedThread c} (record : Record) :
      Step dispatch t (.log record) (dispatch record t)

end Model

/-! ## What is promised -/

/-- The layer lets the record pass, and the record has something to capture. -/
def Captures (layer : WideLogCaptureLayer) (record : Record) : Prop :=
  record.target ≠ wideLogTarget ∧ layer.Passes record.level ∧
    ¬ (record.message = none ∧ record.others = [])

instance (layer : WideLogCaptureLayer) (record : Record) : Decidable (Captures layer record) :=
  inferInstanceAs (Decidable (_ ∧ _ ∧ _))

/-- What a layer makes of a record: a call that appends, if it captures the record. -/
def captured (record : Record) (layer : S × WideLogCaptureLayer) : Option (CrateOp c) :=
  if Captures layer.2 record then
    some (.call layer.1 (.append record.level (record.withMessage (trimEnd record.joined))))
  else none

/-- The record that is sent for a guard. -/
def Sends (ryu : F64 → String) (record : Record) (g : Σ s, GuardRun (c.program s)) : Prop :=
  ∃ text : String, record = ⟨wideLogTarget, .info, [("event", text)]⟩ ∧
    g.2.output ryu = some (utf8 text.toList)

end TracedThread

namespace TracedOp

variable {c : Crates S}

/-- The operation, as operations on guards: a record is an append for each layer that
captures it. -/
def onGuards (layers : List (S × WideLogCaptureLayer)) :
    TracedOp c → List (CrateOp c)
  | .guard op => [op]
  | .log record => layers.filterMap (TracedThread.captured record)

/-- The application leaves the reserved target alone. -/
def Unreserved : TracedOp c → Prop
  | .guard _ => True
  | .log record => record.target ≠ wideLogTarget

/-- The record that the application logs. -/
def logged : TracedOp c → List Record
  | .guard _ => []
  | .log record => [record]

end TracedOp

namespace TracedThread

variable {c : Crates S}

/-! ## A record in the capture layers -/

section Capture

variable {ryu : F64 → String} [DecidableEq S] {t : TracedThread c} {n : Nesting c} {s : S}

/-- No buffer of the thread is in use. -/
def Free (t : TracedThread c) : Prop :=
  ∀ s, (t.fieldsBuf s).borrowed = false ∧ (t.fmtBuf s).borrowed = false

theorem modify_eq_self {ptr : Nat} {f : c.Event s → c.Event s} {heap : c.Heap}
    (h : (heap s ptr).map f = heap s ptr) : CrateThread.modify s ptr f heap = heap := by
  rw [CrateThread.modify, h, CrateThread.write, Function.update_eq_self, Function.update_eq_self]

/-- A call that leaves the event as it is, if there is one. -/
theorem call_eq_self {f : c.Event s → c.Event s} (h : (t.currentEvent s).map f = t.currentEvent s) :
    t.thread.call s f = t.thread := by
  unfold currentEvent at h
  unfold CrateThread.call
  cases hptr : t.thread.current s with
  | none => rfl
  | some ptr =>
      rw [hptr, Option.bind_some] at h
      simp only [modify_eq_self h]

/-- A write of what a function makes of the event is a call of the function. -/
theorem call_const {ev : c.Event s} (h : t.currentEvent s = some ev) (f : c.Event s → c.Event s) :
    (t.thread.call s fun _ ↦ f ev) = t.thread.call s f := by
  unfold currentEvent at h
  unfold CrateThread.call
  cases hptr : t.thread.current s with
  | none => rfl
  | some ptr =>
      rw [hptr, Option.bind_some] at h
      simp only [CrateThread.modify, h, Option.map_some]

end Capture

end TracedThread

namespace WideLogCaptureLayer

variable {K : Type} (layer : WideLogCaptureLayer) (record : Record)

/-- A record that finds no event is dropped. -/
theorem current_onEvent_none (fieldsBuf fmtBuf : FormatBuf) :
    (layer.onEvent record (⟨none, fieldsBuf, fmtBuf⟩ : CaptureThread K)).current = none := by
  unfold onEvent
  split_ifs <;> rfl

/-- The buffers are given back. -/
theorem free_onEvent {t : CaptureThread K}
    (h : t.fieldsBuf.borrowed = false ∧ t.fmtBuf.borrowed = false) :
    (layer.onEvent record t).fieldsBuf.borrowed = false ∧
      (layer.onEvent record t).fmtBuf.borrowed = false := by
  obtain ⟨current, fieldsBuf, fmtBuf⟩ := t
  unfold onEvent
  cases current with
  | none => split_ifs <;> exact h
  | some ev =>
      dsimp only
      split_ifs
      any_goals exact h
      all_goals exact ⟨rfl, rfl⟩

end WideLogCaptureLayer

namespace TracedThread

variable {c : Crates S} {debugAssertions : Bool} {ryu : F64 → String}
  {layers : List (S × WideLogCaptureLayer)}

section Deliver

variable [DecidableEq S] {t : TracedThread c} {n : Nesting c} {record : Record}
  {layer : S × WideLogCaptureLayer}

theorem Free.capture (h : t.Free) (record : Record) (layer : S × WideLogCaptureLayer) :
    (t.capture record layer).Free := by
  intro s
  show (Function.update t.fieldsBuf layer.1 _ s).borrowed = false ∧
    (Function.update t.fmtBuf layer.1 _ s).borrowed = false
  by_cases hs : s = layer.1
  · subst hs
    rw [Function.update_self, Function.update_self]
    exact layer.2.free_onEvent record (h layer.1)
  · rw [Function.update_of_ne hs, Function.update_of_ne hs]
    exact h s

/-- A layer that captures a record does the call, and one that does not does nothing. -/
theorem thread_capture (h : t.Free) :
    (t.capture record layer).thread =
      if Captures layer.2 record then
        t.thread.call layer.1 fun ev ↦ ev.appendLogEntry record.level.asStr
          (record.withMessage (trimEnd record.joined))
      else t.thread := by
  obtain ⟨s, layer⟩ := layer
  obtain ⟨hfields, hfmt⟩ := h s
  show (layer.onEvent record ⟨t.currentEvent s, t.fieldsBuf s, t.fmtBuf s⟩).current.elim _ _ = _
  cases hcurrent : t.currentEvent s with
  | none =>
      rw [layer.current_onEvent_none]
      split_ifs
      · exact (call_eq_self (by rw [hcurrent]; rfl)).symm
      · rfl
  | some ev =>
      have hself : (t.thread.call s fun _ ↦ ev) = t.thread :=
        call_eq_self (by rw [hcurrent]; rfl)
      by_cases htarget : record.target = wideLogTarget
      · rw [if_neg fun h ↦ h.1 htarget, WideLogCaptureLayer.onEvent, if_pos htarget]
        exact hself
      by_cases hlevel : layer.Passes record.level
      · rw [layer.current_onEvent htarget hlevel rfl hfields hfmt]
        by_cases hnone : record.message = none ∧ record.others = []
        · rw [if_pos hnone, if_neg fun h ↦ h.2.2 hnone]
          exact hself
        · rw [if_neg hnone, if_pos ⟨htarget, hlevel, hnone⟩]
          exact call_const hcurrent _
      · rw [if_neg fun h ↦ hlevel h.2.1, WideLogCaptureLayer.onEvent, if_neg htarget,
          if_pos hlevel]
        exact hself

theorem simulates_capture (h : t.Free) (hs : t.thread.Simulates n) :
    (t.capture record layer).thread.Simulates ((captured record layer).elim n n.step) := by
  rw [thread_capture h]
  unfold captured
  by_cases hcaptures : Captures layer.2 record
  · rw [if_pos hcaptures, if_pos hcaptures]
    exact hs.call layer.1 (.append record.level _)
  · rw [if_neg hcaptures, if_neg hcaptures]
    exact hs

theorem emitted_capture (h : t.Free) :
    (t.capture record layer).thread.emitted = t.thread.emitted := by
  rw [thread_capture h]
  split_ifs
  · unfold CrateThread.call
    split <;> rfl
  · rfl

/-- A record on its way through the layers. -/
theorem foldl_capture (layers : List (S × WideLogCaptureLayer)) (record : Record) (h : t.Free)
    (hs : t.thread.Simulates n) :
    (layers.foldl (capture record) t).Free ∧
      (layers.foldl (capture record) t).thread.Simulates
        ((layers.filterMap (captured record)).foldl Nesting.step n) ∧
      (layers.foldl (capture record) t).thread.emitted = t.thread.emitted := by
  induction layers generalizing t n with
  | nil => exact ⟨h, hs, rfl⟩
  | cons layer layers ih =>
      obtain ⟨hfree, hsimulates, hemitted⟩ :=
        ih (h.capture record layer) (simulates_capture h hs)
      refine ⟨hfree, ?_, hemitted.trans (emitted_capture h)⟩
      cases hlayer : captured (c := c) record layer with
      | none =>
          rw [hlayer] at hsimulates
          rw [List.filterMap_cons_none hlayer]
          exact hsimulates
      | some op =>
          rw [hlayer] at hsimulates
          rw [List.filterMap_cons_some hlayer]
          exact hsimulates

omit [DecidableEq S] in
/-- No layer captures what is sent to the reserved target. -/
theorem filterMap_captured (layers : List (S × WideLogCaptureLayer))
    (h : record.target = wideLogTarget) :
    layers.filterMap (captured (c := c) record) = [] := by
  rw [List.filterMap_eq_nil_iff]
  exact fun layer _ ↦ if_neg fun hcaptures ↦ hcaptures.1 h

/-- Every record that is logged is given to the layers: the capture layers enable it. -/
theorem Dispatches.eq_deliver {dispatch : Dispatch c} (h : Dispatches layers dispatch)
    (record : Record) (t : TracedThread c) : dispatch record t = deliver layers record t :=
  h.enabled fun _ _ ↦ rfl

end Deliver

/-! ## What a guard sends -/

/-- The record that is sent for an event. -/
def sentRecord {K : Type} [Key K] (ryu : F64 → String) (ev : WideEvent K) : Record :=
  ⟨wideLogTarget, .info, [("event", .ofList (ev.text ryu))]⟩

theorem trimEndMatches_concat {ch : Char} {s : List Char} (h : ch ∉ s) :
    trimEndMatches ch (s ++ [ch]) = s := by
  rw [trimEndMatches, List.rdropWhile_concat_pos _ _ _ (by simp), List.rdropWhile_eq_self_iff]
  intro hne hlast
  exact h (of_decide_eq_true hlast ▸ List.getLast_mem hne)

/-- An emission sends the text of the event, without the end of the line. -/
theorem emission_eq {K : Type} [Key K] (hryu : PrintsFloats ryu) (ev : WideEvent K) :
    emission debugAssertions ryu ev = some (sentRecord ryu ev) := by
  have hbuf : utf8 (ev.text ryu) ++ bytes "\n" = utf8 (ev.text ryu ++ ['\n']) := by
    rw [utf8_append]
    rfl
  have hsafe : '\n' ∉ ev.text ryu := fun h ↦ absurd (lineSafe_event hryu ev _ h) (by decide)
  simp only [emission, serializeTo_vecWriter, hbuf, utf8Decode_utf8, Option.isNone_some,
    Bool.and_false, Bool.false_eq_true, if_false, Option.map_some, trimEndMatches_concat hsafe,
    sentRecord]

/-- What is sent for an event is the line of its guard. -/
theorem sends_of_emits {e : Σ s, c.Event s} {g : Σ s, GuardRun (c.program s)}
    (h : CrateThread.Emits e g) : Sends ryu (sentRecord ryu e.2) g := by
  obtain ⟨s, run⟩ := g
  unfold CrateThread.Emits at h
  cases hevent : run.event with
  | panic ev => rw [hevent] at h; cases h
  | ret ev =>
      rw [hevent] at h
      cases h
      refine ⟨.ofList (ev.text ryu), rfl, ?_⟩
      simp only [GuardRun.output, hevent, serializeTo_vecWriter, Except.toOption,
        String.toList_ofList]

/-! ## Runs -/

variable [DecidableEq S] {t t' : TracedThread c} {op : TracedOp c} {ops : List (TracedOp c)}
  {tr : List (TracedThread c × TracedOp c)} {dispatch : Dispatch c}

/-- The thread holds what it was asked for, and sent what it finished. -/
structure Follows (ryu : F64 → String) (layers : List (S × WideLogCaptureLayer))
    (ops : List (TracedOp c)) (t : TracedThread c) : Prop where
  free : t.Free
  simulates : t.thread.Simulates (Nesting.after (ops.flatMap (TracedOp.onGuards layers)))
  sent : t.shown.filter (·.target = wideLogTarget) =
    t.thread.emitted.map fun e ↦ sentRecord ryu e.2
  logged : t.shown.filter (·.target ≠ wideLogTarget) = ops.flatMap TracedOp.logged

theorem after_concat (ops : List (TracedOp c)) (op : TracedOp c) :
    Nesting.after ((ops ++ [op]).flatMap (TracedOp.onGuards layers)) =
      (op.onGuards layers).foldl Nesting.step
        (Nesting.after (ops.flatMap (TracedOp.onGuards layers))) := by
  rw [Nesting.after, Nesting.after, List.flatMap_append, List.flatMap_singleton, List.foldl_append]

theorem Follows.step (hryu : PrintsFloats ryu) (hdispatch : Dispatches layers dispatch)
    (h : Step debugAssertions ryu dispatch t op t')
    (hop : op.Unreserved) (ht : t.Follows ryu layers ops) :
    t'.Follows ryu layers (ops ++ [op]) := by
  cases h with
  | log record =>
      obtain ⟨hfree, hsimulates, hemitted⟩ := foldl_capture layers record ht.free ht.simulates
      rw [hdispatch.eq_deliver]
      refine ⟨hfree, ?_, ?_, ?_⟩
      · rw [after_concat]
        exact hsimulates
      · show (_ ++ [record]).filter _ = List.map _ (layers.foldl (capture record) t).thread.emitted
        rw [hemitted, List.filter_append, ht.sent]
        simp [show record.target ≠ wideLogTarget from hop]
      · show (_ ++ [record]).filter _ = _
        rw [List.filter_append, ht.logged, List.flatMap_append]
        simp [show record.target ≠ wideLogTarget from hop, TracedOp.logged]
  | @guard op thread hlog hstep =>
      obtain ⟨e, he⟩ := hstep.exists_emitted
      have hsimulates := ht.simulates.step hstep
      rw [he, List.drop_left]
      cases e with
      | none =>
          refine ⟨ht.free, ?_, ?_, ?_⟩
          · rw [after_concat]
            exact hsimulates
          · show t.shown.filter _ = thread.emitted.map _
            rw [he, ht.sent, Option.toList_none, List.append_nil]
          · rw [List.flatMap_append, ← ht.logged]
            exact (List.append_nil _).symm
      | some e =>
          let t₁ : TracedThread c := { t with thread }
          have hsend : sendAll debugAssertions ryu dispatch [e] t₁ =
              deliver layers (sentRecord ryu e.2) t₁ := by
            simp only [sendAll, List.filterMap_cons, emission_eq hryu, List.filterMap_nil,
              List.foldl_cons, List.foldl_nil, hdispatch.eq_deliver]
          obtain ⟨hfree, hsimulates, hemitted⟩ :=
            foldl_capture (t := t₁) layers (sentRecord ryu e.2) ht.free hsimulates
          rw [filterMap_captured layers rfl] at hsimulates
          show (sendAll debugAssertions ryu dispatch [e] t₁).Follows ryu layers _
          rw [hsend]
          refine ⟨hfree, ?_, ?_, ?_⟩
          · rw [after_concat]
            exact hsimulates
          · show (_ ++ [_]).filter _ = List.map _ (layers.foldl _ t₁).thread.emitted
            rw [hemitted, List.filter_append]
            show t.shown.filter _ ++ _ = thread.emitted.map _
            rw [ht.sent, he, List.map_append]
            rfl
          · show (_ ++ [_]).filter _ = _
            rw [List.filter_append, List.flatMap_append, ← ht.logged]
            rfl

/-- What is promised of a run with these layers: a live event holds what reached it; one
record was sent for each guard that was dropped, with the line of the guard, and holds the
records that were captured while it was the innermost guard of its crate; and the other
layers were shown all that was logged. -/
structure Traced (ryu : F64 → String) (layers : List (S × WideLogCaptureLayer))
    (tr : List (TracedThread c × TracedOp c)) (t : TracedThread c) : Prop where
  live : List.Forall₂ (CrateThread.Tracks t.thread.heap) t.thread.guards
    (Nesting.after (tr.flatMap fun x ↦ x.2.onGuards layers)).live
  sent : List.Forall₂ (Sends ryu) (t.shown.filter (·.target = wideLogTarget))
    (Nesting.after (tr.flatMap fun x ↦ x.2.onGuards layers)).emitted
  logged : t.shown.filter (·.target ≠ wideLogTarget) = tr.flatMap fun x ↦ x.2.logged

/-- **Nothing that is emitted is captured again**, and every record that is logged is
captured once by each layer that lets it pass, in the innermost guard of the crate of the
layer: in every run in which guards are dropped in the reverse order of their building, and
the application leaves the reserved target alone. -/
theorem traced_run (hryu : PrintsFloats ryu) (hdispatch : Dispatches layers dispatch)
    (h : Run (Step debugAssertions ryu dispatch) (new : TracedThread c) tr t)
    (hop : ∀ x ∈ tr, x.2.Unreserved) : Traced ryu layers tr t := by
  have hnew : (new : TracedThread c).Follows ryu layers [] :=
    ⟨fun _ ↦ ⟨rfl, rfl⟩, CrateThread.simulates_new, rfl, rfl⟩
  obtain ⟨-, hsimulates, hsent, hlogged⟩ := h.history (I := Follows ryu layers)
    (C := fun _ op ↦ op.Unreserved) (fun op ↦ [op])
    (fun ha hC hs ↦ hs.step hryu hdispatch ha hC) hnew hop
  rw [List.nil_append, List.flatMap_assoc] at hsimulates hlogged
  simp only [List.flatMap_singleton] at hsimulates hlogged
  refine ⟨hsimulates.live, ?_, hlogged⟩
  rw [hsent, List.forall₂_map_left_iff]
  exact hsimulates.emitted.imp fun _ _ ↦ sends_of_emits

/-- One guard, a record while it lives, and its drop. -/
theorem traced_run_drop : ∃ (c : Crates Unit) (tr : List (TracedThread c × TracedOp c))
    (t : TracedThread c), Traced sampleRyu [((), ⟨some .info⟩)] tr t ∧
      (t.shown.filter (·.target = wideLogTarget)).length = 1 ∧
      (t.shown.filter (·.target ≠ wideLogTarget)).length = 1 := by
  obtain ⟨a, -⟩ := exists_statusSchema
  let c : Crates Unit := ⟨asciiToolchain, fun _ ↦ statusSchema, fun _ ↦ a, fun _ ↦ .release⟩
  let start : Start a.program := ⟨none, "id", nofun⟩
  let record : Record := ⟨"app", .info, [("message", "done")]⟩
  obtain ⟨ev, hbuild, -⟩ := a.build_ret .release "id"
  let layers : List (Unit × WideLogCaptureLayer) := [((), ⟨some .info⟩)]
  let dispatch : Dispatch c := fun record t ↦
    if ∀ layer ∈ layers, layer.2.enabled record then deliver layers record t else t
  have hdispatch : Dispatches layers dispatch :=
    ⟨fun h ↦ if_pos h, fun ⟨layer, hlayer, h⟩ ↦ if_neg fun hall ↦ h (hall layer hlayer)⟩
  let t₁ : TracedThread c := { (new : TracedThread c) with thread := CrateThread.new.build () ev }
  let t₂ : TracedThread c := dispatch record t₁
  have hnew : (new : TracedThread c).Follows sampleRyu layers [] :=
    ⟨fun _ ↦ ⟨rfl, rfl⟩, CrateThread.simulates_new, rfl, rfl⟩
  have hbuilt : Step true sampleRyu dispatch new (.guard (.build () start)) t₁ :=
    .guard (by nofun) (.build hbuild)
  have hlogged : Step true sampleRyu dispatch t₁ (.log record) t₂ := .log record
  have hfollows := (hnew.step printsFloats_sampleRyu hdispatch hbuilt trivial).step
    printsFloats_sampleRyu hdispatch hlogged (show "app" ≠ "wide_log" by decide)
  obtain ⟨g, hg⟩ := List.length_eq_one_iff.mp (hfollows.simulates.live.length_eq.trans rfl)
  have hrun : Run (Step true sampleRyu dispatch) new
      [(new, .guard (.build () start)), (t₁, .log record), (t₂, .guard (.drop (fun _ ↦ ⟨0⟩) "now"))]
      _ :=
    .cons hbuilt (.cons hlogged (.cons (.guard (by nofun)
      (.drop _ _ hg (WideLogGuard.drop_eq true g.toWideLogGuard _))) (.nil _)))
  have htraced := traced_run printsFloats_sampleRyu hdispatch hrun (by
    simp [TracedOp.Unreserved, record, wideLogTarget])
  refine ⟨c, _, _, htraced, htraced.sent.length_eq, ?_⟩
  rw [htraced.logged]
  rfl

end TracedThread

end WideLog
