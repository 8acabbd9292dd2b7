import WideLog.Serialize.Line

/-!
# Emission

The `default_emit` of a schema compiled without tracing, and the writer thread it
feeds.  Emission serializes into the cleared thread-local buffer, terminates the
line and submits it to a channel; the writer thread takes lines off the channel
and writes them.  Flushing moves bytes from the writer's buffer to the terminal
without reordering them, so the two count as written together, and a bounded
channel only makes an emission wait for turns of the writer.
-/

namespace WideLog

/-- The channel to the writer thread, and what that thread has written. -/
structure Stdout where
  queue : List (List UInt8)
  written : List UInt8

namespace Stdout

/-- `stdout_emit::submit`. -/
def submit (bytes : List UInt8) (out : Stdout) : Stdout :=
  { out with queue := out.queue ++ [bytes] }

/-- One turn of `writer_loop`: write the next line, if there is one. -/
def writerTurn (out : Stdout) : Stdout :=
  match out.queue with
  | [] => out
  | line :: queue => ⟨queue, out.written ++ line⟩

/-- The concatenated output: what is written, and what will be. -/
def output (out : Stdout) : List UInt8 := out.written ++ out.queue.flatten

@[simp] theorem output_submit (bytes : List UInt8) (out : Stdout) :
    (out.submit bytes).output = out.output ++ bytes := by
  simp [output, submit]

@[simp] theorem output_writerTurn (out : Stdout) : out.writerTurn.output = out.output := by
  obtain ⟨queue, written⟩ := out
  cases queue with
  | nil => rfl
  | cons line queue => simp [output, writerTurn]

end Stdout

variable {K : Type} [Key K]

/-- `default_emit`.  With debug assertions it checks that the line is UTF-8. -/
def defaultEmit (debugAssertions : Bool) (ryu : F64 → String) (ev : WideEvent K)
    (out : Stdout) : Outcome Stdout :=
  match serializeTo vecWriter ryu ev [] with
  | .ok buf =>
    let buf := buf ++ bytes "\n"
    if debugAssertions && (utf8Decode buf).isNone then .panic out else .ret (out.submit buf)
  | .error _ => .ret out

/-- A step of the emitting thread or of the writer thread. -/
inductive EmitStep (K : Type) where
  | emit (ev : WideEvent K)
  | writer

/-- The events emitted in a sequence of steps. -/
def emitted : List (EmitStep K) → List (WideEvent K)
  | [] => []
  | .emit ev :: steps => ev :: emitted steps
  | .writer :: steps => emitted steps

section Run

variable (debugAssertions : Bool) (ryu : F64 → String)

/-- What one step does. -/
def EmitStep.run : EmitStep K → Stdout → Outcome Stdout
  | .emit ev => defaultEmit debugAssertions ryu ev
  | .writer => fun out ↦ .ret out.writerTurn

/-- A run of the two threads, in any interleaving. -/
def runEmit : List (EmitStep K) → Stdout → Outcome Stdout
  | [], out => .ret out
  | step :: steps, out => (step.run debugAssertions ryu out).bind (runEmit steps)

/-- The line of an event. -/
def line (ev : WideEvent K) : List UInt8 := utf8 (ev.text ryu) ++ bytes "\n"

/-- An emission submits the line of its event, and the assertion holds. -/
theorem defaultEmit_eq (ev : WideEvent K) (out : Stdout) :
    defaultEmit debugAssertions ryu ev out = .ret (out.submit (line ryu ev)) := by
  have hline : line ryu ev = utf8 (ev.text ryu ++ ['\n']) := by
    rw [line, utf8_append]
    rfl
  have hutf8 : (utf8Decode (line ryu ev)).isNone = false := by
    rw [hline, utf8Decode_utf8]
    rfl
  simp only [defaultEmit, serializeTo_vecWriter]
  rw [← line, hutf8, Bool.and_false]
  rfl

/-- A step appends the line it emits, if it emits one. -/
theorem EmitStep.run_eq (step : EmitStep K) (out : Stdout) :
    ∃ out', step.run debugAssertions ryu out = .ret out' ∧
      out'.output = out.output ++ (emitted [step]).flatMap (line ryu) := by
  cases step with
  | emit ev =>
      refine ⟨_, defaultEmit_eq debugAssertions ryu ev out, ?_⟩
      simp [emitted]
  | writer => exact ⟨_, rfl, by simp [emitted]⟩

omit [Key K] in
theorem emitted_cons (step : EmitStep K) (steps : List (EmitStep K)) :
    emitted (step :: steps) = emitted [step] ++ emitted steps := by
  cases step <;> rfl

/-- A run appends the lines of the emitted events, in order. -/
theorem runEmit_eq (steps : List (EmitStep K)) (out : Stdout) :
    ∃ out', runEmit debugAssertions ryu steps out = .ret out' ∧
      out'.output = out.output ++ (emitted steps).flatMap (line ryu) := by
  induction steps generalizing out with
  | nil => exact ⟨out, rfl, by simp [emitted]⟩
  | cons step steps ih =>
      obtain ⟨out₁, h₁, ho₁⟩ := step.run_eq debugAssertions ryu out
      obtain ⟨out₂, h₂, ho₂⟩ := ih out₁
      refine ⟨out₂, ?_, ?_⟩
      · rw [runEmit, h₁, Outcome.bind_ret, h₂]
      · rw [ho₂, ho₁, emitted_cons step steps, List.flatMap_append, List.append_assoc]

end Run

/-- Lines that contain no line end are found again by splitting at the line ends. -/
theorem splitOn_lines {α : Type*} [BEq α] [LawfulBEq α] {a : α} {l : List (List α)}
    (h : ∀ t ∈ l, a ∉ t) : (l.flatMap (· ++ [a])).splitOn a = l ++ [[]] := by
  induction l with
  | nil => rfl
  | cons t l ih =>
      rw [List.flatMap_cons, List.append_assoc, List.singleton_append,
        List.splitOn_append_cons_self_of_not_mem (h t (by simp)),
        ih fun u hu ↦ h u (List.mem_cons_of_mem _ hu)]
      rfl

variable {ryu : F64 → String}

/-- The text of an event has no line end, and is not empty. -/
theorem line_safe (hryu : PrintsFloats ryu) (ev : WideEvent K) :
    (0x0A : UInt8) ∉ utf8 (ev.text ryu) ∧ utf8 (ev.text ryu) ≠ [] := by
  have hsafe := lineSafeBytes_utf8 (lineSafe_event hryu ev)
  constructor
  · intro h
    exact hsafe.1 _ h (by decide)
  · cases ev
    simp [WideEvent.text, objectText, utf8_cons]

/-- **One event is one line.**  Whatever the event, the bytes of `serialize_to` end no
line; and whatever the interleaving of emissions with the writer thread, splitting
the output at the line ends gives the serializations of the emitted events, in
order. -/
theorem one_event_one_line (hryu : PrintsFloats ryu) :
    (∀ (ev : WideEvent K) {W : Type} {wr : Writer W} {written : W → List UInt8},
      wr.NonFailing written → ∀ w, ∃ w' bs, serializeTo wr ryu ev w = .ok w' ∧
        written w' = written w ++ bs ∧ LineSafeBytes bs) ∧
    ∀ (debugAssertions : Bool) (steps : List (EmitStep K)), ∃ out lines,
      runEmit debugAssertions ryu steps ⟨[], []⟩ = .ret out ∧
      (out.output.splitOn 0x0A).filter (· ≠ []) = lines ∧
      List.Forall₂ (fun ev bs ↦ serializeTo vecWriter ryu ev [] = .ok bs) (emitted steps)
        lines := by
  constructor
  · intro ev W wr written hwr w
    obtain ⟨w', hok, hw⟩ := writes_event hwr ryu ev w
    refine ⟨w', _, ?_, hw, lineSafeBytes_utf8 (lineSafe_event hryu ev)⟩
    simp only [serializeTo, hok]
  · intro debugAssertions steps
    obtain ⟨out, hrun, hout⟩ := runEmit_eq debugAssertions ryu steps ⟨[], []⟩
    have hlines : out.output =
        ((emitted steps).map fun ev ↦ utf8 (ev.text ryu)).flatMap (· ++ [0x0A]) := by
      rw [hout, List.flatMap_map]
      rfl
    have hsafe : ∀ t ∈ (emitted steps).map (fun ev ↦ utf8 (ev.text ryu)), 0x0A ∉ t := by
      intro t ht
      obtain ⟨ev, -, rfl⟩ := List.mem_map.mp ht
      exact (line_safe hryu ev).1
    have hsplit := splitOn_lines hsafe
    refine ⟨out, (emitted steps).map fun ev ↦ utf8 (ev.text ryu), hrun, ?_, ?_⟩
    · rw [hlines, hsplit, List.filter_append, List.filter_eq_self.mpr]
      · simp
      · intro l hl
        obtain ⟨ev, -, rfl⟩ := List.mem_map.mp hl
        simpa using (line_safe hryu ev).2
    · rw [List.forall₂_map_right_iff]
      exact List.forall₂_same.mpr fun ev _ ↦ serializeTo_vecWriter ryu ev

theorem one_event_one_line_sample :
    (∀ (ev : WideEvent TestKey) {W : Type} {wr : Writer W} {written : W → List UInt8},
      wr.NonFailing written → ∀ w, ∃ w' bs, serializeTo wr sampleRyu ev w = .ok w' ∧
        written w' = written w ++ bs ∧ LineSafeBytes bs) ∧
    ∀ (debugAssertions : Bool) (steps : List (EmitStep TestKey)), ∃ out lines,
      runEmit debugAssertions sampleRyu steps ⟨[], []⟩ = .ret out ∧
      (out.output.splitOn 0x0A).filter (· ≠ []) = lines ∧
      List.Forall₂ (fun ev bs ↦ serializeTo vecWriter sampleRyu ev [] = .ok bs) (emitted steps)
        lines :=
  one_event_one_line printsFloats_sampleRyu

end WideLog
