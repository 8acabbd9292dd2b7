import Mathlib.Logic.Function.Iterate
import WideLog.Stdout.Batch

/-!
# How long a line waits

`writer_loop` on a clock, with lines that arrive at given times and nothing else that
takes time.  The timer of `recv_timeout` starts anew with every line, so a batch can be
older than the policy allows when it wakes the loop.  A line that does not fit into the
`BufWriter` pushes out those that it holds.
-/

namespace WideLog.StdoutEmit

/-- The lines that arrive, and when, counted from the start of the loop. -/
abbrev Arrivals : Type := ℕ → Option (Nat × List UInt8)

/-- No line arrives before the one ahead of it. -/
def Arrivals.Ordered (arrivals : Arrivals) : Prop :=
  ∀ i j x y, i ≤ j → arrivals i = some x → arrivals j = some y → x.1 ≤ y.1

/-- The interval that `writer_loop` sleeps at most: 100 ms without one in the policy. -/
def FlushPolicy.wakeup (policy : FlushPolicy) : Nat :=
  if 0 < policy.maxInterval then policy.maxInterval else 100000000

/-- Writes succeed, and the clock reads the same time twice. -/
def Surroundings.at (time : Nat) : Surroundings := ⟨none, none, time, time⟩

/-- The loop at the head of an iteration: the time, the number of lines that have come, a
ledger of when those of the batch came, and the buffer with the time at which each byte
came in the place of the byte. -/
structure TimedLoop where
  now : Nat
  next : ℕ
  ledger : Ledger Nat
  times : BufWriter Nat

namespace TimedLoop

def start (policy : FlushPolicy) : TimedLoop := ⟨0, 0, .start policy 0, .new⟩

variable (arrivals : Arrivals) (s : TimedLoop)

/-- When `recv_timeout(wakeup)` gives up. -/
def deadline : Nat := s.now + s.ledger.writer.policy.wakeup

/-- The time at which `recv_timeout(wakeup)` returns, and the line it returns. -/
def recv : Nat × Option (List UInt8) :=
  match arrivals s.next with
  | some (time, bytes) => if time ≤ s.deadline then (time, some bytes) else (s.deadline, none)
  | none => (s.deadline, none)

/-- An iteration. -/
def step : TimedLoop :=
  match s.recv arrivals with
  | (time, some bytes) =>
    let times := s.times.write (List.replicate bytes.length time)
    { now := time
      next := s.next + 1
      ledger := s.ledger.turn (.at time) (.line bytes) [time]
      times := if (Received.line bytes).Flushes (.at time) s.ledger.writer then times.flush none
        else times }
  | (time, none) =>
    { now := time
      next := s.next
      ledger := s.ledger.turn (.at time) .timeout []
      times := if Received.timeout.Flushes (.at time) s.ledger.writer then s.times.flush none
        else s.times }

/-- No byte in the buffer is older than the interval of the policy while `recv_timeout`
waits. -/
def Durable : Prop :=
  ∀ o ∈ s.times.held, ∀ time, s.now ≤ time → time ≤ (s.step arrivals).now →
    time ≤ o + s.ledger.writer.policy.maxInterval

/-- A line that meets no threshold, and for which there is room behind an older one in the
buffer, is followed by another before the older one has waited for the interval of the
policy. -/
def Followed : Prop :=
  ∀ time bytes, s.recv arrivals = (time, some bytes) →
    ¬ (s.ledger.writer.received bytes).Due (.at time) →
    bytes.length ≤ s.ledger.writer.buf.spareCapacity → ∀ o ∈ s.times.held, o < time →
      ∃ x, arrivals (s.next + 1) = some x ∧ x.1 ≤ o + s.ledger.writer.policy.maxInterval

variable {arrivals s}

/-! ## What an iteration does -/

/-- A line comes in time, or the timer does. -/
theorem recv_cases (arrivals : Arrivals) (s : TimedLoop) :
    (∃ time bytes, arrivals s.next = some (time, bytes) ∧ time ≤ s.deadline ∧
      s.recv arrivals = (time, some bytes)) ∨
    (∀ x, arrivals s.next = some x → s.deadline < x.1) ∧ s.recv arrivals = (s.deadline, none) := by
  unfold recv
  cases harrival : arrivals s.next with
  | none => exact .inr ⟨nofun, rfl⟩
  | some x =>
      obtain ⟨time, bytes⟩ := x
      by_cases htime : time ≤ s.deadline
      · exact .inl ⟨time, bytes, rfl, htime, if_pos htime⟩
      · refine .inr ⟨?_, if_neg htime⟩
        rintro x ⟨⟩
        exact Nat.lt_of_not_le htime

theorem arrival_of_recv {time : Nat} {bytes : List UInt8}
    (h : s.recv arrivals = (time, some bytes)) : arrivals s.next = some (time, bytes) := by
  rcases recv_cases arrivals s with ⟨time', bytes', harrival, -, h'⟩ | ⟨-, h'⟩
  · cases h.symm.trans h'
    exact harrival
  · cases h.symm.trans h'

theorem step_line {time : Nat} {bytes : List UInt8} (h : s.recv arrivals = (time, some bytes)) :
    s.step arrivals =
      if (s.ledger.writer.received bytes).Due (.at time) then
        ⟨time, s.next + 1, ⟨(s.ledger.writer.received bytes).flush (.at time), []⟩,
          (s.times.write (List.replicate bytes.length time)).flush none⟩
      else ⟨time, s.next + 1, ⟨s.ledger.writer.received bytes, s.ledger.entries ++ [time]⟩,
        s.times.write (List.replicate bytes.length time)⟩ := by
  have hflushes : (Received.line bytes).Flushes (.at time) s.ledger.writer ↔
      (s.ledger.writer.received bytes).Due (.at time) := Iff.rfl
  rw [step, h]
  dsimp only
  rw [Ledger.turn_line ⟨rfl, rfl⟩]
  simp only [hflushes]
  split_ifs <;> rfl

theorem step_timeout {time : Nat} (h : s.recv arrivals = (time, none)) :
    s.step arrivals =
      if 0 < s.ledger.writer.batchLines ∧ s.ledger.writer.Aged (.at time) then
        ⟨time, s.next, ⟨s.ledger.writer.flush (.at time), []⟩, s.times.flush none⟩
      else ⟨time, s.next, s.ledger, s.times⟩ := by
  have hflushes : Received.timeout.Flushes (.at time) s.ledger.writer ↔
      0 < s.ledger.writer.batchLines ∧ s.ledger.writer.Aged (.at time) := Iff.rfl
  rw [step, h]
  dsimp only
  rw [Ledger.turn_timeout]
  simp only [hflushes]
  split_ifs <;> rfl

theorem now_step : (s.step arrivals).now = (s.recv arrivals).1 := by
  rcases recv_cases arrivals s with ⟨time, bytes, -, -, h⟩ | ⟨-, h⟩
  · rw [step_line h, h]
    split_ifs <;> rfl
  · rw [step_timeout h, h]
    split_ifs <;> rfl

/-- An iteration ends by some time if the timer or a line comes by then. -/
theorem now_step_le_iff {time : Nat} :
    (s.step arrivals).now ≤ time ↔
      s.deadline ≤ time ∨ ∃ x, arrivals s.next = some x ∧ x.1 ≤ time := by
  rw [now_step]
  rcases recv_cases arrivals s with ⟨time', bytes, harrival, hle, h⟩ | ⟨hlate, h⟩
  · rw [h]
    constructor
    · intro htime
      exact .inr ⟨_, harrival, htime⟩
    · rintro (htime | ⟨x, hx, htime⟩)
      · exact Nat.le_trans hle htime
      · cases harrival.symm.trans hx
        exact htime
  · rw [h]
    constructor
    · exact .inl
    · rintro (htime | ⟨x, hx, htime⟩)
      · exact htime
      · exact Nat.le_trans (Nat.le_of_lt (hlate x hx)) htime

/-! ## The clock -/

/-- The clock is behind the next line and not behind those of the batch, which came after it
was begun; a batch with lines is younger than the interval; and the bytes in the buffer are
of these lines. -/
structure Clocked (policy : FlushPolicy) (arrivals : Arrivals) (s : TimedLoop) : Prop where
  counted : s.ledger.LinesCounted policy
  next : ∀ x, arrivals s.next = some x → s.now ≤ x.1
  started : s.ledger.writer.batchStarted ≤ s.now
  entries : ∀ o ∈ s.ledger.entries, s.ledger.writer.batchStarted ≤ o ∧ o ≤ s.now
  young : s.ledger.entries ≠ [] → s.now < s.ledger.writer.batchStarted + policy.maxInterval
  held : ∀ o ∈ s.times.held, o ∈ s.ledger.entries
  length : s.times.held.length = s.ledger.writer.buf.held.length

variable {policy : FlushPolicy}

theorem clocked_start (policy : FlushPolicy) (arrivals : Arrivals) :
    (start policy).Clocked policy arrivals where
  counted := Ledger.linesCounted_empty (w := .start policy 0) rfl
  next _ _ := Nat.zero_le _
  started := Nat.zero_le _
  entries := nofun
  young h := absurd rfl h
  held := nofun
  length := rfl

theorem Clocked.deadline_eq (hpos : 0 < policy.maxInterval) (hs : s.Clocked policy arrivals) :
    s.deadline = s.now + policy.maxInterval := by
  rw [deadline, FlushPolicy.wakeup, hs.counted.policy_eq, if_pos hpos]

/-- The timer finds the batch old enough. -/
theorem Clocked.entries_of_timeout (hpos : 0 < policy.maxInterval) (hs : s.Clocked policy arrivals)
    (h : s.recv arrivals = (s.deadline, none)) : (s.step arrivals).ledger.entries = [] := by
  rw [step_timeout h]
  split_ifs with hflush
  · rfl
  · by_contra hne
    have hlines := hs.counted.lines
    have hlength : 0 < s.ledger.entries.length := List.length_pos_iff.mpr hne
    refine hflush ⟨?_, ?_, ?_⟩
    · rw [UInt64.lt_iff_toNat_lt, hlines]
      exact hlength
    · rw [hs.counted.policy_eq]
      exact hpos
    · have hstarted := hs.started
      show s.ledger.writer.policy.maxInterval ≤ s.deadline - s.ledger.writer.batchStarted
      rw [hs.counted.policy_eq, hs.deadline_eq hpos]
      omega

theorem Clocked.le_now_step (hs : s.Clocked policy arrivals) : s.now ≤ (s.step arrivals).now := by
  rw [now_step]
  rcases recv_cases arrivals s with ⟨time, bytes, harrival, -, h⟩ | ⟨-, h⟩
  · rw [h]
    exact hs.next _ harrival
  · rw [h]
    exact Nat.le_add_right _ _

/-- A line that meets no threshold finds the batch younger than the interval. -/
theorem Clocked.young_of_not_due (hpos : 0 < policy.maxInterval) (hs : s.Clocked policy arrivals)
    {time : Nat} {bytes : List UInt8}
    (hdue : ¬ (s.ledger.writer.received bytes).Due (.at time)) :
    time < s.ledger.writer.batchStarted + policy.maxInterval := by
  obtain rfl := hs.counted.policy_eq
  have hyoung : ¬ s.ledger.writer.policy.maxInterval ≤ time - s.ledger.writer.batchStarted :=
    fun h ↦ hdue (.inr (.inr ⟨hpos, h⟩))
  omega

/-- Right after a flush the buffer is empty. -/
theorem clocked_flushed {w : Writer} {time : Nat} (hlines : w.batchLines = 0)
    (hstarted : w.batchStarted = time) (hheld : w.buf.held = []) {next : ℕ}
    (hnext : ∀ x, arrivals next = some x → time ≤ x.1) (times : BufWriter Nat) :
    (⟨time, next, ⟨w, []⟩, times.flush none⟩ : TimedLoop).Clocked w.policy arrivals where
  counted := Ledger.linesCounted_empty hlines
  next := hnext
  started := Nat.le_of_eq hstarted
  entries := nofun
  young h := absurd rfl h
  held := nofun
  length := by rw [hheld]; rfl

/-- The clock goes on. -/
theorem Clocked.step (hpos : 0 < policy.maxInterval) (hord : arrivals.Ordered)
    (hs : s.Clocked policy arrivals) : (s.step arrivals).Clocked policy arrivals := by
  obtain rfl := hs.counted.policy_eq
  have hle := hs.le_now_step
  rw [now_step] at hle
  rcases recv_cases arrivals s with
    ⟨time, bytes, harrival, -, h⟩ | ⟨hlate, h⟩
  · have hnext : ∀ x, arrivals (s.next + 1) = some x → time ≤ x.1 := fun x hx ↦
      hord _ _ _ x (Nat.le_succ _) harrival hx
    rw [h] at hle
    rw [step_line h]
    split_ifs with hdue
    · exact clocked_flushed (w := (s.ledger.writer.received bytes).flush (.at time)) rfl rfl rfl
        hnext _
    · refine ⟨Ledger.linesCounted_received hs.counted hdue time, hnext,
        Nat.le_trans hs.started hle, ?_, ?_, ?_, ?_⟩
      · intro o ho
        rcases List.mem_append.mp ho with ho | ho
        · exact ⟨(hs.entries o ho).1, Nat.le_trans (hs.entries o ho).2 hle⟩
        · rw [List.mem_singleton.mp ho]
          exact ⟨Nat.le_trans hs.started hle, Nat.le_refl time⟩
      · exact fun _ ↦ hs.young_of_not_due hpos hdue
      · intro o ho
        rcases BufWriter.mem_held_write ho with ho | ⟨ho, -⟩
        · exact List.mem_append_right _ (List.mem_singleton.mpr (List.eq_of_mem_replicate ho))
        · exact List.mem_append_left _ (hs.held o ho)
      · exact BufWriter.length_held_write hs.length List.length_replicate
  · have hnil := hs.entries_of_timeout hpos h
    rw [h] at hle
    rw [step_timeout h] at hnil ⊢
    split_ifs at hnil ⊢ with hflush
    · exact clocked_flushed (w := s.ledger.writer.flush (.at s.deadline)) rfl rfl rfl
        (fun x hx ↦ Nat.le_of_lt (hlate x hx)) _
    · refine ⟨hs.counted, fun x hx ↦ Nat.le_of_lt (hlate x hx), Nat.le_trans hs.started hle, ?_,
        fun h ↦ absurd hnil h, hs.held, hs.length⟩
      intro o ho
      rw [show s.ledger.entries = [] from hnil] at ho
      cases ho

theorem clocked_iterate (hpos : 0 < policy.maxInterval) (hord : arrivals.Ordered) (n : ℕ) :
    ((TimedLoop.step arrivals)^[n] (start policy)).Clocked policy arrivals := by
  induction n with
  | zero => exact clocked_start policy arrivals
  | succ n ih =>
      rw [Function.iterate_succ_apply']
      exact ih.step hpos hord

/-! ## The window -/

theorem Clocked.spareCapacity_eq (hs : s.Clocked policy arrivals) :
    s.times.spareCapacity = s.ledger.writer.buf.spareCapacity :=
  congrArg (BufWriter.capacity - ·) hs.length

theorem Clocked.durable_iff_now (hs : s.Clocked policy arrivals) :
    s.Durable arrivals ↔
      ∀ o ∈ s.times.held, (s.step arrivals).now ≤ o + policy.maxInterval := by
  unfold Durable
  rw [hs.counted.policy_eq]
  refine forall₂_congr fun o _ ↦ ?_
  constructor
  · intro h
    exact h _ hs.le_now_step (Nat.le_refl _)
  · intro h time _ htime
    exact Nat.le_trans htime h

/-- An empty buffer keeps the window. -/
theorem Clocked.durable_of_nil (hs : s.Clocked policy arrivals) (hnil : s.ledger.entries = []) :
    s.Durable arrivals := by
  rw [hs.durable_iff_now]
  intro o ho
  have hmem := hs.held o ho
  rw [hnil] at hmem
  cases hmem

/-- After a line that stays in the buffer, the window is kept exactly when it is followed. -/
theorem Clocked.durable_stays_iff (hpos : 0 < policy.maxInterval) (hord : arrivals.Ordered)
    (hs : s.Clocked policy arrivals) {time : Nat} {bytes : List UInt8}
    (h : s.recv arrivals = (time, some bytes))
    (hdue : ¬ (s.ledger.writer.received bytes).Due (.at time)) :
    (s.step arrivals).Durable arrivals ↔ s.Followed arrivals := by
  have hfollowed : s.Followed arrivals ↔ bytes.length ≤ s.times.spareCapacity →
      ∀ o ∈ s.times.held, o < time →
        ∃ x, arrivals (s.next + 1) = some x ∧ x.1 ≤ o + policy.maxInterval := by
    rw [hs.spareCapacity_eq, ← hs.counted.policy_eq]
    constructor
    · intro hall
      exact hall time bytes h hdue
    · intro hall time' bytes' hline _
      cases h.symm.trans hline
      exact hall
  have hstep : s.step arrivals =
      ⟨time, s.next + 1, ⟨s.ledger.writer.received bytes, s.ledger.entries ++ [time]⟩,
        s.times.write (List.replicate bytes.length time)⟩ := by
    rw [step_line h, if_neg hdue]
  have hdeadline : (s.step arrivals).deadline = time + policy.maxInterval := by
    rw [(hs.step hpos hord).deadline_eq hpos, hstep]
  have hlength : (List.replicate bytes.length time).length = bytes.length := List.length_replicate
  -- the timer, which starts anew with the line, is early enough for those that came with it
  rw [(hs.step hpos hord).durable_iff_now, hfollowed]
  simp only [now_step_le_iff, hdeadline, Nat.add_le_add_iff_right]
  rw [hstep]
  constructor
  · intro hall hroom o ho holder
    have hkept := BufWriter.held_prefix_write (Nat.le_trans (Nat.le_of_eq hlength) hroom)
    exact (hall o (hkept.mem ho)).resolve_left (Nat.not_le.mpr holder)
  · intro hall o ho
    rcases BufWriter.mem_held_write ho with ho | ⟨ho, hroom⟩
    · exact .inl (Nat.le_of_eq (List.eq_of_mem_replicate ho).symm)
    · by_cases holder : o < time
      · exact .inr (hall (Nat.le_trans (Nat.le_of_eq hlength.symm) hroom) o ho holder)
      · exact .inl (Nat.le_of_not_lt holder)

/-- The window is kept after a step exactly when a line that stays is followed. -/
theorem Clocked.durable_step_iff (hpos : 0 < policy.maxInterval) (hord : arrivals.Ordered)
    (hs : s.Clocked policy arrivals) :
    (s.step arrivals).Durable arrivals ↔ s.Followed arrivals := by
  have hs' := hs.step hpos hord
  rcases recv_cases arrivals s with ⟨time, bytes, -, -, h⟩ | ⟨-, h⟩
  · by_cases hdue : (s.ledger.writer.received bytes).Due (.at time)
    · have hnil : (s.step arrivals).ledger.entries = [] := by rw [step_line h, if_pos hdue]
      refine iff_of_true (hs'.durable_of_nil hnil) ?_
      intro time' bytes' hline hno
      cases h.symm.trans hline
      exact absurd hdue hno
    · exact hs.durable_stays_iff hpos hord h hdue
  · refine iff_of_true (hs'.durable_of_nil (hs.entries_of_timeout hpos h)) ?_
    intro time bytes hline
    rw [h] at hline
    cases hline

/-- **The window is kept at all times exactly when every line that stays behind an older
one is followed in time.** -/
theorem durable_iff (hpos : 0 < policy.maxInterval) (hord : arrivals.Ordered) :
    (∀ n, ((TimedLoop.step arrivals)^[n] (start policy)).Durable arrivals) ↔
      ∀ n, ((TimedLoop.step arrivals)^[n] (start policy)).Followed arrivals := by
  have hstep (n : ℕ) : ((TimedLoop.step arrivals)^[n + 1] (start policy)).Durable arrivals ↔
      ((TimedLoop.step arrivals)^[n] (start policy)).Followed arrivals := by
    rw [Function.iterate_succ_apply']
    exact (clocked_iterate hpos hord n).durable_step_iff hpos hord
  constructor
  · intro h n
    exact (hstep n).mp (h (n + 1))
  · intro h n
    cases n with
    | zero => exact nofun
    | succ n => exact (hstep n).mpr (h n)

/-- **No line waits for twice the interval**, whatever comes after it. -/
theorem lt_two_intervals (hpos : 0 < policy.maxInterval) (hord : arrivals.Ordered) (n : ℕ) {o : Nat}
    (ho : o ∈ ((TimedLoop.step arrivals)^[n] (start policy)).times.held) :
    ((TimedLoop.step arrivals)^[n + 1] (start policy)).now < o + 2 * policy.maxInterval := by
  rw [Function.iterate_succ_apply']
  have hs := clocked_iterate hpos hord n
  have hmem := hs.held o ho
  have hyoung := hs.young (List.ne_nil_of_mem hmem)
  have hstarted := (hs.entries o hmem).1
  have hdeadline := hs.deadline_eq hpos
  have hnow : (((TimedLoop.step arrivals)^[n] (start policy)).step arrivals).now ≤
      ((TimedLoop.step arrivals)^[n] (start policy)).deadline :=
    now_step_le_iff.mpr (.inl (Nat.le_refl _))
  omega

/-- Lines that never stop keep the window. -/
theorem durable_iff_steady :
    let arrivals : Arrivals := fun i ↦ some (i, [97, 10])
    ∀ n, ((TimedLoop.step arrivals)^[n] (start .default)).Durable arrivals := by
  intro arrivals
  have hpos : 0 < FlushPolicy.default.maxInterval := by decide
  have hord : arrivals.Ordered := by
    rintro i j x y hij ⟨⟩ ⟨⟩
    exact hij
  refine (durable_iff hpos hord).mpr fun n time bytes hrecv hdue _ o ho _ ↦ ?_
  have hs := clocked_iterate hpos hord n
  have harrival := arrival_of_recv hrecv
  have hyoung := hs.young_of_not_due hpos hdue
  have hstarted := (hs.entries o (hs.held o ho)).1
  refine ⟨_, rfl, ?_⟩
  cases harrival
  rw [hs.counted.policy_eq]
  exact Nat.le_trans hyoung (Nat.add_le_add_right hstarted _)

/-- Two lines, 1 ms and 99 ms after the start, and no other. -/
def twoLines : Arrivals
  | 0 => some (1000000, [97, 10])
  | 1 => some (99000000, [98, 10])
  | _ => none

/-- **A line can wait for longer than the interval**: each line starts the timer anew. -/
theorem not_durable :
    ¬ ∀ (policy : FlushPolicy) (arrivals : Arrivals), 0 < policy.maxInterval → arrivals.Ordered →
      ∀ n, ((TimedLoop.step arrivals)^[n] (start policy)).Durable arrivals := by
  intro h
  have hord : twoLines.Ordered := by
    intro i j x y hij hx hy
    match i, j with
    | 0, 0 | 0, 1 | 1, 1 =>
        cases hx
        cases hy
        decide
    | 1, 0 => cases hij
    | _ + 2, _ => cases hx
    | _, _ + 2 => cases hy
  have hdurable := h .default twoLines (by decide) hord 2
  have hle := hdurable 1000000 (by decide) 199000000 (by decide) (by decide)
  exact absurd hle (by decide)

end TimedLoop

end WideLog.StdoutEmit
