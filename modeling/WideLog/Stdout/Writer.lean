import Mathlib.Data.List.Basic

/-!
# The writer thread of standard output

`writer_loop` takes jobs off a channel, writes their lines to a `BufWriter` and flushes
it when the batch is long, large or old enough, or when it is asked to.  Writing and
flushing may fail, and the clock may read anything.  The counters of the batch are
`usize`, which wrap.
-/

namespace WideLog.StdoutEmit

/-- `FlushPolicy`, with its interval in nanoseconds. -/
structure FlushPolicy where
  maxInterval : Nat
  maxBytes : UInt64
  maxLines : UInt64
deriving DecidableEq, Repr

/-- `FlushPolicy::default`. -/
def FlushPolicy.default : FlushPolicy := ⟨100000000, 8 * 1024, 1000⟩

/-- `FlushPolicy::per_line`. -/
def FlushPolicy.perLine : FlushPolicy := ⟨0, 0, 1⟩

/-- A `BufWriter` over standard output: what was passed on and flushed there, what was passed
on since then, and what it holds. -/
structure BufWriter (α : Type) where
  flushed : List α
  passed : List α
  held : List α
deriving DecidableEq, Repr

/-- What an iteration of the loop depends on besides the job: what a failing `write_all`
or `flush` leaves of the buffer, and two readings of the clock. -/
structure Surroundings where
  writeFault : Option (BufWriter UInt8)
  flushFault : Option (BufWriter UInt8)
  elapsedAt : Nat
  restartedAt : Nat
deriving DecidableEq, Repr

/-- Standard output takes what it is given. -/
def Surroundings.WritesSucceed (io : Surroundings) : Prop :=
  io.writeFault = none ∧ io.flushFault = none

instance (io : Surroundings) : Decidable io.WritesSucceed := inferInstanceAs (Decidable (_ ∧ _))

namespace BufWriter

variable {α : Type}

/-- The capacity of `BufWriter::new`: 8 KiB. -/
def capacity : ℕ := 8 * 1024

def new : BufWriter α := ⟨[], [], []⟩

variable (b : BufWriter α)

/-- What the buffer was handed since its last flush. -/
def pending : List α := b.passed ++ b.held

/-- All the buffer was handed. -/
def handed : List α := b.flushed ++ b.pending

/-- `spare_capacity`. -/
def spareCapacity : ℕ := capacity - b.held.length

/-- `flush_buf`: what is held is passed on. -/
def flushBuf : BufWriter α := { b with passed := b.pending, held := [] }

/-- What `write_all` writes: bytes that do not fit push out what is held, and those that fill
a buffer are not held. -/
def write (bytes : List α) : BufWriter α :=
  let b := if b.spareCapacity < bytes.length then b.flushBuf else b
  if capacity ≤ bytes.length then { b with passed := b.passed ++ bytes }
  else { b with held := b.held ++ bytes }

/-- `write_all`, and whether it succeeds. -/
def writeAll (bytes : List α) : Option (BufWriter α) → BufWriter α → BufWriter α × Bool
  | none, b => (b.write bytes, true)
  | some left, _ => (left, false)

/-- `flush`, whose result is ignored. -/
def flush : Option (BufWriter α) → BufWriter α → BufWriter α
  | none, b => ⟨b.handed, [], []⟩
  | some left, _ => left

@[simp] theorem handed_new : (new : BufWriter α).handed = [] := rfl

@[simp] theorem pending_new : (new : BufWriter α).pending = [] := rfl

/-- What is written comes after what was written before. -/
theorem pending_write (b : BufWriter α) (bytes : List α) :
    (b.write bytes).pending = b.pending ++ bytes := by
  unfold write
  split_ifs with hspill hlong hlong
  · simp [pending, flushBuf]
  · simp [pending, flushBuf]
  · -- only a buffer that holds nothing has room for so much
    have hroom : capacity ≤ capacity - b.held.length := Nat.le_trans hlong (Nat.not_lt.mp hspill)
    have hpos : 0 < capacity := by decide
    have hnil : b.held = [] := List.length_eq_zero_iff.mp (by omega)
    simp [pending, hnil]
  · simp [pending]

@[simp] theorem flushed_write (b : BufWriter α) (bytes : List α) :
    (b.write bytes).flushed = b.flushed := by
  unfold write
  split_ifs <;> rfl

/-- Where there is room, what was held is still held. -/
theorem held_prefix_write {b : BufWriter α} {bytes : List α} (h : bytes.length ≤ b.spareCapacity) :
    b.held <+: (b.write bytes).held := by
  unfold write
  rw [if_neg (Nat.not_lt.mpr h)]
  split_ifs
  · exact List.prefix_rfl
  · exact List.prefix_append _ _

/-- Only what is written is held where there was no room for it, and nothing else is ever
added. -/
theorem mem_held_write {b : BufWriter α} {bytes : List α} {x : α} (h : x ∈ (b.write bytes).held) :
    x ∈ bytes ∨ x ∈ b.held ∧ bytes.length ≤ b.spareCapacity := by
  unfold write at h
  split_ifs at h with hspill hlong hlong
  · cases h
  · exact .inl h
  · exact .inr ⟨h, Nat.not_lt.mp hspill⟩
  · rcases List.mem_append.mp h with h | h
    · exact .inr ⟨h, Nat.not_lt.mp hspill⟩
    · exact .inl h

/-- How much is held depends on how much was held and is written. -/
theorem length_held_write {β : Type} {b : BufWriter α} {b' : BufWriter β} {bytes : List α}
    {bytes' : List β} (hheld : b.held.length = b'.held.length)
    (hbytes : bytes.length = bytes'.length) :
    (b.write bytes).held.length = (b'.write bytes').held.length := by
  have hspare : b.spareCapacity = b'.spareCapacity := congrArg (capacity - ·) hheld
  unfold write
  rw [hspare, hbytes]
  split_ifs
  · rfl
  · exact hbytes
  · exact hheld
  · show (b.held ++ bytes).length = (b'.held ++ bytes').length
    rw [List.length_append, List.length_append, hheld, hbytes]

@[simp] theorem flush_none (b : BufWriter α) : b.flush none = ⟨b.handed, [], []⟩ := rfl

@[simp] theorem pending_flush (b : BufWriter α) : (b.flush none).pending = [] := rfl

@[simp] theorem handed_flush (b : BufWriter α) : (b.flush none).handed = b.handed :=
  List.append_nil _

theorem flushed_prefix (b : BufWriter α) : b.flushed <+: b.handed := List.prefix_append _ _

end BufWriter

/-- The local variables of `writer_loop`. -/
structure Writer where
  policy : FlushPolicy
  buf : BufWriter UInt8
  batchStarted : Nat
  batchBytes : UInt64
  batchLines : UInt64
deriving DecidableEq, Repr

/-- What `recv_timeout` returns. -/
inductive Received where
  | line (bytes : List UInt8)
  | flush (ack : Nat)
  | timeout
  | disconnected
deriving DecidableEq, Repr

/-- How an iteration ends: in the next one, in `ack.send`, or in the end of the loop. -/
inductive Turn where
  | next (w : Writer)
  | ack (w : Writer) (ack : Nat)
  | exit (w : Writer)
deriving DecidableEq, Repr

namespace Writer

variable (io : Surroundings) (w : Writer)

/-- `writer_loop`, up to its first iteration. -/
def start (policy : FlushPolicy) (now : Nat) : Writer := ⟨policy, .new, now, 0, 0⟩

/-- Flush the buffer and begin a batch. -/
def flush : Writer :=
  { w with
    buf := w.buf.flush io.flushFault
    batchStarted := io.restartedAt
    batchBytes := 0
    batchLines := 0 }

/-- Whether the batch is as old as the policy allows. -/
def Aged : Prop :=
  0 < w.policy.maxInterval ∧ w.policy.maxInterval ≤ io.elapsedAt - w.batchStarted

/-- Whether the batch is as large or as long as the policy allows. -/
def Filled : Prop :=
  (0 < w.policy.maxBytes ∧ w.policy.maxBytes ≤ w.batchBytes) ∨ w.policy.maxLines ≤ w.batchLines

instance : Decidable (w.Aged io) := inferInstanceAs (Decidable (_ ∧ _))

instance : Decidable w.Filled := inferInstanceAs (Decidable (_ ∨ _))

/-- `Ok(Job::Line(bytes))`. -/
def line (bytes : List UInt8) : Writer :=
  match w.buf.writeAll bytes io.writeFault with
  | (buf, false) => { w with buf }
  | (buf, true) =>
    let w : Writer := { w with
      buf
      batchBytes := w.batchBytes + UInt64.ofNat bytes.length
      batchLines := w.batchLines + 1 }
    if w.policy.maxLines ≤ 1 then w.flush io
    else if w.Filled then w.flush io
    else if w.Aged io then w.flush io
    else w

/-- `Err(RecvTimeoutError::Timeout)`. -/
def timeout : Writer := if 0 < w.batchLines ∧ w.Aged io then w.flush io else w

/-- An iteration of `writer_loop`, from what `recv_timeout` returns. -/
def turn : Received → Turn
  | .line bytes => .next (w.line io bytes)
  | .flush ack => .ack (w.flush io) ack
  | .timeout => .next (w.timeout io)
  | .disconnected => .exit { w with buf := w.buf.flush io.flushFault }

/-! ## What an iteration writes -/

variable {io w}

/-- A writer that has been handed a line, before it looks at the thresholds. -/
def received (w : Writer) (bytes : List UInt8) : Writer :=
  { w with
    buf := w.buf.write bytes
    batchBytes := w.batchBytes + UInt64.ofNat bytes.length
    batchLines := w.batchLines + 1 }

/-- Some threshold is met. -/
def Due (io : Surroundings) (w : Writer) : Prop :=
  w.policy.maxLines ≤ 1 ∨ w.Filled ∨ w.Aged io

instance : Decidable (w.Due io) := inferInstanceAs (Decidable (_ ∨ _))

/-- A line is handed to the buffer, which is flushed if a threshold is met. -/
theorem line_eq (hio : io.WritesSucceed) (bytes : List UInt8) :
    w.line io bytes =
      if (w.received bytes).Due io then (w.received bytes).flush io else w.received bytes := by
  have hline : w.line io bytes =
      if (w.received bytes).policy.maxLines ≤ 1 then (w.received bytes).flush io
      else if (w.received bytes).Filled then (w.received bytes).flush io
      else if (w.received bytes).Aged io then (w.received bytes).flush io
      else w.received bytes := by
    unfold line
    rw [hio.1]
    rfl
  rw [hline]
  by_cases hlines : (w.received bytes).policy.maxLines ≤ 1
  · have hdue : (w.received bytes).Due io := .inl hlines
    rw [if_pos hlines, if_pos hdue]
  · by_cases hfilled : (w.received bytes).Filled
    · have hdue : (w.received bytes).Due io := .inr (.inl hfilled)
      rw [if_neg hlines, if_pos hfilled, if_pos hdue]
    · have hdue : (w.received bytes).Due io ↔ (w.received bytes).Aged io :=
        (or_iff_right hlines).trans (or_iff_right hfilled)
      rw [if_neg hlines, if_neg hfilled]
      exact if_congr hdue.symm rfl rfl

theorem flush_buf (hio : io.WritesSucceed) : (w.flush io).buf = ⟨w.buf.handed, [], []⟩ := by
  show w.buf.flush io.flushFault = _
  rw [hio.2]
  rfl

/-- Whether or not an iteration flushes, it adds nothing, and takes nothing back. -/
theorem flush_or {w' : Writer} (hio : io.WritesSucceed) (h : w' = w.flush io ∨ w' = w) :
    w'.buf.handed = w.buf.handed ∧ w.buf.flushed <+: w'.buf.flushed := by
  rcases h with rfl | rfl
  · rw [flush_buf hio]
    exact ⟨List.append_nil _, w.buf.flushed_prefix⟩
  · exact ⟨rfl, List.prefix_rfl⟩

theorem timeout_buf (hio : io.WritesSucceed) :
    (w.timeout io).buf.handed = w.buf.handed ∧ w.buf.flushed <+: (w.timeout io).buf.flushed := by
  refine flush_or hio ?_
  unfold timeout
  split_ifs
  · exact .inl rfl
  · exact .inr rfl

/-- A line is handed to the buffer once. -/
theorem line_buf (hio : io.WritesSucceed) (bytes : List UInt8) :
    (w.line io bytes).buf.handed = w.buf.handed ++ bytes ∧
      w.buf.flushed <+: (w.line io bytes).buf.flushed := by
  have hw : (w.received bytes).buf.handed = w.buf.handed ++ bytes := by
    show (w.buf.write bytes).flushed ++ (w.buf.write bytes).pending = _
    rw [BufWriter.flushed_write, BufWriter.pending_write, BufWriter.handed, List.append_assoc]
  have hflushed : (w.received bytes).buf.flushed = w.buf.flushed := BufWriter.flushed_write ..
  rw [← hw, ← hflushed, line_eq hio]
  refine flush_or hio ?_
  split_ifs
  · exact .inl rfl
  · exact .inr rfl

end Writer

end WideLog.StdoutEmit
