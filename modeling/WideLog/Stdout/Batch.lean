import Mathlib.Algebra.Ring.Nat
import WideLog.Lib.Run
import WideLog.Stdout.Writer

/-!
# The batch of the writer

The counters of `writer_loop` against the lines that it has been handed since it last
flushed.  A ledger keeps what came with the lines next to the writer, and drops it where
the loop calls `flush`.
-/

namespace WideLog.StdoutEmit

/-- The writer in the next iteration; after an acknowledgement, the loop goes on. -/
def Turn.writer : Turn → Writer
  | .next w | .ack w _ | .exit w => w

namespace Received

/-- The line that is received. -/
def lines : Received → List (List UInt8)
  | line bytes => [bytes]
  | flush _ | timeout | disconnected => []

/-- Whether the loop calls `flush` on what it receives. -/
def Flushes (io : Surroundings) (w : Writer) : Received → Prop
  | line bytes => (w.received bytes).Due io
  | flush _ => True
  | timeout => 0 < w.batchLines ∧ w.Aged io
  | disconnected => True

instance (io : Surroundings) (w : Writer) : (r : Received) → Decidable (r.Flushes io w)
  | line _ => inferInstanceAs (Decidable (Writer.Due _ _))
  | flush _ => inferInstanceAs (Decidable True)
  | timeout => inferInstanceAs (Decidable (_ ∧ _))
  | disconnected => inferInstanceAs (Decidable True)

end Received

/-- A writer, and an entry for each line since it last flushed. -/
structure Ledger (α : Type) where
  writer : Writer
  entries : List α

namespace Ledger

variable {α : Type}

def start (policy : FlushPolicy) (now : Nat) : Ledger α := ⟨.start policy now, []⟩

/-- An iteration, on a job that comes with some entries. -/
def turn (io : Surroundings) (r : Received) (news : List α) (s : Ledger α) : Ledger α where
  writer := (s.writer.turn io r).writer
  entries := if r.Flushes io s.writer then [] else s.entries ++ news

/-- After a line that is not flushed, there is one more entry. -/
theorem turn_line {io : Surroundings} (hio : io.WritesSucceed) (bytes : List UInt8) (news : List α)
    (s : Ledger α) :
    s.turn io (.line bytes) news =
      if (s.writer.received bytes).Due io then ⟨(s.writer.received bytes).flush io, []⟩
      else ⟨s.writer.received bytes, s.entries ++ news⟩ := by
  have hwriter : (s.turn io (.line bytes) news).writer = s.writer.line io bytes := rfl
  have hentries : (s.turn io (.line bytes) news).entries =
      if (s.writer.received bytes).Due io then [] else s.entries ++ news := rfl
  rw [Writer.line_eq hio] at hwriter
  cases hturn : s.turn io (.line bytes) news with
  | mk w entries =>
      rw [hturn] at hwriter hentries
      dsimp only at hwriter hentries
      rw [hwriter, hentries]
      split_ifs <;> rfl

theorem turn_timeout (io : Surroundings) (s : Ledger α) :
    s.turn io .timeout [] = if 0 < s.writer.batchLines ∧ s.writer.Aged io then
      ⟨s.writer.flush io, []⟩ else s := by
  have hturn : s.turn io .timeout [] = ⟨s.writer.timeout io,
      if 0 < s.writer.batchLines ∧ s.writer.Aged io then [] else s.entries ++ []⟩ := rfl
  rw [hturn, Writer.timeout, List.append_nil]
  split_ifs <;> rfl

/-! ## Accounting -/

/-- The number of lines is exact, and below its threshold. -/
structure LinesCounted (policy : FlushPolicy) (s : Ledger α) : Prop where
  policy_eq : s.writer.policy = policy
  lines : s.writer.batchLines.toNat = s.entries.length
  perLine : policy.maxLines ≤ 1 → s.entries = []
  belowLines : ¬ policy.maxLines ≤ 1 → s.writer.batchLines < policy.maxLines

/-- The lines of an empty batch are counted. -/
theorem linesCounted_empty {w : Writer} (hlines : w.batchLines = 0) :
    LinesCounted w.policy (⟨w, []⟩ : Ledger α) where
  policy_eq := rfl
  lines := by rw [hlines]; rfl
  perLine _ := rfl
  belowLines h := by
    rw [UInt64.not_le, UInt64.lt_iff_toNat_lt] at h
    rw [hlines, UInt64.lt_iff_toNat_lt]
    exact Nat.lt_of_le_of_lt (Nat.zero_le _) h

/-- A line that stays in the buffer is counted. -/
theorem linesCounted_received {policy : FlushPolicy} {s : Ledger α} {io : Surroundings}
    {bytes : List UInt8} (hs : s.LinesCounted policy) (hdue : ¬ (s.writer.received bytes).Due io)
    (x : α) : LinesCounted policy ⟨s.writer.received bytes, s.entries ++ [x]⟩ := by
  obtain rfl := hs.policy_eq
  obtain ⟨hmany, hrest⟩ := not_or.mp hdue
  have hmany' : ¬ s.writer.policy.maxLines ≤ 1 := hmany
  have hfilled : ¬ (s.writer.received bytes).Filled := fun h ↦ hrest (.inl h)
  have hlt := UInt64.lt_iff_toNat_lt.mp (hs.belowLines hmany')
  have hmax := s.writer.policy.maxLines.toNat_lt
  constructor
  case policy_eq => rfl
  case lines =>
    show (s.writer.batchLines + 1).toNat = _
    rw [UInt64.toNat_add, UInt64.toNat_one, List.length_append, List.length_singleton, ← hs.lines]
    exact Nat.mod_eq_of_lt (by omega)
  case perLine => exact fun h ↦ absurd h hmany'
  case belowLines => exact fun _ ↦ UInt64.not_le.mp fun h ↦ hfilled (.inr h)

/-- The counters are exact, and no threshold is met. -/
structure Accounted (policy : FlushPolicy) (s : Ledger (List UInt8)) : Prop
    extends LinesCounted policy s where
  pending : s.writer.buf.pending = s.entries.flatten
  bytes : s.writer.batchBytes.toNat = s.entries.flatten.length
  belowBytes : 0 < policy.maxBytes → s.writer.batchBytes < policy.maxBytes

/-- An iteration that is not the last, with writes that succeed.  The entries are the lines. -/
def Step (s : Ledger (List UInt8)) (a : Received × Surroundings) (s' : Ledger (List UInt8)) :
    Prop :=
  a.1 ≠ .disconnected ∧ a.2.WritesSucceed ∧ s' = s.turn a.2 a.1 a.1.lines

/-- A line meets a threshold, or the bytes of the batch can still be counted. -/
def Fits (s : Ledger (List UInt8)) : Received × Surroundings → Prop
  | (.line bytes, io) =>
      (s.writer.received bytes).Due io ∨ s.entries.flatten.length + bytes.length < 2 ^ 64
  | _ => True

variable {policy : FlushPolicy} {s s' t : Ledger (List UInt8)}

/-- An empty batch is accounted for. -/
theorem accounted_empty {w : Writer} (hpending : w.buf.pending = []) (hlines : w.batchLines = 0)
    (hbytes : w.batchBytes = 0) : Accounted w.policy ⟨w, []⟩ where
  toLinesCounted := linesCounted_empty hlines
  pending := hpending
  bytes := by rw [hbytes]; rfl
  belowBytes h := by rwa [hbytes]

theorem accounted_start (policy : FlushPolicy) (now : Nat) :
    Accounted policy (start policy now) := accounted_empty (w := .start policy now) rfl rfl rfl

/-- A flush leaves nothing to account for. -/
theorem accounted_flush {io : Surroundings} (hio : io.WritesSucceed) (w : Writer) :
    Accounted w.policy ⟨w.flush io, []⟩ :=
  accounted_empty (w := w.flush io) (by rw [Writer.flush_buf hio]; rfl) rfl rfl

/-- A line that stays in the buffer is accounted for exactly when the bytes of the batch
can still be counted. -/
theorem accounted_received_iff {io : Surroundings} {bytes : List UInt8} (hs : s.Accounted policy)
    (hdue : ¬ (s.writer.received bytes).Due io) :
    Accounted policy ⟨s.writer.received bytes, s.entries ++ [bytes]⟩ ↔
      s.entries.flatten.length + bytes.length < 2 ^ 64 := by
  have hlines := linesCounted_received hs.toLinesCounted hdue bytes
  have htotal : (s.writer.received bytes).batchBytes.toNat =
      (s.entries.flatten.length + bytes.length) % 2 ^ 64 := by
    show (s.writer.batchBytes + UInt64.ofNat bytes.length).toNat = _
    rw [UInt64.toNat_add, hs.bytes, UInt64.toNat_ofNat', Nat.add_mod_mod]
  have hlength : (s.entries ++ [bytes]).flatten.length =
      s.entries.flatten.length + bytes.length := by simp
  constructor
  · intro h
    rw [← hlength, ← h.bytes]
    exact UInt64.toNat_lt _
  · intro hlt
    obtain rfl := hs.policy_eq
    refine ⟨hlines, ?_, ?_, fun h ↦ UInt64.not_le.mp fun hle ↦ hdue (.inr (.inl (.inl ⟨h, hle⟩)))⟩
    · show (s.writer.buf.write bytes).pending = _
      rw [BufWriter.pending_write, hs.pending, List.flatten_append, List.flatten_singleton]
    · rw [htotal, hlength, Nat.mod_eq_of_lt hlt]

/-- What an iteration leaves is accounted for exactly when its line fits. -/
theorem Step.accounted_iff_fits {a : Received × Surroundings} (h : Step s a s')
    (hs : s.Accounted policy) : s'.Accounted policy ↔ s.Fits a := by
  obtain ⟨r, io⟩ := a
  obtain rfl := hs.policy_eq
  obtain ⟨hopen, hio, rfl⟩ := h
  dsimp only at hopen hio ⊢
  cases r with
  | line bytes =>
      rw [Received.lines, turn_line hio, Fits]
      split_ifs with hdue
      · exact iff_of_true (accounted_flush hio (s.writer.received bytes)) (.inl hdue)
      · rw [accounted_received_iff hs hdue, or_iff_right hdue]
  | flush ack => exact iff_of_true (accounted_flush hio s.writer) trivial
  | timeout =>
      rw [Received.lines, turn_timeout]
      split_ifs
      · exact iff_of_true (accounted_flush hio s.writer) trivial
      · exact iff_of_true hs trivial
  | disconnected => exact absurd rfl hopen

/-- **The batch is accounted for in every iteration exactly when the bytes of every line
that stays in the buffer can be counted.** -/
theorem accounted_iff {now : Nat}
    {tr : List (Ledger (List UInt8) × (Received × Surroundings))}
    (h : Run Step (start policy now) tr t) :
    (∀ r ∈ Run.states tr t, r.Accounted policy) ↔ ∀ x ∈ tr, x.1.Fits x.2 :=
  h.forall_states_iff (fun hstep hfits hs ↦ (hstep.accounted_iff_fits hs).mpr hfits)
    (fun hstep hs ↦ hstep.accounted_iff_fits hs) (accounted_start policy now)
    (accounted_start policy now)

/-- A line under the default policy. -/
theorem accounted_iff_sample :
    let s : Ledger (List UInt8) := start .default 0
    let a : Received × Surroundings := (.line [97, 10], ⟨none, none, 1, 1⟩)
    Run Step s [(s, a)] (s.turn a.2 a.1 a.1.lines) ∧
      (s.turn a.2 a.1 a.1.lines).Accounted .default := by
  intro s a
  have hrun : Run Step s [(s, a)] (s.turn a.2 a.1 a.1.lines) :=
    .cons ⟨nofun, ⟨rfl, rfl⟩, rfl⟩ (.nil _)
  refine ⟨hrun, (accounted_iff hrun).mpr ?_ _ (Run.mem_states_last _ _)⟩
  rw [List.forall_mem_singleton]
  exact .inr (by decide)

/-- A policy under which only the largest numbers of bytes and lines flush. -/
def hugePolicy : FlushPolicy := ⟨0, .ofNat (2 ^ 64 - 1), .ofNat (2 ^ 64 - 1)⟩

/-- The ledger after a line of one gibibyte has come some number of times, and stayed. -/
def afterLines (line : List UInt8) (n : ℕ) : Ledger (List UInt8) where
  writer :=
    { Writer.start hugePolicy 0 with
      buf := ⟨[], (List.replicate n line).flatten, []⟩
      batchBytes := .ofNat (n * 2 ^ 30)
      batchLines := .ofNat n }
  entries := List.replicate n line

theorem not_due_afterLines {line : List UInt8} {n : ℕ} (hn : n ≤ 2 ^ 34) {io : Surroundings} :
    ¬ (afterLines line n).writer.Due io := by
  rintro (hlines | (⟨-, hbytes⟩ | hlines) | ⟨hpos, -⟩)
  · have hno : ¬ hugePolicy.maxLines ≤ 1 := by decide
    exact hno hlines
  · -- a total of 2 ^ 64 has wrapped, and every other one is less than the threshold
    have hle : (2 ^ 64 - 1) % 2 ^ 64 ≤ n * 2 ^ 30 % 2 ^ 64 := by
      rw [← UInt64.toNat_ofNat', ← UInt64.toNat_ofNat']
      exact UInt64.le_iff_toNat_le.mp hbytes
    omega
  · have hle : (2 ^ 64 - 1) % 2 ^ 64 ≤ n % 2 ^ 64 := by
      rw [← UInt64.toNat_ofNat', ← UInt64.toNat_ofNat']
      exact UInt64.le_iff_toNat_le.mp hlines
    omega
  · exact Nat.lt_irrefl 0 hpos

theorem step_afterLines {line : List UInt8} (hline : line.length = 2 ^ 30) {n : ℕ}
    (hn : n < 2 ^ 34) :
    Step (afterLines line n) (.line line, ⟨none, none, 0, 0⟩) (afterLines line (n + 1)) := by
  -- a line of that size is not held
  have hbuf : (⟨[], (List.replicate n line).flatten, []⟩ : BufWriter UInt8).write line =
      ⟨[], (List.replicate (n + 1) line).flatten, []⟩ := by
    simp [BufWriter.write, BufWriter.flushBuf, BufWriter.pending, BufWriter.spareCapacity,
      BufWriter.capacity, hline, List.replicate_succ']
  have hbytes : UInt64.ofNat (n * 2 ^ 30) + UInt64.ofNat line.length =
      UInt64.ofNat ((n + 1) * 2 ^ 30) := by
    rw [hline, ← UInt64.ofNat_add, Nat.succ_mul]
  have hlines : UInt64.ofNat n + 1 = UInt64.ofNat (n + 1) := (UInt64.ofNat_add n 1).symm
  have hreceived : (afterLines line n).writer.received line =
      (afterLines line (n + 1)).writer := by
    simp only [afterLines, Writer.received, hbuf, hbytes, hlines]
  refine ⟨Received.noConfusion, ⟨rfl, rfl⟩, ?_⟩
  rw [Received.lines, turn_line ⟨rfl, rfl⟩, hreceived, if_neg (not_due_afterLines hn)]
  simp only [afterLines, List.replicate_succ']

theorem run_afterLines {line : List UInt8} (hline : line.length = 2 ^ 30) {n : ℕ}
    (hn : n ≤ 2 ^ 34) : ∃ tr, Run Step (start hugePolicy 0) tr (afterLines line n) := by
  induction n with
  | zero => exact ⟨[], .nil _⟩
  | succ n ih =>
      obtain ⟨tr, hrun⟩ := ih (by omega)
      exact ⟨_, Run.append_iff.mpr ⟨_, hrun, .cons (step_afterLines hline hn) (.nil _)⟩⟩

/-- **The bytes of a batch can wrap**, after sixteen exbibytes under a threshold that is
just short of that. -/
theorem batch_not_accounted :
    ¬ ∀ (policy : FlushPolicy) (now : Nat)
      (tr : List (Ledger (List UInt8) × (Received × Surroundings))) (t : Ledger (List UInt8)),
      Run Step (start policy now) tr t → ∀ r ∈ Run.states tr t, r.Accounted policy := by
  intro h
  let line : List UInt8 := List.replicate (2 ^ 30) 97
  have hline : line.length = 2 ^ 30 := List.length_replicate
  clear_value line
  obtain ⟨tr, hrun⟩ := run_afterLines hline (Nat.le_refl (2 ^ 34))
  have hbytes := (h _ _ tr _ hrun _ (Run.mem_states_last _ _)).bytes
  have hlength : (List.replicate (2 ^ 34) line).flatten.length = 2 ^ 34 * 2 ^ 30 := by
    rw [List.length_flatten, List.map_replicate, List.sum_replicate_nat, hline]
  have hwrapped : (UInt64.ofNat (2 ^ 34 * 2 ^ 30)).toNat = 2 ^ 34 * 2 ^ 30 :=
    hbytes.trans hlength
  exact absurd hwrapped (by decide)

end Ledger

end WideLog.StdoutEmit
