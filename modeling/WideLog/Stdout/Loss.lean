import WideLog.Stdout.Batch
import WideLog.Stdout.Delivery

/-!
# What the end of the process loses

Whenever the process ends, what was accepted is flushed but for a batch of the writer and
the lines in the channel.  The first policy that is set before the writer starts keeps the
batch short, the first capacity that is set before the channel is created keeps the channel
so, and what is set later changes neither.
-/

namespace WideLog.StdoutEmit

variable {P : Type}

namespace Action

/-- The policy a step sets. -/
def policySet : Action P → List FlushPolicy
  | .setFlushPolicy _ policy => [policy]
  | _ => []

/-- The capacity a step sets. -/
def capacitySet : Action P → List ChannelCapacity
  | .setChannelCapacity _ capacity => [capacity]
  | _ => []

/-- A step of the writer. -/
def OfWriter : Action P → Prop
  | .startWriter _ | .turn _ _ | .acknowledge _ _ => True
  | _ => False

end Action

theorem Job.length_lines_le (jobs : List Job) : (jobs.flatMap Job.lines).length ≤ jobs.length := by
  induction jobs with
  | nil => exact Nat.le_refl 0
  | cons job jobs ih =>
      rw [List.flatMap_cons, List.length_append, List.length_cons]
      have hjob : job.lines.length ≤ 1 := by
        cases job with
        | line => exact Nat.le_refl 1
        | flush => exact Nat.zero_le 1
      omega

/-- The local variables of `writer_loop`, when it runs. -/
def WriterThread.loop : WriterThread → Option Writer
  | .absent | .spawned => none
  | .looping w | .acking w _ => some w

theorem WriterThread.buf_eq (w : WriterThread) : w.buf = (w.loop.map Writer.buf).getD .new := by
  cases w <;> rfl

namespace Writer

variable {w : Writer} {io : Surroundings} {durable batch : List (List UInt8)}

/-- The buffer was handed some lines that are flushed, and a batch of others since. -/
structure Buffered (durable batch : List (List UInt8)) (w : Writer) : Prop where
  flushed : w.buf.flushed = durable.flatten
  pending : w.buf.pending = batch.flatten

/-- The batch is counted, and shorter than the policy allows. -/
structure Holds (durable batch : List (List UInt8)) (w : Writer) : Prop
    extends w.Buffered durable batch where
  counted : Ledger.LinesCounted w.policy ⟨w, batch⟩

theorem Holds.length_lt (h : w.Holds durable batch) (hbatch : batch ≠ []) :
    batch.length < w.policy.maxLines.toNat := by
  have hmany : ¬ w.policy.maxLines ≤ 1 := fun hle ↦ hbatch (h.counted.perLine hle)
  rw [← h.counted.lines]
  exact UInt64.lt_iff_toNat_lt.mp (h.counted.belowLines hmany)

theorem holds_start (policy : FlushPolicy) (now : Nat) : (start policy now).Holds [] [] where
  flushed := rfl
  pending := rfl
  counted := Ledger.linesCounted_empty (w := start policy now) rfl

theorem Buffered.flush (h : w.Buffered durable batch) (hio : io.WritesSucceed) :
    (w.flush io).Holds (durable ++ batch) [] where
  flushed := by
    rw [flush_buf hio, List.flatten_append, ← h.flushed, ← h.pending]
    rfl
  pending := by
    rw [flush_buf hio]
    rfl
  counted := Ledger.linesCounted_empty (w := w.flush io) rfl

theorem Buffered.received (h : w.Buffered durable batch) (bytes : List UInt8) :
    (w.received bytes).Buffered durable (batch ++ [bytes]) where
  flushed := (BufWriter.flushed_write ..).trans h.flushed
  pending := by
    show (w.buf.write bytes).pending = _
    rw [BufWriter.pending_write, h.pending, List.flatten_append, List.flatten_singleton]

/-- An iteration takes the lines it receives to the batch, or flushes the batch. -/
theorem Holds.turn (h : w.Holds durable batch) (hio : io.WritesSucceed) {r : Received}
    (hopen : r ≠ .disconnected) :
    ∃ durable' batch', durable ++ batch ++ r.lines = durable' ++ batch' ∧
      (w.turn io r).writer.Holds durable' batch' := by
  cases r with
  | line bytes =>
      show ∃ durable' batch', _ ∧ (w.line io bytes).Holds durable' batch'
      rw [line_eq hio]
      split_ifs with hdue
      · exact ⟨durable ++ (batch ++ [bytes]), [], by simp [Received.lines],
          (h.received bytes).flush hio⟩
      · exact ⟨durable, batch ++ [bytes], List.append_assoc _ _ _,
          ⟨h.received bytes, Ledger.linesCounted_received h.counted hdue bytes⟩⟩
  | flush ack => exact ⟨durable ++ batch, [], rfl, h.toBuffered.flush hio⟩
  | timeout =>
      show ∃ durable' batch', _ ∧ (w.timeout io).Holds durable' batch'
      rw [timeout]
      split_ifs
      · exact ⟨durable ++ batch, [], rfl, h.toBuffered.flush hio⟩
      · exact ⟨durable, batch, List.append_nil _, h⟩
  | disconnected => exact absurd rfl hopen

/-- The policy is read once. -/
theorem policy_turn (w : Writer) (io : Surroundings) (r : Received) :
    (w.turn io r).writer.policy = w.policy := by
  cases r with
  | line bytes =>
      show (w.line io bytes).policy = w.policy
      unfold line
      split
      · rfl
      · dsimp only
        split_ifs <;> rfl
  | flush | disconnected => rfl
  | timeout =>
      show (w.timeout io).policy = w.policy
      unfold timeout
      split_ifs <;> rfl

end Writer

namespace Pipeline

variable {s s' t : Pipeline P} {a : Action P} {tr : List (Pipeline P × Action P)}
  {taken : List (List UInt8)}

/-- The policies that are set in a run, in order. -/
def policies (tr : List (Pipeline P × Action P)) : List FlushPolicy :=
  tr.flatMap fun x ↦ x.2.policySet

/-- The capacities that are set in a run, in order. -/
def capacities (tr : List (Pipeline P × Action P)) : List ChannelCapacity :=
  tr.flatMap fun x ↦ x.2.capacitySet

/-- The lines that were taken from the channel are flushed, up to the batch of a writer. -/
def Batched (taken : List (List UInt8)) (s : Pipeline P) : Prop :=
  match s.writer.loop with
  | none => taken = []
  | some w => ∃ durable batch, taken = durable ++ batch ∧ w.Holds durable batch

theorem batched_none (h : s.writer.loop = none) : s.Batched taken ↔ taken = [] := by
  rw [Batched, h]

theorem batched_some {w : Writer} (h : s.writer.loop = some w) :
    s.Batched taken ↔ ∃ durable batch, taken = durable ++ batch ∧ w.Holds durable batch := by
  rw [Batched, h]

/-- An iteration takes the lines of the channel to the batch, or flushes the batch. -/
theorem Batched.turn {w : Writer} {io : Surroundings} {r : Received} (hs : s.Batched taken)
    (hw : s.writer.loop = some w) (hio : io.WritesSucceed) (hopen : r ≠ .disconnected)
    (hw' : s'.writer.loop = some (w.turn io r).writer) : s'.Batched (taken ++ r.lines) := by
  obtain ⟨durable, batch, rfl, hholds⟩ := (batched_some hw).mp hs
  exact (batched_some hw').mpr (hholds.turn hio hopen)

theorem Action.lines_dequeued_turn (r : Received) (io : Surroundings) :
    (Action.turn r io : Action P).dequeued.flatMap Job.lines = r.lines := by
  cases r <;> rfl

variable [DecidableEq P]

theorem Step.batched (h : Step s a s') (hio : a.WritesSucceed) (hlazy : s.Lazy)
    (hs : s.Batched taken) : s'.Batched (taken ++ a.dequeued.flatMap Job.lines) := by
  cases h with
  | @initSender _ _ _ spawned _ hnone =>
      have hw : s.writer.loop = none := by rw [hlazy hnone]; rfl
      obtain rfl := (batched_none hw).mp hs
      refine (batched_none ?_).mpr rfl
      cases spawned <;> rfl
  | @acknowledge _ _ w _ hw =>
      have hw : s.writer.loop = some w := by rw [hw]; rfl
      exact (batched_some rfl).mpr ((List.append_nil taken).symm ▸ (batched_some hw).mp hs)
  | startWriter hw =>
      have hw : s.writer.loop = none := by rw [hw]; rfl
      obtain rfl := (batched_none hw).mp hs
      exact (batched_some rfl).mpr ⟨[], [], rfl, Writer.holds_start _ _⟩
  | @next w _ r _ _ _ hw _ hrecv hturn =>
      have hw : s.writer.loop = some w := by rw [hw]; rfl
      rw [Action.lines_dequeued_turn]
      refine hs.turn hw hio (by cases hrecv <;> nofun) ?_
      rw [hturn]
      rfl
  | @ack w _ r _ _ _ _ hw _ hrecv hturn =>
      have hw : s.writer.loop = some w := by rw [hw]; rfl
      rw [Action.lines_dequeued_turn]
      refine hs.turn hw hio (by cases hrecv <;> nofun) ?_
      rw [hturn]
      rfl
  | _ => exact (List.append_nil taken).symm ▸ hs

/-- The writer goes by the policy that was set first before it started. -/
def Governed (policy : Option FlushPolicy) (done : List (Action P)) (s : Pipeline P) : Prop :=
  s.policy = policy.or (done.flatMap Action.policySet).head? ∧
    ∀ w ∈ s.writer.loop, ∃ before now after, done = before ++ .startWriter now :: after ∧
      w.policy = (policy.or (before.flatMap Action.policySet).head?).getD .default

theorem Step.policy (h : Step s a s') : s'.policy = s.policy.or a.policySet.head? := by
  cases h with
  | setFlushPolicy => cases hpolicy : s.policy <;> simp [Action.policySet]
  | _ => exact Option.or_none.symm

theorem Step.capacity (h : Step s a s') : s'.capacity = s.capacity.or a.capacitySet.head? := by
  cases h with
  | setChannelCapacity => cases hcapacity : s.capacity <;> simp [Action.capacitySet]
  | _ => exact Option.or_none.symm

/-- A step that starts no writer leaves it with its policy. -/
theorem Governed.keep {policy : Option FlushPolicy} {done : List (Action P)}
    (hs : s.Governed policy done) (h : Step s a s')
    (hloop : ∀ w' ∈ s'.writer.loop, ∃ w ∈ s.writer.loop, w'.policy = w.policy) :
    s'.Governed policy (done ++ [a]) := by
  refine ⟨?_, fun w' hw' ↦ ?_⟩
  · rw [h.policy, hs.1, List.flatMap_append, List.flatMap_singleton, List.head?_append,
      Option.or_assoc]
  · obtain ⟨w, hw, hkept⟩ := hloop w' hw'
    obtain ⟨before, now, after, rfl, hpolicy⟩ := hs.2 w hw
    exact ⟨before, now, after ++ [a], by simp, hkept.trans hpolicy⟩

theorem Step.governed {policy : Option FlushPolicy} {done : List (Action P)} (h : Step s a s')
    (hs : s.Governed policy done) : s'.Governed policy (done ++ [a]) := by
  have hkeep := hs.keep h
  cases h with
  | @initSender _ _ _ spawned =>
      refine hkeep ?_
      cases spawned <;> nofun
  | startWriter hw =>
      obtain ⟨hpolicy, -⟩ := hs
      refine ⟨?_, ?_⟩
      · simpa [Action.policySet] using hpolicy
      · rintro _ ⟨⟩
        refine ⟨done, _, [], rfl, ?_⟩
        rw [← hpolicy]
        rfl
  | @acknowledge _ _ w _ hw =>
      refine hkeep ?_
      rintro _ ⟨⟩
      exact ⟨w, by rw [hw]; rfl, rfl⟩
  | @next w _ r io _ _ hw _ _ hturn | @ack w _ r io _ _ _ hw _ _ hturn =>
      refine hkeep ?_
      rintro _ ⟨⟩
      have hpolicy := w.policy_turn io r
      rw [hturn] at hpolicy
      exact ⟨w, by rw [hw]; rfl, hpolicy⟩
  | _ => exact hkeep fun w hw ↦ ⟨w, hw, rfl⟩

/-! ## What a run leaves in memory -/

theorem batched_of_run {capacity : Option ChannelCapacity} {policy : Option FlushPolicy}
    {dropped : UInt64} (h : Run Step (new capacity policy dropped) tr t)
    (hio : ∀ x ∈ tr, x.2.WritesSucceed) :
    t.Batched ((tr.flatMap fun x ↦ x.2.dequeued).flatMap Job.lines) := by
  have hrun : t.Lazy ∧ t.Batched ([] ++ tr.flatMap fun x ↦ x.2.dequeued.flatMap Job.lines) :=
    h.history (I := fun taken s ↦ s.Lazy ∧ s.Batched taken) (C := fun _ a ↦ a.WritesSucceed)
      (fun a ↦ a.dequeued.flatMap Job.lines)
      (fun ha hC hI ↦ ⟨ha.lazy hI.1, ha.batched hC hI.1 hI.2⟩) ⟨fun _ ↦ rfl, rfl⟩ hio
  rw [List.flatMap_assoc]
  exact hrun.2

theorem governed_of_run {capacity : Option ChannelCapacity} {policy : Option FlushPolicy}
    {dropped : UInt64} (h : Run Step (new capacity policy dropped) tr t) :
    t.Governed policy (tr.map Prod.snd) := by
  have hrun : t.Governed policy ([] ++ tr.flatMap fun x ↦ [x.2]) :=
    h.history (I := fun done s ↦ s.Governed policy done) (C := fun _ _ ↦ True) (fun a ↦ [a])
      (fun ha _ hI ↦ ha.governed hI) ⟨Option.or_none.symm, nofun⟩ (fun _ _ ↦ trivial)
  rw [List.nil_append, ← List.map_eq_flatMap] at hrun
  exact hrun

/-- What is accepted is taken from the channel, or queued. -/
theorem accepted_eq_taken {capacity : Option ChannelCapacity} {policy : Option FlushPolicy}
    {dropped : UInt64} (h : Run Step (new capacity policy dropped) tr t) :
    (accepted tr).map Prod.snd =
      (tr.flatMap fun x ↦ x.2.dequeued).flatMap Job.lines ++ t.queued := by
  have hlines := congrArg (List.flatMap Job.lines) (jobs_of_run h)
  rw [List.flatMap_append, List.flatMap_append, List.flatMap_assoc] at hlines
  rw [accepted, List.map_flatMap]
  simp only [← Action.lines_enqueued]
  exact hlines

/-- The first capacity that is set is that of the channel. -/
theorem queued_le {capacity : Option ChannelCapacity} {policy : Option FlushPolicy}
    {dropped : UInt64} {tr₁ tr₂ : List (Pipeline P × Action P)} {r : Pipeline P} {p : P}
    {spawned : Bool} {n : Nat}
    (h : Run Step (new capacity policy dropped) (tr₁ ++ (r, .initSender p spawned) :: tr₂) t)
    (hn : capacity.or (capacities tr₁).head? = some (.bounded n)) : t.queued.length ≤ max n 1 := by
  obtain ⟨s, h₁, hrun⟩ := Run.append_iff.mp h
  have hset : s.capacity = capacity.or (capacities tr₁).head? :=
    h₁.setOnce Pipeline.capacity Action.capacitySet Step.capacity
  rcases hrun with _ | ⟨hinit, -⟩
  have hcurrent : r.currentChannelCapacity = .bounded n := by
    rw [currentChannelCapacity, hset, hn]
    rfl
  obtain ⟨ch, hch, -, hlength⟩ := within_of_run h (List.mem_append_right _ List.mem_cons_self)
    hcurrent
  have hlines : t.queued.length ≤ t.jobs.length := Job.length_lines_le t.jobs
  rw [jobs_some hch] at hlines
  exact Nat.le_trans hlines hlength

/-- The batch of a writer that runs, and the policy it goes by. -/
theorem batch_of_run {capacity : Option ChannelCapacity} {policy : Option FlushPolicy}
    {dropped : UInt64} (h : Run Step (new capacity policy dropped) tr t)
    (hio : ∀ x ∈ tr, x.2.WritesSucceed) {w : Writer} (hw : t.writer.loop = some w) :
    ∃ durable batch, (tr.flatMap fun x ↦ x.2.dequeued).flatMap Job.lines = durable ++ batch ∧
      t.flushed = durable.flatten ∧ (batch ≠ [] → batch.length < w.policy.maxLines.toNat) ∧
      ∃ tr₁ r now tr₂, tr = tr₁ ++ (r, .startWriter now) :: tr₂ ∧
        w.policy = (policy.or (policies tr₁).head?).getD .default := by
  obtain ⟨durable, batch, htaken, hholds⟩ := (batched_some hw).mp (batched_of_run h hio)
  have hflushed : t.flushed = ((t.writer.loop.map Writer.buf).getD .new).flushed :=
    congrArg BufWriter.flushed t.writer.buf_eq
  rw [hw] at hflushed
  obtain ⟨before, now, after, hdone, hpolicy⟩ := (governed_of_run h).2 w hw
  obtain ⟨tr₁, _, rfl, rfl, hrest⟩ := List.map_eq_append_iff.mp hdone
  obtain ⟨⟨r, _⟩, tr₂, rfl, rfl, -⟩ := List.map_eq_cons_iff.mp hrest
  rw [List.flatMap_map] at hpolicy
  exact ⟨durable, batch, htaken, hflushed.trans hholds.flushed, hholds.length_lt, tr₁, r, now, tr₂,
    rfl, hpolicy⟩

/-- The bytes that are flushed when the process ends.  The writer may be in its last
iteration then, before the flush, while the other threads have gone on. -/
inductive FlushedAtEnd (tr : List (Pipeline P × Action P)) (t : Pipeline P) :
    List UInt8 → Prop where
  | between : FlushedAtEnd tr t t.flushed
  | within {tr₁ s r io tr₂} : tr = tr₁ ++ (s, .turn r io) :: tr₂ →
      (∀ x ∈ tr₂, ¬ x.2.OfWriter) → FlushedAtEnd tr t s.flushed

/-- A batch that is shorter than the policy allows, and the line that is in the hands of
the writer. -/
theorem length_append_lines_le {batch : List (List UInt8)} {n : ℕ}
    (h : batch ≠ [] → batch.length < n) (r : Received) : (batch ++ r.lines).length ≤ max n 1 := by
  have hline : r.lines.length ≤ 1 := by
    cases r with
    | line => exact Nat.le_refl 1
    | flush | timeout | disconnected => exact Nat.zero_le 1
  rw [List.length_append]
  by_cases hbatch : batch = []
  · rw [hbatch, List.length_nil, Nat.zero_add]
    exact Nat.le_trans hline (Nat.le_max_right n 1)
  · have hlt := h hbatch
    omega

/-- **The end of the process loses no more than the settings allow.**  Whenever the process
ends in a run in which writes succeed, also between a write and the flush after it, the
payloads that are accepted are flushed in order, but for a batch and the lines in the
channel.  The batch is no longer than `max_lines` of the first policy that was set before
the writer started, the default if none was, or one line when that is less; when the first
capacity that was set before the channel was created is `Bounded(n)`, the channel holds no
more than `n` lines, or one when `n` is zero. -/
theorem loss_bounded {capacity : Option ChannelCapacity} {policy : Option FlushPolicy}
    {dropped : UInt64} (h : Run Step (new capacity policy dropped) tr t)
    (hio : ∀ x ∈ tr, x.2.WritesSucceed) {flushed : List UInt8} (hend : FlushedAtEnd tr t flushed) :
    ∃ durable batch, (accepted tr).map Prod.snd = durable ++ batch ++ t.queued ∧
      flushed = durable.flatten ∧
      (batch ≠ [] → ∃ tr₁ r now tr₂, tr = tr₁ ++ (r, .startWriter now) :: tr₂ ∧
        batch.length ≤ max ((policy.or (policies tr₁).head?).getD .default).maxLines.toNat 1) ∧
      ∀ tr₁ r p spawned tr₂ n, tr = tr₁ ++ (r, .initSender p spawned) :: tr₂ →
        capacity.or (capacities tr₁).head? = some (.bounded n) → t.queued.length ≤ max n 1 := by
  have hqueued : ∀ tr₁ r p spawned tr₂ n, tr = tr₁ ++ (r, .initSender p spawned) :: tr₂ →
      capacity.or (capacities tr₁).head? = some (.bounded n) → t.queued.length ≤ max n 1 := by
    rintro tr₁ r p spawned tr₂ n rfl hn
    exact queued_le h hn
  rw [accepted_eq_taken h]
  cases hend with
  | between =>
      cases hw : t.writer.loop with
      | none =>
          have hflushed : t.flushed = ((t.writer.loop.map Writer.buf).getD .new).flushed :=
            congrArg BufWriter.flushed t.writer.buf_eq
          rw [hw] at hflushed
          rw [(batched_none hw).mp (batched_of_run h hio)]
          exact ⟨[], [], rfl, hflushed, fun hne ↦ absurd rfl hne, hqueued⟩
      | some w =>
          obtain ⟨durable, batch, htaken, hflushed, hlt, tr₁, r, now, tr₂, htr, hpolicy⟩ :=
            batch_of_run h hio hw
          rw [hpolicy] at hlt
          refine ⟨durable, batch, by rw [htaken], hflushed, fun hne ↦ ?_, hqueued⟩
          exact ⟨tr₁, r, now, tr₂, htr,
            Nat.le_trans (Nat.le_of_lt (hlt hne)) (Nat.le_max_left _ 1)⟩
  | @within tr₁ s r io tr₂ htr hrest =>
      subst htr
      -- the batch is the one before the last iteration, with the line that it received
      obtain ⟨s', h₁, _ | ⟨hturn, -⟩⟩ := Run.append_iff.mp h
      obtain ⟨w, hw⟩ : ∃ w, s.writer.loop = some w := by
        cases hturn with
        | next hw | ack hw => exact ⟨_, by rw [hw]; rfl⟩
      obtain ⟨durable, batch, htaken, hflushed, hlt, tr', r', now, tr'', rfl, hpolicy⟩ :=
        batch_of_run h₁ (fun x hx ↦ hio x (List.mem_append_left _ hx)) hw
      have hidle : (tr₂.flatMap fun x ↦ x.2.dequeued) = [] := by
        rw [List.flatMap_eq_nil_iff]
        intro x hx
        have hx := hrest x hx
        cases ha : x.2 with
        | turn => exact absurd (ha ▸ trivial) hx
        | _ => rfl
      rw [hpolicy] at hlt
      refine ⟨durable, batch ++ r.lines, ?_, hflushed, fun _ ↦ ?_, hqueued⟩
      · rw [List.flatMap_append, List.flatMap_cons, hidle, List.append_nil, List.flatMap_append,
          htaken, Action.lines_dequeued_turn, List.append_assoc durable]
      · exact ⟨tr', r', now, tr'' ++ (s, .turn r io) :: tr₂, by simp, length_append_lines_le hlt r⟩

/-- Under `FlushPolicy::per_line()`, and a default that comes too late, the process ends
before the flush of its first line, with another one in the channel. -/
theorem loss_bounded_perLine :
    ∃ (t : Pipeline Bool) (durable batch : List (List UInt8)),
      [[1], [2]] = durable ++ batch ++ t.queued ∧ durable.flatten = [] ∧ batch.length ≤ 1 ∧
        t.queued.length ≤ 1 := by
  let io : Surroundings := ⟨none, none, 0, 0⟩
  let before : List (Action Bool) := [.setFlushPolicy false .default, .call true (.submit [1])]
  let after : List (Action Bool) := [.accept true [1], .startWriter 0, .turn (.line [1]) io,
    .call true (.submit [2]), .accept true [2]]
  obtain ⟨tr, t, hrun, hactions, hend⟩ :
      ∃ tr t, Run Step (new (some (.bounded 1)) (some .perLine) 0 : Pipeline Bool) tr t ∧
        tr.map Prod.snd = before ++ .initSender true true :: after ∧ FlushedAtEnd tr t [] := by
    refine ⟨[(_, _), (_, _), (_, _), (_, _), (_, _)] ++ (_, _) :: [(_, _), (_, _)], _,
      .cons (.setFlushPolicy rfl) (.cons (.call rfl) (.cons (.initSender rfl rfl)
      (.cons (.accept rfl rfl rfl) (.cons (.startWriter rfl) (.cons (.next rfl rfl .line rfl)
      (.cons (.call rfl) (.cons (.accept rfl rfl rfl) (.nil _)))))))), rfl, .within rfl ?_⟩
    simp [Action.OfWriter]
  have hio : ∀ a ∈ before ++ .initSender true true :: after, a.WritesSucceed := by
    simp [before, after, io, Action.WritesSucceed, Surroundings.WritesSucceed]
  obtain ⟨durable, batch, haccepted, hflushed, hbatch, hqueued⟩ := loss_bounded hrun
    (fun x hx ↦ hio x.2 (hactions ▸ List.mem_map_of_mem hx)) hend
  rw [accepted, ← List.flatMap_map, hactions] at haccepted
  have hle : batch.length ≤ 1 := by
    by_cases hne : batch = []
    · rw [hne]
      exact Nat.zero_le 1
    · obtain ⟨tr₁, r, now, tr₂, -, hle⟩ := hbatch hne
      exact hle
  obtain ⟨tr₁, _, rfl, -, hrest⟩ := List.map_eq_append_iff.mp hactions
  obtain ⟨⟨r, _⟩, tr₂, rfl, rfl, -⟩ := List.map_eq_cons_iff.mp hrest
  exact ⟨t, durable, batch, haccepted, hflushed.symm, hle, hqueued tr₁ r true true tr₂ 1 rfl rfl⟩

end Pipeline

end WideLog.StdoutEmit
