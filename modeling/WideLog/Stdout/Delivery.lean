import WideLog.Stdout.Pipeline
import Mathlib.Data.List.Nodup

/-!
# What the pipeline delivers

Every payload that is accepted is handed to the buffer of the writer or is still
queued, in the order of acceptance; every other one is counted.  A bounded channel
stays within its bound, and what was accepted before a flush was asked for is flushed
when the flush is acknowledged.
-/

namespace WideLog.StdoutEmit

/-! ## What a step does to the channel and the buffer -/

namespace Job

/-- The payload of a job. -/
def lines : Job → List (List UInt8)
  | .line bytes => [bytes]
  | .flush _ => []

/-- The acknowledgement a job asks for. -/
def acks : Job → List Nat
  | .line _ => []
  | .flush ack => [ack]

end Job

namespace Channel

variable {ch ch' : Channel} {job : Job}

theorem send_ok (h : ch.send job = .ok ch') :
    ¬ ch.Full ∧ ch' = { ch with queue := ch.queue ++ [job] } := by
  unfold send at h
  split_ifs at h with hreceiver hfull
  cases h
  exact ⟨hfull, rfl⟩

theorem trySend_ok (h : ch.trySend job = .ok ch') :
    ¬ ch.Full ∧ ch' = { ch with queue := ch.queue ++ [job] } := by
  unfold trySend at h
  split at h
  · cases h
  · exact send_ok h

theorem offer_ok {bytes : List UInt8} {blocking : Bool}
    (h : Pipeline.offer bytes blocking ch = .ok ch') :
    ¬ ch.Full ∧ ch' = { ch with queue := ch.queue ++ [.line bytes] } := by
  unfold Pipeline.offer at h
  split_ifs at h
  · exact send_ok h
  · exact trySend_ok h

end Channel

/-- The acknowledgement the writer is about to give. -/
def WriterThread.asked : WriterThread → List Nat
  | .acking _ ack => [ack]
  | .absent | .spawned | .looping _ => []

namespace Action

variable {P : Type}

/-- The writes of a step succeed. -/
def WritesSucceed : Action P → Prop
  | .turn _ io => io.WritesSucceed
  | _ => True

/-- The job a step puts into the channel. -/
def enqueued : Action P → List Job
  | .accept _ bytes => [.line bytes]
  | .sendFlush _ ack => [.flush ack]
  | _ => []

/-- The job a step takes from the channel. -/
def dequeued : Action P → List Job
  | .turn (.line bytes) _ => [.line bytes]
  | .turn (.flush ack) _ => [.flush ack]
  | _ => []

/-- The payload a step accepts, and whose it is. -/
def accepted : Action P → List (P × List UInt8)
  | .accept p bytes => [(p, bytes)]
  | _ => []

/-- The payload a step rejects, and whose it is. -/
def rejected : Action P → List (P × List UInt8)
  | .reject p bytes => [(p, bytes)]
  | _ => []

theorem lines_enqueued (a : Action P) : a.enqueued.flatMap Job.lines = a.accepted.map Prod.snd := by
  cases a <;> rfl

variable [DecidableEq P]

/-- The payload a thread calls the module with. -/
def called (p : P) : Action P → List (List UInt8)
  | .call q c => if q = p then c.payload else []
  | _ => []

/-- The payload a thread gets rid of, accepted or rejected. -/
def settled (p : P) : Action P → List (List UInt8)
  | .accept q bytes | .reject q bytes => if q = p then [bytes] else []
  | _ => []

end Action

namespace Pipeline

variable {P : Type}

section Views

variable (s : Pipeline P)

/-- The payloads in the channel. -/
def queued : List (List UInt8) := s.jobs.flatMap Job.lines

/-- The bytes handed to the buffer of the writer. -/
def handed : List UInt8 := s.writer.buf.handed

/-- The bytes that were flushed. -/
def flushed : List UInt8 := s.writer.buf.flushed

end Views

/-- The payloads that are accepted in a run, in order. -/
def accepted (tr : List (Pipeline P × Action P)) : List (P × List UInt8) :=
  tr.flatMap fun x ↦ x.2.accepted

/-- The payloads that are rejected in a run. -/
def rejected (tr : List (Pipeline P × Action P)) : List (P × List UInt8) :=
  tr.flatMap fun x ↦ x.2.rejected

/-- The payloads of the calls of a thread in a run, in program order. -/
def called [DecidableEq P] (p : P) (tr : List (Pipeline P × Action P)) : List (List UInt8) :=
  tr.flatMap fun x ↦ x.2.called p

/-- The payloads of a thread that are accepted or rejected in a run. -/
def settled [DecidableEq P] (p : P) (tr : List (Pipeline P × Action P)) : List (List UInt8) :=
  tr.flatMap fun x ↦ x.2.settled p

variable {s s' t : Pipeline P} {a : Action P} {tr : List (Pipeline P × Action P)}

theorem jobs_some {ch : Channel} (h : s.sender = some ch) : s.jobs = ch.queue := by
  rw [jobs, h]
  rfl

/-- The channel is bounded, and within its bound. -/
def Within (bound : Nat) (s : Pipeline P) : Prop :=
  ∃ ch, s.sender = some ch ∧ ch.bound = some bound ∧ ch.queue.length ≤ bound

/-- A channel that is not full has a slot. -/
theorem within_push {bound : Nat} {ch : Channel} {job : Job} (hs : s.Within bound)
    (hch : s.sender = some ch) (hfull : ¬ ch.Full) :
    ch.bound = some bound ∧ (ch.queue ++ [job]).length ≤ bound := by
  obtain ⟨_, hsender, hbound, -⟩ := hs
  cases hch.symm.trans hsender
  refine ⟨hbound, ?_⟩
  rw [List.length_append]
  by_contra hlong
  exact hfull ⟨bound, hbound, Nat.le_of_lt_succ (Nat.lt_of_not_le hlong)⟩

/-- The acknowledgements that are asked for. -/
def asked (s : Pipeline P) : List Nat := s.writer.asked ++ s.jobs.flatMap Job.acks

/-- Every flush asks for an acknowledgement of its own. -/
def Fresh (s : Pipeline P) : Prop := s.asked.Nodup ∧ ∀ k ∈ s.asked, k < s.acks

theorem asked_some {ch : Channel} (h : s.sender = some ch) :
    s.asked = s.writer.asked ++ ch.queue.flatMap Job.acks := by
  rw [asked, jobs_some h]

/-- A job that is put into the channel asks for its acknowledgement. -/
theorem asked_push {ch : Channel} (job : Job) (hch : s.sender = some ch)
    (hpush : s'.sender = some { ch with queue := ch.queue ++ [job] }) (hw : s'.writer = s.writer) :
    s'.asked = s.asked ++ job.acks := by
  rw [asked_some hch, asked_some hpush, hw]
  show _ ++ (ch.queue ++ [job]).flatMap Job.acks = _
  rw [List.flatMap_append, List.append_assoc]
  exact congrArg _ (congrArg _ (List.append_nil _))

theorem Fresh.push (hs : s.Fresh) (h : s'.asked = s.asked ++ [s.acks])
    (hacks : s'.acks = s.acks + 1) : s'.Fresh := by
  have hnew : s.acks ∉ s.asked := fun hmem ↦ Nat.lt_irrefl _ (hs.2 _ hmem)
  rw [Fresh, h, hacks]
  refine ⟨List.nodup_append.mpr ⟨hs.1, List.nodup_singleton _, ?_⟩, ?_⟩
  · rintro k hk _ hmem rfl
    exact hnew (List.mem_singleton.mp hmem ▸ hk)
  · intro k hk
    rcases List.mem_append.mp hk with hk | hk
    · exact Nat.lt_succ_of_lt (hs.2 k hk)
    · exact List.mem_singleton.mp hk ▸ Nat.lt_succ_self _

theorem Fresh.mono (hs : s.Fresh) (h : s'.asked.Sublist s.asked)
    (hacks : s'.acks = s.acks) : s'.Fresh :=
  ⟨hs.1.sublist h, fun k hk ↦ hacks ▸ hs.2 k (h.subset hk)⟩

theorem Fresh.congr (hs : s.Fresh) (h : s'.asked = s.asked) (hacks : s'.acks = s.acks) :
    s'.Fresh :=
  hs.mono (h ▸ List.Sublist.refl _) hacks

theorem dequeued_cases (a : Action P) : a.dequeued = [] ∨ ∃ j, a.dequeued = [j] := by
  cases a with
  | turn r => cases r <;> simp [Action.dequeued]
  | _ => exact .inl rfl

variable [DecidableEq P]

/-- The channel is a queue. -/
theorem Step.jobs (h : Step s a s') : s.jobs ++ a.enqueued = a.dequeued ++ s'.jobs := by
  cases h with
  | initSender _ hnone =>
      show s.sender.elim [] Channel.queue ++ [] = Channel.queue (initChannel s _)
      rw [hnone, initChannel]
      split <;> rfl
  | accept _ hch hsent =>
      rw [jobs_some hch, (Channel.offer_ok hsent).2]
      rfl
  | sendFlush _ hch hsent =>
      rw [jobs_some hch, (Channel.send_ok hsent).2]
      rfl
  | next _ hch hrecv hturn =>
      rw [jobs_some hch]
      cases hrecv with
      | line => exact List.append_nil _
      | flush => cases hturn
      | timeout => exact List.append_nil _
  | ack _ hch hrecv hturn =>
      rw [jobs_some hch]
      cases hrecv with
      | line => cases hturn
      | flush => exact List.append_nil _
      | timeout => cases hturn
  | _ => exact List.append_nil _

/-- Without a channel there is no writer. -/
def Lazy (s : Pipeline P) : Prop := s.sender = none → s.writer = .absent

theorem Step.lazy (h : Step s a s') (hs : s.Lazy) : s'.Lazy := by
  cases h with
  | acknowledge _ hw =>
      intro hnone
      cases hw.symm.trans (hs hnone)
  | startWriter hw =>
      intro hnone
      cases hw.symm.trans (hs hnone)
  | initSender => nofun
  | accept => nofun
  | sendFlush => nofun
  | next => nofun
  | ack => nofun
  | _ => exact hs

/-- The lines taken from the channel are handed to the buffer. -/
theorem Step.handed (h : Step s a s') (hio : a.WritesSucceed) (hs : s.Lazy) :
    s'.handed = s.handed ++ (a.dequeued.flatMap Job.lines).flatten ∧ s.flushed <+: s'.flushed := by
  cases h with
  | @initSender _ _ _ spawned _ hnone =>
      have hw : s.writer = .absent := hs hnone
      have hnew : (if spawned then WriterThread.spawned else .absent).buf = s.writer.buf := by
        rw [hw]
        cases spawned <;> rfl
      unfold Pipeline.handed Pipeline.flushed
      rw [hnew]
      exact ⟨(List.append_nil _).symm, List.prefix_rfl⟩
  | acknowledge _ hw | startWriter hw =>
      unfold Pipeline.handed Pipeline.flushed
      rw [hw]
      exact ⟨(List.append_nil _).symm, List.prefix_rfl⟩
  | next hw _ hrecv hturn =>
      unfold Pipeline.handed Pipeline.flushed
      rw [hw]
      cases hrecv with
      | line =>
          cases hturn
          obtain ⟨hhanded, hprefix⟩ := Writer.line_buf hio _
          exact ⟨hhanded.trans (congrArg _ (List.append_nil _).symm), hprefix⟩
      | flush => cases hturn
      | timeout =>
          cases hturn
          obtain ⟨hhanded, hprefix⟩ := Writer.timeout_buf hio
          exact ⟨hhanded.trans (List.append_nil _).symm, hprefix⟩
  | ack hw _ hrecv hturn =>
      unfold Pipeline.handed Pipeline.flushed
      rw [hw]
      cases hrecv with
      | line => cases hturn
      | flush =>
          cases hturn
          obtain ⟨hhanded, hprefix⟩ := Writer.flush_or hio (.inl rfl)
          exact ⟨hhanded.trans (List.append_nil _).symm, hprefix⟩
      | timeout => cases hturn
  | _ => exact ⟨(List.append_nil _).symm, List.prefix_rfl⟩

/-! ## What a run does -/

/-- What is put into the channel is taken from it in the same order, or still in it. -/
theorem jobs_of_run (h : Run Step s tr t) :
    s.jobs ++ tr.flatMap (fun x ↦ x.2.enqueued) = tr.flatMap (fun x ↦ x.2.dequeued) ++ t.jobs :=
  h.fifo (I := fun _ ↦ True) (C := fun _ _ ↦ True) jobs Action.enqueued Action.dequeued
    (fun _ _ _ ↦ trivial) (fun ha _ _ ↦ ha.jobs) trivial (fun _ _ ↦ trivial)

theorem lazy_of_run (h : Run Step s tr t) (hs : s.Lazy) : ∀ r ∈ Run.states tr t, r.Lazy :=
  h.always (I := Lazy) Step.lazy hs

theorem handed_of_run (h : Run Step s tr t) (hs : s.Lazy) (hio : ∀ x ∈ tr, x.2.WritesSucceed) :
    t.handed = s.handed ++
      ((tr.flatMap fun x ↦ x.2.dequeued).flatMap Job.lines).flatten := by
  have hbytes := h.fifo (I := Lazy) (C := fun _ a ↦ a.WritesSucceed) Pipeline.handed
    (fun a ↦ (a.dequeued.flatMap Job.lines).flatten) (fun _ ↦ []) (fun ha _ ↦ ha.lazy)
    (fun ha hC hI ↦ (ha.handed hC hI).1.symm) hs hio
  have hnone : tr.flatMap (fun _ ↦ ([] : List UInt8)) = [] :=
    List.flatMap_eq_nil_iff.mpr fun _ _ ↦ rfl
  rw [hnone, List.nil_append] at hbytes
  simp only [List.flatten_eq_flatMap, List.flatMap_assoc] at hbytes ⊢
  exact hbytes.symm

/-- From a process that has not used the module: what was accepted is what was handed to
the buffer and what is queued. -/
theorem accepted_of_run {capacity : Option ChannelCapacity} {policy : Option FlushPolicy}
    {dropped : UInt64} (h : Run Step (new capacity policy dropped) tr t)
    (hio : ∀ x ∈ tr, x.2.WritesSucceed) :
    ∃ written, (accepted tr).map Prod.snd = written ++ t.queued ∧ t.handed = written.flatten := by
  refine ⟨(tr.flatMap fun x ↦ x.2.dequeued).flatMap Job.lines, ?_, ?_⟩
  · have hlines := congrArg (List.flatMap Job.lines) (jobs_of_run h)
    rw [List.flatMap_append, List.flatMap_append, List.flatMap_assoc] at hlines
    rw [accepted, List.map_flatMap]
    simp only [← Action.lines_enqueued]
    exact hlines
  · exact handed_of_run h (fun _ ↦ rfl) hio

/-! ## Every call -/

theorem producers_go (p q : P) (next : Producer) :
    (s.go q next).producers p = if p = q then next else s.producers p :=
  Function.update_apply ..

/-- A thread that moves on holds what it held, and what it is called with, but for what
it gets rid of. -/
theorem inHand_go {p q : P} {next : Producer} (called settled : List (List UInt8))
    (h : (s.producers q).inHand ++ called = settled ++ next.inHand) :
    (s.producers p).inHand ++ (if q = p then called else []) =
      (if q = p then settled else []) ++ ((s.go q next).producers p).inHand := by
  rw [producers_go]
  by_cases hpq : q = p
  · subst hpq
    simpa using h
  · rw [if_neg hpq, if_neg hpq, if_neg (Ne.symm hpq), List.append_nil]
    rfl

theorem Step.inHand (h : Step s a s') (p : P) :
    (s.producers p).inHand ++ a.called p = a.settled p ++ (s'.producers p).inHand := by
  cases h with
  | @call _ c hidle =>
      simpa [Action.called, Action.settled] using inHand_go c.payload []
        (by rw [hidle]; cases c <;> rfl)
  | accept hphase | reject hphase =>
      simpa [Action.called, Action.settled] using inHand_go [] [_] (by rw [hphase]; rfl)
  | refuse hphase | skipFlush hphase | sendFlush hphase | acknowledge hphase =>
      simpa [Action.called, Action.settled] using inHand_go [] [] (by rw [hphase]; rfl)
  | _ => exact List.append_nil _

theorem called_of_run (h : Run Step s tr t) (p : P) :
    (s.producers p).inHand ++ called p tr = settled p tr ++ (t.producers p).inHand :=
  h.fifo (I := fun _ ↦ True) (C := fun _ _ ↦ True) (fun s ↦ (s.producers p).inHand)
    (Action.called p) (Action.settled p) (fun _ _ _ ↦ trivial) (fun ha _ _ ↦ ha.inHand p) trivial
    (fun _ _ ↦ trivial)

/-- What is accepted of a thread is settled, in the same order. -/
theorem accepted_sublist_settled (p : P) (tr : List (Pipeline P × Action P)) :
    (((accepted tr).filter (·.1 = p)).map Prod.snd).Sublist (settled p tr) := by
  induction tr with
  | nil => exact List.Sublist.refl _
  | cons x tr ih =>
      have hx : ((x.2.accepted.filter (·.1 = p)).map Prod.snd).Sublist (x.2.settled p) := by
        obtain ⟨r, a⟩ := x
        cases a with
        | accept q bytes =>
            by_cases hq : q = p
            · simp [Action.accepted, Action.settled, hq]
            · simp [Action.accepted, Action.settled, hq]
        | _ => exact List.nil_sublist _
      show (((x.2.accepted ++ accepted tr).filter (·.1 = p)).map Prod.snd).Sublist
        (x.2.settled p ++ settled p tr)
      rw [List.filter_append, List.map_append]
      exact hx.append ih

theorem Step.dropped (h : Step s a s') : s'.dropped = s.dropped + .ofNat a.rejected.length := by
  cases h with
  | reject => rfl
  | _ => exact (UInt64.add_zero _).symm

/-- The counter counts what is rejected. -/
theorem dropped_of_run (h : Run Step s tr t) :
    t.dropped = s.dropped + .ofNat (rejected tr).length := by
  induction h with
  | nil => exact (UInt64.add_zero _).symm
  | @cons s s' t a tr ha _ ih =>
      show t.dropped = s.dropped + .ofNat (a.rejected ++ rejected tr).length
      rw [ih, ha.dropped, List.length_append, UInt64.ofNat_add, UInt64.add_assoc]

/-! ## The bound -/

theorem Step.within {bound : Nat} (h : Step s a s') (hs : s.Within bound) : s'.Within bound := by
  cases h with
  | initSender _ hnone =>
      obtain ⟨_, hsender, -⟩ := hs
      cases hnone.symm.trans hsender
  | accept _ hch hsent =>
      obtain ⟨hfull, rfl⟩ := Channel.offer_ok hsent
      exact ⟨_, rfl, within_push hs hch hfull⟩
  | sendFlush _ hch hsent =>
      obtain ⟨hfull, rfl⟩ := Channel.send_ok hsent
      exact ⟨_, rfl, within_push hs hch hfull⟩
  | next _ hch hrecv | ack _ hch hrecv =>
      obtain ⟨_, hsender, hbound, hlength⟩ := hs
      cases hch.symm.trans hsender
      refine ⟨_, rfl, ?_⟩
      cases hrecv with
      | line | flush => exact ⟨hbound, Nat.le_of_succ_le hlength⟩
      | timeout => exact ⟨hbound, hlength⟩
  | _ => exact hs

/-- Once the channel is created with a bound, it stays within it. -/
theorem within_of_run {n : Nat} {r : Pipeline P} {p : P} {spawned : Bool} (h : Run Step s tr t)
    (hmem : (r, .initSender p spawned) ∈ tr) (hn : r.currentChannelCapacity = .bounded n) :
    t.Within (max n 1) := by
  obtain ⟨tr₁, tr₂, rfl⟩ := List.append_of_mem hmem
  obtain ⟨_, -, hrun⟩ := Run.append_iff.mp h
  rcases hrun with _ | ⟨hinit, hrest⟩
  refine hrest.always (I := Within (max n 1)) Step.within ?_ t (Run.mem_states_last _ _)
  cases hinit
  refine ⟨_, rfl, ?_⟩
  rw [initChannel, hn]
  exact ⟨rfl, Nat.zero_le _⟩

/-! ## The acknowledgement of a flush -/

theorem Step.fresh (h : Step s a s') (hs : s.Fresh) : s'.Fresh := by
  cases h with
  | initSender =>
      refine hs.mono ?_ rfl
      have hasked : ∀ r : Pipeline P, r.jobs = [] → r.writer.asked = [] → r.asked = [] := by
        intro r hjobs hwriter
        rw [asked, hjobs, hwriter]
        rfl
      rw [hasked]
      · exact List.nil_sublist _
      · show Channel.queue (initChannel s _) = []
        rw [initChannel]
        split <;> rfl
      · show WriterThread.asked (if _ then _ else _) = _
        split_ifs <;> rfl
  | accept _ hch hsent =>
      obtain ⟨-, rfl⟩ := Channel.offer_ok hsent
      refine hs.congr (Eq.trans ?_ (List.append_nil _)) rfl
      exact asked_push (.line _) hch rfl rfl
  | sendFlush _ hch hsent =>
      obtain ⟨-, rfl⟩ := Channel.send_ok hsent
      exact hs.push (asked_push (.flush _) hch rfl rfl) rfl
  | acknowledge _ hw | startWriter hw =>
      refine hs.mono ?_ rfl
      unfold asked
      rw [hw]
      exact List.Sublist.append_right (List.nil_sublist _) _
  | next hw hch hrecv hturn =>
      refine hs.congr ?_ rfl
      rw [asked_some hch, hw]
      cases hrecv with
      | line | timeout => rfl
      | flush => cases hturn
  | ack hw hch hrecv hturn =>
      refine hs.congr ?_ rfl
      rw [asked_some hch, hw]
      cases hrecv with
      | line | timeout => cases hturn
      | flush =>
          cases hturn
          rfl
  | _ => exact hs

/-- The bytes `pre` are flushed, or handed to the buffer or queued ahead of the flush
that asks for the acknowledgement `k`. -/
def Ahead (k : Nat) (pre : List UInt8) (s : Pipeline P) : Prop :=
  (∃ q₁ q₂, s.jobs = q₁ ++ .flush k :: q₂ ∧
    pre <+: s.handed ++ (q₁.flatMap Job.lines).flatten) ∨ pre <+: s.flushed

/-- A flush that is taken from the channel flushes all that was handed to the buffer. -/
theorem Step.flushed {k : Nat} (h : Step s a s') (hio : a.WritesSucceed)
    (hk : a.dequeued = [.flush k]) : s'.flushed = s'.handed := by
  cases h with
  | next _ _ hrecv hturn =>
      cases hrecv with
      | line | timeout => cases hk
      | flush => cases hturn
  | ack _ _ hrecv hturn =>
      cases hrecv with
      | line | timeout => cases hturn
      | flush =>
          cases hturn
          show (Writer.flush _ _).buf.flushed = (Writer.flush _ _).buf.handed
          rw [Writer.flush_buf hio]
          exact (List.append_nil _).symm
  | _ => cases hk

theorem Step.ahead {k : Nat} {pre : List UInt8} (h : Step s a s') (hio : a.WritesSucceed)
    (hs : s.Lazy) (hpre : s.Ahead k pre) : s'.Ahead k pre := by
  obtain ⟨hhanded, hflushed⟩ := h.handed hio hs
  rcases hpre with ⟨q₁, q₂, hjobs, hpre⟩ | hpre
  · have hqueue := h.jobs
    rw [hjobs] at hqueue
    rcases dequeued_cases a with hnone | ⟨j, hj⟩
    · rw [hnone] at hqueue hhanded
      refine .inl ⟨q₁, q₂ ++ a.enqueued, ?_, ?_⟩
      · rw [← List.nil_append s'.jobs, ← hqueue]
        simp
      · rw [hhanded]
        simpa using hpre
    · rw [hj] at hqueue hhanded
      cases q₁ with
      | nil =>
          obtain ⟨rfl, -⟩ := List.cons.inj hqueue
          refine .inr ?_
          rw [h.flushed hio hj, hhanded]
          exact hpre
      | cons j' q₁ =>
          obtain ⟨rfl, hrest⟩ := List.cons.inj hqueue
          refine .inl ⟨q₁, q₂ ++ a.enqueued, ?_, ?_⟩
          · exact hrest.symm.trans (List.append_assoc _ _ _)
          · rw [hhanded]
            simpa using hpre
  · exact .inr (hpre.trans hflushed)

/-- When a flush is acknowledged, what was accepted before it was asked for is flushed. -/
theorem flushed_of_acknowledge {capacity : Option ChannelCapacity} {policy : Option FlushPolicy}
    {dropped : UInt64} {tr₁ tr₂ : List (Pipeline P × Action P)} {r r' : Pipeline P} {p q : P}
    {k : Nat} (h : Run Step (new capacity policy dropped) (tr₁ ++ (r, .sendFlush p k) :: tr₂) r')
    (hack : Step r' (.acknowledge q k) t)
    (hio : ∀ x ∈ tr₁ ++ (r, .sendFlush p k) :: tr₂, x.2.WritesSucceed) :
    ((accepted tr₁).map Prod.snd).flatten <+: r'.flushed := by
  have hfresh : r'.Fresh := h.always (I := Fresh) Step.fresh ⟨List.nodup_nil, nofun⟩ r'
    (Run.mem_states_last _ _)
  obtain ⟨s, h₁, hrun⟩ := Run.append_iff.mp h
  rcases hrun with _ | ⟨hsend, h₂⟩
  rw [List.forall_mem_append, List.forall_mem_cons] at hio
  obtain ⟨hio₁, -, hio₂⟩ := hio
  obtain ⟨written, haccepted, hhanded⟩ := accepted_of_run h₁ hio₁
  have hlazy := lazy_of_run h₁ (fun _ ↦ rfl) _ (Run.mem_states_last _ _)
  let pre := ((accepted tr₁).map Prod.snd).flatten
  have hahead : r'.Ahead k pre := by
    refine (h₂.invariant (I := fun s ↦ s.Lazy ∧ s.Ahead k pre) (C := fun _ a ↦ a.WritesSucceed)
      (fun ha hC hI ↦ ⟨ha.lazy hI.1, ha.ahead hC hI.1 hI.2⟩) ⟨hsend.lazy hlazy, ?_⟩ hio₂ r'
      (Run.mem_states_last _ _)).2
    refine .inl ⟨r.jobs, [], ?_, ?_⟩
    · have hjobs := hsend.jobs
      exact hjobs.symm
    · show ((accepted tr₁).map Prod.snd).flatten <+: _
      rw [(hsend.handed trivial hlazy).1, haccepted, List.flatten_append, ← hhanded]
      show _ <+: (r.handed ++ []) ++ _
      rw [List.append_nil]
      exact List.prefix_rfl
  rcases hahead with ⟨q₁, q₂, hjobs, -⟩ | hflushed
  · exfalso
    cases hack with
    | acknowledge _ hw =>
        have hnodup := hfresh.1
        rw [asked, hw, hjobs] at hnodup
        exact (List.nodup_cons.mp hnodup).1 (by simp [Job.acks])
  · exact hflushed

/-- **The pipeline loses, duplicates and reorders nothing.**  After any run in which
writes succeed, the buffer was handed the payloads that were accepted, in order, up to
those that are queued; each thread has its payloads accepted or rejected in program
order, up to the one it holds; the counter has grown by the number of rejected ones;
a channel created with `Bounded(n)` is within its bound; and what was accepted before
a flush was sent was flushed when it is acknowledged. -/
theorem pipeline_delivers {capacity : Option ChannelCapacity} {policy : Option FlushPolicy}
    {dropped : UInt64} (h : Run Step (new capacity policy dropped) tr t)
    (hio : ∀ x ∈ tr, x.2.WritesSucceed) :
    (∃ written, (accepted tr).map Prod.snd = written ++ t.queued ∧ t.handed = written.flatten) ∧
      (∀ p, called p tr = settled p tr ++ (t.producers p).inHand ∧
        (((accepted tr).filter (·.1 = p)).map Prod.snd).Sublist (called p tr)) ∧
      t.dropped = dropped + .ofNat (rejected tr).length ∧
      (∀ r p spawned n, (r, .initSender p spawned) ∈ tr → r.currentChannelCapacity = .bounded n →
        t.jobs.length ≤ max n 1) ∧
      ∀ tr₁ tr₂ tr₃ r r' p q k,
        tr = tr₁ ++ (r, .sendFlush p k) :: tr₂ ++ (r', .acknowledge q k) :: tr₃ →
          ((accepted tr₁).map Prod.snd).flatten <+: r'.flushed := by
  refine ⟨accepted_of_run h hio, ?_, dropped_of_run h, ?_, ?_⟩
  · intro p
    have hcalled : called p tr = _ := called_of_run h p
    refine ⟨hcalled, (accepted_sublist_settled p tr).trans ?_⟩
    rw [hcalled]
    exact List.sublist_append_left _ _
  · intro r p spawned n hmem hn
    obtain ⟨ch, hch, -, hlength⟩ := within_of_run h hmem hn
    rw [jobs_some hch]
    exact hlength
  · rintro tr₁ tr₂ tr₃ r r' p q k rfl
    obtain ⟨_, h₁, hrun⟩ := Run.append_iff.mp h
    rcases hrun with _ | ⟨hack, -⟩
    exact flushed_of_acknowledge h₁ hack fun x hx ↦ hio x (List.mem_append_left _ hx)

/-- A channel of one slot, full when a second thread tries to submit, and a flush. -/
theorem pipeline_delivers_bounded :
    ∃ r t : Pipeline Bool, t.handed = [1] ∧ t.dropped = 1 ∧ t.jobs.length ≤ 1 ∧
      [1] <+: r.flushed := by
  let io : Surroundings := ⟨none, none, 0, 0⟩
  let before : List (Action Bool) := [.call true (.submit [1]), .initSender true true,
    .accept true [1], .call false (.trySubmit [2]), .refuse false [2], .reject false [2],
    .startWriter 0, .turn (.line [1]) io, .call true .flush]
  obtain ⟨tr, t, hrun, hactions, hqueued, s, hinit, hn⟩ :
      ∃ tr t, Run Step (new (some (.bounded 0)) none 0 : Pipeline Bool) tr t ∧
        tr.map Prod.snd = before ++
          .sendFlush true 0 :: ([.turn (.flush 0) io] ++ [.acknowledge true 0]) ∧
        t.queued = [] ∧
        ∃ s, (s, .initSender true true) ∈ tr ∧ s.currentChannelCapacity = .bounded 0 :=
    ⟨_, _, .cons (.call rfl) (.cons (.initSender rfl rfl) (.cons (.accept rfl rfl rfl)
      (.cons (.call rfl) (.cons (.refuse rfl rfl rfl) (.cons (.reject rfl) (.cons (.startWriter rfl)
      (.cons (.next rfl rfl .line rfl) (.cons (.call rfl) (.cons (.sendFlush rfl rfl rfl)
      (.cons (.ack rfl rfl .flush rfl) (.cons (.acknowledge rfl rfl) (.nil _)))))))))))), rfl, rfl,
      _, List.Mem.tail _ (List.Mem.head _), rfl⟩
  have hio : ∀ a ∈ before ++ .sendFlush true 0 :: ([.turn (.flush 0) io] ++ [.acknowledge true 0]),
      a.WritesSucceed := by
    simp [before, io, Action.WritesSucceed, Surroundings.WritesSucceed]
  obtain ⟨⟨written, haccepted, hhanded⟩, -, hdropped, hbound, hflush⟩ := pipeline_delivers hrun
    fun x hx ↦ hio x.2 (hactions ▸ List.mem_map_of_mem hx)
  rw [accepted, ← List.flatMap_map, hactions, hqueued, List.append_nil] at haccepted
  rw [rejected, ← List.flatMap_map, hactions] at hdropped
  obtain ⟨tr₁, _, rfl, h₁, hrest⟩ := List.map_eq_append_iff.mp hactions
  obtain ⟨⟨r, _⟩, _, rfl, rfl, hafter⟩ := List.map_eq_cons_iff.mp hrest
  obtain ⟨tr₂, _, rfl, -, hlast⟩ := List.map_eq_append_iff.mp hafter
  obtain ⟨⟨r', _⟩, tr₃, rfl, rfl, -⟩ := List.map_eq_cons_iff.mp hlast
  refine ⟨r', t, ?_, hdropped, hbound s true true 0 hinit hn, ?_⟩
  · rw [hhanded, ← haccepted]
    rfl
  · have hprefix := hflush tr₁ tr₂ tr₃ r r' true true 0 (by simp)
    rw [accepted, ← List.flatMap_map, h₁] at hprefix
    exact hprefix

end Pipeline

end WideLog.StdoutEmit
