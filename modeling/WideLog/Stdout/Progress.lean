import WideLog.Stdout.Delivery
import Mathlib.Algebra.BigOperators.Group.Finset.Basic
import Mathlib.Algebra.GroupWithZero.Nat
import Mathlib.Data.Finset.Insert

/-!
# Every call returns

A thread that submits may wait for a slot of a bounded channel, and a thread that flushes
waits for the writer, which waits for it in turn when it acknowledges.  No such wait goes
on for ever: a call takes so many steps and no more, those of the writer included, and as
long as a thread is in the module or a job in the channel some step of it, or of the
writer, can be taken.
-/

namespace WideLog.StdoutEmit

variable {P : Type}

namespace Action

/-- The acknowledgement a step asks for. -/
def asking : Action P → List Nat
  | .sendFlush _ ack => [ack]
  | _ => []

/-- The acknowledgement a step gives. -/
def answering : Action P → List Nat
  | .acknowledge _ ack => [ack]
  | _ => []

end Action

namespace Channel

variable {ch : Channel}

theorem send_receiver {ch' : Channel} {job : Job} (h : ch.send job = .ok ch') :
    ch.receiver = true := by
  unfold send at h
  split_ifs at h with hreceiver
  exact Bool.eq_true_of_not_eq_false hreceiver

theorem offer_receiver {ch' : Channel} {bytes : List UInt8} {blocking : Bool}
    (h : Pipeline.offer bytes blocking ch = .ok ch') : ch.receiver = true := by
  cases blocking with
  | true => exact send_receiver h
  | false =>
      cases hsend : ch.send (.line bytes) with
      | ok => exact send_receiver hsend
      | err | blocked =>
          rw [Pipeline.offer, if_neg Bool.false_ne_true, trySend, hsend] at h
          cases h

end Channel

/-! ## What is left to do -/

/-- The steps a thread has to take, and those it makes the writer take. -/
def Producer.work : Producer → Nat
  | .idle | .awaiting _ => 0
  | .dropping _ => 1
  | .sending _ _ => 2
  | .flushing => 3

/-- The steps a job makes the writer take. -/
def Job.work : Job → Nat
  | .line _ => 1
  | .flush _ => 2

/-- The steps that creating the channel takes, with the start of the writer, and those the
jobs in it make the writer take. -/
def senderWork : Option Channel → Nat
  | none => 2
  | some ch => (ch.queue.map Job.work).sum

/-- The steps the writer has to take besides. -/
def WriterThread.work : WriterThread → Nat
  | .absent | .looping _ => 0
  | .spawned | .acking _ _ => 1

namespace Pipeline

/-- What is left to do for the channel and for the writer. -/
def commonWork (s : Pipeline P) : Nat := senderWork s.sender + s.writer.work

/-- So much is left to do, for the threads that are in the module and in common. -/
def Owes (s : Pipeline P) (n : Nat) : Prop :=
  ∃ threads : Finset P, (∀ p ∉ threads, s.producers p = .idle) ∧
    ∑ p ∈ threads, (s.producers p).work + s.commonWork = n

variable {s s' t : Pipeline P} {a : Action P} {tr : List (Pipeline P × Action P)} {n : Nat}

variable [DecidableEq P]

/-- What a step leaves to do that moves a thread on. -/
theorem Owes.go {x y : Nat} {p : P} {next : Producer} (hs : s.Owes n)
    (hproducers : s'.producers = (s.go p next).producers)
    (hle : next.work + s'.commonWork + x ≤ (s.producers p).work + s.commonWork + y) :
    ∃ m, s'.Owes m ∧ m + x ≤ n + y := by
  obtain ⟨threads, hidle, rfl⟩ := hs
  have hrest : ∑ q ∈ threads.erase p, (s'.producers q).work =
      ∑ q ∈ threads.erase p, (s.producers q).work := by
    refine Finset.sum_congr rfl fun q hq ↦ ?_
    rw [hproducers, producers_go, if_neg (Finset.ne_of_mem_erase hq)]
  have hnext : s'.producers p = next := by rw [hproducers, producers_go, if_pos rfl]
  -- A thread that was not in the module had nothing left to do.
  have hold : ∑ q ∈ threads, (s.producers q).work =
      (s.producers p).work + ∑ q ∈ threads.erase p, (s.producers q).work := by
    by_cases hp : p ∈ threads
    · exact (Finset.add_sum_erase _ _ hp).symm
    · rw [hidle p hp, Finset.erase_eq_of_notMem hp]
      exact (Nat.zero_add _).symm
  refine ⟨_, ⟨insert p threads, ?_, rfl⟩, ?_⟩
  · intro q hq
    rw [Finset.mem_insert, not_or] at hq
    rw [hproducers, producers_go, if_neg hq.1]
    exact hidle q hq.2
  · rw [← Finset.add_sum_erase _ _ (Finset.mem_insert_self p threads),
      Finset.erase_insert_eq_erase, hrest, hnext, hold]
    omega

/-- Each acknowledgement that is asked for is waited for by one thread, and nobody waits for
another. -/
structure Awaited (s : Pipeline P) : Prop where
  awaits : ∀ k ∈ s.asked, ∃ p, s.producers p = .awaiting k
  asks : ∀ {p k}, s.producers p = .awaiting k → k ∈ s.asked
  unique : ∀ {p q k}, s.producers p = .awaiting k → s.producers q = .awaiting k → p = q

/-- An empty channel has a slot, and when no writer reads it, it takes nothing. -/
structure Served (s : Pipeline P) : Prop where
  slot : ∀ {ch}, s.sender = some ch → ∀ n, ch.bound = some n → 0 < n
  unread : ∀ {ch}, s.sender = some ch → s.writer = .absent → ch.receiver = false ∧ ch.queue = []

omit [DecidableEq P] in
theorem Awaited.congr (hs : s.Awaited) (hasked : s'.asked = s.asked)
    (hproducers : ∀ p k, s'.producers p = .awaiting k ↔ s.producers p = .awaiting k) :
    s'.Awaited where
  awaits k hk := by
    obtain ⟨p, hp⟩ := hs.awaits k (hasked ▸ hk)
    exact ⟨p, (hproducers p k).mpr hp⟩
  asks hp := hasked ▸ hs.asks ((hproducers _ _).mp hp)
  unique hp hq := hs.unique ((hproducers _ _).mp hp) ((hproducers _ _).mp hq)

/-- A thread that moves on awaits nothing, when it did not before and does not after. -/
theorem awaiting_go {p q : P} {next : Producer} {k : Nat} (hq : s.producers q ≠ .awaiting k)
    (hnext : next ≠ .awaiting k) :
    (s.go q next).producers p = .awaiting k ↔ s.producers p = .awaiting k := by
  rw [producers_go]
  split_ifs with hpq
  · subst hpq
    exact iff_of_false hnext hq
  · exact Iff.rfl

/-- A thread asks for an acknowledgement that nobody asked for. -/
theorem Awaited.ask {p : P} {k : Nat} (hs : s.Awaited)
    (hproducers : s'.producers = (s.go p (.awaiting k)).producers)
    (hp : ∀ j, s.producers p ≠ .awaiting j) (hasked : s'.asked = s.asked ++ [k])
    (hk : k ∉ s.asked) : s'.Awaited := by
  have hiff (q : P) (j : Nat) :
      s'.producers q = .awaiting j ↔ (q = p ∧ k = j) ∨ s.producers q = .awaiting j := by
    rw [hproducers, producers_go]
    split_ifs with hq
    · subst hq
      simp [hp]
    · simp [hq]
  refine ⟨fun j hj ↦ ?_, fun {q j} hq ↦ ?_, fun {q r j} hq hr ↦ ?_⟩
  · rw [hasked, List.mem_append, List.mem_singleton] at hj
    rcases hj with hj | rfl
    · obtain ⟨q, hq⟩ := hs.awaits j hj
      exact ⟨q, (hiff q j).mpr (.inr hq)⟩
    · exact ⟨p, (hiff p j).mpr (.inl ⟨rfl, rfl⟩)⟩
  · rw [hasked, List.mem_append, List.mem_singleton]
    rcases (hiff q j).mp hq with ⟨-, rfl⟩ | hq
    · exact .inr rfl
    · exact .inl (hs.asks hq)
  · rcases (hiff q j).mp hq with ⟨rfl, rfl⟩ | hq
    · rcases (hiff r k).mp hr with ⟨rfl, -⟩ | hr
      · rfl
      · exact absurd (hs.asks hr) hk
    · rcases (hiff r j).mp hr with ⟨-, rfl⟩ | hr
      · exact absurd (hs.asks hq) hk
      · exact hs.unique hq hr

/-- A thread is given the acknowledgement it waits for. -/
theorem Awaited.answer {p : P} {k : Nat} (hs : s.Awaited) (hp : s.producers p = .awaiting k)
    (hproducers : s'.producers = (s.go p .idle).producers) (hasked : s.asked = k :: s'.asked)
    (hnodup : s.asked.Nodup) : s'.Awaited := by
  have hiff (q : P) (j : Nat) :
      s'.producers q = .awaiting j ↔ q ≠ p ∧ s.producers q = .awaiting j := by
    rw [hproducers, producers_go]
    split_ifs with hq
    · simp [hq]
    · simp [hq]
  refine ⟨fun j hj ↦ ?_, fun {q j} hq ↦ ?_, fun {q r j} hq hr ↦ ?_⟩
  · obtain ⟨q, hq⟩ := hs.awaits j (hasked ▸ List.mem_cons_of_mem _ hj)
    refine ⟨q, (hiff q j).mpr ⟨?_, hq⟩⟩
    rintro rfl
    obtain rfl : k = j := Producer.awaiting.inj (hp.symm.trans hq)
    rw [hasked] at hnodup
    exact (List.nodup_cons.mp hnodup).1 hj
  · obtain ⟨hne, hq⟩ := (hiff q j).mp hq
    rcases List.mem_cons.mp (hasked ▸ hs.asks hq) with rfl | hj
    · exact absurd (hs.unique hq hp) hne
    · exact hj
  · exact hs.unique ((hiff q j).mp hq).2 ((hiff r j).mp hr).2

/-- The acknowledgements are given in the order in which they are asked for. -/
theorem Step.asked (h : Step s a s') (hs : s.Lazy) :
    s.asked ++ a.asking = a.answering ++ s'.asked := by
  cases h with
  | @initSender _ _ _ spawned _ hnone =>
      have hw : s.writer = .absent := hs hnone
      have hold : s.asked = [] := by
        rw [Pipeline.asked, Pipeline.jobs, hw, hnone]
        rfl
      have hnew : (s.initChannel spawned).queue = [] := by
        rw [initChannel]
        split <;> rfl
      rw [hold, asked_some rfl, hnew]
      cases spawned <;> rfl
  | accept _ hch hsent =>
      obtain ⟨-, rfl⟩ := Channel.offer_ok hsent
      rw [asked_some hch, asked_some rfl, List.flatMap_append]
      exact (List.append_assoc _ _ _).trans rfl
  | sendFlush _ hch hsent =>
      obtain ⟨-, rfl⟩ := Channel.send_ok hsent
      rw [asked_some hch, asked_some rfl, List.flatMap_append]
      exact (List.append_assoc _ _ _).trans rfl
  | acknowledge _ hw | startWriter hw =>
      unfold Pipeline.asked
      rw [hw]
      exact List.append_nil _
  | next hw hch hrecv hturn =>
      rw [asked_some hch, hw]
      cases hrecv with
      | line | timeout => exact List.append_nil _
      | flush => cases hturn
  | ack hw hch hrecv hturn =>
      rw [asked_some hch, hw]
      cases hrecv with
      | line | timeout => cases hturn
      | flush =>
          cases hturn
          exact List.append_nil _
  | _ => exact List.append_nil _

theorem Step.awaited (h : Step s a s') (hlazy : s.Lazy) (hfresh : s.Fresh) (hs : s.Awaited) :
    s'.Awaited := by
  have hasked := h.asked hlazy
  cases h with
  | @call p c hidle =>
      refine hs.congr (hasked.symm.trans (List.append_nil _)) fun _ _ ↦ awaiting_go ?_ ?_
      · rw [hidle]
        nofun
      · cases c <;> nofun
  | accept hphase | refuse hphase | reject hphase | skipFlush hphase =>
      refine hs.congr (hasked.symm.trans (List.append_nil _)) fun _ _ ↦ awaiting_go ?_ ?_
      · rw [hphase]
        nofun
      · nofun
  | sendFlush hflushing =>
      refine hs.ask rfl (fun _ ↦ ?_) hasked.symm fun hmem ↦ Nat.lt_irrefl _ (hfresh.2 _ hmem)
      rw [hflushing]
      nofun
  | acknowledge hawaiting =>
      exact hs.answer hawaiting rfl ((List.append_nil _).symm.trans hasked) hfresh.1
  | _ => exact hs.congr (hasked.symm.trans (List.append_nil _)) fun _ _ ↦ Iff.rfl

omit [DecidableEq P] in
theorem served_push {ch : Channel} {job : Job} (hs : s.Served) (hch : s.sender = some ch)
    (hreceiver : ch.receiver = true)
    (hpush : s'.sender = some { ch with queue := ch.queue ++ [job] })
    (hw : s'.writer = s.writer) : s'.Served := by
  refine ⟨fun {_} hsender ↦ ?_, fun {_} hsender habsent ↦ ?_⟩
  · cases hpush.symm.trans hsender
    exact fun n hbound ↦ hs.slot hch n hbound
  · have hclosed : ch.receiver = false := (hs.unread hch (hw ▸ habsent)).1
    cases hreceiver.symm.trans hclosed

theorem Step.served (h : Step s a s') (hs : s.Served) : s'.Served := by
  cases h with
  | @initSender _ _ _ spawned =>
      refine ⟨fun {_} hsender n hbound ↦ ?_, fun {_} hsender habsent ↦ ?_⟩
      · cases hsender
        unfold initChannel at hbound
        split at hbound
        · cases hbound
        · cases hbound
          exact Nat.lt_of_lt_of_le Nat.one_pos (Nat.le_max_right _ _)
      · cases hsender
        cases spawned with
        | true => cases habsent
        | false =>
            unfold initChannel
            split <;> exact ⟨rfl, rfl⟩
  | accept _ hch hsent =>
      have hreceiver := Channel.offer_receiver hsent
      obtain ⟨-, rfl⟩ := Channel.offer_ok hsent
      exact served_push hs hch hreceiver rfl rfl
  | sendFlush _ hch hsent =>
      have hreceiver := Channel.send_receiver hsent
      obtain ⟨-, rfl⟩ := Channel.send_ok hsent
      exact served_push hs hch hreceiver rfl rfl
  | acknowledge | startWriter => exact ⟨hs.slot, fun _ ↦ nofun⟩
  | next _ hch hrecv | ack _ hch hrecv =>
      refine ⟨fun {_} hsender ↦ ?_, fun _ ↦ nofun⟩
      cases hsender
      cases hrecv with
      | line | flush | timeout => exact fun n hbound ↦ hs.slot hch n hbound
  | _ => exact ⟨hs.slot, hs.unread⟩

/-- What the wait of a thread rests on. -/
structure Live (s : Pipeline P) : Prop where
  lazy : s.Lazy
  fresh : s.Fresh
  awaited : s.Awaited
  served : s.Served

theorem Step.live (h : Step s a s') (hs : s.Live) : s'.Live :=
  ⟨h.lazy hs.lazy, h.fresh hs.fresh, h.awaited hs.lazy hs.fresh hs.awaited, h.served hs.served⟩

end Pipeline

end WideLog.StdoutEmit
