import WideLog.Lib.Run
import WideLog.Stdout.Writer
import Mathlib.Logic.Function.Basic

/-!
# The pipeline to standard output

Any number of threads submit lines and ask for flushes, in any order, and one writer
thread runs `writer_loop`.  The channel is created by the first submission, with the
capacity and, once it has started, the policy that are set by then.

What an iteration of the loop does after `recv_timeout` concerns nobody else, so an
iteration is one step, except that `ack.send` waits for the flush it answers.  `SENDER`
keeps its sender for ever, so the loop is never told that the channel is disconnected.
-/

namespace WideLog.StdoutEmit

/-- `ChannelCapacity`. -/
inductive ChannelCapacity where
  | unbounded
  | bounded (n : Nat)
deriving DecidableEq, Repr

/-- A job for the writer.  The channel of an acknowledgement goes by a number. -/
inductive Job where
  | line (bytes : List UInt8)
  | flush (ack : Nat)
deriving DecidableEq, Repr

/-- The channel behind `SENDER`: `channel()` or `sync_channel(bound)`, and whether its
receiver exists. -/
structure Channel where
  bound : Option Nat
  queue : List Job
  receiver : Bool
deriving DecidableEq, Repr

/-- What becomes of a job that is sent. -/
inductive Sent where
  | ok (ch : Channel)
  | err
  | blocked
deriving DecidableEq, Repr

namespace Channel

/-- No slot is free. -/
def Full (ch : Channel) : Prop := ∃ n ∈ ch.bound, n ≤ ch.queue.length

instance (ch : Channel) : Decidable ch.Full :=
  match h : ch.bound with
  | none => isFalse (by rintro ⟨n, hn, -⟩; rw [h] at hn; cases hn)
  | some n => decidable_of_iff (n ≤ ch.queue.length) (by simp [Full, h])

/-- `ChannelSender::send`. -/
def send (job : Job) (ch : Channel) : Sent :=
  if ch.receiver = false then .err
  else if ch.Full then .blocked
  else .ok { ch with queue := ch.queue ++ [job] }

/-- `ChannelSender::try_send`. -/
def trySend (job : Job) (ch : Channel) : Sent :=
  match ch.send job with
  | .blocked => .err
  | sent => sent

/-- `rx.recv_timeout(wakeup)`. -/
inductive RecvTimeout : Channel → Received → Channel → Prop where
  | line {b r bytes queue} : RecvTimeout ⟨b, .line bytes :: queue, r⟩ (.line bytes) ⟨b, queue, r⟩
  | flush {b r k queue} : RecvTimeout ⟨b, .flush k :: queue, r⟩ (.flush k) ⟨b, queue, r⟩
  | timeout (ch) : RecvTimeout ch .timeout ch

end Channel

/-- A call into the module. -/
inductive Call where
  | submit (bytes : List UInt8)
  | trySubmit (bytes : List UInt8)
  | flush
deriving DecidableEq, Repr

/-- Where a thread is in the module: outside, about to send a line, after a send that
failed, in `flush` before it sends, or waiting for the acknowledgement. -/
inductive Producer where
  | idle
  | sending (bytes : List UInt8) (blocking : Bool)
  | dropping (bytes : List UInt8)
  | flushing
  | awaiting (ack : Nat)
deriving DecidableEq, Repr

/-- Where a thread starts a call. -/
def Call.enter : Call → Producer
  | .submit bytes => .sending bytes true
  | .trySubmit bytes => .sending bytes false
  | .flush => .flushing

/-- The payload of a call. -/
def Call.payload : Call → List (List UInt8)
  | .submit bytes | .trySubmit bytes => [bytes]
  | .flush => []

/-- The payload that a thread has not got rid of. -/
def Producer.inHand : Producer → List (List UInt8)
  | .sending bytes _ | .dropping bytes => [bytes]
  | .idle | .flushing | .awaiting _ => []

/-- The writer thread. -/
inductive WriterThread where
  | absent
  | spawned
  | looping (w : Writer)
  | acking (w : Writer) (ack : Nat)
deriving DecidableEq, Repr

/-- The buffer of the writer, when it has one. -/
def WriterThread.buf : WriterThread → BufWriter UInt8
  | .absent | .spawned => .new
  | .looping w | .acking w _ => w.buf

/-- The statics of the module, and the threads `P` and the writer in it. -/
structure Pipeline (P : Type) where
  capacity : Option ChannelCapacity
  policy : Option FlushPolicy
  sender : Option Channel
  dropped : UInt64
  producers : P → Producer
  writer : WriterThread
  acks : Nat

/-- A step of a thread, or of the writer. -/
inductive Action (P : Type) where
  | setChannelCapacity (p : P) (capacity : ChannelCapacity)
  | setFlushPolicy (p : P) (policy : FlushPolicy)
  | call (p : P) (call : Call)
  | initSender (p : P) (spawned : Bool)
  | accept (p : P) (bytes : List UInt8)
  | refuse (p : P) (bytes : List UInt8)
  | reject (p : P) (bytes : List UInt8)
  | skipFlush (p : P)
  | sendFlush (p : P) (ack : Nat)
  | acknowledge (p : P) (ack : Nat)
  | startWriter (now : Nat)
  | turn (r : Received) (io : Surroundings)

namespace Pipeline

variable {P : Type}

/-- A process that has not used the module, whatever is set. -/
def new (capacity : Option ChannelCapacity) (policy : Option FlushPolicy) (dropped : UInt64) :
    Pipeline P :=
  ⟨capacity, policy, none, dropped, fun _ ↦ .idle, .absent, 0⟩

variable (s : Pipeline P)

/-- `current_channel_capacity`. -/
def currentChannelCapacity : ChannelCapacity := s.capacity.getD .unbounded

/-- `current_flush_policy`. -/
def currentFlushPolicy : FlushPolicy := s.policy.getD .default

/-- The channel `init_sender` creates.  When the writer cannot be spawned, its receiver
is dropped. -/
def initChannel (spawned : Bool) : Channel :=
  match s.currentChannelCapacity with
  | .unbounded => ⟨none, [], spawned⟩
  | .bounded n => ⟨some (max n 1), [], spawned⟩

/-- The jobs in the channel. -/
def jobs : List Job := s.sender.elim [] Channel.queue

/-- What the channel makes of a line, from `submit` or from `try_submit`. -/
def offer (bytes : List UInt8) (blocking : Bool) (ch : Channel) : Sent :=
  if blocking then ch.send (.line bytes) else ch.trySend (.line bytes)

variable [DecidableEq P]

/-- A thread moves on. -/
def go (p : P) (next : Producer) : Pipeline P :=
  { s with producers := Function.update s.producers p next }

/-- A step of the pipeline. -/
inductive Step : Pipeline P → Action P → Pipeline P → Prop where
  | setChannelCapacity {s : Pipeline P} {p capacity} : s.producers p = .idle →
      Step s (.setChannelCapacity p capacity) { s with capacity := s.capacity <|> some capacity }
  | setFlushPolicy {s : Pipeline P} {p policy} : s.producers p = .idle →
      Step s (.setFlushPolicy p policy) { s with policy := s.policy <|> some policy }
  | call {s : Pipeline P} {p c} : s.producers p = .idle → Step s (.call p c) (s.go p c.enter)
  | initSender {s : Pipeline P} {p bytes blocking spawned} :
      s.producers p = .sending bytes blocking → s.sender = none →
      Step s (.initSender p spawned) { s with
        sender := some (s.initChannel spawned)
        writer := if spawned then .spawned else .absent }
  | accept {s : Pipeline P} {p bytes blocking ch ch'} : s.producers p = .sending bytes blocking →
      s.sender = some ch → offer bytes blocking ch = .ok ch' →
      Step s (.accept p bytes) { s.go p .idle with sender := some ch' }
  | refuse {s : Pipeline P} {p bytes blocking ch} : s.producers p = .sending bytes blocking →
      s.sender = some ch → offer bytes blocking ch = .err →
      Step s (.refuse p bytes) (s.go p (.dropping bytes))
  | reject {s : Pipeline P} {p bytes} : s.producers p = .dropping bytes →
      Step s (.reject p bytes) { s.go p .idle with dropped := s.dropped + 1 }
  | skipFlush {s : Pipeline P} {p} : s.producers p = .flushing →
      (∀ ch ∈ s.sender, ch.send (.flush s.acks) = .err) → Step s (.skipFlush p) (s.go p .idle)
  | sendFlush {s : Pipeline P} {p ch ch'} : s.producers p = .flushing → s.sender = some ch →
      ch.send (.flush s.acks) = .ok ch' →
      Step s (.sendFlush p s.acks)
        { s.go p (.awaiting s.acks) with sender := some ch', acks := s.acks + 1 }
  | acknowledge {s : Pipeline P} {p k w} : s.producers p = .awaiting k → s.writer = .acking w k →
      Step s (.acknowledge p k) { s.go p .idle with writer := .looping w }
  | startWriter {s : Pipeline P} {now} : s.writer = .spawned →
      Step s (.startWriter now) { s with writer := .looping (.start s.currentFlushPolicy now) }
  | next {s : Pipeline P} {w w' r io ch ch'} : s.writer = .looping w → s.sender = some ch →
      ch.RecvTimeout r ch' → w.turn io r = .next w' →
      Step s (.turn r io) { s with sender := some ch', writer := .looping w' }
  | ack {s : Pipeline P} {w w' r io ch ch' k} : s.writer = .looping w → s.sender = some ch →
      ch.RecvTimeout r ch' → w.turn io r = .ack w' k →
      Step s (.turn r io) { s with sender := some ch', writer := .acking w' k }

end Pipeline

end WideLog.StdoutEmit
