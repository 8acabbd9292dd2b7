import WideLog.Process.System

/-!
# What a process delivers

Whatever the callers do, and in whatever order, standard output is a sequence of whole
lines, each of which is what was recorded for one event; the events of a caller have theirs
in the order in which they were finished, and a caller that has no line in hand has all of
them there.  When a flush returns, what was handed over before is written.
-/

namespace WideLog

open StdoutEmit

variable {P : Type}

/-! ## A pipeline that gives nothing up -/

namespace StdoutEmit.Pipeline

/-- The writer has its end of the channel, and every line that a thread is about to send
is sent by `submit`. -/
structure Attended (s : Pipeline P) : Prop where
  receiver : ∀ ch ∈ s.sender, ch.receiver = true
  dropping : ∀ p bytes, s.producers p ≠ .dropping bytes
  blocking : ∀ p bytes, s.producers p ≠ .sending bytes false

/-- No thread calls `try_submit`, and the writer is spawned. -/
def Attending : Action P → Prop
  | .call _ (.trySubmit _) => False
  | .initSender _ spawned => spawned = true
  | _ => True

variable [DecidableEq P] {s s' t : Pipeline P} {a : Action P} {tr : List (Pipeline P × Action P)}

theorem Attended.of_go (hs : s.Attended) {p : P} {next : Producer}
    (hproducers : s'.producers = (s.go p next).producers)
    (hreceiver : ∀ ch ∈ s'.sender, ch.receiver = true) (hdropping : ∀ bytes, next ≠ .dropping bytes)
    (hblocking : ∀ bytes, next ≠ .sending bytes false) : s'.Attended := by
  refine ⟨hreceiver, fun q bytes ↦ ?_, fun q bytes ↦ ?_⟩
  · rw [hproducers, producers_go]
    split_ifs
    · exact hdropping bytes
    · exact hs.dropping q bytes
  · rw [hproducers, producers_go]
    split_ifs
    · exact hblocking bytes
    · exact hs.blocking q bytes

/-- A channel that has its receiver refuses no line of `submit`. -/
theorem offer_ne_err {bytes : List UInt8} {ch : Channel} (h : ch.receiver = true) :
    offer bytes true ch ≠ .err := by
  intro herr
  have hsend : ch.send (.line bytes) = .err := herr
  unfold Channel.send at hsend
  rw [if_neg (by rw [h]; decide)] at hsend
  split_ifs at hsend

theorem Attended.step (h : Step s a s') (ha : Attending a) (hs : s.Attended) : s'.Attended := by
  cases h with
  | @call p c hidle =>
      refine hs.of_go rfl hs.receiver ?_ ?_
      · cases c <;> exact fun _ h ↦ nomatch h
      · cases c with
        | trySubmit => cases ha
        | _ => exact fun _ h ↦ nomatch h
  | @initSender _ _ _ spawned _ hnone =>
      cases ha
      refine ⟨?_, hs.dropping, hs.blocking⟩
      rintro ch ⟨⟩
      unfold initChannel
      split <;> rfl
  | accept hsending hch hok =>
      refine hs.of_go rfl ?_ (fun _ h ↦ nomatch h) fun _ h ↦ nomatch h
      rintro ch ⟨⟩
      have hreceiver := hs.receiver _ hch
      rw [(Channel.offer_ok hok).2]
      exact hreceiver
  | @refuse _ _ blocking ch hsending hch herr =>
      cases blocking with
      | false => exact absurd hsending (hs.blocking _ _)
      | true => exact absurd herr (offer_ne_err (hs.receiver ch hch))
  | reject hdropping => exact absurd hdropping (hs.dropping _ _)
  | skipFlush | acknowledge =>
      exact hs.of_go rfl hs.receiver (fun _ h ↦ nomatch h) fun _ h ↦ nomatch h
  | sendFlush hflushing hch hok =>
      refine hs.of_go rfl ?_ (fun _ h ↦ nomatch h) fun _ h ↦ nomatch h
      rintro ch ⟨⟩
      have hreceiver := hs.receiver _ hch
      rw [(Channel.send_ok hok).2]
      exact hreceiver
  | next hw hch hrecv hturn | ack hw hch hrecv hturn =>
      refine ⟨?_, hs.dropping, hs.blocking⟩
      rintro ch ⟨⟩
      have hreceiver := hs.receiver _ hch
      cases hrecv <;> exact hreceiver
  | _ => exact ⟨hs.receiver, hs.dropping, hs.blocking⟩

/-- A step of such a pipeline gets rid of a line only by having it accepted. -/
theorem Attended.settled (h : Step s a s') (hs : s.Attended) (p : P) :
    a.settled p = stepsOf p a.accepted := by
  cases h with
  | @accept q bytes => by_cases hq : q = p <;> simp [Action.settled, Action.accepted, stepsOf, hq]
  | reject hdropping => exact absurd hdropping (hs.dropping _ _)
  | _ => rfl

theorem settled_eq_stepsOf (h : Run Step s tr t) (hs : s.Attended)
    (ha : ∀ x ∈ tr, Attending x.2) (p : P) : settled p tr = stepsOf p (accepted tr) := by
  induction h with
  | nil => rfl
  | @cons s s' t a tr hstep _ ih =>
      rw [List.forall_mem_cons] at ha
      show a.settled p ++ settled p tr = stepsOf p (a.accepted ++ accepted tr)
      rw [stepsOf_append, hs.settled hstep, ih (hs.step hstep ha.1) ha.2]

end StdoutEmit.Pipeline

/-- The texts in a sequence of lines. -/
theorem exists_texts {R : Type} {text : R → Option (List UInt8)} {order : List (P × R)}
    {lines : List (P × List UInt8)}
    (h : List.Forall₂ (fun x l ↦ x.1 = l.1 ∧ IsLine text x.2 l.2) order lines) :
    ∃ texts : List (List UInt8),
      List.Forall₂ (fun x t ↦ text x.2 = some t) order texts ∧
      (∀ t ∈ texts, (0x0A : UInt8) ∉ t) ∧
      (lines.map Prod.snd).flatten = texts.flatMap (· ++ [0x0A]) := by
  induction h with
  | nil => exact ⟨[], .nil, nofun, rfl⟩
  | cons hline _ ih =>
      obtain ⟨-, t, htext, hsafe, hbytes⟩ := hline
      obtain ⟨texts, htexts, hall, hflatten⟩ := ih
      refine ⟨t :: texts, .cons htext htexts, List.forall_mem_cons.mpr ⟨hsafe, hall⟩, ?_⟩
      rw [List.map_cons, List.flatten_cons, hflatten, hbytes, List.flatMap_cons]

namespace Process

variable [DecidableEq P] {E : Emitters P} {s s' t : Process E} {a : ProcessOp E}
  {tr : List (Process E × ProcessOp E)}

/-! ## The account of a run -/

/-- What the system does for the process it does for the pipeline. -/
theorem succeeds_stdoutTrace (h : Run Step s tr t) (hio : ∀ x ∈ tr, x.2.Succeeds) :
    ∀ y ∈ stdoutTrace tr, y.2.WritesSucceed ∧ Pipeline.Attending y.2 := by
  intro y hy
  obtain ⟨x, hx, hlabel⟩ := List.mem_filterMap.mp hy
  obtain ⟨b, hb, rfl⟩ := Option.map_eq_some_iff.mp hlabel
  have hsucceeds := hio x hx
  obtain ⟨-, s', -, hstep⟩ := h.step_of_mem hx
  obtain ⟨r, a⟩ := x
  cases a with
  | caller p op line =>
      obtain ⟨bytes, -, rfl⟩ := Option.map_eq_some_iff.mp hb
      exact ⟨trivial, trivial⟩
  | flush p =>
      cases hb
      exact ⟨trivial, trivial⟩
  | stdout a =>
      cases hb
      cases hstep with
      | stdout hcall =>
          cases b with
          | call p call => exact absurd rfl (hcall p call)
          | initSender p spawned => exact ⟨trivial, hsucceeds⟩
          | _ => exact ⟨hsucceeds, trivial⟩

variable {capacity : Option ChannelCapacity} {policy : Option FlushPolicy} {dropped : UInt64}

/-- The events that a caller has finished had their lines accepted, up to the one whose
line the caller holds. -/
theorem forall₂_finished (h : Run Step (new capacity policy dropped : Process E) tr t)
    (hio : ∀ x ∈ tr, x.2.Succeeds) (p : P) :
    List.Forall₂ (IsLine E.text) (finished p tr)
      (stepsOf p (Pipeline.accepted (stdoutTrace tr)) ++ (t.stdout.producers p).inHand) := by
  have hstdout := run_stdout h
  have hattended : (new capacity policy dropped : Process E).stdout.Attended :=
    ⟨nofun, fun _ _ ↦ nofun, fun _ _ ↦ nofun⟩
  have hsettled := Pipeline.settled_eq_stepsOf hstdout hattended
    (fun y hy ↦ (succeeds_stdoutTrace h hio y hy).2) p
  have hcalled : Pipeline.called p (stdoutTrace tr) = E.lines p t.callers := by
    rw [called_stdoutTrace]
    exact h.history (I := fun bytes s ↦ bytes = E.lines p s.callers) (C := fun _ _ ↦ True)
      (calledBy p) (fun ha _ hbytes ↦ hbytes ▸ ha.calledBy p) (E.lines_start p).symm
      fun _ _ ↦ trivial
  have hheld : E.lines p t.callers =
      stepsOf p (Pipeline.accepted (stdoutTrace tr)) ++ (t.stdout.producers p).inHand := by
    rw [← hsettled, ← hcalled]
    exact Pipeline.called_of_run hstdout p
  rw [← hheld, finished, ops_eq]
  exact E.lines_eq p (run_callers h)

/-- The bytes that are written, and those on the way to the writer. -/
def output (s : Process E) : List UInt8 := s.stdout.handed ++ s.stdout.queued.flatten

theorem output_eq (h : Run Step (new capacity policy dropped : Process E) tr t)
    (hio : ∀ x ∈ tr, x.2.Succeeds) :
    t.output = ((Pipeline.accepted (stdoutTrace tr)).map Prod.snd).flatten := by
  obtain ⟨written, haccepted, hhanded⟩ := Pipeline.accepted_of_run (run_stdout h)
    fun y hy ↦ (succeeds_stdoutTrace h hio y hy).1
  rw [haccepted, List.flatten_append, ← hhanded]
  rfl

/-- What is promised of a process: its output is the lines of events, each in one piece;
those of a caller are the ones it has finished, in order, up to the one in hand. -/
structure Delivered (tr : List (Process E × ProcessOp E)) (s : Process E)
    (order : List (P × E.Record)) : Prop where
  output : ∃ texts, List.Forall₂ (fun x text ↦ E.text x.2 = some text) order texts ∧
    s.output.splitOn 0x0A = texts ++ [[]]
  finished : ∀ p, ∃ held, finished p tr = stepsOf p order ++ held ∧
    held.length = (s.stdout.producers p).inHand.length

theorem delivered_of_forall₂ (h : Run Step (new capacity policy dropped : Process E) tr t)
    (hio : ∀ x ∈ tr, x.2.Succeeds) {order : List (P × E.Record)}
    (horder : List.Forall₂ (fun x l ↦ x.1 = l.1 ∧ IsLine E.text x.2 l.2) order
      (Pipeline.accepted (stdoutTrace tr)))
    (hbegins : ∀ p, stepsOf p order <+: Process.finished p tr) : Delivered tr t order := by
  constructor
  · obtain ⟨texts, htexts, hsafe, hflatten⟩ := exists_texts horder
    refine ⟨texts, htexts, ?_⟩
    rw [output_eq h hio, hflatten, splitOn_lines hsafe]
  · intro p
    obtain ⟨held, heq⟩ := hbegins p
    refine ⟨held, heq.symm, ?_⟩
    have hlines := (forall₂_finished h hio p).length_eq
    have hsteps := (forall₂_stepsOf horder p).length_eq
    rw [← heq, List.length_append, List.length_append, hsteps] at hlines
    exact Nat.add_left_cancel hlines

/-- The events whose lines were accepted by some point of a run are the first ones. -/
theorem delivered_take {tr₁ tr₂ : List (Process E × ProcessOp E)}
    (h : Run Step (new capacity policy dropped : Process E) tr₁ t)
    (hio : ∀ x ∈ tr₁, x.2.Succeeds) {order : List (P × E.Record)}
    (horder : List.Forall₂ (fun x l ↦ x.1 = l.1 ∧ IsLine E.text x.2 l.2) order
      (Pipeline.accepted (stdoutTrace (tr₁ ++ tr₂))))
    (hbegins : ∀ p, stepsOf p order <+: Process.finished p (tr₁ ++ tr₂)) :
    Delivered tr₁ t (order.take (Pipeline.accepted (stdoutTrace tr₁)).length) := by
  have haccepted : (Pipeline.accepted (stdoutTrace (tr₁ ++ tr₂))).take
      (Pipeline.accepted (stdoutTrace tr₁)).length = Pipeline.accepted (stdoutTrace tr₁) := by
    rw [stdoutTrace_append]
    unfold Pipeline.accepted
    rw [List.flatMap_append, List.take_left]
  have hfirst := List.forall₂_take (Pipeline.accepted (stdoutTrace tr₁)).length horder
  rw [haccepted] at hfirst
  refine delivered_of_forall₂ h hio hfirst fun p ↦ ?_
  -- Both are beginnings of what the caller finishes in the end.
  have hbefore : stepsOf p (order.take (Pipeline.accepted (stdoutTrace tr₁)).length) <+:
      Process.finished p (tr₁ ++ tr₂) :=
    ((List.take_prefix _ order).filter _ |>.map Prod.snd).trans (hbegins p)
  refine List.prefix_of_prefix_length_le hbefore (finished_append p tr₁ tr₂) ?_
  rw [(forall₂_finished h hio p).length_eq, (forall₂_stepsOf hfirst p).length_eq,
    List.length_append]
  exact Nat.le_add_right _ _

/-- What a process delivers, and what is at the terminal when a flush is acknowledged. -/
def Delivers (tr : List (Process E × ProcessOp E)) (t : Process E) : Prop :=
  ∃ order, Delivered tr t order ∧ ∀ tr₁ tr₂ tr₃ r r' p q k,
    tr = tr₁ ++ (r, .stdout (.sendFlush p k)) :: tr₂ ++ (r', .stdout (.acknowledge q k)) :: tr₃ →
      r.output <+: r'.stdout.flushed ∧ ∃ before, before <+: order ∧ Delivered tr₁ r before

/-- Whatever the callers are, what they have recorded is delivered. -/
theorem delivers_of_run (h : Run Step (new capacity policy dropped : Process E) tr t)
    (hio : ∀ x ∈ tr, x.2.Succeeds) : Delivers tr t := by
  obtain ⟨order, horder, hbegins⟩ := exists_labels fun p ↦ forall₂_finished h hio p
  refine ⟨order, delivered_of_forall₂ h hio horder hbegins, ?_⟩
  rintro tr₁ tr₂ tr₃ r r' p q k rfl
  rw [List.append_assoc] at h hio horder hbegins
  obtain ⟨s, h₁, hrest⟩ := Run.append_iff.mp h
  obtain ⟨_, h₂, hack⟩ := Run.append_iff.mp hrest
  rcases h₂ with _ | ⟨hsend, h₂⟩
  rcases hack with _ | ⟨hack, -⟩
  have hio₁ : ∀ x ∈ tr₁, x.2.Succeeds := fun x hx ↦ hio x (List.mem_append_left _ hx)
  refine ⟨?_, _, List.take_prefix _ _, delivered_take h₁ hio₁ horder hbegins⟩
  have hbetween := Run.append_iff.mpr ⟨_, h₁, Run.cons hsend h₂⟩
  have hio' : ∀ x ∈ tr₁ ++ (r, .stdout (.sendFlush p k)) :: tr₂, x.2.Succeeds := by
    intro x hx
    refine hio x ?_
    rw [← List.append_assoc]
    exact List.mem_append_left _ hx
  have hstdout := run_stdout hbetween
  have hsucceeds := succeeds_stdoutTrace hbetween hio'
  have htrace : stdoutTrace (tr₁ ++ (r, .stdout (.sendFlush p k)) :: tr₂) =
      stdoutTrace tr₁ ++ (r.stdout, .sendFlush p k) :: stdoutTrace tr₂ :=
    stdoutTrace_append tr₁ _
  rw [output_eq h₁ hio₁]
  rw [htrace] at hstdout hsucceeds
  exact Pipeline.flushed_of_acknowledge hstdout (hack.onStdout rfl) fun y hy ↦ (hsucceeds y hy).1

/-- What one of two callers has handed over first can be written, and flushed by the
other. -/
theorem exists_flush {E : Emitters Bool} {s : Process E}
    {tr : List (Process E × ProcessOp E)} {bytes : List UInt8}
    (h : Run Step (new none none 0) tr s) (hio : ∀ x ∈ tr, x.2.Succeeds)
    (hs : s.stdout = (Pipeline.new none none 0).go true (Call.submit bytes).enter) :
    ∃ tr₁ r tr₂ r' t, (r.stdout.producers true).inHand = [] ∧ ops tr₁ = ops tr ∧
      (∀ x ∈ tr₁ ++ (r, .stdout (.sendFlush false 0)) :: tr₂ ++
        [(r', .stdout (.acknowledge false 0))], x.2.Succeeds) ∧
      Run Step (new none none 0 : Process E) (tr₁ ++ (r, .stdout (.sendFlush false 0)) :: tr₂ ++
        [(r', .stdout (.acknowledge false 0))]) t := by
  obtain ⟨callers, _⟩ := s
  obtain rfl : _ = (Pipeline.new none none 0 : Pipeline Bool).go true (.sending bytes true) := hs
  let io : Surroundings := ⟨none, none, 0, 0⟩
  obtain ⟨tr', r, x, r', t, hrun', hlast, hops, hidle⟩ : ∃ tr' r x r' t,
      Run Step (⟨callers, (Pipeline.new none none 0).go true (.sending bytes true)⟩ : Process E)
        tr' r ∧
      Run Step r [(r, .stdout (.sendFlush false 0)), (x, .stdout (.turn (.flush 0) io)),
        (r', .stdout (.acknowledge false 0))] t ∧
      tr'.map Prod.snd = [.stdout (.initSender true true), .stdout (.accept true bytes),
        .stdout (.startWriter 0), .stdout (.turn (.line bytes) io), .flush false] ∧
      r.stdout.producers true = .idle :=
    ⟨_, _, _, _, _, .cons (.stdout (by nofun) (.initSender rfl rfl))
      (.cons (.stdout (by nofun) (.accept rfl rfl rfl))
      (.cons (.stdout (by nofun) (.startWriter rfl))
      (.cons (.stdout (by nofun) (.next rfl rfl .line rfl)) (.cons (.flush rfl) (.nil _))))),
      .cons (.stdout (by nofun) (.sendFlush rfl rfl rfl))
      (.cons (.stdout (by nofun) (.ack rfl rfl .flush rfl))
      (.cons (.stdout (by nofun) (.acknowledge rfl rfl)) (.nil _))), rfl, rfl⟩
  have hsucceeds : ∀ a ∈ tr'.map Prod.snd, a.Succeeds := by
    rw [hops]
    simp [ProcessOp.Succeeds, Action.WritesSucceed, Surroundings.WritesSucceed, io]
  have hflushing : ∀ y ∈ [(r, .stdout (.sendFlush false 0)), (x, .stdout (.turn (.flush 0) io)),
      (r', .stdout (.acknowledge false 0))], (y : Process E × ProcessOp E).2.Succeeds := by
    simp [ProcessOp.Succeeds, Action.WritesSucceed, Surroundings.WritesSucceed, io]
  refine ⟨tr ++ tr', r, [(x, .stdout (.turn (.flush 0) io))], r', t, ?_, ?_, ?_, ?_⟩
  · rw [hidle]
    rfl
  · rw [ops, List.map_append, List.filterMap_append, hops]
    exact List.append_nil _
  · intro y hy
    rw [List.append_assoc, List.append_assoc] at hy
    rcases List.mem_append.mp hy with hy | hy
    · exact hio y hy
    · rcases List.mem_append.mp hy with hy | hy
      · exact hsucceeds y.2 (List.mem_map_of_mem hy)
      · exact hflushing y hy
  · rw [List.append_assoc]
    exact Run.append_iff.mpr ⟨r, Run.append_iff.mpr ⟨_, h, hrun'⟩, hlast⟩

end Process

end WideLog
