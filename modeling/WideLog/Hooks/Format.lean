import WideLog.Core.Mutate
import WideLog.Macros.Program

/-!
# Logging while formatting

The level macros of a schema and those of the crate root, where an argument of a message
may itself log, when its expression is evaluated or when it is displayed.  Both render a
message into a thread-local buffer that they hold while the arguments are displayed; a
generated macro holds it while they are evaluated, too.  The crate root skips a message
when its buffer is held; a generated macro borrows its buffer and panics.
-/

namespace WideLog

open Macros

mutual

/-- A use of a level macro: a literal message, or a format string with arguments. -/
inductive LevelCall where
  | literal (level : Level) (msg : String)
  | format (level : Level) (args : Arguments) (message : Rendering)

/-- What the argument expressions of a message log while they are evaluated. -/
inductive Arguments where
  | done
  | log (call : LevelCall) (rest : Arguments)

/-- What `write_fmt` does, piece by piece: it writes text, from the format string or an
argument, and an argument may log.  An argument that reports an error ends it, and
nobody looks at the result. -/
inductive Rendering where
  | done
  | text (s : String) (rest : Rendering)
  | log (call : LevelCall) (rest : Rendering)

end

/-- A `RefCell<String>`. -/
structure FormatBuf where
  text : String
  borrowed : Bool
deriving DecidableEq, Repr

/-- What the level macros use of a thread: whether the last hook is that of the schema,
the event `current()` returns, and the buffers of the two paths. -/
structure LogThread (K : Type) where
  hooked : Bool
  current : Option (WideEvent K)
  fmtBuf : FormatBuf
  logFmtBuf : FormatBuf

namespace LogThread

variable {K : Type}

/-- A thread with a guard of the schema, outside of any macro. -/
def active (ev : WideEvent K) (fmt logFmt : String) : LogThread K :=
  ⟨true, some ev, ⟨fmt, false⟩, ⟨logFmt, false⟩⟩

/-- `if let Some(ev) = current()`. -/
def onCurrent (f : WideEvent K → WideEvent K) (t : LogThread K) : LogThread K :=
  { t with current := t.current.map f }

/-- `append_log_entry` of the hook registry, through the hook of the schema. -/
def appendLogEntry (level msg : String) (t : LogThread K) : LogThread K :=
  if t.hooked then t.onCurrent (·.appendLogEntry level msg) else t

/-- The log array of the event. -/
def logArray (t : LogThread K) : List (String × String) :=
  t.current.elim [] fun ev ↦ ev.logEntries.map fun e ↦ (e.level, e.message.asStr)

end LogThread

/-! ## The two paths -/

section Paths

variable {K : Type}

mutual

/-- `info!` and its like, as the schema generates them.  The arguments are evaluated after
`borrow_mut`. -/
def LevelCall.generated : LevelCall → LogThread K → Outcome (LogThread K)
  | .literal level msg, t => .ret (t.onCurrent (·.appendLogEntryStatic level.asStr msg))
  | .format level args message, t =>
    if t.current.isNone then .ret t
    else if t.fmtBuf.borrowed then .panic t
    else
      match (args.generated { t with fmtBuf := ⟨"", true⟩ }).bind message.generated with
      | .ret t => .ret { t.onCurrent (·.appendLogEntry level.asStr t.fmtBuf.text) with
          fmtBuf := ⟨t.fmtBuf.text, false⟩ }
      | .panic t => .panic { t with fmtBuf := ⟨t.fmtBuf.text, false⟩ }

/-- `format_args!`, which evaluates the arguments. -/
def Arguments.generated : Arguments → LogThread K → Outcome (LogThread K)
  | .done, t => .ret t
  | .log call rest, t => (call.generated t).bind rest.generated

/-- `write_fmt` into `FMT_BUF`. -/
def Rendering.generated : Rendering → LogThread K → Outcome (LogThread K)
  | .done, t => .ret t
  | .text s rest, t =>
    rest.generated { t with fmtBuf := ⟨t.fmtBuf.text ++ s, t.fmtBuf.borrowed⟩ }
  | .log call rest, t => (call.generated t).bind rest.generated

end

mutual

/-- `info!` and its like, as the crate root exports them.  The arguments are evaluated before
`append_log_entry_fmt` is called. -/
def LevelCall.crateRoot : LevelCall → LogThread K → Outcome (LogThread K)
  | .literal level msg, t => .ret (t.appendLogEntry level.asStr msg)
  | .format level args message, t =>
    (args.crateRoot t).bind fun t ↦
      if t.logFmtBuf.borrowed then .ret t
      else
        match message.crateRoot { t with logFmtBuf := ⟨"", true⟩ } with
        | .ret t => .ret { t.appendLogEntry level.asStr t.logFmtBuf.text with
            logFmtBuf := ⟨t.logFmtBuf.text, false⟩ }
        | .panic t => .panic { t with logFmtBuf := ⟨t.logFmtBuf.text, false⟩ }

/-- `format_args!`, which evaluates the arguments. -/
def Arguments.crateRoot : Arguments → LogThread K → Outcome (LogThread K)
  | .done, t => .ret t
  | .log call rest, t => (call.crateRoot t).bind rest.crateRoot

/-- `write_fmt` into `LOG_FMT_BUF`. -/
def Rendering.crateRoot : Rendering → LogThread K → Outcome (LogThread K)
  | .done, t => .ret t
  | .text s rest, t =>
    rest.crateRoot { t with logFmtBuf := ⟨t.logFmtBuf.text ++ s, t.logFmtBuf.borrowed⟩ }
  | .log call rest, t => (call.crateRoot t).bind rest.crateRoot

end

/-- A program that uses the level macros, with one of the two paths. -/
def LevelCall.runAll (path : LevelCall → LogThread K → Outcome (LogThread K)) :
    List LevelCall → LogThread K → Outcome (LogThread K)
  | [], t => .ret t
  | call :: calls, t => (path call t).bind (LevelCall.runAll path calls)

end Paths

/-! ## What a call logs -/

/-- The text that is written. -/
def Rendering.written : Rendering → String
  | .done => ""
  | .text s rest => s ++ rest.written
  | .log _ rest => rest.written

mutual

/-- The entries of a call, when the buffer is held or not: those of its arguments, and its
own unless it formats a message into a buffer that is held. -/
def LevelCall.entries (held : Bool) : LevelCall → List (String × String)
  | .literal level msg => [(level.asStr, msg)]
  | .format level args message =>
    args.entries held ++
      if held then [] else message.entries ++ [(level.asStr, message.written)]

def Arguments.entries (held : Bool) : Arguments → List (String × String)
  | .done => []
  | .log call rest => call.entries held ++ rest.entries held

def Rendering.entries : Rendering → List (String × String)
  | .done => []
  | .text _ rest => rest.entries
  | .log call rest => call.entries true ++ rest.entries

end

/-- A call formats a message. -/
def LevelCall.Formats : LevelCall → Prop
  | .literal _ _ => False
  | .format _ _ _ => True

/-- An argument formats a message when it is evaluated. -/
def Arguments.Formats : Arguments → Prop
  | .done => False
  | .log call rest => call.Formats ∨ rest.Formats

/-- An argument formats a message when it is displayed. -/
def Rendering.Formats : Rendering → Prop
  | .done => False
  | .text _ rest => rest.Formats
  | .log call rest => call.Formats ∨ rest.Formats

/-- A message is formatted while another one is. -/
def LevelCall.Reentrant : LevelCall → Prop
  | .literal _ _ => False
  | .format _ args message => args.Formats ∨ message.Formats

/-! ## What the paths leave -/

namespace LogThread

variable {K : Type} {t : LogThread K} {f : WideEvent K → WideEvent K} {level msg : String}

/-- A guard of the schema is active. -/
def Active (t : LogThread K) : Prop := t.hooked ∧ t.current.isSome

theorem Active.current_ne_none (h : t.Active) : t.current ≠ none :=
  Option.ne_none_iff_isSome.mpr h.2

theorem Active.onCurrent (h : t.Active) : (t.onCurrent f).Active :=
  ⟨h.1, by rw [LogThread.onCurrent, Option.isSome_map]; exact h.2⟩

/-- An entry that is appended to the event is the last of its log array. -/
theorem logArray_onCurrent (h : t.Active) {e : LogEntry}
    (hf : ∀ ev, (f ev).logEntries = ev.logEntries ++ [e]) :
    (t.onCurrent f).logArray = t.logArray ++ [(e.level, e.message.asStr)] := by
  obtain ⟨ev, hev⟩ := Option.isSome_iff_exists.mp h.2
  unfold logArray LogThread.onCurrent
  rw [hev]
  show (f ev).logEntries.map _ = ev.logEntries.map _ ++ _
  rw [hf, List.map_append]
  rfl

theorem appendLogEntry_eq (h : t.Active) :
    t.appendLogEntry level msg = t.onCurrent (·.appendLogEntry level msg) :=
  if_pos h.1

end LogThread

section

variable {K : Type}

mutual

/-- The crate root logs the entries of a call, whatever its arguments do, and leaves a
buffer that is held as it was. -/
theorem LevelCall.crateRoot_ret : ∀ (call : LevelCall) {t : LogThread K}, t.Active →
    ∃ t', call.crateRoot t = .ret t' ∧ t'.Active ∧
      t'.logFmtBuf.borrowed = t.logFmtBuf.borrowed ∧
      (t.logFmtBuf.borrowed → t'.logFmtBuf = t.logFmtBuf) ∧
      t'.logArray = t.logArray ++ call.entries t.logFmtBuf.borrowed
  | .literal level msg, t, h => by
      refine ⟨t.appendLogEntry level.asStr msg, by rw [LevelCall.crateRoot], ?_⟩
      rw [LogThread.appendLogEntry_eq h]
      exact ⟨h.onCurrent, rfl, fun _ ↦ rfl,
        LogThread.logArray_onCurrent (e := ⟨level.asStr, .owned msg⟩) h fun _ ↦ rfl⟩
  | .format level args message, t, h => by
      obtain ⟨t₁, hargs, h₁, hheld, hsame, hlog₁⟩ := args.crateRoot_ret h
      rw [LevelCall.crateRoot, hargs, Outcome.bind_ret, LevelCall.entries, ← hheld]
      rw [← hheld] at hlog₁ hsame
      by_cases hb : t₁.logFmtBuf.borrowed
      · refine ⟨t₁, by rw [if_pos hb], h₁, rfl, hsame, ?_⟩
        rw [hlog₁, hb, if_pos rfl, List.append_nil]
      · let t₂ : LogThread K := { t₁ with logFmtBuf := ⟨"", true⟩ }
        have h₂ : t₂.Active := h₁
        obtain ⟨t', hret, h', hbuf, hlog⟩ := message.crateRoot_ret h₂ rfl
        have hwritten : t'.logFmtBuf.text = message.written := by
          rw [hbuf]
          exact String.empty_append
        refine ⟨_, by rw [if_neg hb, hret], ?_⟩
        rw [LogThread.appendLogEntry_eq h']
        refine ⟨h'.onCurrent, (Bool.eq_false_iff.mpr hb).symm, fun hb' ↦ absurd hb' hb, ?_⟩
        have hentry := LogThread.logArray_onCurrent h' (f := fun ev ↦
          ev.appendLogEntry level.asStr t'.logFmtBuf.text) fun _ ↦ rfl
        have hlog₂ : t₂.logArray = t₁.logArray := rfl
        refine hentry.trans ?_
        rw [hlog, hlog₂, hlog₁, hwritten, if_neg hb, List.append_assoc, List.append_assoc]
        rfl

/-- So does an evaluation of arguments. -/
theorem Arguments.crateRoot_ret : ∀ (args : Arguments) {t : LogThread K}, t.Active →
    ∃ t', args.crateRoot t = .ret t' ∧ t'.Active ∧
      t'.logFmtBuf.borrowed = t.logFmtBuf.borrowed ∧
      (t.logFmtBuf.borrowed → t'.logFmtBuf = t.logFmtBuf) ∧
      t'.logArray = t.logArray ++ args.entries t.logFmtBuf.borrowed
  | .done, t, h => ⟨t, by rw [Arguments.crateRoot], h, rfl, fun _ ↦ rfl, (List.append_nil _).symm⟩
  | .log call rest, t, h => by
      obtain ⟨t₁, hcall, h₁, hheld₁, hsame₁, hlog₁⟩ := call.crateRoot_ret h
      obtain ⟨t', hrest, h', hheld, hsame, hlog⟩ := rest.crateRoot_ret h₁
      rw [hheld₁] at hheld hsame hlog
      refine ⟨t', ?_, h', hheld, fun hb ↦ (hsame hb).trans (hsame₁ hb), ?_⟩
      · rw [Arguments.crateRoot, hcall]
        exact hrest
      · rw [hlog, hlog₁, List.append_assoc]
        rfl

/-- What is rendered for the crate root ends in a buffer of its text, and the messages that
are formatted on the way are left out. -/
theorem Rendering.crateRoot_ret : ∀ (r : Rendering) {t : LogThread K}, t.Active →
    t.logFmtBuf.borrowed = true → ∃ t', r.crateRoot t = .ret t' ∧ t'.Active ∧
      t'.logFmtBuf = ⟨t.logFmtBuf.text ++ r.written, true⟩ ∧
      t'.logArray = t.logArray ++ r.entries
  | .done, t, h, hheld => by
      refine ⟨t, by rw [Rendering.crateRoot], h, ?_, (List.append_nil _).symm⟩
      rw [Rendering.written, String.append_empty, ← hheld]
  | .text s rest, t, h, hheld => by
      let t₁ : LogThread K := { t with logFmtBuf := ⟨t.logFmtBuf.text ++ s, t.logFmtBuf.borrowed⟩ }
      have h₁ : t₁.Active := h
      obtain ⟨t', hret, h', hbuf, hlog⟩ := rest.crateRoot_ret h₁ hheld
      refine ⟨t', ?_, h', ?_, hlog⟩
      · rw [Rendering.crateRoot]
        exact hret
      · rw [hbuf, Rendering.written, ← String.append_assoc]
  | .log call rest, t, h, hheld => by
      obtain ⟨t₁, hcall, h₁, hheld₁, hsame, hlog₁⟩ := call.crateRoot_ret h
      obtain ⟨t', hret, h', hbuf, hlog⟩ := rest.crateRoot_ret h₁ (hheld₁.trans hheld)
      refine ⟨t', ?_, h', ?_, ?_⟩
      · rw [Rendering.crateRoot, hcall]
        exact hret
      · rw [hbuf, hsame hheld]
        rfl
      · rw [hlog, hlog₁, hheld, List.append_assoc]
        rfl

end

/-- A literal message is logged by a generated macro as well. -/
theorem LevelCall.generated_literal {call : LevelCall} (hplain : ¬ call.Formats) {t : LogThread K}
    (h : t.Active) (held : Bool) : ∃ t', call.generated t = .ret t' ∧ t'.Active ∧
      t'.fmtBuf = t.fmtBuf ∧ t'.logArray = t.logArray ++ call.entries held := by
  cases call with
  | literal level msg =>
      exact ⟨_, by rw [generated], h.onCurrent, rfl,
        LogThread.logArray_onCurrent (e := ⟨level.asStr, .static msg⟩) h fun _ ↦ rfl⟩
  | format => exact absurd trivial hplain

/-- A message that is formatted meets a borrowed buffer. -/
theorem LevelCall.generated_held {call : LevelCall} (hformats : call.Formats) {t : LogThread K}
    (h : t.Active) (hheld : t.fmtBuf.borrowed) : call.generated t = .panic t := by
  cases call with
  | literal => exact hformats.elim
  | format =>
      rw [generated, if_neg (Option.isNone_iff_eq_none.not.mpr h.current_ne_none), if_pos hheld]

theorem Arguments.generated_ret (args : Arguments) {t : LogThread K} (hplain : ¬ args.Formats)
    (h : t.Active) (held : Bool) : ∃ t', args.generated t = .ret t' ∧ t'.Active ∧
      t'.fmtBuf = t.fmtBuf ∧ t'.logArray = t.logArray ++ args.entries held :=
  match args with
  | .done => ⟨t, by rw [generated], h, rfl, (List.append_nil _).symm⟩
  | .log call rest => by
      obtain ⟨hcall, hrest⟩ := not_or.mp hplain
      obtain ⟨t₁, hret₁, h₁, hbuf₁, hlog₁⟩ := call.generated_literal hcall h held
      obtain ⟨t', hret, h', hbuf, hlog⟩ := rest.generated_ret hrest h₁ held
      refine ⟨t', ?_, h', hbuf.trans hbuf₁, ?_⟩
      · rw [generated, hret₁]
        exact hret
      · rw [hlog, hlog₁, List.append_assoc]
        rfl

/-- The first message that an argument formats when it is evaluated meets the borrowed
buffer. -/
theorem Arguments.generated_panic (args : Arguments) {t : LogThread K} (hformats : args.Formats)
    (h : t.Active) (hheld : t.fmtBuf.borrowed) : ∃ t', args.generated t = .panic t' :=
  match args with
  | .done => hformats.elim
  | .log call rest => by
      rw [generated]
      by_cases hcall : call.Formats
      · exact ⟨t, by rw [call.generated_held hcall h hheld]; rfl⟩
      · obtain ⟨t₁, hret₁, h₁, hbuf₁, -⟩ := call.generated_literal hcall h true
        rw [hret₁]
        exact rest.generated_panic (hformats.resolve_left hcall) h₁ (hbuf₁ ▸ hheld)

/-- A generated macro renders what the crate root renders, unless an argument formats a
message. -/
theorem Rendering.generated_ret (r : Rendering) {t : LogThread K} (hplain : ¬ r.Formats)
    (h : t.Active) : ∃ t', r.generated t = .ret t' ∧ t'.Active ∧
      t'.fmtBuf.text = t.fmtBuf.text ++ r.written ∧ t'.logArray = t.logArray ++ r.entries :=
  match r with
  | .done => ⟨t, by rw [generated], h, (String.append_empty).symm, (List.append_nil _).symm⟩
  | .text s rest => by
      let t₁ : LogThread K := { t with fmtBuf := ⟨t.fmtBuf.text ++ s, t.fmtBuf.borrowed⟩ }
      have h₁ : t₁.Active := h
      obtain ⟨t', hret, h', htext, hlog⟩ := rest.generated_ret hplain h₁
      refine ⟨t', ?_, h', ?_, hlog⟩
      · rw [generated]
        exact hret
      · rw [htext, written]
        exact String.append_assoc
  | .log call rest => by
      obtain ⟨hcall, hrest⟩ := not_or.mp hplain
      obtain ⟨t₁, hret₁, h₁, hbuf₁, hlog₁⟩ := call.generated_literal hcall h true
      obtain ⟨t', hret, h', htext, hlog⟩ := rest.generated_ret hrest h₁
      refine ⟨t', ?_, h', by rw [htext, hbuf₁]; rfl, ?_⟩
      · rw [generated, hret₁]
        exact hret
      · rw [hlog, hlog₁, List.append_assoc]
        rfl

/-- So does the first message that an argument formats when it is displayed. -/
theorem Rendering.generated_panic (r : Rendering) {t : LogThread K} (hformats : r.Formats)
    (h : t.Active) (hheld : t.fmtBuf.borrowed) : ∃ t', r.generated t = .panic t' :=
  match r with
  | .done => hformats.elim
  | .text s rest => by
      let t₁ : LogThread K := { t with fmtBuf := ⟨t.fmtBuf.text ++ s, t.fmtBuf.borrowed⟩ }
      have h₁ : t₁.Active := h
      obtain ⟨t', hpanic⟩ := rest.generated_panic hformats h₁ hheld
      exact ⟨t', by rw [generated]; exact hpanic⟩
  | .log call rest => by
      rw [generated]
      by_cases hcall : call.Formats
      · exact ⟨t, by rw [call.generated_held hcall h hheld]; rfl⟩
      · obtain ⟨t₁, hret₁, h₁, hbuf₁, -⟩ := call.generated_literal hcall h true
        rw [hret₁]
        exact rest.generated_panic (hformats.resolve_left hcall) h₁ (hbuf₁ ▸ hheld)

/-- A generated macro logs the entries of a call, or panics. -/
theorem LevelCall.generated_cases (call : LevelCall) {t : LogThread K} (h : t.Active)
    (hfree : t.fmtBuf.borrowed = false) :
    (¬ call.Reentrant ∧ ∃ t', call.generated t = .ret t' ∧ t'.Active ∧
        t'.fmtBuf.borrowed = false ∧ t'.logArray = t.logArray ++ call.entries false) ∨
      (call.Reentrant ∧ ∃ t', call.generated t = .panic t') := by
  cases call with
  | literal level msg =>
      obtain ⟨t', hret, h', hbuf, hlog⟩ :=
        (literal level msg).generated_literal (fun hformats ↦ hformats) h false
      exact .inl ⟨id, t', hret, h', by rw [hbuf, hfree], hlog⟩
  | format level args message =>
      let t₁ : LogThread K := { t with fmtBuf := ⟨"", true⟩ }
      have h₁ : t₁.Active := h
      have hgenerated : generated (.format level args message) t =
          match (args.generated t₁).bind message.generated with
          | .ret t => .ret { t.onCurrent (·.appendLogEntry level.asStr t.fmtBuf.text) with
              fmtBuf := ⟨t.fmtBuf.text, false⟩ }
          | .panic t => .panic { t with fmtBuf := ⟨t.fmtBuf.text, false⟩ } := by
        rw [generated, if_neg (Option.isNone_iff_eq_none.not.mpr h.current_ne_none),
          if_neg (Bool.eq_false_iff.mp hfree)]
      rw [hgenerated]
      by_cases hargs : args.Formats
      · obtain ⟨t', hpanic⟩ := args.generated_panic hargs h₁ rfl
        rw [hpanic]
        exact .inr ⟨.inl hargs, _, rfl⟩
      obtain ⟨t₂, hret₂, h₂, hbuf₂, hlog₂⟩ := args.generated_ret hargs h₁ false
      rw [hret₂, Outcome.bind_ret]
      by_cases hmessage : message.Formats
      · obtain ⟨t', hpanic⟩ := message.generated_panic hmessage h₂ (by rw [hbuf₂])
        rw [hpanic]
        exact .inr ⟨.inr hmessage, _, rfl⟩
      · obtain ⟨t', hret, h', htext, hlog⟩ := message.generated_ret hmessage h₂
        rw [hret]
        refine .inl ⟨not_or.mpr ⟨hargs, hmessage⟩, _, rfl, h'.onCurrent, rfl, ?_⟩
        have hwritten : t'.fmtBuf.text = message.written := by
          rw [htext, hbuf₂]
          exact String.empty_append
        have hentry := LogThread.logArray_onCurrent h' (f := fun ev ↦
          ev.appendLogEntry level.asStr t'.fmtBuf.text) fun _ ↦ rfl
        have hlog₁ : t₁.logArray = t.logArray := rfl
        refine hentry.trans ?_
        rw [hlog, hlog₂, hlog₁, hwritten, List.append_assoc, List.append_assoc]
        rfl

/-! ## Programs -/

namespace LevelCall

theorem runAll_crateRoot (calls : List LevelCall) {t : LogThread K} (h : t.Active)
    (hfree : t.logFmtBuf.borrowed = false) : ∃ t', runAll crateRoot calls t = .ret t' ∧
      t'.logArray = t.logArray ++ calls.flatMap (entries false) := by
  induction calls generalizing t with
  | nil => exact ⟨t, rfl, (List.append_nil _).symm⟩
  | cons call calls ih =>
      obtain ⟨t₁, hret, h₁, hfree₁, -, hlog₁⟩ := call.crateRoot_ret h
      obtain ⟨t', hrun, hlog⟩ := ih h₁ (hfree₁.trans hfree)
      refine ⟨t', ?_, ?_⟩
      · rw [runAll, hret]
        exact hrun
      · rw [hlog, hlog₁, hfree, List.append_assoc]
        rfl

theorem runAll_generated (calls : List LevelCall) {t : LogThread K} (h : t.Active)
    (hfree : t.fmtBuf.borrowed = false) :
    ((∀ call ∈ calls, ¬ call.Reentrant) ∧ ∃ t', runAll generated calls t = .ret t' ∧
        t'.logArray = t.logArray ++ calls.flatMap (entries false)) ∨
      ((∃ call ∈ calls, call.Reentrant) ∧ ∃ t', runAll generated calls t = .panic t') := by
  induction calls generalizing t with
  | nil => exact .inl ⟨nofun, t, rfl, (List.append_nil _).symm⟩
  | cons call calls ih =>
      rcases call.generated_cases h hfree with
        ⟨hplain, t₁, hret, h₁, hfree₁, hlog₁⟩ | ⟨hreentrant, t₁, hpanic⟩
      · have hrun : runAll generated (call :: calls) t = runAll generated calls t₁ := by
          rw [runAll, hret]
          rfl
        rw [hrun]
        rcases ih h₁ hfree₁ with ⟨hall, t', ht', hlog⟩ | ⟨⟨c, hc, hreentrant⟩, hpanic⟩
        · refine .inl ⟨List.forall_mem_cons.mpr ⟨hplain, hall⟩, t', ht', ?_⟩
          rw [hlog, hlog₁, List.append_assoc]
          rfl
        · exact .inr ⟨⟨c, List.mem_cons_of_mem _ hc, hreentrant⟩, hpanic⟩
      · refine .inr ⟨⟨call, List.mem_cons_self, hreentrant⟩, t₁, ?_⟩
        rw [runAll, hpanic]
        rfl

/-- **When the level macros of a schema and of the crate root are interchangeable.**
They leave the same log array, and neither panics, exactly if no message is formatted
while the arguments of another one are evaluated or displayed. -/
theorem level_macros_agree_iff (calls : List LevelCall) (ev : WideEvent K) (fmt logFmt : String) :
    (∃ t₁ t₂, runAll generated calls (.active ev fmt logFmt) = .ret t₁ ∧
        runAll crateRoot calls (.active ev fmt logFmt) = .ret t₂ ∧ t₁.logArray = t₂.logArray) ↔
      ∀ call ∈ calls, ¬ call.Reentrant := by
  have hactive : (LogThread.active ev fmt logFmt).Active := ⟨rfl, rfl⟩
  obtain ⟨t₂, hroot, hlog₂⟩ := runAll_crateRoot calls hactive rfl
  rcases runAll_generated calls hactive rfl with
    ⟨hplain, t₁, hret, hlog₁⟩ | ⟨⟨call, hcall, hreentrant⟩, t₁, hpanic⟩
  · exact iff_of_true ⟨t₁, t₂, hret, hroot, hlog₁.trans hlog₂.symm⟩ hplain
  · refine iff_of_false ?_ fun hplain ↦ hplain call hcall hreentrant
    rintro ⟨_, _, hret, -⟩
    cases hret.symm.trans hpanic

end LevelCall

end

/-- `info!("{}", x)`, where displaying `x` runs `debug!("{}", 1)`. -/
def reentrantInfo : LevelCall :=
  .format .info .done (.log (.format .debug .done (.text "1" .done)) (.text "x" .done))

theorem level_macros_disagree : ¬ ∀ (calls : List LevelCall) (ev : WideEvent Unit)
    (fmt logFmt : String), ∃ t₁ t₂,
      LevelCall.runAll LevelCall.generated calls (.active ev fmt logFmt) = .ret t₁ ∧
        LevelCall.runAll LevelCall.crateRoot calls (.active ev fmt logFmt) = .ret t₂ ∧
          t₁.logArray = t₂.logArray := by
  intro h
  obtain ⟨_, _, hret, -⟩ := h [reentrantInfo] .new "" ""
  cases hret

end WideLog
