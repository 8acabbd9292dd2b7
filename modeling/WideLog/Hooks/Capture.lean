import Mathlib.Data.List.DropRight
import WideLog.Hooks.Format

/-!
# Capturing `tracing` records

The layer that appends `tracing` records to the current event.  The fields of a record
are rendered one after the other, each with a space after it, and the white space at the
end is then trimmed.
-/

namespace WideLog

open Macros

/-! ## White space -/

/-- `char::is_whitespace`. -/
def isWhitespace (c : Char) : Bool :=
  let n := c.toNat
  (0x09 ≤ n ∧ n ≤ 0x0D) ∨ (0x2000 ≤ n ∧ n ≤ 0x200A) ∨
    n ∈ [0x20, 0x85, 0xA0, 0x1680, 0x2028, 0x2029, 0x202F, 0x205F, 0x3000]

/-- `str::trim_end`. -/
def trimEnd (s : String) : String := .ofList (s.toList.rdropWhile isWhitespace)

/-- The last character of a text, if it has one, is white space. -/
def EndsInWhitespace (s : String) : Prop := ∃ c ∈ s.toList.getLast?, isWhitespace c

theorem trimEnd_append_space (s : String) : trimEnd (s ++ " ") = trimEnd s := by
  have hspace : (s ++ " ").toList = s.toList ++ [' '] := String.toList_append
  rw [trimEnd, hspace, List.rdropWhile_concat_pos _ _ _ (by decide), trimEnd]

theorem trimEnd_eq_self_iff {s : String} : trimEnd s = s ↔ ¬ EndsInWhitespace s := by
  rw [trimEnd, ← String.toList_inj, String.toList_ofList, List.rdropWhile_eq_self_iff]
  constructor
  · rintro h ⟨c, hc, hspace⟩
    obtain ⟨hne, rfl⟩ := List.mem_getLast?_eq_getLast hc
    exact h hne hspace
  · intro h hne hspace
    exact h ⟨_, List.getLast?_eq_some_getLast hne, hspace⟩

theorem trimEnd_ne_empty {s : String} {c : Char} (hc : c ∈ s.toList) (hno : ¬ isWhitespace c) :
    trimEnd s ≠ "" := by
  intro h
  rw [trimEnd, ← String.toList_inj, String.toList_ofList] at h
  exact hno (List.rdropWhile_eq_nil_iff.mp h c hc)

/-! ## Records -/

/-- The order of `tracing::Level`. -/
def Macros.Level.verbosity : Level → ℕ
  | .error => 0
  | .warn => 1
  | .info => 2
  | .debug => 3
  | .trace => 4

/-- A `tracing` record: its metadata, and its fields with the text of their values, in the
order in which it shows them to a visitor. -/
structure Record where
  target : String
  level : Level
  fields : List (String × String)

namespace Record

variable (record : Record)

/-- The texts of the message fields.  A record has one such field at most. -/
def messages : List String := (record.fields.filter (·.1 = "message")).map Prod.snd

/-- The text of the message, if the record has one. -/
def message : Option String :=
  if record.messages = [] then none else some (String.join record.messages)

/-- The fields besides the message. -/
def others : List (String × String) := record.fields.filter (·.1 ≠ "message")

/-- A field as `name=value`. -/
def pair (field : String × String) : String := field.1 ++ "=" ++ field.2

/-- The fields besides the message, joined by single spaces. -/
def joined : String := " ".intercalate (record.others.map pair)

/-- The message and some text for the other fields, with a space between them if there
are both. -/
def withMessage (fields : String) : String :=
  record.message.getD "" ++
    (if record.message.getD "" ≠ "" ∧ record.others ≠ [] then " " else "") ++ fields

end Record

/-! ## The layer -/

/-- The visitor of `on_event`. -/
structure Renderer where
  msg : String
  fields : String
  sawMessage : Bool

/-- `record_str` and `record_debug`, on a field and the text of its value. -/
def Renderer.record (r : Renderer) (field : String × String) : Renderer :=
  if field.1 = "message" then { r with msg := r.msg ++ field.2, sawMessage := true }
  else { r with fields := r.fields ++ (field.1 ++ "=" ++ field.2) ++ " " }

/-- What the layer uses of a thread: the event `current()` returns and two buffers. -/
structure CaptureThread (K : Type) where
  current : Option (WideEvent K)
  fieldsBuf : FormatBuf
  fmtBuf : FormatBuf

structure WideLogCaptureLayer where
  maxLevel : Option Level

/-- `WIDE_LOG_TARGET`. -/
def wideLogTarget : String := "wide_log"

namespace WideLogCaptureLayer

variable {K : Type} (layer : WideLogCaptureLayer)

/-- The level of a record is not above the floor. -/
def Passes (level : Level) : Prop := ∀ floor ∈ layer.maxLevel, level.verbosity ≤ floor.verbosity

instance (level : Level) : Decidable (layer.Passes level) :=
  inferInstanceAs (Decidable (∀ _ ∈ layer.maxLevel, _))

/-- The message that is put together in `FMT_BUF`, from the trimmed fields. -/
def combine (msg trimmed : String) : String :=
  match msg.isEmpty, trimmed.isEmpty with
  | false, false => msg ++ " " ++ trimmed
  | true, false => msg ++ trimmed
  | _, true => msg

/-- `enabled`: capture never filters on behalf of other layers. -/
def enabled (_layer : WideLogCaptureLayer) (_record : Record) : Bool := true

/-- `on_event`. -/
def onEvent (record : Record) (t : CaptureThread K) : CaptureThread K :=
  if record.target = wideLogTarget then t
  else if ¬ layer.Passes record.level then t
  else
    match t.current with
    | none => t
    | some ev =>
      if t.fieldsBuf.borrowed then t
      else if t.fmtBuf.borrowed then t
      else
        let r := record.fields.foldl Renderer.record ⟨"", "", false⟩
        let trimmed := trimEnd r.fields
        if !r.sawMessage && trimmed.isEmpty then
          { t with fieldsBuf := ⟨r.fields, false⟩, fmtBuf := ⟨r.msg, false⟩ }
        else
          let msg := combine r.msg trimmed
          { current := some (ev.appendLogEntry record.level.asStr msg)
            fieldsBuf := ⟨r.fields, false⟩
            fmtBuf := ⟨msg, false⟩ }

end WideLogCaptureLayer

/-! ## What is rendered -/

theorem render_eq (fields : List (String × String)) (r : Renderer) :
    fields.foldl Renderer.record r =
      ⟨r.msg ++ String.join ((fields.filter (·.1 = "message")).map Prod.snd),
        r.fields ++
          String.join ((fields.filter (·.1 ≠ "message")).map fun f ↦ Record.pair f ++ " "),
        r.sawMessage || !(fields.filter (·.1 = "message")).isEmpty⟩ := by
  induction fields generalizing r with
  | nil => simp
  | cons f fields ih =>
      rw [List.foldl_cons, ih]
      by_cases hf : f.1 = "message"
      · simp [Renderer.record, hf, String.append_assoc]
      · simp [Renderer.record, hf, String.append_assoc, Record.pair]

/-- Fields with a space after each are the joined fields with one at the end. -/
theorem join_spaced {texts : List String} (h : texts ≠ []) :
    String.join (texts.map (· ++ " ")) = " ".intercalate texts ++ " " := by
  induction texts with
  | nil => exact absurd rfl h
  | cons text texts ih =>
      rw [List.map_cons, String.join_cons]
      by_cases hrest : texts = []
      · rw [hrest]
        simp
      · rw [ih hrest, String.intercalate_cons_of_ne_nil hrest]
        simp only [String.append_assoc]

namespace Record

variable (record : Record)

/-- Trimming the rendered fields takes the last separator, and what white space there is
before it. -/
theorem trimEnd_spaced :
    trimEnd (String.join (record.others.map fun f ↦ pair f ++ " ")) = trimEnd record.joined := by
  by_cases h : record.others = []
  · rw [joined, h]
    rfl
  · have hmap : (record.others.map fun f ↦ pair f ++ " ") =
        (record.others.map pair).map (· ++ " ") := by
      rw [List.map_map]
      rfl
    rw [hmap, join_spaced (by simpa using h), trimEnd_append_space, joined]

/-- The joined fields end with the last one. -/
theorem exists_joined {f : String × String} (hf : f ∈ record.others.getLast?) :
    ∃ before, record.joined = before ++ pair f := by
  obtain ⟨init, hinit⟩ := List.getLast?_eq_some_iff.mp hf
  rw [joined, hinit, List.map_append, List.map_singleton]
  by_cases hnil : init.map pair = []
  · exact ⟨"", by rw [hnil, List.nil_append, String.intercalate_singleton, String.empty_append]⟩
  · refine ⟨" ".intercalate (init.map pair) ++ " ", ?_⟩
    rw [String.intercalate_append_of_ne_nil hnil (List.cons_ne_nil _ _),
      String.intercalate_singleton]

/-- The joined fields end in white space exactly if the last value does. -/
theorem endsInWhitespace_joined {f : String × String} (hf : f ∈ record.others.getLast?) :
    EndsInWhitespace record.joined ↔ EndsInWhitespace f.2 := by
  obtain ⟨before, hjoined⟩ := record.exists_joined hf
  have hlast : record.joined.toList.getLast? = f.2.toList.getLast?.or (some '=') := by
    rw [hjoined, pair]
    simp only [String.toList_append, List.getLast?_append]
    cases f.2.toList.getLast? <;> rfl
  rw [EndsInWhitespace, EndsInWhitespace, hlast]
  cases f.2.toList.getLast? with
  | none =>
      refine iff_of_false ?_ (by rintro ⟨c, ⟨⟩, -⟩)
      rintro ⟨c, ⟨⟩, hspace⟩
      exact absurd hspace (by decide)
  | some c => exact Iff.rfl

theorem trimEnd_joined_eq_empty_iff : trimEnd record.joined = "" ↔ record.others = [] := by
  constructor
  · intro h
    by_contra hne
    obtain ⟨f, hf⟩ := Option.isSome_iff_exists.mp (List.getLast?_isSome.mpr hne)
    obtain ⟨before, hjoined⟩ := record.exists_joined hf
    have hmem : '=' ∈ record.joined.toList := by
      rw [hjoined, pair]
      simp [String.toList_append]
    exact trimEnd_ne_empty hmem (by decide) h
  · intro h
    rw [joined, h]
    rfl

theorem withMessage_inj {fields fields' : String} :
    record.withMessage fields = record.withMessage fields' ↔ fields = fields' := by
  rw [withMessage, withMessage]
  exact String.append_right_inj _

theorem message_eq_none_iff : record.message = none ↔ record.messages = [] := by
  unfold message
  split_ifs with h <;> simp [h]

theorem getD_message : record.message.getD "" = String.join record.messages := by
  unfold message
  split_ifs with h
  · rw [h]
    rfl
  · rfl

end Record

/-! ## What is captured -/

namespace WideLogCaptureLayer

variable {K : Type} {layer : WideLogCaptureLayer} {record : Record} {t : CaptureThread K}

/-- The two texts are put together as the payload asks for, if there is a text for the
other fields exactly where there are such fields. -/
theorem combine_eq {trimmed : String} (h : trimmed = "" ↔ record.others = []) :
    combine (String.join record.messages) trimmed = record.withMessage trimmed := by
  rw [Record.withMessage, record.getD_message, combine]
  cases hmsg : (String.join record.messages).isEmpty with
  | false =>
      have hne : String.join record.messages ≠ "" := String.isEmpty_eq_false_iff.mp hmsg
      cases htrimmed : trimmed.isEmpty with
      | false =>
          have hothers : record.others ≠ [] := mt h.mpr (String.isEmpty_eq_false_iff.mp htrimmed)
          rw [if_pos ⟨hne, hothers⟩]
      | true =>
          have hempty : trimmed = "" := String.isEmpty_iff.mp htrimmed
          rw [if_neg fun hboth ↦ hboth.2 (h.mp hempty), hempty]
          simp
  | true =>
      have hempty : String.join record.messages = "" := String.isEmpty_iff.mp hmsg
      rw [if_neg fun hboth ↦ hboth.1 hempty, hempty]
      cases htrimmed : trimmed.isEmpty with
      | false => simp
      | true =>
          rw [String.isEmpty_iff.mp htrimmed]
          rfl

theorem appendLogEntry_inj {ev : WideEvent K} {level m m' : String} :
    ev.appendLogEntry level m = ev.appendLogEntry level m' ↔ m = m' := by
  constructor
  · intro h
    simpa [WideEvent.appendLogEntry] using h
  · intro h
    rw [h]

/-- The layer captures the message and the trimmed fields, if the record has any. -/
theorem current_onEvent {ev : WideEvent K} (htarget : record.target ≠ wideLogTarget)
    (hlevel : layer.Passes record.level) (hcurrent : t.current = some ev)
    (hfields : t.fieldsBuf.borrowed = false) (hfmt : t.fmtBuf.borrowed = false) :
    (layer.onEvent record t).current =
      some (if record.message = none ∧ record.others = [] then ev
        else ev.appendLogEntry record.level.asStr
          (record.withMessage (trimEnd record.joined))) := by
  have hrender : record.fields.foldl Renderer.record ⟨"", "", false⟩ =
      ⟨String.join record.messages, String.join (record.others.map fun f ↦ Record.pair f ++ " "),
        !record.messages.isEmpty⟩ := by
    rw [render_eq, Record.messages, List.isEmpty_map]
    simp only [String.empty_append, Bool.false_or]
    rfl
  have hempty : (trimEnd record.joined).isEmpty = true ↔ record.others = [] :=
    String.isEmpty_iff.trans record.trimEnd_joined_eq_empty_iff
  have hnothing : (!(!record.messages.isEmpty) && (trimEnd record.joined).isEmpty) = true ↔
      record.message = none ∧ record.others = [] := by
    rw [Bool.not_not, Bool.and_eq_true, List.isEmpty_iff, hempty, record.message_eq_none_iff]
  unfold onEvent
  rw [if_neg htarget, if_neg (not_not.mpr hlevel), hcurrent]
  dsimp only
  rw [hfields, hfmt, hrender]
  dsimp only
  rw [record.trimEnd_spaced, combine_eq record.trimEnd_joined_eq_empty_iff]
  by_cases h : record.message = none ∧ record.others = []
  · rw [if_pos h, if_pos (hnothing.mpr h)]
    rfl
  · rw [if_neg h, if_neg (mt hnothing.mp h)]
    rfl

/-- **A record is captured verbatim exactly when its last value does not end in white
space**, which is trimmed with the separator. -/
theorem captured_verbatim_iff {ev : WideEvent K} (htarget : record.target ≠ wideLogTarget)
    (hlevel : layer.Passes record.level) (hcurrent : t.current = some ev)
    (hfields : t.fieldsBuf.borrowed = false) (hfmt : t.fmtBuf.borrowed = false) :
    (layer.onEvent record t).current =
      some (if record.message = none ∧ record.others = [] then ev
        else ev.appendLogEntry record.level.asStr (record.withMessage record.joined)) ↔
      ∀ f ∈ record.others.getLast?, ¬ EndsInWhitespace f.2 := by
  rw [current_onEvent htarget hlevel hcurrent hfields hfmt, Option.some.injEq]
  cases hlast : record.others.getLast? with
  | none =>
      have hothers : record.others = [] := List.getLast?_eq_none_iff.mp hlast
      have htrim : trimEnd record.joined = record.joined := by
        rw [record.trimEnd_joined_eq_empty_iff.mpr hothers, Record.joined, hothers]
        rfl
      rw [htrim]
      exact iff_of_true rfl nofun
  | some f =>
      have hothers : record.others ≠ [] := List.ne_nil_of_mem (List.mem_of_getLast? hlast)
      rw [if_neg fun h ↦ hothers h.2, if_neg fun h ↦ hothers h.2, appendLogEntry_inj,
        record.withMessage_inj, trimEnd_eq_self_iff, record.endsInWhitespace_joined hlast]
      exact ⟨fun h g hg ↦ Option.some.inj hg ▸ h, fun h ↦ h f rfl⟩

/-- A record with a message and a number. -/
theorem captured_verbatim_iff_sample :
    let record : Record := ⟨"app", .info, [("message", "done"), ("k", "1")]⟩
    let t : CaptureThread TestKey := ⟨some .new, ⟨"", false⟩, ⟨"", false⟩⟩
    (onEvent ⟨some .info⟩ record t).current =
      some (WideEvent.new.appendLogEntry "info" (record.withMessage record.joined)) := by
  intro record t
  refine (captured_verbatim_iff (by decide) (by decide) rfl rfl rfl).mpr ?_
  rintro f ⟨⟩ ⟨c, ⟨⟩, hspace⟩
  exact absurd hspace (by decide)

/-- **White space at the end of the last value is lost.** -/
theorem not_captured_verbatim :
    ¬ ∀ (layer : WideLogCaptureLayer) (record : Record) (t : CaptureThread TestKey)
      (ev : WideEvent TestKey), record.target ≠ wideLogTarget → layer.Passes record.level →
      t.current = some ev → t.fieldsBuf.borrowed = false → t.fmtBuf.borrowed = false →
      (layer.onEvent record t).current =
        some (if record.message = none ∧ record.others = [] then ev
          else ev.appendLogEntry record.level.asStr (record.withMessage record.joined)) := by
  intro h
  let record : Record := ⟨"app", .info, [("k", "v ")]⟩
  have hcaptured := h ⟨none⟩ record ⟨some .new, ⟨"", false⟩, ⟨"", false⟩⟩ .new (by decide)
    (by decide) rfl rfl rfl
  have hentries := congrArg (Option.map fun ev : WideEvent TestKey ↦
    ev.logEntries.map fun e ↦ e.message.asStr) hcaptured
  exact absurd hentries (by decide +kernel)

end WideLogCaptureLayer

end WideLog
