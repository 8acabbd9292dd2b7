import WideLog.Serialize.Direct

/-!
# The text of an event

What the direct serializer writes, as text: a function of the event alone.  On a
writer that does not fail, every writer function appends the UTF-8 encoding of its
text to what was written before.
-/

namespace WideLog

variable {K : Type} [Key K]

/-! ## Texts -/

/-- A character inside a JSON string. -/
def charText (c : Char) : List Char :=
  if c = '"' then ['\\', '"']
  else if c = '\\' then ['\\', '\\']
  else if c = '\n' then ['\\', 'n']
  else if c = '\t' then ['\\', 't']
  else if c = '\r' then ['\\', 'r']
  else if c = '\x08' then ['\\', 'b']
  else if c = '\x0c' then ['\\', 'f']
  else if c = '\u2028' ∨ c = '\u2029' ∨ c.toNat < 0x20 then unicodeEscape c.toNat
  else [c]

/-- A JSON string. -/
def strText (s : String) : List Char := '"' :: (s.toList.flatMap charText ++ ['"'])

/-- A member of an object. -/
def memberText (name : String) (text : List Char) : List Char := strText name ++ ':' :: text

/-- A log entry. -/
def LogEntry.text (K : Type) [Key K] (entry : LogEntry) : List Char :=
  objectText [memberText (Key.levelKey K) (strText entry.level),
    memberText (Key.messageKey K) (strText entry.message.asStr)]

/-- The log member, when there are entries. -/
def logTexts (K : Type) [Key K] (logEntries : List LogEntry) : List (List Char) :=
  if logEntries.isEmpty then []
  else [memberText (Key.logKey K) (arrayText (logEntries.map (LogEntry.text K)))]

section

variable (ryu : F64 → String)

mutual

/-- A value. -/
def Value.text : Value K → List Char
  | .null => "null".toList
  | .bool b => if b then "true".toList else "false".toList
  | .i64 n => itoa n.toInt
  | .u64 n => itoa n.toNat
  | .f64 x => if x.isFinite then (ryu x).toList else "null".toList
  | .str s => strText s
  | .staticStr s => strText s
  | .array arr => arrayText (elementTexts arr)
  | .object obj => obj.text
termination_by structural v => v

/-- The elements of an array. -/
def elementTexts : List (Value K) → List (List Char)
  | [] => []
  | v :: vs => v.text :: elementTexts vs
termination_by structural vs => vs

/-- An event. -/
def WideEvent.text : WideEvent K → List Char
  | ⟨values, logEntries, _, _⟩ => objectText (slotTexts Key.keys values ++ logTexts K logEntries)
termination_by structural ev => ev

/-- The members of an event, one for each present slot. -/
def slotTexts : List K → List (Option (Value K)) → List (List Char)
  | [], _ => []
  | _ :: _, [] => []
  | _ :: keys, none :: slots => slotTexts keys slots
  | key :: keys, some val :: slots => memberText (Key.asStr key) val.text :: slotTexts keys slots
termination_by structural _ slots => slots

end

end

/-! ## Writers that do not fail -/

variable {W : Type}

/-- A writer that never fails, seen through what was written to it. -/
structure Writer.NonFailing (wr : Writer W) (written : W → List UInt8) : Prop where
  writeAll_ok : ∀ bs w, ∃ w', wr.writeAll bs w = .ok w' ∧ written w' = written w ++ bs

/-- Appending to a byte vector does not fail. -/
theorem nonFailing_vecWriter : vecWriter.NonFailing id := ⟨fun bs w ↦ ⟨w ++ bs, rfl, rfl⟩⟩

/-- A writer function succeeds and writes a text. -/
def Writes (written : W → List UInt8) (act : W → Except IoError W) (text : List Char) : Prop :=
  ∀ w, ∃ w', act w = .ok w' ∧ written w' = written w ++ utf8 text

/-- The loop over the slots writes a list of members, and tells whether the next
member is the first. -/
def WritesSlots (written : W → List UInt8) (first : Bool)
    (act : W → Except IoError (Bool × W)) (ts : List (List Char)) : Prop :=
  ∀ w, ∃ w', act w = .ok (first && ts.isEmpty, w') ∧
    written w' = written w ++ utf8 (commaSep first ts)

section Writes

variable {wr : Writer W} {written : W → List UInt8}

theorem Writes.pure : Writes written (fun w ↦ Except.ok w) [] :=
  fun w ↦ ⟨w, rfl, by simp⟩

/-- One writer function after another writes the one text after the other. -/
theorem Writes.bind {a b : W → Except IoError W} {s t : List Char} (ha : Writes written a s)
    (hb : Writes written b t) : Writes written (fun w ↦ a w >>= b) (s ++ t) := by
  intro w
  obtain ⟨w₁, h₁, ht₁⟩ := ha w
  obtain ⟨w₂, h₂, ht₂⟩ := hb w₁
  refine ⟨w₂, ?_, ?_⟩
  · simp only [h₁]
    exact h₂
  · rw [ht₂, ht₁, utf8_append, List.append_assoc]

theorem Writes.congr {act : W → Except IoError W} {s t : List Char} (h : Writes written act s)
    (hst : s = t) : Writes written act t := hst ▸ h

theorem Writes.ite {p : Prop} [Decidable p] {a b : W → Except IoError W} {s t : List Char}
    (ha : Writes written a s) (hb : Writes written b t) :
    Writes written (fun w ↦ if p then a w else b w) (if p then s else t) := by
  by_cases h : p
  · simpa only [if_pos h] using ha
  · simpa only [if_neg h] using hb

variable (hwr : wr.NonFailing written)

include hwr

theorem writes_writeAll (cs : List Char) : Writes written (wr.writeAll (utf8 cs)) cs :=
  hwr.writeAll_ok (utf8 cs)

/-- The cases of the escaper write the escaped character. -/
theorem writes_jsonChar (c : Char) : Writes written (writeJsonChar wr c) (charText c) := by
  have hlit := writes_writeAll hwr
  have hraw : Writes written (wr.writeAll (String.utf8EncodeChar c)) [c] := by
    simpa only [utf8_singleton] using hlit [c]
  unfold charText
  refine Writes.ite (hlit _) (Writes.ite (hlit _) (Writes.ite (hlit _) (Writes.ite (hlit _)
    (Writes.ite (hlit _) (Writes.ite (hlit _) (Writes.ite (hlit _) ?_))))))
  by_cases h : c = '\u2028'
  · subst h
    exact hlit _
  by_cases h' : c = '\u2029'
  · subst h'
    exact hlit _
  simp only [h, h', false_or, if_false]
  exact Writes.ite (hlit _) hraw

theorem writes_jsonChars (cs : List Char) :
    Writes written (cs.foldlM (fun w c ↦ writeJsonChar wr c w)) (cs.flatMap charText) := by
  induction cs with
  | nil => exact Writes.pure
  | cons c cs ih => exact (writes_jsonChar hwr c).bind ih

theorem writes_jsonStr (s : String) : Writes written (writeJsonStr wr s) (strText s) :=
  (writes_writeAll hwr ['"']).bind
    ((writes_jsonChars hwr s.toList).bind (writes_writeAll hwr ['"']))

theorem writes_comma (first : Bool) :
    Writes written (writeComma wr first) (if first then [] else [',']) :=
  Writes.ite Writes.pure (writes_writeAll hwr [','])

theorem writes_logEntry (entry : LogEntry) :
    Writes written (writeLogEntry wr K entry) (entry.text K) := by
  have hlevel := (writes_writeAll hwr ['\x7b']).bind
    ((writes_jsonStr hwr (Key.levelKey K)).bind ((writes_writeAll hwr [':']).bind
    ((writes_jsonStr hwr entry.level).bind ((writes_writeAll hwr [',']).bind
    ((writes_jsonStr hwr (Key.messageKey K)).bind ((writes_writeAll hwr [':']).bind
    ((writes_jsonStr hwr entry.message.asStr).bind (writes_writeAll hwr ['\x7d']))))))))
  exact hlevel.congr (by simp [LogEntry.text, objectText, commaSep, memberText])

theorem writes_logEntries (entries : List LogEntry) (first : Bool) :
    Writes written (writeLogEntries wr K first entries)
      (commaSep first (entries.map (LogEntry.text K))) := by
  induction entries generalizing first with
  | nil => exact Writes.pure
  | cons entry entries ih =>
      exact (writes_comma hwr first).bind ((writes_logEntry hwr entry).bind (ih false))

theorem writes_log (logEntries : List LogEntry) (first : Bool) :
    Writes written (writeLog wr K logEntries first) (commaSep first (logTexts K logEntries)) := by
  have hlog := (writes_comma hwr first).bind ((writes_jsonStr hwr (Key.logKey K)).bind
    ((writes_writeAll hwr [':']).bind ((writes_writeAll hwr ['[']).bind
    ((writes_logEntries (K := K) hwr logEntries true).bind (writes_writeAll hwr [']'])))))
  refine (Writes.ite (p := logEntries.isEmpty = true) Writes.pure hlog).congr ?_
  unfold logTexts
  by_cases h : logEntries.isEmpty = true
  · simp only [if_pos h, commaSep]
  · simp only [if_neg h]
    simp [commaSep, memberText, arrayText]

omit hwr in
theorem WritesSlots.nil (first : Bool) :
    WritesSlots written first (fun w ↦ .ok (first, w)) [] :=
  fun w ↦ ⟨w, by rw [List.isEmpty_nil, Bool.and_true], by simp [commaSep]⟩

omit hwr in
/-- What follows the loop over the slots continues its list of members. -/
theorem WritesSlots.bind {act : W → Except IoError (Bool × W)} {b : Bool → W → Except IoError W}
    {first : Bool} {ts us : List (List Char)} {t : List Char}
    (hs : WritesSlots written first act ts)
    (hb : ∀ f, Writes written (b f) (commaSep f us ++ t)) :
    Writes written (fun w ↦ act w >>= fun (f, w) ↦ b f w) (commaSep first (ts ++ us) ++ t) := by
  intro w
  obtain ⟨w₁, h₁, ht₁⟩ := hs w
  obtain ⟨w₂, h₂, ht₂⟩ := hb (first && ts.isEmpty) w₁
  refine ⟨w₂, ?_, ?_⟩
  · simp only [h₁]
    exact h₂
  · rw [ht₂, ht₁, commaSep_append]
    simp only [utf8_append, List.append_assoc]

variable (ryu : F64 → String)

mutual

theorem writes_value (v : Value K) : Writes written (writeValue wr ryu v) (v.text ryu) :=
  match v with
  | .null => writes_writeAll hwr "null".toList
  | .bool b => Writes.ite (writes_writeAll hwr "true".toList) (writes_writeAll hwr "false".toList)
  | .i64 n => writes_writeAll hwr (itoa n.toInt)
  | .u64 n => writes_writeAll hwr (itoa n.toNat)
  | .f64 x => by
      have h := Writes.ite (p := (!x.isFinite) = true) (writes_writeAll hwr "null".toList)
        (writes_writeAll hwr (ryu x).toList)
      refine h.congr ?_
      cases hx : x.isFinite <;> simp [Value.text, hx]
  | .str s => writes_jsonStr hwr s
  | .staticStr s => writes_jsonStr hwr s
  | .array arr => (writes_writeAll hwr ['[']).bind
      ((writes_array arr true).bind (writes_writeAll hwr [']']))
  | .object obj => writes_event obj
termination_by structural v

theorem writes_array (vs : List (Value K)) (first : Bool) :
    Writes written (writeArray wr ryu vs first) (commaSep first (elementTexts ryu vs)) :=
  match vs with
  | [] => Writes.pure
  | v :: vs => (writes_comma hwr first).bind ((writes_value v).bind (writes_array vs false))
termination_by structural vs

/-- On a writer that does not fail, the serializer writes the text of the event. -/
theorem writes_event (ev : WideEvent K) : Writes written (writeEvent wr ryu ev) (ev.text ryu) :=
  match ev with
  | ⟨values, logEntries, _, _⟩ => (writes_writeAll hwr ['\x7b']).bind
      ((writes_slots Key.keys values true).bind fun first ↦
        (writes_log hwr logEntries first).bind (writes_writeAll hwr ['\x7d']))
termination_by structural ev

theorem writes_slots (keys : List K) (slots : List (Option (Value K))) (first : Bool) :
    WritesSlots written first (writeSlots wr ryu keys slots first) (slotTexts ryu keys slots) :=
  match keys, slots with
  | [], [] => WritesSlots.nil first
  | [], _ :: _ => WritesSlots.nil first
  | _ :: _, [] => WritesSlots.nil first
  | _ :: keys, none :: slots => writes_slots keys slots first
  | key :: keys, some val :: slots => fun w ↦ by
      obtain ⟨w₁, h₁, ht₁⟩ := writes_comma hwr first w
      obtain ⟨w₂, h₂, ht₂⟩ := writes_jsonStr hwr (Key.asStr key) w₁
      obtain ⟨w₃, h₃, ht₃⟩ := hwr.writeAll_ok (bytes ":") w₂
      obtain ⟨w₄, h₄, ht₄⟩ := writes_value val w₃
      obtain ⟨w₅, h₅, ht₅⟩ := writes_slots keys slots false w₄
      refine ⟨w₅, ?_, ?_⟩
      · simp only [writeSlots, bind, Except.bind, h₁, h₂, h₃, h₄, h₅]
        simp [slotTexts]
      · have hcolon : bytes ":" = utf8 [':'] := rfl
        have htext : commaSep first (slotTexts ryu (key :: keys) (some val :: slots)) =
            (if first then [] else [',']) ++ (strText (Key.asStr key) ++ ([':'] ++
              (val.text ryu ++ commaSep false (slotTexts ryu keys slots)))) := by
          simp [slotTexts, commaSep, memberText]
        rw [ht₅, ht₄, ht₃, ht₂, ht₁, hcolon, htext]
        simp only [utf8_append, List.append_assoc]
termination_by structural slots

end

end Writes

/-- Into a byte vector, the serializer writes the encoded text. -/
theorem serializeTo_vecWriter (ryu : F64 → String) (ev : WideEvent K) :
    serializeTo vecWriter ryu ev [] = .ok (utf8 (ev.text ryu)) := by
  obtain ⟨w', hok, hw⟩ := writes_event nonFailing_vecWriter ryu ev []
  simp only [serializeTo, hok]
  exact congrArg _ hw

end WideLog
