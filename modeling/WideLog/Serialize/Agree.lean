import WideLog.Serialize.Serde

/-!
# The two serialization paths

The direct serializer and the serde path walk an event in the same way and escape
all characters alike but two: only the direct one escapes the line separator and
the paragraph separator.  So the outputs differ by five characters for each
separator that is written.
-/

namespace WideLog

open Serde (Call)

variable {K : Type} [Key K]

/-- A line separator or a paragraph separator. -/
def isSeparator (c : Char) : Bool := c = '\u2028' || c = '\u2029'

/-- The number of separators in a string. -/
def separators (s : String) : ℕ := s.toList.countP isSeparator

/-- The number of separators in some strings. -/
def separatorCount (ss : List String) : ℕ := (ss.map separators).sum

/-! ## The strings of an event -/

/-- The strings written for the log member. -/
def logStrings (K : Type) [Key K] (logEntries : List LogEntry) : List String :=
  if logEntries.isEmpty then []
  else Key.logKey K :: logEntries.flatMap fun entry ↦
    [Key.levelKey K, entry.level, Key.messageKey K, entry.message.asStr]

mutual

/-- The strings of a value. -/
def Value.strings : Value K → List String
  | .null => []
  | .bool _ => []
  | .i64 _ => []
  | .u64 _ => []
  | .f64 _ => []
  | .str s => [s]
  | .staticStr s => [s]
  | .array arr => elementStrings arr
  | .object obj => obj.strings
termination_by structural v => v

def elementStrings : List (Value K) → List String
  | [] => []
  | v :: vs => v.strings ++ elementStrings vs
termination_by structural vs => vs

/-- The strings of an event: the names and the values of its present slots, and what
its log entries hold, at every level. -/
def WideEvent.strings : WideEvent K → List String
  | ⟨values, logEntries, _, _⟩ => slotStrings Key.keys values ++ logStrings K logEntries
termination_by structural ev => ev

def slotStrings : List K → List (Option (Value K)) → List String
  | [], _ => []
  | _ :: _, [] => []
  | _ :: keys, none :: slots => slotStrings keys slots
  | key :: keys, some val :: slots => Key.asStr key :: (val.strings ++ slotStrings keys slots)
termination_by structural _ slots => slots

end

@[simp] theorem separatorCount_nil : separatorCount [] = 0 := rfl

@[simp] theorem separatorCount_cons (s : String) (ss : List String) :
    separatorCount (s :: ss) = separators s + separatorCount ss := by
  simp [separatorCount]

@[simp] theorem separatorCount_append (ss ts : List String) :
    separatorCount (ss ++ ts) = separatorCount ss + separatorCount ts := by
  simp [separatorCount]

/-- No separators are counted where none of the strings has one. -/
theorem separatorCount_eq_zero {ss : List String} :
    separatorCount ss = 0 ↔ ∀ s ∈ ss, '\u2028' ∉ s.toList ∧ '\u2029' ∉ s.toList := by
  have hs (s : String) : separators s = 0 ↔ '\u2028' ∉ s.toList ∧ '\u2029' ∉ s.toList := by
    rw [separators, List.countP_eq_zero]
    simp only [isSeparator, Bool.or_eq_true, decide_eq_true_eq]
    grind
  induction ss with
  | nil => simp
  | cons s ss ih => simp [hs, ih]

/-! ## Texts that agree up to separators -/

/-- The first text has five more characters for each of `n` separators, and is the
second if there are none. -/
structure Agrees (t u : List Char) (n : ℕ) : Prop where
  length_eq : t.length = u.length + 5 * n
  eq_of_zero : n = 0 → t = u

theorem Agrees.refl (t : List Char) : Agrees t t 0 := ⟨rfl, fun _ ↦ rfl⟩

theorem Agrees.append {t u t' u' : List Char} {n n' : ℕ} (h : Agrees t u n)
    (h' : Agrees t' u' n') : Agrees (t ++ t') (u ++ u') (n + n') := by
  constructor
  · rw [List.length_append, List.length_append, h.length_eq, h'.length_eq]
    omega
  · intro hn
    rw [h.eq_of_zero (by omega), h'.eq_of_zero (by omega)]

theorem Agrees.cons {t u : List Char} {n : ℕ} (c : Char) (h : Agrees t u n) :
    Agrees (c :: t) (c :: u) n := by
  simpa using (Agrees.refl [c]).append h

/-- Texts that agree are equal exactly if there are no separators. -/
theorem Agrees.eq_iff {t u : List Char} {n : ℕ} (h : Agrees t u n) : t = u ↔ n = 0 := by
  constructor
  · intro he
    have := h.length_eq
    rw [he] at this
    omega
  · exact h.eq_of_zero

/-- Lists of texts that agree, with all their separators. -/
inductive AgreeAll : List (List Char) → List (List Char) → ℕ → Prop
  | nil : AgreeAll [] [] 0
  | cons {t u : List Char} {ts us : List (List Char)} {m n : ℕ} (h : Agrees t u m)
      (hs : AgreeAll ts us n) : AgreeAll (t :: ts) (u :: us) (m + n)

theorem AgreeAll.append {ts us ts' us' : List (List Char)} {n n' : ℕ} (h : AgreeAll ts us n)
    (h' : AgreeAll ts' us' n') : AgreeAll (ts ++ ts') (us ++ us') (n + n') := by
  induction h with
  | nil => simpa using h'
  | cons h _ ih =>
      rw [Nat.add_assoc]
      exact .cons h ih

theorem AgreeAll.separated {ts us : List (List Char)} {n : ℕ} (h : AgreeAll ts us n)
    (first : Bool) : Agrees (commaSep first ts) (commaSep first us) n := by
  induction h generalizing first with
  | nil => exact .refl _
  | cons h _ ih =>
      have := (Agrees.refl (if first then [] else [','])).append (h.append (ih false))
      rwa [Nat.zero_add] at this

theorem AgreeAll.array {ts us : List (List Char)} {n : ℕ} (h : AgreeAll ts us n) :
    Agrees (arrayText ts) (arrayText us) n :=
  ((h.separated true).append (.refl [']'])).cons '['

theorem AgreeAll.object {ts us : List (List Char)} {n : ℕ} (h : AgreeAll ts us n) :
    Agrees (objectText ts) (objectText us) n :=
  ((h.separated true).append (.refl ['\x7d'])).cons '\x7b'

/-! ## The two traversals -/

/-- The escapers differ in the two separators only. -/
theorem agrees_char (c : Char) :
    Agrees (charText c) (Serde.escapeChar c) (if isSeparator c then 1 else 0) := by
  by_cases hsep : isSeparator c = true
  · rw [if_pos hsep]
    simp only [isSeparator, Bool.or_eq_true, decide_eq_true_eq] at hsep
    rcases hsep with rfl | rfl <;> exact ⟨by decide, by decide⟩
  · have heq : charText c = Serde.escapeChar c := by
      simp only [isSeparator, Bool.or_eq_true, decide_eq_true_eq, not_or] at hsep
      unfold charText Serde.escapeChar
      grind
    rw [if_neg hsep, heq]
    exact .refl _

theorem agrees_chars (cs : List Char) :
    Agrees (cs.flatMap charText) (cs.flatMap Serde.escapeChar) (cs.countP isSeparator) := by
  induction cs with
  | nil => exact .refl _
  | cons c cs ih =>
      rw [List.countP_cons, Nat.add_comm]
      exact (agrees_char c).append ih

theorem agrees_str (s : String) : Agrees (strText s) (Serde.quote s) (separators s) :=
  ((agrees_chars s.toList).append (.refl ['"'])).cons '"'

theorem agrees_member (name : String) {t u : List Char} {n : ℕ} (h : Agrees t u n) :
    Agrees (memberText name t) (Serde.quote name ++ ':' :: u) (separators name + n) :=
  (agrees_str name).append (h.cons ':')

section

variable (float : F64 → String)

theorem agrees_logEntry (entry : LogEntry) :
    Agrees (entry.text K) ((entry.serialize K).compact float)
      (separatorCount [Key.levelKey K, entry.level, Key.messageKey K, entry.message.asStr]) := by
  have h := (AgreeAll.cons (agrees_member (Key.levelKey K) (agrees_str entry.level))
    (.cons (agrees_member (Key.messageKey K) (agrees_str entry.message.asStr)) .nil)).object
  have hcount : separatorCount [Key.levelKey K, entry.level, Key.messageKey K,
      entry.message.asStr] = separators (Key.levelKey K) + separators entry.level +
        (separators (Key.messageKey K) + separators entry.message.asStr + 0) := by
    simp [Nat.add_assoc]
  rw [hcount]
  exact h

theorem agreeAll_logEntries (entries : List LogEntry) :
    AgreeAll (entries.map (LogEntry.text K))
      (Serde.compactElems float (entries.map (LogEntry.serialize K)))
      (separatorCount (entries.flatMap fun entry ↦
        [Key.levelKey K, entry.level, Key.messageKey K, entry.message.asStr])) := by
  induction entries with
  | nil => exact .nil
  | cons entry entries ih =>
      rw [List.flatMap_cons, separatorCount_append]
      exact .cons (agrees_logEntry float entry) ih

theorem agreeAll_log (logEntries : List LogEntry) :
    AgreeAll (logTexts K logEntries) (Serde.compactEntries float (serializeLog K logEntries))
      (separatorCount (logStrings K logEntries)) := by
  unfold logTexts serializeLog logStrings
  split_ifs
  · exact .nil
  · rw [separatorCount_cons]
    have h := AgreeAll.cons (agrees_member (Key.logKey K)
      (agreeAll_logEntries (K := K) float logEntries).array) .nil
    rwa [Nat.add_zero] at h

mutual

theorem agrees_value (v : Value K) :
    Agrees (v.text float) (v.serialize.compact float) (separatorCount v.strings) :=
  match v with
  | .null => .refl _
  | .bool _ => .refl _
  | .i64 _ => .refl _
  | .u64 _ => .refl _
  | .f64 _ => .refl _
  | .str s => by
      rw [Value.strings, separatorCount_cons]
      exact agrees_str s
  | .staticStr s => by
      rw [Value.strings, separatorCount_cons]
      exact agrees_str s
  | .array arr => (agreeAll_elements arr).array
  | .object obj => agrees_event obj
termination_by structural v

theorem agreeAll_elements (vs : List (Value K)) :
    AgreeAll (elementTexts float vs) (Serde.compactElems float (serializeElements vs))
      (separatorCount (elementStrings vs)) :=
  match vs with
  | [] => .nil
  | v :: vs => by
      rw [elementStrings, separatorCount_append]
      exact .cons (agrees_value v) (agreeAll_elements vs)
termination_by structural vs

/-- The two outputs for an event agree up to the separators in its strings. -/
theorem agrees_event (ev : WideEvent K) :
    Agrees (ev.text float) (ev.serialize.compact float) (separatorCount ev.strings) :=
  match ev with
  | ⟨values, logEntries, _, _⟩ => by
      rw [WideEvent.strings, separatorCount_append]
      have h := ((agreeAll_slots Key.keys values).append
        (agreeAll_log float logEntries (K := K))).object
      rw [← Serde.compactEntries_append] at h
      exact h
termination_by structural ev

theorem agreeAll_slots (keys : List K) (slots : List (Option (Value K))) :
    AgreeAll (slotTexts float keys slots)
      (Serde.compactEntries float (serializeSlots keys slots))
      (separatorCount (slotStrings keys slots)) :=
  match keys, slots with
  | [], [] => .nil
  | [], _ :: _ => .nil
  | _ :: _, [] => .nil
  | _ :: keys, none :: slots => agreeAll_slots keys slots
  | key :: keys, some val :: slots => by
      rw [slotStrings, separatorCount_cons, separatorCount_append, ← Nat.add_assoc]
      exact .cons (agrees_member (Key.asStr key) (agrees_value val)) (agreeAll_slots keys slots)
termination_by structural slots

end

end

/-- **The two paths agree exactly on events without separators.**  Given that the
JSON serializer prints compactly whatever honest hints it gets, `to_json` and
`serialize_to` produce the same bytes for an event with exact counts if and only
if no string that is written contains a line or paragraph separator. -/
theorem toJson_eq_serializeTo_iff {ryu : F64 → String} {sonic : Call → Except String String}
    (hsonic : ∀ c : Call, c.HonestHints → sonic c = .ok (.ofList (c.compact ryu)))
    {ev : WideEvent K} (hcount : ev.Everywhere WideEvent.CountExact) :
    (∃ s bs, toJson sonic ev = .ok s ∧ serializeTo vecWriter ryu ev [] = .ok bs ∧
      utf8 s.toList = bs) ↔
    ∀ s ∈ ev.strings, '\u2028' ∉ s.toList ∧ '\u2029' ∉ s.toList := by
  have hjson : toJson sonic ev = .ok (.ofList (ev.serialize.compact ryu)) := by
    simp only [toJson, hsonic _ (honestHints_event ev hcount)]
  have hdirect : serializeTo vecWriter ryu ev [] = .ok (utf8 (ev.text ryu)) :=
    serializeTo_vecWriter ryu ev
  rw [← separatorCount_eq_zero, ← (agrees_event ryu ev).eq_iff, hjson, hdirect]
  constructor
  · rintro ⟨s, bs, hs, hbs, h⟩
    cases hs
    cases hbs
    rw [String.toList_ofList] at h
    exact (utf8_injective h).symm
  · intro h
    exact ⟨_, _, rfl, rfl, by rw [String.toList_ofList, h]⟩

/-- A compact JSON serializer, where the only float to print is one and a half. -/
def compactSonic (c : Call) : Except String String := .ok (.ofList (c.compact fun _ ↦ "1.5"))

theorem countExact_put_new {v : Value TestKey} (hv : v.Everywhere WideEvent.CountExact)
    (k : TestKey) : (WideEvent.new.put (Key.asIndex k) v).Everywhere WideEvent.CountExact :=
  (WideEvent.everywhere_new WideEvent.countExact_new rfl).put
    (WideEvent.countExact_new.put _ _) hv

/-- A float, and a string with a separator. -/
theorem toJson_eq_serializeTo_iff_sample :
    let ev : WideEvent TestKey := WideEvent.new.put (Key.asIndex TestKey.event)
      (.array [.f64 ⟨0x3FF8000000000000⟩, .str "a\u2029"])
    (∃ s bs, toJson compactSonic ev = .ok s ∧
      serializeTo vecWriter (fun _ ↦ "1.5") ev [] = .ok bs ∧ utf8 s.toList = bs) ↔
    ∀ s ∈ ev.strings, '\u2028' ∉ s.toList ∧ '\u2029' ∉ s.toList :=
  toJson_eq_serializeTo_iff (fun _ _ ↦ rfl) (countExact_put_new (.array (by
    simp only [List.forall_mem_cons]
    exact ⟨.f64 _, .str _, by simp⟩)) _)

/-- A line separator in a string comes out as three bytes of one path and as six of
the other. -/
theorem toJson_ne_serializeTo :
    ¬ ∀ (ryu : F64 → String) (sonic : Call → Except String String),
      (∀ c : Call, c.HonestHints → sonic c = .ok (.ofList (c.compact ryu))) →
      ∀ ev : WideEvent TestKey, ev.Everywhere WideEvent.CountExact →
        ∃ s bs, toJson sonic ev = .ok s ∧ serializeTo vecWriter ryu ev [] = .ok bs ∧
          utf8 s.toList = bs := by
  intro h
  obtain ⟨s, bs, hs, hbs, heq⟩ := h (fun _ ↦ "1.5") compactSonic (fun _ _ ↦ rfl)
    (WideEvent.new.put (Key.asIndex TestKey.tag) (.str "\u2028"))
    (countExact_put_new (.str _) _)
  rw [serializeTo_vecWriter] at hbs
  cases hs
  cases hbs
  rw [String.toList_ofList] at heq
  exact absurd (utf8_injective heq) (by decide +kernel)

end WideLog
