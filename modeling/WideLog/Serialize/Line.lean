import WideLog.Serialize.Tree

/-!
# One event is one line

No character that the serializer writes ends a line: neither a control character
nor one of the two Unicode separators.  Emitted events therefore arrive as lines,
in the order they were emitted, however the writer thread interleaves with the
emitting one.
-/

namespace WideLog

open Rfc8259

variable {K : Type} [Key K]

/-! ## Characters that end no line -/

/-- A character that is no control character and no Unicode line separator. -/
def Printable (c : Char) : Prop := 0x20 ≤ c.toNat ∧ c ≠ '\u2028' ∧ c ≠ '\u2029'

instance (c : Char) : Decidable (Printable c) := inferInstanceAs (Decidable (_ ∧ _ ∧ _))

/-- A text of printable characters. -/
def LineSafe (cs : List Char) : Prop := ∀ c ∈ cs, Printable c

instance (cs : List Char) : Decidable (LineSafe cs) := List.decidableBAll Printable cs

theorem lineSafe_nil : LineSafe [] := by simp [LineSafe]

@[simp] theorem lineSafe_append {cs ds : List Char} :
    LineSafe (cs ++ ds) ↔ LineSafe cs ∧ LineSafe ds := by
  simp only [LineSafe, List.mem_append, or_imp, forall_and]

@[simp] theorem lineSafe_cons {c : Char} {cs : List Char} :
    LineSafe (c :: cs) ↔ Printable c ∧ LineSafe cs := by
  simp [LineSafe]

theorem printable_hexDigit (n : ℕ) : Printable (hexDigit n) := by
  have h : ∀ k < 16, Printable (Nat.digitChar k) := by decide
  exact h _ (Nat.mod_lt n (by decide))

/-- Whatever the character, what stands for it in a string is printable. -/
theorem lineSafe_charText (c : Char) : LineSafe (charText c) := by
  unfold charText
  split_ifs with h₁ h₂ h₃ h₄ h₅ h₆ h₇ h₈
  any_goals decide
  · simp only [unicodeEscape, lineSafe_cons, printable_hexDigit, lineSafe_nil, and_true]
    decide
  · have hc : Printable c := ⟨by omega, fun h ↦ h₈ (.inl h), fun h ↦ h₈ (.inr (.inl h))⟩
    simp [hc, lineSafe_nil]

theorem lineSafe_strText (s : String) : LineSafe (strText s) := by
  have hquote : Printable '"' := by decide
  have hbody : LineSafe (s.toList.flatMap charText) := by
    intro c hc
    obtain ⟨d, -, hd⟩ := List.mem_flatMap.mp hc
    exact lineSafe_charText d c hd
  simp [strText, hquote, hbody, lineSafe_nil]

theorem lineSafe_commaSep {ts : List (List Char)} (h : ∀ t ∈ ts, LineSafe t) (first : Bool) :
    LineSafe (commaSep first ts) := by
  induction ts generalizing first with
  | nil => exact lineSafe_nil
  | cons t ts ih =>
      have hcomma : LineSafe (if first then [] else [',']) := by
        split_ifs
        · exact lineSafe_nil
        · exact lineSafe_cons.mpr ⟨by decide, lineSafe_nil⟩
      rw [commaSep, lineSafe_append, lineSafe_append]
      exact ⟨hcomma, h t (by simp), ih (fun u hu ↦ h u (List.mem_cons_of_mem _ hu)) false⟩

theorem lineSafe_memberText (name : String) {text : List Char} (h : LineSafe text) :
    LineSafe (memberText name text) := by
  rw [memberText, lineSafe_append, lineSafe_cons]
  exact ⟨lineSafe_strText name, by decide, h⟩

/-- Brackets or braces around texts. -/
theorem lineSafe_enclosed {o c : Char} (ho : Printable o) (hc : Printable c)
    {ts : List (List Char)} (h : ∀ t ∈ ts, LineSafe t) :
    LineSafe (o :: (commaSep true ts ++ [c])) := by
  rw [lineSafe_cons, lineSafe_append, lineSafe_cons]
  exact ⟨ho, lineSafe_commaSep h true, hc, lineSafe_nil⟩

theorem lineSafe_array {ts : List (List Char)} (h : ∀ t ∈ ts, LineSafe t) :
    LineSafe ('[' :: (commaSep true ts ++ [']'])) :=
  lineSafe_enclosed (by decide) (by decide) h

theorem lineSafe_object {ts : List (List Char)} (h : ∀ t ∈ ts, LineSafe t) :
    LineSafe ('\x7b' :: (commaSep true ts ++ ['\x7d'])) :=
  lineSafe_enclosed (by decide) (by decide) h

theorem lineSafe_logEntry (entry : LogEntry) : LineSafe (entry.text K) := by
  apply lineSafe_object
  intro t ht
  rcases List.mem_pair.mp ht with rfl | rfl <;>
    exact lineSafe_memberText _ (lineSafe_strText _)

theorem lineSafe_log (logEntries : List LogEntry) : ∀ t ∈ logTexts K logEntries, LineSafe t := by
  unfold logTexts
  split_ifs
  · simp
  · intro t ht
    rw [List.mem_singleton.mp ht]
    apply lineSafe_memberText
    apply lineSafe_array
    intro u hu
    obtain ⟨entry, -, rfl⟩ := List.mem_map.mp hu
    exact lineSafe_logEntry entry

theorem printable_of_isDigit {c : Char} (h : c.isDigit) : Printable c := by
  refine ⟨?_, ne_of_isDigit h rfl, ne_of_isDigit h rfl⟩
  simp only [Char.isDigit, Bool.and_eq_true, decide_eq_true_eq] at h
  exact Nat.le_trans (by decide) (UInt32.le_iff_toNat_le.mp h.1)

theorem lineSafe_digits {ds : List Char} (h : Digits ds) : LineSafe ds :=
  fun c hc ↦ printable_of_isDigit (h.2 c hc)

/-- A number token is printable. -/
theorem lineSafe_number {cs : List Char} {j : Json} (h : Number cs j) : LineSafe cs := by
  obtain ⟨hm, hds, hf, he⟩ := h
  simp only [lineSafe_append]
  refine ⟨?_, lineSafe_digits hds.1, ?_, ?_⟩
  · cases hm with
    | absent => exact lineSafe_nil
    | present => exact lineSafe_cons.mpr ⟨by decide, lineSafe_nil⟩
  · cases hf with
    | absent => exact lineSafe_nil
    | present h => exact lineSafe_cons.mpr ⟨by decide, lineSafe_digits h⟩
  · cases he with
    | absent => exact lineSafe_nil
    | present he hs hds =>
        rw [lineSafe_cons, lineSafe_append]
        refine ⟨by rcases he with rfl | rfl <;> decide, ?_, lineSafe_digits hds⟩
        cases hs with
        | absent => exact lineSafe_nil
        | _ => exact lineSafe_cons.mpr ⟨by decide, lineSafe_nil⟩

theorem lineSafe_itoa (n : ℤ) : LineSafe (itoa n) := lineSafe_number (number_itoa n)

section

variable {ryu : F64 → String}

mutual

/-- Every value is written without line ends. -/
theorem lineSafe_value (hryu : PrintsFloats ryu) (v : Value K) : LineSafe (v.text ryu) :=
  match v with
  | .null => (by decide : LineSafe "null".toList)
  | .bool true => (by decide : LineSafe "true".toList)
  | .bool false => (by decide : LineSafe "false".toList)
  | .i64 n => lineSafe_itoa n.toInt
  | .u64 n => lineSafe_itoa n.toNat
  | .f64 x => by
      unfold Value.text
      split_ifs with hx
      · exact lineSafe_number (hryu x hx)
      · decide
  | .str s => lineSafe_strText s
  | .staticStr s => lineSafe_strText s
  | .array arr => lineSafe_array (lineSafe_elements hryu arr)
  | .object obj => lineSafe_event hryu obj
termination_by structural v

theorem lineSafe_elements (hryu : PrintsFloats ryu) (vs : List (Value K)) :
    ∀ t ∈ elementTexts ryu vs, LineSafe t :=
  match vs with
  | [] => by simp [elementTexts]
  | v :: vs => List.forall_mem_cons.mpr ⟨lineSafe_value hryu v, lineSafe_elements hryu vs⟩
termination_by structural vs

/-- Every event is written without line ends. -/
theorem lineSafe_event (hryu : PrintsFloats ryu) (ev : WideEvent K) : LineSafe (ev.text ryu) :=
  match ev with
  | ⟨values, logEntries, _, _⟩ => lineSafe_object
      (List.forall_mem_append.mpr ⟨lineSafe_slots hryu Key.keys values, lineSafe_log logEntries⟩)
termination_by structural ev

theorem lineSafe_slots (hryu : PrintsFloats ryu) (keys : List K)
    (slots : List (Option (Value K))) : ∀ t ∈ slotTexts ryu keys slots, LineSafe t :=
  match keys, slots with
  | [], [] => by simp [slotTexts]
  | [], _ :: _ => by simp [slotTexts]
  | _ :: _, [] => by simp [slotTexts]
  | _ :: keys, none :: slots => lineSafe_slots hryu keys slots
  | key :: keys, some val :: slots => List.forall_mem_cons.mpr
      ⟨lineSafe_memberText (Key.asStr key) (lineSafe_value hryu val),
        lineSafe_slots hryu keys slots⟩
termination_by structural slots

end

/-! ## Bytes that end no line -/

/-- Bytes without control bytes and without the encodings of the two separators. -/
def LineSafeBytes (bs : List UInt8) : Prop :=
  (∀ b ∈ bs, ¬ b < 0x20) ∧ ¬ [0xE2, 0x80, 0xA8] <:+: bs ∧ ¬ [0xE2, 0x80, 0xA9] <:+: bs

theorem lineSafeBytes_utf8 {cs : List Char} (h : LineSafe cs) : LineSafeBytes (utf8 cs) := by
  have hls : String.utf8EncodeChar '\u2028' = [0xE2, 0x80, 0xA8] := by decide
  have hps : String.utf8EncodeChar '\u2029' = [0xE2, 0x80, 0xA9] := by decide
  refine ⟨?_, ?_, ?_⟩
  · intro b hb hlt
    have hascii : b < 0x80 := UInt8.lt_trans hlt (by decide)
    obtain ⟨c, hc, hcb⟩ := exists_of_mem_utf8 hascii hb
    have hge := (h c hc).1
    have := UInt8.lt_iff_toNat_lt.mp hlt
    rw [hcb] at hge
    exact absurd this (Nat.not_lt.mpr hge)
  · intro hinf
    rw [← hls] at hinf
    exact (h _ (mem_of_encode_within hinf)).2.1 rfl
  · intro hinf
    rw [← hps] at hinf
    exact (h _ (mem_of_encode_within hinf)).2.2 rfl

end

end WideLog
