import Mathlib.Data.List.Forall2
import WideLog.Lib.Json.Numeral
import WideLog.Lib.Json.Reader
import WideLog.Serialize.Text

/-!
# The direct serializer is faithful

The logical tree of an event, and the theorem that the bytes of `serialize_to`
are one JSON text that denotes this tree.  The text of each part of an event is
derived in the grammar of RFC 8259, by the mutual recursion of the writer.
-/

namespace WideLog

open Rfc8259

variable {K : Type} [Key K]

/-! ## The logical tree -/

/-- The members of an object, from the trees of its slots: in the order of the
keys, one for each present slot. -/
def members (keys : List K) (trees : List (Option Json)) : List (String × Json) :=
  keys.zipIdx.filterMap fun (key, i) ↦ trees[i]?.join.map fun tree ↦ (Key.asStr key, tree)

/-- A log entry as an object. -/
def LogEntry.tree (K : Type) [Key K] (entry : LogEntry) : Json :=
  .obj [(Key.levelKey K, .str entry.level), (Key.messageKey K, .str entry.message.asStr)]

/-- The log member, when there are entries. -/
def logMembers (K : Type) [Key K] (logEntries : List LogEntry) : List (String × Json) :=
  if logEntries.isEmpty then []
  else [(Key.logKey K, .arr (logEntries.map (LogEntry.tree K)))]

mutual

/-- The logical tree of a value: a float that is not finite has none, and is null. -/
def Value.tree : Value K → Json
  | .null => .null
  | .bool b => .bool b
  | .i64 n => .int n.toInt
  | .u64 n => .int n.toNat
  | .f64 x => if x.isFinite then .real x else .null
  | .str s => .str s
  | .staticStr s => .str s
  | .array arr => .arr (elementTrees arr)
  | .object obj => obj.tree
termination_by structural v => v

def elementTrees : List (Value K) → List Json
  | [] => []
  | v :: vs => v.tree :: elementTrees vs
termination_by structural vs => vs

/-- The logical tree of an event. -/
def WideEvent.tree : WideEvent K → Json
  | ⟨values, logEntries, _, _⟩ =>
      .obj (members (Key.keys : List K) (slotTrees values) ++ logMembers K logEntries)
termination_by structural ev => ev

def slotTrees : List (Option (Value K)) → List (Option Json)
  | [] => []
  | none :: slots => none :: slotTrees slots
  | some val :: slots => some val.tree :: slotTrees slots
termination_by structural slots => slots

end

theorem slotTrees_eq_map (slots : List (Option (Value K))) :
    slotTrees slots = slots.map (Option.map Value.tree) := by
  induction slots with
  | nil => rfl
  | cons slot slots ih =>
      cases slot with
      | none => rw [slotTrees, ih, List.map_cons, Option.map_none]
      | some v => rw [slotTrees, ih, List.map_cons, Option.map_some]

/-- The tree of an event, slot by slot: in increasing index, the name of each key
whose slot is present with the tree of its value, then the log. -/
theorem WideEvent.tree_eq (ev : WideEvent K) :
    ev.tree = .obj (((Key.keys : List K).zipIdx.filterMap fun (key, i) ↦
      (ev.slot i).map fun v ↦ (Key.asStr key, v.tree)) ++ logMembers K ev.logEntries) := by
  obtain ⟨values, logEntries, cb, n⟩ := ev
  have hslot (i : ℕ) : (slotTrees values)[i]?.join =
      (WideEvent.slot ⟨values, logEntries, cb, n⟩ i).map Value.tree := by
    rw [slotTrees_eq_map, List.getElem?_map, slot]
    cases values[i]? <;> rfl
  simp only [tree, members, hslot, Option.map_map, Function.comp_def]

/-! ## Strings -/

theorem hexVal_hexDigit (n : ℕ) : hexVal (hexDigit n) = some (n % 16) := by
  have h : ∀ k < 16, hexVal (Nat.digitChar k) = some k := by decide
  exact h _ (Nat.mod_lt n (by decide))

/-- The four digits of an escape spell the code unit. -/
theorem hex4_hexDigit {n : ℕ} (h : n < 0x10000) :
    hex4 (hexDigit (n / 4096)) (hexDigit (n / 256)) (hexDigit (n / 16)) (hexDigit n) = some n := by
  simp only [hex4, hexVal_hexDigit, Option.bind_eq_bind, Option.bind_some, Option.pure_def,
    Option.some.injEq]
  omega

/-- The code point of a character is not a surrogate. -/
theorem not_surrogate (c : Char) : ¬ IsHigh c.toNat ∧ ¬ IsLow c.toNat := by
  have h : c.toNat < 0xD800 ∨ 0xDFFF < c.toNat ∧ c.toNat < 0x110000 := c.valid
  unfold IsHigh IsLow
  omega

/-- An escaped or raw character denotes the character. -/
theorem chars_charText (c : Char) {cs ds : List Char} (h : Chars cs ds) :
    Chars (charText c ++ cs) (c :: ds) := by
  unfold charText
  split_ifs with h₁ h₂ h₃ h₄ h₅ h₆ h₇ h₈
  · subst h₁
    exact .short rfl h
  · subst h₂
    exact .short rfl h
  · subst h₃
    exact .short rfl h
  · subst h₄
    exact .short rfl h
  · subst h₅
    exact .short rfl h
  · subst h₆
    exact .short rfl h
  · subst h₇
    exact .short rfl h
  · have hn : c.toNat < 0x10000 := by
      rcases h₈ with rfl | rfl | h₈
      · decide
      · decide
      · omega
    have hunit := Chars.unit (hex4_hexDigit hn) (not_surrogate c).1 (not_surrogate c).2 h
    rwa [Char.ofNat_toNat] at hunit
  · exact .raw ⟨h₁, h₂, by omega⟩ h

theorem chars_flatMap (cs : List Char) : Chars (cs.flatMap charText) cs := by
  induction cs with
  | nil => exact .nil
  | cons c cs ih => exact chars_charText c ih

/-- A string is written as a string token that denotes it. -/
theorem str_strText (s : String) : Str (strText s) s := by
  have h := Str.mk (chars_flatMap s.toList)
  rwa [String.ofList_toList] at h

/-! ## Numbers -/

/-- An integer is written as a number token that denotes it. -/
theorem number_itoa (n : ℤ) : Number (itoa n) (.int n) := by
  unfold itoa
  split_ifs with h
  · have hnum := Number.mk .present (intPart_toDigits n.natAbs) .absent .absent
    have hval : numberValue true (Nat.toDigits 10 n.natAbs) [] none = .int n := by
      simp only [numberValue, and_self, if_true, intOf, natOf_toDigits]
      congr 1
      omega
    simpa [hval] using hnum
  · have hnum := Number.mk .absent (intPart_toDigits n.natAbs) .absent .absent
    have hval : numberValue false (Nat.toDigits 10 n.natAbs) [] none = .int n := by
      simp only [numberValue, and_self, if_true, intOf, natOf_toDigits, Bool.false_eq_true,
        if_false]
      congr 1
      omega
    simpa [hval] using hnum

/-! ## Values and events -/

/-- Elements separated by commas. -/
theorem derives_elements {ts : List (List Char)} {js : List Json}
    (h : List.Forall₂ (fun t j ↦ Derives (.value j) t) ts js) (hne : ts ≠ []) :
    Derives (.elements js) (commaSep true ts) := by
  induction h with
  | nil => exact absurd rfl hne
  | @cons t j ts js ht hts ih =>
      have hws : Ws [] := by simp [Ws]
      cases ts with
      | nil =>
          cases hts
          exact .element hws ht hws
      | cons u us =>
          exact .elements hws ht hws (ih (by simp))

theorem derives_array {ts : List (List Char)} {js : List Json}
    (h : List.Forall₂ (fun t j ↦ Derives (.value j) t) ts js) :
    Derives (.value (.arr js)) (arrayText ts) := by
  by_cases hne : ts = []
  · subst hne
    cases h
    exact .emptyArr (w := []) (by simp [Ws])
  · exact .arr (derives_elements h hne)

/-- A text is that of a member. -/
def MemberText (t : List Char) (m : String × Json) : Prop :=
  ∃ text, t = memberText m.1 text ∧ Derives (.value m.2) text

theorem derives_members {ts : List (List Char)} {ms : List (String × Json)}
    (h : List.Forall₂ MemberText ts ms) (hne : ts ≠ []) :
    Derives (.members ms) (commaSep true ts) := by
  induction h with
  | nil => exact absurd rfl hne
  | @cons t m ts ms ht hts ih =>
      have hws : Ws [] := by simp [Ws]
      obtain ⟨text, rfl, htext⟩ := ht
      cases ts with
      | nil =>
          cases hts
          have hm := Derives.member hws (str_strText m.1) hws hws htext hws
          simpa [commaSep, memberText] using hm
      | cons u us =>
          have hm := Derives.members hws (str_strText m.1) hws hws htext hws (ih (by simp))
          simpa [commaSep, memberText] using hm

theorem derives_object {ts : List (List Char)} {ms : List (String × Json)}
    (h : List.Forall₂ MemberText ts ms) : Derives (.value (.obj ms)) (objectText ts) := by
  by_cases hne : ts = []
  · subst hne
    cases h
    exact .emptyObj (w := []) (by simp [Ws])
  · exact .obj (derives_members h hne)

theorem memberText_str (name s : String) :
    MemberText (memberText name (strText s)) (name, .str s) :=
  ⟨_, rfl, .string (str_strText s)⟩

theorem derives_logEntry (entry : LogEntry) :
    Derives (.value (entry.tree K)) (entry.text K) :=
  derives_object (.cons (memberText_str _ _) (.cons (memberText_str _ _) .nil))

theorem derives_log (logEntries : List LogEntry) :
    List.Forall₂ MemberText (logTexts K logEntries) (logMembers K logEntries) := by
  unfold logTexts logMembers
  split_ifs
  · exact .nil
  · refine .cons ⟨_, rfl, derives_array ?_⟩ .nil
    rw [List.forall₂_map_left_iff, List.forall₂_map_right_iff]
    refine List.forall₂_same.mpr ?_
    exact fun entry _ ↦ derives_logEntry entry

@[simp] theorem members_nil_right (keys : List K) : members keys [] = [] := by
  induction keys with
  | nil => rfl
  | cons key keys ih => simp [members]

theorem members_cons (key : K) (keys : List K) (tree : Option Json)
    (trees : List (Option Json)) :
    members (key :: keys) (tree :: trees) =
      (tree.map fun j ↦ (Key.asStr key, j)).toList ++ members keys trees := by
  have hshift : keys.zipIdx 1 = keys.zipIdx.map fun (k, i) ↦ (k, i + 1) := by
    rw [← Nat.zero_add 1, List.zipIdx_succ]
  simp only [members, List.zipIdx_cons, Nat.zero_add, hshift]
  cases tree <;> simp [List.filterMap_map]

/-- A float printer that prints every finite float as a number token for it. -/
def PrintsFloats (ryu : F64 → String) : Prop :=
  ∀ x : F64, x.isFinite → Number (ryu x).toList (.real x)

section Derivation

variable {ryu : F64 → String}

mutual

/-- Every value is written as a JSON value that denotes its tree. -/
theorem derives_value (hryu : PrintsFloats ryu) (v : Value K) :
    Derives (.value v.tree) (v.text ryu) :=
  match v with
  | .null => .null
  | .bool true => .true
  | .bool false => .false
  | .i64 n => .number (number_itoa n.toInt)
  | .u64 n => .number (number_itoa n.toNat)
  | .f64 x => by
      unfold Value.tree Value.text
      split_ifs with hx
      · exact .number (hryu x hx)
      · exact .null
  | .str s => .string (str_strText s)
  | .staticStr s => .string (str_strText s)
  | .array arr => derives_array (forall₂_elementTexts hryu arr)
  | .object obj => derives_event hryu obj
termination_by structural v

theorem forall₂_elementTexts (hryu : PrintsFloats ryu) (vs : List (Value K)) :
    List.Forall₂ (fun t j ↦ Derives (.value j) t) (elementTexts ryu vs) (elementTrees vs) :=
  match vs with
  | [] => .nil
  | v :: vs => .cons (derives_value hryu v) (forall₂_elementTexts hryu vs)
termination_by structural vs

/-- Every event is written as a JSON object that denotes its tree. -/
theorem derives_event (hryu : PrintsFloats ryu) (ev : WideEvent K) :
    Derives (.value ev.tree) (ev.text ryu) :=
  match ev with
  | ⟨values, logEntries, _, _⟩ => derives_object
      (List.rel_append (forall₂_slotTexts hryu Key.keys values) (derives_log logEntries))
termination_by structural ev

theorem forall₂_slotTexts (hryu : PrintsFloats ryu) (keys : List K)
    (slots : List (Option (Value K))) :
    List.Forall₂ MemberText (slotTexts ryu keys slots) (members keys (slotTrees slots)) :=
  match keys, slots with
  | [], [] => .nil
  | [], _ :: _ => .nil
  | _ :: _, [] => by
      rw [slotTrees, members_nil_right]
      exact .nil
  | _ :: keys, none :: slots => by
      rw [slotTrees, members_cons]
      exact forall₂_slotTexts hryu keys slots
  | _ :: keys, some val :: slots => by
      rw [slotTrees, members_cons]
      exact .cons ⟨_, rfl, derives_value hryu val⟩ (forall₂_slotTexts hryu keys slots)
termination_by structural slots

end

/-- An event is written as a JSON text that denotes its tree. -/
theorem text_event (hryu : PrintsFloats ryu) (ev : WideEvent K) : Text (ev.text ryu) ev.tree := by
  have hws : Ws [] := by simp [Ws]
  simpa using Text.mk hws (derives_event hryu ev) hws

/-- **The direct serializer is faithful.**  On a writer that does not fail it
succeeds, and the bytes it writes are one JSON text: they decode to the logical
tree of the event, and denote nothing else. -/
theorem serializeTo_faithful (hryu : PrintsFloats ryu) {W : Type} {wr : Writer W}
    {written : W → List UInt8} (hwr : wr.NonFailing written) (ev : WideEvent K) (w : W) :
    ∃ w' bs, serializeTo wr ryu ev w = .ok w' ∧ written w' = written w ++ bs ∧
      (∃ text, bs = utf8 text ∧ Text text ev.tree) ∧
      (utf8Decode bs).bind parse = some ev.tree ∧
      ∀ text j, bs = utf8 text → Text text j → j = ev.tree := by
  obtain ⟨w', hok, hw⟩ := writes_event hwr ryu ev w
  have htext := text_event hryu ev
  refine ⟨w', utf8 (ev.text ryu), ?_, hw, ⟨_, rfl, htext⟩, ?_, ?_⟩
  · simp only [serializeTo, hok]
  · rw [utf8Decode_utf8, Option.bind_some, parse_of_text htext]
  · intro text j ht hj
    rw [← utf8_injective ht] at hj
    exact hj.unique htext

/-- A float printer: it prints one and a half as `1.5`, and other floats exactly. -/
def sampleRyu (x : F64) : String :=
  if x = ⟨0x3FF8000000000000⟩ then "1.5" else .ofList (decimalText x.toDecimal)

theorem printsFloats_sampleRyu : PrintsFloats sampleRyu := by
  intro x hx
  unfold sampleRyu
  split_ifs with h
  · subst h
    have hone : IntPart ['1'] := ⟨⟨by decide, List.forall_mem_singleton.mpr rfl⟩, by decide⟩
    have hfive : Digits ['5'] := ⟨by decide, List.forall_mem_singleton.mpr rfl⟩
    have hnum := Number.mk .absent hone (.present hfive) .absent
    have hval : F64.ofDecimal ⟨false, natOf ['1', '5'], -1⟩ = ⟨0x3FF8000000000000⟩ := by
      decide +kernel
    have hreal : numberValue false ['1'] ['5'] none =
      .real (.ofDecimal ⟨false, natOf ['1', '5'], -1⟩) := rfl
    rwa [hreal, hval] at hnum
  · rw [String.toList_ofList]
    exact number_exact hx

/-- A nested event with a float, an array, an escaped string and a log entry. -/
def sampleEvent : WideEvent TestKey where
  values := [some (.f64 ⟨0x3FF8000000000000⟩), none, some (.array [.null, .i64 (-3)]),
    some (.object ⟨[some (.str "a\"\u2028")], [⟨"info", .static "done"⟩], none, 1⟩)]
  logEntries := []
  onTypeConflict := none
  presentCount := 3

theorem serializeTo_faithful_sample :
    ∃ w' bs, serializeTo vecWriter sampleRyu sampleEvent [] = .ok w' ∧ id w' = id [] ++ bs ∧
      (∃ text, bs = utf8 text ∧ Text text sampleEvent.tree) ∧
      (utf8Decode bs).bind parse = some sampleEvent.tree ∧
      ∀ text j, bs = utf8 text → Text text j → j = sampleEvent.tree :=
  serializeTo_faithful printsFloats_sampleRyu nonFailing_vecWriter sampleEvent []

end Derivation

end WideLog
