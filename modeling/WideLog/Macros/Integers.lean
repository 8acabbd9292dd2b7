import Mathlib.Data.List.TakeDrop
import WideLog.Macros.Literal

/-!
# Integer literals

What `parse_literal_str` makes of an integer.  It tries the parsers of the integer types
first and that of the floats last, which takes every integer.
-/

namespace WideLog.Macros

/-- A decimal integer literal: an optional minus, digits and an optional suffix. -/
structure IntegerLiteral where
  neg : Bool
  digits : List Char
  suffix : String
  nonempty : digits ≠ []
  isDigit : ∀ c ∈ digits, c.isDigit
  suffix_mem : suffix ∈ ["", "i64", "u64"]

namespace IntegerLiteral

variable (l : IntegerLiteral)

/-- The sign and the digits. -/
def chars : List Char := (if l.neg then ['-'] else []) ++ l.digits

/-- The text of the literal. -/
def text : String := .ofList (l.chars ++ l.suffix.toList)

/-- What the digits denote. -/
def magnitude : ℕ := Nat.ofDigitChars 10 l.digits 0

/-- The integer that the literal denotes. -/
def value : ℤ := if l.neg then -l.magnitude else l.magnitude

end IntegerLiteral

/-- A node that holds an integer, exactly. -/
inductive HoldsInteger (z : ℤ) : JsonNode → Prop where
  | int {n : Int64} (h : n.toInt = z) : HoldsInteger z (.number (.int n))
  | uint {n : UInt64} (h : (n.toNat : ℤ) = z) : HoldsInteger z (.number (.uint n))

/-! ## The parsers of the standard library -/

theorem parseDigits_eq_none {cs : List Char} {c : Char} (hc : c ∈ cs) (h : ¬ c.isDigit) :
    parseDigits cs = none := by
  refine if_neg fun hall ↦ h ?_
  exact List.all_eq_true.mp hall.2 c hc

theorem parseSuffixed_append {α : Type} (suffix : String) (parse : List Char → Option α)
    (cs : List Char) : parseSuffixed suffix parse (cs ++ suffix.toList) = parse cs := by
  have hrdrop : (cs ++ suffix.toList).rdrop suffix.toList.length = cs := by
    rw [List.rdrop_eq_reverse_drop_reverse, List.reverse_append, ← List.length_reverse,
      List.drop_left, List.reverse_reverse]
  rw [parseSuffixed, if_pos (List.suffix_append _ _), hrdrop]

theorem parseSuffixed_of_notMem {α : Type} {suffix : String} {parse : List Char → Option α}
    {cs : List Char} {c : Char} (hc : c ∈ suffix.toList) (h : c ∉ cs) :
    parseSuffixed suffix parse cs = none :=
  if_neg fun hsuffix ↦ h (hsuffix.mem hc)

namespace IntegerLiteral

variable (l : IntegerLiteral)

theorem parseDigits_digits : parseDigits l.digits = some l.magnitude :=
  if_pos ⟨by simpa using l.nonempty, List.all_eq_true.mpr l.isDigit⟩

theorem head?_digits {c : Char} (hc : ¬ c.isDigit) (rest : List Char) :
    (l.digits ++ rest).head? ≠ some c := by
  obtain ⟨d, ds, hds⟩ := List.exists_cons_of_ne_nil l.nonempty
  rw [hds, List.cons_append, List.head?_cons]
  intro heq
  cases heq
  exact hc (l.isDigit c (hds ▸ List.mem_cons_self))

theorem parseU64_chars :
    parseU64 l.chars =
      if l.neg = false ∧ l.magnitude < 2 ^ 64 then some (.ofNat l.magnitude) else none := by
  rw [parseU64, chars]
  cases hneg : l.neg with
  | true =>
      have hnone : parseDigits ('-' :: l.digits) = none :=
        parseDigits_eq_none List.mem_cons_self (by decide)
      simp [hnone]
  | false =>
      have hplus := l.head?_digits (c := '+') (by decide) []
      rw [List.append_nil] at hplus
      simp [hplus, l.parseDigits_digits]

theorem parseI64_chars :
    parseI64 l.chars =
      if -2 ^ 63 ≤ l.value ∧ l.value < 2 ^ 63 then some (.ofInt l.value) else none := by
  rw [parseI64, chars, value]
  cases hneg : l.neg with
  | true =>
      simp only [if_true, List.singleton_append, List.head?_cons, List.tail_cons,
        l.parseDigits_digits, Option.bind_eq_bind, Option.bind_some]
      exact if_congr (by omega) rfl rfl
  | false =>
      have hplus := l.head?_digits (c := '+') (by decide) []
      have hminus := l.head?_digits (c := '-') (by decide) []
      rw [List.append_nil] at hplus hminus
      simp only [Bool.false_eq_true, if_false, List.nil_append, hplus, hminus,
        l.parseDigits_digits, Option.bind_eq_bind, Option.bind_some]
      exact if_congr (by omega) rfl rfl

/-- The digits are all that is read of the literal as digits. -/
theorem spanDigits_digits (rest : List Char) (h : ∀ c ∈ rest.head?, ¬ c.isDigit) :
    spanDigits (l.digits ++ rest) = (l.digits, rest) := by
  have htake : rest.takeWhile Char.isDigit = [] ∧ rest.dropWhile Char.isDigit = rest := by
    cases rest with
    | nil => exact ⟨rfl, rfl⟩
    | cons c rest =>
        have hc : ¬ c.isDigit := h c rfl
        exact ⟨List.takeWhile_cons_of_neg hc, List.dropWhile_cons_of_neg hc⟩
  rw [spanDigits, List.span_eq_takeWhile_dropWhile, List.takeWhile_append_of_pos l.isDigit,
    List.dropWhile_append_of_pos l.isDigit, htake.1, htake.2, List.append_nil]

/-- No word starts with a digit. -/
theorem map_toLower_ne (rest : List Char) {c : Char} (hc : ¬ c.isDigit) (word : List Char) :
    (l.digits ++ rest).map Char.toLower ≠ c :: word := by
  obtain ⟨d, ds, hds⟩ := List.exists_cons_of_ne_nil l.nonempty
  have hd : d.isDigit := l.isDigit d (hds ▸ List.mem_cons_self)
  have hlower : d.toLower = d := by
    refine dif_neg fun hupper ↦ ?_
    have hle : d.val ≤ '9'.val := of_decide_eq_true (Bool.and_eq_true_iff.mp hd).2
    exact absurd (UInt32.le_trans hupper.1 hle) (by decide)
  rw [hds, List.cons_append, List.map_cons, hlower]
  intro heq
  exact hc ((List.cons_eq_cons.mp heq).1 ▸ hd)

/-- The float parser goes on to the digits. -/
theorem parseF64_chars (rest : List Char) :
    parseF64 (l.chars ++ rest) = (parseDecimal l.neg (l.digits ++ rest)).map .ofDecimal := by
  have hinf : (l.digits ++ rest).map Char.toLower ≠ "inf".toList :=
    l.map_toLower_ne rest (c := 'i') (by decide) _
  have hinfinity : (l.digits ++ rest).map Char.toLower ≠ "infinity".toList :=
    l.map_toLower_ne rest (c := 'i') (by decide) _
  have hnan : (l.digits ++ rest).map Char.toLower ≠ "nan".toList :=
    l.map_toLower_ne rest (c := 'n') (by decide) _
  have hneg : decide ((l.chars ++ rest).head? = some '-') = l.neg := by
    rw [chars]
    cases l.neg with
    | true => rfl
    | false => exact decide_eq_false (l.head?_digits (c := '-') (by decide) rest)
  have hstrip : (if l.neg = true ∨ (l.chars ++ rest).head? = some '+' then
      (l.chars ++ rest).tail else l.chars ++ rest) = l.digits ++ rest := by
    rw [chars]
    cases l.neg with
    | true => rfl
    | false => exact if_neg (by simpa using l.head?_digits (c := '+') (by decide) rest)
  unfold parseF64
  simp only [hneg, hstrip]
  rw [if_neg (not_or.mpr ⟨hinf, hinfinity⟩), if_neg hnan]

/-- The digits are a float. -/
theorem parseDecimal_digits (neg : Bool) :
    parseDecimal neg l.digits = some ⟨neg, l.magnitude, 0⟩ := by
  have hspan := l.spanDigits_digits [] nofun
  rw [List.append_nil] at hspan
  simp [parseDecimal, hspan, l.nonempty, magnitude]

/-- With a suffix, they are none. -/
theorem parseDecimal_suffixed (neg : Bool) {c : Char} (hc : ¬ c.isDigit)
    (hne : c ≠ '.' ∧ c ≠ 'e' ∧ c ≠ 'E') (rest : List Char) :
    parseDecimal neg (l.digits ++ c :: rest) = none := by
  have hspan := l.spanDigits_digits (c :: rest) (by rintro d ⟨⟩; exact hc)
  simp [parseDecimal, hspan, l.nonempty, hne]

/-! ## The cascade -/

theorem mem_chars {c : Char} (hc : c ∈ l.chars) : c = '-' ∨ c.isDigit := by
  rcases List.mem_append.mp hc with h | h
  · split_ifs at h
    · exact .inl (List.mem_singleton.mp h)
    · cases h
  · exact .inr (l.isDigit c h)

theorem notMem_chars {c : Char} (hdigit : ¬ c.isDigit) (hminus : c ≠ '-') : c ∉ l.chars := by
  intro h
  exact (l.mem_chars h).elim hminus hdigit

/-- Without a suffix, the integer parsers come before that of the floats. -/
theorem parseNumber_chars :
    parseNumber l.chars = ((parseU64 l.chars).map .uint).or
      (((parseI64 l.chars).map .int).or ((parseF64 l.chars).map .float)) := by
  have hi : 'i' ∉ l.chars := l.notMem_chars (by decide) (by decide)
  have hu : 'u' ∉ l.chars := l.notMem_chars (by decide) (by decide)
  have hf : 'f' ∉ l.chars := l.notMem_chars (by decide) (by decide)
  rw [parseNumber, parseSuffixed_of_notMem (by decide) hi, parseSuffixed_of_notMem (by decide) hu,
    parseSuffixed_of_notMem (by decide) hf]
  rfl

/-- The literal ends in no suffix with a letter that does not follow it. -/
theorem parseSuffixed_chars {α : Type} {suffix : String} (parse : List Char → Option α)
    {rest : List Char} {c : Char} (hc : c ∈ suffix.toList) (hrest : c ∉ rest) (hdigit : ¬ c.isDigit)
    (hminus : c ≠ '-') : parseSuffixed suffix parse (l.chars ++ rest) = none := by
  refine parseSuffixed_of_notMem hc ?_
  rw [List.mem_append, not_or]
  exact ⟨l.notMem_chars hdigit hminus, hrest⟩

/-- The parsers of numbers without a suffix reject one of an integer type. -/
theorem parsers_suffixed {c : Char} (hc : ¬ c.isDigit) (hne : c ≠ '.' ∧ c ≠ 'e' ∧ c ≠ 'E')
    (rest : List Char) :
    parseU64 (l.chars ++ c :: rest) = none ∧ parseI64 (l.chars ++ c :: rest) = none ∧
      parseF64 (l.chars ++ c :: rest) = none := by
  have hmem : c ∈ l.digits ++ c :: rest := by simp
  have hnone := parseDigits_eq_none hmem hc
  have hnone' : parseDigits ('-' :: (l.digits ++ c :: rest)) = none :=
    parseDigits_eq_none (List.mem_cons_of_mem _ hmem) hc
  have hplus := l.head?_digits (c := '+') (by decide) (c :: rest)
  have hminus := l.head?_digits (c := '-') (by decide) (c :: rest)
  refine ⟨?_, ?_, ?_⟩
  · rw [parseU64, chars]
    cases l.neg with
    | true =>
        rw [if_pos rfl, List.singleton_append, List.cons_append, List.head?_cons,
          if_neg (by decide), hnone']
        rfl
    | false =>
        rw [if_neg Bool.false_ne_true, List.nil_append, if_neg hplus, hnone]
        rfl
  · rw [parseI64, chars]
    cases l.neg with
    | true =>
        rw [if_pos rfl, List.singleton_append, List.cons_append, List.head?_cons, if_pos rfl,
          List.tail_cons, hnone]
        rfl
    | false =>
        rw [if_neg Bool.false_ne_true, List.nil_append, if_neg hminus, if_neg hplus, hnone]
        rfl
  · rw [l.parseF64_chars, l.parseDecimal_suffixed l.neg hc hne rest]
    rfl

theorem parseNumber_i64 :
    parseNumber (l.chars ++ "i64".toList) = (parseI64 l.chars).map .int := by
  have hu : parseSuffixed "u64" parseU64 (l.chars ++ "i64".toList) = none :=
    l.parseSuffixed_chars parseU64 (c := 'u') (by decide) (by decide) (by decide) (by decide)
  have hf : parseSuffixed "f64" parseF64 (l.chars ++ "i64".toList) = none :=
    l.parseSuffixed_chars parseF64 (c := 'f') (by decide) (by decide) (by decide) (by decide)
  have hrest : parseU64 (l.chars ++ "i64".toList) = none ∧
      parseI64 (l.chars ++ "i64".toList) = none ∧ parseF64 (l.chars ++ "i64".toList) = none :=
    l.parsers_suffixed (c := 'i') (by decide) (by decide) ['6', '4']
  rw [parseNumber, parseSuffixed_append, hu, hf, hrest.1, hrest.2.1, hrest.2.2]
  cases parseI64 l.chars <;> rfl

theorem parseNumber_u64 :
    parseNumber (l.chars ++ "u64".toList) = (parseU64 l.chars).map .uint := by
  have hi : parseSuffixed "i64" parseI64 (l.chars ++ "u64".toList) = none :=
    l.parseSuffixed_chars parseI64 (c := 'i') (by decide) (by decide) (by decide) (by decide)
  have hf : parseSuffixed "f64" parseF64 (l.chars ++ "u64".toList) = none :=
    l.parseSuffixed_chars parseF64 (c := 'f') (by decide) (by decide) (by decide) (by decide)
  have hrest : parseU64 (l.chars ++ "u64".toList) = none ∧
      parseI64 (l.chars ++ "u64".toList) = none ∧ parseF64 (l.chars ++ "u64".toList) = none :=
    l.parsers_suffixed (c := 'u') (by decide) (by decide) ['6', '4']
  rw [parseNumber, hi, parseSuffixed_append, hf, hrest.1, hrest.2.1, hrest.2.2]
  cases parseU64 l.chars <;> rfl

/-! ## Exactness -/

/-- The integer parsers are exact. -/
theorem holdsInteger_of_parseU64 {n : UInt64} (h : parseU64 l.chars = some n) :
    HoldsInteger l.value (.number (.uint n)) := by
  rw [l.parseU64_chars] at h
  split_ifs at h with hfits
  cases h
  have hsize : UInt64.size = 2 ^ 64 := rfl
  refine .uint ?_
  rw [UInt64.toNat_ofNat_of_lt' (by omega), value, hfits.1, if_neg Bool.false_ne_true]

theorem holdsInteger_of_parseI64 {n : Int64} (h : parseI64 l.chars = some n) :
    HoldsInteger l.value (.number (.int n)) := by
  rw [l.parseI64_chars] at h
  split_ifs at h with hfits
  cases h
  exact .int (Int64.toInt_ofInt_of_le hfits.1 hfits.2)

theorem toList_text : l.text.toList = l.chars ++ l.suffix.toList := String.toList_ofList

/-- No integer is taken for a string. -/
theorem head?_text : l.text.toList.head? ≠ some '"' := by
  intro h
  rw [l.toList_text, chars] at h
  cases hneg : l.neg with
  | true =>
      rw [hneg] at h
      cases h
  | false =>
      rw [hneg, if_neg Bool.false_ne_true, List.nil_append] at h
      exact l.head?_digits (by decide) _ h

/-- The number that the cascade makes of a literal. -/
theorem parseLiteralStr_text (node : JsonNode) :
    parseLiteralStr l.text = .ok node ↔
      ∃ n, parseNumber (l.chars ++ l.suffix.toList) = some n ∧ node = .number n := by
  rw [parseLiteralStr, if_neg l.head?_text, l.toList_text]
  cases parseNumber (l.chars ++ l.suffix.toList) with
  | none => simp
  | some n => simp [eq_comm]

/-- A literal without a suffix that fits no integer type is a float. -/
theorem parseNumber_float (h : ¬ (-2 ^ 63 ≤ l.value ∧ l.value < 2 ^ 64)) :
    parseNumber l.chars = some (.float (.ofDecimal ⟨l.neg, l.magnitude, 0⟩)) := by
  have hu : ¬ (l.neg = false ∧ l.magnitude < 2 ^ 64) := by
    rintro ⟨hneg, hlt⟩
    rw [value, hneg] at h
    simp only [Bool.false_eq_true, if_false] at h
    omega
  have hi : ¬ (-2 ^ 63 ≤ l.value ∧ l.value < 2 ^ 63) := by omega
  have hf : parseF64 l.chars = some (.ofDecimal ⟨l.neg, l.magnitude, 0⟩) := by
    have hchars := l.parseF64_chars []
    rwa [List.append_nil, List.append_nil, l.parseDecimal_digits] at hchars
  rw [l.parseNumber_chars, l.parseU64_chars, if_neg hu, l.parseI64_chars, if_neg hi, hf]
  rfl

/-- One that fits an integer type is exact. -/
theorem holdsInteger_of_fits (h : -2 ^ 63 ≤ l.value ∧ l.value < 2 ^ 64) {n : Number}
    (hn : parseNumber l.chars = some n) : HoldsInteger l.value (.number n) := by
  rw [l.parseNumber_chars] at hn
  cases hu : parseU64 l.chars with
  | some m =>
      rw [hu] at hn
      cases hn
      exact l.holdsInteger_of_parseU64 hu
  | none =>
      cases hi : parseI64 l.chars with
      | some m =>
          rw [hu, hi] at hn
          cases hn
          exact l.holdsInteger_of_parseI64 hi
      | none =>
          rw [l.parseU64_chars] at hu
          rw [l.parseI64_chars] at hi
          split_ifs at hu hi with hfits hfits'
          rw [value] at h hfits'
          cases hneg : l.neg with
          | true =>
              rw [hneg, if_pos rfl] at h hfits'
              omega
          | false =>
              rw [hneg, if_neg Bool.false_ne_true] at h hfits'
              exact (hfits ⟨hneg, by omega⟩).elim

/-- **An integer is parsed exactly, or rejected, exactly if it has a suffix or fits one of
the integer types.** -/
theorem parsed_exactly_iff :
    (∀ node, parseLiteralStr l.text = .ok node → HoldsInteger l.value node) ↔
      l.suffix ≠ "" ∨ (-2 ^ 63 ≤ l.value ∧ l.value < 2 ^ 64) := by
  simp only [l.parseLiteralStr_text]
  have hsuffix := l.suffix_mem
  simp only [List.mem_cons, List.not_mem_nil, or_false] at hsuffix
  rcases hsuffix with h | h | h
  · rw [h, String.toList_empty, List.append_nil]
    constructor
    · intro hall
      refine .inr (by_contra fun hout ↦ ?_)
      cases hall _ ⟨_, l.parseNumber_float hout, rfl⟩
    · rintro (hne | hfits) node ⟨n, hn, rfl⟩
      · exact absurd rfl hne
      · exact l.holdsInteger_of_fits hfits hn
  · refine ⟨fun _ ↦ .inl (by rw [h]; decide), ?_⟩
    rintro - node ⟨n, hn, rfl⟩
    rw [h, l.parseNumber_i64] at hn
    obtain ⟨m, hm, rfl⟩ := Option.map_eq_some_iff.mp hn
    exact l.holdsInteger_of_parseI64 hm
  · refine ⟨fun _ ↦ .inl (by rw [h]; decide), ?_⟩
    rintro - node ⟨n, hn, rfl⟩
    rw [h, l.parseNumber_u64] at hn
    obtain ⟨m, hm, rfl⟩ := Option.map_eq_some_iff.mp hn
    exact l.holdsInteger_of_parseU64 hm

/-- Twenty nines, which are more than a `u64` can hold. -/
def twentyNines : IntegerLiteral where
  neg := false
  digits := List.replicate 20 '9'
  suffix := ""
  nonempty := List.cons_ne_nil _ _
  isDigit _ hc := List.eq_of_mem_replicate hc ▸ rfl
  suffix_mem := List.mem_cons_self

/-- They are accepted, as a float. -/
theorem not_parsed_exactly :
    ¬ ∀ (l : IntegerLiteral) (node : JsonNode),
      parseLiteralStr l.text = .ok node → HoldsInteger l.value node := by
  intro h
  have hout : ¬ (-2 ^ 63 ≤ twentyNines.value ∧ twentyNines.value < 2 ^ 64) := by decide
  have hparse := twentyNines.parseNumber_float hout
  rw [← List.append_nil twentyNines.chars] at hparse
  cases h twentyNines _ ((twentyNines.parseLiteralStr_text _).mpr ⟨_, hparse, rfl⟩)

end IntegerLiteral

end WideLog.Macros
