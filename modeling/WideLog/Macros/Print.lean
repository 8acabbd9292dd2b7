import WideLog.Lib.Json.Numeral
import WideLog.Macros.Integers
import WideLog.Macros.Overrides
import WideLog.Macros.Strings

/-!
# Printing an input

Overrides and a schema are printed as tokens that the macro parses to them again: keys
and strings as string literals with the escapes of the serializer, numbers as literals with
the suffix of their type, floats exactly.
-/

namespace WideLog.Macros

variable {tc : Toolchain}

/-! ## Literals -/

/-- A string literal. -/
def strLiteral (s : String) : TokenTree := .literal (.ofList (strText s))

/-- A number, behind its sign. -/
def signedTokens (neg : Bool) (text : List Char) : List TokenTree :=
  (if neg then [.punct '-'] else []) ++ [.literal (.ofList text)]

/-- The exponent of a decimal numeral. -/
def exponentText (exp : ℤ) : List Char :=
  (if exp < 0 then ['-'] else []) ++ Nat.toDigits 10 exp.natAbs

/-- The tokens of a number. -/
def Number.tokens : Number → List TokenTree
  | .int n => signedTokens (n.toInt < 0) (Nat.toDigits 10 n.toInt.natAbs ++ "i64".toList)
  | .uint n => signedTokens false (Nat.toDigits 10 n.toNat ++ "u64".toList)
  | .float x => signedTokens x.toDecimal.neg
    (Nat.toDigits 10 x.toDecimal.coeff ++ ('e' :: exponentText x.toDecimal.exp ++ "f64".toList))

/-- A number that a literal denotes. -/
def Number.Printable : Number → Prop
  | .float x => x.isFinite
  | _ => True

/-- The digits of a number as a literal. -/
def numeral (neg : Bool) (n : ℕ) (suffix : String) (h : suffix ∈ ["", "i64", "u64"]) :
    IntegerLiteral where
  neg := neg
  digits := Nat.toDigits 10 n
  suffix := suffix
  nonempty := (Rfc8259.digits_toDigits n).1
  isDigit := (Rfc8259.digits_toDigits n).2
  suffix_mem := h

theorem magnitude_numeral (neg : Bool) (n : ℕ) (suffix : String)
    (h : suffix ∈ ["", "i64", "u64"]) : (numeral neg n suffix h).magnitude = n :=
  Rfc8259.natOf_toDigits n

/-- What the tokens of a number are parsed to is what the text with its sign is. -/
theorem valueTokens_signed {neg : Bool} {text : List Char} {n : Number}
    (h : parseNumber ((if neg then ['-'] else []) ++ text) = some n)
    (hquote : text.head? ≠ some '"') : ValueTokens (signedTokens neg text) (.number n) := by
  cases neg with
  | true =>
      refine .negative ?_
      have hlist : ("-" ++ String.ofList text).toList = '-' :: text := by simp
      rw [parseLiteralStr, hlist, if_neg (by simp)]
      rw [if_pos rfl, List.singleton_append] at h
      rw [h]
  | false =>
      refine .literal ?_
      rw [if_neg Bool.false_ne_true, List.nil_append] at h
      rw [parseLiteralStr, String.toList_ofList, if_neg hquote, h]

theorem head?_toDigits_append (n : ℕ) (rest : List Char) :
    (Nat.toDigits 10 n ++ rest).head? ≠ some '"' :=
  (numeral false n "" (by decide)).head?_digits (by decide) rest

theorem parseExponent_text (exp : ℤ) : parseExponent (exponentText exp) = some exp := by
  have hdigits := (numeral false exp.natAbs "" (by decide)).parseDigits_digits
  rw [magnitude_numeral] at hdigits
  change parseDigits (Nat.toDigits 10 exp.natAbs) = some exp.natAbs at hdigits
  have hhead {c : Char} (hc : ¬ c.isDigit) : (Nat.toDigits 10 exp.natAbs).head? ≠ some c := by
    have h := (numeral false exp.natAbs "" (by decide)).head?_digits hc []
    rwa [List.append_nil] at h
  unfold parseExponent exponentText
  by_cases hneg : exp < 0
  · simp only [hneg, if_true, List.singleton_append, List.head?_cons, List.tail_cons, hdigits]
    show some (-(exp.natAbs : ℤ)) = some exp
    congr 1
    omega
  · simp only [hneg, if_false, List.nil_append, if_neg (hhead (c := '-') (by decide)),
      if_neg (hhead (c := '+') (by decide)), hdigits]
    show some (exp.natAbs : ℤ) = some exp
    congr 1
    omega

/-- A decimal numeral in exponent notation is read exactly. -/
theorem parseDecimal_exponent (l : IntegerLiteral) (neg : Bool) (exp : ℤ) :
    parseDecimal neg (l.digits ++ 'e' :: exponentText exp) = some ⟨neg, l.magnitude, exp⟩ := by
  have hspan := l.spanDigits_digits ('e' :: exponentText exp) (by rintro c ⟨⟩; decide)
  simp [parseDecimal, hspan, l.nonempty, parseExponent_text, IntegerLiteral.magnitude]

theorem notMem_exponentText {c : Char} (hdigit : ¬ c.isDigit) (hminus : c ≠ '-') (exp : ℤ) :
    c ∉ exponentText exp := by
  have h := (numeral (exp < 0) exp.natAbs "" (by decide)).notMem_chars hdigit hminus
  rw [IntegerLiteral.chars] at h
  simpa [numeral, exponentText] using h

/-- The exact numeral of a finite float, with its suffix, is read as the float. -/
theorem parseNumber_float_text {x : F64} (hx : x.isFinite) :
    parseNumber ((if x.toDecimal.neg then ['-'] else []) ++ (Nat.toDigits 10 x.toDecimal.coeff ++
      ('e' :: exponentText x.toDecimal.exp ++ "f64".toList))) = some (.float x) := by
  set l := numeral x.toDecimal.neg x.toDecimal.coeff "" (by decide) with hl
  have hrest {c : Char} (hc : c = 'i' ∨ c = 'u') :
      c ∉ 'e' :: exponentText x.toDecimal.exp ++ "f64".toList := by
    have hexp : c ∉ exponentText x.toDecimal.exp :=
      notMem_exponentText (by rcases hc with rfl | rfl <;> decide)
        (by rcases hc with rfl | rfl <;> decide) _
    have hsuffix : c ∉ "f64".toList := by rcases hc with rfl | rfl <;> decide
    have hne : c ≠ 'e' := by rcases hc with rfl | rfl <;> decide
    rw [List.cons_append, List.mem_cons, List.mem_append, not_or, not_or]
    exact ⟨hne, hexp, hsuffix⟩
  have hi : parseSuffixed "i64" parseI64
      (l.chars ++ ('e' :: exponentText x.toDecimal.exp ++ "f64".toList)) = none :=
    l.parseSuffixed_chars parseI64 (c := 'i') (by decide) (hrest (.inl rfl)) (by decide) (by decide)
  have hu : parseSuffixed "u64" parseU64
      (l.chars ++ ('e' :: exponentText x.toDecimal.exp ++ "f64".toList)) = none :=
    l.parseSuffixed_chars parseU64 (c := 'u') (by decide) (hrest (.inr rfl)) (by decide) (by decide)
  have hf : parseF64 (l.chars ++ 'e' :: exponentText x.toDecimal.exp) = some x := by
    rw [l.parseF64_chars, parseDecimal_exponent, Option.map_some, hl, magnitude_numeral]
    exact congrArg some (F64.ofDecimal_toDecimal hx)
  have hchars : (if x.toDecimal.neg then ['-'] else []) ++ (Nat.toDigits 10 x.toDecimal.coeff ++
      ('e' :: exponentText x.toDecimal.exp ++ "f64".toList)) =
        l.chars ++ ('e' :: exponentText x.toDecimal.exp ++ "f64".toList) :=
    (List.append_assoc _ _ _).symm
  rw [hchars, parseNumber, hi, hu, ← List.append_assoc, parseSuffixed_append, hf]
  rfl

theorem valueTokens_number {n : Number} (h : n.Printable) :
    ValueTokens n.tokens (.number n) := by
  cases n with
  | int n =>
      refine valueTokens_signed ?_ (head?_toDigits_append _ _)
      have hvalue : (numeral (n.toInt < 0) n.toInt.natAbs "i64" (by decide)).value = n.toInt := by
        rw [IntegerLiteral.value, magnitude_numeral]
        show (if decide (n.toInt < 0) = true then -(n.toInt.natAbs : ℤ) else n.toInt.natAbs) = _
        split_ifs with hneg
        · have := of_decide_eq_true hneg
          omega
        · have := of_decide_eq_false (Bool.not_eq_true _ ▸ hneg)
          omega
      have hparse := (numeral (n.toInt < 0) n.toInt.natAbs "i64" (by decide)).parseNumber_i64
      rw [IntegerLiteral.parseI64_chars, hvalue, if_pos ⟨n.le_toInt, n.toInt_lt⟩,
        Int64.ofInt_toInt, IntegerLiteral.chars, List.append_assoc] at hparse
      exact hparse
  | uint n =>
      refine valueTokens_signed ?_ (head?_toDigits_append _ _)
      have hparse := (numeral false n.toNat "u64" (by decide)).parseNumber_u64
      rw [IntegerLiteral.parseU64_chars, magnitude_numeral, if_pos ⟨rfl, n.toNat_lt⟩,
        UInt64.ofNat_toNat, IntegerLiteral.chars, List.append_assoc] at hparse
      exact hparse
  | float x => exact valueTokens_signed (parseNumber_float_text h) (head?_toDigits_append _ _)

theorem unescape_strText (s : String) : unescapeJsonString (.ofList (strText s)) = .ok s := by
  have h := unescapeJsonString_quoted (s.toList.flatMap charText)
  rw [unescapeChars_flatMap] at h
  refine h.trans ?_
  simp [Except.map]

theorem valueTokens_str (s : String) : ValueTokens [strLiteral s] (.str s) := by
  refine .literal ?_
  have hhead : (String.ofList (strText s)).toList.head? = some '"' := by
    rw [String.toList_ofList]
    rfl
  rw [parseLiteralStr, if_pos hhead, unescape_strText]
  rfl

theorem keyToken_str (s : String) : KeyToken (strLiteral s) s := .literal (unescape_strText s)

/-! ## Schemas -/

namespace JsonNode

mutual

/-- The tokens of a node. -/
def tokens : JsonNode → List TokenTree
  | .null => [.ident "null"]
  | .bool b => [.ident (if b then "true" else "false")]
  | .number n => n.tokens
  | .str s => [strLiteral s]
  | .object entries => [.group .brace (entriesTokens entries)]
  | .marker .duration => [.ident "duration", .punct '!']
  | .marker .counter => [.ident "counter", .punct '!']
termination_by structural node => node

/-- The tokens of the entries of an object, each with a comma behind it. -/
def entriesTokens : List (String × JsonNode) → List TokenTree
  | [] => []
  | (key, v) :: entries =>
    strLiteral key :: .punct ':' :: (v.tokens ++ .punct ',' :: entriesTokens entries)
termination_by structural entries => entries

end

mutual

/-- All numbers of a node are printable: no float in it is infinite or no number. -/
def Printable : JsonNode → Prop
  | .number n => n.Printable
  | .object entries => EntriesPrintable entries
  | _ => True
termination_by structural node => node

def EntriesPrintable : List (String × JsonNode) → Prop
  | [] => True
  | (_, v) :: entries => v.Printable ∧ EntriesPrintable entries
termination_by structural entries => entries

end

mutual

/-- The tokens of a node are tokens of it. -/
theorem valueTokens_tokens (v : JsonNode) (hd : v.DistinctKeys) (hp : v.Printable) :
    ValueTokens v.tokens v :=
  match v with
  | .null => .null
  | .bool true => .true
  | .bool false => .false
  | .number _ => valueTokens_number hp
  | .str s => valueTokens_str s
  | .object entries => .object (entryTokens_tokens entries hd.2 hp) hd.1
  | .marker .duration => .duration
  | .marker .counter => .counter
termination_by structural v

theorem entryTokens_tokens (entries : List (String × JsonNode)) (hd : EntriesDistinct entries)
    (hp : EntriesPrintable entries) : EntryTokens (entriesTokens entries) entries :=
  match entries with
  | [] => .nil
  | (key, v) :: entries =>
      .cons (keyToken_str key) (valueTokens_tokens v hd.1 hp.1)
        (entryTokens_tokens entries hd.2 hp.2)
termination_by structural entries

end

end JsonNode

/-! ## Overrides -/

/-- All keys that can be overridden. -/
def OverrideKey.all : List OverrideKey :=
  [.log, .logLevel, .logMessage, .event, .eventId, .eventTimestamp, .duration, .durationTotalMs]

/-- The overrides that are set. -/
def KeyOverrides.items (ovr : KeyOverrides) : List (OverrideKey × String) :=
  OverrideKey.all.filterMap fun k ↦ (ovr.get k).map fun value ↦ (k, value)

/-- The tokens of override items, each with a comma behind it. -/
def itemsTokens (items : List (OverrideKey × String)) : List TokenTree :=
  items.flatMap fun item ↦ itemTokens item.1 (.ofList (strText item.2)) ++ [.punct ',']

/-- The tokens of an override list and the comma behind it; none if nothing is set. -/
def KeyOverrides.tokens (ovr : KeyOverrides) : List TokenTree :=
  if ovr.items.isEmpty then [] else [.group .bracket (itemsTokens ovr.items), .punct ',']

/-- An input that denotes some overrides and a schema. -/
def printInput (ovr : KeyOverrides) (node : JsonNode) : List TokenTree := ovr.tokens ++ node.tokens

theorem overrideTokens_items (items : List (OverrideKey × String)) :
    OverrideTokens (itemsTokens items) items := by
  induction items with
  | nil => exact .nil
  | cons item items ih =>
      obtain ⟨k, value⟩ := item
      have h := OverrideTokens.cons (k := k) (unescape_strText value) ih
      rwa [← List.singleton_append, ← List.append_assoc] at h

theorem mem_items {ovr : KeyOverrides} {k : OverrideKey} {value : String} :
    (k, value) ∈ ovr.items ↔ ovr.get k = some value := by
  have hall : k ∈ OverrideKey.all := by cases k <;> decide
  simp only [KeyOverrides.items, List.mem_filterMap, Option.map_eq_some_iff, Prod.mk.injEq]
  constructor
  · rintro ⟨_, -, _, h, rfl, rfl⟩
    exact h
  · exact fun h ↦ ⟨k, hall, value, h, rfl, rfl⟩

theorem nodup_items (ovr : KeyOverrides) : (ovr.items.map Prod.fst).Nodup := by
  have hsub (ks : List OverrideKey) :
      ((ks.filterMap fun k ↦ (ovr.get k).map fun value ↦ (k, value)).map Prod.fst).Sublist ks := by
    induction ks with
    | nil => exact List.Sublist.refl []
    | cons k ks ih =>
        cases hk : ovr.get k with
        | none => simpa [hk] using ih.cons k
        | some value => simpa [hk] using ih
  exact (hsub OverrideKey.all).nodup (by decide)

/-- The overrides are those that are set. -/
theorem ofItems_items (ovr : KeyOverrides) : ovr.OfItems ovr.items := by
  intro k
  cases hk : ovr.get k with
  | none =>
      have hnone : ovr.items.find? (·.1 = k) = none := by
        rw [List.find?_eq_none]
        rintro ⟨l, value⟩ hitem heq
        obtain rfl : l = k := of_decide_eq_true heq
        rw [mem_items, hk] at hitem
        cases hitem
      rw [hnone]
      rfl
  | some value =>
      have hmem : (k, value) ∈ ovr.items := mem_items.mpr hk
      have hsome : (ovr.items.find? (·.1 = k)).isSome := by
        rw [List.find?_isSome]
        exact ⟨_, hmem, decide_eq_true rfl⟩
      obtain ⟨⟨l, value'⟩, hfind⟩ := Option.isSome_iff_exists.mp hsome
      obtain rfl : l = k := by simpa using List.find?_some hfind
      have hvalue : ovr.get l = some value' := mem_items.mp (List.mem_of_find?_eq_some hfind)
      rw [hfind, ← hk, hvalue]
      rfl

/-- Printed overrides and a printed schema are an input that denotes them. -/
theorem inputTokens_print {ovr : KeyOverrides} {entries : List (String × JsonNode)}
    (hvalid : ∀ k, ∀ value ∈ ovr.get k, ValidName value)
    (hd : (JsonNode.object entries).DistinctKeys) (hp : (JsonNode.object entries).Printable) :
    InputTokens (printInput ovr (.object entries)) ovr (.object entries) := by
  have hschema : SchemaTokens (JsonNode.object entries).tokens (.object entries) :=
    .of_value (JsonNode.valueTokens_tokens _ hd hp)
  have hof := ofItems_items ovr
  unfold printInput KeyOverrides.tokens
  split_ifs with hempty
  · have hdefault : ovr = .default := by
      refine KeyOverrides.ext_get fun k ↦ ?_
      rw [hof k, List.isEmpty_iff.mp hempty, KeyOverrides.get_default]
      rfl
    rw [hdefault]
    exact .schema hschema
  · refine .overrides (overrideTokens_items ovr.items) ⟨?_, nodup_items ovr, ?_⟩ hof hschema
    · simpa using hempty
    · exact fun item hitem ↦ hvalid item.1 item.2 (mem_items.mp hitem)

/-- The names of overrides that are parsed are valid. -/
theorem InputTokens.valid {input : List TokenTree} {ovr : KeyOverrides} {node : JsonNode}
    (h : InputTokens input ovr node) : ∀ k, ∀ value ∈ ovr.get k, ValidName value := by
  cases h with
  | schema h => simp
  | @overrides _ _ items _ _ _ hvalid hof _ =>
      intro k value hvalue
      rw [hof k, Option.mem_def, Option.map_eq_some_iff] at hvalue
      obtain ⟨item, hfind, rfl⟩ := hvalue
      exact hvalid.valid item (List.mem_of_find?_eq_some hfind)

/-- **Printing what was parsed gives the same input back**, up to the way it is written:
if the parser accepts an input and finds no infinite float in it, it accepts the printed
overrides and schema and finds the same in them. -/
theorem parse_print {input : List TokenTree} {ovr : KeyOverrides} {node : JsonNode}
    (h : parseWideLogInput tc input = .ok (ovr, node)) (hp : node.Printable) (tc' : Toolchain) :
    parseWideLogInput tc' (printInput ovr node) = .ok (ovr, node) := by
  obtain ⟨-, entries, rfl, hd⟩ := parseWideLogInput_ok h
  have hvalid := (inputTokens_of_parse h).valid
  exact (inputTokens_print hvalid hd hp).parse

/-- An override, a negative float, a string with a quote and an empty object. -/
theorem parse_print_sample :
    let node : JsonNode := .object [("x", .number (.float (.ofFields true 1))),
      ("y\"", .object [("z", .str "\u2028")]), ("e", .object [])]
    let ovr : KeyOverrides := KeyOverrides.default.set "logs" .log
    parseWideLogInput asciiToolchain (printInput ovr node) = .ok (ovr, node) := by
  intro node ovr
  have hvalid : ∀ k, ∀ value ∈ ovr.get k, ValidName value := by
    intro k value hvalue
    rw [KeyOverrides.get_set] at hvalue
    split_ifs at hvalue
    · cases hvalue
      decide
    · rw [KeyOverrides.get_default] at hvalue
      cases hvalue
  have hd : node.DistinctKeys := by simp [node, JsonNode.DistinctKeys, JsonNode.EntriesDistinct]
  have hp : node.Printable := by
    simp only [node, JsonNode.Printable, JsonNode.EntriesPrintable, Number.Printable, and_true]
    decide
  have hparse : parseWideLogInput asciiToolchain (printInput ovr node) = .ok (ovr, node) :=
    (inputTokens_print hvalid hd hp).parse
  exact parse_print hparse hp asciiToolchain

end WideLog.Macros
