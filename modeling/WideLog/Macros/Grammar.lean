import WideLog.Macros.Accept
import WideLog.Macros.Program

/-!
# The grammar of schemas

The token streams that `parse_wide_log_input` accepts when there is no override list,
as relations between tokens and what they denote, and that the parser accepts just
these.
-/

namespace WideLog.Macros

variable {tc : Toolchain}

/-! ## The grammar -/

/-- A key of an object: a string literal, or an identifier that is no JSON keyword. -/
inductive KeyToken : TokenTree → String → Prop where
  | literal {text key : String} : unescapeJsonString text = .ok key → KeyToken (.literal text) key
  | ident {s : String} : s ≠ "true" → s ≠ "false" → s ≠ "null" → KeyToken (.ident s) s

mutual

/-- The tokens of a value. -/
inductive ValueTokens : List TokenTree → JsonNode → Prop where
  | true : ValueTokens [.ident "true"] (.bool true)
  | false : ValueTokens [.ident "false"] (.bool false)
  | null : ValueTokens [.ident "null"] .null
  | duration : ValueTokens [.ident "duration", .punct '!'] (.marker .duration)
  | counter : ValueTokens [.ident "counter", .punct '!'] (.marker .counter)
  | literal {text : String} {v : JsonNode} :
      parseLiteralStr text = .ok v → ValueTokens [.literal text] v
  | negative {text : String} {v : JsonNode} :
      parseLiteralStr ("-" ++ text) = .ok v → ValueTokens [.punct '-', .literal text] v
  | object {inner : List TokenTree} {entries : List (String × JsonNode)} :
      EntryTokens inner entries → (entries.map Prod.fst).Nodup →
      ValueTokens [.group .brace inner] (.object entries)
  | parens {inner : List TokenTree} {v : JsonNode} :
      ValueTokens inner v → ValueTokens [.group .parenthesis inner] v

/-- The tokens of the entries of an object, separated by commas, of which the last one
may stand at the end. -/
inductive EntryTokens : List TokenTree → List (String × JsonNode) → Prop where
  | nil : EntryTokens [] []
  | last {t : TokenTree} {key : String} {ts : List TokenTree} {v : JsonNode} :
      KeyToken t key → ValueTokens ts v → EntryTokens (t :: .punct ':' :: ts) [(key, v)]
  | cons {t : TokenTree} {key : String} {ts rest : List TokenTree} {v : JsonNode}
      {entries : List (String × JsonNode)} :
      KeyToken t key → ValueTokens ts v → EntryTokens rest entries →
      EntryTokens (t :: .punct ':' :: (ts ++ .punct ',' :: rest)) ((key, v) :: entries)

end

/-- The input of the macro without overrides: one object, which may be in parentheses. -/
inductive SchemaTokens : List TokenTree → JsonNode → Prop where
  | object {inner : List TokenTree} {entries : List (String × JsonNode)} :
      EntryTokens inner entries → (entries.map Prod.fst).Nodup →
      SchemaTokens [.group .brace inner] (.object entries)
  | parens {inner : List TokenTree} {v : JsonNode} :
      SchemaTokens inner v → SchemaTokens [.group .parenthesis inner] v

theorem parseLiteralStr_ne_object {s : String} {entries : List (String × JsonNode)} :
    parseLiteralStr s ≠ .ok (.object entries) := by
  intro h
  unfold parseLiteralStr at h
  split_ifs at h
  · obtain ⟨t, -, h⟩ := Except.bind_eq_ok_iff.mp h
    cases h
  · split at h <;> cases h

theorem SchemaTokens.of_value {ts : List TokenTree} {entries : List (String × JsonNode)} :
    ValueTokens ts (.object entries) → SchemaTokens ts (.object entries)
  | .literal h => absurd h parseLiteralStr_ne_object
  | .negative h => absurd h parseLiteralStr_ne_object
  | .object h hnodup => .object h hnodup
  | .parens h => .parens (of_value h)

/-- A schema is a value that is an object. -/
theorem schemaTokens_iff {ts : List TokenTree} {node : JsonNode} :
    SchemaTokens ts node ↔ ValueTokens ts node ∧ ∃ entries, node = .object entries := by
  constructor
  · intro h
    induction h with
    | object hentries hnodup => exact ⟨.object hentries hnodup, _, rfl⟩
    | parens _ ih => exact ⟨.parens ih.1, ih.2⟩
  · rintro ⟨h, entries, rfl⟩
    exact .of_value h

/-! ## What is accepted is in the grammar -/

theorem parseKey_ok {ts rest : List TokenTree} {key : String}
    (h : parseKey tc ts = .ok (key, rest)) : ∃ t, ts = t :: rest ∧ KeyToken t key := by
  unfold parseKey at h
  split at h
  · cases h
  · split_ifs at h
    obtain ⟨k, hk, h⟩ := Except.bind_eq_ok_iff.mp h
    cases h
    exact ⟨_, rfl, .literal hk⟩
  · next s ts' =>
      split_ifs at h with hs
      cases h
      rw [not_or, not_or] at hs
      exact ⟨_, rfl, .ident hs.1 hs.2.1 hs.2.2⟩
  · cases h

mutual

/-- The tokens a value is parsed from are tokens of it. -/
theorem parseValue_ok (n : ℕ) (ts rest : List TokenTree) (v : JsonNode)
    (h : parseValue tc n ts = .ok (v, rest)) : ∃ pre, ts = pre ++ rest ∧ ValueTokens pre v :=
  match n with
  | 0 => by simp [parseValue] at h
  | n + 1 => by
      cases parseValue_cases h with
      | true => exact ⟨[_], rfl, .true⟩
      | false => exact ⟨[_], rfl, .false⟩
      | null => exact ⟨[_], rfl, .null⟩
      | duration => exact ⟨[_, _], rfl, .duration⟩
      | counter => exact ⟨[_, _], rfl, .counter⟩
      | literal hv => exact ⟨[_], rfl, .literal hv⟩
      | negative hv => exact ⟨[_, _], rfl, .negative hv⟩
      | object hentries =>
          obtain ⟨new, rfl, hnew⟩ := parseEntries_ok n _ [] _ hentries
          have hdistinct := parseEntries_distinct n _ [] _ hentries List.nodup_nil trivial
          exact ⟨[_], rfl, .object hnew hdistinct.1⟩
      | parens hv =>
          obtain ⟨pre, hpre, hvalue⟩ := parseValue_ok n _ _ _ hv
          rw [List.append_nil] at hpre
          exact ⟨[_], rfl, .parens (hpre ▸ hvalue)⟩
termination_by structural n

/-- The entries that are parsed are appended to those that were read before. -/
theorem parseEntries_ok (n : ℕ) (ts : List TokenTree) (entries es : List (String × JsonNode))
    (h : parseEntries tc n ts entries = .ok es) :
    ∃ new, es = entries ++ new ∧ EntryTokens ts new :=
  match n with
  | 0 => by simp [parseEntries] at h
  | n + 1 => by
      rcases parseEntries_cases h with ⟨rfl, rfl⟩ | ⟨⟨key, value⟩, next, hentry, -, hrest⟩
      · exact ⟨[], (List.append_nil _).symm, .nil⟩
      · obtain ⟨h₁, h₂, h₃, h₄⟩ := hentry
        obtain ⟨t, rfl, hkey⟩ := parseKey_ok h₁
        obtain rfl := expectPunct_ok h₂
        obtain ⟨pre, rfl, hvalue⟩ := parseValue_ok n _ _ value h₃
        rcases separator_ok h₄ with ⟨rfl | rfl, rfl⟩ | ⟨rest, rfl, -, rfl⟩
        · cases hrest
          rw [List.append_nil]
          exact ⟨_, rfl, .last hkey hvalue⟩
        · cases hrest
          exact ⟨_, rfl, .cons hkey hvalue .nil⟩
        · obtain ⟨new, rfl, hnew⟩ := parseEntries_ok n rest _ es hrest
          exact ⟨_, List.append_assoc .., .cons hkey hvalue hnew⟩
termination_by structural n

end

/-! ## What is in the grammar is accepted -/

theorem expectPunct_cons (c : Char) (what : String) (rest : List TokenTree) :
    expectPunct tc c what (.punct c :: rest) = .ok rest := if_pos rfl

theorem separator_cons (what : String) (rest : List TokenTree) :
    separator tc what (.punct ',' :: rest) = .ok (if rest.isEmpty then none else some rest) := by
  unfold separator
  rw [expectPunct_cons]
  rfl

theorem parseKey_cons {t : TokenTree} {key : String} (h : KeyToken t key) (rest : List TokenTree) :
    parseKey tc (t :: rest) = .ok (key, rest) := by
  cases h with
  | @literal text _ hkey =>
      have hquote : text.toList.head? = some '"' := by
        unfold unescapeJsonString at hkey
        simp only at hkey
        split_ifs at hkey with hbad
        rw [not_or, not_or, not_ne_iff] at hbad
        exact hbad.2.1
      rw [parseKey, if_pos hquote, hkey]
      rfl
  | ident htrue hfalse hnull =>
      rw [parseKey, if_neg]
      rintro (h | h | h)
      · exact htrue h
      · exact hfalse h
      · exact hnull h

/-- One entry of an object, from its value and what comes after it. -/
theorem parseEntries_step {n : ℕ} {t : TokenTree} {key : String} {ts rest : List TokenTree}
    {v : JsonNode} {entries : List (String × JsonNode)} {next : Option (List TokenTree)}
    (hkey : KeyToken t key) (hv : parseValue tc n (ts ++ rest) = .ok (v, rest))
    (hfresh : key ∉ entries.map Prod.fst)
    (hnext : separator tc "',' or end of object" rest = .ok next) :
    parseEntries tc (n + 1) (t :: .punct ':' :: (ts ++ rest)) entries =
      next.elim (.ok (entries ++ [(key, v)]))
        fun ts ↦ parseEntries tc n ts (entries ++ [(key, v)]) := by
  rw [parseEntries, if_neg (by simp), parseKey_cons hkey]
  simp only [bind, Except.bind]
  rw [expectPunct_cons]
  simp only
  rw [hv]
  simp only
  rw [if_neg hfresh, hnext]
  cases next <;> rfl

theorem fresh_of_nodup {entries new : List (String × JsonNode)} {key : String} {v : JsonNode}
    (h : ((entries ++ (key, v) :: new).map Prod.fst).Nodup) : key ∉ entries.map Prod.fst := by
  rw [List.map_append, List.map_cons, List.nodup_append] at h
  exact fun hkey ↦ h.2.2 key hkey key List.mem_cons_self rfl

theorem streamSize_append (ts ts' : List TokenTree) :
    streamSize (ts ++ ts') = streamSize ts + streamSize ts' := by
  induction ts with
  | nil => exact (Nat.zero_add _).symm
  | cons t ts ih => rw [List.cons_append, streamSize_cons, streamSize_cons, ih, Nat.add_assoc]

mutual

/-- The tokens of a value are parsed to it, whatever comes after them. -/
theorem ValueTokens.parse {pre : List TokenTree} {v : JsonNode} (h : ValueTokens pre v) {n : ℕ}
    (hn : streamSize pre < n) (rest : List TokenTree) :
    parseValue tc n (pre ++ rest) = .ok (v, rest) :=
  match n, h with
  | 0, _ => absurd hn (Nat.not_lt_zero _)
  | _ + 1, .true => rfl
  | _ + 1, .false => rfl
  | _ + 1, .null => rfl
  | _ + 1, .duration => rfl
  | _ + 1, .counter => rfl
  | _ + 1, .literal hv => by
      rw [List.singleton_append, parseValue, hv]
      rfl
  | _ + 1, @ValueTokens.negative text _ hv => by
      have hnegative : parseNegative tc (.literal text :: rest) = .ok (v, rest) := by
        show (parseLiteralStr ("-" ++ text) >>= fun v ↦ pure (v, rest)) = _
        rw [hv]
        rfl
      exact (if_pos rfl).trans hnegative
  | n + 1, @ValueTokens.object inner _ hentries hnodup => by
      have hinner : streamSize inner < n := by
        rw [streamSize_cons, size_group] at hn
        omega
      rw [List.singleton_append, parseValue, hentries.parse hinner [] hnodup]
      rfl
  | n + 1, @ValueTokens.parens inner _ hv => by
      have hinner : streamSize inner < n := by
        rw [streamSize_cons, size_group] at hn
        omega
      have hparse := hv.parse hinner []
      rw [List.append_nil] at hparse
      rw [List.singleton_append, parseValue, hparse]
      rfl

/-- The tokens of entries are parsed to them, unless one repeats a key. -/
theorem EntryTokens.parse {ts : List TokenTree} {new : List (String × JsonNode)}
    (h : EntryTokens ts new) {n : ℕ} (hn : streamSize ts < n) (entries : List (String × JsonNode))
    (hnodup : ((entries ++ new).map Prod.fst).Nodup) :
    parseEntries tc n ts entries = .ok (entries ++ new) :=
  match n, h with
  | 0, _ => absurd hn (Nat.not_lt_zero _)
  | _ + 1, .nil => by
      rw [List.append_nil]
      rfl
  | n + 1, @EntryTokens.last t key ts v hkey hv => by
      have hsize := size_pos t
      have hparse := hv.parse (n := n) (by simp only [streamSize_cons] at hn; omega) []
      have hstep := parseEntries_step hkey hparse (fresh_of_nodup hnodup) rfl
      rw [List.append_nil] at hstep
      exact hstep
  | n + 1, @EntryTokens.cons t key ts rest v es hkey hv hrest => by
      have hsize := size_pos t
      simp only [streamSize_cons, streamSize_append, size_punct] at hn
      have hparse := hv.parse (n := n) (by omega) (.punct ',' :: rest)
      rw [parseEntries_step hkey hparse (fresh_of_nodup hnodup) (separator_cons _ rest)]
      cases rest with
      | nil =>
          cases hrest
          rfl
      | cons t' rest' =>
          rw [List.append_cons entries (key, v) es] at hnodup ⊢
          have hsize' : streamSize (t' :: rest') < n := by omega
          exact hrest.parse hsize' _ hnodup

end

/-- The input begins with a list of overrides. -/
def HasOverrides (input : List TokenTree) : Prop :=
  ∃ inner ts, input = .group .bracket inner :: ts

/-- **The parser accepts exactly its grammar**, and returns the schema the tokens denote. -/
theorem parseWideLogInput_iff {input : List TokenTree} (h : ¬ HasOverrides input)
    {ovr : KeyOverrides} {node : JsonNode} :
    parseWideLogInput tc input = .ok (ovr, node) ↔ ovr = .default ∧ SchemaTokens input node := by
  have hno : parseOptionalOverrides tc input = .ok (.default, input) := by
    unfold parseOptionalOverrides
    split
    · next inner ts => exact absurd ⟨inner, ts, rfl⟩ h
    · rfl
  unfold parseWideLogInput
  rw [hno]
  constructor
  · intro hparse
    obtain ⟨⟨ovr', ts⟩, hovr, hparse⟩ := Except.bind_eq_ok_iff.mp hparse
    cases hovr
    obtain ⟨⟨v, rest⟩, hv, hparse⟩ := Except.bind_eq_ok_iff.mp hparse
    simp only at hparse
    split_ifs at hparse with hempty
    obtain ⟨pre, hpre, hvalue⟩ := parseValue_ok _ _ _ _ hv
    rw [List.isEmpty_iff.mp hempty, List.append_nil] at hpre
    split at hparse
    · cases hparse
      exact ⟨rfl, .of_value (hpre ▸ hvalue)⟩
    · cases hparse
  · rintro ⟨rfl, hschema⟩
    obtain ⟨hvalue, entries, rfl⟩ := schemaTokens_iff.mp hschema
    have hparse : parseValue tc (streamSize input + 1) (input ++ []) = .ok (.object entries, []) :=
      hvalue.parse (Nat.lt_succ_self _) []
    rw [List.append_nil] at hparse
    simp only [bind, Except.bind]
    rw [hparse]
    rfl

/-- An object with a trailing comma, in parentheses. -/
theorem parseWideLogInput_iff_status :
    parseWideLogInput asciiToolchain
      [.group .parenthesis
        [.group .brace [.ident "status", .punct ':', .ident "null", .punct ',']]] =
        .ok (.default, .object [("status", .null)]) :=
  (parseWideLogInput_iff (by rintro ⟨_, _, ⟨⟩⟩)).mpr
    ⟨rfl, .parens (.object (.cons (.ident (by decide) (by decide) (by decide)) .null .nil)
      (List.nodup_singleton _))⟩

end WideLog.Macros
