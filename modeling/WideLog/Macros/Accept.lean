import WideLog.Lib.Except
import WideLog.Macros.Parse

/-!
# What the parser accepts

The bounds of the parsers are never reached, since every step reads a token.  The
schema they return declares no key twice in one object, and the override values
are non-empty and contain no dot.
-/

namespace WideLog.Macros

variable {tc : Toolchain}

/-! ## One step of the parsers -/

theorem expectPunct_ok {c : Char} {what : String} {ts rest : List TokenTree}
    (h : expectPunct tc c what ts = .ok rest) : ts = .punct c :: rest := by
  unfold expectPunct at h
  split at h
  · next d rest' =>
      split_ifs at h with hd
      cases h
      rw [hd]
  · cases h

theorem separator_ok {what : String} {ts : List TokenTree} {next : Option (List TokenTree)}
    (h : separator tc what ts = .ok next) :
    (ts = [] ∨ ts = [.punct ',']) ∧ next = none ∨
      ∃ rest, ts = .punct ',' :: rest ∧ rest ≠ [] ∧ next = some rest := by
  unfold separator at h
  split_ifs at h with hts
  · cases h
    exact .inl ⟨.inl (List.isEmpty_iff.mp hts), rfl⟩
  obtain ⟨rest, hrest, h⟩ := Except.bind_eq_ok_iff.mp h
  split_ifs at h with hempty
  · cases h
    rw [expectPunct_ok hrest, List.isEmpty_iff.mp hempty]
    exact .inl ⟨.inr rfl, rfl⟩
  · cases h
    exact .inr ⟨rest, expectPunct_ok hrest, fun hnil ↦ hempty (List.isEmpty_iff.mpr hnil), rfl⟩

/-- The ways in which a value is parsed, with the tokens that are left after it. -/
inductive ParsedValue (tc : Toolchain) (n : ℕ) :
    List TokenTree → JsonNode → List TokenTree → Prop where
  | true {ts : List TokenTree} : ParsedValue tc n (.ident "true" :: ts) (.bool true) ts
  | false {ts : List TokenTree} : ParsedValue tc n (.ident "false" :: ts) (.bool false) ts
  | null {ts : List TokenTree} : ParsedValue tc n (.ident "null" :: ts) .null ts
  | duration {ts : List TokenTree} :
      ParsedValue tc n (.ident "duration" :: .punct '!' :: ts) (.marker .duration) ts
  | counter {ts : List TokenTree} :
      ParsedValue tc n (.ident "counter" :: .punct '!' :: ts) (.marker .counter) ts
  | literal {text : String} {v : JsonNode} {ts : List TokenTree} :
      parseLiteralStr text = .ok v → ParsedValue tc n (.literal text :: ts) v ts
  | negative {text : String} {v : JsonNode} {ts : List TokenTree} :
      parseLiteralStr ("-" ++ text) = .ok v →
      ParsedValue tc n (.punct '-' :: .literal text :: ts) v ts
  | object {inner ts : List TokenTree} {entries : List (String × JsonNode)} :
      parseEntries tc n inner [] = .ok entries →
      ParsedValue tc n (.group .brace inner :: ts) (.object entries) ts
  | parens {inner ts : List TokenTree} {v : JsonNode} :
      parseValue tc n inner = .ok (v, []) → ParsedValue tc n (.group .parenthesis inner :: ts) v ts

/-- One entry of an object, with what is left to parse after its separator. -/
inductive ParsedEntry (tc : Toolchain) (n : ℕ) :
    List TokenTree → String × JsonNode → Option (List TokenTree) → Prop where
  | mk {ts ts₁ ts₂ ts₃ : List TokenTree} {key : String} {v : JsonNode}
      {next : Option (List TokenTree)} :
      parseKey tc ts = .ok (key, ts₁) → expectPunct tc ':' "':' after key" ts₁ = .ok ts₂ →
      parseValue tc n ts₂ = .ok (v, ts₃) →
      separator tc "',' or end of object" ts₃ = .ok next → ParsedEntry tc n ts (key, v) next

theorem parseMarker_ok {s : String} {m : Marker} {ts rest : List TokenTree} {v : JsonNode}
    (h : parseMarker s m ts = .ok (v, rest)) : ts = .punct '!' :: rest ∧ v = .marker m := by
  unfold parseMarker at h
  split at h
  · split_ifs at h with hc
    cases h
    exact ⟨by rw [hc], rfl⟩
  · cases h

theorem parseIdent_cases {n : ℕ} {s : String} {ts rest : List TokenTree} {v : JsonNode}
    (h : parseIdent s ts = .ok (v, rest)) : ParsedValue tc n (.ident s :: ts) v rest := by
  unfold parseIdent at h
  split_ifs at h with hs hs hs hs hs
  · cases h
    rw [hs]
    exact .true
  · cases h
    rw [hs]
    exact .false
  · cases h
    rw [hs]
    exact .null
  · obtain ⟨rfl, rfl⟩ := parseMarker_ok h
    rw [hs]
    exact .duration
  · obtain ⟨rfl, rfl⟩ := parseMarker_ok h
    rw [hs]
    exact .counter

theorem parseNegative_cases {n : ℕ} {ts rest : List TokenTree} {v : JsonNode}
    (h : parseNegative tc ts = .ok (v, rest)) : ParsedValue tc n (.punct '-' :: ts) v rest := by
  unfold parseNegative at h
  split at h
  · cases h
  · obtain ⟨v', hv, h⟩ := Except.bind_eq_ok_iff.mp h
    cases h
    exact .negative hv
  · cases h

/-- What the parser of values has done where it succeeds. -/
theorem parseValue_cases {n : ℕ} {ts rest : List TokenTree} {v : JsonNode}
    (h : parseValue tc (n + 1) ts = .ok (v, rest)) : ParsedValue tc n ts v rest := by
  match ts with
  | [] => cases h
  | .ident s :: ts => exact parseIdent_cases h
  | .punct c :: ts =>
      simp only [parseValue] at h
      split_ifs at h with hc
      rw [hc]
      exact parseNegative_cases h
  | .literal text :: ts =>
      obtain ⟨v', hv, h⟩ := Except.bind_eq_ok_iff.mp h
      cases h
      exact .literal hv
  | .group .brace inner :: ts =>
      obtain ⟨entries, hentries, h⟩ := Except.bind_eq_ok_iff.mp h
      cases h
      exact .object hentries
  | .group .parenthesis inner :: ts =>
      obtain ⟨⟨v', rest'⟩, hv, h⟩ := Except.bind_eq_ok_iff.mp h
      simp only at h
      split_ifs at h with hempty
      cases h
      rw [List.isEmpty_iff.mp hempty] at hv
      exact .parens hv
  | .group .bracket inner :: ts => cases h
  | .group .none inner :: ts => cases h

/-- What the parser of entries has done where it succeeds: nothing was left, or it has
appended an entry with a new key and goes on, unless that was the last. -/
theorem parseEntries_cases {n : ℕ} {ts : List TokenTree} {entries es : List (String × JsonNode)}
    (h : parseEntries tc (n + 1) ts entries = .ok es) :
    ts = [] ∧ es = entries ∨
      ∃ entry next, ParsedEntry tc n ts entry next ∧ entry.1 ∉ entries.map Prod.fst ∧
        next.elim (.ok (entries ++ [entry]))
          (fun ts ↦ parseEntries tc n ts (entries ++ [entry])) = .ok es := by
  rw [parseEntries] at h
  split_ifs at h with hts
  · cases h
    exact .inl ⟨List.isEmpty_iff.mp hts, rfl⟩
  · obtain ⟨⟨key, ts₁⟩, h₁, h⟩ := Except.bind_eq_ok_iff.mp h
    obtain ⟨ts₂, h₂, h⟩ := Except.bind_eq_ok_iff.mp h
    obtain ⟨⟨v, ts₃⟩, h₃, h⟩ := Except.bind_eq_ok_iff.mp h
    simp only at h
    split_ifs at h with hfresh
    obtain ⟨next, h₄, h⟩ := Except.bind_eq_ok_iff.mp h
    refine .inr ⟨(key, v), next, .mk h₁ h₂ h₃ h₄, hfresh, ?_⟩
    cases next with
    | none => exact h
    | some ts₄ => exact h

/-! ## Every step reads a token -/

theorem expectPunct_size {c : Char} {what : String} {ts rest : List TokenTree}
    (h : expectPunct tc c what ts = .ok rest) : streamSize rest < streamSize ts := by
  rw [expectPunct_ok h]
  simp

theorem separator_size {what : String} {ts rest : List TokenTree}
    (h : separator tc what ts = .ok (some rest)) : streamSize rest < streamSize ts := by
  rcases separator_ok h with ⟨-, hnone⟩ | ⟨rest', rfl, -, hsome⟩
  · cases hnone
  · cases hsome
    simp

theorem parseKey_size {ts rest : List TokenTree} {key : String}
    (h : parseKey tc ts = .ok (key, rest)) : streamSize rest < streamSize ts := by
  unfold parseKey at h
  split at h
  · cases h
  · split_ifs at h
    obtain ⟨k, hk, h⟩ := Except.bind_eq_ok_iff.mp h
    cases h
    simp
  · split_ifs at h
    cases h
    simp
  · cases h

theorem size_pos (t : TokenTree) : 0 < t.size := by
  cases t with
  | group d ts =>
      rw [TokenTree.size]
      omega
  | _ => simp

theorem streamSize_lt_cons (t : TokenTree) (ts : List TokenTree) :
    streamSize ts < streamSize (t :: ts) := by
  rw [streamSize_cons]
  exact Nat.lt_add_of_pos_left (size_pos t)

theorem parseValue_size {n : ℕ} {ts rest : List TokenTree} {v : JsonNode}
    (h : parseValue tc n ts = .ok (v, rest)) : streamSize rest < streamSize ts := by
  cases n with
  | zero => simp [parseValue] at h
  | succ n =>
      cases parseValue_cases h with
      | duration | counter | negative =>
          exact (streamSize_lt_cons _ _).trans (streamSize_lt_cons _ _)
      | _ => exact streamSize_lt_cons _ _

mutual

/-- A larger bound than the number of tokens changes nothing. -/
theorem parseValue_bound (n : ℕ) (ts : List TokenTree) (h : streamSize ts < n) :
    parseValue tc (n + 1) ts = parseValue tc n ts :=
  match n, ts with
  | 0, _ => absurd h (Nat.not_lt_zero _)
  | _ + 1, [] => rfl
  | _ + 1, .ident s :: ts => rfl
  | _ + 1, .punct c :: ts => rfl
  | _ + 1, .literal lit :: ts => rfl
  | n + 1, .group d inner :: ts => by
      have hinner : streamSize inner < n := by
        rw [streamSize_cons, size_group] at h
        omega
      cases d with
      | brace => simp only [parseValue, parseEntries_bound n inner [] hinner]
      | parenthesis => simp only [parseValue, parseValue_bound n inner hinner]
      | bracket => rfl
      | none => rfl
termination_by structural n

theorem parseEntries_bound (n : ℕ) (ts : List TokenTree) (entries : List (String × JsonNode))
    (h : streamSize ts < n) : parseEntries tc (n + 1) ts entries = parseEntries tc n ts entries :=
  match n with
  | 0 => absurd h (Nat.not_lt_zero _)
  | n + 1 => by
      rw [parseEntries, parseEntries]
      split_ifs
      · rfl
      · apply Except.bind_congr_ok
        rintro ⟨key, ts₁⟩ h₁
        apply Except.bind_congr_ok
        intro ts₂ h₂
        have hsize₁ := parseKey_size h₁
        have hsize₂ := expectPunct_size h₂
        simp only at hsize₂ ⊢
        rw [parseValue_bound n ts₂ (by omega)]
        apply Except.bind_congr_ok
        rintro ⟨value, ts₃⟩ h₃
        have hsize₃ := parseValue_size h₃
        simp only at hsize₃ ⊢
        split_ifs
        · rfl
        · apply Except.bind_congr_ok
          intro next h₄
          cases next with
          | none => rfl
          | some ts₄ =>
              have hsize₄ := separator_size h₄
              exact parseEntries_bound n ts₄ _ (by omega)
termination_by structural n

end

theorem parseOverridePath_size {ts rest : List TokenTree} {path : List String}
    (h : parseOverridePath tc ts = .ok (path, rest)) : streamSize rest < streamSize ts := by
  unfold parseOverridePath at h
  split at h
  · split at h
    · split_ifs at h
      · split at h
        · cases h
          simp only [streamSize_cons, size_ident, size_punct]
          omega
        · cases h
      · cases h
        simp
    · cases h
      simp
  · cases h

theorem parseOverrideValue_size {ts rest : List TokenTree} {value : String}
    (h : parseOverrideValue tc ts = .ok (value, rest)) : streamSize rest < streamSize ts := by
  unfold parseOverrideValue at h
  split at h
  · split_ifs at h
    obtain ⟨v, hv, h⟩ := Except.bind_eq_ok_iff.mp h
    cases h
    simp
  · cases h

/-- A larger bound on the override list changes nothing either. -/
theorem parseOverrideItems_bound (n : ℕ) (ts : List TokenTree) (seen : List String)
    (ovr : KeyOverrides) (hne : ts ≠ []) (h : streamSize ts ≤ n) :
    parseOverrideItems tc (n + 1) ts seen ovr = parseOverrideItems tc n ts seen ovr := by
  induction n generalizing ts seen ovr with
  | zero =>
      obtain ⟨t, ts, rfl⟩ := List.exists_cons_of_ne_nil hne
      exact absurd (streamSize_lt_cons t ts) (by omega)
  | succ n ih =>
      rw [parseOverrideItems, parseOverrideItems]
      apply Except.bind_congr_ok
      rintro ⟨path, ts₁⟩ h₁
      apply Except.bind_congr_ok
      intro ts₂ h₂
      apply Except.bind_congr_ok
      intro ts₃ h₃
      apply Except.bind_congr_ok
      rintro ⟨value, ts₄⟩ h₄
      have hsize₁ := parseOverridePath_size h₁
      have hsize₂ := expectPunct_size h₂
      have hsize₃ := expectPunct_size h₃
      have hsize₄ := parseOverrideValue_size h₄
      simp only at hsize₂ hsize₃ hsize₄ ⊢
      split_ifs
      · rfl
      · apply Except.bind_congr_ok
        intro ovr' h₅
        apply Except.bind_congr_ok
        intro next h₆
        cases next with
        | none => rfl
        | some ts₅ =>
            have hsize₅ := separator_size h₆
            rcases separator_ok h₆ with ⟨-, hnone⟩ | ⟨rest, -, hrest, hsome⟩
            · cases hnone
            · cases hsome
              exact ih ts₅ _ _ hrest (by omega)

/-- **The bounds that the entry points pass suffice**: with any larger ones the same tokens
are read in the same way, whether they are accepted or not. -/
theorem parse_bounds_suffice (ts : List TokenTree) :
    (∀ n, streamSize ts < n → parseValue tc n ts = parseValue tc (streamSize ts + 1) ts) ∧
      (ts ≠ [] → ∀ n, streamSize ts ≤ n → parseOverrideItems tc n ts [] .default =
        parseOverrideItems tc (streamSize ts) ts [] .default) := by
  constructor
  · intro n h
    induction n, h using Nat.le_induction with
    | base => rfl
    | succ n hn ih => rw [parseValue_bound n ts hn, ih]
  · intro hne n h
    induction n, h using Nat.le_induction with
    | base => rfl
    | succ n hn ih => rw [parseOverrideItems_bound n ts [] .default hne hn, ih]

/-! ## Schemas declare no key twice -/

theorem parseLiteralStr_distinct {s : String} {v : JsonNode} (h : parseLiteralStr s = .ok v) :
    v.DistinctKeys := by
  unfold parseLiteralStr at h
  split_ifs at h
  · obtain ⟨t, ht, h⟩ := Except.bind_eq_ok_iff.mp h
    cases h
    trivial
  · split at h
    · cases h
      trivial
    · cases h

mutual

/-- A parsed value declares no key twice in one object. -/
theorem parseValue_distinct (n : ℕ) (ts rest : List TokenTree) (v : JsonNode)
    (h : parseValue tc n ts = .ok (v, rest)) : v.DistinctKeys :=
  match n with
  | 0 => by simp [parseValue] at h
  | n + 1 => by
      cases parseValue_cases h with
      | true | false | null | duration | counter => trivial
      | literal hv => exact parseLiteralStr_distinct hv
      | negative hv => exact parseLiteralStr_distinct hv
      | object hentries => exact parseEntries_distinct n _ [] _ hentries List.nodup_nil trivial
      | parens hv => exact parseValue_distinct n _ _ _ hv
termination_by structural n

theorem parseEntries_distinct (n : ℕ) (ts : List TokenTree) (entries es : List (String × JsonNode))
    (h : parseEntries tc n ts entries = .ok es) (hk : (entries.map Prod.fst).Nodup)
    (hd : JsonNode.EntriesDistinct entries) : (JsonNode.object es).DistinctKeys :=
  match n with
  | 0 => by simp [parseEntries] at h
  | n + 1 => by
      rcases parseEntries_cases h with ⟨-, rfl⟩ | ⟨⟨key, value⟩, next, hentry, hfresh, hrest⟩
      · exact ⟨hk, hd⟩
      · have hk' : ((entries ++ [(key, value)]).map Prod.fst).Nodup := by
          rw [List.map_append, List.nodup_append]
          refine ⟨hk, by simp, ?_⟩
          rintro a ha b hb rfl
          obtain rfl : a = key := by simpa using hb
          exact hfresh ha
        have hd' : JsonNode.EntriesDistinct (entries ++ [(key, value)]) := by
          obtain ⟨-, -, hvalue, -⟩ := hentry
          rw [JsonNode.entriesDistinct_iff] at hd ⊢
          intro e he
          rcases List.mem_append.mp he with he | he
          · exact hd e he
          · rw [List.mem_singleton.mp he]
            exact parseValue_distinct n _ _ value hvalue
        cases next with
        | none =>
            cases hrest
            exact ⟨hk', hd'⟩
        | some ts' => exact parseEntries_distinct n ts' _ es hrest hk' hd'
termination_by structural n

end

/-! ## Override values -/

/-- The overrides, set or not. -/
def KeyOverrides.values (ovr : KeyOverrides) : List (Option String) :=
  [ovr.log.key, ovr.log.level, ovr.log.message, ovr.event.key, ovr.event.id, ovr.event.timestamp,
    ovr.duration.key, ovr.duration.totalMs]

/-- What is checked of an override value, as far as paths depend on it. -/
def DotFree (s : String) : Prop := s ≠ "" ∧ '.' ∉ s.toList

/-- The overrides that are set are checked. -/
def KeyOverrides.Checked (ovr : KeyOverrides) : Prop := ∀ o ∈ ovr.values, ∀ v ∈ o, DotFree v

theorem KeyOverrides.checked_default : KeyOverrides.default.Checked := by
  simp [KeyOverrides.Checked, KeyOverrides.values, KeyOverrides.default]

/-- A name without dots is the dotted name of its own path only. -/
theorem eq_singleton_of_intercalate {s : String} (hs : DotFree s) {path : List String}
    (h : ".".intercalate path = s) : path = [s] := by
  match path with
  | [] => exact absurd h.symm hs.1
  | [t] => rw [← h, String.intercalate_singleton]
  | t :: u :: rest =>
    rw [String.intercalate_cons_cons] at h
    exact absurd (by simp [← h]) hs.2

/-- The string of an override, or its default, has no dots if the default has none. -/
theorem KeyOverrides.Checked.getD {ovr : KeyOverrides} (h : ovr.Checked) {o : Option String}
    (ho : o ∈ ovr.values) {default : String} (hdefault : DotFree default) :
    DotFree (o.getD default) := by
  cases o with
  | none => exact hdefault
  | some s => exact h _ ho s rfl

theorem dotFree_of_valid {path value : String}
    (h : validateOverrideValue tc path value = none) : DotFree value := by
  unfold validateOverrideValue at h
  split_ifs at h with hempty hdot
  refine ⟨?_, hdot⟩
  rintro rfl
  exact hempty rfl

theorem setOnce_eq {path : String} {old : Option String} {ovr ovr' : KeyOverrides}
    (h : setOnce path old ovr = .ok ovr') : ovr' = ovr := by
  unfold setOnce at h
  split_ifs at h
  cases h
  rfl

/-- An assignment sets one more override, to a value that was checked. -/
theorem assignOverride_checked {ovr ovr' : KeyOverrides} {path : List String} {value : String}
    (h : assignOverride tc ovr path value = .ok ovr') (hovr : ovr.Checked) : ovr'.Checked := by
  unfold assignOverride at h
  simp only at h
  split at h
  · cases h
  · rename_i hvalid
    have hvalue : ∀ v ∈ some value, DotFree v := by simpa using dotFree_of_valid hvalid
    simp only [KeyOverrides.Checked, KeyOverrides.values, List.forall_mem_cons] at hovr
    split at h
    · split_ifs at h <;> rw [setOnce_eq h, KeyOverrides.Checked] <;>
        simp only [KeyOverrides.values, List.forall_mem_cons] <;> tauto
    · split_ifs at h <;> rw [setOnce_eq h, KeyOverrides.Checked] <;>
        simp only [KeyOverrides.values, List.forall_mem_cons] <;> tauto
    · cases h

theorem parseOverrideItems_checked {n : ℕ} {ts : List TokenTree} {seen : List String}
    {ovr ovr' : KeyOverrides} (h : parseOverrideItems tc n ts seen ovr = .ok ovr')
    (hovr : ovr.Checked) : ovr'.Checked := by
  induction n generalizing ts seen ovr with
  | zero => simp [parseOverrideItems] at h
  | succ n ih =>
      rw [parseOverrideItems] at h
      obtain ⟨⟨path, ts₁⟩, -, h⟩ := Except.bind_eq_ok_iff.mp h
      obtain ⟨ts₂, -, h⟩ := Except.bind_eq_ok_iff.mp h
      obtain ⟨ts₃, -, h⟩ := Except.bind_eq_ok_iff.mp h
      obtain ⟨⟨value, ts₄⟩, -, h⟩ := Except.bind_eq_ok_iff.mp h
      simp only at h
      split_ifs at h
      obtain ⟨ovr₁, hassign, h⟩ := Except.bind_eq_ok_iff.mp h
      obtain ⟨next, -, h⟩ := Except.bind_eq_ok_iff.mp h
      have hovr₁ := assignOverride_checked hassign hovr
      cases next with
      | none =>
          cases h
          exact hovr₁
      | some ts₅ => exact ih h hovr₁

theorem parseOptionalOverrides_checked {input ts : List TokenTree} {ovr : KeyOverrides}
    (h : parseOptionalOverrides tc input = .ok (ovr, ts)) : ovr.Checked := by
  unfold parseOptionalOverrides at h
  split at h
  · obtain ⟨ovr', hovr, h⟩ := Except.bind_eq_ok_iff.mp h
    obtain ⟨ts', -, h⟩ := Except.bind_eq_ok_iff.mp h
    cases h
    unfold parseOverrides at hovr
    split_ifs at hovr
    exact parseOverrideItems_checked hovr KeyOverrides.checked_default
  · cases h
    exact KeyOverrides.checked_default

/-- **What the parser accepts**: overrides that are checked, and an object in which
no key is declared twice. -/
theorem parseWideLogInput_ok {input : List TokenTree} {ovr : KeyOverrides} {root : JsonNode}
    (h : parseWideLogInput tc input = .ok (ovr, root)) :
    ovr.Checked ∧ ∃ entries, root = .object entries ∧ root.DistinctKeys := by
  unfold parseWideLogInput at h
  obtain ⟨⟨ovr', ts₁⟩, hovr, h⟩ := Except.bind_eq_ok_iff.mp h
  obtain ⟨⟨node, ts₂⟩, hnode, h⟩ := Except.bind_eq_ok_iff.mp h
  simp only at h
  split_ifs at h
  split at h
  · cases h
    exact ⟨parseOptionalOverrides_checked hovr, _, rfl, parseValue_distinct _ _ _ _ hnode⟩
  · cases h

end WideLog.Macros
