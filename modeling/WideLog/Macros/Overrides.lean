import WideLog.Macros.Grammar

/-!
# The grammar of the whole input

An override list gives some of eight built-in keys a new name, each at most once and to
a name that the serializer can write.  With it the grammar of schemas becomes one of all
inputs, and the parser accepts just these.
-/

namespace WideLog.Macros

variable {tc : Toolchain}

/-- The built-in keys that can be overridden. -/
inductive OverrideKey where
  | log
  | logLevel
  | logMessage
  | event
  | eventId
  | eventTimestamp
  | duration
  | durationTotalMs
deriving DecidableEq, Repr

/-- How an override names its key. -/
def OverrideKey.path : OverrideKey → List String
  | log => ["Log"]
  | logLevel => ["Log", "Level"]
  | logMessage => ["Log", "Message"]
  | event => ["Event"]
  | eventId => ["Event", "Id"]
  | eventTimestamp => ["Event", "Timestamp"]
  | duration => ["Duration"]
  | durationTotalMs => ["Duration", "TotalMs"]

namespace KeyOverrides

/-- The override of a key, if it is set. -/
def get (ovr : KeyOverrides) : OverrideKey → Option String
  | .log => ovr.log.key
  | .logLevel => ovr.log.level
  | .logMessage => ovr.log.message
  | .event => ovr.event.key
  | .eventId => ovr.event.id
  | .eventTimestamp => ovr.event.timestamp
  | .duration => ovr.duration.key
  | .durationTotalMs => ovr.duration.totalMs

/-- Set the override of a key. -/
def set (ovr : KeyOverrides) (value : String) : OverrideKey → KeyOverrides
  | .log => { ovr with log.key := some value }
  | .logLevel => { ovr with log.level := some value }
  | .logMessage => { ovr with log.message := some value }
  | .event => { ovr with event.key := some value }
  | .eventId => { ovr with event.id := some value }
  | .eventTimestamp => { ovr with event.timestamp := some value }
  | .duration => { ovr with duration.key := some value }
  | .durationTotalMs => { ovr with duration.totalMs := some value }

theorem get_set (ovr : KeyOverrides) (value : String) (k l : OverrideKey) :
    (ovr.set value k).get l = if l = k then some value else ovr.get l := by
  cases k <;> cases l <;> rfl

@[simp] theorem get_default (k : OverrideKey) : KeyOverrides.default.get k = none := by
  cases k <;> rfl

/-- Overrides are known by what they set. -/
theorem ext_get {a b : KeyOverrides} (h : ∀ k, a.get k = b.get k) : a = b := by
  obtain ⟨⟨l₁, l₂, l₃⟩, ⟨e₁, e₂, e₃⟩, ⟨d₁, d₂⟩⟩ := a
  obtain ⟨⟨l₁', l₂', l₃'⟩, ⟨e₁', e₂', e₃'⟩, ⟨d₁', d₂'⟩⟩ := b
  obtain rfl : l₁ = l₁' := h .log
  obtain rfl : l₂ = l₂' := h .logLevel
  obtain rfl : l₃ = l₃' := h .logMessage
  obtain rfl : e₁ = e₁' := h .event
  obtain rfl : e₂ = e₂' := h .eventId
  obtain rfl : e₃ = e₃' := h .eventTimestamp
  obtain rfl : d₁ = d₁' := h .duration
  obtain rfl : d₂ = d₂' := h .durationTotalMs
  rfl

end KeyOverrides

/-! ## The grammar -/

/-- A name that an override may give: it is not empty, has no dot to be split at, and is
written as it is. -/
def ValidName (s : String) : Prop := s ≠ "" ∧ '.' ∉ s.toList ∧ '"' ∉ s.toList ∧ '\\' ∉ s.toList

instance (s : String) : Decidable (ValidName s) := inferInstanceAs (Decidable (_ ∧ _ ∧ _ ∧ _))

/-- The tokens that name a key. -/
def OverrideKey.tokens (k : OverrideKey) : List TokenTree :=
  (k.path.map TokenTree.ident).intersperse (.punct '.')

/-- The tokens of an item: a key, an arrow and a string literal. -/
def itemTokens (k : OverrideKey) (text : String) : List TokenTree :=
  k.tokens ++ [.punct '=', .punct '>', .literal text]

/-- The tokens of override items, separated by commas, of which the last one may stand at
the end. -/
inductive OverrideTokens : List TokenTree → List (OverrideKey × String) → Prop where
  | nil : OverrideTokens [] []
  | last {k : OverrideKey} {text value : String} :
      unescapeJsonString text = .ok value → OverrideTokens (itemTokens k text) [(k, value)]
  | cons {k : OverrideKey} {text value : String} {rest : List TokenTree}
      {items : List (OverrideKey × String)} :
      unescapeJsonString text = .ok value → OverrideTokens rest items →
      OverrideTokens (itemTokens k text ++ .punct ',' :: rest) ((k, value) :: items)

/-- Items that are accepted: there are some, no key comes twice, and the names are valid. -/
structure ValidItems (items : List (OverrideKey × String)) : Prop where
  ne_nil : items ≠ []
  nodup : (items.map Prod.fst).Nodup
  valid : ∀ item ∈ items, ValidName item.2

/-- The overrides are those of the items. -/
def KeyOverrides.OfItems (ovr : KeyOverrides) (items : List (OverrideKey × String)) : Prop :=
  ∀ k, ovr.get k = (items.find? (·.1 = k)).map Prod.snd

/-- The input of the macro: a schema, or override items in brackets, a comma and a schema. -/
inductive InputTokens : List TokenTree → KeyOverrides → JsonNode → Prop where
  | schema {ts : List TokenTree} {node : JsonNode} :
      SchemaTokens ts node → InputTokens ts .default node
  | overrides {inner ts : List TokenTree} {items : List (OverrideKey × String)}
      {ovr : KeyOverrides} {node : JsonNode} :
      OverrideTokens inner items → ValidItems items → ovr.OfItems items → SchemaTokens ts node →
      InputTokens (.group .bracket inner :: .punct ',' :: ts) ovr node

/-! ## Assignments -/

theorem validateOverrideValue_eq_none_iff {path value : String} :
    validateOverrideValue tc path value = none ↔ ValidName value := by
  unfold validateOverrideValue ValidName
  have hempty : value.isEmpty = true ↔ value = "" := String.isEmpty_iff
  split_ifs with h₁ h₂ h₃
  · exact iff_of_false nofun fun h ↦ h.1 (hempty.mp h₁)
  · exact iff_of_false nofun fun h ↦ h.2.1 h₂
  · exact iff_of_false nofun fun h ↦ h₃.elim h.2.2.1 h.2.2.2
  · rw [not_or] at h₃
    exact iff_of_true rfl ⟨fun h ↦ h₁ (hempty.mpr h), h₂, h₃.1, h₃.2⟩

theorem setOnce_ok_iff {path : String} {old : Option String} {ovr ovr' : KeyOverrides} :
    setOnce path old ovr = .ok ovr' ↔ old = none ∧ ovr' = ovr := by
  cases old with
  | none => simp [setOnce, eq_comm]
  | some s => simp [setOnce]

/-- An assignment to a key that is not set yet, to a valid name, is all that succeeds. -/
theorem assignOverride_ok_iff {ovr ovr' : KeyOverrides} {path : List String} {value : String} :
    assignOverride tc ovr path value = .ok ovr' ↔
      ∃ k : OverrideKey, path = k.path ∧ ValidName value ∧ ovr.get k = none ∧
        ovr' = ovr.set value k := by
  unfold assignOverride
  simp only
  cases hvalid : validateOverrideValue tc (".".intercalate path) value with
  | some msg =>
      have hno : ¬ ValidName value := by
        intro hname
        cases hvalid.symm.trans (validateOverrideValue_eq_none_iff.mpr hname)
      exact iff_of_false nofun fun ⟨_, _, hname, _⟩ ↦ hno hname
  | none =>
      have hname := validateOverrideValue_eq_none_iff.mp hvalid
      constructor
      · intro h
        simp only at h
        split at h
        · split_ifs at h with h₁ h₂ h₃ <;> subst_vars <;> rw [setOnce_ok_iff] at h
          · exact ⟨.log, rfl, hname, h⟩
          · exact ⟨.event, rfl, hname, h⟩
          · exact ⟨.duration, rfl, hname, h⟩
        · split_ifs at h with h₁ h₂ h₃ h₄ h₅ <;> rw [setOnce_ok_iff] at h
          · exact ⟨.logLevel, by rw [h₁.1, h₁.2]; rfl, hname, h⟩
          · exact ⟨.logMessage, by rw [h₂.1, h₂.2]; rfl, hname, h⟩
          · exact ⟨.eventId, by rw [h₃.1, h₃.2]; rfl, hname, h⟩
          · exact ⟨.eventTimestamp, by rw [h₄.1, h₄.2]; rfl, hname, h⟩
          · exact ⟨.durationTotalMs, by rw [h₅.1, h₅.2]; rfl, hname, h⟩
        · cases h
      · rintro ⟨k, rfl, -, hnone, rfl⟩
        cases k <;> exact setOnce_ok_iff.mpr ⟨hnone, rfl⟩

/-- The items are assigned one after the other, each to a key that is not set yet. -/
def Assigns : List (OverrideKey × String) → KeyOverrides → KeyOverrides → Prop
  | [], ovr, ovr' => ovr' = ovr
  | (k, value) :: items, ovr, ovr' =>
    ValidName value ∧ ovr.get k = none ∧ Assigns items (ovr.set value k) ovr'

/-- What is looked up after an item is assigned and the rest follows. -/
theorem find?_or_set {items : List (OverrideKey × String)} {k : OverrideKey}
    (hfresh : k ∉ items.map Prod.fst) (value : String) (ovr : KeyOverrides) (l : OverrideKey) :
    ((((k, value) :: items).find? (·.1 = l)).map Prod.snd).or (ovr.get l) =
      ((items.find? (·.1 = l)).map Prod.snd).or ((ovr.set value k).get l) := by
  rw [KeyOverrides.get_set]
  by_cases hkl : l = k
  · subst hkl
    have hnone : items.find? (·.1 = l) = none := by
      rw [List.find?_eq_none]
      exact fun item hitem heq ↦ hfresh (of_decide_eq_true heq ▸ List.mem_map_of_mem hitem)
    simp [hnone]
  · rw [if_neg hkl, List.find?_cons_of_neg (by simpa using Ne.symm hkl)]

/-- Assignments succeed for distinct keys that are not set yet, and set these. -/
theorem assigns_iff {items : List (OverrideKey × String)} {ovr ovr' : KeyOverrides} :
    Assigns items ovr ovr' ↔ (items.map Prod.fst).Nodup ∧ (∀ item ∈ items, ValidName item.2) ∧
      (∀ item ∈ items, ovr.get item.1 = none) ∧
      ∀ k, ovr'.get k = ((items.find? (·.1 = k)).map Prod.snd).or (ovr.get k) := by
  induction items generalizing ovr with
  | nil =>
      constructor
      · rintro rfl
        simp
      · intro h
        exact KeyOverrides.ext_get fun k ↦ h.2.2.2 k
  | cons item items ih =>
      obtain ⟨k, value⟩ := item
      have hset {l : OverrideKey} (hne : l ≠ k) : (ovr.set value k).get l = ovr.get l := by
        rw [KeyOverrides.get_set, if_neg hne]
      have hself : (ovr.set value k).get k = some value := by
        rw [KeyOverrides.get_set, if_pos rfl]
      simp only [Assigns, ih, List.map_cons, List.nodup_cons, List.forall_mem_cons]
      constructor
      · rintro ⟨hname, hnone, hnodup, hnames, hfree, hovr⟩
        have hfresh : k ∉ items.map Prod.fst := by
          intro hmem
          obtain ⟨item, hitem, rfl⟩ := List.mem_map.mp hmem
          cases hself.symm.trans (hfree item hitem)
        refine ⟨⟨hfresh, hnodup⟩, ⟨hname, hnames⟩, ⟨hnone, fun item hitem ↦ ?_⟩, fun l ↦ ?_⟩
        · rw [← hset fun heq ↦ hfresh (heq ▸ List.mem_map_of_mem hitem)]
          exact hfree item hitem
        · rw [hovr, find?_or_set hfresh]
      · rintro ⟨⟨hfresh, hnodup⟩, ⟨hname, hnames⟩, ⟨hnone, hfree⟩, hovr⟩
        refine ⟨hname, hnone, hnodup, hnames, fun item hitem ↦ ?_, fun l ↦ ?_⟩
        · rw [hset fun heq ↦ hfresh (heq ▸ List.mem_map_of_mem hitem)]
          exact hfree item hitem
        · rw [hovr, find?_or_set hfresh]

/-! ## Items -/

theorem parseOverridePath_tokens (k : OverrideKey) (rest : List TokenTree) :
    parseOverridePath tc (k.tokens ++ .punct '=' :: rest) = .ok (k.path, .punct '=' :: rest) := by
  cases k <;> rfl

theorem parseOverridePath_ok {ts rest : List TokenTree} {path : List String}
    (h : parseOverridePath tc ts = .ok (path, rest)) :
    ts = (path.map TokenTree.ident).intersperse (.punct '.') ++ rest := by
  unfold parseOverridePath at h
  split at h
  · split at h
    · split_ifs at h with hc
      · subst hc
        split at h
        · cases h
          rfl
        · cases h
      · cases h
        rfl
    · cases h
      rfl
  · cases h

theorem parseOverrideValue_literal {text value : String}
    (h : unescapeJsonString text = .ok value) (rest : List TokenTree) :
    parseOverrideValue tc (.literal text :: rest) = .ok (value, rest) := by
  have hkey : parseKey tc (.literal text :: rest) = .ok (value, rest) :=
    parseKey_cons (.literal h) rest
  rw [parseKey] at hkey
  rw [parseOverrideValue]
  split_ifs at hkey ⊢
  exact hkey

theorem parseOverrideValue_ok {ts rest : List TokenTree} {value : String}
    (h : parseOverrideValue tc ts = .ok (value, rest)) :
    ∃ text, ts = .literal text :: rest ∧ unescapeJsonString text = .ok value := by
  unfold parseOverrideValue at h
  split at h
  · split_ifs at h
    obtain ⟨v, hv, h⟩ := Except.bind_eq_ok_iff.mp h
    cases h
    exact ⟨_, rfl, hv⟩
  · cases h

/-- One turn of the loop: an item, a separator, and what follows. -/
theorem parseOverrideItems_step (n : ℕ) {k : OverrideKey} {text value : String}
    (rest : List TokenTree) {next : Option (List TokenTree)} {seen : List String}
    {ovr : KeyOverrides} (htext : unescapeJsonString text = .ok value) (hname : ValidName value)
    (hfree : ovr.get k = none) (hseen : ".".intercalate k.path ∉ seen)
    (hnext : separator tc "',' or end of override list" rest = .ok next) :
    parseOverrideItems tc (n + 1) (itemTokens k text ++ rest) seen ovr =
      next.elim (.ok (ovr.set value k)) fun ts ↦
        parseOverrideItems tc n ts (".".intercalate k.path :: seen) (ovr.set value k) := by
  have hassign : assignOverride tc ovr k.path value = .ok (ovr.set value k) :=
    assignOverride_ok_iff.mpr ⟨k, rfl, hname, hfree, rfl⟩
  have htokens : itemTokens k text ++ rest =
      k.tokens ++ .punct '=' :: .punct '>' :: .literal text :: rest := by simp [itemTokens]
  rw [htokens, parseOverrideItems, parseOverridePath_tokens]
  simp only [bind, Except.bind]
  rw [expectPunct_cons]
  simp only
  rw [expectPunct_cons]
  simp only
  rw [parseOverrideValue_literal htext]
  simp only
  rw [if_neg hseen, hassign]
  simp only
  rw [hnext]
  cases next <;> rfl

/-- What a turn of the loop has done where the loop succeeds. -/
theorem parseOverrideItems_cases {n : ℕ} {ts : List TokenTree} {seen : List String}
    {ovr ovr' : KeyOverrides} (h : parseOverrideItems tc (n + 1) ts seen ovr = .ok ovr') :
    ∃ k text value rest next, ts = itemTokens k text ++ rest ∧
      unescapeJsonString text = .ok value ∧ ValidName value ∧ ovr.get k = none ∧
      separator tc "',' or end of override list" rest = .ok next ∧
      next.elim (.ok (ovr.set value k)) (fun ts ↦
        parseOverrideItems tc n ts (".".intercalate k.path :: seen) (ovr.set value k)) =
          .ok ovr' := by
  rw [parseOverrideItems] at h
  obtain ⟨⟨path, ts₁⟩, hpath, h⟩ := Except.bind_eq_ok_iff.mp h
  obtain ⟨ts₂, heq, h⟩ := Except.bind_eq_ok_iff.mp h
  obtain ⟨ts₃, hgt, h⟩ := Except.bind_eq_ok_iff.mp h
  obtain ⟨⟨value, ts₄⟩, hvalue, h⟩ := Except.bind_eq_ok_iff.mp h
  simp only at h
  split_ifs at h
  obtain ⟨ovr₁, hassign, h⟩ := Except.bind_eq_ok_iff.mp h
  obtain ⟨next, hnext, h⟩ := Except.bind_eq_ok_iff.mp h
  obtain ⟨k, rfl, hname, hfree, rfl⟩ := assignOverride_ok_iff.mp hassign
  obtain rfl := expectPunct_ok heq
  obtain rfl := expectPunct_ok hgt
  obtain ⟨text, rfl, htext⟩ := parseOverrideValue_ok hvalue
  refine ⟨k, text, value, ts₄, next, ?_, htext, hname, hfree, hnext, ?_⟩
  · rw [parseOverridePath_ok hpath]
    simp [itemTokens, OverrideKey.tokens]
  · cases next with
    | none => exact h
    | some ts => exact h

/-- The dotted name of a key is its own. -/
theorem label_injective {k l : OverrideKey}
    (h : ".".intercalate k.path = ".".intercalate l.path) : k = l := by
  cases k <;> cases l <;> first | rfl | exact absurd h (by decide +kernel)

/-- The items of a list that is parsed are assigned in their order. -/
theorem parseOverrideItems_ok {n : ℕ} {ts : List TokenTree} {seen : List String}
    {ovr ovr' : KeyOverrides} (h : parseOverrideItems tc n ts seen ovr = .ok ovr') :
    ∃ items, items ≠ [] ∧ OverrideTokens ts items ∧ Assigns items ovr ovr' := by
  induction n generalizing ts seen ovr with
  | zero => simp [parseOverrideItems] at h
  | succ n ih =>
      obtain ⟨k, text, value, rest, next, rfl, htext, hname, hfree, hnext, h⟩ :=
        parseOverrideItems_cases h
      rcases separator_ok hnext with ⟨rfl | rfl, rfl⟩ | ⟨rest, rfl, -, rfl⟩
      · cases h
        rw [List.append_nil]
        exact ⟨[(k, value)], List.cons_ne_nil _ _, .last htext, hname, hfree, rfl⟩
      · cases h
        exact ⟨[(k, value)], List.cons_ne_nil _ _, .cons htext .nil, hname, hfree, rfl⟩
      · obtain ⟨items, -, hitems, hassigns⟩ := ih h
        exact ⟨(k, value) :: items, List.cons_ne_nil _ _, .cons htext hitems, hname, hfree,
          hassigns⟩

theorem OverrideTokens.eq_nil_iff {ts : List TokenTree} {items : List (OverrideKey × String)}
    (h : OverrideTokens ts items) : ts = [] ↔ items = [] := by
  cases h <;> simp [itemTokens]

/-- The tokens of items are parsed to what the items assign. -/
theorem OverrideTokens.parse {ts : List TokenTree} {items : List (OverrideKey × String)}
    (h : OverrideTokens ts items) (hne : items ≠ []) {n : ℕ} (hn : streamSize ts ≤ n)
    {seen : List String} {ovr ovr' : KeyOverrides} (hassigns : Assigns items ovr ovr')
    (hseen : ∀ k : OverrideKey, ".".intercalate k.path ∈ seen → ovr.get k ≠ none) :
    parseOverrideItems tc n ts seen ovr = .ok ovr' := by
  induction h generalizing n seen ovr with
  | nil => exact absurd rfl hne
  | @last k text value htext =>
      obtain ⟨hname, hfree, rfl⟩ := hassigns
      have hpos : 0 < n := Nat.lt_of_lt_of_le (by simp [itemTokens, streamSize_append]) hn
      obtain ⟨m, rfl⟩ := Nat.exists_add_one_eq.mpr hpos
      have hstep : parseOverrideItems tc (m + 1) (itemTokens k text ++ []) seen ovr =
          .ok (ovr.set value k) :=
        parseOverrideItems_step m [] htext hname hfree (fun hmem ↦ hseen k hmem hfree) rfl
      rwa [List.append_nil] at hstep
  | @cons k text value rest items htext hitems ih =>
      obtain ⟨hname, hfree, hrest⟩ := hassigns
      have hsize : streamSize rest + 1 ≤ streamSize (itemTokens k text ++ .punct ',' :: rest) := by
        simp only [streamSize_append, streamSize_cons, size_punct]
        omega
      obtain ⟨m, rfl⟩ := Nat.exists_add_one_eq.mpr (show 0 < n by omega)
      rw [parseOverrideItems_step m _ htext hname hfree (fun hmem ↦ hseen k hmem hfree)
        (separator_cons _ rest)]
      by_cases hnil : items = []
      · obtain rfl := hitems.eq_nil_iff.mpr hnil
        subst hnil
        obtain rfl := hrest
        rfl
      · have hrest' : rest.isEmpty = false := by
          simpa using fun heq ↦ hnil (hitems.eq_nil_iff.mp heq)
        rw [hrest']
        refine ih hnil (by omega) hrest fun l hmem ↦ ?_
        rw [KeyOverrides.get_set]
        rcases List.mem_cons.mp hmem with hlabel | hmem
        · rw [if_pos (label_injective hlabel)]
          nofun
        · split_ifs
          · nofun
          · exact hseen l hmem

/-! ## The whole input -/

/-- What is parsed after the overrides is a schema. -/
theorem parseWideLogInput_ok_iff {input : List TokenTree} {ovr : KeyOverrides} {node : JsonNode} :
    parseWideLogInput tc input = .ok (ovr, node) ↔
      ∃ ts, parseOptionalOverrides tc input = .ok (ovr, ts) ∧ SchemaTokens ts node := by
  unfold parseWideLogInput
  constructor
  · intro h
    obtain ⟨⟨ovr', ts⟩, hovr, h⟩ := Except.bind_eq_ok_iff.mp h
    obtain ⟨⟨v, rest⟩, hv, h⟩ := Except.bind_eq_ok_iff.mp h
    simp only at h
    split_ifs at h with hempty
    obtain ⟨pre, hpre, hvalue⟩ := parseValue_ok _ _ _ _ hv
    rw [List.isEmpty_iff.mp hempty, List.append_nil] at hpre
    split at h
    · cases h
      exact ⟨ts, hovr, .of_value (hpre ▸ hvalue)⟩
    · cases h
  · rintro ⟨ts, hovr, hschema⟩
    obtain ⟨hvalue, entries, rfl⟩ := schemaTokens_iff.mp hschema
    have hparse : parseValue tc (streamSize ts + 1) (ts ++ []) = .ok (.object entries, []) :=
      hvalue.parse (Nat.lt_succ_self _) []
    rw [List.append_nil] at hparse
    simp only [hovr, bind, Except.bind]
    rw [hparse]
    rfl

theorem parseOverrides_ok_iff {inner : List TokenTree} {ovr : KeyOverrides} :
    parseOverrides tc inner = .ok ovr ↔
      ∃ items, OverrideTokens inner items ∧ ValidItems items ∧ ovr.OfItems items := by
  have hassigns {items : List (OverrideKey × String)} (hne : items ≠ []) :
      Assigns items .default ovr ↔ ValidItems items ∧ ovr.OfItems items := by
    rw [assigns_iff]
    simp only [KeyOverrides.get_default, Option.or_none, implies_true, true_and]
    exact ⟨fun h ↦ ⟨⟨hne, h.1, h.2.1⟩, h.2.2⟩, fun h ↦ ⟨h.1.nodup, h.1.valid, h.2⟩⟩
  unfold parseOverrides
  constructor
  · intro h
    split_ifs at h
    obtain ⟨items, hne, hitems, h⟩ := parseOverrideItems_ok h
    exact ⟨items, hitems, (hassigns hne).mp h⟩
  · rintro ⟨items, hitems, hvalid, hovr⟩
    have hinner : ¬ inner.isEmpty := by
      rw [List.isEmpty_iff, hitems.eq_nil_iff]
      exact hvalid.ne_nil
    rw [if_neg hinner]
    exact hitems.parse hvalid.ne_nil le_rfl ((hassigns hvalid.ne_nil).mpr ⟨hvalid, hovr⟩)
      fun k hmem ↦ absurd hmem List.not_mem_nil

/-- An input that is parsed is in the grammar. -/
theorem inputTokens_of_parse {input : List TokenTree} {ovr : KeyOverrides} {node : JsonNode}
    (h : parseWideLogInput tc input = .ok (ovr, node)) : InputTokens input ovr node := by
  obtain ⟨ts, hovr, hschema⟩ := parseWideLogInput_ok_iff.mp h
  unfold parseOptionalOverrides at hovr
  split at hovr
  · obtain ⟨ovr', hitems, hovr⟩ := Except.bind_eq_ok_iff.mp hovr
    obtain ⟨ts', hcomma, hovr⟩ := Except.bind_eq_ok_iff.mp hovr
    cases hovr
    obtain rfl := expectPunct_ok hcomma
    obtain ⟨items, hitems, hvalid, hof⟩ := parseOverrides_ok_iff.mp hitems
    exact .overrides hitems hvalid hof hschema
  · cases hovr
    exact .schema hschema

/-- An input in the grammar is parsed to what it denotes. -/
theorem InputTokens.parse {input : List TokenTree} {ovr : KeyOverrides} {node : JsonNode}
    (h : InputTokens input ovr node) : parseWideLogInput tc input = .ok (ovr, node) := by
  rw [parseWideLogInput_ok_iff]
  rcases h with hschema | ⟨hitems, hvalid, hof, hschema⟩
  · refine ⟨input, ?_, hschema⟩
    cases hschema <;> rfl
  · refine ⟨_, ?_, hschema⟩
    rw [parseOptionalOverrides, parseOverrides_ok_iff.mpr ⟨_, hitems, hvalid, hof⟩]
    simp only [bind, Except.bind]
    rw [expectPunct_cons]
    rfl

/-- **The parser accepts exactly the grammar of its inputs**, with or without overrides,
and returns the overrides and the schema that the tokens denote. -/
theorem parseWideLogInput_ok_iff_tokens {input : List TokenTree} {ovr : KeyOverrides}
    {node : JsonNode} :
    parseWideLogInput tc input = .ok (ovr, node) ↔ InputTokens input ovr node :=
  ⟨inputTokens_of_parse, InputTokens.parse⟩

end WideLog.Macros
