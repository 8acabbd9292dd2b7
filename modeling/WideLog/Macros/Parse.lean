import WideLog.Macros.Token
import WideLog.Macros.Literal

/-!
# Parsing the macro input

`parse_wide_log_input`: an optional override list in brackets, then the schema as
a JSON object.  A parser takes the tokens that are left and returns those it did
not read.  The parsers that call each other or repeat count down a bound on the
number of tokens; the entry points pass the number of tokens there are.
-/

namespace WideLog.Macros

variable (tc : Toolchain)

/-- The next token in an error, if there is one. -/
def got : List TokenTree → String
  | [] => "end of input"
  | t :: _ => tc.display t

/-- Read one punctuation character, which is part of `what`. -/
def expectPunct (c : Char) (what : String) (ts : List TokenTree) :
    Except String (List TokenTree) :=
  match ts with
  | .punct d :: rest =>
    if d = c then .ok rest else .error s!"expected {what}, got: {got tc ts}"
  | _ => .error s!"expected {what}, got: {got tc ts}"

/-- The end of an item of a list: the tokens of the next item, or `none` after the
last one, which may be followed by a comma. -/
def separator (what : String) (ts : List TokenTree) : Except String (Option (List TokenTree)) :=
  if ts.isEmpty then .ok none
  else do
    let rest ← expectPunct tc ',' what ts
    return if rest.isEmpty then none else some rest

/-! ## The schema -/

/-- `parse_key`. -/
def parseKey : List TokenTree → Except String (String × List TokenTree)
  | [] => .error "expected key in object"
  | .literal s :: ts =>
    if s.toList.head? = some '"' then do return (← unescapeJsonString s, ts)
    else .error s!"object key must be a string literal, got: {s}"
  | .ident s :: ts =>
    if s = "true" ∨ s = "false" ∨ s = "null" then .error s!"invalid object key: {s}"
    else .ok (s, ts)
  | other :: _ => .error s!"object key must be a string literal, got: {tc.display other}"

/-- The exclamation mark of a marker. -/
def parseMarker (s : String) (marker : Marker) :
    List TokenTree → Except String (JsonNode × List TokenTree)
  | .punct c :: ts =>
    if c = '!' then .ok (.marker marker, ts) else .error s!"expected '!' after '{s}' marker"
  | _ => .error s!"expected '!' after '{s}' marker"

/-- The identifiers `parse_value` accepts. -/
def parseIdent (s : String) (ts : List TokenTree) : Except String (JsonNode × List TokenTree) :=
  if s = "true" then .ok (.bool true, ts)
  else if s = "false" then .ok (.bool false, ts)
  else if s = "null" then .ok (.null, ts)
  else if s = "duration" then parseMarker s .duration ts
  else if s = "counter" then parseMarker s .counter ts
  else .error s!"unexpected identifier '{s}' (expected a JSON value)"

/-- The literal `parse_value` expects after a minus sign. -/
def parseNegative : List TokenTree → Except String (JsonNode × List TokenTree)
  | [] => .error "expected literal after '-'"
  | .literal lit :: ts => do return (← parseLiteralStr s!"-{lit}", ts)
  | other :: _ => .error s!"expected literal after '-', got: {tc.display other}"

mutual

/-- `parse_value`. -/
def parseValue : ℕ → List TokenTree → Except String (JsonNode × List TokenTree)
  | 0, _ => .error "too many tokens"
  | _ + 1, [] => .error "unexpected end of input"
  | _ + 1, .ident s :: ts => parseIdent s ts
  | _ + 1, .punct c :: ts =>
    if c = '-' then parseNegative tc ts
    else .error s!"unexpected token: {tc.display (.punct c)}"
  | _ + 1, .literal lit :: ts => do return (← parseLiteralStr lit, ts)
  | n + 1, .group d inner :: ts =>
    match d with
    | .brace => do return (.object (← parseEntries n inner []), ts)
    | .parenthesis => do
      let (v, rest) ← parseValue n inner
      if rest.isEmpty then return (v, ts)
      else .error "unexpected trailing tokens inside parenthesized value"
    | _ => .error s!"unexpected token: {tc.display (.group d inner)}"

/-- `parse_object`, from the entries it has read. -/
def parseEntries : ℕ → List TokenTree → List (String × JsonNode) →
    Except String (List (String × JsonNode))
  | 0, _, _ => .error "too many tokens"
  | n + 1, ts, entries =>
    if ts.isEmpty then .ok entries
    else do
      let (key, ts) ← parseKey tc ts
      let ts ← expectPunct tc ':' "':' after key" ts
      let (value, ts) ← parseValue n ts
      if key ∈ entries.map Prod.fst then .error s!"duplicate key \"{key}\" in wide_log! JSON"
      else match ← separator tc "',' or end of object" ts with
        | none => return entries ++ [(key, value)]
        | some ts => parseEntries n ts (entries ++ [(key, value)])

end

/-! ## Overrides -/

/-- `validate_override_value`: what is wrong with a value, if anything. -/
def validateOverrideValue (path value : String) : Option String :=
  if value.isEmpty then
    some s!"override for `{path}` is empty; this would produce broken JSON output"
  else if '.' ∈ value.toList then
    some (s!"override for `{path}` contains a `.` ({tc.debugStr value}); " ++
      "nested keys must be declared in the JSON body, not via override")
  else if '"' ∈ value.toList ∨ '\\' ∈ value.toList then
    some (s!"override for `{path}` contains a quote or backslash ({tc.debugStr value}); " ++
      "this would produce broken JSON output")
  else none

/-- Set an override that has not been set before. -/
def setOnce (path : String) (old : Option String) (ovr : KeyOverrides) :
    Except String KeyOverrides :=
  if old.isSome then .error s!"duplicate override for {path}" else .ok ovr

/-- `assign_override`. -/
def assignOverride (ovr : KeyOverrides) (path : List String) (value : String) :
    Except String KeyOverrides :=
  let label := ".".intercalate path
  match validateOverrideValue tc label value with
  | some msg => .error msg
  | none =>
    match path with
    | [top] =>
      if top = "Log" then setOnce "Log" ovr.log.key { ovr with log.key := some value }
      else if top = "Event" then setOnce "Event" ovr.event.key { ovr with event.key := some value }
      else if top = "Duration" then
        setOnce "Duration" ovr.duration.key { ovr with duration.key := some value }
      else .error (s!"unknown override top-level key: '{top}' " ++
        "(expected Log, Event, or Duration)")
    | [parent, sub] =>
      if parent = "Log" ∧ sub = "Level" then
        setOnce "Log.Level" ovr.log.level { ovr with log.level := some value }
      else if parent = "Log" ∧ sub = "Message" then
        setOnce "Log.Message" ovr.log.message { ovr with log.message := some value }
      else if parent = "Event" ∧ sub = "Id" then
        setOnce "Event.Id" ovr.event.id { ovr with event.id := some value }
      else if parent = "Event" ∧ sub = "Timestamp" then
        setOnce "Event.Timestamp" ovr.event.timestamp { ovr with event.timestamp := some value }
      else if parent = "Duration" ∧ sub = "TotalMs" then
        setOnce "Duration.TotalMs" ovr.duration.totalMs
          { ovr with duration.totalMs := some value }
      else .error (s!"unknown override path: '{parent}.{sub}' (valid paths: Log.Level, " ++
        "Log.Message, Event.Id, Event.Timestamp, Duration.TotalMs)")
    | _ => .error s!"override path has too many segments: {label} (max 2)"

/-- `parse_override_path`. -/
def parseOverridePath : List TokenTree → Except String (List String × List TokenTree)
  | .ident first :: ts =>
    match ts with
    | .punct c :: rest =>
      if c = '.' then match rest with
        | .ident second :: rest => .ok ([first, second], rest)
        | _ => .error s!"expected sub-key identifier after '.', got: {got tc rest}"
      else .ok ([first], ts)
    | _ => .ok ([first], ts)
  | ts => .error s!"expected override path identifier, got: {got tc ts}"

/-- The value of an override. -/
def parseOverrideValue : List TokenTree → Except String (String × List TokenTree)
  | .literal s :: ts =>
    if s.toList.head? = some '"' then do return (← unescapeJsonString s, ts)
    else .error s!"override value must be a string literal, got: {s}"
  | ts => .error s!"override value must be a string literal, got: {got tc ts}"

/-- The loop of `parse_overrides`, from what it has seen and assigned. -/
def parseOverrideItems : ℕ → List TokenTree → List String → KeyOverrides →
    Except String KeyOverrides
  | 0, _, _, _ => .error "too many tokens"
  | n + 1, ts, seen, ovr => do
    let (path, ts) ← parseOverridePath tc ts
    let ts ← expectPunct tc '=' "'=>' after override path" ts
    let ts ← expectPunct tc '>' "'=>' after override path" ts
    let (value, ts) ← parseOverrideValue tc ts
    let label := ".".intercalate path
    if label ∈ seen then .error s!"duplicate override path: {label}"
    else
      let ovr ← assignOverride tc ovr path value
      match ← separator tc "',' or end of override list" ts with
      | none => return ovr
      | some ts => parseOverrideItems n ts (label :: seen) ovr

/-- `parse_overrides`, on the content of the brackets. -/
def parseOverrides (inner : List TokenTree) : Except String KeyOverrides :=
  if inner.isEmpty then .error "override list is empty"
  else parseOverrideItems tc (streamSize inner) inner [] .default

/-- The override list in front of the schema, if there is one. -/
def parseOptionalOverrides (input : List TokenTree) :
    Except String (KeyOverrides × List TokenTree) :=
  match input with
  | .group .bracket inner :: ts => do
    let ovr ← parseOverrides tc inner
    let ts ← expectPunct tc ',' "',' after override list" ts
    return (ovr, ts)
  | ts => .ok (.default, ts)

/-- `parse_wide_log_input`. -/
def parseWideLogInput (input : List TokenTree) :
    Except String (KeyOverrides × JsonNode) := do
  let (ovr, ts) ← parseOptionalOverrides tc input
  let (node, ts) ← parseValue tc (streamSize ts + 1) ts
  if ¬ ts.isEmpty then .error "unexpected trailing tokens after JSON value"
  else match node with
    | .object _ => .ok (ovr, node)
    | _ => .error "wide_log! expects a JSON object literal: \x7b ... \x7d"

end WideLog.Macros
