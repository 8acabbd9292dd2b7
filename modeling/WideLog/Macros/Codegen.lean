import Mathlib.Data.List.SplitBy
import WideLog.Macros.Schema
import WideLog.Macros.Token

/-!
# The code generator's context

`GenContext` of `codegen.rs`: the key table, the path table, the defaults and the
three automatic paths, and the passes that fill them.
-/

namespace WideLog.Macros

/-- How code generation ends without code: in an error that becomes a compile
error, or in a panic of the macro. -/
inductive Failure where
  | error (message : String)
  | panic
deriving DecidableEq, Repr

/-- An entry of the key table. -/
structure KeyEntry where
  jsonName : String
  variant : String
deriving DecidableEq, Repr

/-- An entry of the path table. -/
structure PathEntry where
  dotted : String
  segments : List String
deriving DecidableEq, Repr

/-- The value of a default. -/
inductive DefaultValue where
  | str (s : String)
  | bool (b : Bool)
  | int (n : Int64)
  | uint (n : UInt64)
  | float (x : F64)
deriving DecidableEq, Repr

/-- A default of the schema. -/
structure DefaultEntry where
  segments : List String
  value : DefaultValue
deriving DecidableEq, Repr

/-- The built-in key strings: the user's override, or the default. -/
structure Builtins where
  log : String
  level : String
  message : String
  event : String
  eventId : String
  eventTimestamp : String
  duration : String
  durationTotalMs : String
deriving DecidableEq, Repr

/-- The built-in key strings under some overrides. -/
def Builtins.of (overrides : KeyOverrides) : Builtins where
  log := overrides.log.key.getD "log"
  level := overrides.log.level.getD "level"
  message := overrides.log.message.getD "message"
  event := overrides.event.key.getD "event"
  eventId := overrides.event.id.getD "id"
  eventTimestamp := overrides.event.timestamp.getD "timestamp"
  duration := overrides.duration.key.getD "duration"
  durationTotalMs := overrides.duration.totalMs.getD "total_ms"

/-- The state of the code generator.  The two maps are association lists. -/
structure GenContext where
  keys : List KeyEntry
  keyIndex : List (String × ℕ)
  paths : List PathEntry
  pathIndex : List (String × ℕ)
  defaults : List DefaultEntry
  durationSegments : List String
  hasDurationMarker : Bool
  timestampSegments : List String
  idSegments : List String
  hasEventKey : Bool
  builtin : Builtins
deriving DecidableEq, Repr

/-- `is_rust_keyword`. -/
def isRustKeyword (s : String) : Bool :=
  ["as", "break", "const", "continue", "crate", "else", "enum", "extern", "false", "fn", "for",
    "if", "impl", "in", "let", "loop", "match", "mod", "move", "mut", "pub", "ref", "return",
    "self", "Self", "static", "struct", "super", "trait", "true", "type", "unsafe", "use",
    "where", "while", "async", "await", "dyn", "abstract", "become", "box", "do", "final",
    "macro", "override", "priv", "typeof", "unsized", "virtual", "yield", "try",
    "union"].contains s

section PascalCase

variable (tc : Toolchain)

/-- A word with its first letter in upper case. -/
def capitalize : List Char → List Char
  | [] => []
  | first :: rest => tc.toUppercase first ++ rest

/-- `to_pascal_case`. -/
def toPascalCase (name : String) : String :=
  let words := name.toList.splitOnP fun c ↦ c = '_' ∨ c = '.'
  let result : String := .ofList (words.flatMap (capitalize tc))
  if isRustKeyword result then result.push '_' else result

end PascalCase

namespace GenContext

/-- `GenContext::new`. -/
def new (overrides : KeyOverrides) : GenContext where
  keys := []
  keyIndex := []
  paths := []
  pathIndex := []
  defaults := []
  durationSegments := []
  hasDurationMarker := false
  timestampSegments := []
  idSegments := []
  hasEventKey := false
  builtin := .of overrides

/-- `add_path`: a path whose dotted name is known is not added. -/
def addPath (segments : List String) (ctx : GenContext) : GenContext :=
  let dotted := ".".intercalate segments
  let known := (ctx.pathIndex.lookup dotted).isSome
  { ctx with
    paths := if known then ctx.paths else ctx.paths ++ [⟨dotted, segments⟩]
    pathIndex := if known then ctx.pathIndex else (dotted, ctx.paths.length) :: ctx.pathIndex }

/-- The default a leaf of the schema declares. -/
def defaultOf : JsonNode → Option DefaultValue
  | .bool b => some (.bool b)
  | .number (.int n) => some (.int n)
  | .number (.uint n) => some (.uint n)
  | .number (.float x) => some (.float x)
  | .str s => some (.str s)
  | _ => none

/-- What `walk` keeps of a node besides its key and its path: the default of a
leaf, and the path of a `duration!` marker. -/
def record (node : JsonNode) (path : List String) (ctx : GenContext) : GenContext :=
  { ctx with
    defaults := ctx.defaults ++ ((defaultOf node).map fun value ↦ ⟨path, value⟩).toList
    hasDurationMarker := node.isDurationMarker || ctx.hasDurationMarker
    durationSegments := if node.isDurationMarker then path else ctx.durationSegments }

variable (tc : Toolchain)

/-- `add_key`: a name that is known is not added.  No caller uses the index. -/
def addKey (name : String) (ctx : GenContext) : GenContext :=
  let known := (ctx.keyIndex.lookup name).isSome
  { ctx with
    keys := if known then ctx.keys else ctx.keys ++ [⟨name, toPascalCase tc name⟩]
    keyIndex := if known then ctx.keyIndex else (name, ctx.keys.length) :: ctx.keyIndex }

/-- What `walk` does at a node: `&path[path.len() - 1]` panics on the empty path. -/
def visit (node : JsonNode) (path : List String) (ctx : GenContext) : Except Failure GenContext :=
  match path.getLast? with
  | none => .error .panic
  | some name => .ok (((ctx.addKey tc name).addPath path).record node path)

mutual

/-- `walk`. -/
def walk : JsonNode → List String → GenContext → Except Failure GenContext
  | .object entries, path, ctx =>
    if path.isEmpty then walkEntries entries path ctx
    else do walkEntries entries path (← visit tc (.object entries) path ctx)
  | node, path, ctx => visit tc node path ctx
termination_by structural node => node

/-- The loop of `walk` over the entries of an object. -/
def walkEntries : List (String × JsonNode) → List String → GenContext → Except Failure GenContext
  | [], _, ctx => .ok ctx
  | (k, v) :: entries, path, ctx => do walkEntries entries path (← walk v (path ++ [k]) ctx)
termination_by structural entries => entries

end

/-! ## The duration -/

/-- `add_duration_subtree`. -/
def addDurationSubtree (leaf : String) (ctx : GenContext) : GenContext :=
  let durationSeg := ctx.builtin.duration
  let ctx := (ctx.addKey tc durationSeg).addKey tc leaf
  let ctx := (ctx.addPath [durationSeg]).addPath [durationSeg, leaf]
  { ctx with hasDurationMarker := true, durationSegments := [durationSeg, leaf] }

/-- The loop that walks the entries of a duration object around its `total_ms`. -/
def walkAroundTotalMs (durationSeg totalMs : String) :
    List (String × JsonNode) → GenContext → Except Failure GenContext
  | [], ctx => .ok ctx
  | (k, v) :: entries, ctx =>
    if k = totalMs then
      let ctx := (ctx.addKey tc totalMs).addPath [durationSeg, totalMs]
      walkAroundTotalMs durationSeg totalMs entries
        { ctx with hasDurationMarker := true, durationSegments := [durationSeg, totalMs] }
    else do
      walkAroundTotalMs durationSeg totalMs entries (← walk tc v [durationSeg, k] ctx)

/-- `resolve_duration_subtree`. -/
def resolveDurationSubtree (node : JsonNode) (ctx : GenContext) : Except Failure GenContext :=
  match node with
  | .object entries =>
    let durationSeg := ctx.builtin.duration
    let totalMs := ctx.builtin.durationTotalMs
    let ctx := (ctx.addKey tc durationSeg).addPath [durationSeg]
    if entries.isEmpty then .ok (ctx.addDurationSubtree tc totalMs)
    else if ctx.hasDurationMarker then walkEntries tc entries [durationSeg] ctx
    else if entries.any (·.2.isDurationMarker) then walkEntries tc entries [durationSeg] ctx
    else if (entries.find? (·.1 = totalMs)).isSome then
      walkAroundTotalMs tc durationSeg totalMs entries ctx
    else match entries.filter (!·.2.isDurationMarker) with
      | [(leaf, _)] =>
        walkEntries tc (entries.filter (·.1 ≠ leaf)) [durationSeg] (ctx.addDurationSubtree tc leaf)
      | _ => .error (.error ("duration object has multiple non-duration leaves and no duration! " ++
          "marker; specify exactly one duration! leaf, or use \"total_ms\": duration!"))
  | _ => .ok (ctx.addDurationSubtree tc ctx.builtin.durationTotalMs)

/-- `auto_add_duration`. -/
def autoAddDuration (root : JsonNode) (ctx : GenContext) : Except Failure GenContext :=
  match root with
  | .object entries => match entries.find? (·.1 = ctx.builtin.duration) with
    | none => .ok (ctx.addDurationSubtree tc ctx.builtin.durationTotalMs)
    | some (_, v) => resolveDurationSubtree tc v ctx
  | _ => .error .panic

/-! ## The event -/

/-- `add_event_subtree`. -/
def addEventSubtree (ctx : GenContext) : GenContext :=
  let eventSeg := ctx.builtin.event
  let timestampSeg := ctx.builtin.eventTimestamp
  let idSeg := ctx.builtin.eventId
  let ctx := ((ctx.addKey tc eventSeg).addKey tc timestampSeg).addKey tc idSeg
  let ctx := ((ctx.addPath [eventSeg]).addPath [eventSeg, timestampSeg]).addPath [eventSeg, idSeg]
  { ctx with
    timestampSegments := [eventSeg, timestampSeg]
    idSegments := [eventSeg, idSeg]
    hasEventKey := true }

/-- A key of the event object: walk what is declared there, or declare the key. -/
def resolveEventKey (eventSeg name : String) (entries : List (String × JsonNode))
    (ctx : GenContext) : Except Failure GenContext :=
  match entries.find? (·.1 = name) with
  | some (_, node) => walk tc node [eventSeg, name] ctx
  | none => .ok ((ctx.addKey tc name).addPath [eventSeg, name])

/-- `resolve_event_subtree`. -/
def resolveEventSubtree (node : JsonNode) (ctx : GenContext) : Except Failure GenContext :=
  let eventSeg := ctx.builtin.event
  let timestamp := ctx.builtin.eventTimestamp
  let id := ctx.builtin.eventId
  match node with
  | .object entries =>
    let ctx := (ctx.addKey tc eventSeg).addPath [eventSeg]
    if entries.isEmpty then .ok (ctx.addEventSubtree tc)
    else do
      let ctx ← resolveEventKey tc eventSeg timestamp entries ctx
      let ctx := { ctx with timestampSegments := [eventSeg, timestamp] }
      let ctx ← resolveEventKey tc eventSeg id entries ctx
      let ctx := { ctx with idSegments := [eventSeg, id] }
      let others := entries.filter fun e ↦ e.1 ≠ timestamp ∧ e.1 ≠ id
      let ctx ← walkEntries tc others [eventSeg] ctx
      return { ctx with hasEventKey := true }
  | _ => .error (.error ("\"event\" key must be an object, e.g. \"event\": \x7b " ++
      "\"timestamp\": null, \"id\": null \x7d"))

/-- `auto_add_event`. -/
def autoAddEvent (root : JsonNode) (ctx : GenContext) : Except Failure GenContext :=
  match root with
  | .object entries => match entries.find? (·.1 = ctx.builtin.event) with
    | none => .ok (ctx.addEventSubtree tc)
    | some (_, v) => resolveEventSubtree tc v ctx
  | _ => .error .panic

/-! ## Validation -/

/-- `validate`: what is wrong with the result, if anything. -/
def validate (ctx : GenContext) : Option String :=
  if ¬ ctx.hasDurationMarker then some "internal error: no duration path was set"
  else if ctx.durationSegments.isEmpty then some "internal error: duration path is empty"
  else if ctx.timestampSegments.isEmpty then some "internal error: timestamp path is empty"
  else if ctx.idSegments.isEmpty then some "internal error: id path is empty"
  else if ctx.defaults.any (·.segments = ctx.idSegments) then
    some ("wide-log: user-supplied default for `event.id` will be overwritten by the default " ++
      "ULID generator at build time. Set `\"event\": \x7b \"id\": null \x7d` to keep the user " ++
      "value, or call `.with_id(...)` / `.with_uuid()` on the builder to use a different ID " ++
      "generator")
  else none

/-- The passes of `generate` before it emits code. -/
def resolve (root : JsonNode) (overrides : KeyOverrides) : Except Failure GenContext := do
  let ctx ← walk tc root [] (new overrides)
  let ctx ← autoAddDuration tc root ctx
  let ctx ← autoAddEvent tc root ctx
  match ctx.validate with
  | some message => .error (.error message)
  | none => return ctx

end GenContext

end WideLog.Macros
