import WideLog.Core.Guard
import WideLog.Lib.Except
import WideLog.Macros.Codegen
import WideLog.Macros.Parse

/-!
# The generated program

What `emit` makes of a context: the `EventKey` enum with its `Key` implementation,
the path resolver, the field macros and the writes of a guard that is built.  The
code refers to a key by the variant its name becomes, so the compiler must find
one variant of that name.
-/

namespace WideLog.Macros

/-- The generated code, with its key references resolved. -/
structure Program where
  keys : List KeyEntry
  durationPath : List (Fin keys.length)
  timestampPath : List (Fin keys.length)
  idPath : List (Fin keys.length)
  logKey : String
  levelKey : String
  messageKey : String
  /-- The arms of `__wl_resolve_path`. -/
  resolveArms : List (String × List (Fin keys.length))
  /-- The default statements of `build`. -/
  defaults : List (List (Fin keys.length) × DefaultValue)

/-! ## From a context to a program -/

section Compile

variable (tc : Toolchain)

/-- The variant an identifier refers to. -/
def variantOf (keys : List KeyEntry) (ident : String) : Option (Fin keys.length) :=
  (List.finRange keys.length).find? fun i ↦ keys[i].variant = ident

/-- `EventKey::A, EventKey::B, …` for the segments of a path. -/
def variantsOf (keys : List KeyEntry) (segments : List String) : Option (List (Fin keys.length)) :=
  segments.mapM fun s ↦ variantOf keys (toPascalCase tc s)

/-- A default that `quote!` can print: it panics on a float that is not finite. -/
def DefaultValue.quotable : DefaultValue → Bool
  | .float x => x.isFinite
  | _ => true

/-- `generate`, up to the tokens it emits. -/
def generate (root : JsonNode) (overrides : KeyOverrides) : Except Failure GenContext := do
  let ctx ← GenContext.resolve tc root overrides
  if (ctx.keys.all fun k ↦ tc.isIdent k.variant) ∧ ctx.defaults.all (·.value.quotable) then
    return ctx
  else .error .panic

theorem resolve_of_generate {tc : Toolchain} {root : JsonNode} {overrides : KeyOverrides}
    {ctx : GenContext} (h : generate tc root overrides = .ok ctx) :
    GenContext.resolve tc root overrides = .ok ctx := by
  obtain ⟨c, hresolve, h⟩ := Except.bind_eq_ok_iff.mp h
  split_ifs at h
  cases h
  exact hresolve

/-- The compiler on the emitted code: the variants of the enum are distinct identifiers and
fit its representation, and every variant that is mentioned exists.  A mention is spelled
as the variant is. -/
def compile (ctx : GenContext) : Option Program :=
  if (ctx.keys.map fun k ↦ tc.normalize k.variant).Nodup ∧ ctx.keys.length ≤ 256 then do
    let durationPath ← variantsOf tc ctx.keys ctx.durationSegments
    let timestampPath ← variantsOf tc ctx.keys ctx.timestampSegments
    let idPath ← variantsOf tc ctx.keys ctx.idSegments
    let resolveArms ← ctx.paths.mapM fun p ↦ return (p.dotted, ← variantsOf tc ctx.keys p.segments)
    let defaults ← ctx.defaults.mapM fun d ↦
      return (← variantsOf tc ctx.keys d.segments, d.value)
    return ⟨ctx.keys, durationPath, timestampPath, idPath, ctx.builtin.log, ctx.builtin.level,
      ctx.builtin.message, resolveArms, defaults⟩
  else none

/-- `wide_log!`: the program of an input, if it is accepted. -/
def wideLog (input : List TokenTree) : Option Program := do
  let (overrides, root) ← (parseWideLogInput tc input).toOption
  let ctx ← (generate tc root overrides).toOption
  compile tc ctx

/-- An input that the macro and the compiler accept, and what they make of it. -/
structure Accepted (input : List TokenTree) where
  overrides : KeyOverrides
  root : JsonNode
  ctx : GenContext
  program : Program
  parsed : parseWideLogInput tc input = .ok (overrides, root)
  generated : generate tc root overrides = .ok ctx
  compiled : compile tc ctx = some program

variable {tc}

theorem exists_accepted {input : List TokenTree} {p : Program} (h : wideLog tc input = some p) :
    ∃ a : Accepted tc input, a.program = p := by
  obtain ⟨⟨overrides, root⟩, hparse, h⟩ := Option.bind_eq_some_iff.mp h
  obtain ⟨ctx, hgen, hcompile⟩ := Option.bind_eq_some_iff.mp h
  exact ⟨⟨overrides, root, ctx, p, Except.toOption_eq_some_iff.mp hparse,
    Except.toOption_eq_some_iff.mp hgen, hcompile⟩, rfl⟩

theorem Accepted.wideLog_eq {input : List TokenTree} (a : Accepted tc input) :
    wideLog tc input = some a.program := by
  simp only [wideLog, a.parsed, a.generated, a.compiled, Except.toOption, Option.bind_eq_bind,
    Option.bind_some]

end Compile

namespace Program

variable (p : Program)

theorem finRange_getElem? {n : ℕ} (k : Fin n) : (List.finRange n)[k.val]? = some k := by simp

/-- The generated enum. -/
def EventKey : Type := Fin p.keys.length

instance : DecidableEq p.EventKey := inferInstanceAs (DecidableEq (Fin p.keys.length))

instance : Key p.EventKey where
  asStr k := (p.keys.get k).jsonName
  keys := List.finRange p.keys.length
  asIndex := Fin.val
  durationPath := p.durationPath
  timestampPath := p.timestampPath
  idPath := p.idPath
  logKey := p.logKey
  levelKey := p.levelKey
  messageKey := p.messageKey
  keys_asIndex := finRange_getElem?

/-- The declared dotted paths. -/
def declared : List String := p.resolveArms.map Prod.fst

/-- `__wl_resolve_path`; `none` when its assertion fails. -/
def resolvePath (debugAssertions : Bool) (path : String) : Option (List p.EventKey) :=
  match p.resolveArms.find? (·.1 = path) with
  | some arm => some arm.2
  | none => if debugAssertions then none else some []

/-- The value a default statement inserts. -/
def defaultValue : DefaultValue → Value p.EventKey
  | .str s => .str s
  | .bool b => .bool b
  | .int n => .i64 n
  | .uint n => .u64 n
  | .float x => .f64 x

end Program

/-! ## The macros -/

/-- A use of `wl_set!`, `wl_null!`, `wl_inc!`, `wl_dec!` or `wl_add!`. -/
inductive FieldCall (p : Program) where
  | set (path : String) (value : Value p.EventKey)
  | null (path : String)
  | inc (path : String)
  | dec (path : String)
  | add (path : String) (n : Int64)

/-- The levels of the level macros. -/
inductive Level where
  | trace
  | debug
  | info
  | warn
  | error
deriving DecidableEq, Repr

/-- The level a macro passes on. -/
def Level.asStr : Level → String
  | .trace => "trace"
  | .debug => "debug"
  | .info => "info"
  | .warn => "warn"
  | .error => "error"

/-- A use of `info!` and its like: a literal message or formatted text. -/
structure LogCall where
  level : Level
  message : LogMsg

namespace FieldCall

variable {p : Program}

/-- The path literal of a field macro. -/
def path : FieldCall p → String
  | set path _ => path
  | null path => path
  | inc path => path
  | dec path => path
  | add path _ => path

/-- The operation a field macro issues at the resolved path. -/
def op : FieldCall p → FieldOp p.EventKey
  | set _ value => .set value
  | null _ => .set .null
  | inc _ => .inc
  | dec _ => .dec
  | add _ n => .add n

/-- What a field macro does to an event. -/
def apply (env : Env p.EventKey) (call : FieldCall p) (ev : WideEvent p.EventKey) :
    Outcome (WideEvent p.EventKey) :=
  match p.resolvePath env.debugAssertions call.path with
  | some path => call.op.run env path ev
  | none => .panic ev

/-- A field macro, on the event `current()` returns. -/
def run (env : Env p.EventKey) (call : FieldCall p) :
    Option (WideEvent p.EventKey) → Outcome (Option (WideEvent p.EventKey))
  | none => .ret none
  | some ev => (call.apply env ev).map some

end FieldCall

/-- What a level macro does to an event. -/
def LogCall.apply {K : Type} (call : LogCall) (ev : WideEvent K) : WideEvent K :=
  match call.message with
  | .static message => ev.appendLogEntryStatic call.level.asStr message
  | .owned message => ev.appendLogEntry call.level.asStr message

/-! ## A sample -/

/-- A toolchain that is right about ASCII. -/
def asciiToolchain : Toolchain where
  display _ := "token"
  debugStr s := s!"\"{s}\""
  toUppercase c := [c.toUpper]
  isIdent s := !s.isEmpty ∧ s.toList.all fun c ↦ c.isAlphanum ∨ c = '_'
  normalize s := s

/-- An object of string keys, as tokens. -/
def objectTokens (entries : List (String × List TokenTree)) : TokenTree :=
  .group .brace (entries.flatMap fun (k, v) ↦
    .literal s!"\"{k}\"" :: .punct ':' :: v ++ [.punct ','])

example : ((wideLog asciiToolchain [objectTokens [("status", [.ident "null"])]]).map
    (·.declared)) =
    some ["status", "duration", "duration.total_ms", "event", "event.timestamp", "event.id"] := by
  decide +kernel

end WideLog.Macros
