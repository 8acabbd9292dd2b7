import WideLog.Macros.KeyTable
import WideLog.Macros.Resolve
import WideLog.Serialize.Names

/-!
# A guard from build to drop

The event of a guard: `build` fills it, the macros change it while it is current, and
the drop writes to it once more before it is serialized.
-/

namespace WideLog.Macros

/-! ## The generated guard -/

/-- A use of a generated macro. -/
inductive MacroCall (p : Program) where
  | field (call : FieldCall p)
  | log (call : LogCall)

/-- What a macro does to the current event. -/
def MacroCall.apply {p : Program} (env : Env p.EventKey) :
    MacroCall p → WideEvent p.EventKey → Outcome (WideEvent p.EventKey)
  | field call => call.apply env
  | log call => fun ev ↦ .ret (call.apply ev)

/-- What a default statement inserts, and where. -/
def Program.write (p : Program) (d : List p.EventKey × DefaultValue) :
    List p.EventKey × Value p.EventKey :=
  (d.1, p.defaultValue d.2)

/-- The default statements of `build`. -/
def applyDefaults {p : Program} (env : Env p.EventKey) :
    List (List p.EventKey × DefaultValue) → WideEvent p.EventKey → Outcome (WideEvent p.EventKey)
  | [], ev => .ret ev
  | (path, value) :: defaults, ev =>
    (ev.addPath env path (p.defaultValue value)).bind (applyDefaults env defaults)

/-- A closure that is applied to a new event. -/
abbrev Preset (p : Program) : Type := WideEvent p.EventKey → Outcome (WideEvent p.EventKey)

/-- `build`, as far as the event is concerned: the defaults, the preset, the id. -/
def Program.build (p : Program) (env : Env p.EventKey) (preset : Option (Preset p))
    (id : String) : Outcome (WideEvent p.EventKey) :=
  ((applyDefaults env p.defaults .new).bind (preset.getD .ret)).bind fun ev ↦
    ev.addPath env Key.idPath (.str id)

/-- What happens to a guard.  A macro that panics either unwinds through the drop or is
caught before it, and leaves the event as it is then. -/
structure GuardRun (p : Program) where
  env : Env p.EventKey
  preset : Option (Preset p)
  id : String
  calls : List (MacroCall p)
  elapsed : String → F64
  now : String

namespace GuardRun

variable {p : Program} (run : GuardRun p)

/-- The event after the macros. -/
def afterCalls (ev : WideEvent p.EventKey) : WideEvent p.EventKey :=
  run.calls.foldl (fun ev call ↦ (call.apply run.env ev).state) ev

/-- The event that is emitted. -/
def event : Outcome (WideEvent p.EventKey) :=
  (p.build run.env run.preset run.id).bind fun ev ↦
    (run.afterCalls ev).dropWrites run.env run.elapsed run.now

/-- What `serialize_to` makes of the event, if the guard gets as far as emitting it. -/
def output (ryu : F64 → String) : Option (List UInt8) :=
  match run.event with
  | .ret ev => (serializeTo vecWriter ryu ev []).toOption
  | .panic _ => none

end GuardRun

/-! ## What the program takes from the context -/

/-- The parts of a program that the event code reads, in terms of names. -/
structure Program.Reads (p : Program) (ctx : GenContext) : Prop where
  keyStrs : keyStrs p.EventKey = ctx.names
  durationPath : (Key.durationPath : List p.EventKey).map Key.asStr = ctx.durationSegments
  timestampPath : (Key.timestampPath : List p.EventKey).map Key.asStr = ctx.timestampSegments
  idPath : (Key.idPath : List p.EventKey).map Key.asStr = ctx.idSegments
  logKey : Key.logKey p.EventKey = ctx.builtin.log
  levelKey : Key.levelKey p.EventKey = ctx.builtin.level
  messageKey : Key.messageKey p.EventKey = ctx.builtin.message
  defaults : ∀ d ∈ p.defaults, d.1 ≠ []

namespace Accepted

variable {tc : Toolchain} {input : List TokenTree} (a : Accepted tc input)

theorem reads : a.program.Reads a.ctx := by
  obtain ⟨hnodup, dur, ts, id, arms, defaults, hdur, hts, hid, -, hdefaults, hp⟩ :=
    compile_ok a.compiled
  have htables := a.tables
  rw [hp]
  refine ⟨?_, jsonNames_variantsOf htables hnodup htables.duration hdur,
    jsonNames_variantsOf htables hnodup htables.timestamp hts,
    jsonNames_variantsOf htables hnodup htables.id hid, rfl, rfl, rfl, ?_⟩
  · have hget : (List.finRange a.ctx.keys.length).map a.ctx.keys.get = a.ctx.keys :=
      List.map_get_finRange a.ctx.keys
    have hnames := congrArg (List.map KeyEntry.jsonName) hget
    rw [List.map_map] at hnames
    exact hnames
  · intro d hd hnil
    obtain ⟨e, he, -, hvariants⟩ := hdefaults.exists_of_mem hd
    have hlen := (List.forall₂_of_mapM hvariants).length_eq
    rw [hnil] at hlen
    exact (htables.defaults e he).1 (List.eq_nil_of_length_eq_zero hlen)

/-- The program reads the key strings of the input. -/
theorem builtin_eq : a.ctx.builtin = .of a.overrides := by
  obtain ⟨entries, hroot, -⟩ := a.exists_entries
  obtain ⟨hwalk, hrest⟩ := GenContext.resolve_edits (hroot ▸ a.resolved)
  exact hrest.builtin_eq.trans hwalk.builtin_eq

theorem resolvedFields : ∃ dur, ResolvedFields (.of a.overrides) a.root a.ctx dur := by
  obtain ⟨entries, hroot, hd⟩ := a.exists_entries
  rw [hroot] at hd ⊢
  exact exists_resolvedFields hd (hroot ▸ a.resolved)

/-! ## Building a guard -/

theorem quiet_new {K : Type} [Key K] : (WideEvent.new : WideEvent K).Quiet :=
  WideEvent.everywhere_new rfl rfl

theorem everywhere_defaultValue {p : Program} {P : WideEvent p.EventKey → Prop}
    (value : DefaultValue) : (p.defaultValue value).Everywhere P := by
  cases value with
  | str s => exact .str s
  | bool b => exact .bool b
  | int n => exact .i64 n
  | uint n => exact .u64 n
  | float x => exact .f64 x

/-- The default statements are insertions. -/
theorem applyDefaults_eq {p : Program} (env : Env p.EventKey)
    {defaults : List (List p.EventKey × DefaultValue)} (hne : ∀ d ∈ defaults, d.1 ≠ [])
    {ev : WideEvent p.EventKey} (hq : ev.Quiet) :
    applyDefaults env defaults ev = .ret (ev.insertAll (defaults.map p.write)) := by
  induction defaults generalizing ev with
  | nil => rfl
  | cons d defaults ih =>
      obtain ⟨path, value⟩ := d
      rw [List.forall_mem_cons] at hne
      rw [applyDefaults, WideEvent.addPath_eq_insert env hne.1 (p.defaultValue value) hq,
        Outcome.bind_ret]
      exact ih hne.2 (hq.insert WideEvent.stable_quiet (everywhere_defaultValue value) path)

theorem applyDefaults_ret {p : Program} (env : Env p.EventKey)
    {defaults : List (List p.EventKey × DefaultValue)} (hne : ∀ d ∈ defaults, d.1 ≠ [])
    {ev : WideEvent p.EventKey} (hq : ev.Quiet) :
    ∃ ev', applyDefaults env defaults ev = .ret ev' ∧ ev'.Quiet := by
  refine ⟨_, applyDefaults_eq env hne hq, hq.insertAll WideEvent.stable_quiet ?_⟩
  rw [List.forall_mem_map]
  exact fun d _ ↦ everywhere_defaultValue d.2

/-- Without a preset, building a guard succeeds. -/
theorem build_ret (env : Env a.program.EventKey) (id : String) :
    ∃ ev, a.program.build env none id = .ret ev ∧ ev.Quiet := by
  obtain ⟨ev, hev, hq⟩ := applyDefaults_ret env a.reads.defaults quiet_new
  have hid : (Key.idPath : List a.program.EventKey) ≠ [] := by
    intro hnil
    have hpath := a.reads.idPath
    obtain ⟨dur, hfields⟩ := a.resolvedFields
    rw [hnil, hfields.idSegments] at hpath
    cases hpath
  refine ⟨_, ?_, hq.insert WideEvent.stable_quiet (.str id) Key.idPath⟩
  rw [Program.build, hev, Outcome.bind_ret, Option.getD_none, Outcome.bind_ret,
    WideEvent.addPath_eq_insert env hid _ hq]

/-- The event is in the path table under its own name, which has no dots. -/
theorem find?_event : ∃ e, a.ctx.paths.find? (·.dotted = (Builtins.of a.overrides).event) = some e ∧
    e.segments = [(Builtins.of a.overrides).event] := by
  obtain ⟨hchecked, entries, hroot, -⟩ := parseWideLogInput_ok a.parsed
  obtain ⟨c, hduration, hevent, -⟩ := GenContext.resolve_ok (hroot ▸ a.resolved)
  obtain ⟨hwalk, -⟩ := GenContext.resolve_edits (hroot ▸ a.resolved)
  have hwalked := hwalk.tables (GenContext.tables_new a.overrides)
  have hedits := GenContext.autoAddDuration_edits hwalked hduration
  have hmem := GenContext.event_mem_dotteds (hedits.tables hwalked) hevent
  have hb : c.builtin = .of a.overrides := hedits.builtin_eq.trans hwalk.builtin_eq
  rw [hb, String.intercalate_singleton] at hmem
  obtain ⟨e, he, hdotted⟩ := List.mem_map.mp hmem
  have hsome : (a.ctx.paths.find? (·.dotted = (Builtins.of a.overrides).event)).isSome := by
    rw [List.find?_isSome]
    exact ⟨e, he, by simpa using hdotted⟩
  obtain ⟨e', he'⟩ := Option.isSome_iff_exists.mp hsome
  have hname : e'.dotted = (Builtins.of a.overrides).event := by simpa using List.find?_some he'
  have hfree : DotFree (Builtins.of a.overrides).event :=
    hchecked.getD (by simp [KeyOverrides.values]) ⟨by decide, by decide⟩
  refine ⟨e', he', eq_singleton_of_intercalate hfree ?_⟩
  rw [← a.tables.dotted_eq e' (List.mem_of_find?_eq_some he'), hname]

/-- The path of the event resolves to its key. -/
theorem resolvePath_event : ∃ k : a.program.EventKey,
    Key.asStr k = (Builtins.of a.overrides).event ∧
    ∀ debugAssertions, a.program.resolvePath debugAssertions (Builtins.of a.overrides).event =
      some [k] := by
  obtain ⟨e, hfind, hsegments⟩ := a.find?_event
  obtain ⟨ks, hks, hresolve⟩ := a.resolvePath_of_find? hfind
  rw [hsegments] at hks
  obtain ⟨k, rfl, hk⟩ := List.map_eq_singleton_iff.mp hks
  exact ⟨k, hk, hresolve⟩

end Accepted

end WideLog.Macros
