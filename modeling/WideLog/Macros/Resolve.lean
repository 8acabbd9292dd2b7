import WideLog.Macros.Accept
import WideLog.Macros.Passes
import WideLog.Macros.Program

/-!
# Path resolution

`__wl_resolve_path` finds the first declared path with a given dotted name.  A path
of the schema therefore resolves to itself unless an earlier one joins to the same
name, which dots in key names make possible.  A name that is not declared resolves
to the empty path, or fails an assertion.
-/

namespace WideLog.Macros

variable {tc : Toolchain}

/-! ## Undeclared paths -/

/-- A path that is not declared reaches the last arm of the resolver. -/
theorem Program.resolvePath_undeclared {p : Program} {path : String} (h : path ∉ p.declared)
    (debugAssertions : Bool) :
    p.resolvePath debugAssertions path = if debugAssertions then none else some [] := by
  have hnone : p.resolveArms.find? (·.1 = path) = none := by
    rw [List.find?_eq_none]
    intro arm harm heq
    exact h (List.mem_map.mpr ⟨arm, harm, by simpa using heq⟩)
  simp only [resolvePath, hnone]

theorem FieldCall.run_undeclared {p : Program} {call : FieldCall p} (h : call.path ∉ p.declared)
    (env : Env p.EventKey) (ev : WideEvent p.EventKey) :
    call.run env (some ev) = .panic (some ev) := by
  simp only [run, apply, p.resolvePath_undeclared h]
  cases env.debugAssertions with
  | true => rfl
  | false =>
      simp only [Bool.false_eq_true, if_false, FieldOp.run_eq_atPath, WideEvent.atPath_nil,
        Outcome.map_panic]

/-- What a closed computation says about the program of an input. -/
theorem Accepted.map_wideLog {input : List TokenTree} (a : Accepted tc input) {α : Type}
    {f : Program → α} {x : α} (h : (wideLog tc input).map f = some x) : f a.program = x := by
  rw [a.wideLog_eq] at h
  exact Option.some.inj h

/-- What a closed computation says about the overrides and the schema of an input. -/
theorem Accepted.map_parse {input : List TokenTree} (a : Accepted tc input) {α : Type}
    {f : KeyOverrides × JsonNode → α} {x : α}
    (h : (parseWideLogInput tc input).toOption.map f = some x) : f (a.overrides, a.root) = x := by
  rw [a.parsed] at h
  exact Option.some.inj h

/-- **A field macro at an undeclared path never is a no-op.**  Without debug
assertions the resolver returns the empty path, and every path method panics on it,
whatever the schema, the operation, the event and the overflow checks.  The event is
left as it was, but the call does not return. -/
theorem Accepted.undeclared_panics {input : List TokenTree} (a : Accepted tc input)
    {env : Env a.program.EventKey} (hrelease : env.debugAssertions = false)
    {call : FieldCall a.program} (h : call.path ∉ a.program.declared)
    (ev : WideEvent a.program.EventKey) :
    a.program.resolvePath env.debugAssertions call.path = some [] ∧
      call.run env (some ev) = .panic (some ev) ∧ ∀ out, call.run env (some ev) ≠ .ret out := by
  have hrun := call.run_undeclared h env ev
  refine ⟨?_, hrun, ?_⟩
  · rw [a.program.resolvePath_undeclared h, hrelease]
    rfl
  · intro out hout
    rw [hrun] at hout
    cases hout

/-- A schema with one field. -/
def statusSchema : List TokenTree := [objectTokens [("status", [.ident "null"])]]

theorem exists_statusSchema : ∃ a : Accepted asciiToolchain statusSchema,
    a.program.declared =
      ["status", "duration", "duration.total_ms", "event", "event.timestamp", "event.id"] := by
  have hdeclared : (wideLog asciiToolchain statusSchema).map (·.declared) = some
      ["status", "duration", "duration.total_ms", "event", "event.timestamp", "event.id"] := by
    decide +kernel
  obtain ⟨p, hp, h⟩ := Option.map_eq_some_iff.mp hdeclared
  obtain ⟨a, rfl⟩ := exists_accepted hp
  exact ⟨a, h⟩

theorem undeclared_panics_status : ∃ a : Accepted asciiToolchain statusSchema,
    a.program.resolvePath false "stauts" = some [] ∧
      (FieldCall.inc "stauts" : FieldCall a.program).run .release (some .new) =
        .panic (some .new) ∧
      ∀ out, (FieldCall.inc "stauts" : FieldCall a.program).run .release (some .new) ≠
        .ret out := by
  obtain ⟨a, ha⟩ := exists_statusSchema
  have hpath : (FieldCall.inc "stauts" : FieldCall a.program).path ∉ a.program.declared := by
    simp [ha, FieldCall.path]
  have hrelease : (Env.release : Env a.program.EventKey).debugAssertions = false := rfl
  exact ⟨a, a.undeclared_panics hrelease hpath .new⟩

/-- **An undeclared path is no no-op in a release build.** -/
theorem undeclared_not_noop :
    ¬ ∀ (tc : Toolchain) (input : List TokenTree) (a : Accepted tc input)
      (env : Env a.program.EventKey), env.debugAssertions = false →
      ∀ call : FieldCall a.program, call.path ∉ a.program.declared →
      ∀ ev : WideEvent a.program.EventKey, call.run env (some ev) = .ret (some ev) := by
  intro h
  obtain ⟨a, ha⟩ := exists_statusSchema
  have hpath : (FieldCall.inc "stauts" : FieldCall a.program).path ∉ a.program.declared := by
    simp [ha, FieldCall.path]
  have hret := h asciiToolchain statusSchema a .release rfl (.inc "stauts") hpath .new
  rw [FieldCall.run_undeclared hpath] at hret
  cases hret

/-! ## Declared paths -/

/-- The dotted name of a path. -/
abbrev join (path : List String) : String := ".".intercalate path

namespace GenContext

variable {ctx : GenContext}

/-! ## The path table after a walk -/

theorem find?_addPath (h : IndexOf ctx.pathIndex ctx.dotteds) (segments : List String)
    (name : String) :
    (ctx.addPath segments).paths.find? (·.dotted = name) =
      (ctx.paths.find? (·.dotted = name)).or
        (if join segments = name then some ⟨name, segments⟩ else none) := by
  have hknown := h.isSome_iff (join segments)
  simp only [addPath]
  split_ifs with hif hname hname
  · subst hname
    obtain ⟨e, he, hdotted⟩ := List.mem_map.mp (hknown.mp hif)
    have hsome : (ctx.paths.find? (·.dotted = join segments)).isSome := by
      rw [List.find?_isSome]
      exact ⟨e, he, by simpa using hdotted⟩
    obtain ⟨e', he'⟩ := Option.isSome_iff_exists.mp hsome
    rw [he']
    rfl
  · rw [Option.or_none]
  · subst hname
    rw [List.find?_append]
    simp
  · rw [List.find?_append]
    simp [hname]

/-- After some visits, a dotted name belongs to the path that had it before, or to
the first visited one. -/
theorem find?_visitAll (xs : List (List String × JsonNode))
    (h : IndexOf ctx.pathIndex ctx.dotteds) (name : String) :
    (visitAll tc xs ctx).paths.find? (·.dotted = name) =
      (ctx.paths.find? (·.dotted = name)).or
        ((xs.find? (join ·.1 = name)).map fun x ↦ ⟨name, x.1⟩) := by
  induction xs generalizing ctx with
  | nil => simp
  | cons x xs ih =>
      have hvisit : (visited tc x ctx).paths = (ctx.addPath x.1).paths := rfl
      have hindex : IndexOf (visited tc x ctx).pathIndex (visited tc x ctx).dotteds :=
        pathIndex_addPath h x.1
      rw [visitAll_cons, ih hindex, hvisit, find?_addPath h, List.find?_cons]
      by_cases hx : join x.1 = name
      · simp [hx]
      · simp [hx]

/-- After the walk of a schema, a dotted name belongs to the first path that has it. -/
theorem find?_walk (tc : Toolchain) (overrides : KeyOverrides)
    (entries : List (String × JsonNode)) (name : String) :
    (visitAll tc (JsonNode.entryNodes entries []) (new overrides)).paths.find?
        (·.dotted = name) =
      ((JsonNode.object entries).paths.find? (join · = name)).map fun path ↦ ⟨name, path⟩ := by
  rw [find?_visitAll _ IndexOf.nil, JsonNode.paths, List.find?_map, Option.map_map]
  rfl

end GenContext

/-! ## From names to keys -/

section Compiled

variable {ctx : GenContext}

/-- A declared name refers to the key of that name. -/
theorem jsonName_variantOf (h : ctx.Tables tc) (hnodup : (ctx.keys.map KeyEntry.variant).Nodup)
    {s : String} (hs : s ∈ ctx.names) {i : Fin ctx.keys.length}
    (hi : variantOf ctx.keys (toPascalCase tc s) = some i) : (ctx.keys.get i).jsonName = s := by
  obtain ⟨e, he, rfl⟩ := List.mem_map.mp hs
  obtain ⟨j, rfl⟩ := List.get_of_mem he
  have hvi : (ctx.keys.get i).variant = toPascalCase tc (ctx.keys.get j).jsonName := by
    simpa using List.find?_some hi
  have hvj := h.variant_eq _ (ctx.keys.get_mem j)
  have hij : i = j := by
    have hinj := List.nodup_iff_injective_get.mp hnodup
    have heq : (ctx.keys.get i).variant = (ctx.keys.get j).variant := hvi.trans hvj.symm
    have := @hinj ⟨i, by simp⟩ ⟨j, by simp⟩ (by simpa using heq)
    exact Fin.ext (congrArg (fun k ↦ k.val) this)
  rw [hij]

/-- Declared segments refer to the keys of their names. -/
theorem jsonNames_variantsOf (h : ctx.Tables tc)
    (hnodup : (ctx.keys.map KeyEntry.variant).Nodup) {segments : List String}
    (hs : ctx.Declares segments) {ks : List (Fin ctx.keys.length)}
    (hks : variantsOf tc ctx.keys segments = some ks) :
    ks.map (fun i ↦ (ctx.keys.get i).jsonName) = segments := by
  have hforall := List.forall₂_of_mapM hks
  clear hks
  induction hforall with
  | nil => rfl
  | @cons s i segments ks hi _ ih =>
      rw [List.map_cons, jsonName_variantOf h hnodup (hs s List.mem_cons_self) hi,
        ih fun s' hs' ↦ hs s' (List.mem_cons_of_mem _ hs')]

/-- What the compiler makes of a context it accepts. -/
theorem compile_ok {p : Program} (h : compile tc ctx = some p) :
    (ctx.keys.map KeyEntry.variant).Nodup ∧
      ∃ durationPath timestampPath idPath resolveArms defaults,
        variantsOf tc ctx.keys ctx.durationSegments = some durationPath ∧
        variantsOf tc ctx.keys ctx.timestampSegments = some timestampPath ∧
        variantsOf tc ctx.keys ctx.idSegments = some idPath ∧
        List.Forall₂ (fun e arm ↦ arm.1 = e.dotted ∧
          variantsOf tc ctx.keys e.segments = some arm.2) ctx.paths resolveArms ∧
        List.Forall₂ (fun d (s : List (Fin ctx.keys.length) × DefaultValue) ↦ s.2 = d.value ∧
          variantsOf tc ctx.keys d.segments = some s.1) ctx.defaults defaults ∧
        p = ⟨ctx.keys, durationPath, timestampPath, idPath, ctx.builtin.log, ctx.builtin.level,
          ctx.builtin.message, resolveArms, defaults⟩ := by
  unfold compile at h
  split_ifs at h with hok
  obtain ⟨durationPath, hdur, h⟩ := Option.bind_eq_some_iff.mp h
  obtain ⟨timestampPath, hts, h⟩ := Option.bind_eq_some_iff.mp h
  obtain ⟨idPath, hid, h⟩ := Option.bind_eq_some_iff.mp h
  obtain ⟨resolveArms, harms, h⟩ := Option.bind_eq_some_iff.mp h
  obtain ⟨defaults, hdefaults, h⟩ := Option.bind_eq_some_iff.mp h
  have hnodup : ((ctx.keys.map KeyEntry.variant).map tc.normalize).Nodup := by
    rw [List.map_map]
    exact hok.1
  refine ⟨hnodup.of_map _, durationPath, timestampPath, idPath, resolveArms, defaults, hdur, hts,
    hid, ?_, ?_, (Option.some.inj h).symm⟩
  · apply (List.forall₂_of_mapM harms).imp
    intro e arm harm
    obtain ⟨ks, hks, harm⟩ := Option.bind_eq_some_iff.mp harm
    cases harm
    exact ⟨rfl, hks⟩
  · apply (List.forall₂_of_mapM hdefaults).imp
    intro d s hs
    obtain ⟨ks, hks, hs⟩ := Option.bind_eq_some_iff.mp hs
    cases hs
    exact ⟨rfl, hks⟩

end Compiled

/-- A field macro at a dotted name that resolves updates the field there and no other. -/
theorem FieldCall.run_resolved {p : Program} {ks : List p.EventKey} (hks : ks ≠ [])
    (env : Env p.EventKey) (call : FieldCall p)
    (hresolve : p.resolvePath env.debugAssertions call.path = some ks)
    {ev : WideEvent p.EventKey} (hquiet : ev.Quiet) (hr : call.op.InRange (ev.read ks)) :
    ∃ ev', call.run env (some ev) = .ret (some ev') ∧
      TreeUpdate (fun b ↦ ∃ child, b = .object child) ks (call.op.updated (ev.read ks))
        (fun q ↦ ev.read q) (fun q ↦ ev'.read q) := by
  refine ⟨_, ?_, WideEvent.insert_treeUpdate hks _ ev⟩
  simp only [run, apply, hresolve, FieldOp.run_eq_insert env hks (hquiet.quietAlong ks) hr,
    Outcome.map_ret]

/-- The dotted name of a path resolves to exactly the keys of the path, and so a
field macro that is given the name updates the field at the path and no other. -/
def Program.ResolvesExactly (p : Program) (path : List String) : Prop :=
  ∃ ks : List p.EventKey, ks.map Key.asStr = path ∧
    (∀ debugAssertions, p.resolvePath debugAssertions (join path) = some ks) ∧
    ∀ (env : Env p.EventKey) (call : FieldCall p) (ev : WideEvent p.EventKey),
      call.path = join path → ev.Quiet → call.op.InRange (ev.read ks) →
      ∃ ev', call.run env (some ev) = .ret (some ev') ∧
        TreeUpdate (fun b ↦ ∃ child, b = .object child) ks (call.op.updated (ev.read ks))
          (fun q ↦ ev.read q) (fun q ↦ ev'.read q)

namespace Accepted

variable {input : List TokenTree} (a : Accepted tc input)

theorem resolved : GenContext.resolve tc a.root a.overrides = .ok a.ctx :=
  resolve_of_generate a.generated

/-- The schema is an object that declares no key twice. -/
theorem exists_entries : ∃ entries, a.root = .object entries ∧ a.root.DistinctKeys :=
  (parseWideLogInput_ok a.parsed).2

theorem tables : a.ctx.Tables tc := by
  obtain ⟨entries, hroot, -⟩ := a.exists_entries
  exact GenContext.tables_resolve (hroot ▸ a.resolved)

/-- A dotted name of the path table resolves to the keys of its path. -/
theorem resolvePath_of_find? {name : String} {e : PathEntry}
    (h : a.ctx.paths.find? (·.dotted = name) = some e) :
    ∃ ks : List a.program.EventKey, ks.map Key.asStr = e.segments ∧
      ∀ debugAssertions, a.program.resolvePath debugAssertions name = some ks := by
  obtain ⟨hnodup, dur, ts, id, arms, defaults, -, -, -, harms, -, hp⟩ := compile_ok a.compiled
  obtain ⟨arm, hfind, hdotted, hks⟩ := List.Forall₂.find?_eq_some
    (q := fun arm ↦ arm.1 = name) (fun e arm harm ↦ by rw [harm.1]) harms h
  have hnames := jsonNames_variantsOf a.tables hnodup
    (a.tables.paths e (List.mem_of_find?_eq_some h)) hks
  rw [hp]
  refine ⟨arm.2, hnames, ?_⟩
  intro debugAssertions
  simp only [Program.resolvePath, hfind]

/-- The name of a path of the schema resolves to the keys of the first path with
that name. -/
theorem resolvePath_schema {path : List String} (h : path ∈ a.root.paths) :
    ∃ first, a.root.paths.find? (join · = join path) = some first ∧
      ∃ ks : List a.program.EventKey, ks.map Key.asStr = first ∧
        ∀ debugAssertions, a.program.resolvePath debugAssertions (join path) = some ks := by
  obtain ⟨entries, hroot, -⟩ := a.exists_entries
  obtain ⟨-, hrest⟩ := GenContext.resolve_edits (hroot ▸ a.resolved)
  rw [hroot] at h ⊢
  have hsome : ((JsonNode.object entries).paths.find? (join · = join path)).isSome := by
    rw [List.find?_isSome]
    exact ⟨path, h, by simp⟩
  obtain ⟨first, hfirst⟩ := Option.isSome_iff_exists.mp hsome
  refine ⟨first, hfirst, ?_⟩
  -- the walk of the schema is the first to add paths, and paths are never removed
  have hwalk := GenContext.find?_walk tc a.overrides entries (join path)
  rw [hfirst] at hwalk
  exact a.resolvePath_of_find? (hrest.paths_mono.find?_eq_some hwalk)

/-- **The declared paths resolve exactly when their dotted names are distinct.** -/
theorem resolvesExactly_iff :
    (∀ path ∈ a.root.paths, a.program.ResolvesExactly path) ↔
      ∀ p ∈ a.root.paths, ∀ q ∈ a.root.paths, join p = join q → p = q := by
  constructor
  · intro h p hp q hq hpq
    obtain ⟨ks, hks, hresolve, -⟩ := h p hp
    obtain ⟨ls, hls, hresolve', -⟩ := h q hq
    have heq := (hresolve true).symm.trans (hpq ▸ hresolve' true)
    rw [← hks, ← hls, Option.some.inj heq]
  · intro h path hpath
    obtain ⟨first, hfirst, ks, hks, hresolve⟩ := a.resolvePath_schema hpath
    have hjoin : join first = join path := by simpa using List.find?_some hfirst
    obtain rfl := h first (List.mem_of_find?_eq_some hfirst) path hpath hjoin
    obtain ⟨entries, -, hdistinct⟩ := a.exists_entries
    have hne : ks ≠ [] := by
      rintro rfl
      exact ((JsonNode.mem_paths hdistinct).mp hpath).1 hks.symm
    refine ⟨ks, hks, hresolve, ?_⟩
    intro env call ev hcall hquiet hr
    exact call.run_resolved hne env (hcall ▸ hresolve env.debugAssertions) hquiet hr

end Accepted

/-- In a schema without dots in its names, every declared path resolves exactly. -/
theorem resolvesExactly_service :
    ∃ a : Accepted asciiToolchain
        [objectTokens [("service", [objectTokens [("name", [.ident "null"])]])]],
      ∀ path ∈ a.root.paths, a.program.ResolvesExactly path := by
  have haccepted : (wideLog asciiToolchain
      [objectTokens [("service", [objectTokens [("name", [.ident "null"])]])]]).isSome := by
    decide +kernel
  obtain ⟨p, hp⟩ := Option.isSome_iff_exists.mp haccepted
  obtain ⟨a, -⟩ := exists_accepted hp
  have hpaths : a.root.paths = [["service"], ["service", "name"]] :=
    a.map_parse (f := fun x ↦ x.2.paths) (by decide +kernel)
  exact ⟨a, a.resolvesExactly_iff.mpr (by rw [hpaths]; decide +kernel)⟩

/-- A schema that declares `"a.b"` next to `"a": { "b": … }`. -/
def dottedSchema : List TokenTree :=
  [objectTokens [("a.b", [.ident "null"]), ("a", [objectTokens [("b", [.ident "null"])]])]]

/-- **A key name with a dot captures the name of a nested field.** -/
theorem not_resolvesExactly :
    ¬ ∀ (tc : Toolchain) (input : List TokenTree) (a : Accepted tc input),
      ∀ path ∈ a.root.paths, a.program.ResolvesExactly path := by
  intro h
  have hcapture : (wideLog asciiToolchain dottedSchema).map (fun p ↦
      (p.resolvePath false "a.b").map (·.map Key.asStr)) = some (some ["a.b"]) := by
    decide +kernel
  obtain ⟨p, hp, hresolve⟩ := Option.map_eq_some_iff.mp hcapture
  obtain ⟨a, rfl⟩ := exists_accepted hp
  have hpaths : a.root.paths = [["a.b"], ["a"], ["a", "b"]] :=
    a.map_parse (f := fun x ↦ x.2.paths) (by decide +kernel)
  obtain ⟨ks, hks, hexact, -⟩ := h asciiToolchain dottedSchema a ["a", "b"] (by simp [hpaths])
  have hjoin : join ["a", "b"] = "a.b" := by decide +kernel
  rw [hjoin] at hexact
  rw [hexact, Option.map_some, hks] at hresolve
  simp at hresolve

end WideLog.Macros
