import WideLog.Macros.AutoFields

/-!
# The key table

Which names end up in the key table: those of the schema and those of the
automatic fields.  Passes add keys and never remove one, so it is enough to bound
what each pass adds, and to find the automatic names among the declared segments.
-/

namespace WideLog.Macros

open JsonNode

variable {tc : Toolchain}

/-- The names of the key table: those of the schema, those of the automatic fields, and
the duration's own field where the schema leaves it to the macro. -/
def Builtins.TableName (b : Builtins) (root : JsonNode) (s : String) : Prop :=
  s ∈ root.paths.flatten ∨ s ∈ [b.duration, b.event, b.eventTimestamp, b.eventId] ∨
    (root.entriesAt [b.duration] = [] ∧ s = b.durationTotalMs)

namespace GenContext

variable {ctx c d : GenContext} {N : String → Prop}

/-! ## What a pass adds -/

/-- Every name that is new in the second context satisfies the predicate. -/
def AddsNames (N : String → Prop) (ctx c : GenContext) : Prop :=
  ∀ s ∈ c.names, s ∈ ctx.names ∨ N s

theorem AddsNames.of_names_eq (h : c.names = ctx.names) : AddsNames N ctx c :=
  fun _ hs ↦ .inl (h ▸ hs)

theorem AddsNames.trans (h : AddsNames N ctx c) (h' : AddsNames N c d) : AddsNames N ctx d := by
  intro s hs
  rcases h' s hs with hs | hs
  · exact h s hs
  · exact .inr hs

theorem AddsNames.addKey (h : AddsNames N ctx c) {name : String} (hN : N name) :
    AddsNames N ctx (c.addKey tc name) := by
  apply h.trans
  intro s hs
  simp only [names, GenContext.addKey] at hs
  split_ifs at hs
  · exact .inl hs
  · rw [List.map_append, List.mem_append] at hs
    rcases hs with hs | hs
    · exact .inl hs
    · rw [List.mem_singleton.mp hs]
      exact .inr hN

theorem AddsNames.addPath (h : AddsNames N ctx c) (segments : List String) :
    AddsNames N ctx (c.addPath segments) := h

theorem AddsNames.visitAll {xs : List (List String × JsonNode)}
    (hN : ∀ x ∈ xs, N (x.1.getLast?.getD "")) :
    AddsNames N ctx (visitAll tc xs ctx) := by
  induction xs generalizing ctx with
  | nil => exact .of_names_eq rfl
  | cons x xs ih =>
      rw [List.forall_mem_cons] at hN
      have hvisit : AddsNames N ctx (visited tc x ctx) :=
        AddsNames.trans ((AddsNames.of_names_eq rfl).addKey hN.1) (.of_names_eq rfl)
      exact hvisit.trans (ih hN.2)

/-! ## What each pass adds -/

section Passes

variable {root : JsonNode} (hd : root.DistinctKeys) (hN : ∀ s ∈ root.paths.flatten, N s)

include hd hN

/-- The nodes below an object of the schema have names of the schema. -/
theorem name_of_entryNodes {path : List String} {es : List (String × JsonNode)}
    (hes : root.lookup path = some (.object es)) {x : List String × JsonNode}
    (hx : x ∈ entryNodes es path) : N (x.1.getLast?.getD "") := by
  obtain ⟨p, n⟩ := x
  have hde := hd.lookup hes
  obtain ⟨k, q, rfl, hq⟩ := (mem_entryNodes es hde.1 hde.2 path p n).mp hx
  have hlookup : root.lookup (path ++ k :: q) = some n := by
    rw [lookup_append, hes]
    exact hq
  have hpath : path ++ k :: q ∈ root.paths :=
    (mem_paths hd).mpr ⟨by simp, by rw [hlookup]; rfl⟩
  obtain ⟨last, hlast⟩ := Option.isSome_iff_exists.mp
    (List.getLast?_isSome.mpr (show path ++ k :: q ≠ [] by simp))
  rw [hlast]
  exact hN _ (List.mem_flatten.mpr ⟨_, hpath, List.mem_of_getLast? hlast⟩)

theorem name_of_entry {path : List String} {es : List (String × JsonNode)}
    (hes : root.lookup path = some (.object es)) {e : String × JsonNode} (he : e ∈ es) :
    N e.1 := by
  have hmem : (e.1, e.2) ∈ root.entriesAt path := by rwa [entriesAt_of_lookup hes]
  have hpath : path ++ [e.1] ∈ root.paths :=
    (mem_paths hd).mpr ⟨by simp, by rw [(mem_entriesAt hd).mp hmem]; rfl⟩
  exact hN _ (List.mem_flatten.mpr ⟨_, hpath, by simp⟩)

/-- Visiting some entries of an object of the schema adds names of the schema. -/
theorem names_visitEntries {path : List String} {es es' : List (String × JsonNode)}
    (hes : root.lookup path = some (.object es)) (hsub : es' ⊆ es) :
    AddsNames N ctx (GenContext.visitAll tc (entryNodes es' path) ctx) := by
  apply AddsNames.visitAll
  intro x hx
  refine name_of_entryNodes hd hN hes ?_
  rw [entryNodes_eq_flatMap, List.mem_flatMap] at hx ⊢
  obtain ⟨e, he, hx⟩ := hx
  exact ⟨e, hsub he, hx⟩

theorem names_walkEntry {k l : String} {es : List (String × JsonNode)} {v : JsonNode}
    (hes : root.lookup [k] = some (.object es)) (he : (l, v) ∈ es)
    (h : walk tc v [k, l] ctx = .ok c) : AddsNames N ctx c := by
  rw [walk_eq tc v _ (by simp)] at h
  cases h
  apply AddsNames.visitAll
  intro x hx
  refine name_of_entryNodes hd hN hes ?_
  rw [entryNodes_eq_flatMap, List.mem_flatMap]
  exact ⟨(l, v), he, hx⟩

omit hd hN in
theorem names_addDurationSubtree {leaf : String} (hdur : N ctx.builtin.duration) (hleaf : N leaf) :
    AddsNames N ctx (ctx.addDurationSubtree tc leaf) :=
  (((AddsNames.of_names_eq rfl).addKey hdur).addKey hleaf).trans (.of_names_eq rfl)

theorem names_walkAroundTotalMs {durationSeg totalMs : String}
    {es es' : List (String × JsonNode)} (hes : root.lookup [durationSeg] = some (.object es))
    (hsub : es' ⊆ es) (h : walkAroundTotalMs tc durationSeg totalMs es' ctx = .ok c) :
    AddsNames N ctx c := by
  induction es' generalizing ctx with
  | nil =>
      cases h
      exact .of_names_eq rfl
  | cons e es' ih =>
      obtain ⟨k, v⟩ := e
      obtain ⟨he, hsub⟩ := List.cons_subset.mp hsub
      rw [walkAroundTotalMs] at h
      split_ifs at h with hk
      · subst hk
        have hkey : AddsNames N ctx (ctx.addKey tc k) :=
          (AddsNames.of_names_eq rfl).addKey (name_of_entry hd hN hes he)
        have hrest := ih hsub h
        exact hkey.trans hrest
      · obtain ⟨c₁, hwalk, h⟩ := Except.bind_eq_ok_iff.mp h
        exact (names_walkEntry hd hN hes he hwalk).trans (ih hsub h)

omit hd hN in
theorem names_declareTop {name : String} (hname : N name) :
    AddsNames N ctx (ctx.declareTop tc name) :=
  ((AddsNames.of_names_eq rfl).addKey hname).addPath _

/-- The duration pass adds names of the schema, the duration key, and the key below it
unless the schema declares another. -/
theorem names_autoAddDuration {entries : List (String × JsonNode)} (hroot : root = .object entries)
    (hdur : N ctx.builtin.duration)
    (htotal : root.entriesAt [ctx.builtin.duration] = [] → N ctx.builtin.durationTotalMs)
    (h : autoAddDuration tc root ctx = .ok c) : AddsNames N ctx c := by
  subst hroot
  have htop : AddsNames N ctx (ctx.declareTop tc ctx.builtin.duration) := names_declareTop hdur
  cases autoAddDuration_cases h with
  | absent hnone => exact names_addDurationSubtree hdur (htotal (entriesAt_eq_nil hnone))
  | empty hes =>
      exact htop.trans (names_addDurationSubtree hdur (htotal (entriesAt_of_lookup hes)))
  | marked _ hes => exact htop.trans (names_visitEntries hd hN hes (List.Subset.refl _))
  | totalMs hes _ _ hwalk =>
      exact htop.trans (names_walkAroundTotalMs hd hN hes (List.Subset.refl _) hwalk)
  | single hes =>
      have hleaf := name_of_entry hd hN hes (List.mem_singleton_self _)
      exact htop.trans (names_addDurationSubtree hdur hleaf)

theorem names_resolveEventKey {eventSeg name : String} {es : List (String × JsonNode)}
    (hes : root.lookup [eventSeg] = some (.object es)) (hname : N name)
    (h : resolveEventKey tc eventSeg name es ctx = .ok c) : AddsNames N ctx c := by
  unfold resolveEventKey at h
  split at h
  · rename_i k node hfind
    have hk : k = name := by simpa using List.find?_some hfind
    subst hk
    exact names_walkEntry hd hN hes (List.mem_of_find?_eq_some hfind) h
  · cases h
    exact (AddsNames.of_names_eq rfl).addKey hname

/-- The event pass adds names of the schema and the three keys of the event. -/
theorem names_autoAddEvent {entries : List (String × JsonNode)} (hroot : root = .object entries)
    (hevent : N ctx.builtin.event) (hts : N ctx.builtin.eventTimestamp)
    (hid : N ctx.builtin.eventId) (h : autoAddEvent tc root ctx = .ok c) :
    AddsNames N ctx c := by
  subst hroot
  have htop : AddsNames N ctx (ctx.declareTop tc ctx.builtin.event) := names_declareTop hevent
  have hsubtree (c : GenContext) (hb : c.builtin = ctx.builtin) :
      AddsNames N c (c.addEventSubtree tc) :=
    ((((AddsNames.of_names_eq rfl).addKey (hb ▸ hevent)).addKey (hb ▸ hts)).addKey
      (hb ▸ hid)).trans (.of_names_eq rfl)
  cases autoAddEvent_cases h with
  | absent => exact hsubtree ctx rfl
  | empty => exact htop.trans (hsubtree _ rfl)
  | declared hes h₁ h₂ =>
      have hts := names_resolveEventKey hd hN hes hts h₁
      have hid := names_resolveEventKey hd hN hes hid h₂
      refine htop.trans (hts.trans (hid.trans ?_))
      exact names_visitEntries hd hN hes (List.filter_subset_self _)

end Passes

/-! ## The names of a resolved context -/

/-- Visits put the last segments of the visited paths into the table. -/
theorem mem_names_visitAll {xs : List (List String × JsonNode)}
    (h : IndexOf ctx.keyIndex ctx.names) {s : String}
    (hs : s ∈ ctx.names ∨ ∃ x ∈ xs, x.1.getLast? = some s) :
    s ∈ (GenContext.visitAll tc xs ctx).names := by
  induction xs generalizing ctx with
  | nil => exact hs.resolve_right (by simp)
  | cons x xs ih =>
      have hvisit : (visited tc x ctx).names = (ctx.addKey tc (x.1.getLast?.getD "")).names := rfl
      refine ih (keyIndex_addKey h (x.1.getLast?.getD "")) ?_
      rw [hvisit, names_addKey h]
      rcases hs with hs | ⟨y, hy, hlast⟩
      · exact .inl (.inl hs)
      · rcases List.mem_cons.mp hy with rfl | hy
        · exact .inl (.inr (by rw [hlast]; rfl))
        · exact .inr ⟨y, hy, hlast⟩

/-- Each name of the schema is in the table once the schema is walked. -/
theorem names_walkRoot (tc : Toolchain) (overrides : KeyOverrides)
    {entries : List (String × JsonNode)} (hd : (object entries).DistinctKeys) {s : String}
    (hs : s ∈ (object entries).paths.flatten) :
    s ∈ (GenContext.visitAll tc (entryNodes entries []) (new overrides)).names := by
  obtain ⟨p, hp, hs⟩ := List.mem_flatten.mp hs
  obtain ⟨init, rest, rfl⟩ := List.append_of_mem hs
  -- the path down to the name is declared as well
  obtain ⟨m, hm⟩ := Option.isSome_iff_exists.mp ((mem_paths hd).mp hp).2
  rw [List.append_cons, lookup_append] at hm
  obtain ⟨n, hn, -⟩ := Option.bind_eq_some_iff.mp hm
  obtain ⟨q, hq, hlast⟩ : ∃ q, q ∈ (object entries).paths ∧ q.getLast? = some s :=
    ⟨init ++ [s], (mem_paths hd).mpr ⟨by simp, by rw [hn]; rfl⟩, by simp⟩
  obtain ⟨x, hx, rfl⟩ := List.mem_map.mp hq
  exact mem_names_visitAll .nil (.inr ⟨x, hx, hlast⟩)

/-- An object that is not empty is declared under its key. -/
theorem name_of_entriesAt {root : JsonNode} (hd : root.DistinctKeys) {k : String}
    (h : root.entriesAt [k] ≠ []) : k ∈ root.paths.flatten := by
  obtain ⟨⟨l, v⟩, hmem⟩ := List.exists_mem_of_ne_nil _ h
  have hpath : [k] ++ [l] ∈ root.paths :=
    (mem_paths hd).mpr ⟨by simp, by rw [(mem_entriesAt hd).mp hmem]; rfl⟩
  exact List.mem_flatten.mpr ⟨_, hpath, by simp⟩

/-- The passes add names of the schema and of the automatic fields only. -/
theorem tableName_of_mem_names {entries : List (String × JsonNode)} {overrides : KeyOverrides}
    (hd : (object entries).DistinctKeys)
    (h : resolve tc (.object entries) overrides = .ok ctx) {s : String} (hs : s ∈ ctx.names) :
    (Builtins.of overrides).TableName (.object entries) s := by
  obtain ⟨c, hduration, hevent, -⟩ := resolve_ok h
  have hwalk := (resolve_edits h).1
  have hb : _ = Builtins.of overrides := hwalk.builtin_eq
  have hbc : c.builtin = Builtins.of overrides :=
    (autoAddDuration_edits (hwalk.tables (tables_new overrides)) hduration).builtin_eq.trans hb
  have hschema : ∀ s ∈ (object entries).paths.flatten,
      (Builtins.of overrides).TableName (object entries) s := fun s hs ↦ .inl hs
  have hroot : (object entries).lookup [] = some (object entries) := rfl
  have hnew : AddsNames ((Builtins.of overrides).TableName (object entries)) (new overrides)
      (GenContext.visitAll tc (entryNodes entries []) (new overrides)) :=
    .visitAll fun x hx ↦ name_of_entryNodes hd hschema hroot hx
  have hdur := names_autoAddDuration hd hschema rfl (by rw [hb]; exact .inr (.inl (by simp)))
    (by rw [hb]; exact fun hnil ↦ .inr (.inr ⟨hnil, rfl⟩)) hduration
  have hev := names_autoAddEvent hd hschema rfl (by rw [hbc]; exact .inr (.inl (by simp)))
    (by rw [hbc]; exact .inr (.inl (by simp))) (by rw [hbc]; exact .inr (.inl (by simp))) hevent
  exact ((hnew.trans (hdur.trans hev)) s hs).resolve_left (by simp [names, new])

/-- Where the schema declares nothing below the duration key, the pass declares both keys. -/
theorem declares_duration {root : JsonNode} {b : Builtins} {dur : List String}
    (h : ResolvedFields b root ctx dur) (hnil : root.entriesAt [b.duration] = []) :
    ctx.Declares [b.duration, b.durationTotalMs] := by
  have hdur := h.duration
  have hleaf : b.durationLeaf root = b.durationTotalMs := by simp [Builtins.durationLeaf, hnil]
  rw [if_neg (by simp [hnil]), hleaf] at hdur
  exact hdur ▸ h.declares

/-- **The key table of a resolved context** holds the names of the schema and those of
the automatic fields. -/
theorem mem_names_iff {entries : List (String × JsonNode)} {overrides : KeyOverrides}
    (hd : (object entries).DistinctKeys)
    (h : resolve tc (.object entries) overrides = .ok ctx) (s : String) :
    s ∈ ctx.names ↔ (Builtins.of overrides).TableName (.object entries) s := by
  refine ⟨tableName_of_mem_names hd h, ?_⟩
  obtain ⟨dur, hfields⟩ := exists_resolvedFields hd h
  obtain ⟨-, hrest⟩ := resolve_edits h
  have hts := (tables_resolve h).timestamp
  have hid := (tables_resolve h).id
  rw [hfields.timestampSegments] at hts
  rw [hfields.idSegments] at hid
  rintro (hs | hs | ⟨hnil, rfl⟩)
  · exact hrest.names_subset (names_walkRoot tc overrides hd hs)
  · simp only [List.mem_cons, List.not_mem_nil, or_false] at hs
    rcases hs with rfl | rfl | rfl | rfl
    · by_cases hnil : (object entries).entriesAt [(Builtins.of overrides).duration] = []
      · exact declares_duration hfields hnil _ (by simp)
      · exact hrest.names_subset (names_walkRoot tc overrides hd (name_of_entriesAt hd hnil))
    · exact hts _ (by simp)
    · exact hts _ (by simp)
    · exact hid _ (by simp)
  · exact declares_duration hfields hnil _ (by simp)

/-! ## Closure -/

/-- The paths that the generated code spells out. -/
def spelled (ctx : GenContext) : List (List String) :=
  ctx.paths.map PathEntry.segments ++ ctx.defaults.map DefaultEntry.segments ++
    [ctx.durationSegments, ctx.timestampSegments, ctx.idSegments]

variable (tc) in
/-- No name and no dotted name is in its table twice, the indexes are the inverses of the
tables, and the paths that the generated code spells out are made of declared keys, whose
variants are in the enum. -/
structure Closed (ctx : GenContext) : Prop where
  names_nodup : ctx.names.Nodup
  keyIndex : IndexOf ctx.keyIndex ctx.names
  dotteds_eq : ctx.dotteds = ctx.paths.map fun e ↦ ".".intercalate e.segments
  dotteds_nodup : ctx.dotteds.Nodup
  pathIndex : IndexOf ctx.pathIndex ctx.dotteds
  declared : ∀ segments ∈ ctx.spelled, ctx.Declares segments
  variants : ∀ segments ∈ ctx.spelled, (variantsOf tc ctx.keys segments).isSome

/-- The variant of a declared key is in the enum. -/
theorem Tables.isSome_variantOf (h : ctx.Tables tc) {s : String} (hs : s ∈ ctx.names) :
    (variantOf ctx.keys (toPascalCase tc s)).isSome := by
  obtain ⟨e, he, rfl⟩ := List.mem_map.mp hs
  obtain ⟨j, rfl⟩ := List.get_of_mem he
  rw [variantOf, List.find?_isSome]
  exact ⟨j, List.mem_finRange j, decide_eq_true (h.variant_eq _ he)⟩

theorem Tables.declares_of_mem_spelled (h : ctx.Tables tc) {segments : List String}
    (hs : segments ∈ ctx.spelled) : ctx.Declares segments := by
  rcases List.mem_append.mp hs with hs | hs
  · rcases List.mem_append.mp hs with hs | hs
    · obtain ⟨e, he, rfl⟩ := List.mem_map.mp hs
      exact h.paths e he
    · obtain ⟨d, hd, rfl⟩ := List.mem_map.mp hs
      exact (h.defaults d hd).2
  · simp only [List.mem_cons, List.not_mem_nil, or_false] at hs
    rcases hs with rfl | rfl | rfl
    · exact h.duration
    · exact h.timestamp
    · exact h.id

theorem Tables.closed (h : ctx.Tables tc) : ctx.Closed tc where
  names_nodup := h.keyIndex.nodup
  keyIndex := h.keyIndex
  dotteds_eq := List.map_congr_left h.dotted_eq
  dotteds_nodup := h.pathIndex.nodup
  pathIndex := h.pathIndex
  declared _ hs := h.declares_of_mem_spelled hs
  variants _ hs :=
    List.isSome_mapM fun s hmem ↦ h.isSome_variantOf (h.declares_of_mem_spelled hs s hmem)

/-- A schema that is accepted is an object. -/
theorem exists_object_of_resolve {root : JsonNode} {overrides : KeyOverrides}
    (h : resolve tc root overrides = .ok ctx) : ∃ entries, root = .object entries := by
  cases root with
  | object entries => exact ⟨entries, rfl⟩
  | _ => cases h

/-- **After every pass the tables are closed**, when all passes accept the schema. -/
theorem closed_of_generate {root : JsonNode} {overrides : KeyOverrides}
    (h : generate tc root overrides = .ok ctx) :
    ∃ walked timed, walk tc root [] (new overrides) = .ok walked ∧
      autoAddDuration tc root walked = .ok timed ∧ autoAddEvent tc root timed = .ok ctx ∧
      walked.Closed tc ∧ timed.Closed tc ∧ ctx.Closed tc := by
  have hresolve := resolve_of_generate h
  obtain ⟨entries, rfl⟩ := exists_object_of_resolve hresolve
  obtain ⟨timed, hduration, hevent, -⟩ := resolve_ok hresolve
  have hwalked := (resolve_edits hresolve).1.tables (tables_new overrides)
  have htimed := (autoAddDuration_edits hwalked hduration).tables hwalked
  exact ⟨_, timed, walk_root tc entries _, hduration, hevent, hwalked.closed, htimed.closed,
    (tables_resolve hresolve).closed⟩

/-- The tables of a schema with a default and a marker under a renamed key. -/
theorem closed_of_generate_renamed :
    let root : JsonNode :=
      .object [("ok", .bool true), ("time", .object [("wall_ms", .marker .duration)])]
    let overrides : KeyOverrides := { KeyOverrides.default with duration := ⟨some "time", none⟩ }
    ∃ ctx, generate asciiToolchain root overrides = .ok ctx ∧ ctx.Closed asciiToolchain := by
  intro root overrides
  have hsome : (generate asciiToolchain root overrides).toOption.isSome := by decide +kernel
  obtain ⟨ctx, hctx⟩ := Option.isSome_iff_exists.mp hsome
  have hgenerate := Except.toOption_eq_some_iff.mp hctx
  obtain ⟨walked, timed, -, -, -, -, -, hclosed⟩ := closed_of_generate hgenerate
  exact ⟨ctx, hgenerate, hclosed⟩

end GenContext

end WideLog.Macros
