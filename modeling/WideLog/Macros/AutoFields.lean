import WideLog.Lib.Paths
import WideLog.Macros.Accept
import WideLog.Macros.FieldPaths
import WideLog.Macros.Program

/-!
# The automatic fields

When the three paths are apart from each other and from the fields of the schema.
-/

namespace WideLog.Macros

open JsonNode GenContext

variable {tc : Toolchain}

/-! ## The three paths -/

/-- The automatic fields of a context are apart from each other, and from what the
schema declares. -/
structure GenContext.FieldsApart (ctx : GenContext) (root : JsonNode) : Prop where
  durationTimestamp : Incomparable ctx.durationSegments ctx.timestampSegments
  durationId : Incomparable ctx.durationSegments ctx.idSegments
  timestampId : Incomparable ctx.timestampSegments ctx.idSegments
  declared : ∀ p ∈ [ctx.durationSegments, ctx.timestampSegments, ctx.idSegments],
    ∀ path ∈ root.paths, p <+: path → path = p

/-- When the input keeps the duration apart.  If the event has markers, one of them is
neither at the timestamp nor at the id; if it has none and no marker elsewhere is used,
the leaf of the duration is neither of the two and has nothing below it. -/
structure Builtins.SeparatesDuration (b : Builtins) (root : JsonNode) : Prop where
  marked : (∃ e ∈ root.entriesAt [b.event], e.2.hasMarker) →
    ∃ e ∈ eventOthers b (root.entriesAt [b.event]), e.2.hasMarker
  unmarked : ¬ (∃ e ∈ root.entriesAt [b.event], e.2.hasMarker) →
    ¬ (root.entriesAt [b.duration] ≠ [] ∧ root.hasMarker) →
    (b.duration = b.event → b.durationLeaf root ≠ b.eventTimestamp ∧
      b.durationLeaf root ≠ b.eventId) ∧
    root.entriesAt [b.duration, b.durationLeaf root] = []

/-- When the input keeps all three apart: the timestamp and the id have different names
and nothing is declared below them, and the duration is apart. -/
structure Builtins.Separates (b : Builtins) (root : JsonNode) : Prop where
  names : b.eventTimestamp ≠ b.eventId
  timestamp : root.entriesAt [b.event, b.eventTimestamp] = []
  id : root.entriesAt [b.event, b.eventId] = []
  duration : b.SeparatesDuration root

section Apart

variable {root : JsonNode} {b : Builtins}

theorem incomparable_pair_iff {k l m n : String} {q : List String} :
    Incomparable (k :: l :: q) [m, n] ↔ k ≠ m ∨ l ≠ n := by
  rw [Incomparable.cons_iff, Incomparable.cons_iff]
  exact or_congr_right (or_iff_left fun h ↦ h.ne_nil_right rfl)

/-- Nothing is declared below a marker. -/
theorem entriesAt_of_marker {p : List String} {m : Marker} (h : root.lookup p = some (.marker m)) :
    root.entriesAt p = [] := by
  rw [entriesAt, h]

/-- A marker outside the event is apart from all fields of the event. -/
theorem incomparable_event {entries : List (String × JsonNode)}
    (hd : (object entries).DistinctKeys) {event : String}
    (hobject : ∀ n, (object entries).lookup [event] = some n → ∃ es, n = object es)
    (hno : ¬ ∃ e ∈ (object entries).entriesAt [event], e.2.hasMarker) {p : List String}
    (hp : (object entries).lookup p = some (.marker .duration)) (name : String) :
    Incomparable p [event, name] := by
  match p with
  | [] => cases hp
  | k :: q =>
    rw [Incomparable.cons_iff]
    refine .inl ?_
    rintro rfl
    rw [← List.singleton_append, lookup_append] at hp
    obtain ⟨n, hn, hq⟩ := Option.bind_eq_some_iff.mp hp
    obtain ⟨es, rfl⟩ := hobject n hn
    rw [entriesAt_of_lookup hn] at hno
    refine hno ((hasMarker_object (hd.lookup hn)).mp ?_)
    exact (hasMarker_iff (hd.lookup hn)).mpr ⟨q, hq⟩

/-- The last marker of the event object is one of the schema. -/
theorem lookup_of_eventMarker (hd : root.DistinctKeys) {p : List String}
    (hmarker : eventMarker b (root.entriesAt [b.event]) = some p) :
    root.lookup p = some (marker .duration) := by
  obtain ⟨e, he, ⟨q, rfl, hq⟩, -⟩ := exists_of_eventMarker (hd.entriesAt [b.event]) hmarker
  have hentry : root.lookup [b.event, e.1] = some e.2 := (mem_entriesAt hd).mp he
  rw [lookup_append, hentry]
  exact hq

/-- A duration at a marker of the event is apart exactly when that marker is neither at
the timestamp nor at the id. -/
theorem marked_apart_iff (hd : root.DistinctKeys) {p : List String}
    (hmarker : eventMarker b (root.entriesAt [b.event]) = some p) :
    (Incomparable p [b.event, b.eventTimestamp] ∧ Incomparable p [b.event, b.eventId] ∧
      root.entriesAt p = []) ↔ b.SeparatesDuration root := by
  have hdes := hd.entriesAt [b.event]
  have hexists : ∃ e ∈ root.entriesAt [b.event], e.2.hasMarker :=
    (eventMarker_isSome_iff hdes).mp (Option.isSome_of_eq_some hmarker)
  have hlookup := lookup_of_eventMarker hd hmarker
  obtain ⟨e, he, ⟨q, rfl, hq⟩, hothers⟩ := exists_of_eventMarker hdes hmarker
  rw [List.cons_append, List.cons_append, List.nil_append, incomparable_pair_iff,
    incomparable_pair_iff]
  simp only [ne_eq, not_true_eq_false, false_or]
  constructor
  · rintro ⟨hts, hid, -⟩
    exact ⟨fun _ ↦ hothers.mp ⟨hts, hid⟩, fun hno ↦ absurd hexists hno⟩
  · intro h
    obtain ⟨hts, hid⟩ := hothers.mpr (h.marked hexists)
    exact ⟨hts, hid, entriesAt_of_marker hlookup⟩

/-- Without markers in the event, a duration at a marker is apart from it, and the leaf
that is picked otherwise is if it is neither of the two and has nothing below it. -/
theorem unmarked_apart_iff {entries : List (String × JsonNode)}
    (hd : (object entries).DistinctKeys)
    (hobject : ∀ n, (object entries).lookup [b.event] = some n → ∃ es, n = object es)
    (hno : ¬ ∃ e ∈ (object entries).entriesAt [b.event], e.2.hasMarker) {dur : List String}
    (hdur : if (object entries).entriesAt [b.duration] ≠ [] ∧ (object entries).hasMarker then
        (object entries).lookup dur = some (marker .duration)
      else dur = [b.duration, b.durationLeaf (object entries)]) :
    (Incomparable dur [b.event, b.eventTimestamp] ∧ Incomparable dur [b.event, b.eventId] ∧
      (object entries).entriesAt dur = []) ↔ b.SeparatesDuration (object entries) := by
  split_ifs at hdur with hused
  · have happart := incomparable_event hd hobject hno hdur
    exact iff_of_true ⟨happart _, happart _, entriesAt_of_marker hdur⟩
      ⟨fun h ↦ absurd h hno, fun _ h ↦ absurd hused h⟩
  · rw [hdur, incomparable_pair_iff, incomparable_pair_iff, ← and_assoc, ← or_and_left,
      ← imp_iff_not_or]
    constructor
    · intro h
      exact ⟨fun h' ↦ absurd h' hno, fun _ _ ↦ h⟩
    · intro h
      exact h.unmarked hno hused

/-- The duration is apart from the timestamp, the id and the schema exactly when the
input separates it. -/
theorem duration_apart_iff {entries : List (String × JsonNode)}
    (hd : (object entries).DistinctKeys)
    (hobject : ∀ n, (object entries).lookup [b.event] = some n → ∃ es, n = object es)
    {dur final : List String}
    (hdur : if (object entries).entriesAt [b.duration] ≠ [] ∧ (object entries).hasMarker then
        (object entries).lookup dur = some (marker .duration)
      else dur = [b.duration, b.durationLeaf (object entries)])
    (hfinal : final = (eventMarker b ((object entries).entriesAt [b.event])).getD dur) :
    (Incomparable final [b.event, b.eventTimestamp] ∧ Incomparable final [b.event, b.eventId] ∧
        (object entries).entriesAt final = []) ↔ b.SeparatesDuration (object entries) := by
  cases hmarker : eventMarker b ((object entries).entriesAt [b.event]) with
  | some p =>
      rw [hmarker] at hfinal
      rw [hfinal, Option.getD_some]
      exact marked_apart_iff hd hmarker
  | none =>
      have hsome := eventMarker_isSome_iff (b := b) (hd.entriesAt [b.event])
      rw [hmarker] at hfinal hsome
      rw [hfinal, Option.getD_none]
      exact unmarked_apart_iff hd hobject (fun h ↦ Bool.noConfusion (hsome.mpr h)) hdur

/-- The walk of the root finds the markers of the schema. -/
theorem duration_walkRoot (tc : Toolchain) {entries : List (String × JsonNode)}
    (hd : (object entries).DistinctKeys) (overrides : KeyOverrides) :
    (visitAll tc (entryNodes entries []) (new overrides)).hasDurationMarker =
        (object entries).hasMarker ∧
      ((visitAll tc (entryNodes entries []) (new overrides)).hasDurationMarker →
        (object entries).lookup
          (visitAll tc (entryNodes entries []) (new overrides)).durationSegments =
            some (marker .duration)) := by
  obtain ⟨hdur, hhas⟩ := @duration_visitAll tc (entryNodes entries []) (new overrides)
  have hnew : (new overrides).hasDurationMarker = false := rfl
  rw [hdur, hhas, hnew, Bool.or_false]
  constructor
  · rw [Bool.eq_iff_iff, hasMarker_object hd]
    exact lastMarker_entryNodes_isSome hd.2 []
  · intro hsome
    obtain ⟨p, hp⟩ := Option.isSome_iff_exists.mp hsome
    rw [hp]
    exact lookup_lastMarker_entries hd rfl hp

/-- What the passes leave in the three paths; `dur` is the duration between them. -/
structure ResolvedFields (b : Builtins) (root : JsonNode) (ctx : GenContext)
    (dur : List String) : Prop where
  builtin : ctx.builtin = b
  declares : ctx.Declares dur
  duration : if root.entriesAt [b.duration] ≠ [] ∧ root.hasMarker then
      root.lookup dur = some (marker .duration)
    else dur = [b.duration, b.durationLeaf root]
  event : ∀ n, root.lookup [b.event] = some n → ∃ es, n = object es
  timestampSegments : ctx.timestampSegments = [b.event, b.eventTimestamp]
  idSegments : ctx.idSegments = [b.event, b.eventId]
  durationSegments : ctx.durationSegments =
    (eventMarker b (root.entriesAt [b.event])).getD dur

theorem resolvedFields_of_passes {entries : List (String × JsonNode)} {overrides : KeyOverrides}
    {c ctx : GenContext} (hd : (object entries).DistinctKeys)
    (hduration : autoAddDuration tc (object entries)
      (visitAll tc (entryNodes entries []) (new overrides)) = .ok c)
    (hevent : autoAddEvent tc (object entries) c = .ok ctx) :
    ResolvedFields (.of overrides) (object entries) ctx c.durationSegments := by
  have hnew : (new overrides).Tables tc := tables_new overrides
  have hwalk := entryNodes_edits entries [] _ hnew declares_nil
  have htables := hwalk.tables hnew
  have hdurationEdits := autoAddDuration_edits htables hduration
  have heventEdits := autoAddEvent_edits (hdurationEdits.tables htables) hevent
  obtain ⟨hhas, hlookup⟩ := duration_walkRoot tc hd overrides
  have hdur := duration_autoAddDuration hd hhas hlookup hduration
  obtain ⟨hobject, hts, hid, hfinal⟩ := fields_autoAddEvent hevent
  have hb : _ = Builtins.of overrides := hwalk.builtin_eq
  have hbc := hdurationEdits.builtin_eq.trans hb
  rw [hb] at hdur
  rw [hbc] at hobject hts hid hfinal
  exact ⟨heventEdits.builtin_eq.trans hbc,
    heventEdits.declares (hdurationEdits.tables htables).duration, hdur, hobject, hts, hid, hfinal⟩

theorem exists_resolvedFields {entries : List (String × JsonNode)} {overrides : KeyOverrides}
    {ctx : GenContext} (hd : (object entries).DistinctKeys)
    (h : GenContext.resolve tc (object entries) overrides = .ok ctx) :
    ∃ dur, ResolvedFields (.of overrides) (object entries) ctx dur := by
  obtain ⟨c, hduration, hevent, -⟩ := resolve_ok h
  exact ⟨_, resolvedFields_of_passes hd hduration hevent⟩

/-- The duration is never at the event itself, nor above it. -/
theorem ResolvedFields.duration_not_above {entries : List (String × JsonNode)}
    {ctx : GenContext} {dur : List String} (hd : (object entries).DistinctKeys)
    (h : ResolvedFields b (object entries) ctx dur) : ¬ ctx.durationSegments <+: [b.event] := by
  rw [h.durationSegments]
  cases hmarker : eventMarker b ((object entries).entriesAt [b.event]) with
  | some p =>
      obtain ⟨e, -, ⟨q, rfl, -⟩, -⟩ := exists_of_eventMarker (hd.entriesAt _) hmarker
      intro hp
      simpa using hp.length_le
  | none =>
      rw [Option.getD_none]
      have hdur := h.duration
      split_ifs at hdur
      · intro hp
        rcases List.prefix_cons_iff.mp hp with rfl | ⟨q, rfl, hq⟩
        · cases hdur
        · rw [List.prefix_nil.mp hq] at hdur
          obtain ⟨es, hes⟩ := h.event _ hdur
          cases hes
      · rw [hdur]
        intro hp
        simpa using hp.length_le

/-- **The automatic fields are apart exactly when the input separates them.** -/
theorem fieldsApart_iff {input : List TokenTree} {overrides : KeyOverrides} {ctx : GenContext}
    (hparse : parseWideLogInput tc input = .ok (overrides, root))
    (h : GenContext.resolve tc root overrides = .ok ctx) :
    ctx.FieldsApart root ↔ (Builtins.of overrides).Separates root := by
  obtain ⟨-, entries, rfl, hd⟩ := parseWideLogInput_ok hparse
  obtain ⟨dur, hfields⟩ := exists_resolvedFields hd h
  have hts := hfields.timestampSegments
  have hid := hfields.idSegments
  have happart := duration_apart_iff hd hfields.event hfields.duration hfields.durationSegments
  have hnames : Incomparable ctx.timestampSegments ctx.idSegments ↔
      (Builtins.of overrides).eventTimestamp ≠ (Builtins.of overrides).eventId := by
    rw [hts, hid, incomparable_pair_iff]
    simp
  constructor
  · rintro ⟨hdts, hdid, htsid, hdeclared⟩
    simp only [List.forall_mem_cons, ← entriesAt_eq_nil_iff hd] at hdeclared
    rw [hts] at hdts hdeclared
    rw [hid] at hdid hdeclared
    exact ⟨hnames.mp htsid, hdeclared.2.1, hdeclared.2.2.1, happart.mp ⟨hdts, hdid, hdeclared.1⟩⟩
  · rintro ⟨hne, htimestamp, hi, hseparates⟩
    obtain ⟨hdts, hdid, hdnil⟩ := happart.mpr hseparates
    refine ⟨hts ▸ hdts, hid ▸ hdid, hnames.mpr hne, ?_⟩
    simp only [List.forall_mem_cons, ← entriesAt_eq_nil_iff hd]
    rw [hts, hid]
    exact ⟨hdnil, htimestamp, hi, by simp⟩

end Apart

/-- What a closed computation says about an input that some passes accept. -/
theorem exists_passed (tc : Toolchain) (input : List TokenTree)
    (passes : JsonNode → KeyOverrides → Except Failure GenContext) {α : Type}
    (f : KeyOverrides → JsonNode → GenContext → α) {x : α}
    (h : ((parseWideLogInput tc input).toOption.bind fun (overrides, root) ↦
      (passes root overrides).toOption.map (f overrides root)) = some x) :
    ∃ overrides root ctx, parseWideLogInput tc input = .ok (overrides, root) ∧
      passes root overrides = .ok ctx ∧ f overrides root ctx = x := by
  obtain ⟨⟨overrides, root⟩, hparse, h⟩ := Option.bind_eq_some_iff.mp h
  obtain ⟨ctx, hpasses, hx⟩ := Option.map_eq_some_iff.mp h
  exact ⟨overrides, root, ctx, Except.toOption_eq_some_iff.mp hparse,
    Except.toOption_eq_some_iff.mp hpasses, hx⟩

/-- A schema that declares none of the automatic fields keeps them apart. -/
theorem fieldsApart_service :
    ∃ overrides root ctx,
      parseWideLogInput asciiToolchain
        [objectTokens [("service", [objectTokens [("name", [.ident "null"])]])]] =
          .ok (overrides, root) ∧
      GenContext.resolve asciiToolchain root overrides = .ok ctx ∧ ctx.FieldsApart root := by
  obtain ⟨overrides, root, ctx, hparse, hresolve, hx⟩ := exists_passed asciiToolchain
    [objectTokens [("service", [objectTokens [("name", [.ident "null"])]])]]
    (GenContext.resolve asciiToolchain)
    (fun overrides root _ ↦ (overrides, root.paths))
    (x := (.default, [["service"], ["service", "name"]])) (by decide +kernel)
  obtain ⟨rfl, hpaths⟩ := Prod.mk.inj hx
  obtain ⟨-, -, -, hd⟩ := parseWideLogInput_ok hparse
  have hnil (p : List String) (hp : ∀ path ∈ [["service"], ["service", "name"]],
      p <+: path → path = p) : root.entriesAt p = [] :=
    (entriesAt_eq_nil_iff hd).mpr (by rwa [hpaths])
  have hevent : root.entriesAt ["event"] = [] := hnil _ (by decide +kernel)
  have hduration : root.entriesAt ["duration"] = [] := hnil _ (by decide +kernel)
  have hleaf : (Builtins.of .default).durationLeaf root = "total_ms" := by
    simp only [Builtins.durationLeaf]
    rw [show (Builtins.of .default).duration = "duration" from rfl, hduration]
    rfl
  refine ⟨_, root, ctx, hparse, hresolve, (fieldsApart_iff hparse hresolve).mpr ?_⟩
  refine ⟨by decide +kernel, hnil _ (by decide +kernel), hnil _ (by decide +kernel), ?_, ?_⟩
  · rintro ⟨e, he, -⟩
    rw [show (Builtins.of .default).event = "event" from rfl, hevent] at he
    cases he
  · intro _ _
    rw [hleaf]
    exact ⟨fun h ↦ absurd h (by decide +kernel), hnil _ (by decide +kernel)⟩

/-- A schema with a field below the id. -/
def nestedIdSchema : List TokenTree :=
  [objectTokens [("event", [objectTokens [("id", [objectTokens [("trace", [.ident "null"])]])]])]]

/-- **The id can be written over a declared object**, and the fields in it are lost. -/
theorem not_fieldsApart :
    ¬ ∀ (tc : Toolchain) (input : List TokenTree) (overrides : KeyOverrides) (root : JsonNode)
      (ctx : GenContext), parseWideLogInput tc input = .ok (overrides, root) →
      GenContext.resolve tc root overrides = .ok ctx → ctx.FieldsApart root := by
  intro h
  obtain ⟨overrides, root, ctx, hparse, hresolve, hx⟩ := exists_passed asciiToolchain
    nestedIdSchema (GenContext.resolve asciiToolchain)
    (fun _ root ctx ↦ (root.paths, ctx.idSegments))
    (x := ([["event"], ["event", "id"], ["event", "id", "trace"]], ["event", "id"]))
    (by decide +kernel)
  obtain ⟨hpaths, hid⟩ := Prod.mk.inj hx
  have hapart := h asciiToolchain nestedIdSchema overrides root ctx hparse hresolve
  have htrace := hapart.declared ctx.idSegments (by simp) ["event", "id", "trace"]
    (by simp [hpaths])
  rw [hid] at htrace
  exact absurd (htrace (by decide)) (by decide)

end WideLog.Macros
