import WideLog.Macros.AutoFields

/-!
# The duration marker

Where a guard records the duration, next to the `duration!` markers of the schema.
-/

namespace WideLog.Macros

open JsonNode GenContext

/-- The schema marks at most one field as the duration. -/
def JsonNode.OneMarker (root : JsonNode) : Prop :=
  ∀ p q, root.lookup p = some (.marker .duration) → root.lookup q = some (.marker .duration) →
    p = q

/-- The paths of the fields that are marked as the duration. -/
def JsonNode.markers (root : JsonNode) : List (List String) :=
  ((root.nodes []).filter (·.2.isDurationMarker)).map Prod.fst

theorem JsonNode.mem_markers {root : JsonNode} (hd : root.DistinctKeys) {p : List String} :
    p ∈ root.markers ↔ root.lookup p = some (.marker .duration) := by
  simp only [markers, List.mem_map, List.mem_filter, Prod.exists, mem_nodes root hd,
    List.nil_append, isDurationMarker_iff]
  constructor
  · rintro ⟨p, n, ⟨⟨q, rfl, hq⟩, rfl⟩, rfl⟩
    exact hq
  · intro hp
    exact ⟨p, _, ⟨⟨p, rfl, hp⟩, rfl⟩, rfl⟩

/-- There is at most one marker, and the field it marks is the duration. -/
structure GenContext.HonoursMarkers (ctx : GenContext) (root : JsonNode) : Prop where
  one : root.OneMarker
  path : ∀ p, root.lookup p = some (.marker .duration) → ctx.durationSegments = p

/-- A marker counts if it is in the event object, or if the duration object is declared
with some entry. -/
def Builtins.MarkersCount (b : Builtins) (root : JsonNode) : Prop :=
  root.hasMarker →
    (∃ e ∈ root.entriesAt [b.event], e.2.hasMarker) ∨ root.entriesAt [b.duration] ≠ []

variable {tc : Toolchain} {root : JsonNode} {b : Builtins} {ctx : GenContext}

/-- In a schema with markers, the duration is at one of them exactly when they count.
Otherwise the duration object is added next to them. -/
theorem ResolvedFields.lookup_duration_iff {dur : List String} (hd : root.DistinctKeys)
    (h : ResolvedFields b root ctx dur) (hmarker : root.hasMarker) :
    root.lookup ctx.durationSegments = some (.marker .duration) ↔
      (∃ e ∈ root.entriesAt [b.event], e.2.hasMarker) ∨ root.entriesAt [b.duration] ≠ [] := by
  have hsome := eventMarker_isSome_iff (b := b) (hd.entriesAt [b.event])
  rw [h.durationSegments, ← hsome]
  cases hevent : eventMarker b (root.entriesAt [b.event]) with
  | some p => exact iff_of_true (lookup_of_eventMarker hd hevent) (.inl rfl)
  | none =>
      rw [Option.getD_none]
      have hdur := h.duration
      split_ifs at hdur with hused
      · exact iff_of_true hdur (.inr hused.1)
      · have hnil : root.entriesAt [b.duration] = [] :=
          by_contra fun hne ↦ hused ⟨hne, hmarker⟩
        refine iff_of_false (fun hleaf ↦ ?_) fun hsub ↦ ?_
        · rw [hdur] at hleaf
          have hmem : _ ∈ root.entriesAt [b.duration] := (mem_entriesAt hd).mpr hleaf
          rw [hnil] at hmem
          cases hmem
        · exact hsub.elim (fun hno ↦ nomatch hno) (fun hne ↦ hne hnil)

/-- **The markers are honoured exactly when there is at most one and it counts.** -/
theorem honoursMarkers_iff {input : List TokenTree} {overrides : KeyOverrides}
    (hparse : parseWideLogInput tc input = .ok (overrides, root))
    (h : generate tc root overrides = .ok ctx) :
    ctx.HonoursMarkers root ↔ root.OneMarker ∧ (Builtins.of overrides).MarkersCount root := by
  obtain ⟨-, entries, rfl, hd⟩ := parseWideLogInput_ok hparse
  obtain ⟨dur, hfields⟩ := exists_resolvedFields hd (resolve_of_generate h)
  constructor
  · rintro ⟨hone, hpath⟩
    refine ⟨hone, fun hmarker ↦ (hfields.lookup_duration_iff hd hmarker).mp ?_⟩
    obtain ⟨p, hp⟩ := (hasMarker_iff hd).mp hmarker
    rw [hpath p hp]
    exact hp
  · rintro ⟨hone, hcount⟩
    refine ⟨hone, fun p hp ↦ hone _ _ ?_ hp⟩
    have hmarker : (object entries).hasMarker := (hasMarker_iff hd).mpr ⟨p, hp⟩
    exact (hfields.lookup_duration_iff hd hmarker).mpr (hcount hmarker)

/-- A schema with a marker of its own in the duration object. -/
theorem honoursMarkers_iff_wall :
    ∃ overrides root ctx,
      parseWideLogInput asciiToolchain [objectTokens
        [("duration", [objectTokens [("wall_ms", [.ident "duration", .punct '!'])]])]] =
          .ok (overrides, root) ∧
      generate asciiToolchain root overrides = .ok ctx ∧ ctx.HonoursMarkers root := by
  obtain ⟨overrides, root, ctx, hparse, hgenerate, hx⟩ := exists_passed asciiToolchain
    [objectTokens [("duration", [objectTokens [("wall_ms", [.ident "duration", .punct '!'])]])]]
    (generate asciiToolchain) (fun overrides root _ ↦ (overrides, root.markers))
    (x := (.default, [["duration", "wall_ms"]])) (by decide +kernel)
  obtain ⟨rfl, hmarkers⟩ := Prod.mk.inj hx
  obtain ⟨-, -, -, hd⟩ := parseWideLogInput_ok hparse
  have hmarker (p : List String) :
      root.lookup p = some (.marker .duration) ↔ p = ["duration", "wall_ms"] := by
    rw [← mem_markers hd, hmarkers, List.mem_singleton]
  refine ⟨_, root, ctx, hparse, hgenerate, (honoursMarkers_iff hparse hgenerate).mpr ⟨?_, ?_⟩⟩
  · intro p q hp hq
    rw [(hmarker p).mp hp, (hmarker q).mp hq]
  · have hmem : ("wall_ms", .marker .duration) ∈ root.entriesAt ["duration"] :=
      (mem_entriesAt hd).mpr ((hmarker _).mpr rfl)
    exact fun _ ↦ .inr (List.ne_nil_of_mem hmem)

/-- A schema with two markers. -/
def twoMarkersSchema : List TokenTree :=
  [objectTokens [("duration", [objectTokens [("wall_ms", [.ident "duration", .punct '!']),
    ("total_ms", [.ident "duration", .punct '!'])]])]]

/-- **Nothing counts the markers**: a schema with two is accepted. -/
theorem not_honoursMarkers :
    ¬ ∀ (tc : Toolchain) (input : List TokenTree) (overrides : KeyOverrides) (root : JsonNode)
      (ctx : GenContext), parseWideLogInput tc input = .ok (overrides, root) →
      generate tc root overrides = .ok ctx → ctx.HonoursMarkers root := by
  intro h
  obtain ⟨overrides, root, ctx, hparse, hgenerate, hmarkers⟩ := exists_passed asciiToolchain
    twoMarkersSchema (generate asciiToolchain) (fun _ root _ ↦ root.markers)
    (x := [["duration", "wall_ms"], ["duration", "total_ms"]]) (by decide +kernel)
  obtain ⟨-, -, -, hd⟩ := parseWideLogInput_ok hparse
  have hone := (h asciiToolchain twoMarkersSchema overrides root ctx hparse hgenerate).one
  have heq := hone ["duration", "wall_ms"] ["duration", "total_ms"]
    ((mem_markers hd).mp (by simp [hmarkers])) ((mem_markers hd).mp (by simp [hmarkers]))
  exact absurd heq (by decide)

end WideLog.Macros
