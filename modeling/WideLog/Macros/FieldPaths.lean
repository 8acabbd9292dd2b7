import WideLog.Macros.Markers

/-!
# Where the passes put the automatic fields

What the pass for the duration and the pass for the event leave in the three paths,
in terms of the schema alone.
-/

namespace WideLog.Macros

open JsonNode GenContext

variable {tc : Toolchain}

/-! ## The duration -/

/-- The leaf of the duration path where no marker decides it: the conventional one,
unless the schema declares another one alone. -/
def Builtins.durationLeaf (b : Builtins) (root : JsonNode) : String :=
  let keys := (root.entriesAt [b.duration]).map Prod.fst
  if b.durationTotalMs ∈ keys then b.durationTotalMs else keys.head?.getD b.durationTotalMs

section Duration

variable {ctx c : GenContext}

/-- The loop around `total_ms` sets the duration there if it meets the entry. -/
theorem duration_walkAroundTotalMs {durationSeg totalMs : String}
    {entries : List (String × JsonNode)} (hd : EntriesDistinct entries)
    (hno : ∀ e ∈ entries, e.2.hasMarker = false)
    (h : walkAroundTotalMs tc durationSeg totalMs entries ctx = .ok c) :
    c.durationSegments =
      if totalMs ∈ entries.map Prod.fst then [durationSeg, totalMs]
      else ctx.durationSegments := by
  induction entries generalizing ctx with
  | nil =>
      cases h
      rfl
  | cons e entries ih =>
      obtain ⟨k, v⟩ := e
      rw [List.forall_mem_cons] at hno
      rw [walkAroundTotalMs] at h
      split_ifs at h with hk
      · rw [ih hd.2 hno.2 h]
        simp [hk]
      · rw [walk_eq tc v _ (by simp)] at h
        have hnone : lastMarker (v.nodes [durationSeg, k]) = none := by
          rw [← Option.not_isSome_iff_eq_none, lastMarker_nodes_isSome hd.1]
          simpa using hno.1
        rw [ih hd.2 hno.2 h, (duration_visitAll _ ctx).1, hnone]
        have hne : totalMs ≠ k := Ne.symm hk
        simp only [List.map_cons, List.mem_cons, hne, false_or, Option.getD_none]

/-- Where an object is walked after the whole schema, the duration stays at a marker. -/
theorem lookup_duration_visitAll {root : JsonNode} (hd : root.DistinctKeys)
    {es : List (String × JsonNode)} {path : List String}
    (hes : root.lookup path = some (.object es))
    (hctx : root.lookup ctx.durationSegments = some (marker .duration)) :
    root.lookup (visitAll tc (entryNodes es path) ctx).durationSegments =
      some (marker .duration) := by
  rw [(duration_visitAll _ ctx).1]
  cases hlast : lastMarker (entryNodes es path) with
  | none => exact hctx
  | some p => exact lookup_lastMarker_entries hd hes hlast

/-- In a schema without markers, no declared entry has one. -/
theorem hasMarker_entry {root : JsonNode} (hd : root.DistinctKeys) (hno : root.hasMarker = false)
    {path : List String} {es : List (String × JsonNode)}
    (hes : root.lookup path = some (.object es)) {e : String × JsonNode} (he : e ∈ es) :
    e.2.hasMarker = false := by
  by_contra hmarker
  have hobject : (object es).hasMarker :=
    (hasMarker_object (hd.lookup hes)).mpr ⟨e, he, by simpa using hmarker⟩
  rw [hasMarker_of_lookup hd hes hobject] at hno
  cases hno

/-- A marker in a declared object is one the walk of the root has met. -/
theorem hasDurationMarker_of_entry {root : JsonNode} (hd : root.DistinctKeys)
    (hhas : ctx.hasDurationMarker = root.hasMarker) {path : List String}
    {es : List (String × JsonNode)} (hes : root.lookup path = some (.object es))
    (h : ∃ e ∈ es, e.2.isDurationMarker) : ctx.hasDurationMarker := by
  obtain ⟨e, he, hmarker⟩ := h
  rw [hhas]
  by_contra hno
  have hentry := hasMarker_entry hd (Bool.eq_false_iff.mpr hno) hes he
  rw [isDurationMarker_iff.mp hmarker] at hentry
  cases hentry

/-- **The duration after its pass**: at a marker of the schema, if there is one and
the duration object is not empty, and otherwise at the leaf that is picked. -/
theorem duration_autoAddDuration {entries : List (String × JsonNode)}
    (hd : (object entries).DistinctKeys)
    (hhas : ctx.hasDurationMarker = (object entries).hasMarker)
    (hctx : ctx.hasDurationMarker →
      (object entries).lookup ctx.durationSegments = some (marker .duration))
    (h : autoAddDuration tc (object entries) ctx = .ok c) :
    if (object entries).entriesAt [ctx.builtin.duration] ≠ [] ∧ (object entries).hasMarker then
      (object entries).lookup c.durationSegments = some (marker .duration)
    else c.durationSegments =
      [ctx.builtin.duration, ctx.builtin.durationLeaf (object entries)] := by
  have hempty (hnil : (object entries).entriesAt [ctx.builtin.duration] = []) :
      ctx.builtin.durationLeaf (object entries) = ctx.builtin.durationTotalMs := by
    simp [Builtins.durationLeaf, hnil]
  cases autoAddDuration_cases h with
  | absent hnone =>
      have hnil := entriesAt_eq_nil hnone
      rw [if_neg (by simp [hnil]), hempty hnil]
      rfl
  | empty hes =>
      have hnil := entriesAt_of_lookup hes
      rw [if_neg (by simp [hnil]), hempty hnil]
      rfl
  | @marked es hne hes hmarker =>
      have hmarked : ctx.hasDurationMarker := by
        rcases hmarker with hmarker | hmarker
        · exact hmarker
        · exact hasDurationMarker_of_entry hd hhas hes hmarker
      rw [if_pos ⟨by rwa [entriesAt_of_lookup hes], hhas ▸ hmarked⟩]
      have htop : (object entries).lookup
          (ctx.declareTop tc ctx.builtin.duration).durationSegments = some (marker .duration) :=
        hctx hmarked
      exact lookup_duration_visitAll hd hes htop
  | totalMs hes hno hmem hwalk =>
      have hnone := hhas.symm.trans hno
      rw [if_neg (by simp [hnone]), duration_walkAroundTotalMs (hd.lookup hes).2
        (fun e he ↦ hasMarker_entry hd hnone hes he) hwalk, if_pos hmem]
      simp only [Builtins.durationLeaf, entriesAt_of_lookup hes, if_pos hmem]
  | @single leaf v hes hno hleaf =>
      rw [if_neg (by simp [hhas.symm.trans hno])]
      simp only [Builtins.durationLeaf, entriesAt_of_lookup hes, List.map_cons, List.map_nil,
        List.mem_singleton, Ne.symm hleaf, if_false]
      rfl

end Duration

/-! ## The event -/

section Event

variable {ctx c : GenContext}

/-- The nodes that resolving a key of the event object walks. -/
def eventKeyNodes (eventSeg name : String) (es : List (String × JsonNode)) :
    List (List String × JsonNode) :=
  match es.find? (·.1 = name) with
  | some e => e.2.nodes [eventSeg, name]
  | none => []

theorem resolveEventKey_fields {eventSeg name : String} {es : List (String × JsonNode)}
    (h : resolveEventKey tc eventSeg name es ctx = .ok c) :
    c.durationSegments = (lastMarker (eventKeyNodes eventSeg name es)).getD ctx.durationSegments ∧
      c.timestampSegments = ctx.timestampSegments ∧ c.idSegments = ctx.idSegments := by
  unfold resolveEventKey at h
  unfold eventKeyNodes
  split at h
  · rename_i k node hfind
    rw [walk_eq tc node _ (by simp)] at h
    cases h
    rw [hfind]
    exact ⟨(duration_visitAll _ ctx).1, event_visitAll _ ctx⟩
  · rename_i hfind
    cases h
    rw [hfind]
    exact ⟨rfl, rfl, rfl⟩

/-- A marker below an entry of the event object. -/
def EventMarker (eventSeg : String) (e : String × JsonNode) (p : List String) : Prop :=
  ∃ q, p = [eventSeg, e.1] ++ q ∧ e.2.lookup q = some (marker .duration)

theorem eventMarker_of_key {eventSeg name : String} {es : List (String × JsonNode)}
    (hd : (object es).DistinctKeys) {p : List String}
    (h : lastMarker (eventKeyNodes eventSeg name es) = some p) :
    ∃ e ∈ es, e.1 = name ∧ EventMarker eventSeg e p := by
  unfold eventKeyNodes at h
  split at h
  · rename_i e hfind
    have hmem := List.mem_of_find?_eq_some hfind
    have hname : e.1 = name := by simpa using List.find?_some hfind
    have hde := entriesDistinct_iff.mp hd.2 e hmem
    obtain ⟨q, rfl, hq⟩ := (mem_nodes e.2 hde _ p _).mp (exists_of_lastMarker h)
    exact ⟨e, hmem, hname, q, by rw [hname], hq⟩
  · cases h

theorem eventMarker_of_entries {eventSeg : String} {es : List (String × JsonNode)}
    (hd : EntriesDistinct es) {p : List String}
    (h : lastMarker (entryNodes es [eventSeg]) = some p) :
    ∃ e ∈ es, EventMarker eventSeg e p := by
  have hmem := exists_of_lastMarker h
  rw [entryNodes_eq_flatMap, List.mem_flatMap] at hmem
  obtain ⟨e, he, hp⟩ := hmem
  have hde := entriesDistinct_iff.mp hd e he
  obtain ⟨q, rfl, hq⟩ := (mem_nodes e.2 hde _ p _).mp hp
  exact ⟨e, he, q, rfl, hq⟩

theorem lastMarker_eventKey_isSome {eventSeg name : String} {es : List (String × JsonNode)}
    (hd : (object es).DistinctKeys) :
    (lastMarker (eventKeyNodes eventSeg name es)).isSome ↔
      ∃ e ∈ es, e.1 = name ∧ e.2.hasMarker := by
  constructor
  · intro h
    obtain ⟨p, hp⟩ := Option.isSome_iff_exists.mp h
    obtain ⟨e, he, hname, q, -, hq⟩ := eventMarker_of_key hd hp
    exact ⟨e, he, hname, (hasMarker_iff (entriesDistinct_iff.mp hd.2 e he)).mpr ⟨q, hq⟩⟩
  · rintro ⟨e, he, rfl, hmarker⟩
    rw [eventKeyNodes, (find?_eq_some_iff hd.1).mpr he]
    exact (lastMarker_nodes_isSome (entriesDistinct_iff.mp hd.2 e he) _).mpr hmarker

/-- The entries of the event object besides the timestamp and the id. -/
def eventOthers (b : Builtins) (es : List (String × JsonNode)) : List (String × JsonNode) :=
  es.filter fun e ↦ e.1 ≠ b.eventTimestamp ∧ e.1 ≠ b.eventId

theorem mem_eventOthers {b : Builtins} {es : List (String × JsonNode)} {e : String × JsonNode} :
    e ∈ eventOthers b es ↔ e ∈ es ∧ e.1 ≠ b.eventTimestamp ∧ e.1 ≠ b.eventId := by
  simp [eventOthers]

/-- The last marker that is met when the event object is walked: the timestamp comes
first, then the id, then the other entries. -/
def eventMarker (b : Builtins) (es : List (String × JsonNode)) : Option (List String) :=
  (lastMarker (entryNodes (eventOthers b es) [b.event])).or
    ((lastMarker (eventKeyNodes b.event b.eventId es)).or
      (lastMarker (eventKeyNodes b.event b.eventTimestamp es)))

/-- The last marker of the event object is below an entry besides the timestamp and the
id, if there is a marker below any. -/
theorem exists_of_eventMarker {b : Builtins} {es : List (String × JsonNode)}
    (hd : (object es).DistinctKeys) {p : List String} (h : eventMarker b es = some p) :
    ∃ e ∈ es, EventMarker b.event e p ∧
      ((e.1 ≠ b.eventTimestamp ∧ e.1 ≠ b.eventId) ↔ ∃ e ∈ eventOthers b es, e.2.hasMarker) := by
  have hdo : EntriesDistinct (eventOthers b es) :=
    entriesDistinct_iff.mpr fun e he ↦ entriesDistinct_iff.mp hd.2 e (mem_eventOthers.mp he).1
  rw [← lastMarker_entryNodes_isSome hdo [b.event]]
  unfold eventMarker at h
  cases hothers : lastMarker (entryNodes (eventOthers b es) [b.event]) with
  | some p' =>
      rw [hothers, Option.some_or, Option.some.injEq] at h
      subst h
      obtain ⟨e, he, hp⟩ := eventMarker_of_entries hdo hothers
      obtain ⟨hmem, hne⟩ := mem_eventOthers.mp he
      exact ⟨e, hmem, hp, iff_of_true hne rfl⟩
  | none =>
      rw [hothers, Option.none_or, Option.or_eq_some_iff] at h
      rcases h with h | ⟨-, h⟩
      · obtain ⟨e, he, hname, hp⟩ := eventMarker_of_key hd h
        exact ⟨e, he, hp, iff_of_false (fun hne ↦ hne.2 hname) (by simp)⟩
      · obtain ⟨e, he, hname, hp⟩ := eventMarker_of_key hd h
        exact ⟨e, he, hp, iff_of_false (fun hne ↦ hne.1 hname) (by simp)⟩

/-- A marker is met exactly if there is one below the event. -/
theorem eventMarker_isSome_iff {b : Builtins} {es : List (String × JsonNode)}
    (hd : (object es).DistinctKeys) :
    (eventMarker b es).isSome ↔ ∃ e ∈ es, e.2.hasMarker := by
  have hdo : EntriesDistinct (eventOthers b es) :=
    entriesDistinct_iff.mpr fun e he ↦ entriesDistinct_iff.mp hd.2 e (mem_eventOthers.mp he).1
  rw [eventMarker, Option.isSome_or, Option.isSome_or, Bool.or_eq_true, Bool.or_eq_true,
    lastMarker_entryNodes_isSome hdo, lastMarker_eventKey_isSome hd,
    lastMarker_eventKey_isSome hd]
  constructor
  · rintro (⟨e, he, hmarker⟩ | ⟨e, he, -, hmarker⟩ | ⟨e, he, -, hmarker⟩)
    · exact ⟨e, (mem_eventOthers.mp he).1, hmarker⟩
    · exact ⟨e, he, hmarker⟩
    · exact ⟨e, he, hmarker⟩
  · rintro ⟨e, he, hmarker⟩
    by_cases hid : e.1 = b.eventId
    · exact .inr (.inl ⟨e, he, hid, hmarker⟩)
    · by_cases hts : e.1 = b.eventTimestamp
      · exact .inr (.inr ⟨e, he, hts, hmarker⟩)
      · exact .inl ⟨e, mem_eventOthers.mpr ⟨he, hts, hid⟩, hmarker⟩

/-- **The paths after the event pass.**  An event that is declared is an object. -/
theorem fields_autoAddEvent {entries : List (String × JsonNode)}
    (h : autoAddEvent tc (object entries) ctx = .ok c) :
    (∀ n, (object entries).lookup [ctx.builtin.event] = some n → ∃ es, n = object es) ∧
      c.timestampSegments = [ctx.builtin.event, ctx.builtin.eventTimestamp] ∧
      c.idSegments = [ctx.builtin.event, ctx.builtin.eventId] ∧
      c.durationSegments = (eventMarker ctx.builtin
        ((object entries).entriesAt [ctx.builtin.event])).getD ctx.durationSegments := by
  cases autoAddEvent_cases h with
  | absent hnone =>
      have hnil : (object entries).entriesAt [ctx.builtin.event] = [] := by rw [entriesAt, hnone]
      rw [hnil, hnone]
      refine ⟨?_, rfl, rfl, rfl⟩
      rintro n ⟨⟩
  | empty hes =>
      rw [entriesAt_of_lookup hes, hes]
      refine ⟨?_, rfl, rfl, rfl⟩
      rintro n ⟨⟩
      exact ⟨[], rfl⟩
  | @declared es _ _ hes h₁ h₂ =>
      obtain ⟨hdur₁, -, -⟩ := resolveEventKey_fields h₁
      obtain ⟨hdur₂, hts₂, -⟩ := resolveEventKey_fields h₂
      rw [entriesAt_of_lookup hes, hes]
      refine ⟨?_, ?_, ?_, ?_⟩
      · rintro n ⟨⟩
        exact ⟨es, rfl⟩
      · exact (event_visitAll _ _).1.trans hts₂
      · exact (event_visitAll _ _).2
      · rw [eventMarker, Option.getD_or, Option.getD_or]
        refine (duration_visitAll _ _).1.trans ?_
        exact congrArg _ (hdur₂.trans (congrArg _ hdur₁))

end Event

end WideLog.Macros
