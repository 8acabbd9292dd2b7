import WideLog.Macros.Passes

/-!
# Duration markers among the visited nodes

The walks of the code generator visit nodes one after the other, and each `duration!`
marker moves the duration to its own path.  The last one met decides.
-/

namespace WideLog.Macros

open JsonNode GenContext

/-- The path of the last `duration!` marker among some nodes. -/
def lastMarker (xs : List (List String × JsonNode)) : Option (List String) :=
  (xs.filter (·.2.isDurationMarker)).getLast?.map Prod.fst

theorem lastMarker_append (xs ys : List (List String × JsonNode)) :
    lastMarker (xs ++ ys) = (lastMarker ys).or (lastMarker xs) := by
  rw [lastMarker, List.filter_append, List.getLast?_append, Option.map_or]
  rfl

theorem lastMarker_singleton (x : List String × JsonNode) :
    lastMarker [x] = if x.2.isDurationMarker then some x.1 else none := by
  unfold lastMarker
  by_cases h : x.2.isDurationMarker <;> simp [h]

theorem lastMarker_isSome_iff {xs : List (List String × JsonNode)} :
    (lastMarker xs).isSome ↔ ∃ x ∈ xs, x.2.isDurationMarker := by
  rw [lastMarker, Option.isSome_map, List.getLast?_isSome, ne_eq, List.filter_eq_nil_iff]
  push Not
  rfl

theorem exists_of_lastMarker {xs : List (List String × JsonNode)} {p : List String}
    (h : lastMarker xs = some p) : (p, marker .duration) ∈ xs := by
  obtain ⟨⟨p', n⟩, hlast, rfl⟩ := Option.map_eq_some_iff.mp h
  obtain ⟨hmem, hn⟩ := List.mem_filter.mp (List.mem_of_getLast? hlast)
  have hn' : n = marker .duration := isDurationMarker_iff.mp hn
  rwa [hn'] at hmem

variable {tc : Toolchain}

/-- Visits end with the duration at the last marker, if they meet one. -/
theorem duration_visitAll (xs : List (List String × JsonNode)) (ctx : GenContext) :
    (visitAll tc xs ctx).durationSegments = (lastMarker xs).getD ctx.durationSegments ∧
      (visitAll tc xs ctx).hasDurationMarker =
        ((lastMarker xs).isSome || ctx.hasDurationMarker) := by
  induction xs generalizing ctx with
  | nil => exact ⟨rfl, rfl⟩
  | cons x xs ih =>
      have hvisit : (visited tc x ctx).durationSegments =
          if x.2.isDurationMarker then x.1 else ctx.durationSegments := rfl
      have hmarker : (visited tc x ctx).hasDurationMarker =
          (x.2.isDurationMarker || ctx.hasDurationMarker) := rfl
      rw [visitAll_cons, (ih _).1, (ih _).2, hvisit, hmarker, ← List.singleton_append,
        lastMarker_append, lastMarker_singleton]
      cases lastMarker xs with
      | none => cases x.2.isDurationMarker <;> simp
      | some p => simp

/-- Visits leave the paths of the timestamp and the id alone. -/
theorem event_visitAll (xs : List (List String × JsonNode)) (ctx : GenContext) :
    (visitAll tc xs ctx).timestampSegments = ctx.timestampSegments ∧
      (visitAll tc xs ctx).idSegments = ctx.idSegments := by
  induction xs generalizing ctx with
  | nil => exact ⟨rfl, rfl⟩
  | cons x xs ih => exact ih (visited tc x ctx)

section Markers

variable {root n : JsonNode} {es : List (String × JsonNode)} {path p : List String}

theorem lastMarker_nodes_isSome (h : n.DistinctKeys) (path : List String) :
    (lastMarker (n.nodes path)).isSome ↔ n.hasMarker := by
  simp only [lastMarker_isSome_iff, hasMarker_iff h, Prod.exists, mem_nodes n h,
    isDurationMarker_iff]
  constructor
  · rintro ⟨p, n, ⟨q, rfl, hq⟩, rfl⟩
    exact ⟨q, hq⟩
  · rintro ⟨q, hq⟩
    exact ⟨_, _, ⟨q, rfl, hq⟩, rfl⟩

/-- The nodes below an object, entry by entry. -/
theorem entryNodes_eq_flatMap (es : List (String × JsonNode)) (path : List String) :
    entryNodes es path = es.flatMap fun e ↦ e.2.nodes (path ++ [e.1]) := by
  induction es with
  | nil => rfl
  | cons e es ih =>
      rw [List.flatMap_cons, ← ih]
      rfl

theorem lastMarker_entryNodes_isSome (h : EntriesDistinct es) (path : List String) :
    (lastMarker (entryNodes es path)).isSome ↔ ∃ e ∈ es, e.2.hasMarker := by
  have hentry (e : String × JsonNode) (he : e ∈ es) :
      (∃ x ∈ e.2.nodes (path ++ [e.1]), x.2.isDurationMarker) ↔ e.2.hasMarker := by
    rw [← lastMarker_isSome_iff, lastMarker_nodes_isSome (entriesDistinct_iff.mp h e he)]
  rw [lastMarker_isSome_iff, entryNodes_eq_flatMap]
  simp only [List.mem_flatMap]
  constructor
  · rintro ⟨x, ⟨e, he, hx⟩, hmarker⟩
    exact ⟨e, he, (hentry e he).mp ⟨x, hx, hmarker⟩⟩
  · rintro ⟨e, he, hmarker⟩
    obtain ⟨x, hx, hmarker⟩ := (hentry e he).mpr hmarker
    exact ⟨x, ⟨e, he, hx⟩, hmarker⟩

theorem lookup_lastMarker_entries (h : root.DistinctKeys)
    (hes : root.lookup path = some (.object es))
    (hp : lastMarker (entryNodes es path) = some p) :
    root.lookup p = some (marker .duration) := by
  have hd := h.lookup hes
  obtain ⟨k, q, rfl, hq⟩ :=
    (mem_entryNodes es hd.1 hd.2 path p _).mp (exists_of_lastMarker hp)
  rw [lookup_append, hes]
  exact hq

/-- An object has a marker if one of its entries has. -/
theorem hasMarker_object (h : (object es).DistinctKeys) :
    (object es).hasMarker ↔ ∃ e ∈ es, e.2.hasMarker := by
  rw [← lastMarker_nodes_isSome h [], nodes, ← List.singleton_append, lastMarker_append,
    lastMarker_singleton, ← lastMarker_entryNodes_isSome h.2 []]
  simp [isDurationMarker]

end Markers

end WideLog.Macros
