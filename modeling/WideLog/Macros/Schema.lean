import WideLog.Lib.F64
import Mathlib.Data.List.Nodup

/-!
# Schemas

The data that `parse.rs` builds from the macro input: the JSON node of the schema,
and the overrides of the built-in keys.
-/

namespace WideLog.Macros

/-- A number of a schema. -/
inductive Number where
  | int (n : Int64)
  | uint (n : UInt64)
  | float (x : F64)
deriving DecidableEq, Repr

/-- A marker in place of a value. -/
inductive Marker where
  | duration
  | counter
deriving DecidableEq, Repr

/-- A node of a schema. -/
inductive JsonNode where
  | null
  | bool (b : Bool)
  | number (n : Number)
  | str (s : String)
  | object (entries : List (String × JsonNode))
  | marker (m : Marker)

/-- The overrides of the log key and its sub-keys. -/
structure LogOverride where
  key : Option String
  level : Option String
  message : Option String
deriving DecidableEq, Repr

/-- The overrides of the event key and its sub-keys. -/
structure EventOverride where
  key : Option String
  id : Option String
  timestamp : Option String
deriving DecidableEq, Repr

/-- The overrides of the duration key and its sub-key. -/
structure DurationOverride where
  key : Option String
  totalMs : Option String
deriving DecidableEq, Repr

/-- All overrides; `none` leaves the default. -/
structure KeyOverrides where
  log : LogOverride
  event : EventOverride
  duration : DurationOverride
deriving DecidableEq, Repr

/-- `KeyOverrides::default`. -/
def KeyOverrides.default : KeyOverrides := ⟨⟨none, none, none⟩, ⟨none, none, none⟩, ⟨none, none⟩⟩

namespace JsonNode

mutual

/-- The node at a path of key names and all nodes below it, with their paths, in
the order of the source. -/
def nodes : JsonNode → List String → List (List String × JsonNode)
  | .object entries, path => (path, .object entries) :: entryNodes entries path
  | node, path => [(path, node)]
termination_by structural node => node

/-- The nodes below an object at a path. -/
def entryNodes : List (String × JsonNode) → List String → List (List String × JsonNode)
  | [], _ => []
  | (k, v) :: entries, path => nodes v (path ++ [k]) ++ entryNodes entries path
termination_by structural entries => entries

end

mutual

/-- No object of the node declares a key twice. -/
def DistinctKeys : JsonNode → Prop
  | .object entries => (entries.map Prod.fst).Nodup ∧ EntriesDistinct entries
  | _ => True
termination_by structural node => node

def EntriesDistinct : List (String × JsonNode) → Prop
  | [] => True
  | (_, v) :: entries => v.DistinctKeys ∧ EntriesDistinct entries
termination_by structural entries => entries

end

/-- A `duration!` marker. -/
def isDurationMarker : JsonNode → Bool
  | .marker .duration => true
  | _ => false

/-- The node at a path of key names below a node. -/
def lookup : List String → JsonNode → Option JsonNode
  | [], node => some node
  | k :: ks, .object entries => (entries.find? (·.1 = k)).bind fun e ↦ e.2.lookup ks
  | _ :: _, _ => none

theorem entriesDistinct_iff {entries : List (String × JsonNode)} :
    EntriesDistinct entries ↔ ∀ e ∈ entries, e.2.DistinctKeys := by
  induction entries with
  | nil => simp [EntriesDistinct]
  | cons e entries ih => rw [EntriesDistinct, ih, List.forall_mem_cons]

theorem find?_of_notMem {k : String} {entries : List (String × JsonNode)}
    (h : k ∉ entries.map Prod.fst) : entries.find? (·.1 = k) = none := by
  rw [List.find?_eq_none]
  intro e he hk
  exact h (List.mem_map.mpr ⟨e, he, by simpa using hk⟩)

/-- A node without entries is the only node listed for it. -/
theorem mem_leaf {node : JsonNode} {path : List String} (hnodes : node.nodes path = [(path, node)])
    (hlookup : ∀ k ks, node.lookup (k :: ks) = none) (p : List String) (n : JsonNode) :
    (p, n) ∈ node.nodes path ↔ ∃ q, p = path ++ q ∧ node.lookup q = some n := by
  rw [hnodes, List.mem_singleton, Prod.mk.injEq]
  constructor
  · rintro ⟨rfl, rfl⟩
    exact ⟨[], by simp [lookup]⟩
  · rintro ⟨q, rfl, hq⟩
    cases q with
    | nil => exact ⟨by simp, by simpa [lookup, eq_comm] using hq⟩
    | cons k ks => simp [hlookup] at hq

mutual

/-- The listed nodes are those a path looks up. -/
theorem mem_nodes (node : JsonNode) (h : node.DistinctKeys) (path p : List String)
    (n : JsonNode) : (p, n) ∈ node.nodes path ↔ ∃ q, p = path ++ q ∧ node.lookup q = some n :=
  match node with
  | .object entries => by
      rw [nodes, List.mem_cons, mem_entryNodes entries h.1 h.2]
      constructor
      · rintro (hp | ⟨k, q, rfl, hq⟩)
        · exact ⟨[], by simp_all [lookup]⟩
        · exact ⟨k :: q, rfl, hq⟩
      · rintro ⟨q, rfl, hq⟩
        cases q with
        | nil => simp_all [lookup]
        | cons k q => exact .inr ⟨k, q, rfl, hq⟩
  | .null => mem_leaf rfl (fun _ _ ↦ rfl) p n
  | .bool _ => mem_leaf rfl (fun _ _ ↦ rfl) p n
  | .number _ => mem_leaf rfl (fun _ _ ↦ rfl) p n
  | .str _ => mem_leaf rfl (fun _ _ ↦ rfl) p n
  | .marker _ => mem_leaf rfl (fun _ _ ↦ rfl) p n
termination_by structural node

theorem mem_entryNodes (entries : List (String × JsonNode)) (hk : (entries.map Prod.fst).Nodup)
    (h : EntriesDistinct entries) (path p : List String) (n : JsonNode) :
    (p, n) ∈ entryNodes entries path ↔ ∃ k q, p = path ++ k :: q ∧
      ((entries.find? (·.1 = k)).bind fun e ↦ e.2.lookup q) = some n :=
  match entries with
  | [] => by simp [entryNodes]
  | (k, v) :: entries => by
      rw [List.map_cons, List.nodup_cons] at hk
      rw [entryNodes, List.mem_append, mem_nodes v h.1, mem_entryNodes entries hk.2 h.2]
      constructor
      · rintro (⟨q, rfl, hq⟩ | ⟨k', q, rfl, hq⟩)
        · exact ⟨k, q, by simp, by simpa using hq⟩
        · have hne : k ≠ k' := by
            rintro rfl
            simp [find?_of_notMem hk.1] at hq
          exact ⟨k', q, rfl, by simpa [hne] using hq⟩
      · rintro ⟨k', q, rfl, hq⟩
        by_cases hk' : k = k'
        · subst hk'
          exact .inl ⟨q, by simp, by simpa using hq⟩
        · exact .inr ⟨k', q, rfl, by simpa [hk'] using hq⟩
termination_by structural entries

end

/-- The paths a schema declares: those of its nodes below the root, in order. -/
def paths : JsonNode → List (List String)
  | .object entries => (entryNodes entries []).map Prod.fst
  | _ => []

/-- The declared paths are the paths of length one or more at which there is a node. -/
theorem mem_paths {node : JsonNode} (h : node.DistinctKeys) {path : List String} :
    path ∈ node.paths ↔ path ≠ [] ∧ (node.lookup path).isSome := by
  cases node with
  | object entries =>
      simp only [paths, List.mem_map, Prod.exists, exists_and_right, exists_eq_right,
        mem_entryNodes entries h.1 h.2, List.nil_append]
      constructor
      · rintro ⟨n, k, q, rfl, hq⟩
        exact ⟨by simp, Option.isSome_iff_exists.mpr ⟨n, hq⟩⟩
      · rintro ⟨hne, hsome⟩
        obtain ⟨k, q, rfl⟩ := List.exists_cons_of_ne_nil hne
        obtain ⟨n, hn⟩ := Option.isSome_iff_exists.mp hsome
        exact ⟨n, k, q, rfl, hn⟩
  | _ =>
      simp only [paths, List.not_mem_nil, false_iff, not_and]
      intro hne
      obtain ⟨k, q, rfl⟩ := List.exists_cons_of_ne_nil hne
      simp [lookup]

theorem lookup_append (p q : List String) (node : JsonNode) :
    node.lookup (p ++ q) = (node.lookup p).bind (·.lookup q) := by
  induction p generalizing node with
  | nil => rfl
  | cons k p ih =>
      cases node with
      | object entries =>
          rw [List.cons_append, lookup, lookup, Option.bind_assoc]
          exact Option.bind_congr fun e _ ↦ ih e.2
      | _ => rfl

/-- The nodes of a schema declare no key twice either. -/
theorem DistinctKeys.lookup {node n : JsonNode} (h : node.DistinctKeys) {p : List String}
    (hn : node.lookup p = some n) : n.DistinctKeys := by
  induction p generalizing node with
  | nil =>
      cases hn
      exact h
  | cons k p ih =>
      cases node with
      | object entries =>
          obtain ⟨e, he, hn⟩ := Option.bind_eq_some_iff.mp hn
          exact ih (entriesDistinct_iff.mp h.2 e (List.mem_of_find?_eq_some he)) hn
      | _ => cases hn

/-- With distinct keys, an entry is what its key looks up. -/
theorem find?_eq_some_iff {entries : List (String × JsonNode)}
    (h : (entries.map Prod.fst).Nodup) {e : String × JsonNode} :
    entries.find? (·.1 = e.1) = some e ↔ e ∈ entries := by
  constructor
  · exact List.mem_of_find?_eq_some
  intro he
  have hsome : (entries.find? (·.1 = e.1)).isSome := by
    rw [List.find?_isSome]
    exact ⟨e, he, by simp⟩
  obtain ⟨e', he'⟩ := Option.isSome_iff_exists.mp hsome
  have hkey : e'.1 = e.1 := by simpa using List.find?_some he'
  rw [he', List.inj_on_of_nodup_map h (List.mem_of_find?_eq_some he') he hkey]

/-- What a schema declares below a path. -/
def entriesAt (path : List String) (node : JsonNode) : List (String × JsonNode) :=
  match node.lookup path with
  | some (.object entries) => entries
  | _ => []

theorem mem_entriesAt {node : JsonNode} (h : node.DistinctKeys) {path : List String} {k : String}
    {v : JsonNode} : (k, v) ∈ node.entriesAt path ↔ node.lookup (path ++ [k]) = some v := by
  rw [lookup_append, entriesAt]
  split
  · rename_i entries hlookup
    rw [hlookup, Option.bind_some, lookup, ← find?_eq_some_iff (h.lookup hlookup).1]
    simp only [lookup]
    constructor
    · intro hfind
      rw [hfind]
      rfl
    · intro hfind
      obtain ⟨e, he, hv⟩ := Option.bind_eq_some_iff.mp hfind
      have hkey : e.1 = k := by simpa using List.find?_some he
      cases hv
      rw [he, ← hkey]
  · rename_i hno
    apply iff_of_false List.not_mem_nil
    intro hv
    obtain ⟨n, hn, hv⟩ := Option.bind_eq_some_iff.mp hv
    cases n with
    | object entries => exact hno entries hn
    | _ => cases hv

/-- What is declared below a path has distinct keys. -/
theorem DistinctKeys.entriesAt {node : JsonNode} (h : node.DistinctKeys) (path : List String) :
    (object (node.entriesAt path)).DistinctKeys := by
  unfold JsonNode.entriesAt
  split
  · rename_i entries hlookup
    exact h.lookup hlookup
  · exact ⟨List.nodup_nil, trivial⟩

/-- No path is declared below a path exactly if it has no entries. -/
theorem entriesAt_eq_nil_iff {node : JsonNode} (h : node.DistinctKeys) {p : List String} :
    node.entriesAt p = [] ↔ ∀ path ∈ node.paths, p <+: path → path = p := by
  constructor
  · rintro hnil path hpath ⟨q, rfl⟩
    cases q with
    | nil => rw [List.append_nil]
    | cons k q =>
        obtain ⟨n, hn⟩ := Option.isSome_iff_exists.mp ((mem_paths h).mp hpath).2
        rw [List.append_cons, lookup_append] at hn
        obtain ⟨v, hv, -⟩ := Option.bind_eq_some_iff.mp hn
        have hmem := (mem_entriesAt h).mpr hv
        rw [hnil] at hmem
        cases hmem
  · intro hpaths
    by_contra hne
    obtain ⟨⟨k, v⟩, hmem⟩ := List.exists_mem_of_ne_nil _ hne
    have hlookup := (mem_entriesAt h).mp hmem
    have hdeclared : p ++ [k] ∈ node.paths :=
      (mem_paths h).mpr ⟨by simp, by rw [hlookup]; rfl⟩
    simpa using hpaths _ hdeclared (List.prefix_append _ _)

/-- There is a `duration!` marker at or below a node. -/
def hasMarker (node : JsonNode) : Bool := (node.nodes []).any fun x ↦ x.2.isDurationMarker

theorem isDurationMarker_iff {node : JsonNode} :
    node.isDurationMarker ↔ node = .marker .duration := by
  unfold isDurationMarker
  split <;> simp_all

theorem hasMarker_iff {node : JsonNode} (h : node.DistinctKeys) :
    node.hasMarker ↔ ∃ q, node.lookup q = some (.marker .duration) := by
  simp only [hasMarker, List.any_eq_true, Prod.exists, mem_nodes node h, List.nil_append,
    isDurationMarker_iff]
  constructor
  · rintro ⟨p, n, ⟨q, rfl, hq⟩, rfl⟩
    exact ⟨_, hq⟩
  · rintro ⟨q, hq⟩
    exact ⟨q, _, ⟨q, rfl, hq⟩, rfl⟩

/-- A marker below a node of a schema is one of the schema. -/
theorem hasMarker_of_lookup {node n : JsonNode} (h : node.DistinctKeys) {p : List String}
    (hn : node.lookup p = some n) (hmarker : n.hasMarker) : node.hasMarker := by
  obtain ⟨q, hq⟩ := (hasMarker_iff (h.lookup hn)).mp hmarker
  refine (hasMarker_iff h).mpr ⟨p ++ q, ?_⟩
  rw [lookup_append, hn]
  exact hq

theorem entriesAt_of_lookup {node : JsonNode} {path : List String}
    {entries : List (String × JsonNode)} (h : node.lookup path = some (.object entries)) :
    node.entriesAt path = entries := by
  rw [entriesAt, h]

theorem entriesAt_eq_nil {node : JsonNode} {path : List String}
    (h : ∀ entries, node.lookup path ≠ some (.object entries)) : node.entriesAt path = [] := by
  unfold entriesAt
  split
  · rename_i entries hlookup
    exact absurd hlookup (h entries)
  · rfl

/-- A top-level key looks up its entry. -/
theorem lookup_singleton (entries : List (String × JsonNode)) (k : String) :
    (object entries).lookup [k] = (entries.find? (·.1 = k)).map Prod.snd := by
  cases h : entries.find? (·.1 = k) with
  | none => simp [lookup, h]
  | some e => simp [lookup, h]

end JsonNode

end WideLog.Macros
