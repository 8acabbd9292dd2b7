import WideLog.Macros.AutoFields

/-!
# The leaves that have defaults

The strings, booleans and numbers of a schema are defaults.  The walk of the root
records each of them once; the passes for the duration and the event walk parts of the
schema again, and record some of them a second time.
-/

namespace WideLog.Macros

open JsonNode GenContext

variable {tc : Toolchain}

/-- The defaults among some nodes, with their paths. -/
def defaultsOf (xs : List (List String × JsonNode)) : List DefaultEntry :=
  xs.flatMap fun x ↦ ((defaultOf x.2).map fun value ↦ ⟨x.1, value⟩).toList

/-- The leaves of a schema that have a default, in the order of the source. -/
def JsonNode.leaves : JsonNode → List DefaultEntry
  | .object entries => defaultsOf (entryNodes entries [])
  | _ => []

theorem mem_defaultsOf {xs : List (List String × JsonNode)} {d : DefaultEntry} :
    d ∈ defaultsOf xs ↔ ∃ node, (d.segments, node) ∈ xs ∧ defaultOf node = some d.value := by
  simp only [defaultsOf, List.mem_flatMap, Option.mem_toList, Option.map_eq_some_iff]
  constructor
  · rintro ⟨⟨path, node⟩, hmem, value, hvalue, rfl⟩
    exact ⟨node, hmem, hvalue⟩
  · rintro ⟨node, hmem, hvalue⟩
    exact ⟨_, hmem, _, hvalue, rfl⟩

/-- The leaves of a schema are what its paths look up. -/
theorem mem_leaves {es : List (String × JsonNode)} (h : (object es).DistinctKeys)
    {d : DefaultEntry} :
    d ∈ (object es).leaves ↔
      ∃ node, (object es).lookup d.segments = some node ∧ defaultOf node = some d.value := by
  rw [leaves, mem_defaultsOf]
  refine exists_congr fun node ↦ and_congr_left fun hnode ↦ ?_
  rw [mem_entryNodes es h.1 h.2]
  cases hsegments : d.segments with
  | nil =>
      constructor
      · rintro ⟨k, q, hnil, -⟩
        cases hnil
      · rintro ⟨⟩
        cases hnode
  | cons k q =>
      constructor
      · rintro ⟨k', q', hcons, hq⟩
        cases hcons
        exact hq
      · intro hq
        exact ⟨k, q, rfl, hq⟩

/-- Nothing is declared below a leaf. -/
theorem lookup_below_leaf {root node : JsonNode} {p q : List String} {value : DefaultValue}
    (hp : root.lookup p = some node) (hnode : defaultOf node = some value)
    (hq : (root.lookup (p ++ q)).isSome) : q = [] := by
  rw [lookup_append, hp, Option.bind_some] at hq
  cases q with
  | nil => rfl
  | cons k q =>
      cases node with
      | object entries => cases hnode
      | null => cases hnode
      | marker m => cases hnode
      | _ => exact absurd hq Bool.false_ne_true

/-- No leaf is below another. -/
theorem leaves_apart {es : List (String × JsonNode)} (h : (object es).DistinctKeys)
    {d e : DefaultEntry} (hd : d ∈ (object es).leaves) (he : e ∈ (object es).leaves)
    (hpre : d.segments <+: e.segments) : d = e := by
  obtain ⟨node, hnode, hvalue⟩ := (mem_leaves h).mp hd
  obtain ⟨node', hnode', hvalue'⟩ := (mem_leaves h).mp he
  obtain ⟨q, hq⟩ := hpre
  have hnil : q = [] := lookup_below_leaf hnode hvalue (by rw [hq, hnode']; rfl)
  rw [hnil, List.append_nil] at hq
  rw [hq, hnode'] at hnode
  cases hnode
  rw [hvalue] at hvalue'
  obtain ⟨segments, value⟩ := d
  obtain ⟨segments', value'⟩ := e
  cases hq
  cases hvalue'
  rfl

/-! ## What the passes record -/

theorem defaults_visitAll (xs : List (List String × JsonNode)) (ctx : GenContext) :
    (visitAll tc xs ctx).defaults = ctx.defaults ++ defaultsOf xs := by
  induction xs generalizing ctx with
  | nil => exact (List.append_nil _).symm
  | cons x xs ih =>
      rw [visitAll_cons, ih]
      exact List.append_assoc ..

/-- A pass records leaves of the schema, after what was recorded before. -/
def GenContext.Records (root : JsonNode) (ctx c : GenContext) : Prop :=
  ∃ again, c.defaults = ctx.defaults ++ again ∧ ∀ d ∈ again, d ∈ root.leaves

section Records

variable {root : JsonNode} {ctx c d : GenContext}

theorem GenContext.Records.of_eq (h : c.defaults = ctx.defaults) : Records root ctx c :=
  ⟨[], by rw [h, List.append_nil], nofun⟩

theorem GenContext.Records.congr (h : Records root c d) (hc : c.defaults = ctx.defaults) :
    Records root ctx d := by
  unfold Records at h ⊢
  rwa [← hc]

theorem GenContext.Records.trans (h : Records root ctx c) (h' : Records root c d) :
    Records root ctx d := by
  obtain ⟨again, hc, hagain⟩ := h
  obtain ⟨again', hd, hagain'⟩ := h'
  refine ⟨again ++ again', by rw [hd, hc, List.append_assoc], ?_⟩
  intro x hx
  rcases List.mem_append.mp hx with hx | hx
  · exact hagain x hx
  · exact hagain' x hx

end Records

section Passes

variable {entries : List (String × JsonNode)} {ctx c : GenContext}

theorem records_visitAll (h : (object entries).DistinctKeys) {xs : List (List String × JsonNode)}
    (hxs : ∀ x ∈ xs, (object entries).lookup x.1 = some x.2) (ctx : GenContext) :
    Records (object entries) ctx (visitAll tc xs ctx) := by
  refine ⟨defaultsOf xs, defaults_visitAll xs ctx, ?_⟩
  intro d hmem
  obtain ⟨node, hnode, hvalue⟩ := mem_defaultsOf.mp hmem
  exact (mem_leaves h).mpr ⟨node, hxs _ hnode, hvalue⟩

/-- A declared object is walked again. -/
theorem records_entries (h : (object entries).DistinctKeys) {path : List String}
    {es es' : List (String × JsonNode)} (hes : (object entries).lookup path = some (.object es))
    (hsub : es'.Sublist es) (ctx : GenContext) :
    Records (object entries) ctx (visitAll tc (entryNodes es' path) ctx) := by
  refine records_visitAll h ?_ ctx
  rintro ⟨p, n⟩ hmem
  obtain ⟨hkeys, hdistinct⟩ := h.lookup hes
  have hkeys' : (es'.map Prod.fst).Nodup := (hsub.map Prod.fst).nodup hkeys
  have hdistinct' : EntriesDistinct es' :=
    entriesDistinct_iff.mpr fun e he ↦ entriesDistinct_iff.mp hdistinct e (hsub.subset he)
  obtain ⟨k, q, rfl, hq⟩ := (mem_entryNodes es' hkeys' hdistinct' path p n).mp hmem
  obtain ⟨e, he, hq⟩ := Option.bind_eq_some_iff.mp hq
  have hkey : e.1 = k := by simpa using List.find?_some he
  have hfind := (find?_eq_some_iff hkeys).mpr (hsub.subset (List.mem_of_find?_eq_some he))
  rw [hkey] at hfind
  rw [lookup_append, hes, Option.bind_some, lookup, hfind]
  exact hq

theorem records_walkAroundTotalMs (h : (object entries).DistinctKeys) {durationSeg totalMs : String}
    {es es' : List (String × JsonNode)}
    (hes : (object entries).lookup [durationSeg] = some (.object es)) (hsub : es'.Sublist es)
    (hc : walkAroundTotalMs tc durationSeg totalMs es' ctx = .ok c) :
    Records (object entries) ctx c := by
  induction es' generalizing ctx with
  | nil =>
      cases hc
      exact .of_eq rfl
  | cons e es' ih =>
      obtain ⟨k, v⟩ := e
      have hrest : es'.Sublist es := (List.sublist_cons_self _ _).trans hsub
      rw [walkAroundTotalMs] at hc
      split_ifs at hc with hk
      · exact (ih hrest hc).congr rfl
      · rw [walk_eq tc v _ (by simp)] at hc
        have hone : [(k, v)].Sublist es := ((List.nil_sublist es').cons_cons (k, v)).trans hsub
        have hwalk : Records (object entries) ctx
            (visitAll tc (entryNodes [(k, v)] [durationSeg]) ctx) := records_entries h hes hone ctx
        rw [entryNodes, entryNodes, List.append_nil] at hwalk
        exact hwalk.trans (ih hrest hc)

theorem records_autoAddDuration (h : (object entries).DistinctKeys)
    (hc : autoAddDuration tc (object entries) ctx = .ok c) : Records (object entries) ctx c := by
  cases autoAddDuration_cases hc with
  | absent => exact .of_eq rfl
  | empty => exact .of_eq rfl
  | marked _ hes _ => exact (records_entries h hes (List.Sublist.refl _) _).congr rfl
  | totalMs hes _ _ hwalk =>
      exact (records_walkAroundTotalMs h hes (List.Sublist.refl _) hwalk).congr rfl
  | single => exact .of_eq rfl

theorem records_resolveEventKey (h : (object entries).DistinctKeys) {eventSeg name : String}
    {es : List (String × JsonNode)}
    (hes : (object entries).lookup [eventSeg] = some (.object es))
    (hc : resolveEventKey tc eventSeg name es ctx = .ok c) : Records (object entries) ctx c := by
  unfold resolveEventKey at hc
  split at hc
  · next k node hfind =>
      have hkey : k = name := by simpa using List.find?_some hfind
      rw [walk_eq tc node _ (by simp)] at hc
      cases hc
      have hone := List.singleton_sublist.mpr (List.mem_of_find?_eq_some hfind)
      have hwalk : Records (object entries) ctx
          (visitAll tc (entryNodes [(k, node)] [eventSeg]) ctx) := records_entries h hes hone ctx
      rw [entryNodes, entryNodes, List.append_nil, hkey] at hwalk
      exact hwalk
  · cases hc
    exact .of_eq rfl

theorem records_autoAddEvent (h : (object entries).DistinctKeys)
    (hc : autoAddEvent tc (object entries) ctx = .ok c) : Records (object entries) ctx c := by
  cases autoAddEvent_cases hc with
  | absent => exact .of_eq rfl
  | empty => exact .of_eq rfl
  | declared hes hts hid =>
      have htop : Records (object entries) ctx (ctx.declareTop tc ctx.builtin.event) := .of_eq rfl
      have htimestamp := htop.trans (records_resolveEventKey h hes hts)
      have hid := htimestamp.trans ((records_resolveEventKey h hes hid).congr rfl)
      exact hid.trans ((records_entries h hes List.filter_sublist _).congr rfl)

/-- **What is recorded**: all leaves in the order of the source, then some of them again. -/
theorem defaults_of_passes (h : (object entries).DistinctKeys) {overrides : KeyOverrides}
    (hduration : autoAddDuration tc (object entries)
      (visitAll tc (entryNodes entries []) (new overrides)) = .ok c)
    (hevent : autoAddEvent tc (object entries) c = .ok ctx) :
    ∃ again, ctx.defaults = (object entries).leaves ++ again ∧
      ∀ d ∈ again, d ∈ (object entries).leaves := by
  have hwalk : (visitAll tc (entryNodes entries []) (new overrides)).defaults =
      (object entries).leaves := (defaults_visitAll _ _).trans (List.nil_append _)
  obtain ⟨again, hagain, hleaves⟩ :=
    (records_autoAddDuration h hduration).trans (records_autoAddEvent h hevent)
  exact ⟨again, by rw [hagain, hwalk], hleaves⟩

theorem mem_defaults_of_passes (h : (object entries).DistinctKeys) {overrides : KeyOverrides}
    (hduration : autoAddDuration tc (object entries)
      (visitAll tc (entryNodes entries []) (new overrides)) = .ok c)
    (hevent : autoAddEvent tc (object entries) c = .ok ctx) (d : DefaultEntry) :
    d ∈ ctx.defaults ↔ d ∈ (object entries).leaves := by
  obtain ⟨again, happend, hagain⟩ := defaults_of_passes h hduration hevent
  rw [happend, List.mem_append]
  exact ⟨fun hd ↦ hd.elim id (hagain d), .inl⟩

end Passes

end WideLog.Macros
