import WideLog.Lib.Index
import WideLog.Macros.Visits

/-!
# The passes are edits

Every pass is a sequence of edits of the context: a key or a path is added to its
table, a default is added, an automatic path is set.  What holds of all edits holds
of all passes; here, that the tables are indexed and closed: paths mention declared
keys only.
-/

namespace WideLog.Macros

namespace GenContext

variable (tc : Toolchain)

/-! ## Edits -/

/-- The names in the key table. -/
def names (ctx : GenContext) : List String := ctx.keys.map KeyEntry.jsonName

/-- The dotted names in the path table. -/
def dotteds (ctx : GenContext) : List String := ctx.paths.map PathEntry.dotted

/-- All segments are names in the key table. -/
def Declares (ctx : GenContext) (segments : List String) : Prop := ∀ s ∈ segments, s ∈ ctx.names

/-- Contexts that edits lead to.  Paths are added and set once their segments are
in the key table. -/
inductive Edits (ctx : GenContext) : GenContext → Prop
  | refl : Edits ctx ctx
  | addKey {c : GenContext} (h : Edits ctx c) (name : String) : Edits ctx (c.addKey tc name)
  | addPath {c : GenContext} {segments : List String} (h : Edits ctx c)
      (hs : c.Declares segments) : Edits ctx (c.addPath segments)
  | record {c : GenContext} {path : List String} (h : Edits ctx c) (node : JsonNode)
      (hne : path ≠ []) (hs : c.Declares path) : Edits ctx (c.record node path)
  | setDuration {c : GenContext} {segments : List String} (h : Edits ctx c)
      (hs : c.Declares segments) :
      Edits ctx { c with hasDurationMarker := true, durationSegments := segments }
  | setTimestamp {c : GenContext} {segments : List String} (h : Edits ctx c)
      (hs : c.Declares segments) : Edits ctx { c with timestampSegments := segments }
  | setId {c : GenContext} {segments : List String} (h : Edits ctx c)
      (hs : c.Declares segments) : Edits ctx { c with idSegments := segments }
  | setEventKey {c : GenContext} (h : Edits ctx c) : Edits ctx { c with hasEventKey := true }

variable {tc} {ctx c d : GenContext}

theorem Edits.trans (h : Edits tc ctx c) (h' : Edits tc c d) : Edits tc ctx d := by
  induction h' with
  | refl => exact h
  | addKey _ name ih => exact ih.addKey name
  | addPath _ hs ih => exact ih.addPath hs
  | record _ node hne hs ih => exact ih.record node hne hs
  | setDuration _ hs ih => exact ih.setDuration hs
  | setTimestamp _ hs ih => exact ih.setTimestamp hs
  | setId _ hs ih => exact ih.setId hs
  | setEventKey _ ih => exact ih.setEventKey

/-- Edits leave the built-in key strings alone. -/
theorem Edits.builtin_eq (h : Edits tc ctx c) : c.builtin = ctx.builtin := by
  induction h with
  | refl => rfl
  | _ => assumption

theorem keys_prefix_addKey (name : String) : ctx.keys <+: (ctx.addKey tc name).keys := by
  simp only [addKey]
  split_ifs
  · exact List.prefix_refl _
  · exact List.prefix_append _ _

theorem paths_prefix_addPath (segments : List String) :
    ctx.paths <+: (ctx.addPath segments).paths := by
  simp only [addPath]
  split_ifs
  · exact List.prefix_refl _
  · exact List.prefix_append _ _

/-- The key table only grows. -/
theorem Edits.keys_mono (h : Edits tc ctx c) : ctx.keys <+: c.keys := by
  induction h with
  | refl => exact List.prefix_refl _
  | addKey _ name ih => exact ih.trans (keys_prefix_addKey name)
  | _ => assumption

/-- The path table only grows. -/
theorem Edits.paths_mono (h : Edits tc ctx c) : ctx.paths <+: c.paths := by
  induction h with
  | refl => exact List.prefix_refl _
  | addPath _ hs ih => exact ih.trans (paths_prefix_addPath _)
  | _ => assumption

theorem Edits.names_subset (h : Edits tc ctx c) : ctx.names ⊆ c.names :=
  (h.keys_mono.map _).subset

theorem Edits.declares (h : Edits tc ctx c) {segments : List String}
    (hs : ctx.Declares segments) : c.Declares segments := fun s hmem ↦ h.names_subset (hs s hmem)

/-! ## Tables -/

variable (tc) in
/-- The tables are indexed, every variant is that of its key, every dotted name is
that of its path, and all paths are made of declared keys. -/
structure Tables (ctx : GenContext) : Prop where
  keyIndex : IndexOf ctx.keyIndex ctx.names
  variant_eq : ∀ e ∈ ctx.keys, e.variant = toPascalCase tc e.jsonName
  pathIndex : IndexOf ctx.pathIndex ctx.dotteds
  dotted_eq : ∀ e ∈ ctx.paths, e.dotted = ".".intercalate e.segments
  paths : ∀ e ∈ ctx.paths, ctx.Declares e.segments
  defaults : ∀ d ∈ ctx.defaults, d.segments ≠ [] ∧ ctx.Declares d.segments
  duration : ctx.Declares ctx.durationSegments
  timestamp : ctx.Declares ctx.timestampSegments
  id : ctx.Declares ctx.idSegments

theorem tables_new (overrides : KeyOverrides) : (new overrides).Tables tc where
  keyIndex := .nil
  variant_eq _ h := nomatch h
  pathIndex := .nil
  dotted_eq _ h := nomatch h
  paths _ h := nomatch h
  defaults _ h := nomatch h
  duration _ h := nomatch h
  timestamp _ h := nomatch h
  id _ h := nomatch h

/-- The names after a key is added. -/
theorem names_addKey (h : IndexOf ctx.keyIndex ctx.names) (name s : String) :
    s ∈ (ctx.addKey tc name).names ↔ s ∈ ctx.names ∨ s = name := by
  have hknown := h.isSome_iff name
  simp only [addKey, names] at hknown ⊢
  split_ifs with hif
  · refine ⟨.inl, ?_⟩
    rintro (hs | rfl)
    · exact hs
    · exact hknown.mp hif
  · simp

theorem keyIndex_addKey (h : IndexOf ctx.keyIndex ctx.names) (name : String) :
    IndexOf (ctx.addKey tc name).keyIndex (ctx.addKey tc name).names := by
  have hknown := h.isSome_iff name
  simp only [GenContext.addKey, names] at hknown ⊢
  split_ifs with hif
  · exact h
  · have happ := h.append (fun hmem ↦ hif (hknown.mpr hmem))
    simpa [names] using happ

theorem Tables.addKey (h : ctx.Tables tc) (name : String) : (ctx.addKey tc name).Tables tc := by
  have hsub {segments : List String} (hs : ctx.Declares segments) :
      (ctx.addKey tc name).Declares segments :=
    fun s hmem ↦ (names_addKey h.keyIndex name s).mpr (.inl (hs s hmem))
  refine ⟨keyIndex_addKey h.keyIndex name, ?_, h.pathIndex, h.dotted_eq,
    fun e he ↦ hsub (h.paths e he), fun d hd ↦ (h.defaults d hd).imp_right hsub, hsub h.duration,
    hsub h.timestamp, hsub h.id⟩
  simp only [GenContext.addKey]
  split_ifs with hif
  · exact h.variant_eq
  · intro e he
    rcases List.mem_append.mp he with he | he
    · exact h.variant_eq e he
    · rw [List.mem_singleton.mp he]

theorem pathIndex_addPath (h : IndexOf ctx.pathIndex ctx.dotteds) (segments : List String) :
    IndexOf (ctx.addPath segments).pathIndex (ctx.addPath segments).dotteds := by
  have hknown := h.isSome_iff (".".intercalate segments)
  simp only [GenContext.addPath, dotteds] at hknown ⊢
  split_ifs with hif
  · exact h
  · have happ := h.append (fun hmem ↦ hif (hknown.mpr hmem))
    simpa [dotteds] using happ

/-- Adding a path puts its dotted name into the table. -/
theorem mem_dotteds_addPath (h : IndexOf ctx.pathIndex ctx.dotteds) (segments : List String) :
    ".".intercalate segments ∈ (ctx.addPath segments).dotteds := by
  have hknown := h.isSome_iff (".".intercalate segments)
  simp only [GenContext.addPath, dotteds] at hknown ⊢
  split_ifs with hif
  · exact hknown.mp hif
  · simp

theorem Tables.addPath (h : ctx.Tables tc) {segments : List String}
    (hs : ctx.Declares segments) : (ctx.addPath segments).Tables tc := by
  refine ⟨h.keyIndex, h.variant_eq, pathIndex_addPath h.pathIndex segments, ?_, ?_, h.defaults,
    h.duration, h.timestamp, h.id⟩
  · simp only [GenContext.addPath]
    split_ifs with hif
    · exact h.dotted_eq
    · intro e he
      rcases List.mem_append.mp he with he | he
      · exact h.dotted_eq e he
      · rw [List.mem_singleton.mp he]
  · simp only [GenContext.addPath]
    split_ifs with hif
    · exact h.paths
    · intro e he
      rcases List.mem_append.mp he with he | he
      · exact h.paths e he
      · rw [List.mem_singleton.mp he]
        exact hs

theorem Tables.record (h : ctx.Tables tc) (node : JsonNode) {path : List String}
    (hne : path ≠ []) (hs : ctx.Declares path) : (ctx.record node path).Tables tc := by
  refine ⟨h.keyIndex, h.variant_eq, h.pathIndex, h.dotted_eq, h.paths, ?_, ?_, h.timestamp, h.id⟩
  · intro d hd
    rcases List.mem_append.mp hd with hd | hd
    · exact h.defaults d hd
    · obtain ⟨value, -, rfl⟩ := Option.map_eq_some_iff.mp (Option.mem_toList.mp hd)
      exact ⟨hne, hs⟩
  · simp only [GenContext.record]
    split_ifs
    · exact hs
    · exact h.duration

/-- **Edits keep the tables**: they stay indexed and closed. -/
theorem Edits.tables (h : Edits tc ctx c) (hctx : ctx.Tables tc) : c.Tables tc := by
  induction h with
  | refl => exact hctx
  | addKey _ name ih => exact ih.addKey name
  | addPath _ hs ih => exact ih.addPath hs
  | record _ node hne hs ih => exact ih.record node hne hs
  | setDuration _ hs ih => exact { ih with duration := hs }
  | setTimestamp _ hs ih => exact { ih with timestamp := hs }
  | setId _ hs ih => exact { ih with id := hs }
  | setEventKey _ ih => exact { ih with }

/-! ## The passes are edits -/

theorem Tables.declares_addKey (h : ctx.Tables tc) {init : List String}
    (hinit : ctx.Declares init) (name : String) :
    (ctx.addKey tc name).Declares (init ++ [name]) := by
  intro s hs
  rw [names_addKey h.keyIndex]
  rcases List.mem_append.mp hs with hs | hs
  · exact .inl (hinit s hs)
  · exact .inr (List.mem_singleton.mp hs)

theorem declares_nil : ctx.Declares [] := fun _ h ↦ nomatch h

/-- A visit declares the path of the node it visits. -/
theorem visited_edits (h : ctx.Tables tc) {init : List String} (hinit : ctx.Declares init)
    (k : String) (node : JsonNode) :
    Edits tc ctx (visited tc (init ++ [k], node) ctx) ∧
      (visited tc (init ++ [k], node) ctx).Declares (init ++ [k]) := by
  have hdecl := h.declares_addKey hinit k
  have hlast : (init ++ [k]).getLast?.getD "" = k := by simp
  have hedits : Edits tc ctx (visited tc (init ++ [k], node) ctx) := by
    simp only [visited, hlast]
    exact ((Edits.refl.addKey k).addPath hdecl).record node (by simp) hdecl
  refine ⟨hedits, ?_⟩
  simp only [visited, hlast]
  exact hdecl

mutual

theorem nodes_edits (node : JsonNode) (init : List String) (k : String) (ctx : GenContext)
    (h : ctx.Tables tc) (hinit : ctx.Declares init) :
    Edits tc ctx (visitAll tc (node.nodes (init ++ [k])) ctx) ∧
      (visitAll tc (node.nodes (init ++ [k])) ctx).Declares (init ++ [k]) :=
  match node with
  | .object entries => by
      obtain ⟨hvisit, hdecl⟩ := visited_edits h hinit k (.object entries)
      have hentries := entryNodes_edits entries _ _ (hvisit.tables h) hdecl
      rw [JsonNode.nodes, visitAll_cons]
      exact ⟨hvisit.trans hentries, hentries.declares hdecl⟩
  | .null => visited_edits h hinit k _
  | .bool _ => visited_edits h hinit k _
  | .number _ => visited_edits h hinit k _
  | .str _ => visited_edits h hinit k _
  | .marker _ => visited_edits h hinit k _
termination_by structural node

theorem entryNodes_edits (entries : List (String × JsonNode)) (path : List String)
    (ctx : GenContext) (h : ctx.Tables tc) (hpath : ctx.Declares path) :
    Edits tc ctx (visitAll tc (JsonNode.entryNodes entries path) ctx) :=
  match entries with
  | [] => .refl
  | (k, v) :: entries => by
      obtain ⟨hv, -⟩ := nodes_edits v path k ctx h hpath
      rw [JsonNode.entryNodes, visitAll_append]
      exact hv.trans (entryNodes_edits entries path _ (hv.tables h) (hv.declares hpath))
termination_by structural entries

end

/-- A walk below declared keys succeeds, and is a sequence of edits. -/
theorem walk_edits {node : JsonNode} {init : List String} {k : String} (h : ctx.Tables tc)
    (hinit : ctx.Declares init) (hc : walk tc node (init ++ [k]) ctx = .ok c) :
    Edits tc ctx c ∧ c.Declares (init ++ [k]) := by
  rw [walk_eq tc node _ (by simp)] at hc
  cases hc
  exact nodes_edits node init k ctx h hinit

theorem walkBelow_edits {node : JsonNode} {root k : String} (h : ctx.Tables tc)
    (hroot : ctx.Declares [root]) (hc : walk tc node [root, k] ctx = .ok c) :
    Edits tc ctx c ∧ c.Declares [root, k] :=
  walk_edits h hroot hc

/-- A key below a top-level key, both declared. -/
theorem addKeys_declares (h : ctx.Tables tc) (k l : String) :
    ((ctx.addKey tc k).addKey tc l).Declares [k] ∧
      ((ctx.addKey tc k).addKey tc l).Declares [k, l] := by
  have hk := h.declares_addKey declares_nil k
  have hkl := (h.addKey k).declares_addKey hk l
  refine ⟨?_, hkl⟩
  intro s hs
  exact hkl s (List.mem_append_left _ hs)

theorem addDurationSubtree_edits (h : ctx.Tables tc) (leaf : String) :
    Edits tc ctx (ctx.addDurationSubtree tc leaf) := by
  obtain ⟨hroot, hleaf⟩ := addKeys_declares h ctx.builtin.duration leaf
  exact ((((Edits.refl.addKey _).addKey _).addPath hroot).addPath hleaf).setDuration hleaf

theorem walkAroundTotalMs_edits {durationSeg totalMs : String}
    {entries : List (String × JsonNode)} (h : ctx.Tables tc) (hd : ctx.Declares [durationSeg])
    (hc : walkAroundTotalMs tc durationSeg totalMs entries ctx = .ok c) : Edits tc ctx c := by
  induction entries generalizing ctx with
  | nil =>
      cases hc
      exact .refl
  | cons e entries ih =>
      obtain ⟨k, v⟩ := e
      rw [walkAroundTotalMs] at hc
      split_ifs at hc
      · have hdecl := h.declares_addKey hd totalMs
        have hedits := ((Edits.refl.addKey totalMs).addPath hdecl).setDuration hdecl
        exact hedits.trans (ih (hedits.tables h) (hedits.declares hd) hc)
      · obtain ⟨c₁, hwalk, hc⟩ := Except.bind_eq_ok_iff.mp hc
        obtain ⟨hedits, -⟩ := walkBelow_edits h hd hwalk
        exact hedits.trans (ih (hedits.tables h) (hedits.declares hd) hc)

theorem declareTop_edits (h : ctx.Tables tc) (name : String) :
    Edits tc ctx (ctx.declareTop tc name) ∧ (ctx.declareTop tc name).Declares [name] := by
  have hdecl := h.declares_addKey declares_nil name
  exact ⟨(Edits.refl.addKey name).addPath hdecl, hdecl⟩

theorem autoAddDuration_edits {entries : List (String × JsonNode)} (h : ctx.Tables tc)
    (hc : autoAddDuration tc (.object entries) ctx = .ok c) : Edits tc ctx c := by
  obtain ⟨htop, hdecl⟩ := declareTop_edits h ctx.builtin.duration
  have htab := htop.tables h
  cases autoAddDuration_cases hc with
  | absent => exact addDurationSubtree_edits h _
  | empty => exact htop.trans (addDurationSubtree_edits htab _)
  | marked => exact htop.trans (entryNodes_edits _ _ _ htab hdecl)
  | totalMs _ _ _ hwalk => exact htop.trans (walkAroundTotalMs_edits htab hdecl hwalk)
  | single => exact htop.trans (addDurationSubtree_edits htab _)

theorem addEventSubtree_edits (h : ctx.Tables tc) : Edits tc ctx (ctx.addEventSubtree tc) := by
  obtain ⟨hroot, hts⟩ := addKeys_declares h ctx.builtin.event ctx.builtin.eventTimestamp
  have hid := ((h.addKey _).addKey ctx.builtin.eventTimestamp).declares_addKey hroot
    ctx.builtin.eventId
  have hsub : Edits tc ((ctx.addKey tc ctx.builtin.event).addKey tc ctx.builtin.eventTimestamp)
      (((ctx.addKey tc ctx.builtin.event).addKey tc ctx.builtin.eventTimestamp).addKey tc
        ctx.builtin.eventId) := Edits.refl.addKey _
  exact (((((((Edits.refl.addKey _).addKey _).addKey _).addPath (hsub.declares hroot)).addPath
    (hsub.declares hts)).addPath hid).setTimestamp (hsub.declares hts)).setId hid |>.setEventKey

theorem resolveEventKey_edits {eventSeg name : String} {entries : List (String × JsonNode)}
    (h : ctx.Tables tc) (he : ctx.Declares [eventSeg])
    (hc : resolveEventKey tc eventSeg name entries ctx = .ok c) :
    Edits tc ctx c ∧ c.Declares [eventSeg, name] := by
  unfold resolveEventKey at hc
  split at hc
  · exact walkBelow_edits h he hc
  · cases hc
    have hdecl := h.declares_addKey he name
    exact ⟨(Edits.refl.addKey name).addPath hdecl, hdecl⟩

/-- The event is added with its subtree, or declared first. -/
theorem EventPass.edits {root : JsonNode} (h : ctx.Tables tc) (hc : EventPass tc root ctx c) :
    c = ctx.addEventSubtree tc ∨ Edits tc (ctx.declareTop tc ctx.builtin.event) c := by
  obtain ⟨htop, hdecl⟩ := declareTop_edits h ctx.builtin.event
  have htab := htop.tables h
  cases hc with
  | absent => exact .inl rfl
  | empty => exact .inr (addEventSubtree_edits htab)
  | declared _ h₁ h₂ =>
      obtain ⟨he₁, hts⟩ := resolveEventKey_edits htab hdecl h₁
      have hedits₁ := he₁.setTimestamp hts
      have hdecl₁ := he₁.declares hdecl
      obtain ⟨he₂, hid⟩ := resolveEventKey_edits (hedits₁.tables htab) hdecl₁ h₂
      have hedits₂ := (hedits₁.trans he₂).setId hid
      have hdecl₂ := he₂.declares hdecl₁
      exact .inr (hedits₂.trans (entryNodes_edits _ _ _ (hedits₂.tables htab) hdecl₂)).setEventKey

theorem autoAddEvent_edits {entries : List (String × JsonNode)} (h : ctx.Tables tc)
    (hc : autoAddEvent tc (.object entries) ctx = .ok c) : Edits tc ctx c := by
  rcases (autoAddEvent_cases hc).edits h with rfl | hedits
  · exact addEventSubtree_edits h
  · exact (declareTop_edits h _).1.trans hedits

/-- The event itself is a path of the table. -/
theorem event_mem_dotteds {entries : List (String × JsonNode)} (h : ctx.Tables tc)
    (hc : autoAddEvent tc (.object entries) ctx = .ok c) :
    ".".intercalate [ctx.builtin.event] ∈ c.dotteds := by
  rcases (autoAddEvent_cases hc).edits h with rfl | hedits
  · have htab := ((h.addKey ctx.builtin.event).addKey ctx.builtin.eventTimestamp).addKey
      ctx.builtin.eventId
    have hmem := mem_dotteds_addPath htab.pathIndex [ctx.builtin.event]
    exact ((paths_prefix_addPath _).trans (paths_prefix_addPath _)).map _ |>.subset hmem
  · have hmem := mem_dotteds_addPath (h.addKey ctx.builtin.event).pathIndex [ctx.builtin.event]
    exact (hedits.paths_mono.map _).subset hmem

/-- The contexts between the passes, when all of them succeed on an object. -/
theorem resolve_ok {entries : List (String × JsonNode)} {overrides : KeyOverrides}
    (h : resolve tc (.object entries) overrides = .ok ctx) :
    ∃ c, autoAddDuration tc (.object entries)
        (visitAll tc (JsonNode.entryNodes entries []) (new overrides)) = .ok c ∧
      autoAddEvent tc (.object entries) c = .ok ctx ∧ ctx.validate = none := by
  unfold resolve at h
  obtain ⟨c₁, hc₁, h₁⟩ := Except.bind_eq_ok_iff.mp h
  obtain ⟨c₂, hc₂, h₂⟩ := Except.bind_eq_ok_iff.mp h₁
  obtain ⟨c₃, hc₃, h₃⟩ := Except.bind_eq_ok_iff.mp h₂
  rw [walk_root, Except.ok.injEq] at hc₁
  rw [hc₁]
  split at h₃
  · cases h₃
  · rename_i hvalid
    cases h₃
    exact ⟨c₂, hc₂, hc₃, hvalid⟩

/-- The walk of the root, and what follows it, as edits. -/
theorem resolve_edits {entries : List (String × JsonNode)} {overrides : KeyOverrides}
    (h : resolve tc (.object entries) overrides = .ok ctx) :
    Edits tc (new overrides) (visitAll tc (JsonNode.entryNodes entries []) (new overrides)) ∧
      Edits tc (visitAll tc (JsonNode.entryNodes entries []) (new overrides)) ctx := by
  obtain ⟨c, hc, hctx, -⟩ := resolve_ok h
  have hnew : (new overrides).Tables tc := tables_new overrides
  have hwalk := entryNodes_edits entries [] _ hnew declares_nil
  have htab := hwalk.tables hnew
  have hdur := autoAddDuration_edits htab hc
  exact ⟨hwalk, hdur.trans (autoAddEvent_edits (hdur.tables htab) hctx)⟩

/-- **The tables of a resolved context are indexed and closed.** -/
theorem tables_resolve {entries : List (String × JsonNode)} {overrides : KeyOverrides}
    (h : resolve tc (.object entries) overrides = .ok ctx) : ctx.Tables tc := by
  obtain ⟨hwalk, hrest⟩ := resolve_edits h
  exact hrest.tables (hwalk.tables (tables_new overrides))

end GenContext

end WideLog.Macros
