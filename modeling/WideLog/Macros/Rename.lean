import WideLog.Lib.Words
import WideLog.Macros.Resolve

/-!
# Names are only names

The passes of the code generator compare names and put dots between them, and that is all
they do with them.  A schema whose keys have other names, under overrides that say so,
leads to the same tables with the other names in them, or to the same error.
-/

namespace WideLog.Macros

/-- Other names for keys.  A name is renamed word by word between its dots. -/
abbrev Renaming : Type := WordMap '.'

namespace Renaming

variable (σ : Renaming)

/-- The new name of a key. -/
def name (s : String) : String := .ofList (σ.apply s.toList)

theorem name_injective : Function.Injective σ.name := by
  intro s t h
  exact String.toList_injective (σ.apply_injective (String.ofList_injective h))

@[simp] theorem name_inj {s t : String} : σ.name s = σ.name t ↔ s = t := σ.name_injective.eq_iff

/-- The dotted name of a path is renamed as the path is. -/
theorem name_join {path : List String} (h : path ≠ []) :
    σ.name (".".intercalate path) = ".".intercalate (path.map σ.name) := by
  apply String.toList_injective
  have hpath : path.map String.toList ≠ [] := by simpa using h
  rw [name, String.toList_ofList, String.toList_intercalate, String.toList_intercalate,
    List.map_map]
  refine (σ.apply_intercalate hpath).trans (congrArg _ ?_)
  rw [List.map_map]
  exact List.map_congr_left fun s _ ↦ (String.toList_ofList).symm

end Renaming

variable (tc : Toolchain) (σ : Renaming)

/-! ## Schemas and tables under other names -/

mutual

/-- A schema under other names. -/
def JsonNode.rename : JsonNode → JsonNode
  | .object entries => .object (JsonNode.renameEntries entries)
  | .null => .null
  | .bool b => .bool b
  | .number n => .number n
  | .str s => .str s
  | .marker m => .marker m
termination_by structural node => node

def JsonNode.renameEntries : List (String × JsonNode) → List (String × JsonNode)
  | [] => []
  | (k, v) :: entries => (σ.name k, v.rename) :: JsonNode.renameEntries entries
termination_by structural entries => entries

end

/-- The built-in keys under other names. -/
def Builtins.rename (b : Builtins) : Builtins where
  log := σ.name b.log
  level := σ.name b.level
  message := σ.name b.message
  event := σ.name b.event
  eventId := σ.name b.eventId
  eventTimestamp := σ.name b.eventTimestamp
  duration := σ.name b.duration
  durationTotalMs := σ.name b.durationTotalMs

/-- A key under another name, with the variant of that name. -/
def KeyEntry.rename (e : KeyEntry) : KeyEntry :=
  ⟨σ.name e.jsonName, toPascalCase tc (σ.name e.jsonName)⟩

def PathEntry.rename (e : PathEntry) : PathEntry := ⟨σ.name e.dotted, e.segments.map σ.name⟩

def DefaultEntry.rename (d : DefaultEntry) : DefaultEntry := ⟨d.segments.map σ.name, d.value⟩

/-- An index of names under other names. -/
def renameIndex (index : List (String × ℕ)) : List (String × ℕ) :=
  index.map fun x ↦ (σ.name x.1, x.2)

namespace GenContext

/-- The tables under other names. -/
def rename (ctx : GenContext) : GenContext where
  keys := ctx.keys.map (KeyEntry.rename tc σ)
  keyIndex := renameIndex σ ctx.keyIndex
  paths := ctx.paths.map (PathEntry.rename σ)
  pathIndex := renameIndex σ ctx.pathIndex
  defaults := ctx.defaults.map (DefaultEntry.rename σ)
  durationSegments := ctx.durationSegments.map σ.name
  hasDurationMarker := ctx.hasDurationMarker
  timestampSegments := ctx.timestampSegments.map σ.name
  idSegments := ctx.idSegments.map σ.name
  hasEventKey := ctx.hasEventKey
  builtin := ctx.builtin.rename σ

end GenContext

/-! ## What does not depend on names -/

namespace JsonNode

theorem renameEntries_eq_map (entries : List (String × JsonNode)) :
    renameEntries σ entries = entries.map fun e ↦ (σ.name e.1, e.2.rename σ) := by
  induction entries with
  | nil => rfl
  | cons e entries ih => rw [renameEntries, ih, List.map_cons]

@[simp] theorem isDurationMarker_rename (node : JsonNode) :
    (node.rename σ).isDurationMarker = node.isDurationMarker := by
  cases node <;> rfl

@[simp] theorem defaultOf_rename (node : JsonNode) :
    GenContext.defaultOf (node.rename σ) = GenContext.defaultOf node := by
  cases node with
  | number n => cases n <;> rfl
  | _ => rfl

theorem isEmpty_renameEntries (entries : List (String × JsonNode)) :
    (renameEntries σ entries).isEmpty = entries.isEmpty := by
  rw [renameEntries_eq_map, List.isEmpty_map]

/-- The entry with a name is found under the new name. -/
theorem find?_renameEntries (entries : List (String × JsonNode)) (s : String) :
    (renameEntries σ entries).find? (·.1 = σ.name s) =
      (entries.find? (·.1 = s)).map fun e ↦ (σ.name e.1, e.2.rename σ) := by
  have hname : ((fun e : String × JsonNode ↦ decide (e.1 = σ.name s)) ∘
      fun e : String × JsonNode ↦ (σ.name e.1, e.2.rename σ)) = fun e ↦ decide (e.1 = s) :=
    funext fun e ↦ by simp
  rw [renameEntries_eq_map, List.find?_map, hname]

/-- Entries that are chosen by what does not change are the same ones. -/
theorem filter_renameEntries {p q : String × JsonNode → Bool}
    (h : ∀ e, q (σ.name e.1, e.2.rename σ) = p e) (entries : List (String × JsonNode)) :
    (renameEntries σ entries).filter q = renameEntries σ (entries.filter p) := by
  rw [renameEntries_eq_map, renameEntries_eq_map, List.filter_map]
  exact congrArg _ (List.filter_congr fun e _ ↦ h e)

theorem any_renameEntries (entries : List (String × JsonNode)) :
    (renameEntries σ entries).any (·.2.isDurationMarker) = entries.any (·.2.isDurationMarker) := by
  rw [renameEntries_eq_map, List.any_map]
  exact List.any_congr rfl fun e ↦ isDurationMarker_rename σ e.2

end JsonNode

@[simp] theorem lookup_renameIndex (index : List (String × ℕ)) (s : String) :
    (renameIndex σ index).lookup (σ.name s) = index.lookup s := by
  induction index with
  | nil => rfl
  | cons x index ih =>
      rw [renameIndex, List.map_cons, List.lookup_cons, List.lookup_cons]
      have hbeq : (σ.name s == σ.name x.1) = (s == x.1) := by
        rw [Bool.eq_iff_iff, beq_iff_eq, beq_iff_eq, σ.name_inj]
      rw [hbeq]
      cases s == x.1 with
      | true => rfl
      | false => exact ih

/-! ## The passes -/

/-- A computation after another one, under other names. -/
theorem bind_rename {α α' β β' : Type} {g : α → α'} {h : β → β'} {x : Except Failure α}
    {x' : Except Failure α'} {f : α → Except Failure β} {f' : α' → Except Failure β'}
    (hx : x' = x.map g) (hf : ∀ a, f' (g a) = (f a).map h) : (x' >>= f') = (x >>= f).map h := by
  rw [hx]
  cases x with
  | error => rfl
  | ok a => exact hf a

namespace GenContext

variable (ctx : GenContext)

theorem rename_addKey (s : String) :
    (ctx.rename tc σ).addKey tc (σ.name s) = (ctx.addKey tc s).rename tc σ := by
  simp only [addKey, rename, lookup_renameIndex]
  split_ifs with hknown
  · rfl
  · simp [renameIndex, KeyEntry.rename]

theorem rename_addPath (path : List String) (h : path ≠ []) :
    (ctx.rename tc σ).addPath (path.map σ.name) = (ctx.addPath path).rename tc σ := by
  simp only [addPath, rename, ← σ.name_join h, lookup_renameIndex]
  split_ifs with hknown
  · rfl
  · simp [renameIndex, PathEntry.rename]

theorem rename_addPath_singleton (s : String) :
    (ctx.rename tc σ).addPath [σ.name s] = (ctx.addPath [s]).rename tc σ :=
  rename_addPath tc σ ctx [s] (List.cons_ne_nil s [])

theorem rename_addPath_pair (s t : String) :
    (ctx.rename tc σ).addPath [σ.name s, σ.name t] = (ctx.addPath [s, t]).rename tc σ :=
  rename_addPath tc σ ctx [s, t] (List.cons_ne_nil s [t])

theorem rename_record (node : JsonNode) (path : List String) :
    (ctx.rename tc σ).record (node.rename σ) (path.map σ.name) =
      (ctx.record node path).rename tc σ := by
  simp only [record, rename, JsonNode.defaultOf_rename, JsonNode.isDurationMarker_rename]
  congr 1
  · cases defaultOf node <;> simp [DefaultEntry.rename]
  · split_ifs <;> rfl

theorem rename_visit (node : JsonNode) (path : List String) :
    visit tc (node.rename σ) (path.map σ.name) (ctx.rename tc σ) =
      (visit tc node path ctx).map (rename tc σ) := by
  rcases List.eq_nil_or_concat' path with rfl | ⟨segs, s, rfl⟩
  · rfl
  · have hne : segs ++ [s] ≠ [] := by simp
    simp only [visit, List.map_append, List.map_cons, List.map_nil, List.getLast?_concat]
    rw [rename_addKey, ← List.map_singleton, ← List.map_append, rename_addPath _ _ _ _ hne,
      rename_record]
    rfl

mutual

theorem rename_walk (node : JsonNode) (path : List String) (ctx : GenContext) :
    walk tc (node.rename σ) (path.map σ.name) (ctx.rename tc σ) =
      (walk tc node path ctx).map (rename tc σ) :=
  match node with
  | .object entries => by
      have hvisit := rename_visit tc σ ctx (.object entries) path
      rw [JsonNode.rename] at hvisit ⊢
      unfold walk
      rw [List.isEmpty_map]
      split_ifs
      · exact rename_walkEntries entries path ctx
      · exact bind_rename hvisit (rename_walkEntries entries path)
  | .null => rename_visit tc σ ctx .null path
  | .bool b => rename_visit tc σ ctx (.bool b) path
  | .number n => rename_visit tc σ ctx (.number n) path
  | .str s => rename_visit tc σ ctx (.str s) path
  | .marker m => rename_visit tc σ ctx (.marker m) path
termination_by structural node

theorem rename_walkEntries (entries : List (String × JsonNode)) (path : List String)
    (ctx : GenContext) :
    walkEntries tc (JsonNode.renameEntries σ entries) (path.map σ.name) (ctx.rename tc σ) =
      (walkEntries tc entries path ctx).map (rename tc σ) :=
  match entries with
  | [] => rfl
  | (k, v) :: entries => by
      have hwalk := rename_walk v (path ++ [k]) ctx
      rw [List.map_append, List.map_singleton] at hwalk
      rw [JsonNode.renameEntries, walkEntries, walkEntries]
      exact bind_rename hwalk (rename_walkEntries entries path)
termination_by structural entries

end

theorem rename_addDurationSubtree (leaf : String) :
    (ctx.rename tc σ).addDurationSubtree tc (σ.name leaf) =
      (ctx.addDurationSubtree tc leaf).rename tc σ := by
  have hduration : (ctx.rename tc σ).builtin.duration = σ.name ctx.builtin.duration := rfl
  unfold addDurationSubtree
  simp only [hduration, rename_addKey, rename_addPath_singleton, rename_addPath_pair]
  rfl

theorem rename_walkAroundTotalMs (durationSeg totalMs : String)
    (entries : List (String × JsonNode)) (ctx : GenContext) :
    walkAroundTotalMs tc (σ.name durationSeg) (σ.name totalMs) (JsonNode.renameEntries σ entries)
        (ctx.rename tc σ) =
      (walkAroundTotalMs tc durationSeg totalMs entries ctx).map (rename tc σ) := by
  induction entries generalizing ctx with
  | nil => rfl
  | cons e entries ih =>
      obtain ⟨k, v⟩ := e
      rw [JsonNode.renameEntries, walkAroundTotalMs, walkAroundTotalMs]
      simp only [σ.name_inj]
      split_ifs with hk
      · rw [rename_addKey, rename_addPath_pair]
        exact ih { (ctx.addKey tc totalMs).addPath [durationSeg, totalMs] with
          hasDurationMarker := true, durationSegments := [durationSeg, totalMs] }
      · exact bind_rename (rename_walk tc σ v [durationSeg, k] ctx) ih

theorem rename_resolveDurationSubtree (node : JsonNode) :
    resolveDurationSubtree tc (node.rename σ) (ctx.rename tc σ) =
      (resolveDurationSubtree tc node ctx).map (rename tc σ) := by
  have hduration : (ctx.rename tc σ).builtin.duration = σ.name ctx.builtin.duration := rfl
  have htotal : (ctx.rename tc σ).builtin.durationTotalMs =
      σ.name ctx.builtin.durationTotalMs := rfl
  have hmarker (ctx : GenContext) :
      (ctx.rename tc σ).hasDurationMarker = ctx.hasDurationMarker := rfl
  cases node with
  | object entries =>
      rw [JsonNode.rename]
      unfold resolveDurationSubtree
      simp only [hduration, htotal, rename_addKey, rename_addPath_singleton, hmarker,
        JsonNode.isEmpty_renameEntries, JsonNode.any_renameEntries, JsonNode.find?_renameEntries,
        Option.isSome_map]
      split_ifs
      · exact congrArg _ (rename_addDurationSubtree ..)
      · exact rename_walkEntries tc σ entries [_] _
      · exact rename_walkEntries tc σ entries [_] _
      · exact rename_walkAroundTotalMs ..
      · have hleaves := JsonNode.filter_renameEntries σ
          (p := (!·.2.isDurationMarker)) (q := (!·.2.isDurationMarker))
          (fun e ↦ by rw [JsonNode.isDurationMarker_rename]) entries
        rw [hleaves]
        generalize entries.filter (!·.2.isDurationMarker) = leaves
        rcases leaves with - | ⟨⟨leaf, v⟩, - | ⟨e, es⟩⟩
        · rfl
        · have hothers := JsonNode.filter_renameEntries σ (p := fun e ↦ decide (e.1 ≠ leaf))
            (q := fun e ↦ decide (e.1 ≠ σ.name leaf)) (fun e ↦ by simp) entries
          show walkEntries tc ((JsonNode.renameEntries σ entries).filter _) _ _ = _
          rw [hothers, rename_addDurationSubtree]
          exact rename_walkEntries tc σ _ [_] _
        · rfl
  | _ => exact congrArg _ (rename_addDurationSubtree tc σ ctx _)

theorem rename_autoAddDuration (root : JsonNode) :
    autoAddDuration tc (root.rename σ) (ctx.rename tc σ) =
      (autoAddDuration tc root ctx).map (rename tc σ) := by
  have hduration : (ctx.rename tc σ).builtin.duration = σ.name ctx.builtin.duration := rfl
  cases root with
  | object entries =>
      rw [JsonNode.rename]
      simp only [autoAddDuration, hduration, JsonNode.find?_renameEntries]
      cases entries.find? (·.1 = ctx.builtin.duration) with
      | none => exact congrArg _ (rename_addDurationSubtree ..)
      | some e => exact rename_resolveDurationSubtree ..
  | _ => rfl

theorem rename_addEventSubtree :
    (ctx.rename tc σ).addEventSubtree tc = (ctx.addEventSubtree tc).rename tc σ := by
  have hevent : (ctx.rename tc σ).builtin.event = σ.name ctx.builtin.event := rfl
  have htimestamp : (ctx.rename tc σ).builtin.eventTimestamp =
      σ.name ctx.builtin.eventTimestamp := rfl
  have hid : (ctx.rename tc σ).builtin.eventId = σ.name ctx.builtin.eventId := rfl
  unfold addEventSubtree
  simp only [hevent, htimestamp, hid, rename_addKey, rename_addPath_singleton, rename_addPath_pair]
  rfl

theorem rename_resolveEventKey (eventSeg s : String) (entries : List (String × JsonNode))
    (ctx : GenContext) :
    resolveEventKey tc (σ.name eventSeg) (σ.name s) (JsonNode.renameEntries σ entries)
        (ctx.rename tc σ) =
      (resolveEventKey tc eventSeg s entries ctx).map (rename tc σ) := by
  unfold resolveEventKey
  rw [JsonNode.find?_renameEntries]
  cases entries.find? (·.1 = s) with
  | none =>
      rw [rename_addKey, rename_addPath_pair]
      rfl
  | some e => exact rename_walk tc σ e.2 [eventSeg, s] ctx

theorem rename_resolveEventSubtree (node : JsonNode) :
    resolveEventSubtree tc (node.rename σ) (ctx.rename tc σ) =
      (resolveEventSubtree tc node ctx).map (rename tc σ) := by
  have hevent : (ctx.rename tc σ).builtin.event = σ.name ctx.builtin.event := rfl
  have htimestamp : (ctx.rename tc σ).builtin.eventTimestamp =
      σ.name ctx.builtin.eventTimestamp := rfl
  have hid : (ctx.rename tc σ).builtin.eventId = σ.name ctx.builtin.eventId := rfl
  cases node with
  | object entries =>
      have hothers := JsonNode.filter_renameEntries σ
        (p := fun e ↦ decide (e.1 ≠ ctx.builtin.eventTimestamp ∧ e.1 ≠ ctx.builtin.eventId))
        (q := fun e ↦ decide (e.1 ≠ σ.name ctx.builtin.eventTimestamp ∧
          e.1 ≠ σ.name ctx.builtin.eventId)) (fun e ↦ by simp) entries
      rw [JsonNode.rename]
      unfold resolveEventSubtree
      simp only [hevent, htimestamp, hid, rename_addKey, rename_addPath_singleton,
        JsonNode.isEmpty_renameEntries, hothers]
      split_ifs
      · exact congrArg _ (rename_addEventSubtree ..)
      · refine bind_rename (rename_resolveEventKey ..) fun c ↦ ?_
        refine bind_rename (rename_resolveEventKey tc σ _ _ entries
          { c with timestampSegments := [_, _] }) fun c ↦ ?_
        refine bind_rename (rename_walkEntries tc σ _ [_]
          { c with idSegments := [_, _] }) fun c ↦ ?_
        rfl
  | _ => rfl

theorem rename_autoAddEvent (root : JsonNode) :
    autoAddEvent tc (root.rename σ) (ctx.rename tc σ) =
      (autoAddEvent tc root ctx).map (rename tc σ) := by
  have hevent : (ctx.rename tc σ).builtin.event = σ.name ctx.builtin.event := rfl
  cases root with
  | object entries =>
      rw [JsonNode.rename]
      simp only [autoAddEvent, hevent, JsonNode.find?_renameEntries]
      cases entries.find? (·.1 = ctx.builtin.event) with
      | none => exact congrArg _ (rename_addEventSubtree ..)
      | some e => exact rename_resolveEventSubtree ..
  | _ => rfl

/-- What is wrong with a result does not depend on the names. -/
theorem validate_rename : (ctx.rename tc σ).validate = ctx.validate := by
  have hdefaults : (ctx.rename tc σ).defaults.any (·.segments = (ctx.rename tc σ).idSegments) =
      ctx.defaults.any (·.segments = ctx.idSegments) := by
    simp only [rename, List.any_map]
    refine List.any_congr rfl fun d ↦ ?_
    simp [DefaultEntry.rename, σ.name_injective.list_map.eq_iff]
  unfold validate
  rw [hdefaults]
  simp only [rename, List.isEmpty_map]

/-- **Names are only names to the passes.**  Whatever schema they are given, accepted or
not: when its keys have other names and the overrides say so, the passes make the same
tables with the other names in them, or end in the same error. -/
theorem resolve_rename {overrides overrides' : KeyOverrides}
    (h : Builtins.of overrides' = (Builtins.of overrides).rename σ) (root : JsonNode) :
    resolve tc (root.rename σ) overrides' = (resolve tc root overrides).map (rename tc σ) := by
  have hnew : new overrides' = (new overrides).rename tc σ := by
    simp only [new, h]
    rfl
  unfold resolve
  rw [hnew]
  refine bind_rename (rename_walk tc σ root [] _) fun c ↦ ?_
  refine bind_rename (rename_autoAddDuration tc σ c root) fun c ↦ ?_
  refine bind_rename (rename_autoAddEvent tc σ c root) fun c ↦ ?_
  rw [validate_rename]
  cases c.validate <;> rfl

end GenContext

end WideLog.Macros
