import WideLog.Lib.Except
import WideLog.Macros.Codegen

/-!
# What a pass does

Walking a schema visits its nodes one by one, and never fails below the root.  The
passes for the duration and for the event depend on what the schema declares under
the key of each; `DurationPass` and `EventPass` list the cases in which they succeed.
-/

namespace WideLog.Macros

open JsonNode

namespace GenContext

variable (tc : Toolchain)

/-! ## Walks visit nodes -/

/-- A visit of a node below the root. -/
def visited (x : List String × JsonNode) (ctx : GenContext) : GenContext :=
  ((ctx.addKey tc (x.1.getLast?.getD "")).addPath x.1).record x.2 x.1

/-- The visits of several nodes, in order. -/
def visitAll (xs : List (List String × JsonNode)) (ctx : GenContext) : GenContext :=
  xs.foldl (fun ctx x ↦ visited tc x ctx) ctx

@[simp] theorem visitAll_nil (ctx : GenContext) : visitAll tc [] ctx = ctx := rfl

@[simp] theorem visitAll_cons (x : List String × JsonNode) (xs : List (List String × JsonNode))
    (ctx : GenContext) : visitAll tc (x :: xs) ctx = visitAll tc xs (visited tc x ctx) := rfl

theorem visitAll_append (xs ys : List (List String × JsonNode)) (ctx : GenContext) :
    visitAll tc (xs ++ ys) ctx = visitAll tc ys (visitAll tc xs ctx) := List.foldl_append

theorem visit_eq (node : JsonNode) {path : List String} (h : path ≠ []) (ctx : GenContext) :
    visit tc node path ctx = .ok (visited tc (path, node) ctx) := by
  obtain ⟨init, last, rfl⟩ := (List.eq_nil_or_concat' path).resolve_left h
  simp only [visit, List.getLast?_concat, visited, Option.getD_some]

mutual

/-- A walk below the root visits the node and the nodes below it, and succeeds. -/
theorem walk_eq (node : JsonNode) (path : List String) (h : path ≠ []) (ctx : GenContext) :
    walk tc node path ctx = .ok (visitAll tc (node.nodes path) ctx) :=
  match node with
  | .object entries => by
      have hempty : path.isEmpty = false := by simpa using h
      rw [walk, hempty, visit_eq tc _ h]
      exact walkEntries_eq entries path _
  | .null => visit_eq tc _ h ctx
  | .bool _ => visit_eq tc _ h ctx
  | .number _ => visit_eq tc _ h ctx
  | .str _ => visit_eq tc _ h ctx
  | .marker _ => visit_eq tc _ h ctx
termination_by structural node

theorem walkEntries_eq (entries : List (String × JsonNode)) (path : List String)
    (ctx : GenContext) :
    walkEntries tc entries path ctx = .ok (visitAll tc (entryNodes entries path) ctx) :=
  match entries with
  | [] => rfl
  | (k, v) :: entries => by
      rw [walkEntries, walk_eq v (path ++ [k]) (by simp) ctx, entryNodes,
        visitAll_append]
      exact walkEntries_eq entries path _
termination_by structural entries

end

/-- The walk of the root visits the nodes below it. -/
theorem walk_root (entries : List (String × JsonNode)) (ctx : GenContext) :
    walk tc (.object entries) [] ctx =
      .ok (visitAll tc (entryNodes entries []) ctx) := by
  rw [walk]
  exact walkEntries_eq tc entries [] ctx

/-! ## The duration pass -/

/-- A top-level key that the schema declares. -/
def declareTop (name : String) (ctx : GenContext) : GenContext :=
  (ctx.addKey tc name).addPath [name]

/-- The duration pass, by what the schema declares under the duration key. -/
inductive DurationPass (root : JsonNode) (ctx : GenContext) : GenContext → Prop
  | absent (hnone : ∀ es, root.lookup [ctx.builtin.duration] ≠ some (.object es)) :
      DurationPass root ctx (ctx.addDurationSubtree tc ctx.builtin.durationTotalMs)
  | empty (hes : root.lookup [ctx.builtin.duration] = some (.object [])) :
      DurationPass root ctx ((ctx.declareTop tc ctx.builtin.duration).addDurationSubtree tc
        ctx.builtin.durationTotalMs)
  | marked {es : List (String × JsonNode)} (hne : es ≠ [])
      (hes : root.lookup [ctx.builtin.duration] = some (.object es))
      (hmarker : ctx.hasDurationMarker ∨ ∃ e ∈ es, e.2.isDurationMarker) :
      DurationPass root ctx (visitAll tc (entryNodes es [ctx.builtin.duration])
        (ctx.declareTop tc ctx.builtin.duration))
  | totalMs {es : List (String × JsonNode)} {c : GenContext}
      (hes : root.lookup [ctx.builtin.duration] = some (.object es))
      (hno : ctx.hasDurationMarker = false)
      (hmem : ctx.builtin.durationTotalMs ∈ es.map Prod.fst)
      (h : walkAroundTotalMs tc ctx.builtin.duration ctx.builtin.durationTotalMs es
        (ctx.declareTop tc ctx.builtin.duration) = .ok c) : DurationPass root ctx c
  | single {leaf : String} {v : JsonNode}
      (hes : root.lookup [ctx.builtin.duration] = some (.object [(leaf, v)]))
      (hno : ctx.hasDurationMarker = false) (hleaf : leaf ≠ ctx.builtin.durationTotalMs) :
      DurationPass root ctx
        ((ctx.declareTop tc ctx.builtin.duration).addDurationSubtree tc leaf)

variable {tc} {ctx c : GenContext}

theorem resolveDurationSubtree_cases {root : JsonNode} {es : List (String × JsonNode)}
    (hes : root.lookup [ctx.builtin.duration] = some (.object es))
    (h : resolveDurationSubtree tc (.object es) ctx = .ok c) : DurationPass tc root ctx c := by
  simp only [resolveDurationSubtree] at h
  split_ifs at h with hempty hmarker hany hfind
  · cases h
    rw [List.isEmpty_iff.mp hempty] at hes
    exact .empty hes
  · rw [walkEntries_eq] at h
    cases h
    exact .marked (by simpa using hempty) hes (.inl hmarker)
  · rw [walkEntries_eq] at h
    cases h
    exact .marked (by simpa using hempty) hes (.inr (List.any_eq_true.mp hany))
  · have hno : ctx.hasDurationMarker = false := Bool.eq_false_iff.mpr hmarker
    obtain ⟨e, he, hk⟩ := List.find?_isSome.mp hfind
    exact .totalMs hes hno (List.mem_map.mpr ⟨e, he, by simpa using hk⟩) h
  · have hno : ctx.hasDurationMarker = false := Bool.eq_false_iff.mpr hmarker
    have hmarkers : es.filter (!·.2.isDurationMarker) = es := by
      rw [List.filter_eq_self]
      intro e he
      by_contra hm
      exact hany (List.any_eq_true.mpr ⟨e, he, by simpa using hm⟩)
    rw [hmarkers] at h
    split at h
    · rename_i leaf v
      have hrest : [(leaf, v)].filter (·.1 ≠ leaf) = [] := by simp
      rw [hrest] at h
      cases h
      refine .single hes hno ?_
      rintro rfl
      exact hfind (List.find?_isSome.mpr ⟨_, List.mem_singleton_self _, by simp⟩)
    · cases h

/-- **The duration pass succeeds in these cases only.** -/
theorem autoAddDuration_cases {entries : List (String × JsonNode)}
    (h : autoAddDuration tc (.object entries) ctx = .ok c) :
    DurationPass tc (.object entries) ctx c := by
  have hlookup := lookup_singleton entries ctx.builtin.duration
  simp only [autoAddDuration] at h
  split at h
  · rename_i hfind
    rw [hfind] at hlookup
    cases h
    apply DurationPass.absent
    intro es hes
    cases hlookup.symm.trans hes
  · rename_i k v hfind
    rw [hfind] at hlookup
    cases v with
    | object es => exact resolveDurationSubtree_cases hlookup h
    | _ =>
        cases h
        apply DurationPass.absent
        intro es hes
        cases hlookup.symm.trans hes

/-! ## The event pass -/

variable (tc) in
/-- The event pass, by what the schema declares under the event key. -/
inductive EventPass (root : JsonNode) (ctx : GenContext) : GenContext → Prop
  | absent (hnone : root.lookup [ctx.builtin.event] = none) :
      EventPass root ctx (ctx.addEventSubtree tc)
  | empty (hes : root.lookup [ctx.builtin.event] = some (.object [])) :
      EventPass root ctx ((ctx.declareTop tc ctx.builtin.event).addEventSubtree tc)
  | declared {es : List (String × JsonNode)} {c₁ c₂ : GenContext}
      (hes : root.lookup [ctx.builtin.event] = some (.object es))
      (hts : resolveEventKey tc ctx.builtin.event ctx.builtin.eventTimestamp es
        (ctx.declareTop tc ctx.builtin.event) = .ok c₁)
      (hid : resolveEventKey tc ctx.builtin.event ctx.builtin.eventId es
        { c₁ with timestampSegments := [ctx.builtin.event, ctx.builtin.eventTimestamp] } =
          .ok c₂) :
      EventPass root ctx
        { visitAll tc
            (entryNodes (es.filter fun e ↦
              e.1 ≠ ctx.builtin.eventTimestamp ∧ e.1 ≠ ctx.builtin.eventId) [ctx.builtin.event])
            { c₂ with idSegments := [ctx.builtin.event, ctx.builtin.eventId] } with
          hasEventKey := true }

/-- **The event pass succeeds in these cases only.** -/
theorem autoAddEvent_cases {entries : List (String × JsonNode)}
    (h : autoAddEvent tc (.object entries) ctx = .ok c) : EventPass tc (.object entries) ctx c := by
  have hlookup := lookup_singleton entries ctx.builtin.event
  simp only [autoAddEvent] at h
  split at h
  · rename_i hfind
    rw [hfind] at hlookup
    cases h
    exact .absent hlookup
  · rename_i k v hfind
    rw [hfind] at hlookup
    cases v with
    | object es =>
        simp only [resolveEventSubtree] at h
        split_ifs at h with hempty
        · cases h
          rw [List.isEmpty_iff.mp hempty] at hlookup
          exact .empty hlookup
        · obtain ⟨c₁, h₁, h⟩ := Except.bind_eq_ok_iff.mp h
          obtain ⟨c₂, h₂, h⟩ := Except.bind_eq_ok_iff.mp h
          obtain ⟨c₃, h₃, h⟩ := Except.bind_eq_ok_iff.mp h
          rw [walkEntries_eq, Except.ok.injEq] at h₃
          cases h
          subst h₃
          exact .declared hlookup h₁ h₂
    | _ => cases h

end GenContext

end WideLog.Macros
