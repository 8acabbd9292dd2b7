import WideLog.Macros.KeyTable
import WideLog.Macros.Leaves
import WideLog.Macros.Resolve

/-!
# How the macro ends

`wide_log!` ends in code, in an error that is reported at the call, or in a panic.
The passes report everything they reject.  What panics is `emit`, on a key name whose
variant is no identifier and on a float that no literal denotes.
-/

namespace WideLog.Macros

open JsonNode

variable (tc : Toolchain)

namespace GenContext

/-- The strings `emit` makes identifiers of. -/
def idents (ctx : GenContext) : List String :=
  ctx.keys.map KeyEntry.variant ++
    (ctx.durationSegments ++ ctx.timestampSegments ++ ctx.idSegments ++
      ctx.paths.flatMap PathEntry.segments ++
      ctx.defaults.flatMap DefaultEntry.segments).map (toPascalCase tc)

/-- `emit`, as far as it depends on the context: `format_ident!` panics on a string
that is no identifier, and `quote!` on a float that is not finite. -/
def emit (ctx : GenContext) : Except Failure GenContext :=
  if (ctx.idents tc).all tc.isIdent ∧ ctx.defaults.all (·.value.quotable) then .ok ctx
  else .error .panic

end GenContext

/-- `wide_log!`, from its input to the context of the code it returns. -/
def expand (input : List TokenTree) : Except Failure GenContext :=
  match parseWideLogInput tc input with
  | .error message => .error (.error message)
  | .ok (overrides, root) => do (← GenContext.resolve tc root overrides).emit tc

/-- The passes accept a schema: without markers, the duration object leaves no choice of
its leaf; the event is an object; and its id has no default. -/
structure Builtins.Resolves (b : Builtins) (root : JsonNode) : Prop where
  duration : root.hasMarker = false →
    b.durationTotalMs ∈ (root.entriesAt [b.duration]).map Prod.fst ∨
      (root.entriesAt [b.duration]).length ≤ 1
  event : ∀ n, root.lookup [b.event] = some n → ∃ es, n = .object es
  id : ∀ d ∈ root.leaves, d.segments ≠ [b.event, b.eventId]

namespace GenContext

variable {tc} {entries : List (String × JsonNode)} {ctx c : GenContext}

/-! ## The duration -/

theorem walkAroundTotalMs_ok (durationSeg totalMs : String) (es : List (String × JsonNode))
    (ctx : GenContext) : ∃ c, walkAroundTotalMs tc durationSeg totalMs es ctx = .ok c := by
  induction es generalizing ctx with
  | nil => exact ⟨ctx, rfl⟩
  | cons e es ih =>
      obtain ⟨k, v⟩ := e
      rw [walkAroundTotalMs]
      split_ifs
      · exact ih _
      · rw [walk_eq tc v _ (by simp)]
        exact ih _

/-- When a duration object leaves no choice of the leaf. -/
def LeafDecided (ctx : GenContext) (es : List (String × JsonNode)) : Prop :=
  ctx.hasDurationMarker = false →
    ctx.builtin.durationTotalMs ∈ es.map Prod.fst ∨ es.length ≤ 1

theorem resolveDurationSubtree_total {es : List (String × JsonNode)}
    (hmarkers : (∃ e ∈ es, e.2.isDurationMarker) → ctx.hasDurationMarker) :
    (ctx.LeafDecided es ∧ ∃ c, resolveDurationSubtree tc (.object es) ctx = .ok c) ∨
      (¬ ctx.LeafDecided es ∧
        ∃ message, resolveDurationSubtree tc (.object es) ctx = .error (.error message)) := by
  unfold LeafDecided
  simp only [resolveDurationSubtree]
  split_ifs with hempty hmarker hany hfind
  · rw [List.isEmpty_iff.mp hempty]
    exact .inl ⟨fun _ ↦ .inr (Nat.zero_le 1), _, rfl⟩
  · rw [walkEntries_eq]
    exact .inl ⟨fun hno ↦ absurd hmarker (Bool.eq_false_iff.mp hno), _, rfl⟩
  · rw [walkEntries_eq]
    exact absurd (hmarkers (List.any_eq_true.mp hany)) hmarker
  · obtain ⟨e, he, hk⟩ := List.find?_isSome.mp hfind
    have hmem := List.mem_map_of_mem (f := Prod.fst) he
    rw [show e.1 = _ from by simpa using hk] at hmem
    exact .inl ⟨fun _ ↦ .inl hmem, walkAroundTotalMs_ok _ _ _ _⟩
  · have hno : ctx.hasDurationMarker = false := Bool.eq_false_iff.mpr hmarker
    have hkey : ctx.builtin.durationTotalMs ∉ es.map Prod.fst := by
      intro hmem
      obtain ⟨e, he, hk⟩ := List.mem_map.mp hmem
      exact hfind (List.find?_isSome.mpr ⟨e, he, by simpa using hk⟩)
    have hfilter : es.filter (!·.2.isDurationMarker) = es := by
      rw [List.filter_eq_self]
      intro e he
      by_contra hm
      exact hmarker (hmarkers ⟨e, he, by simpa using hm⟩)
    rw [hfilter]
    split
    · rw [walkEntries_eq]
      exact .inl ⟨fun _ ↦ .inr (Nat.le_refl 1), _, rfl⟩
    · next hnot =>
        refine .inr ⟨?_, _, rfl⟩
        intro hdecided
        rcases hdecided hno with hmem | hlength
        · exact hkey hmem
        have hpos : 0 < es.length :=
          List.length_pos_iff.mpr fun hnil ↦ hempty (List.isEmpty_iff.mpr hnil)
        obtain ⟨⟨leaf, v⟩, hes⟩ := List.length_eq_one_iff.mp (Nat.le_antisymm hlength hpos)
        exact hnot leaf v hes

theorem autoAddDuration_total (tc : Toolchain) (hd : (object entries).DistinctKeys)
    (hhas : ctx.hasDurationMarker = (object entries).hasMarker) :
    (ctx.LeafDecided ((object entries).entriesAt [ctx.builtin.duration]) ∧
        ∃ c, autoAddDuration tc (object entries) ctx = .ok c) ∨
      (¬ ctx.LeafDecided ((object entries).entriesAt [ctx.builtin.duration]) ∧
        ∃ message, autoAddDuration tc (object entries) ctx = .error (.error message)) := by
  have hlookup := lookup_singleton entries ctx.builtin.duration
  have hscalar : (∀ es, (object entries).lookup [ctx.builtin.duration] ≠ some (.object es)) →
      ctx.LeafDecided ((object entries).entriesAt [ctx.builtin.duration]) := by
    intro hno _
    rw [entriesAt_eq_nil hno]
    exact .inr (Nat.zero_le 1)
  simp only [autoAddDuration]
  split
  · next hfind =>
      rw [hfind] at hlookup
      refine .inl ⟨hscalar fun es hes ↦ ?_, _, rfl⟩
      cases hlookup.symm.trans hes
  · next k v hfind =>
      rw [hfind] at hlookup
      cases v with
      | object es =>
          rw [entriesAt_of_lookup hlookup]
          exact resolveDurationSubtree_total (hasDurationMarker_of_entry hd hhas hlookup)
      | _ =>
          refine .inl ⟨hscalar fun es hes ↦ ?_, _, rfl⟩
          cases hlookup.symm.trans hes

/-! ## The event -/

theorem resolveEventKey_ok (eventSeg name : String) (es : List (String × JsonNode))
    (ctx : GenContext) : ∃ c, resolveEventKey tc eventSeg name es ctx = .ok c := by
  unfold resolveEventKey
  split
  · rw [walk_eq tc _ _ (by simp)]
    exact ⟨_, rfl⟩
  · exact ⟨_, rfl⟩

theorem autoAddEvent_total (tc : Toolchain) (entries : List (String × JsonNode))
    (ctx : GenContext) :
    ((∀ n, (object entries).lookup [ctx.builtin.event] = some n → ∃ es, n = .object es) ∧
        ∃ c, autoAddEvent tc (object entries) ctx = .ok c) ∨
      ((¬ ∀ n, (object entries).lookup [ctx.builtin.event] = some n → ∃ es, n = .object es) ∧
        ∃ message, autoAddEvent tc (object entries) ctx = .error (.error message)) := by
  have hlookup := lookup_singleton entries ctx.builtin.event
  simp only [autoAddEvent]
  split
  · next hfind =>
      rw [hfind] at hlookup
      refine .inl ⟨?_, _, rfl⟩
      intro n hn
      cases hlookup.symm.trans hn
  · next k v hfind =>
      rw [hfind] at hlookup
      cases v with
      | object es =>
          refine .inl ⟨?_, ?_⟩
          · intro n hn
            cases hlookup.symm.trans hn
            exact ⟨es, rfl⟩
          · simp only [resolveEventSubtree]
            split_ifs
            · exact ⟨_, rfl⟩
            · obtain ⟨c₁, h₁⟩ := resolveEventKey_ok ctx.builtin.event ctx.builtin.eventTimestamp es
                (ctx.declareTop tc ctx.builtin.event)
              obtain ⟨c₂, h₂⟩ := resolveEventKey_ok ctx.builtin.event ctx.builtin.eventId es
                { c₁ with timestampSegments := [ctx.builtin.event, ctx.builtin.eventTimestamp] }
              exact ⟨_, Except.bind_eq_ok_iff.mpr ⟨c₁, h₁, Except.bind_eq_ok_iff.mpr ⟨c₂, h₂,
                Except.bind_eq_ok_iff.mpr ⟨_, walkEntries_eq .., rfl⟩⟩⟩⟩
      | _ =>
          refine .inr ⟨?_, _, rfl⟩
          intro hobject
          obtain ⟨es, hes⟩ := hobject _ hlookup
          cases hes

/-! ## Validation -/

/-- Edits keep a duration that is set. -/
theorem Edits.hasDurationMarker (h : Edits tc ctx c) (hctx : ctx.hasDurationMarker) :
    c.hasDurationMarker := by
  induction h with
  | refl => exact hctx
  | record _ node _ _ ih =>
      show (node.isDurationMarker || _) = true
      rw [ih, Bool.or_true]
  | setDuration _ _ ih => rfl
  | _ => assumption

theorem hasDurationMarker_walkAroundTotalMs {durationSeg totalMs : String}
    {es : List (String × JsonNode)} (hmem : ctx.hasDurationMarker ∨ totalMs ∈ es.map Prod.fst)
    (h : walkAroundTotalMs tc durationSeg totalMs es ctx = .ok c) : c.hasDurationMarker := by
  induction es generalizing ctx with
  | nil =>
      cases h
      rcases hmem with hctx | hmem
      · exact hctx
      · cases hmem
  | cons e es ih =>
      obtain ⟨k, v⟩ := e
      rw [walkAroundTotalMs] at h
      split_ifs at h with hk
      · exact ih (.inl rfl) h
      · rw [walk_eq tc v _ (by simp)] at h
        refine ih ?_ h
        rcases hmem with hctx | hmem
        · refine .inl ?_
          rw [(duration_visitAll _ ctx).2, hctx, Bool.or_true]
        · rcases List.mem_cons.mp hmem with rfl | hmem
          · exact absurd rfl hk
          · exact .inr hmem

/-- The duration pass leaves a duration. -/
theorem hasDurationMarker_autoAddDuration (hd : (object entries).DistinctKeys)
    (hhas : ctx.hasDurationMarker = (object entries).hasMarker)
    (h : autoAddDuration tc (object entries) ctx = .ok c) : c.hasDurationMarker := by
  cases autoAddDuration_cases h with
  | absent => rfl
  | empty => rfl
  | @marked es _ hes hmarker =>
      have hctx : ctx.hasDurationMarker := by
        rcases hmarker with hctx | hmarker
        · exact hctx
        · exact hasDurationMarker_of_entry hd hhas hes hmarker
      rw [(duration_visitAll _ _).2]
      exact Bool.or_eq_true_iff.mpr (.inr hctx)
  | totalMs _ _ hmem hwalk => exact hasDurationMarker_walkAroundTotalMs (.inr hmem) hwalk
  | single => rfl

theorem validate_cases (hhas : ctx.hasDurationMarker) (hduration : ctx.durationSegments ≠ [])
    (htimestamp : ctx.timestampSegments ≠ []) (hid : ctx.idSegments ≠ []) :
    ((∀ d ∈ ctx.defaults, d.segments ≠ ctx.idSegments) ∧ ctx.validate = none) ∨
      (¬ (∀ d ∈ ctx.defaults, d.segments ≠ ctx.idSegments) ∧
        ∃ message, ctx.validate = some message) := by
  unfold validate
  rw [if_neg (not_not.mpr hhas), if_neg (by simpa using hduration),
    if_neg (by simpa using htimestamp), if_neg (by simpa using hid)]
  split_ifs with hany
  · obtain ⟨d, hd, hsegments⟩ := List.any_eq_true.mp hany
    exact .inr ⟨fun h ↦ h d hd (by simpa using hsegments), _, rfl⟩
  · refine .inl ⟨fun d hd hsegments ↦ ?_, rfl⟩
    exact hany (List.any_eq_true.mpr ⟨d, hd, by simpa using hsegments⟩)

/-- The passes, one after the other. -/
theorem resolve_eq (tc : Toolchain) (entries : List (String × JsonNode))
    (overrides : KeyOverrides) :
    resolve tc (object entries) overrides =
      (autoAddDuration tc (object entries)
        (visitAll tc (entryNodes entries []) (new overrides)) >>= fun c ↦
          autoAddEvent tc (object entries) c >>= fun ctx ↦
            ctx.validate.elim (.ok ctx) fun message ↦ .error (.error message)) := by
  unfold resolve
  rw [walk_root]
  show (autoAddDuration tc (object entries) _ >>= _) = _
  refine congrArg _ (funext fun c ↦ ?_)
  refine congrArg _ (funext fun ctx ↦ ?_)
  cases ctx.validate <;> rfl

section Passes

variable {overrides : KeyOverrides}

/-- After both passes only `validate` is left. -/
theorem resolve_of_passes
    (hduration : autoAddDuration tc (object entries)
      (visitAll tc (entryNodes entries []) (new overrides)) = .ok c)
    (hevent : autoAddEvent tc (object entries) c = .ok ctx) :
    resolve tc (object entries) overrides =
      ctx.validate.elim (.ok ctx) fun message ↦ .error (.error message) := by
  rw [resolve_eq, hduration]
  show (autoAddEvent tc (object entries) c >>= _) = _
  rw [hevent]
  rfl

/-- After both passes, `validate` finds nothing but a default for the id. -/
theorem validate_of_passes (hd : (object entries).DistinctKeys)
    (hduration : autoAddDuration tc (object entries)
      (visitAll tc (entryNodes entries []) (new overrides)) = .ok c)
    (hevent : autoAddEvent tc (object entries) c = .ok ctx) :
    ((∀ d ∈ (object entries).leaves,
        d.segments ≠ [(Builtins.of overrides).event, (Builtins.of overrides).eventId]) ∧
        ctx.validate = none) ∨
      (¬ (∀ d ∈ (object entries).leaves,
        d.segments ≠ [(Builtins.of overrides).event, (Builtins.of overrides).eventId]) ∧
        ∃ message, ctx.validate = some message) := by
  have hwalk : Edits tc (new overrides) (visitAll tc (entryNodes entries []) (new overrides)) :=
    entryNodes_edits entries [] _ (tables_new overrides) declares_nil
  have htables := hwalk.tables (tables_new overrides)
  obtain ⟨hhas, -⟩ := duration_walkRoot tc hd overrides
  have hfields := resolvedFields_of_passes hd hduration hevent
  have hset : ctx.hasDurationMarker :=
    (autoAddEvent_edits ((autoAddDuration_edits htables hduration).tables htables)
      hevent).hasDurationMarker (hasDurationMarker_autoAddDuration hd hhas hduration)
  have hne : ctx.durationSegments ≠ [] :=
    fun hnil ↦ hfields.duration_not_above hd (hnil ▸ List.nil_prefix)
  have hcases := validate_cases hset hne (hfields.timestampSegments ▸ List.cons_ne_nil _ _)
    (hfields.idSegments ▸ List.cons_ne_nil _ _)
  simp only [mem_defaults_of_passes hd hduration hevent, hfields.idSegments] at hcases
  exact hcases

end Passes

/-- **The passes accept a schema or report an error**, and never panic. -/
theorem resolve_total (tc : Toolchain) (hd : (object entries).DistinctKeys)
    (overrides : KeyOverrides) :
    ((Builtins.of overrides).Resolves (object entries) ∧
        ∃ ctx, resolve tc (object entries) overrides = .ok ctx) ∨
      (¬ (Builtins.of overrides).Resolves (object entries) ∧
        ∃ message, resolve tc (object entries) overrides = .error (.error message)) := by
  have hwalk : Edits tc (new overrides) (visitAll tc (entryNodes entries []) (new overrides)) :=
    entryNodes_edits entries [] _ (tables_new overrides) declares_nil
  have hb : _ = Builtins.of overrides := hwalk.builtin_eq
  obtain ⟨hhas, -⟩ := duration_walkRoot tc hd overrides
  rcases autoAddDuration_total tc hd hhas with ⟨hdecided, c, hc⟩ | ⟨hno, message, herror⟩
  · have hbc : c.builtin = .of overrides :=
      (autoAddDuration_edits (hwalk.tables (tables_new overrides)) hc).builtin_eq.trans hb
    unfold LeafDecided at hdecided
    rw [hb, hhas] at hdecided
    rcases autoAddEvent_total tc entries c with ⟨hobject, ctx, hctx⟩ | ⟨hno, message, herror⟩
    · rw [hbc] at hobject
      rcases validate_of_passes hd hc hctx with ⟨hid, hvalid⟩ | ⟨hid, message, hvalid⟩
      · refine .inl ⟨⟨hdecided, hobject, hid⟩, ctx, ?_⟩
        rw [resolve_of_passes hc hctx, hvalid]
        rfl
      · refine .inr ⟨fun h ↦ hid h.id, message, ?_⟩
        rw [resolve_of_passes hc hctx, hvalid]
        rfl
    · refine .inr ⟨fun h ↦ hno (hbc ▸ h.event), message, ?_⟩
      rw [resolve_eq, hc]
      show (autoAddEvent tc (object entries) c >>= _) = _
      rw [herror]
      rfl
  · refine .inr ⟨fun h ↦ hno ?_, message, ?_⟩
    · unfold LeafDecided
      rw [hb, hhas]
      exact h.duration
    · rw [resolve_eq, herror]
      rfl

/-! ## The code -/

/-- Every identifier is the variant of a key of the table. -/
theorem mem_idents (h : ctx.Tables tc) (s : String) :
    s ∈ ctx.idents tc ↔ ∃ name ∈ ctx.names, s = toPascalCase tc name := by
  unfold idents
  rw [List.mem_append, List.mem_map]
  constructor
  · rintro (⟨e, he, rfl⟩ | hs)
    · exact ⟨e.jsonName, List.mem_map_of_mem he, h.variant_eq e he⟩
    · obtain ⟨name, hname, rfl⟩ := List.mem_map.mp hs
      refine ⟨name, ?_, rfl⟩
      simp only [List.mem_append, List.mem_flatMap] at hname
      rcases hname with (((hname | hname) | hname) | ⟨e, he, hname⟩) | ⟨d, hd, hname⟩
      · exact h.duration name hname
      · exact h.timestamp name hname
      · exact h.id name hname
      · exact h.paths e he name hname
      · exact (h.defaults d hd).2 name hname
  · rintro ⟨name, hname, rfl⟩
    obtain ⟨e, he, rfl⟩ := List.mem_map.mp hname
    exact .inl ⟨e, he, h.variant_eq e he⟩

/-- `emit` panics on nothing but the keys and the defaults. -/
theorem emit_eq (h : ctx.Tables tc) :
    ctx.emit tc = if (∀ name ∈ ctx.names, tc.isIdent (toPascalCase tc name)) ∧
      ∀ d ∈ ctx.defaults, d.value.quotable then .ok ctx else .error .panic := by
  unfold emit
  refine if_congr (and_congr ?_ List.all_eq_true) rfl rfl
  rw [List.all_eq_true]
  constructor
  · intro hidents name hname
    exact hidents _ ((mem_idents h _).mpr ⟨name, hname, rfl⟩)
  · intro hnames s hs
    obtain ⟨name, hname, rfl⟩ := (mem_idents h s).mp hs
    exact hnames name hname

/-- Nor on any variant but those of the enum. -/
theorem emit_eq_keys (h : ctx.Tables tc) :
    ctx.emit tc = if (ctx.keys.all fun k ↦ tc.isIdent k.variant) ∧
      ctx.defaults.all (·.value.quotable) then .ok ctx else .error .panic := by
  rw [emit_eq h]
  refine if_congr (and_congr ?_ List.all_eq_true.symm) rfl rfl
  rw [List.all_eq_true]
  constructor
  · intro hnames e he
    rw [h.variant_eq e he]
    exact hnames _ (List.mem_map_of_mem he)
  · intro hkeys name hname
    obtain ⟨e, he, rfl⟩ := List.mem_map.mp hname
    rw [← h.variant_eq e he]
    exact hkeys e he

end GenContext

variable {tc}

/-- **When the macro does not panic.**  Either the parser or a pass reports an error, or
all key names have variants that are identifiers, and all float defaults are finite. -/
theorem expand_ne_panic_iff (tc : Toolchain) (input : List TokenTree) :
    expand tc input ≠ .error .panic ↔
      ∀ overrides root, parseWideLogInput tc input = .ok (overrides, root) →
        (Builtins.of overrides).Resolves root →
        (∀ s, (Builtins.of overrides).TableName root s → tc.isIdent (toPascalCase tc s)) ∧
          ∀ d ∈ root.leaves, d.value.quotable := by
  unfold expand
  cases hparse : parseWideLogInput tc input with
  | error message => exact iff_of_true nofun nofun
  | ok parsed =>
      obtain ⟨overrides, root⟩ := parsed
      obtain ⟨-, entries, rfl, hd⟩ := parseWideLogInput_ok hparse
      rcases GenContext.resolve_total tc hd overrides with
        ⟨hresolves, ctx, hctx⟩ | ⟨hno, message, herror⟩
      · have hnames := GenContext.mem_names_iff hd hctx
        obtain ⟨c, hduration, hevent, -⟩ := GenContext.resolve_ok hctx
        have hdefaults := mem_defaults_of_passes hd hduration hevent
        have hclean : ((∀ name ∈ ctx.names, tc.isIdent (toPascalCase tc name)) ∧
            ∀ d ∈ ctx.defaults, d.value.quotable) ↔
              (∀ s, (Builtins.of overrides).TableName (object entries) s →
                tc.isIdent (toPascalCase tc s)) ∧
                ∀ d ∈ (object entries).leaves, d.value.quotable :=
          and_congr (forall_congr' fun s ↦ imp_congr_left (hnames s))
            (forall_congr' fun d ↦ imp_congr_left (hdefaults d))
        show (GenContext.resolve tc (object entries) overrides >>= fun ctx ↦ ctx.emit tc) ≠ _ ↔ _
        rw [hctx]
        show ctx.emit tc ≠ _ ↔ _
        rw [GenContext.emit_eq (GenContext.tables_resolve hctx)]
        constructor
        · rintro hne _ _ ⟨⟩ -
          by_contra hnot
          exact hne (if_neg (hnot ∘ hclean.mp))
        · intro h
          rw [if_pos (hclean.mpr (h overrides _ rfl hresolves))]
          nofun
      · show (GenContext.resolve tc (object entries) overrides >>= _) ≠ _ ↔ _
        rw [herror]
        refine iff_of_true nofun ?_
        rintro _ _ ⟨⟩ hresolves
        exact absurd hresolves hno

/-- A field name with a dash. -/
theorem expand_panics : ¬ ∀ (tc : Toolchain) (input : List TokenTree),
    expand tc input ≠ .error .panic := by
  intro h
  exact h asciiToolchain [objectTokens [("a-b", [.ident "null"])]] (by decide +kernel)

end WideLog.Macros
