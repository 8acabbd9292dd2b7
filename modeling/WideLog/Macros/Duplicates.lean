import WideLog.Macros.Lifecycle

/-!
# Duplicate names

Member names come from the key table, which holds no name twice, and from three
built-in keys that are not in the table.  So the events of a program have distinct
names exactly when the input keeps those three apart from what they are written
next to.
-/

namespace WideLog.Macros

open Rfc8259

/-- When the input keeps member names apart: the log key is not in the key table, and
the two keys of a log entry differ. -/
structure Builtins.KeepsNamesApart (b : Builtins) (root : JsonNode) : Prop where
  log : ¬ b.TableName root b.log
  entry : b.level ≠ b.message

namespace Accepted

variable {tc : Toolchain} {input : List TokenTree} (a : Accepted tc input)

theorem mem_keyStrs_iff (s : String) :
    s ∈ keyStrs a.program.EventKey ↔ (Builtins.of a.overrides).TableName a.root s := by
  obtain ⟨entries, hroot, hd⟩ := a.exists_entries
  rw [a.reads.keyStrs, GenContext.mem_names_iff (hroot ▸ hd) (hroot ▸ a.resolved), hroot]

/-- The program keeps names apart if the input does. -/
theorem namesApart_iff :
    NamesApart a.program.EventKey ↔ (Builtins.of a.overrides).KeepsNamesApart a.root := by
  have hlog := a.reads.logKey
  have hlevel := a.reads.levelKey
  have hmessage := a.reads.messageKey
  rw [a.builtin_eq] at hlog hlevel hmessage
  constructor
  · rintro ⟨-, h, hentry⟩
    rw [hlog, a.mem_keyStrs_iff] at h
    rw [hlevel, hmessage] at hentry
    exact ⟨h, hentry⟩
  · rintro ⟨h, hentry⟩
    refine ⟨?_, ?_, ?_⟩
    · rw [a.reads.keyStrs]
      exact a.tables.keyIndex.nodup
    · rwa [hlog, a.mem_keyStrs_iff]
    · rwa [hlevel, hmessage]

/-- The output of a guard decodes to the tree of its event. -/
theorem parse_output {p : Program} {ryu : F64 → String} (hryu : PrintsFloats ryu)
    {run : GuardRun p} {ev : WideEvent p.EventKey} (h : run.event = .ret ev) :
    ∃ bs, run.output ryu = some bs ∧ (utf8Decode bs).bind parse = some ev.tree := by
  refine ⟨utf8 (ev.text ryu), ?_, ?_⟩
  · simp only [GuardRun.output, h, serializeTo_vecWriter, Except.toOption]
  · rw [utf8Decode_utf8, Option.bind_some, parse_of_text (text_event hryu ev)]

/-! ## Runs with duplicates -/

/-- A guard on which one macro is used. -/
def singleCall {p : Program} (call : MacroCall p) : GuardRun p where
  env := .release
  preset := none
  id := "id"
  calls := [call]
  elapsed _ := ⟨0⟩
  now := "now"

/-- No automatic field is at or above the event, nor at the root. -/
theorem not_prefix_event {k : a.program.EventKey}
    (hk : Key.asStr k = (Builtins.of a.overrides).event) {q : List a.program.EventKey}
    (hq : q <+: [k]) : ¬ Key.durationPath <+: q ∧ ¬ Key.timestampPath <+: q := by
  obtain ⟨entries, hroot, hd⟩ := a.exists_entries
  obtain ⟨dur, hfields⟩ := a.resolvedFields
  have hduration : ¬ a.ctx.durationSegments <+: [(Builtins.of a.overrides).event] := by
    rw [hroot] at hfields hd
    exact hfields.duration_not_above hd
  constructor
  · intro hdur
    have hmap := (hdur.trans hq).map Key.asStr
    rw [a.reads.durationPath, List.map_singleton, hk] at hmap
    exact hduration hmap
  · intro hts
    have hmap := ((hts.trans hq).map Key.asStr).length_le
    rw [a.reads.timestampPath, hfields.timestampSegments] at hmap
    simp at hmap

/-- If one macro leaves log entries in an event at or above the event key, they are
there when the guard is dropped, and so are the slots. -/
theorem event_singleCall {k : a.program.EventKey}
    (hk : Key.asStr k = (Builtins.of a.overrides).event) {q : List a.program.EventKey}
    (hq : q <+: [k]) (call : MacroCall a.program) (slots : List ℕ)
    (hcall : ∀ ev : WideEvent a.program.EventKey, ev.Quiet →
      (call.apply .release ev).state.Quiet ∧
      ∃ e, (call.apply .release ev).state.eventAt q = some e ∧ e.logEntries ≠ [] ∧
        ∀ i ∈ slots, (e.slot i).isSome) :
    ∃ ev e, (singleCall call).event = .ret ev ∧ ev.eventAt q = some e ∧ e.logEntries ≠ [] ∧
      ∀ i ∈ slots, (e.slot i).isSome := by
  obtain ⟨ev, hbuild, hquiet⟩ := a.build_ret .release "id"
  obtain ⟨hquiet, e, he, hlog, hslots⟩ := hcall ev hquiet
  obtain ⟨hdur, hts⟩ := a.not_prefix_event hk hq
  obtain ⟨ev', e', hdrop, he', hlog', hslots'⟩ :=
    WideEvent.eventAt_dropWrites .release (fun _ ↦ ⟨0⟩) "now" hdur hts hquiet he
  refine ⟨ev', e', ?_, he', by rwa [hlog'], fun i hi ↦ hslots' i (hslots i hi)⟩
  have hevent : (singleCall call).event =
      ((call.apply .release ev).state).dropWrites .release (fun _ ↦ ⟨0⟩) "now" := by
    rw [GuardRun.event]
    simp only [singleCall] at hbuild ⊢
    rw [hbuild, Outcome.bind_ret]
    rfl
  rw [hevent, hdrop]

theorem quiet_appendLog {K : Type} [Key K] {ev : WideEvent K} (h : ev.Quiet)
    (level message : String) : (ev.appendLogEntryStatic level message).Quiet :=
  .mk h.here fun _ hv ↦ h.values hv

/-- One log entry is enough for a duplicate if its two keys are the same. -/
theorem exists_duplicate_entry
    (h : Key.levelKey a.program.EventKey = Key.messageKey a.program.EventKey) :
    ∃ (run : GuardRun a.program) (ev : _), run.event = .ret ev ∧ ¬ ev.tree.DistinctNames := by
  obtain ⟨k, hk, -⟩ := a.resolvePath_event
  obtain ⟨ev, e, hev, he, hlog, -⟩ :=
    a.event_singleCall hk List.nil_prefix (.log ⟨.info, .static "done"⟩) [] fun ev hquiet ↦ by
      have happly : (MacroCall.log ⟨.info, .static "done"⟩ : MacroCall a.program).apply
          .release ev = .ret (ev.appendLogEntryStatic "info" "done") := rfl
      rw [happly]
      exact ⟨quiet_appendLog hquiet _ _, _, rfl, by simp [WideEvent.appendLogEntryStatic], by simp⟩
  cases he
  exact ⟨_, ev, hev, WideEvent.not_distinctNames_entry h hlog⟩

/-- An event with a value under a key, next to a log entry. -/
def loggedEvent {K : Type} [Key K] (k : K) : WideEvent K :=
  (WideEvent.new.put (Key.asIndex k) .null).appendLogEntryStatic "info" "done"

/-- If the log key is in the key table, an object can hold it twice. -/
theorem exists_duplicate_log
    (h : Key.logKey a.program.EventKey ∈ keyStrs a.program.EventKey) :
    ∃ (run : GuardRun a.program) (ev : _), run.event = .ret ev ∧ ¬ ev.tree.DistinctNames := by
  obtain ⟨k, hk, hresolve⟩ := a.resolvePath_event
  obtain ⟨l, -, hl⟩ := List.mem_map.mp h
  have hlogged : (loggedEvent l).Quiet :=
    quiet_appendLog (quiet_new.put (WideEvent.stable_quiet.put _ _ _ rfl) .null) _ _
  obtain ⟨ev, e, hev, he, hlog, hslot⟩ :=
    a.event_singleCall hk (List.prefix_refl [k])
      (.field (.set (Builtins.of a.overrides).event (.object (loggedEvent l)))) [Key.asIndex l]
      fun ev hquiet ↦ by
        have happly : (MacroCall.field (.set (Builtins.of a.overrides).event
            (.object (loggedEvent l)))).apply .release ev =
              .ret (ev.insert [k] (.object (loggedEvent l))) := by
          simp only [MacroCall.apply, FieldCall.apply, FieldCall.path, hresolve]
          exact WideEvent.addPath_eq_insert .release (by simp) _ hquiet
        have hchild : (ev.insert [k] (.object (loggedEvent l))).eventAt [k] =
            some (loggedEvent l) := by
          rw [WideEvent.insert_singleton, WideEvent.eventAt, WideEvent.slot_put_self]
          rfl
        rw [happly]
        refine ⟨hquiet.insert WideEvent.stable_quiet (.object hlogged) [k], _, hchild, ?_, ?_⟩
        · simp [loggedEvent, WideEvent.appendLogEntryStatic]
        · rw [List.forall_mem_singleton]
          have hput : (loggedEvent l).slot (Key.asIndex l) = some .null :=
            WideEvent.slot_put_self _ _ _
          rw [hput]
          rfl
  refine ⟨_, ev, hev, ?_⟩
  intro hdistinct
  exact WideEvent.not_distinctNames_log hl (hslot _ (by simp)) hlog
    (WideEvent.distinctNames_eventAt hdistinct he)

/-- Where the input does not keep names apart, some guard has an event with a duplicate. -/
theorem exists_duplicate (h : ¬ NamesApart a.program.EventKey) :
    ∃ (run : GuardRun a.program) (ev : _), run.event = .ret ev ∧ ¬ ev.tree.DistinctNames := by
  by_cases hentry : Key.levelKey a.program.EventKey = Key.messageKey a.program.EventKey
  · exact a.exists_duplicate_entry hentry
  · by_cases hlog : Key.logKey a.program.EventKey ∈ keyStrs a.program.EventKey
    · exact a.exists_duplicate_log hlog
    · have hkeys : (keyStrs a.program.EventKey).Nodup := by
        rw [a.reads.keyStrs]
        exact a.tables.keyIndex.nodup
      exact absurd ⟨hkeys, hlog, hentry⟩ h

/-- **The output of every guard has distinct names exactly when the input keeps them
apart**, for all uses of the macros and all values they are given. -/
theorem distinctNames_iff {ryu : F64 → String} (hryu : PrintsFloats ryu) :
    (∀ (run : GuardRun a.program) (bs : List UInt8), run.output ryu = some bs →
      ∃ j, (utf8Decode bs).bind parse = some j ∧ j.DistinctNames) ↔
    (Builtins.of a.overrides).KeepsNamesApart a.root := by
  rw [← a.namesApart_iff]
  constructor
  · intro h
    by_contra hnot
    obtain ⟨run, ev, hev, hdup⟩ := a.exists_duplicate hnot
    obtain ⟨bs, hbs, hparse⟩ := parse_output hryu hev
    obtain ⟨j, hj, hdistinct⟩ := h run bs hbs
    rw [hparse] at hj
    cases hj
    exact hdup hdistinct
  · intro h run bs hbs
    cases hev : run.event with
    | panic ev =>
        simp only [GuardRun.output, hev] at hbs
        cases hbs
    | ret ev =>
        obtain ⟨bs', hbs', hparse⟩ := parse_output hryu hev
        rw [hbs'] at hbs
        cases hbs
        exact ⟨ev.tree, hparse, distinctNames_event h ev⟩

end Accepted

/-- A schema that declares none of the built-in names. -/
theorem distinctNames_status : ∃ a : Accepted asciiToolchain statusSchema,
    (∀ (run : GuardRun a.program) (bs : List UInt8), run.output sampleRyu = some bs →
      ∃ j, (utf8Decode bs).bind parse = some j ∧ j.DistinctNames) ∧
    (Builtins.of a.overrides).KeepsNamesApart a.root := by
  obtain ⟨a, -⟩ := exists_statusSchema
  have hinput : (a.overrides, a.root.paths) = (.default, [["status"]]) :=
    a.map_parse (f := fun x ↦ (x.1, x.2.paths)) (by decide +kernel)
  obtain ⟨hoverrides, hpaths⟩ := Prod.mk.inj hinput
  have hkeeps : (Builtins.of a.overrides).KeepsNamesApart a.root := by
    rw [hoverrides]
    refine ⟨?_, by decide⟩
    rintro (h | h | ⟨-, h⟩)
    · rw [hpaths] at h
      exact absurd h (by decide)
    · exact absurd h (by decide)
    · exact absurd h (by decide)
  exact ⟨a, (a.distinctNames_iff printsFloats_sampleRyu).mpr hkeeps, hkeeps⟩

/-- A schema that declares the log key. -/
def logSchema : List TokenTree := [objectTokens [("log", [.ident "null"])]]

/-- A guard whose `log` field is set, and which logs. -/
def logRun (p : Program) : GuardRun p where
  env := .release
  preset := none
  id := "id"
  calls := [.field (.set "log" (.i64 1)), .log ⟨.info, .static "x"⟩]
  elapsed _ := ⟨0⟩
  now := "now"

/-- The run emits log entries, and a field that has the log's name. -/
def GuardRun.repeatsLog {p : Program} (run : GuardRun p) : Bool :=
  match run.event with
  | .panic _ => false
  | .ret ev => !ev.logEntries.isEmpty && (Key.keys : List p.EventKey).any fun k ↦
      Key.asStr k = Key.logKey p.EventKey && (ev.slot (Key.asIndex k)).isSome

/-- **A field named like the log comes out next to it**, as a second member of that name. -/
theorem not_distinctNames :
    ¬ ∀ (tc : Toolchain) (input : List TokenTree) (a : Accepted tc input) (ryu : F64 → String),
      PrintsFloats ryu → ∀ (run : GuardRun a.program) (bs : List UInt8),
      run.output ryu = some bs → ∃ j, (utf8Decode bs).bind parse = some j ∧ j.DistinctNames := by
  intro h
  have hclash : (wideLog asciiToolchain logSchema).map (fun p ↦ (logRun p).repeatsLog) =
      some true := by decide +kernel
  obtain ⟨p, hp, -⟩ := Option.map_eq_some_iff.mp hclash
  obtain ⟨a, rfl⟩ := exists_accepted hp
  have hclash := a.map_wideLog hclash
  cases hev : (logRun a.program).event with
  | panic ev => simp [GuardRun.repeatsLog, hev] at hclash
  | ret ev =>
      simp only [GuardRun.repeatsLog, hev, Bool.and_eq_true, List.any_eq_true,
        decide_eq_true_eq] at hclash
      obtain ⟨hlog, k, -, hk, hslot⟩ := hclash
      obtain ⟨bs, hbs, hparse⟩ := Accepted.parse_output printsFloats_sampleRyu hev
      obtain ⟨j, hj, hdistinct⟩ := h _ _ a sampleRyu printsFloats_sampleRyu _ bs hbs
      rw [hparse] at hj
      cases hj
      exact WideEvent.not_distinctNames_log hk hslot (by simpa using hlog) hdistinct

end WideLog.Macros
