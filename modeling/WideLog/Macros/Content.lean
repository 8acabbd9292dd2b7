import WideLog.Lib.Interleave
import WideLog.Macros.Recording
import WideLog.Serialize.Content

/-!
# What a guard emits

The life of a guard, told without its event: the defaults, the preset and the id are
written, then what the macros were asked for, then the duration and the timestamp.
The line that is emitted reads as just that.
-/

namespace WideLog.Macros

open Rfc8259

variable {p : Program}

/-- The keys that a dotted name leads to, none if it is not declared. -/
def Program.keysOf (p : Program) (name : String) : List p.EventKey :=
  ((p.resolveArms.find? (·.1 = name)).map Prod.snd).getD []

/-- What a macro asks of an event. -/
def MacroCall.edit : MacroCall p → Edit p.EventKey
  | field call => .field call.op (p.keysOf call.path)
  | log call => .log ⟨call.level.asStr, call.message⟩

/-- A macro does what it asks for. -/
theorem MacroCall.apply_eq_run (env : Env p.EventKey) (call : MacroCall p)
    (ev : WideEvent p.EventKey) : call.apply env ev = call.edit.run env ev := by
  cases call with
  | log call =>
      obtain ⟨level, message⟩ := call
      cases message <;> rfl
  | field call =>
      have hnil (op : FieldOp p.EventKey) : op.run env [] ev = .panic ev := by
        rw [op.run_eq_atPath, WideEvent.atPath_nil]
      show call.apply env ev = call.op.run env (p.keysOf call.path) ev
      cases hfind : p.resolveArms.find? (·.1 = call.path) with
      | some arm =>
          have hresolve : p.resolvePath env.debugAssertions call.path = some arm.2 := by
            simp only [Program.resolvePath, hfind]
            rfl
          have hkeys : p.keysOf call.path = arm.2 := by rw [Program.keysOf, hfind]; rfl
          rw [FieldCall.apply, hresolve, hkeys]
      | none =>
          have hkeys : p.keysOf call.path = [] := by rw [Program.keysOf, hfind]; rfl
          have hundeclared : call.path ∉ p.declared := by
            intro hmem
            obtain ⟨arm, harm, heq⟩ := List.mem_map.mp hmem
            exact List.find?_eq_none.mp hfind arm harm (by simpa using heq)
          rw [hkeys, hnil, FieldCall.apply, p.resolvePath_undeclared hundeclared]
          cases env.debugAssertions with
          | true => rfl
          | false => exact hnil call.op

theorem MacroCall.quiet_edit {call : MacroCall p} (h : call.Quiet) : call.edit.Quiet := by
  cases call with
  | log call => trivial
  | field call =>
      cases call with
      | set path value => exact h
      | null path => exact .null
      | _ => trivial

/-- A preset returns when it is applied to the event of the defaults, and does to it what
`g` does to the content. -/
def Preset.Realizes (env : Env p.EventKey) (f : Preset p)
    (g : Content p.EventKey → Content p.EventKey) : Prop :=
  ∀ ev, applyDefaults env p.defaults .new = .ret ev →
    ∃ ev', f ev = .ret ev' ∧ ev'.Quiet ∧ ev'.content = g ev.content

/-- What the default statements say. -/
noncomputable def Program.defaultContent (p : Program) : Content p.EventKey :=
  p.defaults.foldl (fun c d ↦ c.write d.1 (p.defaultValue d.2)) .empty

/-- The key that the duration is written under, and that tells its unit. -/
def Program.durationLeaf (p : Program) : String :=
  ((Key.durationPath : List p.EventKey).getLast?.map Key.asStr).getD ""

namespace GuardRun

variable (run : GuardRun p)

/-- What is said over the life of a guard: the defaults, the preset and the id, what the
macros ask for, the duration in the unit of its leaf, the timestamp. -/
noncomputable def content (g : Content p.EventKey → Content p.EventKey) : Content p.EventKey :=
  let built := (g p.defaultContent).write Key.idPath (.str run.id)
  let recorded := (run.calls.map MacroCall.edit).foldl (Content.edit run.env) built
  (recorded.write Key.durationPath (.f64 (run.elapsed p.durationLeaf))).write
    Key.timestampPath (.str run.now)

theorem afterCalls_eq_runAll (ev : WideEvent p.EventKey) :
    run.afterCalls ev = Edit.runAll run.env (run.calls.map MacroCall.edit) ev := by
  simp only [afterCalls, Edit.runAll, List.foldl_map, MacroCall.apply_eq_run]

end GuardRun

/-- Insertions of defaults say what the defaults say. -/
theorem content_insertAll {defaults : List (List p.EventKey × DefaultValue)}
    (hne : ∀ d ∈ defaults, d.1 ≠ []) (ev : WideEvent p.EventKey) :
    (ev.insertAll (defaults.map p.write)).content =
      defaults.foldl (fun c d ↦ c.write d.1 (p.defaultValue d.2)) ev.content := by
  induction defaults generalizing ev with
  | nil => rfl
  | cons d defaults ih =>
      rw [List.forall_mem_cons] at hne
      rw [List.foldl_cons, ← WideEvent.content_insert hne.1]
      exact ih hne.2 _

theorem content_new : (WideEvent.new : WideEvent p.EventKey).content = .empty := by
  apply Content.ext
  · funext q
    show leafOf ((WideEvent.new : WideEvent p.EventKey).read q) = none
    rw [show (WideEvent.new : WideEvent p.EventKey) = WideEvent.new.newChild from rfl,
      WideEvent.read_newChild, leafOf_none]
  · rfl

/-- **Futures that write different fields may interleave in any way.**  The macros of
several futures reach one event; where no field of one future is at, above or below a
field of another, and at most one of them logs, the event that is emitted depends on what
each future does and not on the order in which they are polled. -/
theorem Recording.event_sameThreads {T : Type} [DecidableEq T] (start : Start p)
    {xs ys : List (T × QuietCall p)} (h : SameThreads xs ys)
    (hapart : ∀ x ∈ xs, ∀ y ∈ xs, x.1 ≠ y.1 → x.2.val.edit.Apart y.2.val.edit)
    (env : Env p.EventKey) (elapsed : String → F64) (now : String) :
    (Recording.run ⟨start, xs.map Prod.snd⟩ env elapsed now).event =
      (Recording.run ⟨start, ys.map Prod.snd⟩ env elapsed now).event := by
  let step (ev : WideEvent p.EventKey) (x : T × QuietCall p) : WideEvent p.EventKey :=
    (x.2.val.edit.run env ev).state
  have hquiet (x : T × QuietCall p) : x.2.val.edit.Quiet := MacroCall.quiet_edit x.2.property
  have hcalls (zs : List (T × QuietCall p)) (ev : WideEvent p.EventKey) :
      (Recording.run ⟨start, zs.map Prod.snd⟩ env elapsed now).afterCalls ev =
        zs.foldl step ev := by
    simp only [GuardRun.afterCalls, Recording.run, List.map_map, List.foldl_map,
      MacroCall.apply_eq_run, Function.comp_apply, step]
  have hsame {ev : WideEvent p.EventKey} (hq : ev.Quiet) : xs.foldl step ev = ys.foldl step ev :=
    h.foldl_eq (I := WideEvent.Quiet) (P := fun _ ↦ True)
      (fun _ x hev _ ↦ Edit.quiet_run (hquiet x) hev) (fun _ _ ↦ trivial)
      (fun _ hev x hx y hy hne ↦ Edit.run_comm (hapart x hx y hy hne) (hquiet x) (hquiet y) hev) hq
  show (p.build env start.preset start.id).bind _ = (p.build env start.preset start.id).bind _
  have hbuilt : (p.build env start.preset start.id).state.Quiet := Recording.quiet_build start
  cases hbuild : p.build env start.preset start.id with
  | panic ev => rfl
  | ret ev =>
      rw [hbuild] at hbuilt
      have hrun := (hcalls xs ev).trans ((hsame hbuilt).trans (hcalls ys ev).symm)
      rw [Outcome.bind_ret, Outcome.bind_ret, hrun]
      rfl

/-- One future counts while another sets a field and logs. -/
theorem Recording.event_sameThreads_join : ∃ a : Accepted asciiToolchain statusSchema,
    let start : Start a.program := ⟨none, "id", by simp⟩
    let count : QuietCall a.program := ⟨.field (.inc "status"), trivial⟩
    let clear : QuietCall a.program := ⟨.field (.null "event.id"), trivial⟩
    let log : QuietCall a.program := ⟨.log ⟨.info, .static "done"⟩, trivial⟩
    (Recording.run ⟨start, [(0, count), (1, clear), (0, count), (1, log)].map Prod.snd⟩ .release
        (fun _ ↦ .ofFields false 0) "now").event =
      (Recording.run ⟨start, [(1, clear), (1, log), (0, count), (0, count)].map Prod.snd⟩ .release
        (fun _ ↦ .ofFields false 0) "now").event := by
  obtain ⟨a, -⟩ := exists_statusSchema
  have hpaths : ¬ a.program.keysOf "status" <+: a.program.keysOf "event.id" ∧
      ¬ a.program.keysOf "event.id" <+: a.program.keysOf "status" := by
    have hdecide : (wideLog asciiToolchain statusSchema).map (fun p ↦
        decide (¬ p.keysOf "status" <+: p.keysOf "event.id" ∧
          ¬ p.keysOf "event.id" <+: p.keysOf "status")) = some true := by decide +kernel
    exact of_decide_eq_true (a.map_wideLog hdecide)
  have hapart : Incomparable (a.program.keysOf "status") (a.program.keysOf "event.id") := hpaths
  refine ⟨a, Recording.event_sameThreads (T := ℕ) _ ?_ ?_ .release _ "now"⟩
  · intro t
    rcases t with _ | _ | t <;> simp [stepsOf]
  · simp [MacroCall.edit, Edit.Apart, FieldCall.path, hapart, hapart.symm]

namespace Accepted

variable {tc : Toolchain} {input : List TokenTree} (a : Accepted tc input)

theorem idPath_ne_nil : (Key.idPath : List a.program.EventKey) ≠ [] := by
  intro hnil
  obtain ⟨dur, hfields⟩ := a.resolvedFields
  have hsegments : a.ctx.idSegments = [] := by rw [← a.reads.idPath, hnil]; rfl
  rw [hfields.idSegments] at hsegments
  cases hsegments

/-- A guard is built if its preset returns, and says the defaults, the preset and the id. -/
theorem content_build (env : Env a.program.EventKey) {preset : Option (Preset a.program)}
    {g : Content a.program.EventKey → Content a.program.EventKey}
    (hpreset : Preset.Realizes env (preset.getD .ret) g) (id : String) :
    ∃ ev, a.program.build env preset id = .ret ev ∧ ev.Quiet ∧
      ev.content = (g a.program.defaultContent).write Key.idPath (.str id) := by
  have hdefaults := applyDefaults_eq env a.reads.defaults (quiet_new (K := a.program.EventKey))
  obtain ⟨ev₁, hev₁, -⟩ := applyDefaults_ret env a.reads.defaults quiet_new
  obtain ⟨ev₂, hev₂, hq₂, hcontent₂⟩ := hpreset ev₁ hev₁
  obtain rfl : _ = ev₁ := Outcome.ret.inj (hdefaults.symm.trans hev₁)
  refine ⟨_, ?_, hq₂.insert WideEvent.stable_quiet (.str id) Key.idPath, ?_⟩
  · rw [Program.build, hev₁, Outcome.bind_ret, hev₂, Outcome.bind_ret,
      WideEvent.addPath_eq_insert env a.idPath_ne_nil _ hq₂]
  · rw [WideEvent.content_insert a.idPath_ne_nil, hcontent₂,
      content_insertAll a.reads.defaults, content_new]
    rfl

/-- **A line says what was recorded.**  Whatever is asked of the macros, also at paths that
are not declared or with arithmetic that panics, the guard emits one JSON text; under each
path of key strings a reader finds the value that the defaults, the preset, the id, the
macro calls, the duration and the timestamp leave there when they are applied in this order
to a map from paths to values, and under the log key the entries in the order of the calls. -/
theorem output_readsAs {ryu : F64 → String} (hryu : PrintsFloats ryu)
    (hlog : a.ctx.builtin.log ∉ a.ctx.names) (run : GuardRun a.program)
    {g : Content a.program.EventKey → Content a.program.EventKey}
    (hpreset : Preset.Realizes run.env (run.preset.getD .ret) g)
    (hcalls : ∀ call ∈ run.calls, call.Quiet) :
    ∃ bs j, run.output ryu = some bs ∧ (utf8Decode bs).bind parse = some j ∧
      (run.content g).ReadsAs j := by
  obtain ⟨hdur, hts⟩ := a.dropPaths_ne_nil
  obtain ⟨leaf, hleaf⟩ := Option.isSome_iff_exists.mp (List.getLast?_isSome.mpr hdur)
  have hname : Key.asStr leaf = a.program.durationLeaf := by rw [Program.durationLeaf, hleaf]; rfl
  obtain ⟨ev₀, hbuild, hq₀, hcontent₀⟩ := a.content_build run.env hpreset run.id
  have hedits : ∀ e ∈ run.calls.map MacroCall.edit, e.Quiet := by
    rw [List.forall_mem_map]
    exact fun call hcall ↦ MacroCall.quiet_edit (hcalls call hcall)
  have hcontent₁ : (run.afterCalls ev₀).content =
      (run.calls.map MacroCall.edit).foldl (Content.edit run.env) ev₀.content := by
    rw [run.afterCalls_eq_runAll]
    exact Edit.content_runAll hedits hq₀
  have hq₁ : (run.afterCalls ev₀).Quiet := by
    rw [run.afterCalls_eq_runAll]
    exact Edit.quiet_runAll hedits hq₀
  obtain ⟨n, hdrop⟩ :=
    WideEvent.dropWrites_leaf run.env run.elapsed run.now hleaf hts hq₁
  rw [hname] at hdrop
  set emitted : WideEvent a.program.EventKey :=
    { ((run.afterCalls ev₀).insert Key.durationPath
        (.f64 (run.elapsed a.program.durationLeaf))).insert Key.timestampPath
          (.str run.now) with presentCount := n }
  have hevent : run.event = .ret emitted := by rw [GuardRun.event, hbuild, Outcome.bind_ret, hdrop]
  have hcontent : emitted.content = run.content g := by
    calc emitted.content
        = (((run.afterCalls ev₀).insert Key.durationPath
            (.f64 (run.elapsed a.program.durationLeaf))).insert Key.timestampPath
              (.str run.now)).content := Content.ext (WideEvent.leaves_congr rfl) rfl
      _ = run.content g := by
          rw [WideEvent.content_insert hts, WideEvent.content_insert hdur, hcontent₁, hcontent₀]
          rfl
  have hkeys : (keyStrs a.program.EventKey).Nodup := by
    rw [a.reads.keyStrs]
    exact a.tables.keyIndex.nodup
  have hapart : Key.logKey a.program.EventKey ∉ keyStrs a.program.EventKey := by
    rw [a.reads.keyStrs, a.reads.logKey]
    exact hlog
  refine ⟨utf8 (emitted.text ryu), emitted.tree, ?_, ?_, ?_⟩
  · rw [GuardRun.output, hevent]
    simp only [serializeTo_vecWriter, Except.toOption]
  · rw [utf8Decode_utf8, Option.bind_some, parse_of_text (text_event hryu emitted)]
  · rw [← hcontent]
    exact emitted.readsAs_tree hkeys hapart

/-- A guard of one field, whose preset sets the field, and two calls. -/
theorem output_readsAs_status : ∃ a : Accepted asciiToolchain statusSchema,
    let preset : Preset a.program := fun ev ↦ ev.addPath .release (a.program.keysOf "status") .null
    let run : GuardRun a.program := ⟨.release, some preset, "id",
      [.field (.inc "status"), .field (.dec "nowhere")], fun _ ↦ .ofFields false 0, "now"⟩
    ∃ bs j, run.output sampleRyu = some bs ∧ (utf8Decode bs).bind parse = some j ∧
      (run.content fun c ↦ c.write (a.program.keysOf "status") .null).ReadsAs j := by
  obtain ⟨a, -⟩ := exists_statusSchema
  have hkeys : a.program.keysOf "status" ≠ [] := by
    have hdecide : (wideLog asciiToolchain statusSchema).map (fun p ↦
        decide (p.keysOf "status" = [])) = some false := by decide +kernel
    exact of_decide_eq_false (a.map_wideLog hdecide)
  have hlog : a.ctx.builtin.log ∉ a.ctx.names := by
    have hdecide : (wideLog asciiToolchain statusSchema).map (fun p ↦
        decide (Key.logKey p.EventKey ∈ keyStrs p.EventKey)) = some false := by decide +kernel
    rw [← a.reads.logKey, ← a.reads.keyStrs]
    exact of_decide_eq_false (a.map_wideLog hdecide)
  refine ⟨a, a.output_readsAs printsFloats_sampleRyu hlog _ ?_ ?_⟩
  · intro ev hev
    obtain ⟨ev', hev', hq⟩ := applyDefaults_ret (.release : Env a.program.EventKey)
      a.reads.defaults quiet_new
    obtain rfl : ev' = ev := Outcome.ret.inj (hev'.symm.trans hev)
    have hadd := WideEvent.addPath_eq_insert .release hkeys .null hq
    exact ⟨_, hadd, hq.insert WideEvent.stable_quiet .null _, WideEvent.content_insert hkeys _ _⟩
  · simp [MacroCall.Quiet]

end Accepted

end WideLog.Macros
