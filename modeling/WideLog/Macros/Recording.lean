import WideLog.Macros.Lifecycle

/-!
# What an event records

The event of a guard or of a scope is built, then changed by the macros that reach it,
then finished and emitted.  A recording is what was asked of one event: how it was
built, and the calls issued to it, in order.

No function outside of the crate sets a conflict callback, so neither a preset nor a
value that a macro is given brings one in.
-/

namespace WideLog.Macros

variable {p : Program}

/-- The values a macro is given have no conflict callbacks. -/
def MacroCall.Quiet : MacroCall p → Prop
  | field (.set _ value) => value.Everywhere fun ev ↦ ev.onTypeConflict = none
  | _ => True

/-- A use of a generated macro outside of the crate. -/
abbrev QuietCall (p : Program) : Type := { call : MacroCall p // call.Quiet }

/-- What a guard or scope builds its event with. -/
structure Start (p : Program) where
  preset : Option (Preset p)
  id : String
  quiet : ∀ f ∈ preset, ∀ ev : WideEvent p.EventKey, ev.Quiet → (f ev).state.Quiet

/-- How an event was built, and the calls issued to it. -/
structure Recording (p : Program) where
  start : Start p
  calls : List (QuietCall p)

/-- An append of formatted text. -/
def QuietCall.append (level : Level) (message : String) : QuietCall p :=
  ⟨.log ⟨level, .owned message⟩, trivial⟩

namespace Recording

/-- One more call. -/
def issue (r : Recording p) (call : QuietCall p) : Recording p :=
  { r with calls := r.calls ++ [call] }

/-- The run of a guard with these calls. -/
def run (r : Recording p) (env : Env p.EventKey) (elapsed : String → F64) (now : String) :
    GuardRun p :=
  ⟨env, r.start.preset, r.start.id, r.calls.map Subtype.val, elapsed, now⟩

/-- The calls, one after the other. -/
def applyCalls (env : Env p.EventKey) (calls : List (QuietCall p)) (ev : WideEvent p.EventKey) :
    WideEvent p.EventKey :=
  calls.foldl (fun ev call ↦ (call.val.apply env ev).state) ev

/-- The event is what the calls have made of the one that was built. -/
def Holds (env : Env p.EventKey) (r : Recording p) (ev : WideEvent p.EventKey) : Prop :=
  ∃ ev₀, p.build env r.start.preset r.start.id = .ret ev₀ ∧ ev = applyCalls env r.calls ev₀

variable {env : Env p.EventKey} {r : Recording p} {ev : WideEvent p.EventKey}

theorem Holds.of_build {start : Start p}
    (h : p.build env start.preset start.id = .ret ev) : Holds env ⟨start, []⟩ ev :=
  ⟨ev, h, rfl⟩

theorem Holds.issue (h : r.Holds env ev) (call : QuietCall p) :
    (r.issue call).Holds env (call.val.apply env ev).state := by
  obtain ⟨ev₀, hbuild, rfl⟩ := h
  refine ⟨ev₀, hbuild, ?_⟩
  simp only [Recording.issue, applyCalls, List.foldl_append, List.foldl_cons, List.foldl_nil]

/-! ## Quiet events -/

theorem quiet_run (op : FieldOp p.EventKey)
    (hop : ∀ v, op = .set v → v.Everywhere fun ev ↦ ev.onTypeConflict = none)
    (path : List p.EventKey) (h : ev.Quiet) : (op.run env path ev).state.Quiet :=
  op.everywhere_run env WideEvent.stable_quiet (fun _ ↦ id) hop path h

/-- A call keeps an event quiet, whether or not it panics. -/
theorem quiet_apply {call : MacroCall p} (hcall : call.Quiet) (h : ev.Quiet) :
    (call.apply env ev).state.Quiet := by
  cases call with
  | log call =>
      obtain ⟨level, message⟩ := call
      cases message <;> exact .mk h.here fun _ hv ↦ h.values hv
  | field call =>
      have hop : ∀ v, call.op = .set v → v.Everywhere fun ev ↦ ev.onTypeConflict = none := by
        intro v hv
        cases call with
        | set path value =>
            cases hv
            exact hcall
        | null path =>
            cases hv
            exact .null
        | _ => cases hv
      show (call.apply env ev).state.Quiet
      unfold FieldCall.apply
      split
      · exact quiet_run _ hop _ h
      · exact h

theorem quiet_applyCalls (calls : List (QuietCall p)) (h : ev.Quiet) :
    (applyCalls env calls ev).Quiet := by
  induction calls generalizing ev with
  | nil => exact h
  | cons call calls ih => exact ih (quiet_apply call.property h)

theorem quiet_applyDefaults (defaults : List (List p.EventKey × DefaultValue)) (h : ev.Quiet) :
    (applyDefaults env defaults ev).state.Quiet := by
  induction defaults generalizing ev with
  | nil => exact h
  | cons d defaults ih =>
      obtain ⟨path, value⟩ := d
      refine Outcome.state_bind ?_ fun ev hev ↦ ih hev
      refine quiet_run (.set (p.defaultValue value)) ?_ path h
      rintro v ⟨⟩
      exact Accepted.everywhere_defaultValue value

/-- What is built is quiet. -/
theorem quiet_build (start : Start p) : (p.build env start.preset start.id).state.Quiet := by
  unfold Program.build
  refine Outcome.state_bind (Outcome.state_bind ?_ ?_) ?_
  · exact quiet_applyDefaults _ Accepted.quiet_new
  · intro ev hev
    cases hpreset : start.preset with
    | none => exact hev
    | some f => exact start.quiet f hpreset ev hev
  · intro ev hev
    refine quiet_run (.set (.str start.id)) ?_ Key.idPath hev
    rintro v ⟨⟩
    exact .str _

theorem Holds.quiet (h : r.Holds env ev) : ev.Quiet := by
  obtain ⟨ev₀, hbuild, rfl⟩ := h
  have hquiet : (p.build env r.start.preset r.start.id).state.Quiet := quiet_build r.start
  rw [hbuild] at hquiet
  exact quiet_applyCalls r.calls hquiet

end Recording

/-! ## The end of an event -/

variable {tc : Toolchain} {input : List TokenTree}

/-- The paths that a drop writes to have a key. -/
theorem Accepted.dropPaths_ne_nil (a : Accepted tc input) :
    (Key.durationPath : List a.program.EventKey) ≠ [] ∧
      (Key.timestampPath : List a.program.EventKey) ≠ [] := by
  obtain ⟨entries, hroot, hd⟩ := a.exists_entries
  obtain ⟨dur, hfields⟩ := a.resolvedFields
  constructor
  · intro hnil
    have hsegments : a.ctx.durationSegments = [] := by rw [← a.reads.durationPath, hnil]; rfl
    rw [hroot] at hfields hd
    exact hfields.duration_not_above hd (hsegments ▸ List.nil_prefix)
  · intro hnil
    have hsegments : a.ctx.timestampSegments = [] := by rw [← a.reads.timestampPath, hnil]; rfl
    rw [hfields.timestampSegments] at hsegments
    cases hsegments

/-- A guard that is dropped gets as far as emitting its event, and that is the event of
its run. -/
theorem Recording.Holds.emit (a : Accepted tc input) {env : Env a.program.EventKey}
    {r : Recording a.program} {ev : WideEvent a.program.EventKey} (h : r.Holds env ev)
    (elapsed : String → F64) (now : String) :
    ∃ ev', ev.dropWrites env elapsed now = .ret ev' ∧ (r.run env elapsed now).event = .ret ev' := by
  obtain ⟨hdur, hts⟩ := a.dropPaths_ne_nil
  obtain ⟨x, n, hdrop⟩ := WideEvent.dropWrites_eq env elapsed now hdur hts h.quiet
  refine ⟨_, hdrop, ?_⟩
  obtain ⟨ev₀, hbuild, rfl⟩ := h
  have hcalls : (r.run env elapsed now).afterCalls ev₀ = Recording.applyCalls env r.calls ev₀ :=
    List.foldl_map
  show (a.program.build env r.start.preset r.start.id).bind _ = _
  rw [hbuild, Outcome.bind_ret, hcalls]
  exact hdrop

end WideLog.Macros
