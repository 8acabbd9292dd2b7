import WideLog.Core.CounterRuns
import WideLog.Core.Guard
import WideLog.Lib.Leaves

/-!
# What an event says

An event exists to say something: it gives some fields their values, and it has log
entries.  `Content` is that and no more, neither how the slots are laid out nor which
objects were created on the way.  An operation on an event changes its content in a
way that is described without the event: it grafts a value at its path, or leaves the
content alone if it panics.
-/

namespace WideLog

variable {K : Type}

/-- The value of a field: what is no object. -/
def leafOf (v : Option (Value K)) : Option (Value K) := v.filter fun v ↦ !v.isObject

@[simp] theorem leafOf_none : leafOf (none : Option (Value K)) = none := rfl

@[simp] theorem leafOf_object (ev : WideEvent K) : leafOf (some (.object ev)) = none := rfl

/-- The fields and the log entries of an event. -/
@[ext] structure Content (K : Type) where
  fields : Leaves K (Value K)
  log : List LogEntry

/-- What is asked of an event: an operation at a path, or a log entry. -/
inductive Edit (K : Type) where
  | field (op : FieldOp K) (path : List K)
  | log (entry : LogEntry)

section

variable [Key K]

namespace WideEvent

/-- The fields of an event: what is read and is no object. -/
def leaves (ev : WideEvent K) : Leaves K (Value K) := fun p ↦ leafOf (ev.read p)

/-- What an event says. -/
def content (ev : WideEvent K) : Content K := ⟨ev.leaves, ev.logEntries⟩

end WideEvent

/-- The fields of a value: those of an object, or the value itself. -/
def Value.leaves (v : Value K) : Leaves K (Value K)
  | [] => leafOf (some v)
  | k :: ks => match v with
    | .object ev => ev.leaves (k :: ks)
    | _ => none

/-- What an operation writes, from the fields of the content: nothing at the empty path,
and nothing if it panics. -/
def FieldOp.written (env : Env K) (op : FieldOp K) (p : List K) (r : Content K) :
    Option (Value K) :=
  if p.isEmpty then none else op.newVal env (r.fields p)

namespace Content

/-- The content that says nothing. -/
def empty : Content K := ⟨fun _ ↦ none, []⟩

/-- A value at a path. -/
noncomputable def write (p : List K) (v : Value K) (r : Content K) : Content K :=
  { r with fields := r.fields.graft p v.leaves }

/-- What an edit makes of a content. -/
noncomputable def edit (env : Env K) (r : Content K) : Edit K → Content K
  | .field op p => match op.written env p r with
    | some v => r.write p v
    | none => r
  | .log entry => { r with log := r.log ++ [entry] }

end Content

/-- An edit of an event. -/
def Edit.run (env : Env K) : Edit K → WideEvent K → Outcome (WideEvent K)
  | .field op p, ev => op.run env p ev
  | .log entry, ev => .ret { ev with logEntries := ev.logEntries ++ [entry] }

variable (env : Env K)

/-! ## An insertion is a graft -/

namespace WideEvent

/-- What is found at a path and below it are the fields of one value. -/
theorem leaves_append {p : List K} (hp : p ≠ []) (q : List K) (ev : WideEvent K) :
    ev.leaves (p ++ q) = (ev.read p).bind (·.leaves q) := by
  cases q with
  | nil =>
      rw [List.append_nil, leaves]
      cases ev.read p <;> rfl
  | cons l ls =>
      induction p generalizing ev with
      | nil => exact absurd rfl hp
      | cons k ks ih =>
          have hne : ks ++ l :: ls ≠ [] := by simp
          have hchild : ev.leaves (k :: ks ++ l :: ls) =
              (ev.childAt (Key.asIndex k)).leaves (ks ++ l :: ls) :=
            congrArg leafOf (read_cons hne ev)
          rw [hchild]
          by_cases hks : ks = []
          · subst hks
            rw [List.nil_append, read_singleton]
            rcases ev.childAt_cases (Key.asIndex k) with ⟨child, hs, hc⟩ | ⟨hs, hc⟩
            · rw [hc, hs]
              rfl
            · rw [hc, leaves, read_newChild]
              cases hslot : ev.slot (Key.asIndex k) with
              | none => rfl
              | some v =>
                  cases v with
                  | object child => exact absurd hslot (hs child)
                  | _ => rfl
          · rw [read_cons hks]
            exact ih hks _

/-- The fields of an event after an insertion. -/
theorem leaves_insert {p : List K} (hp : p ≠ []) (v : Value K) (ev : WideEvent K) :
    (ev.insert p v).leaves = ev.leaves.graft p v.leaves := by
  apply Leaves.eq_graft
  · funext q
    rw [Leaves.below, leaves_append hp, read_insert_self hp, Option.bind_some]
  · intro q hqp hne
    by_cases hq : q = []
    · subst hq
      rfl
    · obtain ⟨child, hread⟩ := read_insert_above hq hqp hne v ev
      rw [leaves, hread, leafOf_object]
  · intro q h
    rw [leaves, leaves, read_insert_beside h]

theorem logEntries_insert (p : List K) (v : Value K) (ev : WideEvent K) :
    (ev.insert p v).logEntries = ev.logEntries := by
  cases p with
  | nil => rfl
  | cons k ks =>
      obtain ⟨w, hw⟩ := insert_eq_put k ks v ev
      rw [hw, logEntries_put]

theorem content_insert {p : List K} (hp : p ≠ []) (v : Value K) (ev : WideEvent K) :
    (ev.insert p v).content = ev.content.write p v :=
  Content.ext (leaves_insert hp v ev) (logEntries_insert p v ev)

/-- The fields of an event are in its slots. -/
theorem leaves_congr {a b : WideEvent K} (h : a.values = b.values) : a.leaves = b.leaves := by
  have hslot (i : ℕ) : a.slot i = b.slot i := by rw [slot, slot, h]
  funext p
  unfold leaves
  cases p with
  | nil => rfl
  | cons k ks =>
      cases ks with
      | nil => rw [read_singleton, read_singleton, hslot]
      | cons l ks => simp only [read, hslot]

/-- A descent whose slot mutator panics at a slot that is present touches nothing. -/
theorem descendLoop_none {newVal : Option (Value K) → Option (Value K)} {v : Value K}
    (path : List K) (key : K) {ev : WideEvent K} (hq : ev.QuietAlong (path ++ [key]))
    (hread : ev.read (path ++ [key]) = some v) (hv : newVal (some v) = none) :
    descendLoop env path (update newVal key) ev = .panic ev := by
  induction path generalizing ev with
  | nil =>
      rw [List.nil_append, read_singleton] at hread
      have hlen : Key.asIndex key < ev.values.length :=
        (List.getElem?_eq_some_iff.mp (Option.join_eq_some_iff.mp hread)).1
      rw [descendLoop, update_eq, hread, hv]
      exact congrArg Outcome.panic (if_neg (Nat.not_le.mpr hlen))
  | cons k ks ih =>
      have hks : ks ++ [key] ≠ [] := by simp
      rw [List.cons_append, read_cons hks] at hread
      rw [descendLoop, object_eq env hq.1, ih hq.2 hread, Outcome.map_panic]
      rcases ev.childAt_cases (Key.asIndex k) with ⟨child, hs, hc⟩ | ⟨-, hc⟩
      · rw [hc, put_of_slot hs]
      · rw [hc, read_newChild] at hread
        cases hread

end WideEvent

/-! ## What an operation does -/

namespace FieldOp

omit [Key K] in
/-- An operation starts afresh in a slot that is empty. -/
theorem isSome_newVal_none (op : FieldOp K) : (op.newVal env none).isSome := by
  cases op <;> rfl

omit [Key K] in
/-- An operation treats an object like an empty slot. -/
theorem newVal_leafOf (op : FieldOp K) (old : Option (Value K)) :
    op.newVal env (leafOf old) = op.newVal env old := by
  rcases old with _ | v
  · rfl
  · cases v with
    | object ev => cases op <;> rfl
    | _ => rfl

/-- **What an operation does, in every case**: it inserts the value it computes, or it
panics and leaves the event as it is. -/
theorem run_eq (op : FieldOp K) (p : List K) {ev : WideEvent K} (hq : ev.QuietAlong p) :
    op.run env p ev = ((op.written env p ev.content).map fun v ↦ .ret (ev.insert p v)).getD
      (.panic ev) := by
  rcases List.eq_nil_or_concat' p with rfl | ⟨path, key, rfl⟩
  · rw [run_eq_atPath, WideEvent.atPath_nil]
    rfl
  · have hwritten : op.written env (path ++ [key]) ev.content =
        op.newVal env (ev.read (path ++ [key])) := by
      rw [written, if_neg (by simp)]
      exact op.newVal_leafOf env _
    rw [run_eq_atPath, WideEvent.atPath_concat, atKey_eq_update, hwritten]
    cases hv : op.newVal env (ev.read (path ++ [key])) with
    | some v => exact WideEvent.descendLoop_update env path key hq hv
    | none =>
        cases hread : ev.read (path ++ [key]) with
        | none =>
            have hsome := op.isSome_newVal_none env
            rw [← hread, hv] at hsome
            cases hsome
        | some v =>
            rw [hread] at hv
            exact WideEvent.descendLoop_none env path key hq hread hv

end FieldOp

/-! ## Edits refine the content -/

namespace Edit

/-- An edit that brings in no conflict callback. -/
def Quiet : Edit K → Prop
  | .field (.set v) _ => v.Everywhere fun ev ↦ ev.onTypeConflict = none
  | _ => True

variable {env} {ev : WideEvent K}

theorem quiet_run {e : Edit K} (he : e.Quiet) (hq : ev.Quiet) : (e.run env ev).state.Quiet := by
  cases e with
  | field op p =>
      refine op.everywhere_run env WideEvent.stable_quiet (fun _ ↦ id) ?_ p hq
      rintro v rfl
      exact he
  | log entry => exact .mk hq.here fun _ hv ↦ hq.values hv

/-- An edit changes what an event says as it changes the content. -/
theorem content_run (e : Edit K) (hq : ev.Quiet) :
    (e.run env ev).state.content = ev.content.edit env e := by
  cases e with
  | field op p =>
      rw [run, op.run_eq env p (hq.quietAlong p), Content.edit]
      cases hw : op.written env p ev.content with
      | none => rfl
      | some v =>
          have hp : p ≠ [] := by
            rintro rfl
            cases hw
          exact WideEvent.content_insert hp v ev
  | log entry => exact Content.ext (WideEvent.leaves_congr rfl) rfl

/-- Edits one after the other.  A panic is caught, so a run goes on from the event it
leaves. -/
def runAll (env : Env K) (es : List (Edit K)) (ev : WideEvent K) : WideEvent K :=
  es.foldl (fun ev e ↦ (e.run env ev).state) ev

theorem quiet_runAll {es : List (Edit K)} (hes : ∀ e ∈ es, e.Quiet) (hq : ev.Quiet) :
    (runAll env es ev).Quiet := by
  induction es generalizing ev with
  | nil => exact hq
  | cons e es ih =>
      rw [List.forall_mem_cons] at hes
      exact ih hes.2 (quiet_run hes.1 hq)

/-- A run of edits changes what an event says as it changes the content. -/
theorem content_runAll {es : List (Edit K)} (hes : ∀ e ∈ es, e.Quiet) (hq : ev.Quiet) :
    (runAll env es ev).content = es.foldl (Content.edit env) ev.content := by
  induction es generalizing ev with
  | nil => rfl
  | cons e es ih =>
      rw [List.forall_mem_cons] at hes
      rw [List.foldl_cons, ← content_run e hq]
      exact ih hes.2 (quiet_run hes.1 hq)

/-! ## Edits that do not meet -/

/-- Edits of different fields, neither above the other, or of a field and the log.  An
operation at the empty path touches nothing. -/
def Apart : Edit K → Edit K → Prop
  | .field _ p, .field _ q => p = [] ∨ q = [] ∨ Incomparable p q
  | .log _, .log _ => False
  | _, _ => True

theorem run_nil (op : FieldOp K) (ev : WideEvent K) :
    (Edit.field op []).run env ev = .panic ev := by
  rw [run, FieldOp.run_eq_atPath, WideEvent.atPath_nil]

theorem state_run_field (op : FieldOp K) (p : List K) (hq : ev.Quiet) :
    ((Edit.field op p).run env ev).state =
      ((op.written env p ev.content).map fun v ↦ ev.insert p v).getD ev := by
  rw [run, op.run_eq env p (hq.quietAlong p)]
  cases op.written env p ev.content <;> rfl

/-- What is done at `p` is not seen at an incomparable path. -/
theorem written_run_beside {p q : List K} (h : Incomparable p q) (op op' : FieldOp K)
    (hq : ev.Quiet) :
    op'.written env q ((Edit.field op p).run env ev).state.content =
      op'.written env q ev.content := by
  rw [state_run_field op p hq]
  cases op.written env p ev.content with
  | none => rfl
  | some v =>
      have hread : (ev.insert p v).content.fields q = ev.content.fields q := by
        rw [WideEvent.content_insert h.ne_nil_left]
        exact Leaves.graft_beside h
      rw [Option.map_some, Option.getD_some, FieldOp.written, FieldOp.written, hread]

/-- An entry does not depend on the slots, nor an insertion on the entries. -/
theorem insert_withLog (p : List K) (v : Value K) (ev : WideEvent K) (entries : List LogEntry) :
    WideEvent.insert p v { ev with logEntries := entries } =
      { ev.insert p v with logEntries := entries } := by
  cases p with
  | nil => rfl
  | cons k ks =>
      have hchild : WideEvent.childAt (Key.asIndex k) { ev with logEntries := entries } =
          ev.childAt (Key.asIndex k) := WideEvent.childAt_congr rfl rfl
      have hput (w : Value K) :
          WideEvent.put (Key.asIndex k) w { ev with logEntries := entries } =
            { ev.put (Key.asIndex k) w with logEntries := entries } := by
        unfold WideEvent.put WideEvent.ensureCapacity
        dsimp only
        split_ifs <;> rfl
      by_cases hks : ks = []
      · subst hks
        exact hput v
      · rw [WideEvent.insert_cons hks, WideEvent.insert_cons hks, hchild, hput]

theorem run_comm_field_log (op : FieldOp K) (p : List K) (entry : LogEntry) (hq : ev.Quiet) :
    ((Edit.log entry).run env ((Edit.field op p).run env ev).state).state =
      ((Edit.field op p).run env ((Edit.log entry).run env ev).state).state := by
  have hq' : ((Edit.log entry).run env ev).state.Quiet := quiet_run (e := .log entry) trivial hq
  have hwritten : op.written env p ((Edit.log entry).run env ev).state.content =
      op.written env p ev.content := by
    rw [content_run (.log entry) hq]
    rfl
  rw [state_run_field op p hq, state_run_field op p hq', hwritten]
  cases op.written env p ev.content with
  | none => rfl
  | some v =>
      have hlog : (ev.insert p v).logEntries = ev.logEntries := ev.logEntries_insert p v
      simp only [run, Outcome.state_ret, Option.map_some, Option.getD_some, hlog]
      exact (insert_withLog p v ev _).symm

theorem run_comm_field {p q : List K} (h : Incomparable p q) (op op' : FieldOp K)
    (hq : ev.Quiet) (hq₁ : ((Edit.field op p).run env ev).state.Quiet)
    (hq₂ : ((Edit.field op' q).run env ev).state.Quiet) :
    ((Edit.field op' q).run env ((Edit.field op p).run env ev).state).state =
      ((Edit.field op p).run env ((Edit.field op' q).run env ev).state).state := by
  rw [state_run_field op' q hq₁, state_run_field op p hq₂, written_run_beside h op op' hq,
    written_run_beside h.symm op' op hq, state_run_field op p hq, state_run_field op' q hq]
  cases op.written env p ev.content with
  | none => rfl
  | some v =>
      cases op'.written env q ev.content with
      | none => rfl
      | some w => exact WideEvent.insert_comm h v w ev

/-- Edits that do not meet can be made in either order. -/
theorem run_comm {e e' : Edit K} (h : e.Apart e') (he : e.Quiet) (he' : e'.Quiet)
    (hq : ev.Quiet) :
    (e'.run env (e.run env ev).state).state = (e.run env (e'.run env ev).state).state := by
  cases e with
  | log entry =>
      cases e' with
      | log entry' => exact h.elim
      | field op q => exact (run_comm_field_log op q entry hq).symm
  | field op p =>
      cases e' with
      | log entry => exact run_comm_field_log op p entry hq
      | field op' q =>
          rcases h with rfl | rfl | h
          · rw [run_nil, run_nil, Outcome.state_panic, Outcome.state_panic]
          · rw [run_nil, run_nil, Outcome.state_panic, Outcome.state_panic]
          · exact run_comm_field h op op' hq (quiet_run he hq) (quiet_run he' hq)

end Edit

end

end WideLog
