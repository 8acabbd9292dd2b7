import WideLog.Context
import WideLog.Hooks.Registry
import WideLog.Macros.Recording
import Mathlib.Data.List.Forall2
import Mathlib.Logic.Function.Basic

/-!
# Guards of many crates

Any number of schema crates share one thread, on which no task scope is active.  Each
has a cell for its current event, and they all share one stack of hooks.  A macro a
crate generated finds its event through the cell of the crate; a macro of the crate
root takes the last hook, which looks into the cell of the crate it belongs to.

Guards are dropped in the reverse order of their building.  A drop restores the cell
and pops the hook, and only then finishes the event and runs the emit closure, so
whatever the closure does comes after the drop, and before its end.
-/

namespace WideLog

open Macros

/-- The schema crates of a program, and how they were compiled. -/
structure Crates (S : Type) where
  tc : Toolchain
  input : S → List TokenTree
  accepted : ∀ s, Accepted tc (input s)
  env : ∀ s, Env (accepted s).program.EventKey

namespace Crates

variable {S : Type} (c : Crates S)

/-- The generated code of a crate. -/
abbrev program (s : S) : Program := (c.accepted s).program

/-- The events of a crate. -/
abbrev Event (s : S) : Type := WideEvent (c.program s).EventKey

/-- Memory: the events that pointers of the crates' types point to. -/
abbrev Heap : Type := (s : S) → Nat → Option (c.Event s)

end Crates

/-- A guard: its pointers, and the schema whose hook it installed. -/
structure CrateGuard (S : Type) extends WideLogGuard Nat where
  schema : S
deriving DecidableEq

/-- A thread on which guards of the crates live.  The guards that are live, and those
whose emit closure is running, are listed from the latest. -/
structure CrateThread {S : Type} (c : Crates S) where
  currentEvent : S → ContextCell Nat
  logHooks : HookStack S
  guards : List (CrateGuard S)
  emitting : List (CrateGuard S)
  heap : c.Heap
  emitted : List (Σ s, c.Event s)
  allocated : Nat

/-- What a thread does with guards and macros. -/
inductive CrateOp {S : Type} (c : Crates S) where
  | build (s : S) (start : Start (c.program s))
  | call (s : S) (call : QuietCall (c.program s))
  | log (level : Level) (message : String)
  | drop (elapsed : String → F64) (now : String)
  | emitted

/-- The operation builds a guard. -/
def CrateOp.isBuild {S : Type} {c : Crates S} : CrateOp c → Bool
  | .build _ _ => true
  | _ => false

namespace CrateThread

variable {S : Type} {c : Crates S}

/-- A thread before its first guard. -/
def new : CrateThread c := ⟨fun _ ↦ .new, .thread, [], [], fun _ _ ↦ none, [], 0⟩

/-- `current()` of a crate. -/
def current (t : CrateThread c) (s : S) : Option Nat := (t.currentEvent s).getPtr

variable [DecidableEq S]

/-- Memory after a write through a pointer. -/
def write (s : S) (ptr : Nat) (ev : Option (c.Event s)) (heap : c.Heap) : c.Heap :=
  Function.update heap s (Function.update (heap s) ptr ev)

/-- A change of the event a pointer points to. -/
def modify (s : S) (ptr : Nat) (f : c.Event s → c.Event s) (heap : c.Heap) : c.Heap :=
  write s ptr ((heap s ptr).map f) heap

/-- `WideLogGuardBuilder::build`, from the event it has set up. -/
def build (s : S) (ev : c.Event s) (t : CrateThread c) : CrateThread c :=
  let ptr := t.allocated
  let (cell, prev) := (t.currentEvent s).replace (some ptr)
  { t with
    currentEvent := Function.update t.currentEvent s cell
    logHooks := t.logHooks.push ⟨s, ptr⟩
    guards := ⟨⟨ptr, prev⟩, s⟩ :: t.guards
    heap := write s ptr (some ev) t.heap
    allocated := ptr + 1 }

/-- A macro that the crate generated, on the event `current()` returns. -/
def call (s : S) (f : c.Event s → c.Event s) (t : CrateThread c) : CrateThread c :=
  match t.current s with
  | some ptr => { t with heap := modify s ptr f t.heap }
  | none => t

/-- `append_log_entry` of the crate root: the last hook appends to the event of its
crate. -/
def appendLogEntry (level message : String) (t : CrateThread c) : CrateThread c :=
  match t.logHooks.hooks.head? with
  | some hook => t.call hook.schema fun ev ↦ ev.appendLogEntry level message
  | none => t

/-- `pop_log_hook`; a hook that is not found leaves the stack as it is. -/
def popLogHook (schema : S) (t : CrateThread c) : CrateThread c :=
  { t with logHooks := (t.logHooks.removeHook schema).getD t.logHooks }

/-- `Drop for ScopedGuard`, up to the call of the emit closure: a panic on the way
leaves the event unemitted. -/
def finish (g : CrateGuard S) (elapsed : String → F64) (now : String) (t : CrateThread c) :
    CrateThread c :=
  match t.heap g.schema g.inner with
  | some ev => match ev.dropWrites (c.env g.schema) elapsed now with
    | .ret ev =>
      { t with
        heap := write g.schema g.inner (some ev) t.heap
        emitting := g :: t.emitting
        emitted := t.emitted ++ [⟨g.schema, ev⟩] }
    | .panic _ => { t with heap := write g.schema g.inner none t.heap }
  | none => t

/-- `Drop for WideLogGuard`, from the cell it leaves, and the drop of its fields. -/
def drop (g : CrateGuard S) (cell : ContextCell Nat) (elapsed : String → F64) (now : String)
    (t : CrateThread c) : CrateThread c :=
  let t := { t with currentEvent := Function.update t.currentEvent g.schema cell }
  (t.popLogHook g.schema).finish g elapsed now

/-- The steps of a thread on which the guard built last is dropped first. -/
inductive Step (debugAssertions : Bool) : CrateThread c → CrateOp c → CrateThread c → Prop where
  | build {t : CrateThread c} {s : S} {start : Start (c.program s)} {ev : c.Event s} :
      (c.program s).build (c.env s) start.preset start.id = .ret ev →
      Step debugAssertions t (.build s start) (t.build s ev)
  | call (t : CrateThread c) (s : S) (call : QuietCall (c.program s)) :
      Step debugAssertions t (.call s call)
        (t.call s fun ev ↦ (call.val.apply (c.env s) ev).state)
  | log (t : CrateThread c) (level : Level) (message : String) :
      Step debugAssertions t (.log level message) (t.appendLogEntry level.asStr message)
  | drop {t : CrateThread c} {g : CrateGuard S} {gs : List (CrateGuard S)}
      {cell : ContextCell Nat} (elapsed : String → F64) (now : String) :
      t.guards = g :: gs →
      g.toWideLogGuard.drop debugAssertions (t.currentEvent g.schema) = .ret cell →
      Step debugAssertions t (.drop elapsed now)
        ({ t with guards := gs }.drop g cell elapsed now)
  | emitted {t : CrateThread c} {g : CrateGuard S} {gs : List (CrateGuard S)} :
      t.emitting = g :: gs →
      Step debugAssertions t .emitted
        { t with emitting := gs, heap := write g.schema g.inner none t.heap }

end CrateThread

/-! ## Nested recordings -/

/-- What nested guards record: the live ones, the latest first, and what was emitted. -/
structure Nesting {S : Type} (c : Crates S) where
  live : List (Σ s, Recording (c.program s))
  emitted : List (Σ s, GuardRun (c.program s))

namespace Nesting

variable {S : Type} {c : Crates S} [DecidableEq S]

/-- A call of a macro of a crate goes to the innermost guard of the crate. -/
def issueTo (s : S) (call : QuietCall (c.program s)) :
    List (Σ s, Recording (c.program s)) → List (Σ s, Recording (c.program s))
  | [] => []
  | r :: rs => if h : r.1 = s then ⟨r.1, r.2.issue (h ▸ call)⟩ :: rs else r :: issueTo s call rs

/-- What an operation adds to the recordings. -/
def step (n : Nesting c) : CrateOp c → Nesting c
  | .build s start => { n with live := ⟨s, start, []⟩ :: n.live }
  | .call s call => { n with live := issueTo s call n.live }
  | .log level message => match n.live with
    | r :: rs => { n with live := ⟨r.1, r.2.issue (.append level message)⟩ :: rs }
    | [] => n
  | .drop elapsed now => match n.live with
    | r :: rs => ⟨rs, n.emitted ++ [⟨r.1, r.2.run (c.env r.1) elapsed now⟩]⟩
    | [] => n
  | .emitted => n

/-- The recordings after a sequence of operations. -/
def after (ops : List (CrateOp c)) : Nesting c := ops.foldl step ⟨[], []⟩

theorem length_issueTo (s : S) (call : QuietCall (c.program s))
    (rs : List (Σ s, Recording (c.program s))) : (issueTo s call rs).length = rs.length := by
  induction rs with
  | nil => rfl
  | cons r rs ih =>
      unfold issueTo
      split
      · rfl
      · exact congrArg Nat.succ ih

/-- The number of guards there have been. -/
def size (n : Nesting c) : Nat := n.live.length + n.emitted.length

theorem size_step (n : Nesting c) (op : CrateOp c) :
    (n.step op).size = n.size + if op.isBuild then 1 else 0 := by
  obtain ⟨live, emitted⟩ := n
  cases op with
  | build s start => exact Nat.add_right_comm live.length 1 emitted.length
  | call s call => exact congrArg (· + emitted.length) (length_issueTo s call live)
  | log level message => cases live <;> rfl
  | drop elapsed now =>
      cases live with
      | nil => rfl
      | cons r rs =>
          show rs.length + (emitted ++ [_]).length = (rs.length + 1) + emitted.length + 0
          rw [List.length_append, List.length_singleton]
          omega
  | emitted => rfl

/-- Every guard that was built is live, or its event was emitted. -/
theorem size_foldl (n : Nesting c) (ops : List (CrateOp c)) :
    (ops.foldl step n).size = n.size + ops.countP CrateOp.isBuild := by
  induction ops generalizing n with
  | nil => rfl
  | cons op ops ih =>
      rw [List.foldl_cons, ih, size_step, List.countP_cons]
      omega

end Nesting

namespace CrateThread

variable {S : Type} {c : Crates S}

/-! ## The simulation -/

/-- The event of a guard is what its recording says. -/
def Tracks (heap : c.Heap) (g : CrateGuard S) (r : Σ s, Recording (c.program s)) : Prop :=
  g.schema = r.1 ∧ ∃ ev, heap r.1 g.inner = some ev ∧ r.2.Holds (c.env r.1) ev

/-- An emitted event is that of its run. -/
def Emits (e : Σ s, c.Event s) (r : Σ s, GuardRun (c.program s)) : Prop :=
  r.2.event.map (Sigma.mk r.1) = .ret e

/-- The live guards of a crate, the latest first. -/
def guardsOf [DecidableEq S] (t : CrateThread c) (s : S) : List (CrateGuard S) :=
  t.guards.filter (·.schema = s)

variable [DecidableEq S]

/-- The cells and the hook stack follow the live guards, which hold what is recorded. -/
structure Simulates (t : CrateThread c) (n : Nesting c) : Prop where
  hooks : t.logHooks.hooks = t.guards.map fun g ↦ ⟨g.schema, g.inner⟩
  cells : ∀ s, Thread.Stacked (t.currentEvent s).ptr
    ((t.guardsOf s).map CrateGuard.toWideLogGuard)
  lt : ∀ g ∈ t.guards ++ t.emitting, g.inner < t.allocated
  nodup : ((t.guards ++ t.emitting).map fun g ↦ g.inner).Nodup
  live : List.Forall₂ (Tracks t.heap) t.guards n.live
  emitted : List.Forall₂ Emits t.emitted n.emitted

variable {t t' : CrateThread c} {n : Nesting c} {op : CrateOp c} {debugAssertions : Bool}

theorem simulates_new : (new : CrateThread c).Simulates ⟨[], []⟩ where
  hooks := rfl
  cells _ := rfl
  lt _ hg := nomatch hg
  nodup := List.nodup_nil
  live := .nil
  emitted := .nil

/-! ### Memory -/

theorem write_self (s : S) (ptr : Nat) (ev : Option (c.Event s)) (heap : c.Heap) :
    write s ptr ev heap s ptr = ev := by
  simp [write]

theorem write_of_ne {ptr ptr' : Nat} (h : ptr' ≠ ptr) (s s' : S) (ev : Option (c.Event s))
    (heap : c.Heap) : write s ptr ev heap s' ptr' = heap s' ptr' := by
  unfold write
  by_cases hs : s' = s
  · subst hs
    rw [Function.update_self, Function.update_of_ne h]
  · rw [Function.update_of_ne hs]

/-- A write through a pointer that no guard of a list has. -/
theorem forall₂_tracks_write {gs : List (CrateGuard S)} {rs : List (Σ s, Recording (c.program s))}
    {heap : c.Heap} (h : List.Forall₂ (Tracks heap) gs rs) {s : S} {ptr : Nat}
    {ev : Option (c.Event s)} (hptr : ∀ g ∈ gs, g.inner ≠ ptr) :
    List.Forall₂ (Tracks (write s ptr ev heap)) gs rs := by
  induction h with
  | nil => exact .nil
  | cons hr _ ih =>
      rw [List.forall_mem_cons] at hptr
      obtain ⟨hschema, ev', hev', hholds⟩ := hr
      exact .cons ⟨hschema, ev', by rw [write_of_ne hptr.1, hev'], hholds⟩ (ih hptr.2)

/-! ### Routing -/

/-- `current()` of a crate is the event of its innermost live guard. -/
theorem Simulates.current_eq (h : t.Simulates n) (s : S) :
    t.current s = (t.guards.find? (·.schema = s)).map fun g ↦ g.inner := by
  have hcell := h.cells s
  rw [← List.head?_filter]
  show (t.currentEvent s).ptr = (t.guardsOf s).head?.map _
  cases hguards : t.guardsOf s with
  | nil =>
      rw [hguards] at hcell
      exact hcell
  | cons g gs =>
      rw [hguards] at hcell
      exact hcell.1

/-- Without a guard of the crate, a call is recorded nowhere. -/
theorem issueTo_of_find?_eq_none {gs : List (CrateGuard S)}
    {rs : List (Σ s, Recording (c.program s))} {heap : c.Heap}
    (h : List.Forall₂ (Tracks heap) gs rs) {s : S} (hfind : gs.find? (·.schema = s) = none)
    (call : QuietCall (c.program s)) : Nesting.issueTo s call rs = rs := by
  induction h with
  | nil => rfl
  | @cons g r gs rs hr _ ih =>
      have hne : g.schema ≠ s := by
        have := List.find?_eq_none.mp hfind g List.mem_cons_self
        simpa using this
      rw [List.find?_cons_of_neg (by simpa using hne)] at hfind
      rw [Nesting.issueTo, dif_neg (hr.1 ▸ hne), ih hfind]

/-- A call changes the event of the innermost guard of the crate, and is recorded there. -/
theorem tracks_issueTo {gs : List (CrateGuard S)} {rs : List (Σ s, Recording (c.program s))}
    {heap : c.Heap} (h : List.Forall₂ (Tracks heap) gs rs)
    (hnodup : (gs.map fun g ↦ g.inner).Nodup) {s : S} {g : CrateGuard S}
    (hfind : gs.find? (·.schema = s) = some g) (call : QuietCall (c.program s)) :
    List.Forall₂ (Tracks (modify s g.inner (fun ev ↦ (call.val.apply (c.env s) ev).state) heap))
      gs (Nesting.issueTo s call rs) := by
  induction h with
  | nil => cases hfind
  | @cons hd r gs rs hr hrs ih =>
      rw [List.map_cons, List.nodup_cons] at hnodup
      obtain ⟨hschema, ev, hev, hholds⟩ := hr
      have hapart : ∀ g' ∈ gs, g'.inner ≠ hd.inner :=
        fun g' hg' heq ↦ hnodup.1 (List.mem_map.mpr ⟨g', hg', heq⟩)
      unfold Nesting.issueTo
      by_cases hs : r.1 = s
      · subst hs
        rw [List.find?_cons_of_pos (by simpa using hschema)] at hfind
        cases hfind
        rw [dif_pos rfl]
        refine .cons ⟨hschema, _, ?_, hholds.issue call⟩ (forall₂_tracks_write hrs hapart)
        rw [modify, write_self, hev]
        rfl
      · rw [List.find?_cons_of_neg (by simpa [hschema] using hs)] at hfind
        rw [dif_neg hs]
        refine .cons ⟨hschema, ev, ?_, hholds⟩ (ih hnodup.2 hfind)
        rw [modify, write_of_ne (Ne.symm (hapart g (List.mem_of_find?_eq_some hfind))), hev]

theorem Simulates.nodup_guards (h : t.Simulates n) :
    (t.guards.map fun g ↦ g.inner).Nodup := by
  have hnodup := h.nodup
  rw [List.map_append] at hnodup
  exact hnodup.of_append_left

/-- A macro of a crate. -/
theorem Simulates.call (h : t.Simulates n) (s : S) (call : QuietCall (c.program s)) :
    (t.call s fun ev ↦ (call.val.apply (c.env s) ev).state).Simulates (n.step (.call s call)) := by
  have hcurrent := h.current_eq s
  unfold CrateThread.call Nesting.step
  rw [hcurrent]
  cases hfind : t.guards.find? (·.schema = s) with
  | none =>
      simp only [Option.map_none]
      rw [issueTo_of_find?_eq_none h.live hfind]
      exact h
  | some g =>
      exact ⟨h.hooks, h.cells, h.lt, h.nodup, tracks_issueTo h.live h.nodup_guards hfind call,
        h.emitted⟩

/-- A macro of the crate root reaches the innermost guard of all. -/
theorem Simulates.log (h : t.Simulates n) (level : Level) (message : String) :
    (t.appendLogEntry level.asStr message).Simulates (n.step (.log level message)) := by
  have hhooks := h.hooks
  have hlive := h.live
  unfold CrateThread.appendLogEntry
  rw [hhooks]
  cases hguards : t.guards with
  | nil =>
      rw [hguards] at hlive
      cases hn : n.live with
      | nil =>
          have hstep : n.step (.log level message) = n := by simp only [Nesting.step, hn]
          rw [hstep]
          exact h
      | cons r rs => rw [hn] at hlive; cases hlive
  | cons g gs =>
      rw [hguards] at hlive
      cases hn : n.live with
      | nil => rw [hn] at hlive; cases hlive
      | cons r rs =>
          rw [hn] at hlive
          obtain ⟨s, r⟩ := r
          have hschema : g.schema = s := (List.forall₂_cons.mp hlive).1.1
          have hstep : n.step (.log level message) =
              n.step (.call s (.append level message)) := by
            simp only [Nesting.step, hn, Nesting.issueTo, dif_pos]
          rw [hstep]
          subst hschema
          exact h.call g.schema (.append level message)

/-! ### Building and dropping -/

theorem Simulates.build (h : t.Simulates n) {s : S} {start : Start (c.program s)} {ev : c.Event s}
    (hbuild : (c.program s).build (c.env s) start.preset start.id = .ret ev) :
    (t.build s ev).Simulates (n.step (.build s start)) := by
  have hnew : ∀ g ∈ t.guards ++ t.emitting, g.inner ≠ t.allocated :=
    fun g hg ↦ Nat.ne_of_lt (h.lt g hg)
  refine ⟨?_, ?_, ?_, ?_, ?_, h.emitted⟩
  · exact congrArg (_ :: ·) h.hooks
  · intro s'
    have hcell := h.cells s'
    show Thread.Stacked (Function.update t.currentEvent s _ s').ptr
      (((_ :: t.guards).filter _).map _)
    by_cases hs : s' = s
    · subst hs
      rw [Function.update_self, List.filter_cons_of_pos (by simp)]
      exact ⟨rfl, hcell⟩
    · rw [Function.update_of_ne hs, List.filter_cons_of_neg (by simpa using Ne.symm hs)]
      exact hcell
  · show ∀ g ∈ _ :: (t.guards ++ t.emitting), g.inner < t.allocated + 1
    rw [List.forall_mem_cons]
    exact ⟨Nat.lt_succ_self _, fun g hg ↦ Nat.lt_succ_of_lt (h.lt g hg)⟩
  · show (List.map _ (_ :: (t.guards ++ t.emitting))).Nodup
    rw [List.map_cons, List.nodup_cons]
    refine ⟨?_, h.nodup⟩
    intro hmem
    obtain ⟨g, hg, heq⟩ := List.mem_map.mp hmem
    exact hnew g hg heq
  · refine .cons ⟨rfl, ev, write_self _ _ _ _, .of_build hbuild⟩ ?_
    exact forall₂_tracks_write h.live fun g hg ↦ hnew g (List.mem_append_left _ hg)

/-- A pop of the last hook. -/
theorem removeHook_head {st : HookStack S} {hook : Hook S} {hooks : List (Hook S)}
    (h : st.hooks = hook :: hooks) :
    (st.removeHook hook.schema).getD st = { st with hooks := hooks } := by
  have hhas : st.Has hook.schema := ⟨hook, by rw [h]; exact List.mem_cons_self, rfl⟩
  rw [HookStack.removeHook, if_pos hhas, Option.getD_some, HookStack.erase, h,
    List.eraseP_cons, decide_eq_true rfl, cond_true]

theorem Simulates.drop (h : t.Simulates n) {g : CrateGuard S} {gs : List (CrateGuard S)}
    (hguards : t.guards = g :: gs) (elapsed : String → F64) (now : String) :
    ({ t with guards := gs }.drop g ⟨g.prev⟩ elapsed now).Simulates
      (n.step (.drop elapsed now)) := by
  obtain ⟨hhooks, hcells, hlt, hnodup, hlive, hemitted⟩ := h
  unfold guardsOf at hcells
  rw [hguards] at hhooks hcells hlt hnodup hlive
  cases hn : n.live with
  | nil => rw [hn] at hlive; cases hlive
  | cons r rs =>
      rw [hn] at hlive
      obtain ⟨s, r⟩ := r
      obtain ⟨⟨hschema, ev, hev, hholds⟩, hrest⟩ := List.forall₂_cons.mp hlive
      obtain ⟨⟨inner, prev⟩, schema⟩ := g
      cases hschema
      obtain ⟨ev', hdrop, hevent⟩ := hholds.emit (c.accepted s) elapsed now
      have hstep : n.step (.drop elapsed now) =
          ⟨rs, n.emitted ++ [⟨s, r.run (c.env s) elapsed now⟩]⟩ := by
        simp only [Nesting.step, hn]
      have hpop : (t.logHooks.removeHook s).getD t.logHooks =
          { t.logHooks with hooks := gs.map fun g ↦ ⟨g.schema, g.inner⟩ } := removeHook_head hhooks
      rw [hstep, CrateThread.drop, popLogHook, finish]
      simp only [hpop, hev, hdrop]
      have hperm : (gs ++ ⟨⟨inner, prev⟩, s⟩ :: t.emitting).Perm
          (⟨⟨inner, prev⟩, s⟩ :: gs ++ t.emitting) := List.perm_middle
      refine ⟨rfl, ?_, ?_, ?_, ?_, ?_⟩
      · intro s'
        have hcell := hcells s'
        show Thread.Stacked (Function.update t.currentEvent s ⟨prev⟩ s').ptr _
        by_cases hs : s' = s
        · subst hs
          rw [List.filter_cons_of_pos (by simp)] at hcell
          rw [Function.update_self]
          exact hcell.2
        · rw [List.filter_cons_of_neg (by simpa using Ne.symm hs)] at hcell
          rw [Function.update_of_ne hs]
          exact hcell
      · exact fun g hg ↦ hlt g (hperm.mem_iff.mp hg)
      · exact (hperm.map _).nodup_iff.mpr hnodup
      · refine forall₂_tracks_write hrest ?_
        rw [List.cons_append, List.map_cons, List.nodup_cons] at hnodup
        intro g hg heq
        exact hnodup.1 (List.mem_map.mpr ⟨g, List.mem_append_left _ hg, heq⟩)
      · refine List.rel_append hemitted (.cons ?_ .nil)
        rw [Emits, hevent]
        rfl

theorem Simulates.emitted_step (h : t.Simulates n) {g : CrateGuard S} {gs : List (CrateGuard S)}
    (hemitting : t.emitting = g :: gs) :
    Simulates { t with emitting := gs, heap := write g.schema g.inner none t.heap } n := by
  obtain ⟨hhooks, hcells, hlt, hnodup, hlive, hemitted⟩ := h
  rw [hemitting] at hlt hnodup
  have hsub : (t.guards ++ gs).Sublist (t.guards ++ g :: gs) :=
    (List.sublist_cons_self g gs).append_left t.guards
  refine ⟨hhooks, hcells, fun g' hg' ↦ hlt g' (hsub.subset hg'), hnodup.sublist (hsub.map _), ?_,
    hemitted⟩
  refine forall₂_tracks_write hlive ?_
  intro g' hg' heq
  rw [List.map_append, List.nodup_append] at hnodup
  exact hnodup.2.2 _ (List.mem_map_of_mem hg') _ (List.mem_cons_self) heq

/-- A step does to the thread what it does to the recordings. -/
theorem Simulates.step (h : Step debugAssertions t op t') (hs : t.Simulates n) :
    t'.Simulates (n.step op) := by
  cases h with
  | build hbuild => exact hs.build hbuild
  | call s call => exact hs.call s call
  | log level message => exact hs.log level message
  | @drop g gs cell elapsed now hguards hcell =>
      rw [WideLogGuard.drop_eq] at hcell
      cases hcell
      exact hs.drop hguards elapsed now
  | emitted hemitting => exact hs.emitted_step hemitting

/-! ### What a step finishes -/

theorem exists_emitted_finish (g : CrateGuard S) (elapsed : String → F64) (now : String)
    (t : CrateThread c) :
    ∃ e : Option (Σ s, c.Event s), (t.finish g elapsed now).emitted = t.emitted ++ e.toList := by
  unfold finish
  split
  · split
    · exact ⟨some _, rfl⟩
    · exact ⟨none, (List.append_nil _).symm⟩
  · exact ⟨none, (List.append_nil _).symm⟩

/-- A step finishes one event at most. -/
theorem Step.exists_emitted (h : Step debugAssertions t op t') :
    ∃ e : Option (Σ s, c.Event s), t'.emitted = t.emitted ++ e.toList := by
  have hsame : ∃ e : Option (Σ s, c.Event s), t.emitted = t.emitted ++ e.toList :=
    ⟨none, (List.append_nil _).symm⟩
  cases h with
  | build | emitted => exact hsame
  | call s call =>
      unfold CrateThread.call
      split <;> exact hsame
  | log level message =>
      unfold appendLogEntry CrateThread.call
      split
      · split <;> exact hsame
      · exact hsame
  | @drop g gs cell elapsed now => exact exists_emitted_finish g elapsed now _

/-! ## Runs -/

/-- The event a macro of the crate root appends to. -/
def logTarget (t : CrateThread c) : Option (S × Nat) :=
  t.logHooks.hooks.head?.bind fun hook ↦ (t.current hook.schema).map (hook.schema, ·)

theorem Simulates.logTarget_eq (h : t.Simulates n) :
    t.logTarget = t.guards.head?.map fun g ↦ (g.schema, g.inner) := by
  rw [logTarget, h.hooks]
  cases hguards : t.guards with
  | nil => rfl
  | cons g gs =>
      have hcurrent := h.current_eq g.schema
      rw [hguards, List.find?_cons_of_pos (by simp)] at hcurrent
      simp only [List.map_cons, List.head?_cons, Option.bind_some, hcurrent, Option.map_some]

theorem Simulates.unset (h : t.Simulates n) (hguards : t.guards = []) :
    (∀ s, t.currentEvent s = .new) ∧ t.logHooks.hooks = [] := by
  refine ⟨?_, ?_⟩
  · intro s
    have hcell := h.cells s
    unfold guardsOf at hcell
    rw [hguards] at hcell
    exact congrArg ContextCell.mk hcell
  · rw [h.hooks, hguards]
    rfl

variable {tr : List (CrateThread c × CrateOp c)}

/-- What is promised of a run: which event each macro is to reach, that an event holds
what reached it, in order, and is emitted once, and that nothing is left behind. -/
structure Routed (tr : List (CrateThread c × CrateOp c)) (t : CrateThread c) : Prop where
  current : ∀ r ∈ Run.states tr t, ∀ s,
    r.current s = (r.guards.find? (·.schema = s)).map fun g ↦ g.inner
  log : ∀ r ∈ Run.states tr t, r.logTarget = r.guards.head?.map fun g ↦ (g.schema, g.inner)
  live : List.Forall₂ (Tracks t.heap) t.guards (Nesting.after (tr.map Prod.snd)).live
  emitted : List.Forall₂ Emits t.emitted (Nesting.after (tr.map Prod.snd)).emitted
  once : (tr.map Prod.snd).countP CrateOp.isBuild = t.guards.length + t.emitted.length
  unset : t.guards = [] → (∀ s, t.currentEvent s = .new) ∧ t.logHooks.hooks = []

theorem Simulates.run {s : CrateThread c} (h : Run (Step debugAssertions) s tr t)
    (hs : s.Simulates n) : t.Simulates ((tr.map Prod.snd).foldl Nesting.step n) := by
  induction h generalizing n with
  | nil => exact hs
  | cons hstep _ ih => exact ih (hs.step hstep)

/-- **Macros reach the innermost guard**, in every run in which guards are dropped in
the reverse order of their building. -/
theorem crates_routed (h : Run (Step debugAssertions) (new : CrateThread c) tr t) :
    Routed tr t := by
  have hstates : ∀ r ∈ Run.states tr t, ∃ n, r.Simulates n :=
    h.always (I := fun r ↦ ∃ n, r.Simulates n) (fun hstep ⟨_, hn⟩ ↦ ⟨_, hn.step hstep⟩)
      ⟨_, simulates_new⟩
  have hlast : t.Simulates (Nesting.after (tr.map Prod.snd)) := simulates_new.run h
  refine ⟨?_, ?_, hlast.live, hlast.emitted, ?_, hlast.unset⟩
  · intro r hr
    obtain ⟨n, hn⟩ := hstates r hr
    exact hn.current_eq
  · intro r hr
    obtain ⟨n, hn⟩ := hstates r hr
    exact hn.logTarget_eq
  · have hsize := Nesting.size_foldl (⟨[], []⟩ : Nesting c) (tr.map Prod.snd)
    rw [hlast.live.length_eq, hlast.emitted.length_eq]
    exact ((Nat.zero_add _).symm.trans hsize.symm)

/-- Two crates whose guards nest, with a macro of the crate root in the emit closure of
the inner one. -/
theorem crates_routed_nested : ∃ (c : Crates Bool) (tr : List (CrateThread c × CrateOp c))
    (t : CrateThread c), Routed tr t ∧ t.guards.length = 1 ∧ t.emitted.length = 1 := by
  obtain ⟨a, -⟩ := exists_statusSchema
  let c : Crates Bool := ⟨asciiToolchain, fun _ ↦ statusSchema, fun _ ↦ a, fun _ ↦ .release⟩
  let start : Start a.program := ⟨none, "id", nofun⟩
  obtain ⟨ev, hbuild, -⟩ := a.build_ret .release "id"
  let t : CrateThread c := (new.build true ev).build false ev
  let t' : CrateThread c :=
    { t with guards := [⟨⟨0, none⟩, true⟩] }.drop ⟨⟨1, none⟩, false⟩ ⟨none⟩ (fun _ ↦ ⟨0⟩) "now"
  have hrun : Run (Step true) (new : CrateThread c)
      [(new, .build true start), (new.build true ev, .build false start),
        (t, .drop (fun _ ↦ ⟨0⟩) "now"), (t', .log .info "from the emit closure")]
      (t'.appendLogEntry "info" "from the emit closure") :=
    .cons (.build hbuild) (.cons (.build hbuild) (.cons (.drop _ _ rfl rfl)
      (.cons (.log _ _ _) (.nil _))))
  have hrouted := crates_routed hrun
  refine ⟨c, _, _, hrouted, ?_⟩
  have hlive := hrouted.live.length_eq
  have hemitted := hrouted.emitted.length_eq
  exact ⟨hlive, hemitted⟩

end CrateThread

end WideLog
