import WideLog.Lib.Outcome
import WideLog.Lib.Run
import Mathlib.Data.List.Nodup

/-!
# The current event

The thread-local cell through which `current()` finds the event of the innermost
guard, and the guards that set it.  `build` saves the content of the cell in the
guard and installs the pointer to the guard's own event; dropping the guard writes
the saved pointer back.

A pointer stands for the allocation it points into, so the events of two guards
never have the same pointer, even where the allocator reuses an address.  Setting
up the event comes before `build` touches the cell, and finalizing and emitting it
comes after the drop has restored it: guards built and dropped meanwhile, by the
id function, the preset or the emit closure, are steps before or after this one.
-/

namespace WideLog

/-- A thread-local cell storing the pointer to the current event, `none` for null. -/
structure ContextCell (P : Type) where
  ptr : Option P
deriving DecidableEq

namespace ContextCell

variable {P : Type}

/-- `ContextCell::new`. -/
def new : ContextCell P := ⟨none⟩

/-- `ContextCell::get_ptr`. -/
def getPtr (c : ContextCell P) : Option P := c.ptr

/-- `ContextCell::replace`: set the pointer, return the previous one. -/
def replace (c : ContextCell P) (ptr : Option P) : ContextCell P × Option P := (⟨ptr⟩, c.ptr)

/-- `ContextCell::restore`. -/
def restore (_c : ContextCell P) (ptr : Option P) : ContextCell P := ⟨ptr⟩

end ContextCell

/-- The pointers of a `WideLogGuard`: to its own event, and the one it saved. -/
structure WideLogGuard (P : Type) where
  inner : P
  prev : Option P
deriving DecidableEq

/-- `Drop for WideLogGuard`, as far as the cell is concerned. -/
def WideLogGuard.drop {P : Type} [DecidableEq P] (debugAssertions : Bool)
    (g : WideLogGuard P) (c : ContextCell P) : Outcome (ContextCell P) :=
  let c := c.restore g.prev
  if debugAssertions && c.getPtr != g.prev then .panic c else .ret c

/-- The assertion in the drop holds. -/
theorem WideLogGuard.drop_eq {P : Type} [DecidableEq P] (debugAssertions : Bool)
    (g : WideLogGuard P) (c : ContextCell P) : g.drop debugAssertions c = .ret ⟨g.prev⟩ := by
  simp [WideLogGuard.drop, ContextCell.restore, ContextCell.getPtr]

/-- What a thread's run has made of its guards: the cell, the guards built and not
yet dropped, the latest first, and the number of events allocated so far, which is
the pointer to the next one. -/
structure Thread where
  currentEvent : ContextCell Nat
  guards : List (WideLogGuard Nat)
  allocated : Nat
deriving DecidableEq

/-- Building a guard, or dropping one. -/
inductive GuardOp where
  | build
  | drop (g : WideLogGuard Nat)
deriving DecidableEq

namespace Thread

/-- A thread before its first guard. -/
def new : Thread := ⟨.new, [], 0⟩

/-- `WideLogGuardBuilder::build`. -/
def build (t : Thread) : Thread :=
  let ptr := t.allocated
  let (cell, prev) := t.currentEvent.replace (some ptr)
  ⟨cell, ⟨ptr, prev⟩ :: t.guards, t.allocated + 1⟩

/-- A step of the thread: any guard there is may be dropped. -/
inductive Step (debugAssertions : Bool) : Thread → GuardOp → Thread → Prop where
  | build (t : Thread) : Step debugAssertions t .build t.build
  | drop {t : Thread} {g : WideLogGuard Nat} {cell : ContextCell Nat} :
      g ∈ t.guards → g.drop debugAssertions t.currentEvent = .ret cell →
      Step debugAssertions t (.drop g) { t with currentEvent := cell, guards := t.guards.erase g }

/-- The pointer is to the event of a guard that has not been dropped. -/
def Live (t : Thread) (p : Nat) : Prop := ∃ g ∈ t.guards, g.inner = p

/-- The cell is null, or holds the pointer to a live event. -/
def CurrentValid (t : Thread) : Prop := ∀ p, t.currentEvent.ptr = some p → t.Live p

/-- A guard is dropped while the guard that was current when it was built, if one
was, has not been dropped. -/
def InnerFirst (t : Thread) : GuardOp → Prop
  | .build => True
  | .drop g => ∀ p, g.prev = some p → t.Live p

/-- The guard that is dropped is the one built last. -/
def Lifo (t : Thread) : GuardOp → Prop
  | .build => True
  | .drop g => t.guards.head? = some g

instance : (t : Thread) → (op : GuardOp) → Decidable (t.Lifo op)
  | _, .build => .isTrue trivial
  | t, .drop g => inferInstanceAs (Decidable (t.guards.head? = some g))

/-! ## What a step does -/

/-- What a thread's allocations look like: every pointer is to an event allocated
before, and a guard's event was allocated after the events it found. -/
structure Ordered (t : Thread) : Prop where
  current_lt : ∀ p, t.currentEvent.ptr = some p → p < t.allocated
  inner_lt : ∀ g ∈ t.guards, g.inner < t.allocated
  prev_lt : ∀ g ∈ t.guards, ∀ p, g.prev = some p → p < g.inner
  nodup : (t.guards.map WideLogGuard.inner).Nodup

variable {debugAssertions : Bool} {t t' : Thread} {op : GuardOp}

theorem Step.cases (h : Step debugAssertions t op t') :
    (op = .build ∧
      t' = ⟨⟨some t.allocated⟩, ⟨t.allocated, t.currentEvent.ptr⟩ :: t.guards,
        t.allocated + 1⟩) ∨
    ∃ g ∈ t.guards, op = .drop g ∧ t' = ⟨⟨g.prev⟩, t.guards.erase g, t.allocated⟩ := by
  cases h with
  | build => exact .inl ⟨rfl, rfl⟩
  | @drop g cell hg hcell =>
      rw [WideLogGuard.drop_eq] at hcell
      cases hcell
      exact .inr ⟨g, hg, rfl, rfl⟩

theorem Ordered.step (h : Step debugAssertions t op t') (ht : t.Ordered) : t'.Ordered := by
  rcases h.cases with ⟨-, rfl⟩ | ⟨g, hg, -, rfl⟩
  · refine ⟨?_, ?_, ?_, ?_⟩
    · rintro p ⟨⟩
      exact Nat.lt_succ_self _
    · intro g hg
      rcases List.mem_cons.mp hg with rfl | hg
      · exact Nat.lt_succ_self _
      · exact Nat.lt_succ_of_lt (ht.inner_lt g hg)
    · intro g hg
      rcases List.mem_cons.mp hg with rfl | hg
      · exact ht.current_lt
      · exact ht.prev_lt g hg
    · rw [List.map_cons, List.nodup_cons]
      refine ⟨?_, ht.nodup⟩
      intro hmem
      obtain ⟨g, hg, hinner⟩ := List.mem_map.mp hmem
      exact absurd (ht.inner_lt g hg) (by simp [hinner])
  · refine ⟨?_, ?_, ?_, ?_⟩
    · intro p hp
      exact Nat.lt_trans (ht.prev_lt g hg p hp) (ht.inner_lt g hg)
    · intro g' hg'
      exact ht.inner_lt g' (List.mem_of_mem_erase hg')
    · intro g' hg'
      exact ht.prev_lt g' (List.mem_of_mem_erase hg')
    · exact ht.nodup.sublist (List.erase_sublist.map _)

theorem ordered_new : new.Ordered :=
  ⟨fun _ h ↦ (nomatch h), fun _ h ↦ (nomatch h), fun _ h ↦ (nomatch h), List.nodup_nil⟩

/-- Dropping a guard ends the life of its own event only. -/
theorem live_erase {g : WideLogGuard Nat} {p : Nat} (c : ContextCell Nat) (n : Nat)
    (hp : p ≠ g.inner) : Live ⟨c, t.guards.erase g, n⟩ p ↔ t.Live p := by
  constructor
  · rintro ⟨g', hg', rfl⟩
    exact ⟨g', List.mem_of_mem_erase hg', rfl⟩
  · rintro ⟨g', hg', rfl⟩
    have hne : g' ≠ g := fun h ↦ hp (congrArg WideLogGuard.inner h)
    exact ⟨g', (List.mem_erase_of_ne hne).mpr hg', rfl⟩

/-- After a build the cell is valid, and after a drop it is if the guard found an
event that is still live. -/
theorem Step.currentValid_iff (h : Step debugAssertions t op t') (ht : t.Ordered) :
    t'.CurrentValid ↔ t.InnerFirst op := by
  rcases h.cases with ⟨rfl, rfl⟩ | ⟨g, hg, rfl, rfl⟩
  · refine iff_of_true ?_ trivial
    rintro p ⟨⟩
    exact ⟨_, List.mem_cons_self, rfl⟩
  · refine forall_congr' fun p ↦ imp_congr_right fun hp ↦ live_erase _ _ ?_
    exact Nat.ne_of_lt (ht.prev_lt g hg p hp)

/-! ## Guards that are dropped in the reverse order of their building -/

/-- The guards form a stack: the cell points to the event of the first one, and
each saved the pointer to the event of the next. -/
def Stacked : Option Nat → List (WideLogGuard Nat) → Prop
  | cell, [] => cell = none
  | cell, g :: gs => cell = some g.inner ∧ Stacked g.prev gs

theorem stacked_new : Stacked new.currentEvent.ptr new.guards := rfl

/-- A guard that was built while the event of a guard already dropped was current. -/
def Orphan (t : Thread) : Prop :=
  ∃ g ∈ t.guards, ∃ p, g.prev = some p ∧ p < t.allocated ∧ ¬ t.Live p

theorem Stacked.step (h : Step debugAssertions t op t') (hop : t.Lifo op)
    (hs : Stacked t.currentEvent.ptr t.guards) :
    Stacked t'.currentEvent.ptr t'.guards := by
  rcases h.cases with ⟨rfl, rfl⟩ | ⟨g, hg, rfl, rfl⟩
  · exact ⟨rfl, hs⟩
  · obtain ⟨gs, hgs⟩ := List.head?_eq_some_iff.mp hop
    rw [hgs] at hs ⊢
    rw [List.erase_cons_head]
    exact hs.2

/-- The cell of a stack is valid: it points to the event of the first guard. -/
theorem Stacked.currentValid (hs : Stacked t.currentEvent.ptr t.guards) : t.CurrentValid := by
  intro p hp
  cases hguards : t.guards with
  | nil => rw [hguards, hp] at hs; cases hs
  | cons g gs =>
      rw [hguards, hp] at hs
      exact ⟨g, by simp [hguards], (Option.some.inj hs.1).symm⟩

/-- In a stack, the event of a guard other than the first was found by another. -/
theorem Stacked.exists_prev {cell : Option Nat} {gs : List (WideLogGuard Nat)}
    {g : WideLogGuard Nat} (hs : Stacked cell gs) (hg : g ∈ gs) :
    cell = some g.inner ∨ ∃ g' ∈ gs, g'.prev = some g.inner := by
  induction gs generalizing cell with
  | nil => cases hg
  | cons hd tl ih =>
      rcases List.mem_cons.mp hg with rfl | hg
      · exact .inl hs.1
      · rcases ih hs.2 hg with hprev | ⟨g', hg', hprev⟩
        · exact .inr ⟨hd, List.mem_cons_self, hprev⟩
        · exact .inr ⟨g', List.mem_cons_of_mem _ hg', hprev⟩

/-- Dropping a guard of a stack out of turn leaves an orphan. -/
theorem Stacked.orphan (h : Step debugAssertions t op t') (ht : t.Ordered)
    (hs : Stacked t.currentEvent.ptr t.guards) (hop : ¬ t.Lifo op) : t'.Orphan := by
  rcases h.cases with ⟨rfl, rfl⟩ | ⟨g, hg, rfl, rfl⟩
  · exact absurd trivial hop
  · have hdead : ¬ Live ⟨⟨g.prev⟩, t.guards.erase g, t.allocated⟩ g.inner := by
      rintro ⟨g', hg', hinner⟩
      have hne : g' ≠ g := ((List.Nodup.of_map _ ht.nodup).mem_erase_iff.mp hg').1
      exact hne (List.inj_on_of_nodup_map ht.nodup (List.mem_of_mem_erase hg') hg hinner)
    cases hguards : t.guards with
    | nil => rw [hguards] at hg; cases hg
    | cons hd tl =>
        have hhd : g ≠ hd := fun h ↦ hop (by simp [Lifo, hguards, h])
        rw [hguards] at hs
        have htl : g ∈ tl := by simpa [hguards, hhd] using hg
        have hprev : ∃ g' ∈ t.guards, g'.prev = some g.inner := by
          rcases hs.2.exists_prev htl with hprev | ⟨g', hg', hprev⟩
          · exact ⟨hd, by simp [hguards], hprev⟩
          · exact ⟨g', by simp [hguards, hg'], hprev⟩
        obtain ⟨g', hg', hprev⟩ := hprev
        have hne : g' ≠ g := fun h ↦
          absurd (ht.prev_lt g hg g.inner (h ▸ hprev)) (Nat.lt_irrefl _)
        rw [← hguards]
        exact ⟨g', (List.mem_erase_of_ne hne).mpr hg', g.inner, hprev, ht.inner_lt g hg, hdead⟩

/-- An orphan cannot be dropped in time, and its parent does not come back. -/
theorem Orphan.step (h : Step debugAssertions t op t') (hop : t.InnerFirst op)
    (ho : t.Orphan) : t'.Orphan := by
  obtain ⟨g, hg, p, hprev, hp, hdead⟩ := ho
  rcases h.cases with ⟨rfl, rfl⟩ | ⟨g', hg', rfl, rfl⟩
  · refine ⟨g, List.mem_cons_of_mem _ hg, p, hprev, Nat.lt_succ_of_lt hp, ?_⟩
    rintro ⟨g', hg', hinner⟩
    rcases List.mem_cons.mp hg' with rfl | hg'
    · exact Nat.ne_of_gt hp hinner
    · exact hdead ⟨g', hg', hinner⟩
  · have hne : g ≠ g' := fun h ↦ hdead (hop p (h ▸ hprev))
    refine ⟨g, (List.mem_erase_of_ne hne).mpr hg, p, hprev, hp, ?_⟩
    rintro ⟨g'', hg'', hinner⟩
    exact hdead ⟨g'', List.mem_of_mem_erase hg'', hinner⟩

/-! ## Runs -/

variable {tr : List (Thread × GuardOp)}

/-- While guards are dropped in the reverse order of their building, the current
event is that of the guard built last. -/
theorem stacked_of_lifo (h : Run (Step debugAssertions) new tr t)
    (hlifo : ∀ x ∈ tr, x.1.Lifo x.2) :
    ∀ r ∈ Run.states tr t, Stacked r.currentEvent.ptr r.guards :=
  h.invariant (I := fun r ↦ Stacked r.currentEvent.ptr r.guards) Stacked.step stacked_new hlifo

/-- A run that starts from a stack, drops every guard in time and drops all of
them drops them in the reverse order of their building. -/
theorem lifo_of_innerFirst {s : Thread} (h : Run (Step debugAssertions) s tr t)
    (hs : Stacked s.currentEvent.ptr s.guards) (hord : s.Ordered) (hend : t.guards = [])
    (hin : ∀ x ∈ tr, x.1.InnerFirst x.2) : ∀ x ∈ tr, x.1.Lifo x.2 := by
  induction h with
  | nil => simp
  | @cons s s' t op tr hop hrun ih =>
      rw [List.forall_mem_cons] at hin ⊢
      have hlifo : s.Lifo op := by
        by_contra hnot
        have horphan : ∀ r ∈ Run.states tr t, r.Orphan :=
          hrun.invariant (I := Orphan) Orphan.step (hs.orphan hop hord hnot) hin.2
        obtain ⟨g, hg, -⟩ := horphan t (Run.mem_states_last tr t)
        rw [hend] at hg
        cases hg
      exact ⟨hlifo, ih (hs.step hop hlifo) (hord.step hop) hend hin.2⟩

/-- **The cell never holds a stale pointer exactly when no guard is dropped after
the one it was built inside of**, and, in a run that drops all its guards, exactly
when they are dropped in the reverse order of their building. -/
theorem current_valid_iff (h : Run (Step debugAssertions) new tr t) :
    ((∀ r ∈ Run.states tr t, r.CurrentValid) ↔ ∀ x ∈ tr, x.1.InnerFirst x.2) ∧
      (t.guards = [] →
        ((∀ r ∈ Run.states tr t, r.CurrentValid) ↔ ∀ x ∈ tr, x.1.Lifo x.2)) := by
  have hiff := h.forall_states_iff (I := Ordered) (P := CurrentValid) (C := InnerFirst)
    (fun hop _ hord ↦ hord.step hop) (fun hop hord ↦ hop.currentValid_iff hord)
    ordered_new (fun _ hp ↦ (nomatch hp))
  refine ⟨hiff, ?_⟩
  intro hend
  constructor
  · intro hvalid
    exact lifo_of_innerFirst h stacked_new ordered_new hend (hiff.mp hvalid)
  · intro hlifo r hr
    exact (stacked_of_lifo h hlifo r hr).currentValid

/-- The steps that build one guard inside another and drop the inner one first. -/
def nested : List (Thread × GuardOp) :=
  [(new, .build), (new.build, .build), (new.build.build, .drop ⟨1, some 0⟩),
    (⟨⟨some 0⟩, [⟨0, none⟩], 2⟩, .drop ⟨0, none⟩)]

theorem current_valid_iff_nested :
    (∀ x ∈ nested, x.1.Lifo x.2) ∧ ∀ r ∈ Run.states nested ⟨⟨none⟩, [], 2⟩, r.CurrentValid := by
  have hrun : Run (Step true) new nested ⟨⟨none⟩, [], 2⟩ :=
    .cons (.build _) (.cons (.build _) (.cons (.drop (by decide) rfl)
      (.cons (.drop (by decide) rfl) (.nil _))))
  have hlifo : ∀ x ∈ nested, x.1.Lifo x.2 := by decide
  exact ⟨hlifo, ((current_valid_iff hrun).2 rfl).mpr hlifo⟩

/-- **Dropping the outer one of two guards first leaves a stale pointer behind**:
when the inner one is dropped, the cell points to an event that is gone. -/
theorem current_stale :
    ¬ ∀ tr t, Run (Step true) new tr t → ∀ r ∈ Run.states tr t, r.CurrentValid := by
  intro h
  have hrun : Run (Step true) new
      [(new, .build), (new.build, .build), (new.build.build, .drop ⟨0, none⟩),
        (⟨⟨none⟩, [⟨1, some 0⟩], 2⟩, .drop ⟨1, some 0⟩)] ⟨⟨some 0⟩, [], 2⟩ :=
    .cons (.build _) (.cons (.build _) (.cons (.drop (by decide) rfl)
      (.cons (.drop (by decide) rfl) (.nil _))))
  obtain ⟨g, hg, -⟩ := h _ _ hrun _ (Run.mem_states_last _ _) 0 rfl
  cases hg

end Thread

end WideLog
