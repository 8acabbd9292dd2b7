import Mathlib.Data.List.Basic

/-!
# Runs

A run is a finite sequence of steps of a transition relation.  Its trace records
every action together with the state it is taken in, so that a condition on the
steps of a run is a condition on the entries of its trace.
-/

universe u v w

/-- `Run Step s tr t`: the actions of `tr` lead from `s` to `t`. -/
inductive Run {S : Type u} {A : Type v} (Step : S → A → S → Prop) :
    S → List (S × A) → S → Prop where
  | nil (s : S) : Run Step s [] s
  | cons {s s' t : S} {a : A} {tr : List (S × A)} :
      Step s a s' → Run Step s' tr t → Run Step s ((s, a) :: tr) t

namespace Run

variable {S : Type u} {A : Type v} {Step : S → A → S → Prop} {s t : S} {tr : List (S × A)}

/-- The states of a run, from the first to the last. -/
def states (tr : List (S × A)) (t : S) : List S := tr.map Prod.fst ++ [t]

@[simp] theorem states_nil (t : S) : states ([] : List (S × A)) t = [t] := rfl

@[simp] theorem states_cons (x : S × A) (tr : List (S × A)) (t : S) :
    states (x :: tr) t = x.1 :: states tr t := rfl

theorem mem_states_last (tr : List (S × A)) (t : S) : t ∈ states tr t := by
  simp [states]

/-- A run starts in its first state. -/
theorem mem_states_first (h : Run Step s tr t) : s ∈ states tr t := by
  cases h <;> simp

/-- An entry of the trace is a step between two states of the run. -/
theorem step_of_mem (h : Run Step s tr t) {x : S × A} (hx : x ∈ tr) :
    x.1 ∈ states tr t ∧ ∃ s' ∈ states tr t, Step x.1 x.2 s' := by
  induction h with
  | nil => cases hx
  | cons ha hrun ih =>
      rcases List.mem_cons.mp hx with rfl | hx
      · exact ⟨List.mem_cons_self, _, List.mem_cons_of_mem _ hrun.mem_states_first, ha⟩
      · obtain ⟨hmem, s', hs', hstep⟩ := ih hx
        exact ⟨List.mem_cons_of_mem _ hmem, s', List.mem_cons_of_mem _ hs', hstep⟩

/-- A run to a point of its trace, and on from there. -/
theorem append_iff {tr₁ tr₂ : List (S × A)} :
    Run Step s (tr₁ ++ tr₂) t ↔ ∃ r, Run Step s tr₁ r ∧ Run Step r tr₂ t := by
  induction tr₁ generalizing s with
  | nil => exact ⟨fun h ↦ ⟨s, .nil s, h⟩, by rintro ⟨_, ⟨⟩, h⟩; exact h⟩
  | cons x tr ih =>
      constructor
      · rintro (_ | ⟨ha, hrun⟩)
        obtain ⟨r, h₁, h₂⟩ := ih.mp hrun
        exact ⟨r, .cons ha h₁, h₂⟩
      · rintro ⟨r, _ | ⟨ha, h₁⟩, h₂⟩
        exact .cons ha (ih.mpr ⟨r, h₁, h₂⟩)

/-- A run goes on from each entry of its trace. -/
theorem exists_run_of_mem (h : Run Step s tr t) {x : S × A} (hx : x ∈ tr) :
    ∃ tr', Run Step x.1 tr' t := by
  obtain ⟨tr₁, tr₂, rfl⟩ := List.append_of_mem hx
  obtain ⟨_, -, hrun⟩ := append_iff.mp h
  cases hrun with
  | cons ha hrest => exact ⟨_, .cons ha hrest⟩

/-- What holds at the start and is kept by the steps that meet `C` holds in every
state of a run all of whose steps meet `C`. -/
theorem invariant {I : S → Prop} {C : S → A → Prop} (h : Run Step s tr t)
    (hstep : ∀ {s a s'}, Step s a s' → C s a → I s → I s') (hs : I s)
    (hC : ∀ x ∈ tr, C x.1 x.2) : ∀ r ∈ states tr t, I r := by
  induction h with
  | nil s => simpa using hs
  | cons ha _ ih =>
      rw [List.forall_mem_cons] at hC
      rw [states_cons, List.forall_mem_cons]
      exact ⟨hs, ih (hstep ha hC.1 hs) hC.2⟩

/-- An invariant of every step holds in every state. -/
theorem always {I : S → Prop} (h : Run Step s tr t) (hstep : ∀ {s a s'}, Step s a s' → I s → I s')
    (hs : I s) : ∀ r ∈ states tr t, I r :=
  h.invariant (C := fun _ _ ↦ True) (fun ha _ ↦ hstep ha) hs fun _ _ ↦ trivial

/-- The same for an invariant of a state and of what was done on the way to it. -/
theorem history {B : Type w} {I : List B → S → Prop} {C : S → A → Prop} (h : Run Step s tr t)
    (out : A → List B)
    (hstep : ∀ {bs s a s'}, Step s a s' → C s a → I bs s → I (bs ++ out a) s') {bs : List B}
    (hs : I bs s) (hC : ∀ x ∈ tr, C x.1 x.2) : I (bs ++ tr.flatMap fun x ↦ out x.2) t := by
  induction h generalizing bs with
  | nil => simpa using hs
  | cons ha _ ih =>
      rw [List.forall_mem_cons] at hC
      rw [List.flatMap_cons, ← List.append_assoc]
      exact ih (hstep ha hC.1 hs) hC.2

/-- What a step adds to one end of a queue and takes from the other is what a run adds
and takes, in order. -/
theorem fifo {B : Type w} {I : S → Prop} {C : S → A → Prop} (h : Run Step s tr t) (q : S → List B)
    (ins outs : A → List B) (hI : ∀ {s a s'}, Step s a s' → C s a → I s → I s')
    (hq : ∀ {s a s'}, Step s a s' → C s a → I s → q s ++ ins a = outs a ++ q s') (hs : I s)
    (hC : ∀ x ∈ tr, C x.1 x.2) :
    q s ++ tr.flatMap (fun x ↦ ins x.2) = tr.flatMap (fun x ↦ outs x.2) ++ q t := by
  induction h with
  | nil s => exact List.append_nil _
  | @cons s s' t a tr ha _ ih =>
      rw [List.forall_mem_cons] at hC
      have hstep : q s ++ ins a = outs a ++ q s' := hq ha hC.1 hs
      calc q s ++ (ins a ++ tr.flatMap fun x ↦ ins x.2)
          = outs a ++ (q s' ++ tr.flatMap fun x ↦ ins x.2) := by
            rw [← List.append_assoc, hstep, List.append_assoc]
        _ = outs a ++ (tr.flatMap fun x ↦ outs x.2) ++ q t := by
            rw [ih (hI ha hC.1 hs) hC.2, List.append_assoc]

/-- A cell that is set once holds what it held, or else what was set first. -/
theorem setOnce {B : Type w} (h : Run Step s tr t) (cell : S → Option B) (sets : A → List B)
    (hstep : ∀ {s a s'}, Step s a s' → cell s' = (cell s).or (sets a).head?) :
    cell t = (cell s).or (tr.flatMap fun x ↦ sets x.2).head? := by
  induction h with
  | nil s => exact Option.or_none.symm
  | cons ha _ ih => rw [ih, hstep ha, List.flatMap_cons, List.head?_append, Option.or_assoc]

/-- Where every step of a system is a step of a part or leaves the part as it is, a run of
the system is a run of the part. -/
theorem view {S' : Type*} {A' : Type*} {Step' : S' → A' → S' → Prop} (h : Run Step s tr t)
    (part : S → S') (label : A → Option A')
    (hsome : ∀ {s a s' b}, Step s a s' → label a = some b → Step' (part s) b (part s'))
    (hnone : ∀ {s a s'}, Step s a s' → label a = none → part s' = part s) :
    Run Step' (part s) (tr.filterMap fun x ↦ (label x.2).map (part x.1, ·)) (part t) := by
  induction h with
  | nil s => exact .nil _
  | @cons s s' t a tr ha _ ih =>
      cases hlabel : label a with
      | none =>
          rw [List.filterMap_cons_none (by simp [hlabel]), ← hnone ha hlabel]
          exact ih
      | some b =>
          rw [List.filterMap_cons_some (by simp [hlabel]; rfl)]
          exact .cons (hsome ha hlabel) ih

/-- When a step reaches `P` exactly if it meets `C`, and the steps that meet `C` keep
what this rests on, a run stays in `P` exactly if all of its steps meet `C`. -/
theorem forall_states_iff {I P : S → Prop} {C : S → A → Prop} (h : Run Step s tr t)
    (hI : ∀ {s a s'}, Step s a s' → C s a → I s → I s')
    (hP : ∀ {s a s'}, Step s a s' → I s → (P s' ↔ C s a)) (hs : I s) (hPs : P s) :
    (∀ r ∈ states tr t, P r) ↔ ∀ x ∈ tr, C x.1 x.2 := by
  induction h with
  | nil s => simpa using hPs
  | @cons s s' t a tr ha hrun ih =>
      rw [states_cons, List.forall_mem_cons, List.forall_mem_cons, and_iff_right hPs]
      constructor
      · intro hall
        have hPs' : P s' := hall s' hrun.mem_states_first
        have hC : C s a := (hP ha hs).mp hPs'
        exact ⟨hC, (ih (hI ha hC hs) hPs').mp hall⟩
      · rintro ⟨hC, hrest⟩
        exact (ih (hI ha hC hs) ((hP ha hs).mpr hC)).mpr hrest

end Run
