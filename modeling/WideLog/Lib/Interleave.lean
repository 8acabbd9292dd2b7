import Mathlib.Data.List.Forall2
import Mathlib.Logic.Function.Basic

/-!
# Interleavings

Several threads take steps on one state.  Two runs interleave the same threads when
each thread takes the same steps in the same order in both.  If steps of different
threads commute, such runs end in the same state.  What is known of the steps of each
thread, in order, is known of the steps of the interleaving.
-/

universe u v w

variable {T : Type u} {A : Type v} {S : Type w} [DecidableEq T]

/-- The steps of one thread. -/
def stepsOf (t : T) (xs : List (T × A)) : List A := (xs.filter (·.1 = t)).map Prod.snd

/-- The runs interleave the same threads. -/
def SameThreads (xs ys : List (T × A)) : Prop := ∀ t, stepsOf t xs = stepsOf t ys

@[simp] theorem stepsOf_cons_self (t : T) (a : A) (xs : List (T × A)) :
    stepsOf t ((t, a) :: xs) = a :: stepsOf t xs := by simp [stepsOf]

theorem stepsOf_cons_of_ne {t : T} {x : T × A} (h : x.1 ≠ t) (xs : List (T × A)) :
    stepsOf t (x :: xs) = stepsOf t xs := by simp [stepsOf, h]

theorem stepsOf_append (t : T) (xs ys : List (T × A)) :
    stepsOf t (xs ++ ys) = stepsOf t xs ++ stepsOf t ys := by simp [stepsOf]

/-- A thread that takes a step next takes it after steps of other threads. -/
theorem exists_split_of_stepsOf {t : T} {a : A} {as : List A} {xs : List (T × A)}
    (h : stepsOf t xs = a :: as) :
    ∃ pre post, xs = pre ++ (t, a) :: post ∧ (∀ x ∈ pre, x.1 ≠ t) ∧ stepsOf t post = as := by
  induction xs with
  | nil => cases h
  | cons x xs ih =>
      by_cases hx : x.1 = t
      · obtain ⟨u, b⟩ := x
        obtain rfl : u = t := hx
        rw [stepsOf_cons_self, List.cons.injEq] at h
        exact ⟨[], xs, by rw [h.1, List.nil_append], by simp, h.2⟩
      · rw [stepsOf_cons_of_ne hx] at h
        obtain ⟨pre, post, rfl, hpre, hpost⟩ := ih h
        exact ⟨x :: pre, post, rfl, List.forall_mem_cons.mpr ⟨hx, hpre⟩, hpost⟩

theorem eq_nil_of_sameThreads_nil {ys : List (T × A)} (h : SameThreads [] ys) : ys = [] := by
  cases ys with
  | nil => rfl
  | cons y ys =>
      have hy := h y.1
      rw [show y = (y.1, y.2) from rfl, stepsOf_cons_self] at hy
      cases hy

/-- What remains of two runs when the first step of one is taken out of the other. -/
theorem SameThreads.of_cons {t : T} {a : A} {xs pre post : List (T × A)}
    (h : SameThreads ((t, a) :: xs) (pre ++ (t, a) :: post)) (hpre : ∀ x ∈ pre, x.1 ≠ t) :
    SameThreads xs (pre ++ post) := by
  have hnone : stepsOf t pre = [] := by
    rw [stepsOf, List.map_eq_nil_iff, List.filter_eq_nil_iff]
    exact fun x hx ↦ by simpa using hpre x hx
  intro u
  have hu := h u
  by_cases htu : t = u
  · subst htu
    rw [stepsOf_cons_self, stepsOf_append, hnone, List.nil_append, stepsOf_cons_self,
      List.cons.injEq] at hu
    rw [stepsOf_append, hnone, List.nil_append]
    exact hu.2
  · rw [stepsOf_cons_of_ne htu, stepsOf_append, stepsOf_cons_of_ne htu] at hu
    rw [stepsOf_append]
    exact hu

/-- Labels for the steps of each thread are labels for the interleaving of them. -/
theorem exists_labels {B : Type w} {R : B → A → Prop} {xs : List (T × A)} {labels : T → List B}
    {rest : T → List A} (h : ∀ t, List.Forall₂ R (labels t) (stepsOf t xs ++ rest t)) :
    ∃ ys : List (T × B), List.Forall₂ (fun y x ↦ y.1 = x.1 ∧ R y.2 x.2) ys xs ∧
      ∀ t, stepsOf t ys <+: labels t := by
  induction xs generalizing labels with
  | nil => exact ⟨[], .nil, fun t ↦ List.nil_prefix⟩
  | cons x xs ih =>
      obtain ⟨t, a⟩ := x
      have hfirst := h t
      rw [stepsOf_cons_self, List.cons_append, List.forall₂_cons_right_iff] at hfirst
      obtain ⟨b, bs, hb, hbs, hlabels⟩ := hfirst
      have hrest : ∀ u, List.Forall₂ R (Function.update labels t bs u)
          (stepsOf u xs ++ rest u) := by
        intro u
        by_cases htu : u = t
        · subst htu
          rwa [Function.update_self]
        · have hu := h u
          rwa [stepsOf_cons_of_ne (Ne.symm htu), ← Function.update_of_ne htu bs labels] at hu
      obtain ⟨ys, hys, hbegins⟩ := ih hrest
      refine ⟨(t, b) :: ys, .cons ⟨rfl, hb⟩ hys, fun u ↦ ?_⟩
      by_cases htu : u = t
      · subst htu
        have hu := hbegins u
        rw [Function.update_self] at hu
        rw [stepsOf_cons_self, hlabels]
        exact List.cons_prefix_cons.mpr ⟨rfl, hu⟩
      · have hu := hbegins u
        rw [Function.update_of_ne htu] at hu
        rwa [stepsOf_cons_of_ne (Ne.symm htu)]

/-- What relates two interleavings step by step relates each thread of them. -/
theorem forall₂_stepsOf {B : Type*} {R : B → A → Prop} {ys : List (T × B)} {xs : List (T × A)}
    (h : List.Forall₂ (fun y x ↦ y.1 = x.1 ∧ R y.2 x.2) ys xs) (t : T) :
    List.Forall₂ R (stepsOf t ys) (stepsOf t xs) := by
  induction h with
  | nil => exact .nil
  | @cons y x ys xs hyx _ ih =>
      by_cases hx : x.1 = t
      · subst hx
        have hy : y = (x.1, y.2) := Prod.ext hyx.1 rfl
        rw [hy, stepsOf_cons_self, show x = (x.1, x.2) from rfl, stepsOf_cons_self]
        exact .cons hyx.2 ih
      · rw [stepsOf_cons_of_ne (hyx.1 ▸ hx), stepsOf_cons_of_ne hx]
        exact ih

/-- The runs take the same steps. -/
theorem SameThreads.mem {xs ys : List (T × A)} (h : SameThreads xs ys) {x : T × A}
    (hx : x ∈ ys) : x ∈ xs := by
  have hstep : x.2 ∈ stepsOf x.1 ys :=
    List.mem_map_of_mem (List.mem_filter.mpr ⟨hx, decide_eq_true rfl⟩)
  rw [← h] at hstep
  obtain ⟨y, hy, heq⟩ := List.mem_map.mp hstep
  obtain ⟨hmem, hthread⟩ := List.mem_filter.mp hy
  rwa [← Prod.ext (of_decide_eq_true hthread) heq]

section

variable {step : S → T × A → S} {I : S → Prop} {P : T × A → Prop}

omit [DecidableEq T] in
/-- A step can be taken before steps that it commutes with. -/
theorem foldl_move (hI : ∀ s x, I s → P x → I (step s x)) {x : T × A} {pre : List (T × A)}
    (hpre : ∀ y ∈ pre, P y)
    (hcomm : ∀ s, I s → ∀ y ∈ pre, step (step s x) y = step (step s y) x) {s : S} (hs : I s) :
    step (pre.foldl step s) x = pre.foldl step (step s x) := by
  induction pre generalizing s with
  | nil => rfl
  | cons y pre ih =>
      rw [List.forall_mem_cons] at hpre
      have hrest : ∀ s, I s → ∀ z ∈ pre, step (step s x) z = step (step s z) x :=
        fun s hs z hz ↦ hcomm s hs z (List.mem_cons_of_mem y hz)
      rw [List.foldl_cons, List.foldl_cons, ih hpre.2 hrest (hI s y hs hpre.1),
        hcomm s hs y List.mem_cons_self]

/-- **The order of commuting threads does not matter**: on states that meet an invariant,
runs that interleave the same threads end in the same state. -/
theorem SameThreads.foldl_eq (hI : ∀ s x, I s → P x → I (step s x)) {xs ys : List (T × A)}
    (h : SameThreads xs ys) (hxs : ∀ x ∈ xs, P x)
    (hcomm : ∀ s, I s → ∀ x ∈ xs, ∀ y ∈ xs, x.1 ≠ y.1 → step (step s x) y = step (step s y) x)
    {s : S} (hs : I s) : xs.foldl step s = ys.foldl step s := by
  have hys : ∀ y ∈ ys, P y := fun y hy ↦ hxs y (h.mem hy)
  replace hcomm : ∀ s, I s → ∀ x ∈ xs, ∀ y ∈ ys, x.1 ≠ y.1 →
      step (step s x) y = step (step s y) x :=
    fun s hs x hx y hy ↦ hcomm s hs x hx y (h.mem hy)
  induction xs generalizing ys s with
  | nil => rw [eq_nil_of_sameThreads_nil h]
  | cons x xs ih =>
      obtain ⟨t, a⟩ := x
      obtain ⟨pre, post, rfl, hpre, -⟩ :=
        exists_split_of_stepsOf ((h t).symm.trans (stepsOf_cons_self t a xs))
      rw [List.forall_mem_cons] at hxs
      simp only [List.forall_mem_append, List.forall_mem_cons] at hys
      have hmove : step (pre.foldl step s) (t, a) = pre.foldl step (step s (t, a)) :=
        foldl_move hI hys.1 (fun s hs y hy ↦ hcomm s hs (t, a) List.mem_cons_self y
          (List.mem_append_left _ hy) (hpre y hy).symm) hs
      have hrest : ∀ s, I s → ∀ x ∈ xs, ∀ y ∈ pre ++ post, x.1 ≠ y.1 →
          step (step s x) y = step (step s y) x := by
        intro s hs x hx y hy
        refine hcomm s hs x (List.mem_cons_of_mem _ hx) y ?_
        rcases List.mem_append.mp hy with hy | hy
        · exact List.mem_append_left _ hy
        · exact List.mem_append_right _ (List.mem_cons_of_mem _ hy)
      calc xs.foldl step (step s (t, a))
          = (pre ++ post).foldl step (step s (t, a)) :=
            ih (h.of_cons hpre) hxs.2 (hI s (t, a) hs hxs.1)
              (List.forall_mem_append.mpr ⟨hys.1, hys.2.2⟩) hrest
        _ = (pre ++ (t, a) :: post).foldl step s := by
            rw [List.foldl_append, List.foldl_append, List.foldl_cons, hmove]

end
