import Mathlib.Data.List.Infix

/-!
# Paths in a tree

A path is a list of steps.  Two paths are *incomparable* when neither is a prefix
of the other: their subtrees are disjoint.  `TreeUpdate` is what it means for one
reading of a tree to come from another by an update at a single path.
-/

universe u v

variable {K : Type u} {V : Type v}

/-- Neither path is a prefix of the other. -/
def Incomparable (p q : List K) : Prop := ¬ p <+: q ∧ ¬ q <+: p

namespace Incomparable

theorem symm {p q : List K} (h : Incomparable p q) : Incomparable q p := ⟨h.2, h.1⟩

theorem ne_nil_left {p q : List K} (h : Incomparable p q) : p ≠ [] := fun hp ↦
  h.1 (hp ▸ List.nil_prefix)

theorem ne_nil_right {p q : List K} (h : Incomparable p q) : q ≠ [] := h.symm.ne_nil_left

/-- Paths that part at the first step are incomparable; otherwise their tails are. -/
theorem cons_iff {a b : K} {p q : List K} :
    Incomparable (a :: p) (b :: q) ↔ a ≠ b ∨ Incomparable p q := by
  simp only [Incomparable, List.cons_prefix_cons]
  constructor
  · rintro ⟨h, h'⟩
    by_cases hab : a = b
    · exact .inr ⟨fun hp ↦ h ⟨hab, hp⟩, fun hq ↦ h' ⟨hab.symm, hq⟩⟩
    · exact .inl hab
  · rintro (hab | ⟨h, h'⟩)
    · exact ⟨fun hp ↦ hab hp.1, fun hq ↦ hab hq.1.symm⟩
    · exact ⟨fun hp ↦ h hp.2, fun hq ↦ h' hq.2⟩

end Incomparable

/-- `after` reads like `before` updated at `p` with the value `v`: `p` reads `v`,
the paths above it read branches, and the paths beside it read what they did. -/
structure TreeUpdate (isBranch : V → Prop) (p : List K) (v : V)
    (before after : List K → Option V) : Prop where
  self : after p = some v
  above : ∀ q, q ≠ [] → q <+: p → q ≠ p → ∃ b, after q = some b ∧ isBranch b
  beside : ∀ q, Incomparable p q → after q = before q

/-! ## Several updates -/

/-- A reading of a tree: what is below a path is reached through branches. -/
def IsTree (isBranch : V → Prop) (read : List K → Option V) : Prop :=
  ∀ p q v, p ≠ [] → q ≠ [] → read (p ++ q) = some v → ∃ b, read p = some b ∧ isBranch b

/-- The writes of some values that are no branches, at paths of which none is above
another; a write may be repeated. -/
def WritesApart (isBranch : V → Prop) (ws : List (List K × V)) : Prop :=
  ∀ w ∈ ws, w.1 ≠ [] ∧ ¬ isBranch w.2 ∧ ∀ w' ∈ ws, w.1 <+: w'.1 → w = w'

/-- A tree has what was written to it, and besides only the branches on the way. -/
structure Written (isBranch : V → Prop) (ws : List (List K × V)) (read : List K → Option V) :
    Prop where
  written : ∀ w ∈ ws, read w.1 = some w.2
  read_eq : ∀ q v, q ≠ [] → read q = some v →
    (q, v) ∈ ws ∨ isBranch v ∧ ∃ w ∈ ws, q <+: w.1 ∧ q ≠ w.1

variable {isBranch : V → Prop} {ws : List (List K × V)} {before after : List K → Option V}
  {p : List K} {v : V}

theorem WritesApart.mono {ws' : List (List K × V)} (h : WritesApart isBranch ws) (hsub : ws' ⊆ ws) :
    WritesApart isBranch ws' := by
  intro w hw
  obtain ⟨hne, hscalar, hbelow⟩ := h w (hsub hw)
  exact ⟨hne, hscalar, fun w' hw' ↦ hbelow w' (hsub hw')⟩

theorem Written.update (h : Written isBranch ws before) (hu : TreeUpdate isBranch p v before after)
    (htree : IsTree isBranch after) (hapart : WritesApart isBranch (ws ++ [(p, v)])) :
    Written isBranch (ws ++ [(p, v)]) after := by
  have hmem : (p, v) ∈ ws ++ [(p, v)] := List.mem_append_right _ (List.mem_singleton_self _)
  obtain ⟨hp, hscalar, hbelow⟩ := hapart (p, v) hmem
  constructor
  · intro w hw
    by_cases hpw : p <+: w.1
    · rw [← hbelow w hw hpw]
      exact hu.self
    by_cases hwp : w.1 <+: p
    · rw [(hapart w hw).2.2 (p, v) hmem hwp]
      exact hu.self
    · rcases List.mem_append.mp hw with hw | hw
      · rw [hu.beside w.1 ⟨hpw, hwp⟩]
        exact h.written w hw
      · rw [List.mem_singleton.mp hw] at hpw
        exact absurd (List.prefix_refl p) hpw
  · intro q u hq hread
    by_cases hqp : q <+: p
    · by_cases heq : q = p
      · subst heq
        rw [hu.self] at hread
        cases hread
        exact .inl hmem
      · obtain ⟨b, hb, hbranch⟩ := hu.above q hq hqp heq
        rw [hb] at hread
        cases hread
        exact .inr ⟨hbranch, (p, v), hmem, hqp, heq⟩
    by_cases hpq : p <+: q
    · -- there is nothing below the value that was written
      obtain ⟨r, rfl⟩ := hpq
      have hr : r ≠ [] := by
        rintro rfl
        rw [List.append_nil] at hqp
        exact hqp (List.prefix_refl p)
      obtain ⟨b, hb, hbranch⟩ := htree p r u hp hr hread
      rw [hu.self] at hb
      cases hb
      exact absurd hbranch hscalar
    · rw [hu.beside q ⟨hpq, hqp⟩] at hread
      rcases h.read_eq q u hq hread with hw | ⟨hbranch, w, hw, habove⟩
      · exact .inl (List.mem_append_left _ hw)
      · exact .inr ⟨hbranch, w, List.mem_append_left _ hw, habove⟩
