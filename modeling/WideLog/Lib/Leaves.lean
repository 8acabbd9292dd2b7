import Mathlib.Tactic.Basic
import WideLog.Lib.Paths

/-!
# The leaves of a tree

A tree with labelled edges, seen from the outside, is the partial function from
paths to the leaves at their ends.  Grafting a tree at a path replaces whatever is
there: what was below the path is gone, and a leaf that stood in the way as well.
-/

universe u v

/-- The leaf at the end of each path, if there is one. -/
abbrev Leaves (K : Type u) (V : Type v) : Type max u v := List K → Option V

namespace Leaves

variable {K : Type u} {V : Type v}

/-- The part of a tree below a path. -/
def below (p : List K) (f : Leaves K V) : Leaves K V := fun q ↦ f (p ++ q)

open Classical in
/-- A tree with `t` put in place of what is at `p`. -/
noncomputable def graft (f : Leaves K V) (p : List K) (t : Leaves K V) : Leaves K V := fun q ↦
  if p <+: q then t (q.drop p.length) else if q <+: p then none else f q

variable {p q : List K} {t f : Leaves K V}

theorem graft_append (f : Leaves K V) (p q : List K) (t : Leaves K V) :
    f.graft p t (p ++ q) = t q := by
  rw [graft, if_pos (List.prefix_append p q), List.drop_left]

/-- No leaf stands in the way to the grafted tree. -/
theorem graft_above (h : q <+: p) (hne : q ≠ p) : f.graft p t q = none := by
  have hpq : ¬ p <+: q := fun hpq ↦ hne (h.eq_of_length_le hpq.length_le)
  rw [graft, if_neg hpq, if_pos h]

theorem graft_beside (h : Incomparable p q) : f.graft p t q = f q := by
  rw [graft, if_neg h.1, if_neg h.2]

/-- A tree that holds `t` at `p`, nothing above it and besides what `f` holds is `f` with
`t` grafted. -/
theorem eq_graft {g : Leaves K V} (hbelow : below p g = t)
    (habove : ∀ r, r <+: p → r ≠ p → g r = none) (hbeside : ∀ r, Incomparable p r → g r = f r) :
    g = f.graft p t := by
  funext r
  by_cases hp : p <+: r
  · obtain ⟨s, rfl⟩ := hp
    rw [graft_append, ← hbelow, below]
  · by_cases hr : r <+: p
    · have hne : r ≠ p := fun heq ↦ hp (heq ▸ List.prefix_refl p)
      rw [habove r hr hne, graft_above hr hne]
    · rw [hbeside r ⟨hp, hr⟩, graft_beside ⟨hp, hr⟩]

end Leaves
