import WideLog.Hooks.Registry
import WideLog.Lib.Run
import Mathlib.Data.List.Count

/-!
# Hook stacks and live guards

What a step does to the counts of hooks on the stacks, and to the order they are in:
which drops leave every stack with the hooks of the guards that were built on it.
-/

namespace WideLog.HookThread

universe u

/-! ## Counts -/

section Counts

variable {S : Type u} {t t' : HookThread S} {op : HookOp S} {g : HookGuard S}
  {debugAssertions : Bool}

theorem mem_guardsIn {context : Option Nat} :
    g ∈ t.guardsIn context ↔ g ∈ t.guards ∧ g.home = context := by
  simp [guardsIn]

theorem guardsIn_cons (hguards : t'.guards = g :: t.guards) (context : Option Nat) :
    t'.guardsIn context =
      if g.home = context then g :: t.guardsIn context else t.guardsIn context := by
  unfold guardsIn
  rw [hguards, List.filter_cons]
  by_cases h : g.home = context <;> simp [h]

theorem guardsIn_congr (hguards : t'.guards = t.guards) : t'.guardsIn = t.guardsIn := by
  unfold guardsIn
  rw [hguards]

/-- No guard was built in a scope that is yet to come. -/
theorem Numbered.guardsIn_next (ht : t.Numbered) : t.guardsIn (some t.next) = [] := by
  rw [List.eq_nil_iff_forall_not_mem]
  intro g hg
  obtain ⟨hg, hhome⟩ := mem_guardsIn.mp hg
  exact Nat.lt_irrefl _ (ht.home_lt g hg _ hhome)

variable [DecidableEq S]

theorem guardsIn_erase (hguards : t'.guards = t.guards.erase g) (context : Option Nat) :
    t'.guardsIn context = (t.guardsIn context).erase g := by
  rw [guardsIn, guardsIn, hguards, List.erase_filter]

theorem mem_of_target {schema : S} {st : HookStack S} (h : t.target schema = some st) :
    st ∈ t.hookStacks ∧ st.Has schema := by
  rcases t.target_cases schema with ⟨hhas, heq⟩ | ⟨-, hhas, heq⟩ | ⟨-, -, heq⟩
  · cases heq.symm.trans h
    exact ⟨t.active_mem, hhas⟩
  · cases heq.symm.trans h
    exact ⟨t.logHooks_mem, hhas⟩
  · cases heq.symm.trans h

/-- A pop changes the stack it finds the hook on, and no other. -/
theorem popped_eq (ht : t.Numbered) {schema : S} {st : HookStack S} (hst : st ∈ t.hookStacks) :
    t.popped schema st =
      if t.target schema = some st then { st with hooks := st.hooks.eraseP (·.schema = schema) }
      else st := by
  unfold popped
  cases htarget : t.target schema with
  | none => rfl
  | some st' =>
      by_cases hcontext : st.context = st'.context
      · have heq : st' = st :=
          (List.inj_on_of_nodup_map ht.nodup hst (mem_of_target htarget).1 hcontext).symm
        rw [if_pos (congrArg some heq), heq]
        exact if_pos rfl
      · have hne : some st' ≠ some st := by
          rintro ⟨⟩
          exact hcontext rfl
        rw [if_neg hne]
        exact if_neg hcontext

/-- Removing the first hook of a schema takes one of that schema away. -/
theorem countP_eraseP {hooks : List (Hook S)} {schema : S} (h : ∃ h ∈ hooks, h.schema = schema)
    (schema' : S) :
    (hooks.eraseP (·.schema = schema)).countP (·.schema = schema') +
      (if schema = schema' then 1 else 0) = hooks.countP (·.schema = schema') := by
  obtain ⟨hook, hhook, hschema⟩ := h
  obtain ⟨a, l₁, l₂, -, ha, hl, herase⟩ :=
    List.exists_of_eraseP (p := fun h : Hook S ↦ decide (h.schema = schema)) hhook (by simpa)
  have ha : a.schema = schema := by simpa using ha
  rw [herase, hl]
  simp only [List.countP_append, List.countP_cons, ha, decide_eq_true_eq]
  omega

theorem countP_popped (ht : t.Numbered) {st : HookStack S} (hst : st ∈ t.hookStacks)
    (schema schema' : S) :
    (t.popped schema st).hooks.countP (·.schema = schema') +
      (if t.target schema = some st ∧ schema = schema' then 1 else 0) =
        st.hooks.countP (·.schema = schema') := by
  rw [popped_eq ht hst]
  by_cases htarget : t.target schema = some st
  · simp only [htarget, true_and, if_true]
    exact countP_eraseP (mem_of_target htarget).2 schema'
  · simp [htarget]

/-- A drop ends the life of its own guard. -/
theorem countP_guardsIn (hg : g ∈ t.guards) (hguards : t'.guards = t.guards.erase g)
    (context : Option Nat) (schema' : S) :
    (t'.guardsIn context).countP (·.schema = schema') +
      (if g.home = context ∧ g.schema = schema' then 1 else 0) =
        (t.guardsIn context).countP (·.schema = schema') := by
  rw [guardsIn_erase hguards, List.countP_erase]
  by_cases h : g.home = context ∧ g.schema = schema'
  · have hmem : g ∈ t.guardsIn context := mem_guardsIn.mpr ⟨hg, h.1⟩
    have hpos : 0 < (t.guardsIn context).countP (·.schema = schema') :=
      List.countP_pos_iff.mpr ⟨g, hmem, by simpa using h.2⟩
    rw [if_pos h, if_pos ⟨hmem, by simpa using h.2⟩]
    omega
  · have hnot : ¬ (g ∈ t.guardsIn context ∧ decide (g.schema = schema') = true) := by
      rintro ⟨hmem, hschema⟩
      exact h ⟨(mem_guardsIn.mp hmem).2, by simpa using hschema⟩
    rw [if_neg h, if_neg hnot]
    omega

/-- A stack has a hook of a schema when somebody who is still there installed one. -/
theorem Counted.has_iff (hc : t.Counted) {st : HookStack S} (hst : st ∈ t.hookStacks) (schema : S) :
    st.Has schema ↔ t.Installed st schema := by
  have hcount := hc st hst schema
  have hhas : st.Has schema ↔ 0 < st.hooks.countP (·.schema = schema) := by
    simp [HookStack.Has, List.countP_pos_iff]
  have hguards : (∃ g ∈ t.guards, g.home = st.context ∧ g.schema = schema) ↔
      0 < (t.guardsIn st.context).countP (·.schema = schema) := by
    simp [List.countP_pos_iff, mem_guardsIn, and_assoc]
  have hseed : (∃ h ∈ st.seed, h.schema = schema) ↔ 0 < st.seed.countP (·.schema = schema) := by
    simp [List.countP_pos_iff]
  rw [Installed, hhas, hguards, hseed]
  omega

/-- A drop keeps the counts when the stack it pops from is the one the guard was built
on. -/
theorem Counted.drop_iff (ht : t.Numbered) (hc : t.Counted) (hg : g ∈ t.guards)
    (hstacks : t'.hookStacks = t.hookStacks.map (t.popped g.schema))
    (hguards : t'.guards = t.guards.erase g) :
    t'.Counted ↔ ∀ st ∈ t.hookStacks, t.target g.schema = some st ↔ g.home = st.context := by
  unfold Counted at hc ⊢
  rw [hstacks, List.forall_mem_map]
  refine forall₂_congr fun st hst ↦ ?_
  rw [context_popped, seed_popped]
  have hpopped := countP_popped ht hst g.schema
  have hguard := countP_guardsIn hg hguards st.context
  have hcount := hc st hst
  constructor
  · intro h
    have hschema := h g.schema
    have hpopped := hpopped g.schema
    have hguard := hguard g.schema
    have hcount := hcount g.schema
    simp only [and_true] at hpopped hguard
    have hsame : (if t.target g.schema = some st then 1 else 0) =
        if g.home = st.context then 1 else 0 := by omega
    by_cases htarget : t.target g.schema = some st <;>
      by_cases hhome : g.home = st.context <;> simp [htarget, hhome] at hsame ⊢
  · intro h schema'
    have hpopped := hpopped schema'
    have hguard := hguard schema'
    have hcount := hcount schema'
    simp only [h] at hpopped
    omega

/-- The stack a pop finds is the one the guard was built on when the guard is dropped
there. -/
theorem Counted.target_iff (ht : t.Numbered) (hc : t.Counted) (hg : g ∈ t.guards) :
    (∀ st ∈ t.hookStacks, t.target g.schema = some st ↔ g.home = st.context) ↔ t.DropsThere g := by
  have hactive := hc.has_iff t.active_mem g.schema
  have hlog := hc.has_iff t.logHooks_mem g.schema
  -- A guard installed a hook where it was built.
  have hhome : ∀ st : HookStack S, ¬ t.Installed st g.schema → g.home ≠ st.context :=
    fun st hnot heq ↦ hnot (.inl ⟨g, hg, heq, rfl⟩)
  have hcontext : ∀ st ∈ t.hookStacks, ∀ st' ∈ t.hookStacks,
      (some st' = some st ↔ st'.context = st.context) := by
    intro st hst st' hst'
    constructor
    · rintro ⟨⟩
      rfl
    · intro heq
      rw [List.inj_on_of_nodup_map ht.nodup hst' hst heq]
  rcases t.target_cases g.schema with ⟨hhas, heq⟩ | ⟨hnot, hhas, heq⟩ | ⟨hnot, hnot', heq⟩
  · rw [heq]
    constructor
    · intro h
      exact .inl ((h _ t.active_mem).mp rfl)
    · rintro (h | ⟨hnot, -⟩) st hst
      · rw [hcontext st hst _ t.active_mem, h]
      · exact absurd (hactive.mp hhas) hnot
  · rw [heq]
    rw [hactive] at hnot
    constructor
    · intro h
      exact .inr ⟨hnot, .inl (((h _ t.logHooks_mem).mp rfl).trans ht.thread)⟩
    · rintro (h | ⟨-, h | ⟨-, hnot'⟩⟩) st hst
      · exact absurd h (hhome _ hnot)
      · rw [hcontext st hst _ t.logHooks_mem, ht.thread, h]
      · exact absurd (hlog.mp hhas) hnot'
  · rw [heq]
    rw [hactive] at hnot
    rw [hlog] at hnot'
    constructor
    · intro h
      refine .inr ⟨hnot, .inr ⟨?_, hnot'⟩⟩
      rintro ⟨st, hst, hst'⟩
      cases (h st hst).mpr hst'.symm
    · rintro (h | ⟨-, h | ⟨hclosed, -⟩⟩) st hst
      · exact absurd h (hhome _ hnot)
      · exact absurd (h.trans ht.thread.symm) (hhome _ hnot')
      · exact iff_of_false nofun fun h ↦ hclosed ⟨st, hst, h.symm⟩

/-- What a drop does to the stacks and to the guards. -/
theorem Step.drop_cases (h : Step debugAssertions t (.drop g) t') (ht : t.Numbered) :
    g ∈ t.guards ∧ t'.hookStacks = t.hookStacks.map (t.popped g.schema) ∧
      t'.guards = t.guards.erase g := by
  rcases h.cases ht with ⟨_, ⟨⟩, -⟩ | ⟨g', hg, heq, hstacks, hguards, -⟩ | ⟨_, ⟨⟩, -⟩ | ⟨hop, -⟩
  · cases heq
    exact ⟨hg, hstacks, hguards⟩
  · exact absurd rfl (hop g)

/-- The steps that are not drops keep the counts. -/
theorem Counted.step_of_ne (h : Step debugAssertions t op t') (ht : t.Numbered) (hc : t.Counted)
    (hop : ∀ g, op ≠ .drop g) : t'.Counted := by
  rcases h.cases ht with ⟨schema, -, hstacks, hguards, -⟩ | ⟨g, -, rfl, -⟩ |
    ⟨schema, -, -, hstacks, hguards, -⟩ | ⟨-, -, hstacks, hguards, -⟩
  · unfold Counted
    rw [hstacks, List.forall_mem_map]
    intro st hst schema'
    have hcount := hc st hst schema'
    rw [guardsIn_cons hguards, context_changed, seed_changed]
    unfold changed
    by_cases hcontext : st.context = t.active.context
    · simp only [hcontext, if_true, List.countP_cons] at hcount ⊢
      omega
    · simp only [hcontext, Ne.symm hcontext, if_false]
      exact hcount
  · exact absurd rfl (hop g)
  · intro st hst schema'
    rw [guardsIn_congr hguards]
    rcases List.mem_cons.mp (hstacks.mem_iff.mp hst) with rfl | hst
    · show _ = ((t.guardsIn (some t.next)).countP _) + _
      rw [ht.guardsIn_next, List.countP_nil, Nat.zero_add]
      rfl
    · exact hc st hst schema'
  · intro st hst
    rw [guardsIn_congr hguards]
    exact hc st (hstacks.subset hst)

/-- A step keeps the counts exactly when, if it is a drop, it finds the stack the guard
was built on. -/
theorem Counted.step_iff (h : Step debugAssertions t op t') (ht : t.Numbered) (hc : t.Counted) :
    t'.Counted ↔ t.InReach op := by
  cases op with
  | drop g =>
      obtain ⟨hg, hstacks, hguards⟩ := h.drop_cases ht
      exact (hc.drop_iff ht hg hstacks hguards).trans (hc.target_iff ht hg)
  | _ => exact iff_of_true (hc.step_of_ne h ht nofun) trivial

end Counts

/-! ## Order -/

section Order

variable {S : Type u} {t t' : HookThread S} {op : HookOp S} {g : HookGuard S}
  {debugAssertions : Bool}

/-- Every stack has what it should have, in the order it came. -/
def Settled (t : HookThread S) : Prop := ∀ st ∈ t.hookStacks, st.hooks = t.expected st

theorem settled_new : (new : HookThread S).Settled := by
  intro st hst
  cases List.mem_singleton.mp hst
  rfl

theorem Numbered.sorted_guardsIn (ht : t.Numbered) (context : Option Nat) :
    (t.guardsIn context).Pairwise fun g g' ↦ g'.id < g.id :=
  ht.sorted.sublist List.filter_sublist

theorem Settled.intact (hs : t.Settled) : t.Intact := by
  intro st hst
  rw [hs st hst, expected]
  refine ⟨fun g hg ↦ ?_, List.subset_append_right _ _⟩
  exact List.mem_append_left _ (List.mem_map_of_mem hg)

variable [DecidableEq S]

theorem Settled.counted (hs : t.Settled) : t.Counted := by
  intro st hst schema
  rw [hs st hst, expected, List.countP_append, List.countP_map]
  rfl

/-- The latest guard of a schema is the first one a pop meets. -/
theorem eraseP_of_latest {l : List (HookGuard S)} {seed : List (Hook S)}
    (hsorted : l.Pairwise fun g g' ↦ g'.id < g.id) (hg : g ∈ l)
    (hlatest : ∀ g' ∈ l, g'.schema = g.schema → g'.id ≤ g.id) :
    (l.map HookGuard.hook ++ seed).eraseP (·.schema = g.schema) =
      (l.erase g).map HookGuard.hook ++ seed := by
  induction l with
  | nil => cases hg
  | cons a l ih =>
      rw [List.pairwise_cons] at hsorted
      rw [List.map_cons, List.cons_append]
      by_cases hschema : a.schema = g.schema
      · have hag : a = g := by
          rcases List.mem_cons.mp hg with rfl | hg
          · rfl
          · exact absurd (hsorted.1 g hg) (Nat.not_lt.mpr (hlatest a List.mem_cons_self hschema))
        rw [List.eraseP_cons, HookGuard.schema_hook, decide_eq_true hschema, cond_true, hag,
          List.erase_cons_head]
      · have hne : a ≠ g := fun h ↦ hschema (congrArg HookGuard.schema h)
        have hgl : g ∈ l := (List.mem_cons.mp hg).resolve_left fun h ↦ hne h.symm
        rw [List.eraseP_cons, HookGuard.schema_hook, decide_eq_false hschema, cond_false,
          List.erase_cons_tail (by simpa using hne),
          ih hsorted.2 hgl fun g' hg' ↦ hlatest g' (List.mem_cons_of_mem _ hg')]
        rfl

/-- If a pop leaves the hooks of the other guards, no guard of the schema came later. -/
theorem latest_of_eraseP {l : List (HookGuard S)} {seed : List (Hook S)}
    (hsorted : l.Pairwise fun g g' ↦ g'.id < g.id) (hg : g ∈ l)
    (hseed : ∀ h ∈ seed, ∀ g' ∈ l, h.owner ≠ g'.id)
    (hkept : ∀ g' ∈ l.erase g,
      g'.hook ∈ (l.map HookGuard.hook ++ seed).eraseP (·.schema = g.schema)) :
    ∀ g' ∈ l, g'.schema = g.schema → g'.id ≤ g.id := by
  induction l with
  | nil => cases hg
  | cons a l ih =>
      rw [List.pairwise_cons] at hsorted
      rw [List.map_cons, List.cons_append] at hkept
      by_cases hschema : a.schema = g.schema
      · rw [List.eraseP_cons, HookGuard.schema_hook, decide_eq_true hschema, cond_true] at hkept
        have hag : a = g := by
          by_contra hne
          have hmem := hkept a ((List.mem_erase_of_ne hne).mpr List.mem_cons_self)
          rcases List.mem_append.mp hmem with hmem | hmem
          · obtain ⟨g', hg', heq⟩ := List.mem_map.mp hmem
            exact Nat.ne_of_lt (hsorted.1 g' hg') (congrArg Hook.owner heq)
          · exact hseed _ hmem a List.mem_cons_self rfl
        rw [List.forall_mem_cons, hag]
        exact ⟨fun _ ↦ Nat.le_refl _, fun g' hg' _ ↦ Nat.le_of_lt (hag ▸ hsorted.1 g' hg')⟩
      · have hne : a ≠ g := fun h ↦ hschema (congrArg HookGuard.schema h)
        have hgl : g ∈ l := (List.mem_cons.mp hg).resolve_left fun h ↦ hne h.symm
        rw [List.forall_mem_cons]
        refine ⟨fun h ↦ absurd h hschema, ih hsorted.2 hgl ?_ ?_⟩
        · exact fun h hh g' hg' ↦ hseed h hh g' (List.mem_cons_of_mem _ hg')
        · intro g' hg'
          rw [List.eraseP_cons, HookGuard.schema_hook, decide_eq_false hschema, cond_false,
            List.erase_cons_tail (by simpa using hne)] at hkept
          refine (List.mem_cons.mp (hkept g' (List.mem_cons_of_mem _ hg'))).resolve_left ?_
          intro heq
          have hlt := hsorted.1 g' (List.mem_of_mem_erase hg')
          exact Nat.ne_of_lt hlt (congrArg Hook.owner heq)

theorem Settled.step (h : Step debugAssertions t op t') (hop : t.InTurn op) (ht : t.Numbered)
    (hs : t.Settled) : t'.Settled := by
  rcases h.cases ht with ⟨schema, -, hstacks, hguards, -⟩ | ⟨g, hg, rfl, hstacks, hguards, -⟩ |
    ⟨schema, -, -, hstacks, hguards, -⟩ | ⟨-, -, hstacks, hguards, -⟩
  · unfold Settled
    rw [hstacks, List.forall_mem_map]
    intro st hst
    have hhooks := hs st hst
    unfold expected at hhooks ⊢
    rw [guardsIn_cons hguards, context_changed, seed_changed]
    unfold changed
    by_cases hcontext : st.context = t.active.context
    · rw [if_pos hcontext, if_pos hcontext.symm]
      exact congrArg (_ :: ·) hhooks
    · rw [if_neg hcontext, if_neg (Ne.symm hcontext)]
      exact hhooks
  · have htarget := (hs.counted.target_iff ht hg).mpr hop.1
    unfold Settled
    rw [hstacks, List.forall_mem_map]
    intro st hst
    have hhooks := hs st hst
    unfold expected at hhooks ⊢
    rw [guardsIn_erase hguards, context_popped, seed_popped, popped_eq ht hst]
    by_cases hhome : g.home = st.context
    · have hmem : g ∈ t.guardsIn st.context := mem_guardsIn.mpr ⟨hg, hhome⟩
      have hlatest := hop.2 ⟨st, hst, hhome.symm⟩
      rw [if_pos ((htarget st hst).mpr hhome), hhooks]
      refine eraseP_of_latest (ht.sorted_guardsIn _) hmem ?_
      intro g' hg'
      obtain ⟨hg', hhome'⟩ := mem_guardsIn.mp hg'
      exact hlatest g' hg' (hhome'.trans hhome.symm)
    · have hnot : g ∉ t.guardsIn st.context := fun h ↦ hhome (mem_guardsIn.mp h).2
      rw [if_neg fun h ↦ hhome ((htarget st hst).mp h), List.erase_of_not_mem hnot]
      exact hhooks
  · intro st hst
    unfold expected
    rw [guardsIn_congr hguards]
    rcases List.mem_cons.mp (hstacks.mem_iff.mp hst) with rfl | hst
    · show _ = (t.guardsIn (some t.next)).map _ ++ _
      rw [ht.guardsIn_next]
      rfl
    · exact hs st hst
  · intro st hst
    unfold expected
    rw [guardsIn_congr hguards]
    exact hs st (hstacks.subset hst)

/-- From stacks that have what they should have in order, a step keeps counts and
hooks exactly when it is in turn. -/
theorem Settled.step_iff (h : Step debugAssertions t op t') (ht : t.Numbered) (hs : t.Settled) :
    (t'.Counted ∧ t'.Intact) ↔ t.InTurn op := by
  constructor
  · rintro ⟨hcounted, hintact⟩
    have hreach := (hs.counted.step_iff h ht).mp hcounted
    cases op with
    | drop g =>
        obtain ⟨hg, hstacks, hguards⟩ := h.drop_cases ht
        refine ⟨hreach, ?_⟩
        rintro ⟨st, hst, hhome⟩
        have htarget := ((hs.counted.target_iff ht hg).mpr hreach st hst).mpr hhome.symm
        have hmem : t.popped g.schema st ∈ t'.hookStacks :=
          hstacks ▸ List.mem_map_of_mem hst
        have hkept := (hintact _ hmem).1
        rw [context_popped, popped_eq ht hst, if_pos htarget, guardsIn_erase hguards,
          hs st hst] at hkept
        have hlatest := latest_of_eraseP (ht.sorted_guardsIn _)
          (mem_guardsIn.mpr ⟨hg, hhome.symm⟩)
          (fun h hh g' hg' ↦ (ht.placed st hst).seed_ne h hh g' (mem_guardsIn.mp hg').1) hkept
        intro g' hg' hhome' hschema
        exact hlatest g' (mem_guardsIn.mpr ⟨hg', hhome'.trans hhome.symm⟩) hschema
    | _ => trivial
  · intro hop
    have hs' := hs.step h hop ht
    exact ⟨hs'.counted, hs'.intact⟩

end Order

/-! ## Runs -/

section Runs

variable {S : Type u} [DecidableEq S] {t : HookThread S} {debugAssertions : Bool}
  {tr : List (HookThread S × HookOp S)}

/-- **The stacks have as many hooks as there are live guards exactly when every guard
is dropped where its hook is found**, and no guard or scope loses its hook to another
exactly when guards of one schema and context are besides dropped in the reverse
order. -/
theorem hooks_mirror_guards_iff (h : Run (Step debugAssertions) new tr t) :
    ((∀ r ∈ Run.states tr t, r.Counted) ↔ ∀ x ∈ tr, x.1.InReach x.2) ∧
      ((∀ r ∈ Run.states tr t, r.Counted ∧ r.Intact) ↔ ∀ x ∈ tr, x.1.InTurn x.2) := by
  have hnew : (new : HookThread S).Settled := settled_new
  constructor
  · refine h.forall_states_iff (I := fun r ↦ r.Numbered ∧ r.Counted) ?_ ?_
      ⟨numbered_new, hnew.counted⟩ hnew.counted
    · rintro s a s' hstep hop ⟨hs, hc⟩
      exact ⟨hs.step hstep, (hc.step_iff hstep hs).mpr hop⟩
    · rintro s a s' hstep ⟨hs, hc⟩
      exact hc.step_iff hstep hs
  · refine h.forall_states_iff (I := fun r ↦ r.Numbered ∧ r.Settled) ?_ ?_
      ⟨numbered_new, hnew⟩ ⟨hnew.counted, hnew.intact⟩
    · rintro s a s' hstep hop ⟨hs, hset⟩
      exact ⟨hs.step hstep, hset.step hstep hop hs⟩
    · rintro s a s' hstep ⟨hs, hset⟩
      exact hset.step_iff hstep hs

end Runs

/-- One schema, with a guard inside a scope inside a guard. -/
def inScope : HookThread Nat := ((new.build 0).enter 0).build 0

/-- The guard inside the scope. -/
def innerGuard : HookGuard Nat := ⟨2, 0, some 1⟩

/-- The guard outside the scope. -/
def outerGuard : HookGuard Nat := ⟨0, 0, none⟩

/-- The steps that build them, and drop each where it was built. -/
def wellNested : List (HookThread Nat × HookOp Nat) :=
  [(new, .build 0), (new.build 0, .enter 0), ((new.build 0).enter 0, .build 0),
    (inScope, .drop innerGuard), (inScope.drop true innerGuard, .leave),
    (⟨⟨none, [], [outerGuard.hook]⟩, [], [], [outerGuard], 3⟩, .drop outerGuard)]

theorem hooks_mirror_guards_iff_wellNested :
    (∀ x ∈ wellNested, x.1.InTurn x.2) ∧
      ∀ r ∈ Run.states wellNested ⟨.thread, [], [], [], 3⟩, r.Counted ∧ r.Intact := by
  have hrun : Run (Step true) new wellNested ⟨.thread, [], [], [], 3⟩ :=
    .cons (.build _ _) (.cons (.enter _ _) (.cons (.build _ _)
      (.cons (.drop (by decide)) (.cons (.leave rfl) (.cons (.drop (by decide)) (.nil _))))))
  have hops : ∀ x ∈ wellNested, x.1.InTurn x.2 := by
    simp only [wellNested, List.forall_mem_cons]
    refine ⟨trivial, trivial, trivial, ⟨.inl rfl, fun _ ↦ ?_⟩, trivial, ⟨.inl rfl, fun _ ↦ ?_⟩,
      nofun⟩
    · show ∀ g' ∈ [innerGuard, outerGuard], _ → _ → _
      decide
    · show ∀ g' ∈ [outerGuard], _ → _ → _
      decide
  exact ⟨hops, (hooks_mirror_guards_iff hrun).2.mpr hops⟩

/-- **A guard that leaves its scope takes the hook of another guard**: the guard
outside the scope is alive, and the stack of the thread is empty. -/
theorem hooks_not_mirrored :
    ¬ ∀ tr t, Run (Step true) (new : HookThread Nat) tr t →
      ∀ r ∈ Run.states tr t, r.Counted ∧ r.Intact := by
  intro h
  have hrun : Run (Step true) new
      [(new, .build 0), (new.build 0, .enter 0), ((new.build 0).enter 0, .build 0),
        (inScope, .leave), ({ inScope with polled := [] }, .drop innerGuard)]
      ⟨.thread, [], [], [outerGuard], 3⟩ :=
    .cons (.build _ _) (.cons (.enter _ _) (.cons (.build _ _) (.cons (.leave rfl)
      (.cons (.drop (by decide)) (.nil _)))))
  obtain ⟨hcounted, -⟩ := h _ _ hrun _ (Run.mem_states_last _ _)
  exact absurd (hcounted .thread List.mem_cons_self 0) (by decide)

end WideLog.HookThread
