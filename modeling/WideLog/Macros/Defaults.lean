import WideLog.Count
import WideLog.Macros.Leaves
import WideLog.Macros.Lifecycle

/-!
# The defaults of a schema

What the default statements of `build` leave in an empty event: the leaves of the
schema at their paths, and the objects on the way.  The statements of the second walks
write what is there already.
-/

namespace WideLog.Macros

open JsonNode

variable {tc : Toolchain} {input : List TokenTree}

/-- The default statements, as calls of `add_path`. -/
def Program.defaultStmts (p : Program) : List (List p.EventKey × DefaultValue) := p.defaults

/-- A default statement by the names of its keys. -/
def Program.named (p : Program) (d : List p.EventKey × DefaultValue) : DefaultEntry :=
  ⟨d.1.map Key.asStr, d.2⟩

/-- An event holds the leaves of a schema at their paths, and otherwise only the
objects on the way to them. -/
structure Program.HoldsLeaves (p : Program) (root : JsonNode) (ev : WideEvent p.EventKey) :
    Prop where
  leaf : ∀ d ∈ root.leaves, ∃ path : List p.EventKey, path.map Key.asStr = d.segments ∧
    ev.read path = some (p.defaultValue d.value)
  slot : ∀ path v, ev.read path = some v →
    (∃ d ∈ root.leaves, path.map Key.asStr = d.segments ∧ v = p.defaultValue d.value) ∨
      (∃ child, v = .object child) ∧
        ∃ d ∈ root.leaves, path.map Key.asStr <+: d.segments ∧ path.map Key.asStr ≠ d.segments
  tidy : ev.Everywhere WideEvent.Tidy

theorem defaultValue_ne_object {p : Program} (value : DefaultValue) :
    ¬ ∃ child, p.defaultValue value = .object child := by
  rintro ⟨child, h⟩
  cases value <;> cases h

namespace Accepted

variable (a : Accepted tc input)

/-- Keys with the same name are the same. -/
theorem asStr_injective : Function.Injective (Key.asStr : a.program.EventKey → String) := by
  have hnames : (keyStrs a.program.EventKey).Nodup := by
    rw [a.reads.keyStrs]
    exact a.tables.keyIndex.nodup
  exact asStr_injective_of_nodup hnames

theorem named_injective : Function.Injective a.program.named := by
  rintro ⟨path, value⟩ ⟨path', value'⟩ h
  have hpath : path = path' :=
    List.map_injective_iff.mpr a.asStr_injective (congrArg DefaultEntry.segments h)
  have hvalue : value = value' := congrArg DefaultEntry.value h
  rw [hpath, hvalue]

/-- The default statements are those of the context. -/
theorem map_named_defaults : a.program.defaultStmts.map a.program.named = a.ctx.defaults := by
  obtain ⟨hnodup, dur, ts, id, arms, defaults, -, -, -, -, hdefaults, hp⟩ := compile_ok a.compiled
  have htables := a.tables
  have hdeclares : ∀ d ∈ a.ctx.defaults, a.ctx.Declares d.segments :=
    fun d hd ↦ (htables.defaults d hd).2
  rw [hp]
  show defaults.map (fun s ↦ (⟨s.1.map fun i ↦ (a.ctx.keys.get i).jsonName, s.2⟩ : DefaultEntry)) =
    a.ctx.defaults
  clear hp
  generalize a.ctx.defaults = ds at hdefaults hdeclares ⊢
  induction hdefaults with
  | nil => rfl
  | cons hs _ ih =>
      rw [List.forall_mem_cons] at hdeclares
      rw [List.map_cons, ih hdeclares.2,
        jsonNames_variantsOf htables hnodup hdeclares.1 hs.2, hs.1]

/-- The statements write the leaves in the order of the source, then some of them again. -/
theorem exists_walked : ∃ walked again, a.program.defaultStmts = walked ++ again ∧
    walked.map a.program.named = a.root.leaves ∧
      ∀ d ∈ again, a.program.named d ∈ a.root.leaves := by
  obtain ⟨entries, hroot, hd⟩ := a.exists_entries
  have hresolve := a.resolved
  rw [hroot] at hd hresolve ⊢
  obtain ⟨c, hduration, hevent, -⟩ := GenContext.resolve_ok hresolve
  obtain ⟨again, hdefaults, hagain⟩ := defaults_of_passes hd hduration hevent
  rw [← a.map_named_defaults, List.map_eq_append_iff] at hdefaults
  obtain ⟨walked, again', happend, hwalked, hagain'⟩ := hdefaults
  refine ⟨walked, again', happend, hwalked, ?_⟩
  intro d hmem
  exact hagain _ (hagain' ▸ List.mem_map_of_mem hmem)

theorem named_mem {d : List a.program.EventKey × DefaultValue} (hd : d ∈ a.program.defaultStmts) :
    a.program.named d ∈ a.root.leaves := by
  obtain ⟨walked, again, happend, hwalked, hagain⟩ := a.exists_walked
  rw [happend, List.mem_append] at hd
  rcases hd with hd | hd
  · exact hwalked ▸ List.mem_map_of_mem hd
  · exact hagain d hd

/-- The default statements are apart: none writes above another. -/
theorem writesApart :
    WritesApart (fun b ↦ ∃ child, b = .object child)
      (a.program.defaultStmts.map a.program.write) := by
  obtain ⟨entries, hroot, hd⟩ := a.exists_entries
  intro w hw
  obtain ⟨d, hd', rfl⟩ := List.mem_map.mp hw
  refine ⟨a.reads.defaults d hd', defaultValue_ne_object d.2, ?_⟩
  intro w' hw' hpre
  obtain ⟨e, he, rfl⟩ := List.mem_map.mp hw'
  have hdleaf := a.named_mem hd'
  have heleaf := a.named_mem he
  rw [hroot] at hd hdleaf heleaf
  rw [a.named_injective (leaves_apart hd hdleaf heleaf (hpre.map _))]

/-- **The defaults of a schema.**  The default statements leave an event with the leaves
of the schema and the objects on the way to them, and those of the first walk alone
leave the same event. -/
theorem defaults_applied (env : Env a.program.EventKey) :
    ∃ walked again ev, a.program.defaultStmts = walked ++ again ∧
      walked.map a.program.named = a.root.leaves ∧
      applyDefaults env a.program.defaultStmts .new = .ret ev ∧
      applyDefaults env walked .new = .ret ev ∧ a.program.HoldsLeaves a.root ev := by
  obtain ⟨walked, again, happend, hwalked, hagain⟩ := a.exists_walked
  have hne : ∀ d ∈ a.program.defaultStmts, d.1 ≠ [] := a.reads.defaults
  have hsub : walked ⊆ a.program.defaultStmts := happend ▸ List.subset_append_left walked again
  have hwritten := WideEvent.written_insertAll (a.writesApart.mono (List.map_subset _ hsub))
  -- what is recorded again was written by the first walk
  have hrepeated : ∀ w ∈ again.map a.program.write,
      (WideEvent.new.insertAll (walked.map a.program.write)).read w.1 = some w.2 := by
    intro w hw
    obtain ⟨d, hd, rfl⟩ := List.mem_map.mp hw
    have hleaf := hagain d hd
    rw [← hwalked] at hleaf
    obtain ⟨e, he, hnamed⟩ := List.mem_map.mp hleaf
    rw [← a.named_injective hnamed]
    exact hwritten.written _ (List.mem_map_of_mem he)
  have hevent := applyDefaults_eq env hne quiet_new
  rw [happend, List.map_append, WideEvent.insertAll_append,
    WideEvent.insertAll_again hrepeated, ← happend] at hevent
  have hfirst := applyDefaults_eq env (fun d hd ↦ hne d (hsub hd)) quiet_new
  refine ⟨walked, again, _, happend, hwalked, hevent, hfirst, ?_, ?_, ?_⟩
  · intro d hd
    rw [← hwalked] at hd
    obtain ⟨e, he, rfl⟩ := List.mem_map.mp hd
    exact ⟨e.1, rfl, hwritten.written _ (List.mem_map_of_mem he)⟩
  · intro path v hread
    have hpath : path ≠ [] := by
      rintro rfl
      cases hread
    rcases hwritten.read_eq path v hpath hread with hw | ⟨hobject, w, hw, hpre, hne⟩
    · obtain ⟨d, hd, hwrite⟩ := List.mem_map.mp hw
      cases hwrite
      exact .inl ⟨a.program.named d, hwalked ▸ List.mem_map_of_mem hd, rfl, rfl⟩
    · obtain ⟨d, hd, rfl⟩ := List.mem_map.mp hw
      refine .inr ⟨hobject, a.program.named d, hwalked ▸ List.mem_map_of_mem hd, hpre.map _, ?_⟩
      exact fun heq ↦ hne (List.map_injective_iff.mpr a.asStr_injective heq)
  · refine (WideEvent.everywhere_new WideEvent.tidy_new rfl).insertAll WideEvent.stable_tidy ?_
    rw [List.forall_mem_map]
    exact fun d _ ↦ everywhere_defaultValue d.2

end Accepted

/-- A schema with a default in the event object, which is walked twice. -/
def sourceSchema : List TokenTree :=
  [objectTokens [("event", [objectTokens [("source", [.literal "\"api\""])]])]]

theorem defaults_applied_source : ∃ (a : Accepted asciiToolchain sourceSchema)
    (walked again : List (List a.program.EventKey × DefaultValue))
    (ev : WideEvent a.program.EventKey), walked.length = 1 ∧ again.length = 1 ∧
      applyDefaults .release a.program.defaultStmts .new = .ret ev ∧
      applyDefaults .release walked .new = .ret ev ∧ a.program.HoldsLeaves a.root ev := by
  have hdefaults : (wideLog asciiToolchain sourceSchema).map (·.defaults.length) = some 2 := by
    decide +kernel
  have hleaves : (parseWideLogInput asciiToolchain sourceSchema).toOption.map
      (·.2.leaves.length) = some 1 := by decide +kernel
  obtain ⟨p, hp, hlength⟩ := Option.map_eq_some_iff.mp hdefaults
  obtain ⟨a, rfl⟩ := exists_accepted hp
  obtain ⟨walked, again, ev, happend, hwalked, hevent, hfirst, hholds⟩ :=
    a.defaults_applied .release
  have hone : walked.length = 1 := by
    rw [← List.length_map (f := a.program.named), hwalked]
    exact a.map_parse hleaves
  have hsum : a.program.defaultStmts.length = walked.length + again.length := by
    rw [happend, List.length_append]
  have htwo : a.program.defaultStmts.length = 2 := hlength
  exact ⟨a, walked, again, ev, hone, by omega, hevent, hfirst, hholds⟩

end WideLog.Macros
