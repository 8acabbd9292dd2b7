import WideLog.Core.TreeMap
import WideLog.Lib.Json.Names
import WideLog.Serialize.Tree

/-!
# The member names of an event

The names of an object are those of its present slots, then the log key if there
are entries.  The names of the slots come from one table; the log key, the level
key and the message key do not.
-/

namespace WideLog

variable {K : Type} [Key K]

/-- The key strings, in the order of the keys. -/
def keyStrs (K : Type) [Key K] : List String := (Key.keys : List K).map Key.asStr

/-- A schema whose key strings repeat nothing, and whose log, level and message keys
are apart from what they are written next to. -/
structure NamesApart (K : Type) [Key K] : Prop where
  keys : (keyStrs K).Nodup
  log : Key.logKey K ∉ keyStrs K
  entry : Key.levelKey K ≠ Key.messageKey K

/-- Different keys have different strings, in a table without repetitions. -/
theorem asStr_injective_of_nodup (h : (keyStrs K).Nodup) :
    Function.Injective (Key.asStr : K → String) := by
  have hmem (k : K) : k ∈ (Key.keys : List K) := List.mem_of_getElem? (Key.keys_asIndex k)
  exact fun j k heq ↦ List.inj_on_of_nodup_map h (hmem j) (hmem k) heq

/-! ## Names of members -/

/-- The names of the slots that are present, in the order of the keys. -/
theorem names_members_sublist (keys : List K) (trees : List (Option Json)) :
    ((members keys trees).map Prod.fst).Sublist (keys.map Key.asStr) := by
  induction keys generalizing trees with
  | nil => exact List.Sublist.refl []
  | cons key keys ih =>
      cases trees with
      | nil =>
          rw [members_nil_right]
          exact List.nil_sublist _
      | cons tree trees =>
          rw [members_cons, List.map_append, List.map_cons]
          cases tree with
          | none => exact (ih trees).cons _
          | some j => exact (ih trees).cons_cons _

theorem mem_members_tree {keys : List K} {trees : List (Option Json)} {m : String × Json}
    (h : m ∈ members keys trees) : some m.2 ∈ trees := by
  obtain ⟨⟨key, i⟩, -, hm⟩ := List.mem_filterMap.mp h
  obtain ⟨j, hj, rfl⟩ := Option.map_eq_some_iff.mp hm
  exact List.mem_of_getElem? (Option.join_eq_some_iff.mp hj)

theorem distinctNames_logEntry (h : NamesApart K) (entry : LogEntry) :
    (entry.tree K).DistinctNames := by
  rw [LogEntry.tree, Json.distinctNames_obj]
  refine ⟨by simpa using h.entry, ?_⟩
  simp only [List.forall_mem_cons]
  exact ⟨trivial, trivial, by simp⟩

/-- The members of an event have distinct names, if the trees of its slots have. -/
theorem distinctNames_members (h : NamesApart K) (logEntries : List LogEntry)
    {trees : List (Option Json)} (htrees : ∀ j, some j ∈ trees → j.DistinctNames) :
    (Json.obj (members (Key.keys : List K) trees ++ logMembers K logEntries)).DistinctNames := by
  have hsub := names_members_sublist (Key.keys : List K) trees
  rw [Json.distinctNames_obj, List.map_append, List.forall_mem_append]
  refine ⟨?_, fun m hm ↦ htrees _ (mem_members_tree hm), ?_⟩
  · unfold logMembers
    split_ifs
    · simpa using hsub.nodup h.keys
    · rw [List.map_singleton, List.nodup_append]
      refine ⟨hsub.nodup h.keys, List.nodup_singleton _, ?_⟩
      rintro name hname _ hlog rfl
      rw [List.mem_singleton.mp hlog] at hname
      exact h.log (hsub.subset hname)
  · unfold logMembers
    split_ifs
    · simp
    · rw [List.forall_mem_singleton, Json.distinctNames_arr, List.forall_mem_map]
      exact fun entry _ ↦ distinctNames_logEntry h entry

mutual

theorem distinctNames_value (h : NamesApart K) (v : Value K) : v.tree.DistinctNames :=
  match v with
  | .null => trivial
  | .bool _ => trivial
  | .i64 _ => trivial
  | .u64 _ => trivial
  | .f64 _ => by
      unfold Value.tree
      split_ifs <;> trivial
  | .str _ => trivial
  | .staticStr _ => trivial
  | .array arr => Json.distinctNames_arr.mpr (distinctNames_elements h arr)
  | .object obj => distinctNames_event h obj
termination_by structural v

theorem distinctNames_elements (h : NamesApart K) (vs : List (Value K)) :
    ∀ j ∈ elementTrees vs, j.DistinctNames :=
  match vs with
  | [] => by simp [elementTrees]
  | v :: vs => List.forall_mem_cons.mpr ⟨distinctNames_value h v, distinctNames_elements h vs⟩
termination_by structural vs

/-- **The tree of every event has distinct names**, if the schema keeps its names apart. -/
theorem distinctNames_event (h : NamesApart K) (ev : WideEvent K) : ev.tree.DistinctNames :=
  match ev with
  | ⟨values, logEntries, _, _⟩ =>
      distinctNames_members h logEntries (distinctNames_slots h values)
termination_by structural ev

theorem distinctNames_slots (h : NamesApart K) (slots : List (Option (Value K))) :
    ∀ j, some j ∈ slotTrees slots → j.DistinctNames :=
  match slots with
  | [] => by simp [slotTrees]
  | none :: slots => by
      simpa [slotTrees] using distinctNames_slots h slots
  | some v :: slots => by
      intro j hj
      rw [slotTrees, List.mem_cons, Option.some.injEq] at hj
      rcases hj with rfl | hj
      · exact distinctNames_value h v
      · exact distinctNames_slots h slots j hj
termination_by structural slots

end

/-! ## Names that clash -/

namespace WideEvent

/-- A present slot is a member. -/
theorem mem_tree_of_slot {ev : WideEvent K} {k : K} {v : Value K}
    (hv : ev.slot (Key.asIndex k) = some v) :
    (Key.asStr k, v.tree) ∈ (Key.keys : List K).zipIdx.filterMap fun (key, i) ↦
      (ev.slot i).map fun v ↦ (Key.asStr key, v.tree) := by
  refine List.mem_filterMap.mpr ⟨(k, Key.asIndex k), ?_, by simp [hv]⟩
  rw [List.mem_zipIdx_iff_getElem?]
  exact Key.keys_asIndex k

/-- Names that clash in an event within clash in the whole. -/
theorem distinctNames_eventAt {p : List K} {ev e : WideEvent K} (h : ev.tree.DistinctNames)
    (he : ev.eventAt p = some e) : e.tree.DistinctNames := by
  induction p generalizing ev with
  | nil =>
      cases he
      exact h
  | cons k p ih =>
      rw [eventAt] at he
      split at he
      · rename_i child hslot
        rw [tree_eq, Json.distinctNames_obj] at h
        have hmem := List.mem_append_left (logMembers K ev.logEntries) (mem_tree_of_slot hslot)
        exact ih (h.2 _ hmem) he
      · cases he

/-- A slot under the log key clashes with the log. -/
theorem not_distinctNames_log {ev : WideEvent K} {k : K} (hk : Key.asStr k = Key.logKey K)
    (hslot : (ev.slot (Key.asIndex k)).isSome) (hlog : ev.logEntries ≠ []) :
    ¬ ev.tree.DistinctNames := by
  obtain ⟨v, hv⟩ := Option.isSome_iff_exists.mp hslot
  intro h
  rw [tree_eq, Json.distinctNames_obj, List.map_append, List.nodup_append] at h
  have hname := List.mem_map_of_mem (f := Prod.fst) (mem_tree_of_slot hv)
  have hentries : ev.logEntries.isEmpty = false := by simpa using hlog
  refine h.1.2.2 _ hname (Key.logKey K) ?_ hk
  simp [logMembers, hentries]

/-- An entry clashes with itself if its two keys are the same. -/
theorem not_distinctNames_entry {ev : WideEvent K} (hkeys : Key.levelKey K = Key.messageKey K)
    (hlog : ev.logEntries ≠ []) : ¬ ev.tree.DistinctNames := by
  obtain ⟨entry, entries, hentries⟩ := List.exists_cons_of_ne_nil hlog
  intro h
  rw [tree_eq, Json.distinctNames_obj] at h
  have hmem : (Key.logKey K, Json.arr (ev.logEntries.map (LogEntry.tree K))) ∈
      logMembers K ev.logEntries := by simp [logMembers, hentries]
  have harr := h.2 _ (List.mem_append_right _ hmem)
  rw [Json.distinctNames_arr, hentries, List.map_cons, List.forall_mem_cons, LogEntry.tree,
    Json.distinctNames_obj] at harr
  simpa [hkeys] using harr.1.1

end WideEvent

end WideLog
