import WideLog.Core.Content
import WideLog.Lib.Json.Leaves
import WideLog.Serialize.Names

/-!
# A line says what its event says

A reader of the emitted JSON that follows a path of key strings finds the field of the
event at that path, and finds the log entries under the log key.
-/

namespace WideLog

variable {K : Type} [Key K]

/-- The fields of a content, as a reader of JSON finds them under the key strings, and
the log entries under the log key. -/
structure Content.ReadsAs (c : Content K) (j : Json) : Prop where
  fields : ∀ p, j.leaves (p.map Key.asStr) = (c.fields p).map Value.tree
  log : j.member (Key.logKey K) =
    if c.log.isEmpty then none else some (.arr (c.log.map (LogEntry.tree K)))

namespace WideEvent

/-! ## One event -/

/-- The slots of an event as members. -/
def slotMembers (ev : WideEvent K) : List (String × Json) :=
  (Key.keys : List K).zipIdx.filterMap fun (key, i) ↦
    (ev.slot i).map fun v ↦ (Key.asStr key, v.tree)

theorem tree_eq_slotMembers (ev : WideEvent K) :
    ev.tree = .obj (ev.slotMembers ++ logMembers K ev.logEntries) := tree_eq ev

variable (hkeys : (keyStrs K).Nodup) (hlog : Key.logKey K ∉ keyStrs K) (ev : WideEvent K)

theorem names_slotMembers_sublist :
    (ev.slotMembers.map Prod.fst).Sublist (keyStrs K) := by
  have hmembers : ev.slotMembers =
      members (Key.keys : List K) (slotTrees ev.values) := by
    have hslot (i : ℕ) : (slotTrees ev.values)[i]?.join = (ev.slot i).map Value.tree := by
      rw [slotTrees_eq_map, List.getElem?_map, slot]
      cases ev.values[i]? <;> rfl
    simp only [members, slotMembers, hslot, Option.map_map, Function.comp_def]
  rw [hmembers]
  exact names_members_sublist Key.keys _

include hkeys in
/-- A key finds the slot of the key. -/
theorem member_slotMembers (k : K) :
    (Json.obj ev.slotMembers).member (Key.asStr k) = (ev.slot (Key.asIndex k)).map Value.tree := by
  cases hslot : ev.slot (Key.asIndex k) with
  | some v =>
      exact Json.member_of_mem (ev.names_slotMembers_sublist.nodup hkeys) (mem_tree_of_slot hslot)
  | none =>
      refine Json.member_eq_none fun hmem ↦ ?_
      obtain ⟨m, hm, hname⟩ := List.mem_map.mp hmem
      obtain ⟨⟨key, i⟩, hkey, hv⟩ := List.mem_filterMap.mp hm
      obtain ⟨v, hslot', rfl⟩ := Option.map_eq_some_iff.mp hv
      obtain rfl : key = k := asStr_injective_of_nodup hkeys hname
      rw [List.mem_zipIdx_iff_getElem?] at hkey
      -- the key stands in its own place of the table only
      have hnodup : (Key.keys : List K).Nodup := hkeys.of_map
      obtain ⟨hi, hi'⟩ := List.getElem?_eq_some_iff.mp hkey
      obtain ⟨hj, hj'⟩ := List.getElem?_eq_some_iff.mp (Key.keys_asIndex key)
      obtain rfl : i = Key.asIndex key := hnodup.getElem_inj_iff.mp (hi'.trans hj'.symm)
      rw [hslot] at hslot'
      cases hslot'

include hkeys hlog in
theorem member_tree (k : K) :
    ev.tree.member (Key.asStr k) = (ev.slot (Key.asIndex k)).map Value.tree := by
  have hnone : (Json.obj (logMembers K ev.logEntries)).member (Key.asStr k) = none := by
    refine Json.member_eq_none fun hmem ↦ ?_
    unfold logMembers at hmem
    split_ifs at hmem
    · cases hmem
    · have hkey : Key.asStr k ∈ keyStrs K :=
        List.mem_map_of_mem (List.mem_of_getElem? (Key.keys_asIndex k))
      exact hlog ((List.mem_singleton.mp hmem : Key.asStr k = Key.logKey K) ▸ hkey)
  rw [tree_eq_slotMembers, Json.member_obj_append, member_slotMembers hkeys,
    hnone, Option.or_none]

include hlog in
/-- The log key finds the entries. -/
theorem member_tree_log : ev.tree.member (Key.logKey K) =
    if ev.logEntries.isEmpty then none
    else some (.arr (ev.logEntries.map (LogEntry.tree K))) := by
  have hnone : Key.logKey K ∉ ev.slotMembers.map Prod.fst :=
    fun hmem ↦ hlog (ev.names_slotMembers_sublist.subset hmem)
  rw [tree_eq_slotMembers, Json.member_obj_append, Json.member_eq_none hnone, Option.none_or,
    logMembers]
  split_ifs
  · rfl
  · simp [Json.member]

end WideEvent

/-! ## All fields -/

theorem isObject_tree (v : Value K) : v.tree.isObject = v.isObject := by
  cases v with
  | f64 x =>
      unfold Value.tree
      split_ifs <;> rfl
  | object ev => exact congrArg Json.isObject ev.tree_eq_slotMembers
  | _ => rfl

/-- Names lead through the JSON of a value as keys lead through the value. -/
theorem leaves_tree (hkeys : (keyStrs K).Nodup) (hlog : Key.logKey K ∉ keyStrs K) (p : List K)
    (v : Value K) :
    v.tree.leaves (p.map Key.asStr) = (v.leaves p).map Value.tree := by
  induction p generalizing v with
  | nil =>
      show (if v.tree.isObject then none else some v.tree) = (leafOf (some v)).map Value.tree
      rw [isObject_tree, leafOf, Option.filter_some]
      cases v.isObject <;> rfl
  | cons k ks ih =>
      cases v with
      | object ev =>
          have hev : (Value.object ev).leaves (k :: ks) =
              (ev.slot (Key.asIndex k)).bind fun v ↦ v.leaves ks :=
            WideEvent.leaves_append (List.cons_ne_nil k []) ks ev
          have htree : (Value.object ev).tree.leaves ((k :: ks).map Key.asStr) =
              (ev.tree.member (Key.asStr k)).bind fun j ↦ j.leaves (ks.map Key.asStr) := rfl
          rw [hev, htree, WideEvent.member_tree hkeys hlog]
          cases ev.slot (Key.asIndex k) with
          | none => rfl
          | some w => exact ih w
      | f64 x =>
          unfold Value.tree
          split_ifs <;> rfl
      | _ => rfl

/-- **The JSON of an event says what the event says.** -/
theorem WideEvent.readsAs_tree (hkeys : (keyStrs K).Nodup) (hlog : Key.logKey K ∉ keyStrs K)
    (ev : WideEvent K) : ev.content.ReadsAs ev.tree := by
  refine ⟨fun p ↦ ?_, member_tree_log hlog ev⟩
  cases p with
  | nil => exact leaves_tree hkeys hlog [] (.object ev)
  | cons k ks => exact leaves_tree hkeys hlog (k :: ks) (.object ev)

end WideLog
