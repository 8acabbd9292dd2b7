import WideLog.Core.Rekey
import WideLog.Serialize.Names

/-!
# An event under other keys, serialized

Names are given to the slots when an event is serialized.  The tree of an event under
other keys is the tree of the event with other names for the members.
-/

namespace WideLog

variable {K K' : Type} [Key K] [Key K']

/-- The keys of the other enum are called what `f` makes of the names of these. -/
structure Rekeying.Renames (e : Rekeying K K') (f : String → String) : Prop where
  keys : (Key.keys : List K') = (Key.keys : List K).map e.key
  asStr : ∀ k, Key.asStr (e.key k) = f (Key.asStr k)
  logKey : Key.logKey K' = f (Key.logKey K)
  levelKey : Key.levelKey K' = f (Key.levelKey K)
  messageKey : Key.messageKey K' = f (Key.messageKey K)

variable {e : Rekeying K K'} {f : String → String}

theorem members_rekey (h : e.Renames f) (keys : List K) (trees : List (Option Json)) :
    members (keys.map e.key) (trees.map (Option.map (Json.mapNames f))) =
      Json.membersMapNames f (members keys trees) := by
  induction keys generalizing trees with
  | nil => rfl
  | cons key keys ih =>
      cases trees with
      | nil => rw [List.map_nil, members_nil_right, members_nil_right, Json.membersMapNames]
      | cons tree trees =>
          rw [List.map_cons, List.map_cons, members_cons, members_cons, ih, h.asStr]
          cases tree <;> rfl

theorem logMembers_rekey (h : e.Renames f) (logEntries : List LogEntry) :
    logMembers K' logEntries = Json.membersMapNames f (logMembers K logEntries) := by
  have hentry (entry : LogEntry) : entry.tree K' = (entry.tree K).mapNames f := by
    rw [LogEntry.tree, h.levelKey, h.messageKey]
    rfl
  unfold logMembers
  split_ifs
  · rfl
  · rw [Json.membersMapNames, Json.membersMapNames, Json.mapNames, Json.elementsMapNames_eq_map,
      List.map_map, h.logKey]
    exact congrArg (fun js ↦ [(f (Key.logKey K), Json.arr js)])
      (List.map_congr_left fun entry _ ↦ hentry entry)

mutual

theorem tree_rekey_value (h : e.Renames f) (v : Value K) :
    (v.rekey : Value K').tree = v.tree.mapNames f :=
  match v with
  | .null => rfl
  | .bool b => rfl
  | .i64 n => rfl
  | .u64 n => rfl
  | .f64 x => by
      show (if _ then _ else _) = Json.mapNames f (if _ then _ else _)
      split_ifs <;> rfl
  | .str s => rfl
  | .staticStr s => rfl
  | .array arr => congrArg Json.arr (tree_rekey_elements h arr)
  | .object obj => tree_rekey_event h obj
termination_by structural v

theorem tree_rekey_elements (h : e.Renames f) (vs : List (Value K)) :
    elementTrees (rekeyElements vs : List (Value K')) = Json.elementsMapNames f (elementTrees vs) :=
  match vs with
  | [] => rfl
  | v :: vs => congrArg₂ List.cons (tree_rekey_value h v) (tree_rekey_elements h vs)
termination_by structural vs

theorem tree_rekey_event (h : e.Renames f) (ev : WideEvent K) :
    (ev.rekey : WideEvent K').tree = ev.tree.mapNames f :=
  match ev with
  | ⟨values, logEntries, cb, n⟩ => by
      rw [WideEvent.rekey, WideEvent.tree, WideEvent.tree, Json.mapNames,
        Json.membersMapNames_eq_map, List.map_append, ← Json.membersMapNames_eq_map,
        ← Json.membersMapNames_eq_map, ← members_rekey h, ← logMembers_rekey h, h.keys,
        tree_rekey_slots h values]
termination_by structural ev

theorem tree_rekey_slots (h : e.Renames f) (slots : List (Option (Value K))) :
    slotTrees (rekeySlots slots : List (Option (Value K'))) =
      (slotTrees slots).map (Option.map (Json.mapNames f)) :=
  match slots with
  | [] => rfl
  | none :: slots => congrArg (none :: ·) (tree_rekey_slots h slots)
  | some v :: slots => congrArg₂ (fun j js ↦ some j :: js) (tree_rekey_value h v)
      (tree_rekey_slots h slots)
termination_by structural slots

end

end WideLog
