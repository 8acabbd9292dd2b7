import Mathlib.Data.List.Nodup
import WideLog.Lib.Json.Grammar

/-!
# Distinct member names

RFC 8259 lets an object repeat a name, but leaves open what that means.  A value
has distinct names when no object in it repeats one.
-/

namespace Json

mutual

/-- No object of the value has two members of one name. -/
def DistinctNames : Json → Prop
  | .arr elems => ElementsDistinct elems
  | .obj members => (members.map Prod.fst).Nodup ∧ MembersDistinct members
  | _ => True
termination_by structural j => j

def ElementsDistinct : List Json → Prop
  | [] => True
  | j :: js => j.DistinctNames ∧ ElementsDistinct js
termination_by structural js => js

def MembersDistinct : List (String × Json) → Prop
  | [] => True
  | (_, j) :: members => j.DistinctNames ∧ MembersDistinct members
termination_by structural members => members

end

theorem elementsDistinct_iff {js : List Json} :
    ElementsDistinct js ↔ ∀ j ∈ js, j.DistinctNames := by
  induction js with
  | nil => simp [ElementsDistinct]
  | cons j js ih => rw [ElementsDistinct, ih, List.forall_mem_cons]

theorem membersDistinct_iff {members : List (String × Json)} :
    MembersDistinct members ↔ ∀ m ∈ members, m.2.DistinctNames := by
  induction members with
  | nil => simp [MembersDistinct]
  | cons m members ih => rw [MembersDistinct, ih, List.forall_mem_cons]

/-- An object has distinct names if its own members and the objects below have. -/
theorem distinctNames_obj {members : List (String × Json)} :
    (obj members).DistinctNames ↔
      (members.map Prod.fst).Nodup ∧ ∀ m ∈ members, m.2.DistinctNames := by
  rw [DistinctNames, membersDistinct_iff]

theorem distinctNames_arr {elems : List Json} :
    (arr elems).DistinctNames ↔ ∀ j ∈ elems, j.DistinctNames := by
  rw [DistinctNames, elementsDistinct_iff]

mutual

/-- A value whose members have other names. -/
def mapNames (f : String → String) : Json → Json
  | .null => .null
  | .bool b => .bool b
  | .int n => .int n
  | .real x => .real x
  | .str s => .str s
  | .arr elems => .arr (elementsMapNames f elems)
  | .obj members => .obj (membersMapNames f members)
termination_by structural j => j

def elementsMapNames (f : String → String) : List Json → List Json
  | [] => []
  | j :: js => j.mapNames f :: elementsMapNames f js
termination_by structural js => js

def membersMapNames (f : String → String) : List (String × Json) → List (String × Json)
  | [] => []
  | (name, j) :: members => (f name, j.mapNames f) :: membersMapNames f members
termination_by structural members => members

end

variable {f : String → String}

theorem elementsMapNames_eq_map (js : List Json) : elementsMapNames f js = js.map (mapNames f) := by
  induction js with
  | nil => rfl
  | cons j js ih => rw [elementsMapNames, ih, List.map_cons]

theorem membersMapNames_eq_map (members : List (String × Json)) :
    membersMapNames f members = members.map fun m ↦ (f m.1, m.2.mapNames f) := by
  induction members with
  | nil => rfl
  | cons m members ih => rw [membersMapNames, ih, List.map_cons]

end Json
