import WideLog.Lib.Json.Grammar
import WideLog.Lib.Leaves

/-!
# Looking up the members of a JSON value

A reader that follows a path of names takes the first member of each name.
-/

namespace Json

/-- The value is an object. -/
def isObject : Json → Bool
  | .obj _ => true
  | _ => false

/-- The first member of a name, in an object. -/
def member (name : String) : Json → Option Json
  | .obj members => (members.find? (·.1 = name)).map Prod.snd
  | _ => none

/-- What is found under a path of names and is no object. -/
def leaves (j : Json) : Leaves String Json
  | [] => if j.isObject then none else some j
  | name :: names => (j.member name).bind fun j ↦ j.leaves names

theorem member_obj_append (name : String) (ms ms' : List (String × Json)) :
    (Json.obj (ms ++ ms')).member name =
      ((Json.obj ms).member name).or ((Json.obj ms').member name) := by
  simp only [member, List.find?_append, Option.map_or]

theorem member_eq_none {name : String} {ms : List (String × Json)}
    (h : name ∉ ms.map Prod.fst) : (Json.obj ms).member name = none := by
  rw [member, Option.map_eq_none_iff, List.find?_eq_none]
  intro m hm hname
  exact h (List.mem_map.mpr ⟨m, hm, of_decide_eq_true hname⟩)

/-- Where the names are distinct, a member is found under its name. -/
theorem member_of_mem {name : String} {j : Json} {ms : List (String × Json)}
    (hnodup : (ms.map Prod.fst).Nodup) (h : (name, j) ∈ ms) :
    (Json.obj ms).member name = some j := by
  induction ms with
  | nil => cases h
  | cons m ms ih =>
      rw [List.map_cons, List.nodup_cons] at hnodup
      rcases List.mem_cons.mp h with rfl | h
      · simp [member]
      · have hne : m.1 ≠ name := fun heq ↦
          hnodup.1 (heq ▸ List.mem_map_of_mem (f := Prod.fst) h)
        rw [member, List.find?_cons_of_neg (by simpa using hne)]
        exact ih hnodup.2 h

end Json
