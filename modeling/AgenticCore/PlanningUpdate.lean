import AgenticCore.JsonPath

/-!
# Ordinary Planning updates (`native_planning_update.rs`, `planning_lifetime.rs`)

* `mergeMaterial`  : a delta merged into a document.
-/

set_option autoImplicit false

namespace AgenticCore.PlanningUpdate

open Json Text

/-! ## Deltas -/

mutual
/-- A null removes a member that is there; what is not there is taken as it stands. -/
def mergeMaterial (document : Value) : Value → Value
  | .object changes =>
    match document with
    | .object current => .object (mergeMembers current changes)
    | _ => .object changes
  | delta => delta
def mergeMembers (current : List (String × Value)) :
    List (String × Value) → List (String × Value)
  | [] => current
  | (key, value) :: changes =>
    if value = .null then mergeMembers (current.filter (·.1 ≠ key)) changes
    else
      match current.lookup key with
      | some prior =>
        mergeMembers (Value.insertMember key (mergeMaterial prior value) current) changes
      | none => mergeMembers (Value.insertMember key value current) changes
end

end AgenticCore.PlanningUpdate
