import AgenticCore.InstructionApplicability
import AgenticCore.CapabilityContract

/-!
# Whether a scoped instruction applies (`instruction_applicability.rs`)

* `Applicability`        : what a scope comes to under the current paths and selected routes.
* `applicability`        : the scope's path and route conditions, evaluated.
* `Host.instructionView` : the public view, which checks its input first.
-/

set_option autoImplicit false

namespace AgenticCore.InstructionApplicability

open Json Text

structure Input where
  paths : List String
  routes : List String
  changedPaths : List String
  selectedRoutes : List String
  targetPatterns : List String
  routePosture : String

/-- A list of texts. -/
def texts (v : Value) : Option (List String) := v.asArray.bind (·.mapM Value.asStr)

def Input.ofValue (v : Value) : Option Input := do
  let field ← v.structFields
    ["paths", "routes", "changed_paths", "selected_routes", "target_patterns", "route_posture"]
  let paths ← (field "paths").bind texts
  let routes ← (field "routes").bind texts
  let changedPaths ← (field "changed_paths").bind texts
  let selectedRoutes ← (field "selected_routes").bind texts
  let targetPatterns ← match field "target_patterns" with
    | none => some []
    | some v => texts v
  let routePosture ← (field "route_posture").bind Value.asStr
  pure { paths, routes, changedPaths, selectedRoutes, targetPatterns, routePosture }

/-- `trim_matches('/')`. -/
def trimSlashes (s : String) : String :=
  String.ofList ((s.toList.dropWhile (· = '/')).reverse.dropWhile (· = '/')).reverse

/-- `replace('\\', "/")`. -/
def forwardSlashes (s : String) : String :=
  String.ofList (s.toList.map fun c => if c = '\\' then '/' else c)

/-- The selector names the route, or a branch the route is in. -/
def selects (selector route : String) : Bool :=
  match stripSuffix "/**" selector with
  | none => route = selector
  | some branch => route = branch ∨ startsWith (branch ++ "/") route = true

structure Applicability where
  status : String
  applies : Bool
  pathApplies : Bool
  routeApplies : Bool
  reason : String
  matchedPaths : List String

def Applicability.toValue (a : Applicability) : Value :=
  .object [
    ("applies", .bool a.applies),
    ("matched_paths", .strings a.matchedPaths),
    ("path_applies", .bool a.pathApplies),
    ("reason", .string a.reason),
    ("route_applies", .bool a.routeApplies),
    ("status", .string a.status)]

section Reasons

variable (input : Input) (matched : List String) (pathApplies routeApplies : Bool)

/-- Why the scope applies. -/
def positiveReasons : List String :=
  (if input.paths = [] then ["global path scope"]
    else match matched with
      | first :: _ =>
        [first ++ " matches " ++ (input.paths.find? (matchesPattern · first)).getD ""]
      | [] => ["resource destination intersects declared path scope"]) ++
    if input.routes = [] then []
    else ["selected semantic route matches " ++ ", ".intercalate input.routes]

/-- Why it does not. -/
def negativeReasons : List String :=
  (if pathApplies then []
    else ["no changed or target path matches " ++ ", ".intercalate input.paths]) ++
    if routeApplies then []
    else if input.routePosture ≠ "selected" then
      ["semantic route selection is " ++ input.routePosture]
    else ["no selected semantic route matches " ++ ", ".intercalate input.routes]

end Reasons

/-- `view`, on an input that has been read. -/
def applicability (input : Input) : Result Applicability := do
  let selected := input.selectedRoutes.map fun r => trimSlashes (trim r)
  let _ ← routeIds selected "instruction selected routes"
  let selectors := input.routes.map fun r => trimSlashes (trim r)
  let _ ← routeIds (selectors.map fun r => (stripSuffix "/**" r).getD r) "instruction selectors"
  let matched := sortDedup ((input.changedPaths.map forwardSlashes).filter fun p =>
    input.paths.any (matchesPattern · p))
  let pathApplies : Bool := input.paths = [] ∨ matched ≠ [] ∨
    input.paths.any (fun p => input.targetPatterns.any (patternsOverlap p ·)) = true
  let routeApplies : Bool := input.routes = [] ∨
    input.routePosture = "selected" ∧ selectors.any (fun s => selected.any (selects s ·)) = true
  let applies := pathApplies && routeApplies
  let unresolved : Bool :=
    pathApplies = true ∧ input.routes ≠ [] ∧ input.routePosture = "unresolved"
  pure {
    status := if unresolved then "unresolved" else if applies then "applicable"
      else "not-applicable"
    applies, pathApplies, routeApplies
    reason := "; ".intercalate
      (if applies then positiveReasons input matched
        else negativeReasons input pathApplies routeApplies)
    matchedPaths := matched }

/-- `view`; `schema` is the checked schema of its input. -/
def Host.instructionView (host : Host) (schema value : Value) : Result Value := do
  let accepts ← host.schemaValidator schema "instruction applicability"
  check (accepts value = true) MALFORMED
  let input ← okOr (Input.ofValue value) MALFORMED
  let result ← applicability input
  pure result.toValue

end AgenticCore.InstructionApplicability
