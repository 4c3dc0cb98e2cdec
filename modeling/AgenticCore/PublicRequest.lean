import AgenticCore.CapabilityContract

/-!
# Intent: current work, activity routes and the public request (`lib.rs`)

* `currentWork`             : the work the intent names.
* `normalizeSemanticRoutes` : the routes selected for it, or why they are stale.
* `normalizePublicRequest`  : a public request against the current contract and the current work.
* `intendedOutcome`         : the outcome the intent asks for.

The intent is an object; the two normalisations also return it with their normal form put in place.
-/

set_option autoImplicit false

namespace AgenticCore

open Json Text

def PUBLIC_REQUEST_KIND : String := "agentic-workspace/public-request/v1"

structure CurrentWorkIdentity where
  kind : String
  id : String
  deriving DecidableEq

def CurrentWorkIdentity.ofValue (v : Value) : Option CurrentWorkIdentity := do
  let field ← v.structFields ["kind", "id"]
  let kind ← (field "kind").bind Value.asStr
  let id ← (field "id").bind Value.asStr
  pure ⟨kind, id⟩

def CurrentWorkIdentity.toValue (w : CurrentWorkIdentity) : Value :=
  .object [("id", .string w.id), ("kind", .string w.kind)]

def stringItems (v : Value) : Option (List String) := v.asArray.bind (·.mapM Value.asStr)

/-- The checks on a `current_work` member. -/
def workIdentity (v : Value) : Result CurrentWorkIdentity := do
  let parsed ← okOr (CurrentWorkIdentity.ofValue v) s!"intent.current_work is invalid: {MALFORMED}"
  let kind ← requireText parsed.kind "intent.current_work.kind"
  let id ← requireText parsed.id "intent.current_work.id"
  check (kind = "current-work") "intent.current_work.kind must be current-work"
  pure ⟨kind, id⟩

def currentWork (intent : Value) : Result (Option CurrentWorkIdentity) :=
  transposeM workIdentity (intent.get? "current_work")

/-! ## Semantic routes -/

structure SemanticRouteSource where
  revision : String
  routes : List String

def SemanticRouteSource.ofValue (v : Value) : Option SemanticRouteSource := do
  let field ← v.structFields ["revision", "routes"]
  let revision ← (field "revision").bind Value.asStr
  let routes ← (field "routes").bind stringItems
  pure ⟨revision, routes⟩

structure SemanticRouteSelection where
  posture : String
  routes : List String
  taskIdentity : CurrentWorkIdentity
  sourceRevision : String
  provenance : String
  authorityEffect : String

def SemanticRouteSelection.ofValue (v : Value) : Option SemanticRouteSelection := do
  let field ← v.structFields ["posture", "routes", "task_identity", "source_revision",
    "provenance", "authority_effect"]
  let posture ← (field "posture").bind Value.asStr
  let routes ← (field "routes").bind stringItems
  let taskIdentity ← (field "task_identity").bind CurrentWorkIdentity.ofValue
  let sourceRevision ← (field "source_revision").bind Value.asStr
  let provenance ← (field "provenance").bind Value.asStr
  let authorityEffect ← (field "authority_effect").bind Value.asStr
  pure ⟨posture, routes, taskIdentity, sourceRevision, provenance, authorityEffect⟩

def routeSource (v : Value) : Result SemanticRouteSource := do
  let parsed ← okOr (SemanticRouteSource.ofValue v)
    s!"intent.semantic_route_source is invalid: {MALFORMED}"
  let revision ← requireText parsed.revision "intent.semantic_route_source.revision"
  check (sha256Revision revision = true)
    "intent.semantic_route_source.revision must be a lowercase sha256 revision"
  let routes ← routeIds parsed.routes "intent.semantic_route_source.routes"
  pure ⟨revision, routes⟩

/-- A missing selection is an unresolved one for the current work. -/
def givenSelection (current : CurrentWorkIdentity) (source : SemanticRouteSource)
    (selection : Option Value) : Option SemanticRouteSelection :=
  match selection with
  | none => some ⟨"unresolved", [], current, source.revision, "agent-selected",
      "applicability-only"⟩
  | some v => SemanticRouteSelection.ofValue v

def routeSelection (current : CurrentWorkIdentity) (source : SemanticRouteSource)
    (selection : Option Value) : Result SemanticRouteSelection := do
  let parsed ← okOr (givenSelection current source selection)
    s!"intent.semantic_task_routes is invalid: {MALFORMED}"
  let routes ← routeIds parsed.routes "intent.semantic_task_routes.routes"
  check (parsed.posture ∈ ["selected", "none", "unresolved"])
    "intent.semantic_task_routes.posture must be selected, none, or unresolved"
  check (parsed.posture = "selected" ↔ routes ≠ [])
    "selected semantic-route posture requires routes; none and unresolved require no routes"
  check (parsed.provenance = "agent-selected" ∧ parsed.authorityEffect = "applicability-only")
    "semantic routes must be agent-selected and applicability-only"
  pure { parsed with routes }

def staleReasons (current : CurrentWorkIdentity) (source : SemanticRouteSource)
    (selection : SemanticRouteSelection) : List String :=
  (if selection.taskIdentity ≠ current then ["current-work-changed"] else []) ++
    (if selection.sourceRevision ≠ source.revision then ["route-source-changed"] else []) ++
    if selection.routes.any (· ∉ source.routes) then ["route-removed"] else []

/-- The selection as the intent carries it on; one that is not current is unresolved. -/
def routeValue (current : CurrentWorkIdentity) (source : SemanticRouteSource)
    (selection : SemanticRouteSelection) (status : String) : Value :=
  .object [
    ("authority_effect", .string "applicability-only"),
    ("posture", .string (if status = "current" then selection.posture else "unresolved")),
    ("provenance", .string "agent-selected"),
    ("routes", .strings (if status = "current" then selection.routes else [])),
    ("source_revision", .string source.revision),
    ("task_identity", current.toValue)]

def normalizeSemanticRoutes (intent : Value) : Result (Value × Option Value) :=
  let selected := intent.get? "semantic_task_routes"
  if intent.get? "semantic_route_source" = none ∧ selected = none then .ok (intent, none)
  else do
    let missing := "semantic routes require current_work and an admitted semantic_route_source"
    let work ← okOr (intent.get? "current_work") missing
    let declared ← okOr (intent.get? "semantic_route_source") missing
    let current ← workIdentity work
    let source ← routeSource declared
    let selection ← routeSelection current source selected
    let reasons := staleReasons current source selection
    let status := if selected = none then "missing" else if reasons = [] then "current" else "stale"
    let normalized := routeValue current source selection status
    let intent := intent.insert "current_work" current.toValue
    let intent := intent.insert "semantic_route_source"
      (.object [("revision", .string source.revision), ("routes", .strings source.routes)])
    pure (intent.insert "semantic_task_routes" normalized,
      some ((normalized.insert "status" (.string status)).insert "stale_reasons" (.strings reasons)))

/-! ## Public requests -/

structure PublicRequestInput where
  kind : String
  id : String
  owner : String
  ownerRevision : String
  sourceRevision : String
  requestKind : String
  capabilityRevision : String
  taskIdentity : CurrentWorkIdentity
  arguments : Value

def PublicRequestInput.ofValue (v : Value) : Option PublicRequestInput := do
  let field ← v.structFields ["kind", "id", "owner", "owner_revision", "source_revision",
    "request_kind", "capability_revision", "task_identity", "arguments"]
  let kind ← (field "kind").bind Value.asStr
  let id ← (field "id").bind Value.asStr
  let owner ← (field "owner").bind Value.asStr
  let ownerRevision ← (field "owner_revision").bind Value.asStr
  let sourceRevision ← (field "source_revision").bind Value.asStr
  let requestKind ← (field "request_kind").bind Value.asStr
  let capabilityRevision ← (field "capability_revision").bind Value.asStr
  let taskIdentity ← (field "task_identity").bind CurrentWorkIdentity.ofValue
  let arguments ← field "arguments"
  pure ⟨kind, id, owner, ownerRevision, sourceRevision, requestKind, capabilityRevision,
    taskIdentity, arguments⟩

structure NormalizedPublicRequest where
  id : String
  identity : String
  owner : String
  ownerRevision : String
  sourceRevision : String
  requestKind : String
  resultKind : String
  capabilityRevision : String
  taskIdentity : CurrentWorkIdentity
  arguments : Value

def NormalizedPublicRequest.toValue (r : NormalizedPublicRequest) : Value :=
  .object [
    ("arguments", r.arguments),
    ("capability_revision", .string r.capabilityRevision),
    ("id", .string r.id),
    ("identity", .string r.identity),
    ("kind", .string PUBLIC_REQUEST_KIND),
    ("owner", .string r.owner),
    ("owner_revision", .string r.ownerRevision),
    ("request_kind", .string r.requestKind),
    ("result_kind", .string r.resultKind),
    ("source_revision", .string r.sourceRevision),
    ("task_identity", r.taskIdentity.toValue)]

/-- `invalid_public_request(Envelope)`. -/
def INVALID_ENVELOPE : String :=
  "request: expected the unchanged owner-issued public-request envelope with only its advertised " ++
    "arguments filled in; resolve a fresh request through start."

/-- `invalid_public_request(Arguments)`. -/
def INVALID_ARGUMENTS : String :=
  "request.arguments violate input_schema: use the advertised fields and bounded choices in the " ++
    "current owner-issued request; resolve a fresh request through start."

variable (host : Host)

/-- `schema_validator(..)?.is_valid(..)`, which no value but an object reaches. -/
def Host.validArguments (shape : NormalizedRequestShape) (arguments : Value) : Result Unit := do
  check (arguments.isObject = true) INVALID_ARGUMENTS
  let accepts ← host.schemaValidator shape.inputSchema "public request"
  check (accepts arguments = true) INVALID_ARGUMENTS

/-- A request that is present. -/
def Host.publicRequest (intent value : Value) (capabilities : Option NormalizedCapabilityContract) :
    Result NormalizedPublicRequest := do
  let contract ← okOr capabilities
    "intent.public_request requires a current capability_contract"
  let parsed ← okOr (PublicRequestInput.ofValue value) INVALID_ENVELOPE
  check (parsed.kind = PUBLIC_REQUEST_KIND)
    s!"intent.public_request.kind must be {PUBLIC_REQUEST_KIND}"
  let id ← requireText parsed.id "intent.public_request.id"
  let owner ← requireText parsed.owner "intent.public_request.owner"
  let ownerRevision ← requireText parsed.ownerRevision "intent.public_request.owner_revision"
  let sourceRevision ← requireText parsed.sourceRevision "intent.public_request.source_revision"
  let requestKind ← requireText parsed.requestKind "intent.public_request.request_kind"
  check (parsed.capabilityRevision = contract.revision)
    "public request is stale for the current capability contract revision"
  let work ← currentWork intent
  let current ← okOr work "intent.public_request requires intent.current_work"
  check (parsed.taskIdentity = current) "public request is stale for the current task identity"
  let ownerCapability ← okOr contract.owners[owner]?
    "public request names unknown capability owner; use a current owner-issued request"
  check (ownerRevision = ownerCapability.revision)
    "public request is stale for capability owner; resolve a fresh request through start"
  let shape ← okOr ownerCapability.requests[requestKind]?
    "public request names undeclared request kind; use a current owner-issued request"
  host.validArguments shape parsed.arguments
  let identity := host.digest (.object [
    ("arguments", parsed.arguments),
    ("capability_revision", .string contract.revision),
    ("id", .string id),
    ("owner", .string owner),
    ("owner_revision", .string ownerRevision),
    ("request_contract", shape.toValue),
    ("request_kind", .string requestKind),
    ("source_revision", .string sourceRevision),
    ("task_identity", current.toValue)])
  pure {
    id, owner, ownerRevision, sourceRevision, requestKind
    identity := s!"request:{identity}"
    resultKind := shape.resultKind
    capabilityRevision := contract.revision
    taskIdentity := current
    arguments := parsed.arguments }

def Host.normalizePublicRequest (intent : Value)
    (capabilities : Option NormalizedCapabilityContract) :
    Result (Value × Option NormalizedPublicRequest) :=
  match intent.get? "public_request" with
  | none => .ok (intent, none)
  | some value => do
    let normalized ← host.publicRequest intent value capabilities
    pure (intent.insert "public_request" normalized.toValue, some normalized)

/-! ## The intended outcome -/

structure IntendedOutcome where
  id : String
  owner : String
  claim : String

def IntendedOutcome.ofValue (v : Value) : Option IntendedOutcome := do
  let id ← (v.get? "id").bind Value.asStr
  let owner ← (v.get? "owner").bind Value.asStr
  let claim ← (v.get? "claim").bind Value.asStr
  pure ⟨id, owner, claim⟩

def outcomeIntent (value : Value) : Result IntendedOutcome := do
  check (value.isObject = true) "intent.outcome must be an object"
  let parsed ← okOr (IntendedOutcome.ofValue value) "intent.outcome requires id, owner, and claim"
  let id ← requireText parsed.id "intent.outcome.id"
  let owner ← requireText parsed.owner "intent.outcome.owner"
  let claim ← requireText parsed.claim "intent.outcome.claim"
  pure ⟨id, owner, claim⟩

def intendedOutcome (intent : Value) : Result (Option IntendedOutcome) :=
  transposeM outcomeIntent (intent.get? "outcome")

end AgenticCore
