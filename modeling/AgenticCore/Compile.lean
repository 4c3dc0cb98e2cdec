import AgenticCore.Contribution
import AgenticCore.Continuity
import AgenticCore.Invocation

/-!
# The decision compiler (`lib.rs`, `compile`)

* `compose`  : the checks: contract, intent, decision context, every contribution, the response to
               a public request. It returns the relevant contributions in the order of their
               owners.
* `Composed` : what the decision is computed from, and each of its parts.
* `compile`  : the decision, with its content-addressed revision and identity.
-/

set_option autoImplicit false

namespace AgenticCore

open Json Text

def DECISION_KIND : String := "agentic-workspace/operating-decision/v1"

/-- `native_plugin_exposure::OP`. -/
def PLUGIN_EXPOSURE : String := "configuration.plugin-exposure"

structure DecisionInput where
  contributions : List ContributionInput
  decisionContext : Option Continuity.Context
  intent : Value
  capabilityContract : Option CapabilityContractInput

structure OwnedAction where
  owner : String
  action : NormalizedAction
  deriving DecidableEq

structure Composed where
  capabilities : Option NormalizedCapabilityContract
  intent : Value
  semanticTaskRoutes : Option Value
  decisionContext : Option Value
  intended : Option IntendedOutcome
  requestResolution : Option Value
  relevant : List NormalizedContribution

/-! ## Checks -/

def supportedIntentFields : List String :=
  ["current_work", "semantic_route_source", "semantic_task_routes", "outcome", "public_request"]

/-- The consequences a response of one status may name. -/
def responseCandidates (contribution : NormalizedContribution) (status : String) : List String :=
  if status = "action" then contribution.actions.map (·.consequenceId)
  else if status = "decision" then contribution.decisions.map (·.consequenceId)
  else if status = "blocked" then contribution.blockers.map (·.consequenceId)
  else []

def resolveResponse (request : NormalizedPublicRequest) (contribution : NormalizedContribution)
    (response : NormalizedRequestResponse) : Result Value := do
  let owner := request.owner
  let answering := contribution.owner
  check (answering = owner) s!"public request owner {owner} cannot be answered by {answering}"
  check (contribution.relevant = true)
    s!"public request owner {owner} returned a non-current response"
  check (contribution.revision = request.sourceRevision)
    s!"public request response from {owner} is stale for its source revision"
  check (response.requestIdentity = request.identity)
    s!"public request response from {owner} references a different request"
  check ((response.status = "settled" ↔ response.consequenceIds = []) ∧
      ∀ id ∈ response.consequenceIds, id ∈ responseCandidates contribution response.status)
    "request response must name its exact current owner consequences of the declared response kind"
  pure (.object [
    ("consequence_ids", .strings response.consequenceIds),
    ("owner", .string owner),
    ("owner_revision", .string request.ownerRevision),
    ("request_id", .string request.id),
    ("request_identity", .string request.identity),
    ("request_kind", .string request.requestKind),
    ("result_kind", .string request.resultKind),
    ("source_revision", .string request.sourceRevision),
    ("status", .string response.status)])

/-- The contributions that answer a request, with their answers. -/
def responses (contributions : List NormalizedContribution) :
    List (NormalizedContribution × NormalizedRequestResponse) :=
  contributions.filterMap fun c => c.requestResponse.map (c, ·)

def resolvePublicRequest (request : Option NormalizedPublicRequest)
    (contributions : List NormalizedContribution) : Result (Option Value) :=
  match request, responses contributions with
  | none, [] => .ok none
  | none, _ :: _ => fail "request_response cannot exist without intent.public_request"
  | some request, [(contribution, response)] =>
    some <$> resolveResponse request contribution response
  | some _, _ => fail "public request requires exactly one owner response"

/-- Two neighbours of one owner. -/
def sharedOwner : List NormalizedContribution → Bool
  | a :: b :: rest => a.owner == b.owner || sharedOwner (b :: rest)
  | _ => false

/-- The intended outcome's owner holds its claim. -/
def checkIntended (intended : IntendedOutcome)
    (capabilities : Option NormalizedCapabilityContract) : Result Unit := do
  let contract ← okOr capabilities "intent.outcome requires a current capability_contract"
  let owner := intended.owner
  let claim := intended.claim
  check (contract.claimAuthorities[claim]? = some owner)
    s!"intended outcome owner {owner} lacks exclusive authority for claim {claim}"

variable (host : Host)

def Host.compose (input : DecisionInput) : Result Composed := do
  let members ← okOr input.intent.asObject "intent must be an object"
  let capabilities ← transposeM host.normalizeCapabilityContract input.capabilityContract
  refuse ((members.map Prod.fst).find? (· ∉ supportedIntentFields))
    fun field => s!"intent contains unsupported public request field {field}"
  let routed ← normalizeSemanticRoutes input.intent
  let projected ← transposeM (Continuity.project host.digest · routed.2) input.decisionContext
  let requested ← host.normalizePublicRequest routed.1 capabilities
  let intended ← intendedOutcome requested.1
  forSome intended fun intended => checkIntended intended capabilities
  let normalized ← input.contributions.mapM (host.normalizeContribution capabilities requested.1)
  let requestResolution ← resolvePublicRequest requested.2 normalized
  let relevant := (normalized.filter (·.relevant)).insertionSort fun a b => a.owner ≤ b.owner
  check (sharedOwner relevant = false) "each source owner may contribute at most once"
  pure {
    capabilities, intended, requestResolution, relevant
    intent := requested.1
    semanticTaskRoutes := routed.2
    decisionContext := projected.join.map Continuity.Projection.toValue }

/-! ## The parts of a decision -/

namespace Composed

variable (c : Composed)

def blockers : List NormalizedBlocker := c.relevant.flatMap (·.blockers)

def decisions : List NormalizedDecision :=
  (c.relevant.flatMap (·.decisions)).insertionSort fun a b =>
    toLex (a.owner, toLex (a.id, a.consequenceId)) ≤ toLex (b.owner, toLex (b.id, b.consequenceId))

def ownedActions (contribution : NormalizedContribution) : List OwnedAction :=
  contribution.actions.map (⟨contribution.owner, ·⟩)

def actionKey (owned : OwnedAction) : String ×ₗ String ×ₗ String :=
  toLex (owned.owner, toLex (owned.action.operationId, owned.action.consequenceId))

def actions : List OwnedAction :=
  (c.relevant.flatMap ownedActions).insertionSort fun a b => actionKey a ≤ actionKey b

/-- Everything some relevant owner restricts. -/
def constrained : List String := c.blockers.flatMap (·.affects) ++ c.decisions.flatMap (·.affects)

def isAvailable (owned : OwnedAction) : Bool :=
  TASK ∉ c.constrained && owned.action.consequenceId ∉ c.constrained &&
    owned.action.effects.all fun effect => s!"effect:{effect}" ∉ c.constrained

def available : List OwnedAction := c.actions.filter c.isAvailable

/-- Missing reads mean unknown, not an empty read set. The writes are the full declared effect
    ceiling, each of whose effects admission has put in the owner's custody. -/
def footprint (contract : NormalizedCapabilityContract) (owned : OwnedAction) :
    Option (List String × List String) := do
  let owner ← contract.owners[owned.owner]?
  let operation ← owner.operations[owned.action.operationId]?
  let reads ← operation.reads
  pure (reads, operation.effects.filterMap fun effect => owner.effects[effect]?)

def isDisjoint (xs ys : List String) : Bool := xs.all (· ∉ ys)

def independentFootprints (left right : List String × List String) : Bool :=
  isDisjoint left.2 right.2 && isDisjoint left.2 right.1 && isDisjoint right.2 left.1

def independentActions (left right : OwnedAction) : Bool :=
  match c.capabilities with
  | none => false
  | some contract =>
    match footprint contract left, footprint contract right with
    | some left, some right => independentFootprints left right
    | _, _ => false

def independent : Bool :=
  decide (c.available.Pairwise fun left right => c.independentActions left right = true)

def invocation (owned : OwnedAction) : Value :=
  .record [
    ("arguments", some owned.action.arguments),
    ("authority", some (.string owned.action.authority)),
    ("consequence_id", some (.string owned.action.consequenceId)),
    ("effects", some (.strings owned.action.effects)),
    ("expected_dependency_revision", some (.string owned.action.dependencyRevision)),
    ("idempotency_key", some (.string owned.action.logicalEffectId)),
    ("kind", some (.string INVOCATION_KIND)),
    ("operation_id", some (.string owned.action.operationId)),
    ("operation_revision", some (.string owned.action.operationRevision)),
    ("source_owner", some (.string owned.owner)),
    ("source_requests",
      if owned.action.sourceRequests = [] then none else some (.array owned.action.sourceRequests))]

/-- The actions the ready invocations are made of. -/
def ready : List OwnedAction := if c.independent then c.available else []

def readyActions : List Value := c.ready.map invocation

def primaryAction : Option Value :=
  match c.readyActions with
  | [action] => some action
  | _ => none

def pendingAction (owned : OwnedAction) : Value :=
  owned.action.toValue.insert "source_owner" (.string owned.owner)

def taskDecisions : List NormalizedDecision := c.decisions.filter fun d => TASK ∈ d.affects

/-- The decisions an owner's response to the public request names. -/
def requestedDecisions : List NormalizedDecision :=
  c.decisions.filter fun d => c.requestResolution.any fun resolution =>
    resolution.field "status" == .string "decision" &&
      (resolution.field "consequence_ids").asArray.any (.string d.consequenceId ∈ ·)

def actionComposition (inputRevision : String) : Option Value :=
  if c.independent then none
  else some (.object [
    ("affects", .strings (c.available.map (·.action.consequenceId))),
    ("alternatives", .array (c.available.map pendingAction)),
    ("code", .string "multiple-actions"),
    ("message", .string "current actions have conflicting or unknown read/effect relationships"),
    ("owner", .string "operating-decision"),
    ("revision", .string inputRevision)])

/-- Only an explicitly requested native operation promotes its question. -/
def decisionRequest : Option NormalizedDecision :=
  if c.readyActions = [] ∧ c.independent = true then
    match c.taskDecisions, c.requestedDecisions with
    | [decision], _ => some decision
    | [], [decision] => some decision
    | _, _ => none
  else none

def decisionComposition (inputRevision : String) : Option Value :=
  if c.primaryAction = none ∧ c.independent = true ∧ 1 < c.taskDecisions.length then
    some (.object [
      ("affects", .strings [TASK]),
      ("alternatives", .array (c.taskDecisions.map NormalizedDecision.toValue)),
      ("code", .string "multiple-decisions"),
      ("message", .string ("multiple task-wide decisions require an explicit dependency or " ++
        "authority relation")),
      ("owner", .string "operating-decision"),
      ("revision", .string inputRevision)])
  else none

def compositionBlocker (inputRevision : String) : Option Value :=
  (c.actionComposition inputRevision).or (c.decisionComposition inputRevision)

def blockedClaims : List String := sortDedup (c.relevant.flatMap (·.blocked))

def allowedClaims : List String :=
  sortDedup ((c.relevant.flatMap (·.allowed)).filter (· ∉ c.blockedClaims))

/-- The owner's outcome is the intended one, complete, current and unrestricted. -/
structure Completes (intended : IntendedOutcome) (owner : NormalizedContribution)
    (outcome : NormalizedOutcome) : Prop where
  id : outcome.id = intended.id
  claim : outcome.claim = intended.claim
  status : outcome.status = "complete"
  evidence : outcome.evidenceRevision = owner.revision
  residual : outcome.residualWork = []
  required : ∀ claim ∈ outcome.requiredClaims,
    claim ∈ c.allowedClaims ∧ claim ∉ c.blockedClaims ∧ s!"claim:{claim}" ∉ c.constrained
  allowed : outcome.claim ∈ c.allowedClaims
  unblocked : outcome.claim ∉ c.blockedClaims
  task : TASK ∉ c.constrained
  claimScope : "claim:" ++ intended.claim ∉ c.constrained
  outcomeScope : "outcome:" ++ intended.id ∉ c.constrained

instance (intended : IntendedOutcome) (owner : NormalizedContribution)
    (outcome : NormalizedOutcome) : Decidable (c.Completes intended owner outcome) :=
  decidable_of_iff (outcome.id = intended.id ∧ outcome.claim = intended.claim ∧
      outcome.status = "complete" ∧ outcome.evidenceRevision = owner.revision ∧
      outcome.residualWork = [] ∧
      (∀ claim ∈ outcome.requiredClaims,
        claim ∈ c.allowedClaims ∧ claim ∉ c.blockedClaims ∧ s!"claim:{claim}" ∉ c.constrained) ∧
      outcome.claim ∈ c.allowedClaims ∧ outcome.claim ∉ c.blockedClaims ∧ TASK ∉ c.constrained ∧
      "claim:" ++ intended.claim ∉ c.constrained ∧ "outcome:" ++ intended.id ∉ c.constrained)
    ⟨fun ⟨h₁, h₂, h₃, h₄, h₅, h₆, h₇, h₈, h₉, h₁₀, h₁₁⟩ =>
        ⟨h₁, h₂, h₃, h₄, h₅, h₆, h₇, h₈, h₉, h₁₀, h₁₁⟩,
      fun ⟨h₁, h₂, h₃, h₄, h₅, h₆, h₇, h₈, h₉, h₁₀, h₁₁⟩ =>
        ⟨h₁, h₂, h₃, h₄, h₅, h₆, h₇, h₈, h₉, h₁₀, h₁₁⟩⟩

/-- The contribution and the outcome that end the task. -/
def terminal : Option (NormalizedContribution × NormalizedOutcome) := do
  let intended ← c.intended
  let owner ← c.relevant.find? (·.owner = intended.owner)
  let outcome ← owner.outcome
  if c.Completes intended owner outcome then some (owner, outcome) else none

def terminalAuthority : Option Value :=
  c.terminal.map fun (owner, outcome) => .object [
    ("claim", .string outcome.claim),
    ("evidence_revision", .string outcome.evidenceRevision),
    ("id", .string outcome.id),
    ("owner", .string owner.owner),
    ("required_claims", .strings outcome.requiredClaims),
    ("residual_work", .strings outcome.residualWork),
    ("revision", .string owner.revision),
    ("status", .string outcome.status)]

def status (inputRevision : String) : String :=
  if c.terminalAuthority.isSome then "terminal"
  else if c.readyActions ≠ [] then "actionable"
  else if (c.compositionBlocker inputRevision).isSome ∨ c.blockers.any (TASK ∈ ·.affects) then
    "blocked"
  else if c.decisionRequest.isSome then "decision"
  else "direct"

def ownerState (contribution : NormalizedContribution) : Value :=
  .object [("owner", .string contribution.owner), ("revision", .string contribution.revision),
    ("settled", .bool contribution.settled)]

def material : List (String × Value) :=
  c.relevant.filterMap fun item => item.material.map (item.owner, ·)

def revisionInput : Value :=
  .record [
    ("capability_contract",
      some (.orNull (c.capabilities.map NormalizedCapabilityContract.toValue))),
    ("decision_context", c.decisionContext),
    ("intent", some c.intent),
    ("sources", some (.array (c.relevant.map NormalizedContribution.toValue)))]

end Composed

/-! ## The decision -/

def Host.blockerValues (c : Composed) (inputRevision : String) : List Value :=
  c.blockers.map NormalizedBlocker.toValue ++
    ((c.compositionBlocker inputRevision).map fun blocker =>
      let blocker := blocker.insert "resolution" (.string "owner-resolution-unavailable")
      let identity := host.digest blocker
      blocker.insert "consequence_id"
        (.string s!"blocker:operating-decision:{inputRevision}:{identity}")).toList

/-- The operations whose revisions a decision reports: those of its relevant owners. -/
def reportedOperations (c : Composed) (contract : NormalizedCapabilityContract) :
    List (String × NormalizedCapabilityOwner × String) :=
  ((contract.owners.toList.filter fun entry => c.relevant.any (·.owner = entry.1)).flatMap
      fun entry => entry.2.operations.keys.map fun id => (entry.1, entry.2, id)).filter
    fun (_, _, id) => id ≠ PLUGIN_EXPOSURE ∨ c.available.any (·.action.operationId = id)

def Host.operationRevisions (c : Composed) (contract : NormalizedCapabilityContract) :
    Result (BTreeMap String String) := do
  let revisions ← (reportedOperations c contract).mapM fun (owner, capability, id) => do
    let revision ← host.operationRevision owner id capability
    pure (id, revision)
  pure (.ofList revisions compare)

def Host.answer (c : Composed) : Result Value := do
  let inputRevision := host.digest c.revisionInput
  let blockers := Value.array (host.blockerValues c inputRevision)
  let revisions ← transposeM (host.operationRevisions c) c.capabilities
  pure (.record [
    ("blockers", some blockers),
    ("capability_revision", c.capabilities.map fun contract => .string contract.revision),
    ("claim_boundary", some (.object [("allowed", .strings c.allowedClaims),
      ("blocked", .strings c.blockedClaims)])),
    ("decision_context", c.decisionContext),
    ("decision_request", some (.orNull (c.decisionRequest.map NormalizedDecision.toValue))),
    ("input_revision", some (.string inputRevision)),
    ("material", if c.material = [] then none else some (.object c.material)),
    ("operation_revisions", revisions.map (mapValue .string)),
    ("owner_states", some (.array (c.relevant.map Composed.ownerState))),
    ("pending_consequences", some (.object [
      ("actions", .array (c.actions.map Composed.pendingAction)), ("blockers", blockers),
      ("decisions", .array (c.decisions.map NormalizedDecision.toValue))])),
    ("primary_action",
      some (if c.terminalAuthority.isSome then .null else .orNull c.primaryAction)),
    ("ready_actions", some (.array c.readyActions)),
    ("relevant_owners", some (.strings (c.relevant.map (·.owner)))),
    ("request_resolution", c.requestResolution),
    ("semantic_task_routes", c.semanticTaskRoutes),
    ("status", some (.string (c.status inputRevision))),
    ("terminal_authority", some (.orNull c.terminalAuthority))])

/-- The revision's first sixteen hexadecimal digits name the decision. -/
def Host.decisionOf (answer : Value) : Value :=
  let id := String.ofList (((host.digest answer).toList.drop 7).take 16)
  (answer.insert "kind" (.string DECISION_KIND)).insert "decision_id"
    (.string s!"operating-decision:{id}")

def Host.compile (input : DecisionInput) : Result Value := do
  let composed ← host.compose input
  let answer ← host.answer composed
  pure (host.decisionOf answer)

end AgenticCore
