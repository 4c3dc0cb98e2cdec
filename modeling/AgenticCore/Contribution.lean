import AgenticCore.PublicRequest

/-!
# One owner's contribution (`lib.rs`)

* `RestrictionBasis`      : why an owner restricts a scope, and which scopes each reason admits.
* `normalizeAction`       : an action with its effect, dependency and consequence identities.
* `normalizeBlocker`      : a blocker with its content-addressed identity.
* `normalizeDecision`     : a bounded decision and the request its answer is bound to.
* `normalizeContribution` : all of them against the capability contract.

Of the further fields of an input only their names are read.
-/

set_option autoImplicit false

namespace AgenticCore

open Json Text

def CONTRIBUTION_KIND : String := "agentic-workspace/source-contribution/v1"

structure RestrictionBasis where
  kind : String
  sourceRevision : Option String
  reference : Option String
  declarationRevision : Option String
  bindingRevision : Option String
  deriving DecidableEq

structure BlockerInput where
  basis : Option RestrictionBasis
  code : String
  message : String
  owner : Option String
  recovery : Option String
  affects : List String

structure HumanEligibility where
  kind : String
  sourceRevision : String
  currentWork : Value
  reference : String
  declarationRevision : String
  declaration : Value

structure HumanDecisionContext where
  proposedAction : String
  reason : String
  context : String
  consequences : BTreeMap String String
  deferPreserves : String
  authorityBoundary : String

structure AnswerRequestInput where
  requestKind : String
  arguments : Value

structure Choice where
  id : String
  label : String

structure BoundedDecisionInput where
  basis : Option RestrictionBasis
  id : String
  question : String
  material : Option Value
  humanContext : Option HumanDecisionContext
  humanEligibility : Option HumanEligibility
  responseRequest : AnswerRequestInput
  choices : List Choice
  affects : List String

structure ActionInput where
  sourceRequests : List Value
  dependencyRevision : String
  effectGeneration : String
  operationId : String
  arguments : Value
  effects : List String
  authority : Option String
  extra : List String

structure ClaimsInput where
  allowed : List String
  blocked : List String

structure OutcomeInput where
  requiredClaims : List String
  id : String
  status : String
  claim : String
  evidenceRevision : String
  residualWork : List String

structure RequestResponseInput where
  requestIdentity : String
  consequenceIds : List String
  status : String

structure ContributionInput where
  restrictionBasis : Option RestrictionBasis
  owner : String
  revision : String
  relevant : Bool
  settled : Bool
  facts : Value
  material : Option Value
  blockers : List BlockerInput
  decisions : List BoundedDecisionInput
  actions : List ActionInput
  claims : ClaimsInput
  outcome : Option OutcomeInput
  requestResponse : Option RequestResponseInput
  extra : List String

structure NormalizedAction where
  sourceRequests : List Value
  consequenceId : String
  dependencyRevision : String
  logicalEffectId : String
  operationRevision : String
  operationId : String
  arguments : Value
  effects : List String
  authority : String
  deriving DecidableEq

structure NormalizedBlocker where
  basis : RestrictionBasis
  resolution : String
  consequenceId : String
  code : String
  message : String
  owner : String
  revision : String
  affects : List String
  recovery : Option String

structure NormalizedDecision where
  basis : RestrictionBasis
  resolution : String
  humanContext : Option HumanDecisionContext
  humanEligibility : Option HumanEligibility
  consequenceId : String
  id : String
  owner : String
  revision : String
  question : String
  material : Option Value
  responseRequest : Value
  responseSchema : Value
  choices : List Choice
  affects : List String

structure NormalizedOutcome where
  requiredClaims : List String
  id : String
  status : String
  claim : String
  evidenceRevision : String
  residualWork : List String

structure NormalizedRequestResponse where
  requestIdentity : String
  consequenceIds : List String
  status : String

structure NormalizedContribution where
  owner : String
  revision : String
  relevant : Bool
  settled : Bool
  facts : Value
  material : Option Value
  blockers : List NormalizedBlocker
  decisions : List NormalizedDecision
  actions : List NormalizedAction
  allowed : List String
  blocked : List String
  outcome : Option NormalizedOutcome
  requestResponse : Option NormalizedRequestResponse

/-! ## Serialisation -/

def RestrictionBasis.toValue (b : RestrictionBasis) : Value :=
  .record [("binding_revision", b.bindingRevision.map .string),
    ("declaration_revision", b.declarationRevision.map .string),
    ("kind", some (.string b.kind)),
    ("reference", b.reference.map .string),
    ("source_revision", b.sourceRevision.map .string)]

def HumanEligibility.toValue (e : HumanEligibility) : Value :=
  .object [("current_work", e.currentWork), ("declaration", e.declaration),
    ("declaration_revision", .string e.declarationRevision), ("kind", .string e.kind),
    ("reference", .string e.reference), ("source_revision", .string e.sourceRevision)]

def HumanDecisionContext.toValue (c : HumanDecisionContext) : Value :=
  .object [("authority_boundary", .string c.authorityBoundary),
    ("consequences", mapValue .string c.consequences), ("context", .string c.context),
    ("defer_preserves", .string c.deferPreserves),
    ("proposed_action", .string c.proposedAction), ("reason", .string c.reason)]

def AnswerRequestInput.toValue (r : AnswerRequestInput) : Value :=
  .object [("arguments", r.arguments), ("request_kind", .string r.requestKind)]

def Choice.toValue (c : Choice) : Value :=
  .object [("id", .string c.id), ("label", .string c.label)]

def NormalizedAction.toValue (a : NormalizedAction) : Value :=
  .record [("arguments", some a.arguments),
    ("authority", some (.string a.authority)),
    ("consequence_id", some (.string a.consequenceId)),
    ("dependency_revision", some (.string a.dependencyRevision)),
    ("effects", some (.strings a.effects)),
    ("logical_effect_id", some (.string a.logicalEffectId)),
    ("operation_id", some (.string a.operationId)),
    ("operation_revision", some (.string a.operationRevision)),
    ("source_requests", if a.sourceRequests = [] then none else some (.array a.sourceRequests))]

def NormalizedBlocker.toValue (b : NormalizedBlocker) : Value :=
  .record [("affects", some (.strings b.affects)),
    ("basis", some b.basis.toValue),
    ("code", some (.string b.code)),
    ("consequence_id", some (.string b.consequenceId)),
    ("message", some (.string b.message)),
    ("owner", some (.string b.owner)),
    ("recovery", b.recovery.map .string),
    ("resolution", some (.string b.resolution)),
    ("revision", some (.string b.revision))]

def NormalizedDecision.toValue (d : NormalizedDecision) : Value :=
  .record [("affects", some (.strings d.affects)),
    ("basis", some d.basis.toValue),
    ("choices", some (.array (d.choices.map Choice.toValue))),
    ("consequence_id", some (.string d.consequenceId)),
    ("human_context", d.humanContext.map HumanDecisionContext.toValue),
    ("human_eligibility", d.humanEligibility.map HumanEligibility.toValue),
    ("id", some (.string d.id)),
    ("material", d.material),
    ("owner", some (.string d.owner)),
    ("question", some (.string d.question)),
    ("resolution", some (.string d.resolution)),
    ("response_request", some d.responseRequest),
    ("response_schema", some d.responseSchema),
    ("revision", some (.string d.revision))]

def NormalizedOutcome.toValue (o : NormalizedOutcome) : Value :=
  .object [("claim", .string o.claim), ("evidence_revision", .string o.evidenceRevision),
    ("id", .string o.id), ("required_claims", .strings o.requiredClaims),
    ("residual_work", .strings o.residualWork), ("status", .string o.status)]

def NormalizedRequestResponse.toValue (r : NormalizedRequestResponse) : Value :=
  .object [("consequence_ids", .strings r.consequenceIds),
    ("request_identity", .string r.requestIdentity), ("status", .string r.status)]

def NormalizedContribution.toValue (c : NormalizedContribution) : Value :=
  .record [("actions", some (.array (c.actions.map NormalizedAction.toValue))),
    ("blockers", some (.array (c.blockers.map NormalizedBlocker.toValue))),
    ("claims", some (.object [("allowed", .strings c.allowed), ("blocked", .strings c.blocked)])),
    ("decisions", some (.array (c.decisions.map NormalizedDecision.toValue))),
    ("facts", some c.facts),
    ("kind", some (.string CONTRIBUTION_KIND)),
    ("material", c.material),
    ("outcome", some (.orNull (c.outcome.map NormalizedOutcome.toValue))),
    ("owner", some (.string c.owner)),
    ("relevant", some (.bool c.relevant)),
    ("request_response", c.requestResponse.map NormalizedRequestResponse.toValue),
    ("revision", some (.string c.revision)),
    ("settled", some (.bool c.settled))]

/-! ## Restrictions -/

/-- Check an optional value where it is present. -/
def forSome {α : Type} (o : Option α) (f : α → Result Unit) : Result Unit :=
  match o with
  | none => .ok ()
  | some a => f a

@[simp] theorem forSome_eq_ok {α : Type} {o : Option α} {f : α → Result Unit} {u : Unit} :
    forSome o f = .ok u ↔ ∀ a ∈ o, f a = .ok () := by
  cases o <;> simp [forSome]

def RestrictionBasis.legacy : RestrictionBasis := ⟨"unclassified", none, none, none, none⟩

variable (host : Host)

/-- What the binding revision seals. -/
def RestrictionBasis.bound (b : RestrictionBasis) : Value :=
  .object [("declaration_revision", .orNull (b.declarationRevision.map .string)),
    ("kind", .string b.kind), ("reference", .orNull (b.reference.map .string)),
    ("source_revision", .orNull (b.sourceRevision.map .string))]

def Host.validateBasis (b : RestrictionBasis) : Result Unit :=
  if b.kind = "unclassified" then .ok ()
  else do
    check (b.kind ∈ ["task-requirement", "operation-guard", "attestation-limit", "optional-work"])
      "unknown restriction basis"
    check (b.sourceRevision.any (trim · ≠ "") ∧ b.reference.any (trim · ≠ "") ∧
        b.declarationRevision.any (fun v => startsWith "sha256:" v ∧ v.utf8ByteSize = 71) ∧
        b.bindingRevision = some (host.digest b.bound))
      "restriction basis requires the current owner's source and exact declaration"

def RestrictionBasis.scopes (b : RestrictionBasis) (values : List String) (owner field : String) :
    Result (List String) :=
  if b.kind = "optional-work" ∧ values = [] then .ok values
  else if b.kind = "attestation-limit" ∧ values = [s!"attestation:{owner}"] then .ok values
  else if b.kind = "operation-guard" ∧
      ∀ v ∈ values, startsWith "effect:" v = true ∨ startsWith "action:" v = true then
    affects values field
  else if b.kind ∈ ["task-requirement", "unclassified"] then affects values field
  else fail "restriction basis cannot impose these task or claim scopes"

def Host.normalizeBlocker (input : BlockerInput) (owner revision : String) (index : Nat) :
    Result NormalizedBlocker := do
  let basis := input.basis.getD .legacy
  host.validateBasis basis
  let code ← requireText input.code s!"{owner}.blockers[{index}].code"
  let message ← requireText input.message s!"{owner}.blockers[{index}].message"
  let blockerOwner := (input.owner.filter (· ≠ "")).getD owner
  check (blockerOwner = owner) s!"{owner} blocker cannot claim owner {blockerOwner}"
  let affected ← basis.scopes input.affects owner s!"{owner}.blockers[{index}].affects"
  let recovery := input.recovery.filter (trim · ≠ "")
  let identity := host.digest (.object [
    ("affects", .strings affected),
    ("basis", basis.toValue),
    ("code", .string code),
    ("message", .string message),
    ("owner", .string blockerOwner),
    ("recovery", .orNull (recovery.map .string)),
    ("revision", .string revision)])
  pure {
    basis, code, message, revision, recovery
    resolution :=
      if recovery.isSome then "owner-recovery-required" else "owner-resolution-unavailable"
    consequenceId := s!"blocker:{owner}:{revision}:{identity}"
    owner := blockerOwner
    affects := affected }

/-! ## Bounded decisions -/

def Host.validateEligibility (e : HumanEligibility) (owner revision : String) (work : Value) :
    Result Unit := do
  let _ ← requireText e.reference "human eligibility reference"
  check (e.sourceRevision = revision ∧ e.currentWork = work ∧
      e.declarationRevision = host.digest e.declaration)
    "human eligibility must match the current owner, work and declaration"
  check (e.kind = "verification-judgment" ∧ owner = "verification" ∧
        e.declaration.field "human_judgment_required" = .bool true ∨
      e.kind = "human-assignment" ∧ owner = "assignment" ∧
        e.declaration.field "owner_kind" = .string "human" ∧
        (e.declaration.field "target_id").asStr.any (trim · ≠ "") = true)
    "human eligibility requires an explicit Verification judgment or human-owned assignment"

def checkHumanContext (label : String) (choices : List Choice) (c : HumanDecisionContext) :
    Result Unit := do
  [("proposed_action", c.proposedAction), ("reason", c.reason), ("context", c.context),
    ("defer_preserves", c.deferPreserves), ("authority_boundary", c.authorityBoundary)].forM
      fun (field, value) => do
        let _ ← requireText value s!"{label}.human_context.{field}"
        pure ()
  check (choices ≠ [] ∧ c.consequences.size = choices.length ∧
      ∀ choice ∈ choices, c.consequences[choice.id]?.any (trim · ≠ "") = true)
    "human decision requires one consequence for every offered choice"

/-- Every offered choice completes the response request to arguments the owner's schema takes. -/
def Host.checkChoice (fixed schema : Value) (choice : Choice) : Result Unit :=
  host.validateOperationArguments (fixed.insert "answer" (.string choice.id)) schema
    "bounded answer choice"

def normalizeChoice (label : String) (item : Choice × Nat) : Result Choice := do
  let index := item.2
  let id ← requireText item.1.id s!"{label}.choices[{index}].id"
  let label ← requireText item.1.label s!"{label}.choices[{index}].label"
  pure ⟨id, label⟩

def Host.normalizeDecision (input : BoundedDecisionInput) (owner revision : String) (index : Nat)
    (capabilities : Option NormalizedCapabilityContract) (intent : Value) :
    Result NormalizedDecision := do
  let basis := input.basis.getD .legacy
  host.validateBasis basis
  let label := s!"{owner}.decisions[{index}]"
  let id ← requireText input.id s!"{label}.id"
  let question ← requireText input.question s!"{label}.question"
  let contract ← okOr capabilities "bounded answer requires admitted capabilities"
  let capability ← okOr contract.owners[owner]? "bounded answer owner is not admitted"
  let shape ← okOr capability.requests[input.responseRequest.requestKind]?
    "bounded answer names undeclared response request"
  let work ← currentWork intent
  let current ← okOr work "bounded answer requires current_work"
  let fixed := input.responseRequest.arguments
  check (fixed.isObject = true) "response request arguments must be an object"
  check (fixed.get? "answer" = none) "response request cannot prefill the human answer"
  input.choices.forM (host.checkChoice fixed shape.inputSchema)
  let choices ← input.choices.zipIdx.mapM (normalizeChoice label)
  let affected ← basis.scopes input.affects owner s!"{label}.affects"
  check (input.humanContext.isSome = input.humanEligibility.isSome)
    "human context requires an explicit current human eligibility basis"
  forSome input.humanEligibility fun e =>
    host.validateEligibility e owner revision current.toValue
  forSome input.humanContext (checkHumanContext label choices)
  let identity := host.digest (.record [
    ("affects", some (.strings affected)),
    ("basis", some basis.toValue),
    ("capability_revision", some (.string contract.revision)),
    ("choices", some (.array (choices.map Choice.toValue))),
    ("current_work", some current.toValue),
    ("human_context", input.humanContext.map HumanDecisionContext.toValue),
    ("human_eligibility", input.humanEligibility.map HumanEligibility.toValue),
    ("id", some (.string id)),
    ("material", input.material),
    ("owner", some (.string owner)),
    ("question", some (.string question)),
    ("response_request", some input.responseRequest.toValue),
    ("response_schema", some shape.inputSchema),
    ("revision", some (.string revision))])
  let consequenceId := s!"decision:{owner}:{revision}:{identity}"
  pure {
    basis, consequenceId, id, owner, revision, question, choices
    resolution :=
      if input.humanContext.isSome then "bounded-human-answer" else "bounded-domain-answer"
    humanContext := input.humanContext
    humanEligibility := input.humanEligibility
    material := input.material
    responseRequest := .object [
      ("arguments", input.responseRequest.arguments),
      ("capability_revision", .string contract.revision),
      ("id", .string s!"answer:{consequenceId}"),
      ("kind", .string PUBLIC_REQUEST_KIND),
      ("owner", .string owner),
      ("owner_revision", .string capability.revision),
      ("request_kind", .string input.responseRequest.requestKind),
      ("source_revision", .string revision),
      ("task_identity", current.toValue)]
    responseSchema := shape.inputSchema
    affects := affected }

/-! ## Actions -/

/-- A source request is still current for the work. The keys are compared as values: their texts
    agree exactly when they do. -/
def Host.checkSourceRequest (capabilities : Option NormalizedCapabilityContract) (intent : Value)
    (keys : List (Value × Value)) (request : Value) : Result (List (Value × Value)) := do
  let key := (request.field "owner", request.field "request_kind")
  if key.1 = .string "semantic-routes" then
    let route ← host.activity (.object [("current_work", intent.field "current_work"),
      ("request", request), ("source", intent.field "semantic_route_source")])
    check (route.field "status" = .string "current")
      "source activity request is stale for current work or catalogue"
  else
    let _ ← host.normalizePublicRequest (.object [("current_work", intent.field "current_work"),
      ("public_request", request)]) capabilities
  check (key ∉ keys) "duplicate source request dependency"
  pure (key :: keys)

/-- The digest naming the effect an action asks for, whatever it depends on. -/
def Host.logicalEffectId (owner operationId authority : String) (input : ActionInput) : String :=
  host.digest (.object [
    ("arguments", input.arguments),
    ("authority", .string authority),
    ("effect_generation", .string input.effectGeneration),
    ("effects", .strings input.effects),
    ("operation_id", .string operationId),
    ("owner", .string owner)])

/-- The operation contract and its effect custody are material; unrelated owner descriptors and
    aggregate contract revisions are not dependencies. -/
def Host.dependencyRevision (source operationId : String) (effects : List String)
    (capability : Option NormalizedCapabilityOwner) : String :=
  host.digest (.object [
    ("effect_custody", custody capability effects),
    ("operation", .orNull ((capability.bind (·.operations[operationId]?)).map
      NormalizedOperationCapability.toValue)),
    ("source_dependencies", .string source)])

def Host.sourceDependency (revision : String) (sourceRequests : List Value) : String :=
  if sourceRequests = [] then revision
  else host.digest (.object [("revision", .string revision),
    ("source_requests", .array sourceRequests)])

def Host.normalizeAction (input : ActionInput) (owner : String)
    (capability : Option NormalizedCapabilityOwner) (index : Nat) : Result NormalizedAction := do
  check ("priority" ∉ input.extra)
    s!"{owner}.actions[{index}].priority is obsolete; authority cannot be self-ranked"
  let operationId ← requireText input.operationId s!"{owner}.actions[{index}].operation_id"
  check (input.arguments.isObject = true) s!"{owner}.actions[{index}].arguments must be an object"
  let effects ← strings input.effects s!"{owner}.actions[{index}].effects" false
  let authority := (input.authority.filter (· ≠ "")).getD owner
  let revision ← requireText input.dependencyRevision "action.dependency_revision"
  let logicalEffectId := host.logicalEffectId owner operationId authority input
  let dependencyRevision := host.dependencyRevision
    (host.sourceDependency revision input.sourceRequests) operationId effects capability
  let consequence := host.digest (.object [("dependency_revision", .string dependencyRevision),
    ("logical_effect_id", .string logicalEffectId)])
  let declared ← okOr capability "operation requires admitted owner"
  let operationRevision ← host.operationRevision owner operationId declared
  pure {
    dependencyRevision, logicalEffectId, operationRevision, operationId, effects, authority
    sourceRequests := input.sourceRequests
    consequenceId := s!"action:{owner}:{consequence}"
    arguments := input.arguments }

/-- One action with its source requests. -/
def Host.readAction (owner : String) (capabilities : Option NormalizedCapabilityContract)
    (capability : Option NormalizedCapabilityOwner) (intent : Value) (item : ActionInput × Nat) :
    Result NormalizedAction := do
  check (item.1.sourceRequests.length ≤ 16) "source request dependencies exceed bounded limit"
  let _ ← item.1.sourceRequests.foldlM (host.checkSourceRequest capabilities intent) []
  host.normalizeAction item.1 owner capability item.2

/-- An action against the declaration of its operation. -/
def Host.checkAction (owner : String) (capability : NormalizedCapabilityOwner)
    (action : NormalizedAction) : Result Unit := do
  let operationId := action.operationId
  let operation ← okOr capability.operations[operationId]?
    s!"{owner} action {operationId} is not declared by its capability owner"
  let authority := action.authority
  check (authority = owner) s!"{owner} action {operationId} cannot claim authority {authority}"
  host.validateOperationArguments action.arguments operation.inputSchema
    s!"{owner} action {operationId}"
  refuse (action.effects.find? (· ∉ operation.effects))
    fun effect => s!"{owner} action {operationId} advertises undeclared effect {effect}"

/-! ## Claims and outcomes -/

def normalizeOutcome (input : OutcomeInput) (owner : String) : Result NormalizedOutcome := do
  let requiredClaims ← uniqueStrings input.requiredClaims "outcome.required_claims"
  let id ← requireText input.id s!"{owner}.outcome.id"
  let status ← requireText input.status s!"{owner}.outcome.status"
  let claim ← requireText input.claim s!"{owner}.outcome.claim"
  let evidenceRevision ← requireText input.evidenceRevision s!"{owner}.outcome.evidence_revision"
  let residualWork ← strings input.residualWork s!"{owner}.outcome.residual_work" false
  pure ⟨requiredClaims, id, status, claim, evidenceRevision, residualWork⟩

def normalizeRequestResponse (input : RequestResponseInput) (owner : String) :
    Result NormalizedRequestResponse := do
  let requestIdentity ← requireText input.requestIdentity
    s!"{owner}.request_response.request_identity"
  let consequenceIds ← uniqueStrings input.consequenceIds "request_response.consequence_ids"
  check (input.status ∈ ["action", "decision", "blocked", "settled"])
    s!"{owner}.request_response.status must be action, decision, blocked, or settled"
  pure ⟨requestIdentity, consequenceIds, input.status⟩

def checkAllowed (owner : String) (contract : NormalizedCapabilityContract) (claim : String) :
    Result Unit :=
  check (contract.claimAuthorities[claim]? = some owner)
    s!"{owner} allows claim {claim} without exclusive claim authority"

/-- `task` is an exact scope, never a wildcard granting other vetoes. -/
def checkRestriction (owner : String) (contract : NormalizedCapabilityContract) (scope : String) :
    Result Unit :=
  check (scope = s!"attestation:{owner}" ∨
      scope ∈ (contract.restrictionAuthorities[owner]?).getD [])
    s!"{owner} restricts {scope} without admitted restriction authority"

/-- What a contribution restricts: the scopes of its blockers and decisions, and the claims it
    blocks. -/
def restrictedScopes (blockers : List NormalizedBlocker) (decisions : List NormalizedDecision)
    (blocked : List String) : List String :=
  blockers.flatMap (·.affects) ++ decisions.flatMap (·.affects) ++ blocked.map fun claim => s!"claim:{claim}"

def checkOutcome (owner : String) (contract : NormalizedCapabilityContract)
    (outcome : NormalizedOutcome) : Result Unit := do
  let claim := outcome.claim
  check (contract.claimAuthorities[claim]? = some owner)
    s!"{owner} outcome grants claim {claim} without exclusive claim authority"
  refuse (outcome.requiredClaims.find? fun claim => contract.claimAuthorities[claim]?.isNone)
    fun claim => s!"{owner} outcome requires unknown claim {claim}"

/-- Some part of the contribution needs an owner of the contract. -/
def ContributionInput.authorityBearing (input : ContributionInput) : Bool :=
  !input.blockers.isEmpty || !input.decisions.isEmpty || !input.actions.isEmpty ||
    !input.claims.allowed.isEmpty || !input.claims.blocked.isEmpty || input.outcome.isSome ||
    input.requestResponse.isSome

def Host.normalizeContribution (capabilities : Option NormalizedCapabilityContract)
    (intent : Value) (input : ContributionInput) : Result NormalizedContribution := do
  let owner ← requireText input.owner "contribution.owner"
  let revision ← requireText input.revision s!"{owner}.revision"
  check ("terminal" ∉ input.extra)
    s!"{owner}.terminal is obsolete; use settled plus explicit outcome authority"
  check (input.facts.isObject = true) s!"{owner}.facts must be an object"
  let capability := capabilities.bind (·.owners[owner]?)
  check (input.authorityBearing = true → capability.isSome = true)
    s!"authority-bearing contribution {owner} requires a current capability owner declaration"
  let actions ← input.actions.zipIdx.mapM (host.readAction owner capabilities capability intent)
  let actions := actions.insertionSort fun a b => a.consequenceId ≤ b.consequenceId
  forSome capability fun capability => actions.forM (host.checkAction owner capability)
  let defaultBasis := input.restrictionBasis.getD .legacy
  host.validateBasis defaultBasis
  let blockers ← input.blockers.zipIdx.mapM fun (blocker, index) =>
    host.normalizeBlocker { blocker with basis := some (blocker.basis.getD defaultBasis) }
      owner revision index
  let blockers := blockers.insertionSort fun a b => a.consequenceId ≤ b.consequenceId
  let decisions ← input.decisions.zipIdx.mapM fun (decision, index) =>
    host.normalizeDecision { decision with basis := some (decision.basis.getD defaultBasis) }
      owner revision index capabilities intent
  let decisions := decisions.insertionSort fun a b => a.consequenceId ≤ b.consequenceId
  check (input.claims.blocked ≠ [] → defaultBasis.kind ∈ ["task-requirement", "unclassified"])
    "blocked claims require a task requirement basis"
  let blocked ← strings input.claims.blocked s!"{owner}.claims.blocked" true
  let allowed ← strings input.claims.allowed s!"{owner}.claims.allowed" true
  forSome capabilities fun contract => do
    allowed.forM (checkAllowed owner contract)
    (restrictedScopes blockers decisions blocked).forM (checkRestriction owner contract)
  let outcome ← transposeM (fun value => normalizeOutcome value owner) input.outcome
  forSome capabilities fun contract => forSome outcome (checkOutcome owner contract)
  let requestResponse ← transposeM (fun response => normalizeRequestResponse response owner)
    input.requestResponse
  pure {
    owner, revision, blockers, decisions, actions, blocked, outcome, requestResponse
    relevant := input.relevant
    settled := input.settled
    facts := input.facts
    material := input.material
    allowed := allowed.filter (· ∉ blocked) }

end AgenticCore
