import AgenticCore.Composition
import AgenticCore.DecisionSource
import AgenticCore.JsonText

/-!
# Independently linked owners (`independent_owner.rs`, `native_independent.rs`)

* `Registration` : a linked implementation: its description, and the resolution it computes.
* `discover`     : the owners a request selects, each against its exact admission.
* `resolve`      : their contributions and views.
* `destination`  : where a publication may be written (`native_independent_publication.rs`).
* `combinedContract` : the contract of all owners (`native_public.rs`).

An owner's capability is read as the compiler reads it; `raw` is the JSON its revision seals. An
admission stays the JSON of the configuration.
-/

set_option autoImplicit false

namespace AgenticCore

deriving instance DecidableEq for EffectAuthorityInput
deriving instance DecidableEq for OperationCapabilityInput
deriving instance DecidableEq for RequestShapeInput
deriving instance DecidableEq for CapabilityOwnerInput
deriving instance DecidableEq for ClaimAuthorityInput
deriving instance DecidableEq for RestrictionAuthorityInput

namespace NativeIndependent

open Json Text

/-! ## The extension boundary -/

structure RequestTemplate where
  kind : String
  arguments : Value

structure Publication where
  name : String
  value : Value

structure PreparedOperation where
  operationId : String
  value : Value
  publication : Option Publication

structure Resolution where
  facts : Value
  blockers : List BlockerInput
  requests : List RequestTemplate
  operation : Option PreparedOperation

/-- What an owner is given. -/
structure Context where
  currentWork : Value
  settings : Value
  sources : Value
  request : Option Value

structure Description where
  capability : CapabilityOwnerInput
  configurationSchema : Value
  sources : List String
  raw : Value

structure Registration where
  owner : String
  revision : String
  apiVersion : Nat
  description : Description
  resolve : Context → Result Resolution

/-- The carrier every prepared operation uses. -/
def operationSchema : Value :=
  .object [
    ("$schema", .string "https://json-schema.org/draft/2020-12/schema"),
    ("additionalProperties", .bool false),
    ("properties", .object [("publication", .object []),
      ("request", .object [("type", .string "object")]),
      ("source_revision", .object [("type", .string "string")]),
      ("target", .object [("type", .string "string")]),
      ("value", .object [])]),
    ("required", .strings ["target", "request", "source_revision", "value", "publication"]),
    ("type", .string "object")]

/-! ## Discovery -/

/-- The set of the strings in an array. -/
def strings (v : Value) : List String := sortDedup ((v.asArray.getD []).filterMap Value.asStr)

def lowercase (c : Char) : Bool := 'a' ≤ c && c ≤ 'z'

def identifierChar (c : Char) : Bool := lowercase c || ('0' ≤ c && c ≤ '9') || c == '-'

def identifier (value : String) : Bool :=
  value.utf8ByteSize ≤ 64 && value.toList.head?.any lowercase && value.toList.all identifierChar

/-- The target and the rest of the request. -/
structure Entry where
  target : String
  /-- `native_planning::read` in the target. -/
  read : String → Result (Option ByteArray)
  windows : Bool
  inventory : List Registration
  admissions : List (String × Value)
  work : Value
  changed : List String
  requests : List Value

namespace Entry

variable (host : Host) (e : Entry)

def linked (owner : String) : Bool := e.inventory.any (·.owner == owner)

def requested : List String := e.requests.filterMap fun r => (r.field "owner").asStr

/-- Some changed path is in the scope. -/
def inScope (scope : String) : Bool :=
  e.changed.any fun path => path == scope || startsWith (scope ++ "/") path

def names : List String :=
  sortDedup ((e.admissions.filter fun entry =>
    e.requested.contains entry.1 || (strings (entry.2.field "scope")).any e.inScope).map Prod.fst)

end Entry

structure Selected where
  registration : Registration
  admission : Value
  sources : Value
  revision : String
  sourceRevision : String
  configurationGap : Option String

def Selected.owner (s : Selected) : String := s.registration.owner

/-- The capability under the revision that seals its grants. -/
def Selected.capability (s : Selected) : CapabilityOwnerInput :=
  { s.registration.description.capability with revision := s.revision }

def Selected.grants (s : Selected) (field : String) : List String :=
  strings (s.admission.field field)

structure Runtime where
  selected : List Selected
  contract : CapabilityContractInput

variable (host : Host) (e : Entry)

def withSettings (admission : Value) : Value :=
  if (admission.get? "settings").isNone then admission.insert "settings" (.object []) else admission

/-- The one linked implementation of a name. -/
def registrationOf (name : String) : Result Registration :=
  match e.inventory.filter (·.owner = name) with
  | [registration] => pure registration
  | _ => fail (s!"Relevant independent owner {name} is unavailable or has conflicting " ++
      "installations; preserve its state and restore the exact admitted implementation")

/-- Every declared effect is admitted, in the owner's own domain. -/
def checkEffects (name : String) (granted : List String) (effects : List EffectAuthorityInput) :
    Result Unit :=
  effects.forM fun effect => check (effect.domain = name ∧ effect.id ∈ granted)
    "Independent owner effect is not separately admitted in its owned domain"

def checkOperations (operations : List OperationCapabilityInput) : Result Unit :=
  operations.forM fun operation => check (operation.inputSchema = operationSchema)
    "Independent operation must use the exact prepared-operation carrier"

/-- The settings' gap against the configuration schema. -/
def configurationGap (name : String) (schema settings : Value) : Result (Option String) := do
  let accepts ← host.schemaValidator schema "independent owner configuration"
  pure (if accepts settings then none
    else some s!"Independent owner {name} requires current Configuration material at {MALFORMED}")

/-- A part of the path that another platform would read as something else. -/
def aliased (reference : String) : Bool :=
  (split '/' reference).any fun part => part.toList.getLast?.any (· ∈ ['.', ' '])

/-- One declared source as it stands, with the bytes read so far. -/
def readSource (allowed : List String) (state : Value × Nat) (reference : String) :
    Result (Value × Nat) := do
  check (reference ∈ allowed) "Independent owner read is not separately admitted"
  DecisionSource.relative reference
  check (aliased reference = false) "Independent source must not use platform path aliases"
  let bytes ← e.read reference
  let total := state.2 + (bytes.elim 0 ByteArray.size)
  check (total ≤ 1048576) "Independent source set exceeds bounded read"
  match bytes with
  | none => pure (state.1.insert reference (.object [("status", .string "absent")]), total)
  | some bytes =>
    let text ← okOr (String.fromUTF8? bytes) MALFORMED
    pure (state.1.insert reference (.object [
      ("revision", .string (host.digest (.array (bytes.toList.map fun b => Value.ofNat b.toNat)))),
      ("status", .string "present"), ("text", .string text)]), total)

/-- What the revision of a selected owner seals. -/
def sealedGrants (registration contract : String) (admission : Value) : Value :=
  .object [("claims", admission.field "claims"), ("contract", .string contract),
    ("effects", admission.field "effects"), ("registration", .string registration),
    ("restrictions", admission.field "restrictions")]

def select (name : String) : Result Selected := do
  check (identifier name = true) "Invalid independent owner identity"
  let registration ← registrationOf e name
  let admission := withSettings ((e.admissions.lookup name).getD .null)
  check (registration.apiVersion = 1)
    (s!"Independent owner {name} is incompatible with its current admission; restore the " ++
      "admitted revision or reconcile admission through Configuration")
  let description := registration.description
  let contract := host.digest description.raw
  check (admission.field "binding" = .string (host.digest (.object [
      ("contract", .string contract), ("implementation", .string registration.revision)])))
    s!"Independent owner {name} contract differs from its exact admission"
  let configurationGap ← configurationGap host name description.configurationSchema
    (admission.field "settings")
  check (description.capability.owner = name ∧ sortDedup description.capability.domains = [name])
    "Independent owner cannot acquire a foreign domain"
  checkEffects name (strings (admission.field "effects")) description.capability.effects
  checkOperations description.capability.operations
  check (description.sources.length ≤ 32) "Independent source declaration exceeds bounded discovery"
  let (sources, _) ← description.sources.foldlM
    (readSource host e (strings (admission.field "reads"))) (.object [], 0)
  pure {
    registration, admission, sources, configurationGap
    revision := host.digest (sealedGrants registration.revision contract admission)
    sourceRevision := host.digest (.object [("admission", admission), ("sources", sources),
      ("work", e.work)]) }

/-- The scopes of a grant, as the compiler reads them. -/
def restrictionScopes (v : Value) : Result (List String) := okOr (stringItems v) MALFORMED

def Selected.restriction (s : Selected) : Result (List RestrictionAuthorityInput) := do
  if s.grants "restrictions" = [] then pure []
  else
    let scopes ← restrictionScopes (s.admission.field "restrictions")
    pure [⟨s.owner, scopes⟩]

def Selected.claims (s : Selected) : List ClaimAuthorityInput :=
  (s.grants "claims").map fun claim => ⟨claim, s.owner⟩

/-- Explicit requests cannot silently disappear with their installation or admission. -/
def checkAdmitted : Result Unit :=
  (sortDedup e.requested).forM fun owner =>
    check (¬ (e.linked owner = true ∧ (e.admissions.lookup owner).isNone = true))
      (s!"Independent owner {owner} is linked but not admitted by modules.independent; no " ++
        "authority acquired")

/-- The contract's JSON, before its revision. -/
def contractValue (selected : List Selected) : Value :=
  .object [
    ("claim_authorities", .array (selected.flatMap fun s => s.claims.map fun c =>
      .object [("claim", .string c.claim), ("owner", .string c.owner)])),
    ("kind", .string CAPABILITY_CONTRACT_KIND),
    ("owners", .array (selected.map fun s =>
      (s.registration.description.raw.field "capability").insert "revision" (.string s.revision))),
    ("restriction_authorities", .array ((selected.filter (·.grants "restrictions" ≠ [])).map fun s =>
      .object [("affects", s.admission.field "restrictions"), ("owner", .string s.owner)])),
    ("revision", .string "pending")]

def discover : Result Runtime := do
  checkAdmitted e
  let selected ← e.names.mapM (select host e)
  let restrictions ← selected.mapM Selected.restriction
  let contract : CapabilityContractInput := {
    kind := CAPABILITY_CONTRACT_KIND
    revision := host.digest (contractValue selected)
    owners := selected.map Selected.capability
    claimAuthorities := selected.flatMap Selected.claims
    restrictionAuthorities := restrictions.flatten }
  if selected = [] then pure ⟨selected, contract⟩
  else
    let _ ← host.compile {
      contributions := [], decisionContext := none, intent := .object []
      capabilityContract := some contract }
    pure ⟨selected, contract⟩

/-! ## Resolution -/

/-- `prepare_request_value`, whose answer is not used. -/
def prepareRequest (request work : Value) (contract : CapabilityContractInput) : Result Unit := do
  let normal ← host.normalizeCapabilityContract contract
  let _ ← host.normalizePublicRequest
    (.object [("current_work", work), ("public_request", request)]) (some normal)
  pure ()

/-- The request of an owner, which it must have issued itself. -/
def currentRequest (s : Selected) (contract : CapabilityContractInput) : Result (Option Value) :=
  match e.requests.filter fun r => r.field "owner" = .string s.owner with
  | [] => pure none
  | [request] => do
    prepareRequest host request e.work contract
    let kind := ((request.field "request_kind").asStr).getD ""
    check (request.field "source_revision" = .string s.sourceRevision ∧
        request.field "id" = .string s!"{s.owner}:{kind}")
      "Independent request is not the exact current owner-issued request"
    pure (some request)
  | _ => fail "Supply one current independent owner intention at a time"

/-- The requests an owner returns, each of a declared kind. -/
def returnedRequest (s : Selected) (contract : CapabilityContractInput)
    (template : RequestTemplate) : Result Value := do
  check (∃ r ∈ s.capability.requests, r.kind = template.kind)
    "Independent owner returned an undeclared request"
  pure (.object [("arguments", template.arguments),
    ("capability_revision", .string contract.revision),
    ("id", .string s!"{s.owner}:{template.kind}"),
    ("kind", .string "agentic-workspace/public-request/v1"), ("owner", .string s.owner),
    ("owner_revision", .string s.revision), ("request_kind", .string template.kind),
    ("source_revision", .string s.sourceRevision), ("task_identity", e.work)])

def publicationPath (owner name : String) : String :=
  s!".agentic-workspace/modules/{owner}/{name}.json"

def eqIgnoreAsciiCase (a b : String) : Bool := a.toList.map Char.toLower == b.toList.map Char.toLower

/-- A published path takes a declared input's place. -/
def replacesSource (sources : List String) (path : String) : Bool :=
  sources.any fun source => source == path || (e.windows && eqIgnoreAsciiCase source path)

def publicationValue (owner : String) : Option Publication → Value
  | some publication => .object [("path", .string (publicationPath owner publication.name)),
      ("value", publication.value)]
  | none => .null

/-- The one action of a prepared operation. -/
def prepareAction (s : Selected) (request : Option Value) (operation : PreparedOperation) :
    Result ActionInput := do
  let request ← okOr request "Independent operation requires an explicit current typed intention"
  let declaration ← okOr (s.capability.operations.find? (·.id = operation.operationId))
    "Independent operation is undeclared"
  let effects := sortDedup declaration.effects
  check (operation.publication.isSome = !effects.isEmpty)
    "Independent publication must exactly correspond to its admitted owned effects"
  check (∀ publication ∈ operation.publication, identifier publication.name = true)
    "Independent publication name must be a confined identifier"
  let publication := publicationValue s.owner operation.publication
  let arguments := Value.object [("publication", publication), ("request", request),
    ("source_revision", .string s.sourceRevision), ("target", .string e.target),
    ("value", operation.value)]
  check (∀ publication ∈ operation.publication, replacesSource e s.registration.description.sources
      (publicationPath s.owner publication.name) = false)
    ("Immutable independent publication cannot replace a declared input source; an " ++
      "owner-specific update contract is required")
  check ((toVec arguments).size ≤ 131072) "Independent prepared result exceeds bounded publication"
  pure {
    sourceRequests := e.requests, dependencyRevision := host.digest arguments
    effectGeneration := "", operationId := operation.operationId, arguments, effects
    authority := none, extra := [] }

/-- What an owner contributes, with its view. -/
def resolveOwner (contract : CapabilityContractInput) (s : Selected) :
    Result (Option ContributionInput × Value) :=
  match s.configurationGap with
  | some gap => do
    check (e.requested.contains s.owner = false) gap
    pure (none, .object [
      ("configuration_schema", s.registration.description.configurationSchema),
      ("reason", .string gap), ("requests", .array []),
      ("status", .string "configuration-required")])
  | none => do
    let request ← currentRequest host e s contract
    let resolution ← s.registration.resolve ⟨e.work, s.admission.field "settings", s.sources, request⟩
    let requests ← resolution.requests.mapM (returnedRequest e s contract)
    let actions ← resolution.operation.toList.mapM (prepareAction host e s request)
    pure (some {
        restrictionBasis := none, owner := s.owner, revision := s.sourceRevision, relevant := true
        settled := false, facts := resolution.facts, material := none
        blockers := resolution.blockers, decisions := [], actions, claims := ⟨[], []⟩
        outcome := none, requestResponse := none, extra := [] },
      .object [
        ("authority_boundary", .string ("Exact admitted native owner contribution; returned " ++
          "foreign material is evidence requiring responsible-owner admission")),
        ("facts", resolution.facts), ("requests", .array requests),
        ("revision", .string s.revision), ("source_revision", .string s.sourceRevision),
        ("sources", s.sources), ("status", .string "current")])

def resolve (runtime : Runtime) (contract : CapabilityContractInput) :
    Result (List ContributionInput × List (String × Value)) := do
  let resolved ← runtime.selected.mapM (resolveOwner host e contract)
  pure (resolved.filterMap Prod.fst, (runtime.selected.map Selected.owner).zip (resolved.map Prod.snd))

/-! ## Publication -/

/-- The path an invocation may write. -/
def destination (invocation : Value) : Result String := do
  let owner ← okOr (invocation.field "source_owner").asStr "Independent publication owner missing"
  let path ← okOr (((invocation.field "arguments").field "publication").field "path").asStr
    "Independent publication destination missing"
  DecisionSource.relative path
  let owned := s!".agentic-workspace/modules/{owner}/"
  check (startsWith owned path = true) "Independent publication cannot mutate foreign owner state"
  let leaf := path.toList.drop owned.length
  check ('/' ∉ leaf ∧ endsWith ".json" (String.ofList leaf) = true)
    "Independent publication must be one owned source"
  pure path

/-! ## The contract of all owners -/

/-- The entries of several lists, each once, in their order. -/
def mergeEntries {α : Type} [DecidableEq α] (lists : List (List α)) : List α :=
  lists.flatten.foldl (fun entries entry => if entry ∈ entries then entries else entries ++ [entry]) []

/-- The revision is the digest of the JSON of all the fragments. -/
def combinedContract (revision : String) (fragments : List CapabilityContractInput) :
    CapabilityContractInput where
  kind := CAPABILITY_CONTRACT_KIND
  revision := revision
  owners := mergeEntries (fragments.map (·.owners))
  claimAuthorities := mergeEntries (fragments.map (·.claimAuthorities))
  restrictionAuthorities := mergeEntries (fragments.map (·.restrictionAuthorities))

end NativeIndependent

end AgenticCore
