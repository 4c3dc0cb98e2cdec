import AgenticCore.Basic

/-!
# The capability contract (`lib.rs`)

* `normalizeCapabilityContract` : admission of the declared owners, domains, effects, operations
                                  and requests, then of the claim and restriction authorities.
* `operationRevision`           : the revision of one operation and the custody of its effects.

A set is kept as the sorted list `unique_strings` returns. `Host` stands for what lies outside the
core: the SHA-256 of a serialised value, the JSON Schema library (`builds` a schema, `accepts` a
value), and the read-only resolution of an activity request.
-/

set_option autoImplicit false

namespace AgenticCore

open Json Text

def CAPABILITY_CONTRACT_KIND : String := "agentic-workspace/capability-contract/v1"

structure EffectAuthorityInput where
  id : String
  domain : String

structure OperationCapabilityInput where
  id : String
  semanticRevision : String
  reads : Option (List String)
  inputSchema : Value
  resultKind : String
  effects : List String
  claims : List String

structure RequestShapeInput where
  kind : String
  inputSchema : Value
  resultKind : String

structure CapabilityOwnerInput where
  owner : String
  revision : String
  domains : List String
  effects : List EffectAuthorityInput
  operations : List OperationCapabilityInput
  requests : List RequestShapeInput

structure ClaimAuthorityInput where
  claim : String
  owner : String

structure RestrictionAuthorityInput where
  owner : String
  affects : List String

structure CapabilityContractInput where
  kind : String
  revision : String
  owners : List CapabilityOwnerInput
  claimAuthorities : List ClaimAuthorityInput
  restrictionAuthorities : List RestrictionAuthorityInput

structure NormalizedOperationCapability where
  semanticRevision : String
  reads : Option (List String)
  inputSchema : Value
  resultKind : String
  effects : List String
  claims : List String
  deriving DecidableEq

structure NormalizedRequestShape where
  inputSchema : Value
  resultKind : String
  deriving DecidableEq

structure NormalizedCapabilityOwner where
  revision : String
  domains : List String
  effects : BTreeMap String String
  operations : BTreeMap String NormalizedOperationCapability
  requests : BTreeMap String NormalizedRequestShape

structure NormalizedCapabilityContract where
  revision : String
  owners : BTreeMap String NormalizedCapabilityOwner
  claimAuthorities : BTreeMap String String
  restrictionAuthorities : BTreeMap String (List String)

/-! ## Serialisation -/

/-- A serialised map: its members in the order of the keys. -/
def mapValue {α : Type} (f : α → Value) (m : BTreeMap String α) : Value :=
  .object (m.toList.map fun (k, a) => (k, f a))

def NormalizedOperationCapability.toValue (o : NormalizedOperationCapability) : Value :=
  .record [("claims", some (.strings o.claims)), ("effects", some (.strings o.effects)),
    ("input_schema", some o.inputSchema), ("reads", o.reads.map .strings),
    ("result_kind", some (.string o.resultKind)),
    ("semantic_revision", some (.string o.semanticRevision))]

def NormalizedRequestShape.toValue (r : NormalizedRequestShape) : Value :=
  .object [("input_schema", r.inputSchema), ("result_kind", .string r.resultKind)]

def NormalizedCapabilityOwner.toValue (o : NormalizedCapabilityOwner) : Value :=
  .object [("domains", .strings o.domains), ("effects", mapValue .string o.effects),
    ("operations", mapValue NormalizedOperationCapability.toValue o.operations),
    ("requests", mapValue NormalizedRequestShape.toValue o.requests),
    ("revision", .string o.revision)]

def NormalizedCapabilityContract.toValue (c : NormalizedCapabilityContract) : Value :=
  .object [("claim_authorities", mapValue .string c.claimAuthorities),
    ("kind", .string CAPABILITY_CONTRACT_KIND),
    ("owners", mapValue NormalizedCapabilityOwner.toValue c.owners),
    ("restriction_authorities", mapValue .strings c.restrictionAuthorities),
    ("revision", .string c.revision)]

/-! ## Schemas -/

structure Host where
  digest : Value → String
  builds : Value → Bool
  accepts : Value → Value → Bool
  activity : Value → Result Value

variable (host : Host)

def Host.schemaValidator (schema : Value) (field : String) : Result (Value → Bool) := do
  check ((schema.get? "$schema").bind Value.asStr =
      some "https://json-schema.org/draft/2020-12/schema")
    s!"{field}.input_schema must declare JSON Schema Draft 2020-12"
  check (host.builds schema = true) s!"{field}.input_schema is invalid: {MALFORMED}"
  pure (host.accepts schema)

def Host.validateOperationArguments (value schema : Value) (field : String) : Result Unit := do
  check (value.isObject = true) s!"{field}.arguments must be an object"
  let accepts ← host.schemaValidator schema field
  check (accepts value = true) s!"{field}.arguments violate input_schema: {MALFORMED}"

/-! ## Normalisation -/

/-- Fail on the first offending element found. -/
def refuse {α : Type} (found : Option α) (message : α → String) : Result Unit :=
  match found with
  | some a => fail (message a)
  | none => .ok ()

@[simp] theorem refuse_eq_ok {α : Type} {found : Option α} {message : α → String} {u : Unit} :
    refuse found message = .ok u ↔ found = none := by
  cases found <;> simp [refuse]

/-- `if let Some(existing) = m.insert(name, owner)`: fail when the name was taken. -/
def claimName (m : BTreeMap String String) (name owner : String) (message : String → String) :
    Result (BTreeMap String String) := do
  refuse m[name]? message
  pure (m.insert name owner)

def declareEffect (owner : String) (domains : List String)
    (declared : BTreeMap String String × BTreeMap String String)
    (item : EffectAuthorityInput × Nat) : Result (BTreeMap String String × BTreeMap String String) := do
  let index := item.2
  let id ← requireText item.1.id s!"capability_contract owner {owner}.effects[{index}].id"
  let domain ← requireText item.1.domain
    s!"capability_contract owner {owner}.effects[{index}].domain"
  check (domain ∈ domains)
    s!"effect {id} names domain {domain}, which is not owned by {owner}"
  check (declared.1[id]?.isNone) s!"effect {id} is declared more than once by {owner}"
  let ownedEffects ← claimName declared.2 id owner
    fun existing => s!"effect {id} has conflicting owners {existing} and {owner}"
  pure (declared.1.insert id domain, ownedEffects)

def Host.normalizeOperation (owner id : String) (effects : BTreeMap String String)
    (operation : OperationCapabilityInput) : Result NormalizedOperationCapability := do
  let _ ← host.schemaValidator operation.inputSchema s!"operation {id}"
  let operationEffects ← uniqueStrings operation.effects
    s!"capability_contract operation {id}.effects"
  refuse (operationEffects.find? fun effect => effects[effect]?.isNone)
    fun effect => s!"operation {id} advertises effect {effect} outside owner {owner}"
  let claims ← uniqueStrings operation.claims s!"capability_contract operation {id}.claims"
  let semanticRevision ← requireText operation.semanticRevision "operation.semantic_revision"
  let reads ← transposeM (fun reads => uniqueStrings reads "operation.reads") operation.reads
  let resultKind ← requireText operation.resultKind "capability_contract operation result_kind"
  pure {
    semanticRevision, reads, resultKind, claims
    inputSchema := operation.inputSchema
    effects := operationEffects }

def Host.declareOperation (owner : String) (effects : BTreeMap String String)
    (declared : BTreeMap String NormalizedOperationCapability × BTreeMap String String)
    (item : OperationCapabilityInput × Nat) :
    Result (BTreeMap String NormalizedOperationCapability × BTreeMap String String) := do
  let index := item.2
  let id ← requireText item.1.id s!"capability_contract owner {owner}.operations[{index}].id"
  let operationOwners ← claimName declared.2 id owner
    fun existing => s!"operation {id} has conflicting owners {existing} and {owner}"
  let operation ← host.normalizeOperation owner id effects item.1
  pure (declared.1.insert id operation, operationOwners)

def Host.declareRequest (owner : String)
    (declared : BTreeMap String NormalizedRequestShape × BTreeMap String String)
    (request : RequestShapeInput) :
    Result (BTreeMap String NormalizedRequestShape × BTreeMap String String) := do
  let kind ← requireText request.kind "capability request.kind"
  let requestKinds ← claimName declared.2 kind owner fun existing =>
    s!"public request kind {kind} has conflicting declarations by {existing} and {owner}"
  let _ ← host.schemaValidator request.inputSchema s!"request {kind}"
  let resultKind ← requireText request.resultKind "capability request.result_kind"
  pure (declared.1.insert kind ⟨request.inputSchema, resultKind⟩, requestKinds)

/-- What the owners read so far have declared: each name with its owner. -/
structure Declared where
  owners : BTreeMap String NormalizedCapabilityOwner
  ownedDomains : BTreeMap String String
  ownedEffects : BTreeMap String String
  operationOwners : BTreeMap String String
  requestKinds : BTreeMap String String

def Host.declareOwner (declared : Declared) (item : CapabilityOwnerInput × Nat) :
    Result Declared := do
  let input := item.1
  let index := item.2
  let owner ← requireText input.owner s!"capability_contract.owners[{index}].owner"
  check (declared.owners[owner]?.isNone) s!"capability owner {owner} is declared more than once"
  let revision ← requireText input.revision s!"capability_contract.owners[{index}].revision"
  let domains ← uniqueStrings input.domains s!"capability_contract owner {owner}.domains"
  let ownedDomains ← domains.foldlM (fun owned domain => claimName owned domain owner
    fun existing => s!"domain {domain} has conflicting owners {existing} and {owner}")
    declared.ownedDomains
  let effects ← input.effects.zipIdx.foldlM (declareEffect owner domains) (∅, declared.ownedEffects)
  let operations ← input.operations.zipIdx.foldlM (host.declareOperation owner effects.1)
    (∅, declared.operationOwners)
  let requests ← input.requests.foldlM (host.declareRequest owner) (∅, declared.requestKinds)
  pure {
    owners := declared.owners.insert owner ⟨revision, domains, effects.1, operations.1, requests.1⟩
    ownedDomains
    ownedEffects := effects.2
    operationOwners := operations.2
    requestKinds := requests.2 }

def declareClaimAuthority (owners : BTreeMap String NormalizedCapabilityOwner)
    (authorities : BTreeMap String String) (item : ClaimAuthorityInput × Nat) :
    Result (BTreeMap String String) := do
  let index := item.2
  let claim ← requireText item.1.claim s!"capability_contract.claim_authorities[{index}].claim"
  let owner ← requireText item.1.owner s!"capability_contract.claim_authorities[{index}].owner"
  check (owners[owner]?.isSome) s!"claim {claim} names unknown authority owner {owner}"
  claimName authorities claim owner
    fun existing => s!"claim {claim} has conflicting authorities {existing} and {owner}"

/-- The domains an operation reads are known, and the claims it advertises are its owner's. -/
def checkOperation (ownedDomains claimAuthorities : BTreeMap String String) (owner : String)
    (entry : String × NormalizedOperationCapability) : Result Unit := do
  let operationId := entry.1
  refuse ((entry.2.reads.getD []).find? fun domain => ownedDomains[domain]?.isNone)
    fun domain => s!"operation {operationId} reads unknown domain {domain}"
  refuse (entry.2.claims.find? fun claim => claimAuthorities[claim]? ≠ some owner)
    fun claim => s!"operation {operationId} advertises claim {claim} without authority owned by {owner}"

def declareRestrictionAuthority (owners : BTreeMap String NormalizedCapabilityOwner)
    (authorities : BTreeMap String (List String)) (grant : RestrictionAuthorityInput) :
    Result (BTreeMap String (List String)) := do
  let owner ← requireText grant.owner "restriction authority.owner"
  check (owners[owner]?.isSome) s!"restriction authority names unknown owner {owner}"
  let scopes ← affects grant.affects "restriction authority.affects"
  check (authorities[owner]?.isNone)
    s!"restriction authority for {owner} is declared more than once"
  pure (authorities.insert owner scopes)

def Host.normalizeCapabilityContract (input : CapabilityContractInput) :
    Result NormalizedCapabilityContract := do
  check (input.kind = CAPABILITY_CONTRACT_KIND)
    s!"capability_contract.kind must be {CAPABILITY_CONTRACT_KIND}"
  let revision ← requireText input.revision "capability_contract.revision"
  check (sha256Revision revision = true)
    "capability_contract.revision must be a lowercase sha256 revision"
  let declared ← input.owners.zipIdx.foldlM host.declareOwner ⟨∅, ∅, ∅, ∅, ∅⟩
  check (declared.owners.isEmpty = false) "capability_contract must declare at least one owner"
  let claimAuthorities ← input.claimAuthorities.zipIdx.foldlM
    (declareClaimAuthority declared.owners) ∅
  declared.owners.toList.forM fun (owner, capability) =>
    capability.operations.toList.forM
      (checkOperation declared.ownedDomains claimAuthorities owner)
  let restrictionAuthorities ← input.restrictionAuthorities.foldlM
    (declareRestrictionAuthority declared.owners) ∅
  pure { revision, claimAuthorities, restrictionAuthorities, owners := declared.owners }

/-- The domain each of the effects is in custody of; null for an effect nobody declares. -/
def custody (capability : Option NormalizedCapabilityOwner) (effects : List String) : Value :=
  mapValue (fun domain => .orNull (domain.map .string))
    (.ofList (effects.map fun effect => (effect, capability.bind (·.effects[effect]?))) compare)

def Host.operationRevision (owner id : String) (capability : NormalizedCapabilityOwner) :
    Result String := do
  let operation ← okOr capability.operations[id]? "operation is not declared by its capability owner"
  pure (host.digest (.object [
    ("custody", custody (some capability) operation.effects),
    ("id", .string id),
    ("operation", operation.toValue),
    ("owner", .string owner)]))

end AgenticCore
