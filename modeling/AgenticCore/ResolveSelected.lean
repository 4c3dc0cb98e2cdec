import AgenticCore.Composition
import AgenticCore.JsonText

/-!
# How the owners' views become the contributions of a decision (`native_public.rs`)

* `Views`           : what the owner views of one resolution return, as far as the merge reads it.
* `contributions`   : the merge of `resolve_selected`, in its order.
* `resolveSelected` : the merge, the requests every action carries, and the calls of `compile`.

A view's contribution has its owner's name, and only three kinds of view can be irrelevant (the
resource owner's without a request, Memory's, the repository capture's). The views are the other
modules' and are parameters; so are `restrict_pending` and `pending_launch`, which read a decision.
An `unwrap` that would panic is an error.
-/

set_option autoImplicit false

namespace AgenticCore.NativePublic

open Json Text

deriving instance DecidableEq for BlockerInput

/-! ## Views -/

/-- A whole contribution of one owner. -/
structure OwnerView (owner : String) where
  contribution : ContributionInput
  owned : contribution.owner = owner
  relevant : contribution.relevant = true

/-- The members of a contribution that a partial view writes. -/
structure Drawn where
  revision : Option String
  actions : Option (List ActionInput)
  decisions : Option (List BoundedDecisionInput)
  blockers : Option (List BlockerInput)

/-- An action as its view returns it, and as `compile` reads it. -/
structure Offered where
  value : Value
  action : ActionInput

/-- `native_memory_write::view`: `facts` are the shown ones, once it has admitted a disposition. -/
structure Disposition where
  drawn : Drawn
  facts : Option Value

/-- `native_memory_capture::view_for`: `requested` says that it answers a request. -/
structure Capture where
  drawn : Drawn
  requested : Bool

structure Candidates where
  relevant : Bool
  actions : List ActionInput

structure Learning where
  revision : String
  settled : Bool
  actions : List ActionInput
  decisions : List BoundedDecisionInput

/-- What Memory's other modules say while Memory is enabled. -/
structure MemoryParts where
  disposition : Option Disposition
  capture : Capture
  advisoryCapture : Capture
  retention : Option Offered
  candidates : Option Candidates
  learning : Option Learning

structure IndependentView where
  status : String
  reason : String

/-- `native_planning_update::view`: `resumed` says that the executed invocation is the update that
    consumes a return or retains a handoff. -/
structure Update where
  pending : Bool
  action : Option Offered
  resumed : Bool

structure Creation where
  revision : String
  actions : Option (List ActionInput)

/-- `adopt_return` and `retain_handoff`. -/
structure Continued where
  action : Option Offered
  unresolved : Option String

structure SourceReference where
  reference : String
  revision : String
  deriving DecidableEq

structure InstructionCheck where
  source : SourceReference
  status : String

structure ProofRetention where
  status : String
  reason : Option String
  ownerResolutionRequired : Bool
  action : Option Offered
  value : Value

structure Relation where
  status : String
  unavailableSources : List String

structure Reconciliation where
  whole : Relation
  relations : List Relation
  action : Option ActionInput
  sourceRevision : Option String
  requested : Bool
  decisions : List BoundedDecisionInput
  material : Option Value

structure StandingEntry where
  id : String
  status : String
  measured : Bool
  reviewed : Bool

structure Standing where
  requested : Bool
  revision : String
  action : Option ActionInput
  decisions : List BoundedDecisionInput
  entries : List StandingEntry

/-- What Verification's other modules say while Verification is enabled. -/
structure VerificationParts where
  checks : List InstructionCheck
  /-- The executed invocation is a retained attempt of `proof.report`. -/
  resumesProof : Bool
  /-- A proof is selected or executed. -/
  proving : Bool
  retention : ProofRetention
  reconciliation : Reconciliation
  standing : Standing

/-- `requirements["assignment"]["result"]`, with what `implementation_admission` reads. -/
structure Assigned where
  binding : Bool
  observed : Bool
  evidence : Value
  declaration : Value

structure Admission where
  resultUseAllowed : Bool
  value : Value

/-- The owners the program itself contributes for. -/
def NATIVE_OWNERS : List String :=
  ["workspace-resources", "workspace", "configuration", "decision-continuity", "planning",
    "verification", "startup-adapter", "delegation", "assignment", "system-intent", "memory",
    "scoped-instructions"]

/-- The owner of an independent contribution is none of the program's own: the combined contract
    declares each owner once. Its contribution is always relevant. -/
structure IndependentContribution where
  contribution : ContributionInput
  apart : contribution.owner ∉ NATIVE_OWNERS
  relevant : contribution.relevant = true

structure Views where
  executing : Bool
  enabled : Bool
  planningRequest : Option Value
  startupRequest : Option Value
  resources : ContributionInput
  resources_owned : resources.owner = "workspace-resources"
  resources_relevant : resources.blockers ≠ [] → resources.relevant = true
  configuration : OwnerView "workspace"
  configurationRevision : String
  payloadPaths : List String
  gapScopes : List String
  configWrite : OwnerView "configuration"
  /-- A consumer of a saved setup assessment has changed. -/
  consumersChanged : Bool
  independentViews : List (String × IndependentView)
  independentAdmissions : List (String × Value)
  repositoryCapture : Option Capture
  admissions : Value
  decisionSourceProblem : Option String
  planning : Option (OwnerView "planning")
  planningRevision : String
  update : Update
  planningRetention : Option Offered
  creation : Creation
  verification : OwnerView "verification"
  verificationParts : Option VerificationParts
  startupAdapter : OwnerView "startup-adapter"
  delegation : ContributionInput
  delegation_owned : delegation.owner = "delegation"
  delegation_silent : delegation.blockers = []
  retirement : Option (List ActionInput)
  settlement : Option ActionInput
  assignment : OwnerView "assignment"
  admission : Admission
  integration : Option Offered
  assigned : Option Assigned
  adopted : Continued
  alreadyAdopted : Bool
  handoffRequested : Bool
  resumesHandoff : Bool
  handoff : Continued
  systemIntent : OwnerView "system-intent"
  memory : ContributionInput
  memory_owned : memory.owner = "memory"
  memory_silent : memory.blockers = []
  memoryParts : Option MemoryParts
  independents : List IndependentContribution
  instructions : OwnerView "scoped-instructions"
  sources : List SourceReference
  /-- Some instruction's binding awaits an admission. -/
  admissionPending : Bool

/-! ## Contributions -/

variable (host : Host)

/-- `restriction_basis`. -/
def restrictionBasis (kind revision reference : String) (declaration : Value) :
    RestrictionBasis :=
  let basis : RestrictionBasis :=
    ⟨kind, some revision, some reference, some (host.digest declaration), none⟩
  { basis with bindingRevision := some (host.digest basis.bound) }

def blocker (code message : String) (affects : List String) (basis : Option RestrictionBasis) :
    BlockerInput :=
  { basis, code, message, owner := none, recovery := none, affects }

/-- The revision once an action is part of what the owner says. -/
def revised (revision : String) (value : Value) : String :=
  host.digest (.array [.string revision, value])

/-- One more action beside the ones there. -/
def addAction (c : ContributionInput) (offered : Offered) : ContributionInput :=
  { c with
    actions := c.actions ++ [offered.action]
    settled := false
    revision := revised host c.revision offered.value }

/-- One exact action in place of all that the owner says. -/
def offer (c : ContributionInput) (offered : Offered) : ContributionInput :=
  { c with
    actions := [offered.action]
    decisions := []
    blockers := []
    settled := false
    revision := revised host c.revision offered.value }

/-- Change the first contribution of an owner. -/
def updateOwner (owner : String) (f : ContributionInput → ContributionInput) :
    List ContributionInput → Result (List ContributionInput)
  | [] => fail "called Option::unwrap() on a None value"
  | c :: rest =>
    if c.owner = owner then .ok (f c :: rest)
    else (c :: ·) <$> updateOwner owner f rest

/-- Change the first contribution of an owner where there is something to change it with. -/
def updateWith {α : Type} (owner : String) (f : ContributionInput → α → ContributionInput)
    (o : Option α) (cs : List ContributionInput) : Result (List ContributionInput) :=
  match o with
  | some a => updateOwner owner (f · a) cs
  | none => pure cs

/-! ## Configuration -/

def CONFIGURATION_ASSESSMENTS : List String :=
  [".agentic-workspace/configuration-assessment.json",
    ".agentic-workspace/local/configuration-assessment.json"]

def writesConfiguration (action : ActionInput) : Bool :=
  action.operationId ∈ ["configuration.write", "configuration.recover-write"]

/-- `action["arguments"]["request"]["arguments"][key]`. -/
def requested (action : ActionInput) (key : String) : Value :=
  ((action.arguments.field "request").field "arguments").field key

def isSource (paths : List String) (action : ActionInput) : Bool :=
  (requested action "source").asStr.any (· ∈ paths)

/-- `native_configuration_assessment::repair_action`. -/
def repairAction (action : ActionInput) : Bool :=
  writesConfiguration action && isSource CONFIGURATION_ASSESSMENTS action

def ADOPTION : String := "configuration.repository-adoption"

def PROVENANCE : String := ".agentic-workspace/payload-provenance.json"

/-- `action["arguments"]["binding"]["state"]`. -/
def adoptionState (action : ActionInput) : Value :=
  (action.arguments.field "binding").field "state"

/-- The updates of an adoption are the payload's provenance alone. -/
def provenanceOnly (action : ActionInput) : Bool :=
  ((adoptionState action).field "updates").asObject.any fun updates =>
    updates.length == 1 && (updates.map Prod.fst).contains PROVENANCE

/-- The action repairs exactly the payload. -/
def repairsPayload (paths : List String) (action : ActionInput) : Bool :=
  (writesConfiguration action && isSource paths action) || repairAction action ||
    (action.operationId == ADOPTION && provenanceOnly action)

/-- `native_adoption::disabled_maintenance`. -/
def adoptionMaintenance (action : ActionInput) : Bool :=
  action.operationId == ADOPTION &&
    let mode := (requested action "mode").asStr
    let mode := if mode = some "recover" then
        ((((((adoptionState action).field "pending").field "invocation").field "arguments").field
          "request").field "arguments" |>.field "mode").asStr
      else mode
    mode.any (· ∈ ["adopt", "reconcile-payload"])

def disabledMaintenance (action : ActionInput) : Bool :=
  adoptionMaintenance action || (writesConfiguration action &&
    isSource [".agentic-workspace/config.toml", ".agentic-workspace/config.local.toml"] action)

def ASSESSMENT_REQUIRED : String := "configuration-assessment-required"

/-- `native_configuration_assessment::restrict`. -/
def restrict (c : ContributionInput) : ContributionInput :=
  if c.blockers.any (·.code == ASSESSMENT_REQUIRED) then c
  else { c with blockers := c.blockers ++ [blocker ASSESSMENT_REQUIRED
    ("Current package setup needs Configuration assessment. Read its exact current material, " ++
      "integrate useful authorized capabilities and verify their consumers; preserve unresolved " ++
      "choices and the original task.") ["claim:configuration-integration-complete"] none] }

namespace Views

variable (v : Views)

/-- The actions of the Configuration writer that stay offered. -/
def configActions : List ActionInput :=
  let actions := v.configWrite.contribution.actions
  if v.enabled then actions else actions.filter disabledMaintenance

def repairOffered : Bool := v.configActions.any (repairsPayload v.payloadPaths)

def PAYLOAD_UNPROVEN : String := "native-payload-target-unproven"

/-- While its exact repair is offered, an unproven payload restricts the gap's scopes. -/
def narrowed (b : BlockerInput) : BlockerInput :=
  if v.repairOffered ∧ b.code = PAYLOAD_UNPROVEN then { b with affects := v.gapScopes } else b

def configurationContribution : ContributionInput :=
  let c := v.configuration.contribution
  { c with blockers := c.blockers.map v.narrowed }

def CONFIGURATION_REQUIRED : String := "configuration-required"

/-- The independent owners whose settings are missing. -/
def missing : List (String × IndependentView) :=
  v.independentViews.filter (·.2.status == CONFIGURATION_REQUIRED)

/-- Unknown independent policy stays conservative in its admitted scope. -/
def configurationRequired (entry : String × IndependentView) : BlockerInput :=
  let admission := (v.independentAdmissions.lookup entry.1).getD .null
  let scopes := ((admission.field "restrictions").asArray.getD []).filterMap Value.asStr
  blocker "independent-owner-configuration-required" entry.2.reason
    (if scopes = [] then ["attestation:configuration"] else scopes)
    (some (restrictionBasis host (if scopes = [] then "attestation-limit" else "task-requirement")
      v.configurationRevision "modules.independent" admission))

/-- The Configuration writer's contribution once saved assessments are revalidated. -/
def revalidated : ContributionInput :=
  let c := { v.configWrite.contribution with actions := v.configActions }
  if v.consumersChanged then restrict c else c

def configWriteContribution : ContributionInput :=
  if v.missing = [] then v.revalidated
  else { v.revalidated with blockers := v.missing.map (v.configurationRequired host) }

end Views

/-! ## Memory -/

/-- `native_memory_write::apply_view`. -/
def applyView (memory : ContributionInput) (disposition : Disposition) : ContributionInput :=
  { memory with
    revision := disposition.drawn.revision.getD memory.revision
    actions := disposition.drawn.actions.getD memory.actions
    decisions := disposition.drawn.decisions.getD memory.decisions
    blockers := disposition.drawn.blockers.getD memory.blockers
    facts := disposition.facts.getD memory.facts }

/-- A capture speaks when it answers a request or offers an action. -/
def Capture.current (capture : Capture) : Bool :=
  capture.requested || !(capture.drawn.actions.getD []).isEmpty

def extendCapture (memory : ContributionInput) (capture : Capture) : ContributionInput :=
  if capture.current then
    { memory with
      relevant := true
      settled := false
      revision := capture.drawn.revision.getD ""
      actions := memory.actions ++ capture.drawn.actions.getD []
      decisions := memory.decisions ++ capture.drawn.decisions.getD [] }
  else memory

def applyCapture (memory : ContributionInput) (capture : Capture) : ContributionInput :=
  let memory := extendCapture memory capture
  match capture.drawn.blockers with
  | some blockers => { memory with relevant := true, settled := false, blockers }
  | none => memory

def applyRetention (memory : ContributionInput) (retention : Offered) : ContributionInput :=
  { addAction host memory retention with relevant := true }

def applyCandidates (memory : ContributionInput) (candidates : Candidates) : ContributionInput :=
  { memory with
    relevant := memory.relevant || candidates.relevant
    actions := memory.actions ++ candidates.actions }

def applyLearning (memory : ContributionInput) (learning : Learning) : ContributionInput :=
  { memory with
    revision := learning.revision
    relevant := true
    settled := learning.settled
    actions := memory.actions ++ learning.actions
    decisions := memory.decisions ++ learning.decisions }

namespace Views

variable (v : Views)

def memoryContribution : ContributionInput :=
  match v.memoryParts with
  | none => v.memory
  | some parts =>
    let memory := parts.disposition.elim v.memory (applyView v.memory)
    let memory := applyCapture (applyCapture memory parts.capture) parts.advisoryCapture
    let memory := parts.retention.elim memory (applyRetention host memory)
    let memory := parts.candidates.elim memory (applyCandidates memory)
    parts.learning.elim memory (applyLearning memory)

/-! ## Decision sources -/

end Views

def DECISIONS : String := "decision-continuity"

/-- A contribution none of whose other members are written. -/
def draft (owner : String) : ContributionInput :=
  { restrictionBasis := none, owner, revision := "", relevant := true, settled := false
    facts := .object [], material := none, blockers := [], decisions := [], actions := []
    claims := ⟨[], []⟩, outcome := none, requestResponse := none, extra := [] }

def captureContribution (capture : Capture) : ContributionInput :=
  { draft DECISIONS with
    revision := capture.drawn.revision.getD ""
    relevant := capture.requested || capture.drawn.blockers.isSome ||
      !(capture.drawn.actions.getD []).isEmpty
    actions := capture.drawn.actions.getD []
    decisions := capture.drawn.decisions.getD []
    blockers := capture.drawn.blockers.getD [] }

namespace Views

variable (v : Views)

def problemBlocker (problem : String) : BlockerInput :=
  blocker "receiving-decision-source-unavailable" problem ["attestation:decision-continuity"]
    (some (restrictionBasis host "attestation-limit" (host.digest v.admissions)
      "decision-source-admissions" v.admissions))

def problemContribution (problem : String) : ContributionInput :=
  { draft DECISIONS with
    revision := host.digest (.array [v.admissions, .string problem])
    blockers := [v.problemBlocker host problem] }

def decisionContributions : List ContributionInput :=
  match v.decisionSourceProblem with
  | none => (v.repositoryCapture.map captureContribution).toList
  | some problem => [v.problemContribution host problem]

/-! ## Planning -/

def UPDATE_PENDING : BlockerInput :=
  blocker "planning-update-pending" ("The exact native update postimage is retained but its " ++
    "outcome remains uncertain. Resume only the returned invocation against current authority.")
    ["effect:planning-state"] none

/-- The update's action, unless the executed invocation resumes it. -/
def updateAction : Option Offered := if v.update.resumed then none else v.update.action

def applyPending (cs : List ContributionInput) : Result (List ContributionInput) :=
  if v.update.pending then
    updateOwner "planning" (fun c => { c with blockers := [UPDATE_PENDING], settled := false }) cs
  else pure cs

def applyUpdate (cs : List ContributionInput) : Result (List ContributionInput) := do
  let cs ← v.applyPending cs
  updateWith "planning" (offer host) v.updateAction cs

def applyPlanningRetention (cs : List ContributionInput) : Result (List ContributionInput) :=
  updateWith "planning" (addAction host) v.planningRetention cs

/-- A creation carries the answer it was asked with. -/
def createdAction (action : ActionInput) : ActionInput :=
  { action with arguments := action.arguments.insert "planning_request" (.orNull v.planningRequest) }

def created (c : ContributionInput) (actions : List ActionInput) : ContributionInput :=
  { c with
    actions := c.actions ++ actions.map v.createdAction
    settled := false
    revision := revised host c.revision (.string v.creation.revision) }

def applyCreation (cs : List ContributionInput) : Result (List ContributionInput) :=
  updateWith "planning" (v.created host) v.creation.actions cs

/-- The handoff to retain, where nothing is adopted or integrated. -/
def retainedHandoff : Continued :=
  if v.adopted.action.isSome ∨ v.alreadyAdopted ∨
      (v.integration.isSome ∧ v.handoffRequested = false) then ⟨none, none⟩
  else if v.resumesHandoff then ⟨v.update.action, none⟩
  else v.handoff

def planningAction : Option Offered := v.adopted.action.or v.retainedHandoff.action

def applyContinued (cs : List ContributionInput) : Result (List ContributionInput) :=
  updateWith "planning" (offer host) v.planningAction cs

def continuityUnresolved : Value :=
  .object [("adoption", .orNull (v.adopted.unresolved.map .string)),
    ("handoff", .orNull (v.retainedHandoff.unresolved.map .string))]

def unresolvedBlocker : BlockerInput :=
  blocker "planning-continuity-unresolved" (text v.continuityUnresolved)
    ["effect:planning-state"] (some (restrictionBasis host "operation-guard" v.planningRevision
      "planning-continuity" v.continuityUnresolved))

def applyUnresolved (cs : List ContributionInput) : Result (List ContributionInput) :=
  if (v.adopted.unresolved.isSome ∨ v.retainedHandoff.unresolved.isSome) ∧
      cs.any (·.owner == "planning") then
    updateOwner "planning" (fun c => { c with
      blockers := c.blockers ++ [v.unresolvedBlocker host], settled := false }) cs
  else pure cs

/-! ## Verification -/

end Views

def PROOF : String := "proof.report"

/-- The proof's publication is not this Verification's to replace. -/
def ProofRetention.open (r : ProofRetention) : Bool :=
  r.ownerResolutionRequired || r.status == "recovery-required" ||
    (r.status == "preserved" && r.reason.isSome)

def applyProofRetention (c : ContributionInput) (r : ProofRetention) (resumes : Bool) :
    ContributionInput :=
  let exact := r.status ≠ "recovery-required" ∧ resumes
  let c := if ¬ exact ∧ r.open then
      { c with
        actions := c.actions.filter (·.operationId ≠ PROOF)
        blockers := if r.action.isSome then c.blockers else c.blockers ++ [blocker
          "proof-publication-owner-resolution-required"
          ("Resolve the exact Verification retention request before new proof. Legacy history is " ++
            "preserved and grants no current claim authority.") ["effect:proof-execution"]
          (some (restrictionBasis host "operation-guard" (host.digest r.value)
            "proof-publication-custody" r.value))] }
    else c
  r.action.elim c (addAction host c)

def Relation.unavailable (r : Relation) : Bool :=
  r.status ∈ ["source-observation-required", "scope-observation-required"] ||
    !r.unavailableSources.isEmpty

def Reconciliation.current (r : Reconciliation) : Bool := r.whole.status == "current"

def Reconciliation.unavailable (r : Reconciliation) : Bool :=
  r.whole.unavailable || r.relations.any Relation.unavailable

def observationUnavailable (proving : Bool) : BlockerInput :=
  { blocker "source-relation-observation-unavailable"
      ("An applicable source relation cannot be observed; repair its precise source/scope gap " ++
        "before dependent proof. Unrelated reading and implementation remain available.")
      ("claim:complete" :: if proving then ["effect:proof-execution"] else []) none with
    recovery := some ("Inspect verification.source_reconciliation and its affected relation's " ++
      "unavailable_sources/reason, repair that source boundary and reobserve.") }

def applyReconciliation (c : ContributionInput) (r : Reconciliation) (proving : Bool) :
    ContributionInput :=
  { c with
    blockers := if r.unavailable then c.blockers ++ [observationUnavailable proving] else c.blockers
    actions := c.actions ++ r.action.toList
    revision := if r.requested ∨ r.action.isSome ∨ r.decisions ≠ [] then
        r.sourceRevision.getD c.revision else c.revision
    decisions := c.decisions ++ r.decisions
    material := r.material.or c.material }

/-- Nothing but the standing evidence was missing. -/
def StandingEntry.discharges (e : StandingEntry) : Bool :=
  e.status == "satisfied" && !e.measured && !e.reviewed

def StandingEntry.covers (e : StandingEntry) (b : BlockerInput) : Bool :=
  startsWith s!"assurance:{e.id}:" b.code

/-- `current_evidence::compose`, with the members pushed before it. -/
def applyStanding (c : ContributionInput) (s : Standing) : ContributionInput :=
  { c with
    revision := if s.requested then s.revision else c.revision
    actions := c.actions ++ s.action.toList
    decisions := c.decisions ++ s.decisions
    blockers := (s.entries.filter StandingEntry.discharges).foldl
      (fun blockers e => blockers.filter fun b => !e.covers b) c.blockers }

namespace Views

variable (v : Views)

def verificationContribution : ContributionInput :=
  match v.verificationParts with
  | none => v.verification.contribution
  | some parts =>
    let c := applyProofRetention host v.verification.contribution parts.retention
      parts.resumesProof
    applyStanding (applyReconciliation c parts.reconciliation parts.proving) parts.standing

/-! ## Instructions -/

end Views

def currentBinding (source : SourceReference) : String :=
  s!"instruction:{source.reference}:current-binding"

/-- There are checks of the source, and all are current. -/
def VerificationParts.settles (parts : VerificationParts) (source : SourceReference) : Bool :=
  let checks := parts.checks.filter (·.source = source)
  !checks.isEmpty && checks.all (·.status == "current")

/-- Current checks discharge only their claim consequence. Any write protection in the same
    instruction remains binding. -/
def discharge (code : String) (b : BlockerInput) : Option BlockerInput :=
  if b.code = code then
    let affects := b.affects.filter (· ≠ "claim:complete")
    if affects = [] then none else some { b with affects }
  else some b

def RECONCILIATION_REQUIRED : String := ":source-reconciliation-required"

namespace Views

variable (v : Views)

def dischargedInstructions (parts : VerificationParts) : List BlockerInput :=
  let blockers := (v.sources.filter parts.settles).foldl
    (fun blockers source => blockers.filterMap (discharge (currentBinding source)))
    v.instructions.contribution.blockers
  if parts.reconciliation.current then
    blockers.filter fun b => !endsWith RECONCILIATION_REQUIRED b.code
  else blockers

def instructionsContribution : ContributionInput :=
  let c := v.instructions.contribution
  { c with blockers := v.verificationParts.elim c.blockers v.dischargedInstructions }

/-! ## Delegation and Assignment -/

def delegationContribution : ContributionInput :=
  let c := v.delegation
  let c := v.retirement.elim c fun actions =>
    { c with actions := c.actions ++ actions, settled := false }
  v.settlement.elim c fun action => { c with actions := c.actions ++ [action], settled := false }

def NONLOCAL_HANDOFF : String := "current-nonlocal-assignment-handoff-required"

def IMPLEMENTATION_SCOPES : List String :=
  ["effect:implementation", "claim:complete", "claim:pr-complete", "claim:claim-work-complete",
    "claim:claim-slice-complete"]

/-- `native_assignment::implementation_admission`. -/
def implementationAdmission (c : ContributionInput) (assigned : Assigned) : ContributionInput :=
  if assigned.binding then
    let c := if assigned.observed ∧ v.admission.resultUseAllowed = false then
        { c with
          blockers := c.blockers ++ [blocker "implementation-result-unadmitted"
            ("Observed implementation remains unadmitted. A later local Assignment does not " ++
              "authorize those results or completion claims; use the current Assignment/result " ++
              "recovery.") IMPLEMENTATION_SCOPES none]
          revision := revised host c.revision assigned.evidence }
      else c
    { c with restrictionBasis := some (restrictionBasis host "task-requirement" c.revision
        "current-assignment-policy" assigned.declaration) }
  else c

def assignmentContribution : ContributionInput :=
  let c := v.assignment.contribution
  let c := if v.admission.resultUseAllowed then
      { c with
        blockers := c.blockers.filter (·.code ≠ NONLOCAL_HANDOFF)
        revision := revised host c.revision v.admission.value }
    else c
  let c := v.integration.elim c fun integration =>
    { c with
      actions := [integration.action]
      settled := false
      revision := revised host c.revision integration.value }
  v.assigned.elim c (v.implementationAdmission host c)

/-! ## The merge -/

/-- The contributions in the order in which `resolve_selected` collects them. -/
def contributions : Result (List ContributionInput) := do
  let cs := [v.resources, v.configurationContribution,
    v.configWriteContribution host] ++ v.decisionContributions host ++
    (v.planning.map (·.contribution)).toList
  let cs ← v.applyUpdate host cs
  let cs ← v.applyPlanningRetention host cs
  let cs ← v.applyCreation host cs
  let cs := cs ++ [v.verificationContribution host, v.startupAdapter.contribution]
  let cs ← v.applyContinued host cs
  let cs ← v.applyUnresolved host cs
  pure (cs ++ [v.delegationContribution, v.assignmentContribution host,
    v.systemIntent.contribution, v.memoryContribution host] ++
    v.independents.map (·.contribution) ++ [v.instructionsContribution])

end Views

/-! ## Carried requests and compilation -/

/-- The action depends on one more request. -/
def carry (request : Value) (action : ActionInput) : ActionInput :=
  if request ∈ action.sourceRequests then action
  else { action with sourceRequests := action.sourceRequests ++ [request] }

/-- The operations that a Planning continuation is part of. -/
def CONTINUED : List String :=
  [PROOF, "memory.retire-terminal", "memory.recover-terminal", "planning.retire-terminal",
    "planning.recover-terminal", "verification.retire-receipts", "verification.recover-retirement",
    "verification.record-current-evidence", "verification.recover-current-evidence",
    "configuration.write", "configuration.recover-write", "configuration.defer-choice",
    "configuration.skill-exposure", "configuration.plugin-exposure", ADOPTION,
    "system-intent.write", "system-intent.recover-write", "instructions.write",
    "instructions.recover-write", "memory.dispose", "memory.recover-disposition",
    "memory.capture-decision", "memory.recover-decision", "memory.capture-advisory",
    "memory.recover-advisory", "decision-continuity.capture-decision",
    "decision-continuity.recover-decision", "verification.record-source-reconciliation",
    "workspace.resources.scratch-create", "workspace.resources.scratch-remove",
    "workspace.resources.scratch-prune", "workspace.resources.scratch-retain",
    "workspace.resources.scratch-release", "workspace.resources.worktree-create",
    "workspace.resources.worktree-remove"]

namespace Views

variable (v : Views)

def carried (action : ActionInput) : ActionInput :=
  let action := match v.planningRequest with
    | some request => if action.operationId ∈ CONTINUED then carry request action else action
    | none => action
  match v.startupRequest with
  | some request => if action.effects ≠ [] then carry request action else action
  | none => action

def carriedContribution (c : ContributionInput) : ContributionInput :=
  { c with actions := c.actions.map v.carried }

end Views

/-- The rest of the input, and the parts that read a decision: the restrictions pending
    admissions add, and the blocker of an unresolved launch. -/
structure Rest where
  decisionContext : Option Continuity.Context
  intent : Value
  contract : CapabilityContractInput
  restrictPending : Value → Result (List BlockerInput)
  pendingLaunch : Value → Result (Option BlockerInput)

def Rest.input (rest : Rest) (cs : List ContributionInput) : DecisionInput :=
  { contributions := cs, decisionContext := rest.decisionContext, intent := rest.intent
    capabilityContract := some rest.contract }

/-- Change the last contribution. -/
def updateLast (f : ContributionInput → ContributionInput) :
    List ContributionInput → List ContributionInput
  | [] => []
  | [c] => [f c]
  | c :: d :: rest => c :: updateLast f (d :: rest)

/-- `restrict_pending` on what `compile` prepares. -/
def restrictLast (v : Views) (rest : Rest) (cs : List ContributionInput) :
    Result (List ContributionInput) :=
  if v.admissionPending ∧ cs.any (!·.actions.isEmpty) then do
    let prepared ← host.compile (rest.input cs)
    let additions ← rest.restrictPending prepared
    pure (updateLast (fun c => { c with blockers := c.blockers ++ additions }) cs)
  else pure cs

/-- The contributions given to the last `compile`, and its decision. -/
def resolveSelected (v : Views) (rest : Rest) : Result (List ContributionInput × Value) := do
  let cs ← v.contributions host
  let cs ← restrictLast host v rest (cs.map v.carriedContribution)
  let decision ← host.compile (rest.input cs)
  if v.executing then pure (cs, decision)
  else
    match ← rest.pendingLaunch decision with
    | none => pure (cs, decision)
    | some pending =>
      let cs ← updateOwner "delegation"
        (fun c => { c with blockers := [pending], settled := false }) cs
      let decision ← host.compile (rest.input cs)
      pure (cs, decision)

end AgenticCore.NativePublic
