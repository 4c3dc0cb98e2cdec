import AgenticCore.DecisionSource
import AgenticCore.JsonPath
import AgenticCore.JsonText

/-!
# Claim reviews over verification evidence (`native_claim_review.rs`)

* `receiptView`                  : the evidence row of a receipt (`native_verification.rs`).
* `coversProtocol`               : a row that counts for a protocol (`native_proof.rs`).
* `negativeEvidence`             : how each failed row bears on the claim.
* `view`                         : the review of one claim request.
-/

set_option autoImplicit false

namespace AgenticCore

open Json Text

namespace NativeClaimReview

def asStrOr (v : Value) : String := v.asStr.getD ""

/-- `as_array().into_iter().flatten()`. -/
def itemsOf (v : Value) : List Value := v.asArray.getD []

/-- `as_object().into_iter().flatten()`. -/
def membersOf (v : Value) : List (String × Value) := v.asObject.getD []

def PASSED : String := "selected-command-passed"

/-! ## Evidence rows -/

/-- What `receipt_view` has gathered about a receipt when it puts the row together. -/
structure Observation where
  reference : String
  task : String
  receipt : Value
  publication : Value
  admission : Value
  freshness : Value
  judgment : Value
  detail : Value
  futureValueCandidate : Value
  assessmentArtifact : Value
  /-- `receipt["proof_subject"]["runtime"]["executor"]["kind"]` is that of the proof executor. -/
  snapshot : Bool
  gaps : List String

inductive Receipt where
  /-- A row that ends before the receipt is read. -/
  | unadmitted (reference gap : String)
  | observed (o : Observation)

def Observation.subject (o : Observation) : Value := o.receipt.field "proof_subject"

def Observation.native (o : Observation) : Bool :=
  (o.subject.field "runtime").field "implementation" = .string "native-aw-proof"

/-- What the row claims, null unless the receipt is a current pass of a selected command. -/
def checkedScope (o : Observation) : Value :=
  if o.publication.field "status" = .string "admitted" ∧
      o.admission.field "proof_sufficient" = .bool true ∧
      o.admission.field "result_class" = .string "passed" ∧
      o.freshness.field "status" = .string "reusable" ∧
      o.freshness.field "strategy_coverage" = .string "selected-command-covered" ∧
      o.detail.field "status" = .string "current" ∧ o.native = true ∧
      o.gaps.any (startsWith "proof-semantic-input") = false then
    .object [("claim", .string PASSED),
      ("command", (o.freshness.field "command_coverage").field "command"),
      ("completion_authority", .bool false),
      ("source_inputs", o.subject.field "source_inputs"),
      ("task", .string o.task)]
  else .null

def guarantee (o : Observation) : String :=
  if o.snapshot then "immutable-readonly-snapshot"
  else if o.native then "live-checkout-launch-and-return-only"
  else "unproven"

def limits (o : Observation) : List String :=
  "nested-tool-runtime-unobserved" ::
    if guarantee o = "live-checkout-launch-and-return-only" then
      ["live-tree-transient-mutation-unobserved"]
    else []

/-- The row of a receipt, as the review gets it: without the measurement observations, which
    are taken out of every row before. -/
def receiptView : Receipt → Value
  | .unadmitted reference gap =>
    .object [("gaps", Value.strings [gap]), ("reference", .string reference),
      ("status", .string "unadmitted")]
  | .observed o =>
    .object [
      ("admission_scope", .string "selected-command"),
      ("checked_scope", checkedScope o),
      ("detail", o.detail),
      ("evidence_freshness", o.freshness.field "status"),
      ("future_value_candidate", o.futureValueCandidate),
      ("gaps", Value.strings o.gaps),
      ("independent_review", .string "not-established-by-publication"),
      ("limits", Value.strings (limits o)),
      ("observation", .object [
        ("assessment_artifact", o.assessmentArtifact),
        ("changed_paths", o.receipt.field "changed_paths"),
        ("command", o.receipt.field "command"),
        ("current_use", o.freshness.field "status"),
        ("execution_artifact", o.receipt.field "execution_artifact"),
        ("recorded_at", o.receipt.field "recorded_at"),
        ("recorded_result", o.receipt.field "result"),
        ("status", (o.receipt.field "execution").field "status"),
        ("subject", o.subject.field "id"),
        ("subject_guarantee", .string (guarantee o))]),
      ("proof_subject", o.subject.field "id"),
      ("publication_admission", o.publication),
      ("receipt_admission", o.admission),
      ("reference", .string o.reference),
      ("runtime_admission", o.freshness),
      ("status", .string (if checkedScope o = .null then "unadmitted" else "admitted")),
      ("strategy_coverage", o.freshness.field "strategy_coverage"),
      ("task_judgment", o.judgment)]

def passed (row : Value) : Bool := (row.field "checked_scope").field "claim" = .string PASSED

def failed (row : Value) : Bool :=
  (row.field "receipt_admission").field "result_class" = .string "failed"

def commandCoverage (row : Value) : Value :=
  (row.field "runtime_admission").field "command_coverage"

/-! ## Coverage of a protocol -/

/-- The route and the command that a row covers, as the strategy declares them now. -/
def currentCoverage (evidence strategy : Value) : Option (String × Value) :=
  if ¬passed evidence then none
  else
    let choice := commandCoverage evidence
    match (choice.field "route_id").asStr with
    | none => none
    | some id =>
      let command := choice.field "command"
      if command.asStr.isNone then none
      else
        match (((strategy.field "proof_routes").field id).field "commands").asArray with
        | none => none
        | some commands =>
          if (evidence.field "checked_scope").field "command" = command ∧ command ∈ commands then
            some (id, command)
          else none

def coversProtocol (evidence strategy : Value) (id : String) : Bool :=
  (evidence.field "runtime_admission").field "sufficiency_currentness" = .string "current" &&
    (match currentCoverage evidence strategy with
    | none => false
    | some (route, _) =>
      ((strategy.field "protocols").field id).isObject &&
        (match (((strategy.field "proof_routes").field route).field "protocol_refs").asArray with
        | none => false
        | some refs => decide (.string id ∈ refs)))

/-! ## Failed rows -/

section Negative

-- `parse_from_rfc3339`.
variable (parseTime : String → Option Int)

/-- A failed row that is reusable, covered by the strategy and of current detail. -/
def currentFailure (row : Value) : Bool :=
  (row.field "runtime_admission").field "status" = .string "reusable" &&
    (row.field "runtime_admission").field "strategy_coverage" =
      .string "selected-command-covered" &&
    (row.field "detail").field "status" = .string "current"

/-- The obligations that require the command of a row: on the profile's own route, or on one
    whose protocol names the profile. -/
def requirements (strategy obligations row : Value) : List Value :=
  let choice := commandCoverage row
  let routeId := asStrOr (choice.field "route_id")
  let route := (strategy.field "proof_routes").field routeId
  (itemsOf obligations).filter fun o =>
    let profile := asStrOr (o.field "profile_id")
    (match (o.field "required_commands").asArray with
    | none => false
    | some commands => decide (choice.field "command" ∈ commands)) &&
      (routeId = "profile:" ++ profile ||
        ((itemsOf (route.field "protocol_refs")).filterMap Value.asStr).any fun id =>
          match (((strategy.field "protocols").field id).field "proof_profiles").asArray with
          | none => false
          | some profiles => decide (.string profile ∈ profiles))

/-- The instruction checks on the route of a row. -/
def checksOf (instructionChecks : List Value) (row : Value) : List Value :=
  instructionChecks.filter fun check =>
    check.field "route_id" = (commandCoverage row).field "route_id"

def required (strategy obligations : Value) (instructionChecks : List Value) (row : Value) :
    Bool :=
  !(requirements strategy obligations row).isEmpty ||
    (checksOf instructionChecks row).any fun check =>
      check.field "status" = .string "current" ||
        check.field "status" = .string "evidence-required"

/-- What the request says of the row; null without a request. -/
def disposition (request : Option Value) (row : Value) : Value :=
  match request with
  | none => .null
  | some request =>
    ((request.field "arguments").field "evidence_dispositions").field
      (asStrOr (row.field "reference"))

def recorded (row : Value) : Option Int :=
  ((row.field "observation").field "recorded_at").asStr.bind parseTime

/-- A pass of the same route, command and subject, recorded no earlier than the row. -/
def supersedes (row pass : Value) : Bool :=
  passed pass && commandCoverage pass = commandCoverage row &&
    pass.field "proof_subject" = row.field "proof_subject" &&
    (match recorded parseTime pass, recorded parseTime row with
    | some p, some f => decide (f ≤ p)
    | _, _ => false)

def superseded (evidence : List Value) (request : Option Value) (row : Value) : Bool :=
  (disposition request row).field "disposition" = .string "superseded" &&
    evidence.any fun pass =>
      pass.field "reference" = (disposition request row).field "superseding_ref" &&
        supersedes parseTime row pass

def negativeStatus (evidence : List Value) (strategy obligations : Value)
    (instructionChecks : List Value) (request : Option Value) (row : Value) : String :=
  let judged := (disposition request row).field "disposition"
  if ¬currentFailure row then "historical-or-unproven"
  else if superseded parseTime evidence request row then "superseded"
  else if required strategy obligations instructionChecks row then "required-failure"
  else if judged = .string "material" then "material-failure"
  else if judged = .string "not-material" then "not-material"
  else if judged = .string "superseded" then "disposition-unproven"
  else "relevance-unresolved"

def negativeRow (evidence : List Value) (strategy obligations : Value)
    (instructionChecks : List Value) (request : Option Value) (row : Value) : Value :=
  .object [
    ("authority", .string <|
      "Current required-command coverage or the acting domain's exact bound " ++
      "relevance/supersession judgment; selection alone supplies neither."),
    ("instruction_checks", .array (checksOf instructionChecks row)),
    ("judgment", disposition request row),
    ("observation", row.field "observation"),
    ("reference", row.field "reference"),
    ("required", .bool (required strategy obligations instructionChecks row)),
    ("source_obligations", .array (requirements strategy obligations row)),
    ("status", .string
      (negativeStatus parseTime evidence strategy obligations instructionChecks request row))]

def negativeEvidence (evidence : List Value) (strategy obligations : Value)
    (instructionChecks : List Value) (request : Option Value) : List Value :=
  (evidence.filter failed).map
    (negativeRow parseTime evidence strategy obligations instructionChecks request)

end Negative

/-! ## The review -/

def REQUEST : String := "verification/review-claim/v1"

def MAX_PROTOCOL_RECOVERY_BYTES : Nat := 8192

def STALE : String :=
  "claim-review-stale: claim review proposal or bound context changed; " ++
  "resubmit current judgment through verification/review-claim/v1, then answer " ++
  "its returned decision reference. Existing command evidence needs no rerun " ++
  "unless its own currentness requires it"

def SHAPE : String :=
  "claim-review-request-shape: incomplete or altered confirmation envelope; " ++
  "use the full returned claim_review.confirmation_request or the pending " ++
  "verification-claim-review decision reference with only confirm/defer. " ++
  "Preserve current reentry; no claim judgment was admitted"

/-- The program ends where a part of its own context has another shape. -/
def PANIC : String := "called `Option::unwrap()` on a `None` value"

/-- What the review calls of the rest of the core and of its libraries. -/
structure Host where
  digest : Value → String
  parseTime : String → Option Int
  /-- `compile_value`. -/
  compileValue : Value → Result Value
  /-- The digest of the reviewing code's own text. -/
  producer : String

structure Context where
  task : String
  work : Value
  subject : Value
  /-- The revisions of the files in scope, or the failure to read one. -/
  postimages : Result (List (String × Value))
  config : Value
  instructions : Value
  strategy : Value
  evidence : List Value
  obligations : Value
  instructionChecks : List Value
  executionRequest : Value → Value
  sourceRevision : String
  contract : Value

/-- `delegated` (`native_decision_authority.rs`): the grant whose scope is exactly these paths. -/
def delegated (config : Value) (owner : String) (paths : List String) : Option Value := do
  if paths = [] ∨ 32 < paths.length then none
  else if paths.any fun path => (DecisionSource.relative path).isOk = false then none
  else do
    let grants ← ((config.field "admissions").field "decision_delegations").asArray
    grants.findSome? fun grant => do
      if grant.field "owner" ≠ .string owner then none
      else do
        let scope ← (grant.field "scope").asArray
        let actual ← scope.mapM fun path => do
          let path ← path.asStr
          let path ← stripPrefix "path:" path
          if path.toList.any (· ∈ ['*', '?', '[', ']']) then none
          else if (DecisionSource.relative path).isOk then some path else none
        if actual.Nodup ∧ sortDedup actual = sortDedup paths then
          some (.object [("grant", grant), ("identity_authentication", .string "not-claimed"),
            ("independent_review", .bool false),
            ("kind", .string "exact-policy-delegated-decision"),
            ("policy_revision", config.field "revision"),
            ("source", .string
              ".agentic-workspace/config.toml#assurance.decision_delegations")])
        else none

/-- What the review says of one protocol. -/
structure Coverage where
  status : String
  evidenceRefs : List Value
  nextRequests : List Value
  omitted : Nat
  deriving DecidableEq

def Coverage.toValue (c : Coverage) : Value :=
  .object [
    ("authority", .string <|
      "Only current evidence with unchanged route/protocol semantics from an explicitly " ++
      "protocol-linked route counts; profile selection and matching command text do not " ++
      "supply protocol authority."),
    ("evidence_refs", .array c.evidenceRefs),
    ("next_requests", .array c.nextRequests),
    ("omitted_request_count", .ofNat c.omitted),
    ("status", .string c.status)]

def manualOnly (protocol : Value) : Bool := (protocol.field "commands").asArray = some []

/-- The rows of the proposal that count for a protocol. -/
def supporting (stable : List Value) (strategy : Value) (id : String) : List Value :=
  stable.filter fun row => coversProtocol row strategy id

def coverageOf (stable : List Value) (strategy : Value) (id : String) (protocol : Value) :
    Coverage where
  status :=
    if manualOnly protocol then "manual-only"
    else if supporting stable strategy id ≠ [] then "current-command-evidence-satisfied"
    else "command-evidence-required"
  evidenceRefs := (supporting stable strategy id).map (Value.field · "reference")
  nextRequests := []
  omitted := 0

def uncovered (coverage : List (String × Coverage)) (id : String) : Bool :=
  match coverage.lookup id with
  | some row => row.status = "command-evidence-required"
  | none => false

def adjust (id : String) (f : Coverage → Coverage) (coverage : List (String × Coverage)) :
    List (String × Coverage) :=
  coverage.map fun (name, row) => if name = id then (name, f row) else (name, row)

/-- One route of the bounded recovery: it is counted for every uncovered protocol it links, and
    the first route with a command offers it, unless the request is too large. -/
def recover (executionRequest : Value → Value)
    (state : List (String × Coverage) × Bool) (entry : String × Value) :
    List (String × Coverage) × Bool :=
  let (coverage, attempted) := state
  let (routeId, route) := entry
  let linked := ((itemsOf (route.field "protocol_refs")).filterMap Value.asStr).filter
    (uncovered coverage)
  match linked, (route.field "commands").asArray with
  | first :: _, some commands =>
    let coverage := linked.foldl (fun coverage id =>
      adjust id (fun row => { row with omitted := row.omitted + commands.length }) coverage)
      coverage
    match attempted, commands with
    | false, command :: _ =>
      let request :=
        executionRequest (.object [("command", command), ("route_id", .string routeId)])
      if (toVec request).size ≤ MAX_PROTOCOL_RECOVERY_BYTES then
        (adjust first (fun row =>
          { row with nextRequests := [request], omitted := row.omitted - 1 }) coverage, true)
      else (coverage, true)
    | attempted, _ => (coverage, attempted)
  | _, _ => (coverage, attempted)

/-- What the source calls a `restriction_basis`. -/
def restrictionBasis (host : Host) (kind : String) (revision : Value) (reference : String)
    (declaration : Value) : Value :=
  let basis := Value.object [("declaration_revision", .string (host.digest declaration)),
    ("kind", .string kind), ("reference", .string reference), ("source_revision", revision)]
  basis.insert "binding_revision" (.string (host.digest basis))

section View

variable (host : Host) (context : Context)

def arguments (request : Value) : Value := request.field "arguments"

def negatives (request : Option Value) : List Value :=
  negativeEvidence host.parseTime context.evidence context.strategy context.obligations
    context.instructionChecks request

def candidateRefs : List String := context.evidence.filterMap fun row =>
  (row.field "reference").asStr

/-- The request that is offered before there is one. -/
def template (owner : Value) : Value :=
  let refs := sortDedup ((context.evidence.filter passed).filterMap fun row =>
    (row.field "reference").asStr)
  .object [
    ("arguments", .record [
      ("candidate_refs",
        if candidateRefs context = [] then none else some (.strings (candidateRefs context))),
      ("disposition", some (.string "insufficient")),
      ("evidence_refs", some (.strings refs)),
      ("reason", some (.string
        "Review the exact resulting work against the required evidence and outcome."))]),
    ("capability_revision", context.contract.field "revision"),
    ("id", .string REQUEST),
    ("kind", .string "agentic-workspace/public-request/v1"),
    ("owner", .string "verification"),
    ("owner_revision", owner.field "revision"),
    ("request_kind", .string REQUEST),
    ("source_revision", .string context.sourceRevision),
    ("task_identity", context.work)]

def selected (request row : Value) : Bool :=
  match ((arguments request).field "evidence_refs").asArray with
  | none => false
  | some refs => decide (row.field "reference" ∈ refs)

/-- A failed row stays in the proposal whether it is selected or not. -/
def stays (row : Value) : Bool :=
  failed row && (row.field "runtime_admission").field "status" = .string "reusable" &&
    (row.field "runtime_admission").field "strategy_coverage" = .string "selected-command-covered"

def withoutDuration (row : Value) : Value :=
  if (row.field "runtime_admission").isObject then
    row.insert "runtime_admission"
      ((row.field "runtime_admission").remove "validation_duration_us")
  else row

def stableEvidence (request : Value) : List Value :=
  (context.evidence.filter fun row => selected request row || stays row).map withoutDuration

/-- What the answer is bound to. -/
def binding (request : Value) (sources : List (String × Value)) (applicable : List Value) :
    Value :=
  .object [
    ("candidate_refs", .strings (candidateRefs context)),
    ("evidence", .array (stableEvidence context request)),
    ("instructions", .array applicable),
    ("negative_evidence", .array (negatives host context (some request))),
    ("policy_revision", context.config.field "revision"),
    ("postimages", .object sources),
    ("producer", .string host.producer),
    ("source_revision", .string context.sourceRevision),
    ("strategy", context.strategy),
    ("subject", context.subject),
    ("work", context.work)]

def proposal (request : Value) (sources : List (String × Value)) (applicable : List Value) :
    Value :=
  .object [("binding", binding host context request sources applicable),
    ("judgment", (arguments request).field "disposition"),
    ("reason", (arguments request).field "reason")]

/-- The gap of one negative row. -/
def negativeGap (row : Value) : Option String :=
  match row.field "status" with
  | .string "required-failure" | .string "material-failure" =>
    some ("current-failing-evidence:" ++ Json.text (row.field "reference"))
  | .string "relevance-unresolved" | .string "disposition-unproven" =>
    some ("failure-relevance-unresolved:" ++ Json.text (row.field "reference"))
  | _ => none

/-- The gaps of one protocol. -/
def protocolGaps (stable : List Value) (entry : String × Value) : List String :=
  (if entry.2.field "independent_required" = .bool true ∨
      entry.2.field "manual_required" = .bool true then
    [s!"required-review-producer:{entry.1}"]
  else []) ++
  if supporting stable context.strategy entry.1 = [] ∧ manualOnly entry.2 = false then
    [s!"protocol-evidence-required:{entry.1}"]
  else []

def gaps (request : Value) : List String :=
  (if (arguments request).field "disposition" ≠ .string "satisfied" then
    ["review-judgment-insufficient"]
  else []) ++
  (negatives host context (some request)).filterMap negativeGap ++
  (membersOf (context.strategy.field "protocols")).flatMap
    (protocolGaps context (stableEvidence context request))

def protocolCoverage (request : Value) : List (String × Coverage) :=
  let coverage := (membersOf (context.strategy.field "protocols")).map fun (id, protocol) =>
    (id, coverageOf (stableEvidence context request) context.strategy id protocol)
  if coverage.any fun row => row.2.status = "command-evidence-required" then
    ((membersOf (context.strategy.field "proof_routes")).foldl
      (recover context.executionRequest) (coverage, false)).1
  else coverage

def coverageValue (request : Value) : Value :=
  .object ((protocolCoverage context request).map fun (id, row) => (id, row.toValue))

/-- The material of the decision, for its consumer. -/
def material (request : Value) (sources : List (String × Value)) (applicable : List Value) :
    Value :=
  .object [
    ("claim_limits", .string <|
      "Confirmation supplies this semantic judgment only. All current blockers, required " ++
      "evidence and independent/manual reviewer producers remain binding; it grants no review, " ++
      "approval or whole-task completion."),
    ("evidence", .array ((stableEvidence context request).map fun row =>
      let runtime := row.field "runtime_admission"
      .object [
        ("admission_scope", row.field "admission_scope"),
        ("claim", (row.field "checked_scope").field "claim"),
        ("command", (row.field "checked_scope").field "command"),
        ("gaps", row.field "gaps"),
        ("limits", row.field "limits"),
        ("publication_admission", row.field "publication_admission"),
        ("receipt_admission", row.field "receipt_admission"),
        ("reference", row.field "reference"),
        ("route", (runtime.field "command_coverage").field "route_id"),
        ("runtime_admission", .object [
          ("environment_scope", runtime.field "environment_scope"),
          ("nested_tool_runtime", runtime.field "nested_tool_runtime"),
          ("reason", runtime.field "reason"),
          ("status", runtime.field "status"),
          ("strategy_coverage", runtime.field "strategy_coverage"),
          ("sufficiency_currentness", runtime.field "sufficiency_currentness")]),
        ("status", row.field "status"),
        ("task_judgment", row.field "task_judgment")])),
    ("gaps", .strings (gaps host context request)),
    ("instruction_sources", .array (applicable.map fun source =>
      .object [("binding_admission", (source.field "binding_admission").field "status"),
        ("requirements", source.field "metadata"), ("source", source.field "source")])),
    ("judgment", (arguments request).field "disposition"),
    ("negative_evidence", .array (negatives host context (some request))),
    ("proposal_revision", .string
      (host.digest (proposal host context request sources applicable))),
    ("protocol_coverage", coverageValue context request),
    ("protocol_obligations", context.strategy.field "protocols"),
    ("protocol_recovery_boundary", .object [
      ("alternatives_source", .string "/verification/execution_requests"),
      ("maximum_request_bytes", .ofNat MAX_PROTOCOL_RECOVERY_BYTES),
      ("maximum_request_count", .ofNat 1),
      ("use", .string <|
        "At most one source-linked candidate is offered for uncovered protocols. Use the " ++
        "current detail_refs /verification reference to inspect other execution_requests or an " ++
        "oversized candidate. Omitted choices and all protocol obligations retain their " ++
        "authority. Selecting or repeating a command is not itself protocol sufficiency.")]),
    ("reason", (arguments request).field "reason"),
    ("result_paths", .strings (sources.map Prod.fst)),
    ("subject", context.subject),
    ("task", .string context.task),
    ("work", context.work)]

def decisions (request : Value) (sources : List (String × Value)) (applicable : List Value) :
    Value :=
  let material := material host context request sources applicable
  let answer := (((arguments request).insert "proposal_revision"
    (.string (host.digest (proposal host context request sources applicable)))).insert
      "candidate_refs" (.strings (candidateRefs context))).remove "answer"
  .array [.object [
    ("affects", .strings ["attestation:verification"]),
    ("basis", restrictionBasis host "attestation-limit" (.string context.sourceRevision) REQUEST
      material),
    ("choices", .array [
      .object [("id", .string "confirm"), ("label", .string "Confirm exact claim judgment")],
      .object [("id", .string "defer"), ("label", .string "Leave claim unresolved")]]),
    ("id", .string "verification-claim-review"),
    ("material", material),
    ("question", .string
      "Confirm this exact claim judgment against the resulting work and current evidence?"),
    ("response_request", .object [("arguments", answer), ("request_kind", .string REQUEST)])]]

/-- `compiled["pending_consequences"]["decisions"][0]["response_request"]`. -/
def confirmation (compiled : Value) : Value :=
  match ((compiled.field "pending_consequences").field "decisions").asArray with
  | some (decision :: _) => decision.field "response_request"
  | _ => .null

def compileInput (decisions : Value) : Value :=
  .object [
    ("capability_contract", context.contract),
    ("contributions", .array [.object [("decisions", decisions), ("owner", .string "verification"),
      ("revision", .string context.sourceRevision)]]),
    ("intent", .object [("current_work", context.work)])]

def applicableSources (instructions : List Value) : List Value :=
  instructions.filter fun source => source.field "applicable" = .bool true

/-- `exact["arguments"]["answer"] = answer`. -/
def withAnswer (exact answer : Value) : Value :=
  exact.insert "arguments" ((exact.field "arguments").insert "answer" answer)

/-- The members that every review has, with what this one adds. -/
def result (template : Value) (added : List (String × Value)) : Value :=
  added.foldl (fun v field => v.insert field.1 field.2)
    (.object [("completion_authority", .bool false), ("decisions", .array []),
      ("kind", .string "agentic-workspace/claim-review/v1"), ("request", template),
      ("status", .string "not-requested")])

/-- What is added when the judgment stands, with the gaps it leaves. -/
def settled (request : Value) (sources : List (String × Value)) (applicable : List Value) :
    List (String × Value) :=
  [("status", .string (if gaps host context request = [] then "current" else "insufficient")),
    ("gaps", .strings (gaps host context request)),
    ("authority_basis",
      (delegated context.config "verification" (sources.map Prod.fst)).getD (.object [
        ("identity_authentication", .string "not-claimed"),
        ("kind", .string "exact-bounded-domain-answer"),
        ("request_revision", .string (host.digest request))])),
    ("claim", .object [
      ("binding_revision", .string
        (host.digest (binding host context request sources applicable))),
      ("judgment", (arguments request).field "disposition"), ("subject", context.subject),
      ("work", context.work)])]

def view (request : Option Value) : Result Value := do
  let owners ← okOr (context.contract.field "owners").asArray PANIC
  let owner ← okOr (owners.find? fun owner => owner.field "owner" = .string "verification") PANIC
  let template := template context owner
  match request with
  | none => pure (result template [])
  | some request => do
    let sources ← context.postimages
    let args := arguments request
    let instructions ← okOr (context.instructions.field "sources").asArray PANIC
    let applicable := applicableSources instructions
    let proposal := proposal host context request sources applicable
    let revision := host.digest proposal
    let decisions := decisions host context request sources applicable
    let compiled ← host.compileValue (compileInput context decisions)
    let exact := confirmation compiled
    let delegated := delegated context.config "verification" (sources.map Prod.fst)
    let known := [("proposal", proposal),
      ("protocol_coverage", coverageValue context request)]
    if args.field "answer" = .null ∧ delegated = none then
      pure (result template (known ++ [("status", .string "bounded-domain-answer-required"),
        ("confirmation_request", exact), ("decisions", decisions)]))
    else do
      if args.field "answer" ≠ .null then do
        check (args.field "proposal_revision" = .string revision) STALE
        check (withAnswer exact (args.field "answer") = request) SHAPE
      if args.field "answer" = .string "defer" then
        pure (result template (known ++ [("status", .string "deferred")]))
      else
        pure (result template (known ++ settled host context request sources applicable))

end View

/-! ## What a review reports -/

theorem field_added (key : String) : ∀ (added : List (String × Value))
    (members : List (String × Value)), (added.map Prod.fst).Nodup →
      (added.foldl (fun v field => v.insert field.1 field.2) (Value.object members)).field key =
        (added.lookup key).getD ((Value.object members).field key)
  | [], _, _ => rfl
  | (name, v) :: added, members, h => by
    rw [List.map_cons, List.nodup_cons] at h
    have hrest := field_added key added (Value.insertMember name v members) h.2
    rw [List.foldl_cons, List.lookup_cons]
    refine hrest.trans ?_
    by_cases hkey : key = name
    · rw [hkey, beq_self_eq_true, lookup_absent h.1, Option.getD_none, Option.getD_some,
        Value.field, Value.get?, insertMember_lookup_self, Option.getD_some]
    · rw [beq_false_of_ne hkey, Value.field, Value.get?, insertMember_lookup hkey]
      rfl

theorem result_field {template : Value} {added : List (String × Value)} {key : String} {v : Value}
    (hnodup : (added.map Prod.fst).Nodup) (h : added.lookup key = some v) :
    (result template added).field key = v := by
  rw [result, field_added key added _ hnodup, h, Option.getD_some]

/-- The exact confirmation of a proposal. -/
structure Confirms (host : Host) (context : Context) (request : Value)
    (sources : List (String × Value)) (applicable : List Value) : Prop where
  given : (arguments request).field "answer" ≠ .null
  not_deferred : (arguments request).field "answer" ≠ .string "defer"
  revision : (arguments request).field "proposal_revision" =
    .string (host.digest (proposal host context request sources applicable))
  exactly : ∃ compiled, host.compileValue
      (compileInput context (decisions host context request sources applicable)) = .ok compiled ∧
    withAnswer (confirmation compiled) ((arguments request).field "answer") = request

variable {host : Host} {context : Context}

/-- The three ends of a review that has a request. -/
inductive Reviewed (host : Host) (context : Context) (request : Value)
    (sources : List (String × Value)) (applicable : List Value) (v : Value) : Prop where
  | asked (unanswered : (arguments request).field "answer" = .null)
      (undelegated : delegated context.config "verification" (sources.map Prod.fst) = none)
      (status : v.field "status" = .string "bounded-domain-answer-required")
  | deferred (answer : (arguments request).field "answer" = .string "defer")
      (status : v.field "status" = .string "deferred")
  | settled (authority : Confirms host context request sources applicable ∨
        (arguments request).field "answer" = .null ∧
          (delegated context.config "verification" (sources.map Prod.fst)).isSome)
      (status : v.field "status" =
        .string (if gaps host context request = [] then "current" else "insufficient"))
      (judgment : (v.field "claim").field "judgment" = (arguments request).field "disposition")

theorem view_reviewed {request v : Value} (h : view host context (some request) = .ok v) :
    ∃ sources instructions, context.postimages = .ok sources ∧
      (context.instructions.field "sources").asArray = some instructions ∧
      Reviewed host context request sources (applicableSources instructions) v := by
  unfold view at h
  simp only [Except.bind_eq_ok_iff, okOr_eq_ok] at h
  obtain ⟨owners, -, owner, -, sources, hsources, instructions, hinstructions, compiled, hcompiled,
    h⟩ := h
  refine ⟨sources, instructions, hsources, hinstructions, ?_⟩
  split at h
  · rename_i hasked
    cases h
    exact .asked hasked.1 hasked.2 (result_field (by simp) rfl)
  · rename_i hasked
    split at h
    · rename_i hanswer
      simp only [Except.bind_eq_ok_iff, check_eq_ok] at h
      obtain ⟨-, hrevision, -, hexact, h⟩ := h
      split at h
      · rename_i hdefer
        cases h
        exact .deferred hdefer (result_field (by simp) rfl)
      · rename_i hdefer
        cases h
        refine .settled (.inl ⟨hanswer, hdefer, hrevision, compiled, hcompiled, hexact⟩)
          (result_field (by simp [settled]) rfl) ?_
        rw [result_field (by simp [settled]) rfl]
        rfl
    · rename_i hanswer
      have hnull : (arguments request).field "answer" = .null := by simpa using hanswer
      have hdelegated : (delegated context.config "verification"
          (sources.map Prod.fst)).isSome = true := by
        rw [Option.isSome_iff_ne_none]
        exact fun hnone => hasked ⟨hnull, hnone⟩
      rw [if_neg (by rw [hnull]; decide)] at h
      cases h
      refine .settled (.inr ⟨hnull, hdelegated⟩) (result_field (by simp [settled]) rfl) ?_
      rw [result_field (by simp [settled]) rfl]
      rfl

theorem view_unrequested {v : Value} (h : view host context none = .ok v) :
    v.field "status" = .string "not-requested" := by
  unfold view at h
  simp only [Except.bind_eq_ok_iff, okOr_eq_ok] at h
  obtain ⟨owners, -, owner, -, h⟩ := h
  cases h
  rfl

end NativeClaimReview

end AgenticCore
