import AgenticCore.NativeClaimReview
import AgenticCore.ProofReceipt

/-!
# Assurance guidance and selected proof profiles (`verification_strategy.rs`)

* `view`               : the level, the selected profiles and what they oblige to.
* `verify`             : the strategy with the selected profiles in it, what is missing and what
                         blocks (`native_verification.rs`).
* `selectMode`         : what a proof choice selects (`native_proof.rs`).
* `soleRequiredChoice` : the one command that is left to run.
-/

set_option autoImplicit false

namespace AgenticCore.VerificationStrategy

open Json Text NativeClaimReview

def strings (v : Value) : List String := (itemsOf v).filterMap Value.asStr

/-! ## Levels -/

def LEVELS : List String := ["low", "medium", "high", "critical"]

/-- A level that is not listed ranks with the lowest. -/
def rank (level : String) : Nat := (LEVELS.idxOf? level).getD 0

/-- The last of the highest ranked levels (`max_by_key`). -/
def maxByRank : List String → Option String
  | [] => none
  | level :: rest =>
    match maxByRank rest with
    | none => some level
    | some best => if rank best < rank level then some level else some best

/-! ## Assurance rows -/

section Assurance

variable (assurance : Value)

def requirementRows : List Value := itemsOf (assurance.field "requirements")

def binding (row : Value) : Bool :=
  row.field "force" = .string "blocking" || row.field "force" = .string "required-before-closeout"

def levelOf (row : Value) : Option String := ((row.field "source_requirement").field "level").asStr

def profileOf (row : Value) : String := asStrOr ((row.field "source_requirement").field "proof_profile")

def requiredLevel : String :=
  (maxByRank (((requirementRows assurance).filter fun row =>
    row.field "status" = .string "applicable" && binding row).filterMap levelOf)).getD "low"

/-- The row asks for a profile. -/
def demands (row : Value) : Bool :=
  profileOf row ≠ "" && row.field "status" ≠ .string "not-applicable"

def unresolvedRow (row : Value) : Bool := row.field "status" = .string "unresolved"

def requirementGaps : List String :=
  (requirementRows assurance).filterMap fun row =>
    if demands row && unresolvedRow row then
      some ("profile-applicability-unresolved:" ++ asStrOr (row.field "id")) else none

def bindingProfiles : List String :=
  (requirementRows assurance).filterMap fun row =>
    if demands row && !unresolvedRow row && binding row then some (profileOf row) else none

def recommendedProfiles : List String :=
  sortDedup ((requirementRows assurance).filterMap fun row =>
    if demands row && !unresolvedRow row && !binding row then some (profileOf row) else none)

end Assurance

/-! ## The assessment and the Planning subject -/

/-- `verification_strategy_request` of the decision input schema. -/
def assessmentMember (key : String) (v : Value) : Bool :=
  match key with
  | "level" => match v with
    | .string level => level ∈ LEVELS
    | _ => false
  | "profile_ids" => match v with
    | .array ids => ids.length ≤ 16 && decide ids.Nodup && ids.all fun id => match id with
      | .string s => 1 ≤ s.length && s.length ≤ 128
      | _ => false
    | _ => false
  | "reason" => match v with
    | .string s => 1 ≤ s.length && s.length ≤ 2048
    | _ => false
  | _ => false

def admittedAssessment (assessment : Value) : Bool :=
  match assessment with
  | .object members =>
    (["level", "profile_ids", "reason"].all fun key => (members.lookup key).isSome) &&
      members.all fun member => assessmentMember member.1 member.2
  | _ => false

def levelGaps (policy : Value) (baseline requiredLevel sourceLevel level : String) : List String :=
  (if rank sourceLevel < rank level ∧ policy.field "agent_may_escalate" ≠ .bool true then
    ["assurance-escalation-not-authorized"] else []) ++
  (if rank level < rank baseline ∧ policy.field "agent_may_deescalate" ≠ .bool true then
    ["assurance-deescalation-not-authorized"] else []) ++
  (if rank level < rank requiredLevel then ["assurance-below-binding-requirement"] else [])

def planningDeclaration (planning : Option Value) : Option Value :=
  planning.map fun subject =>
    (((subject.field "state").field "proof").field "adaptive_assurance").field "proof_profiles"

def planningProfiles (planning : Option Value) : List String :=
  ((planningDeclaration planning).map strings).getD []

def planningGap (policy : Value) (planning : Option Value) : List String :=
  if planning.isSome ∧ ((planningDeclaration planning).bind Value.asArray).isNone ∧
      membersOf (policy.field "profiles") ≠ [] then
    ["planning-assurance-profile-projection-unavailable"] else []

/-! ## Selected profiles -/

/-- A selected profile that the policy has. -/
structure SelectedProfile where
  id : String
  sourceRef : String
  sourceRevision : String
  selectedBy : String
  requiredCommands : List String
  optionalCommands : List String
  disallowedCommands : List String
  /-- The profile itself. -/
  declared : Value

def SelectedProfile.toValue (p : SelectedProfile) : Value :=
  .object [("disallowed_count", .ofNat p.disallowedCommands.length),
    ("evidence_status", .string "not-established-by-selection"), ("id", .string p.id),
    ("optional_count", .ofNat p.optionalCommands.length),
    ("required_count", .ofNat p.requiredCommands.length), ("selected_by", .string p.selectedBy),
    ("source_ref", .string p.sourceRef), ("source_revision", .string p.sourceRevision)]

/-- The proof route of a selected profile. -/
def SelectedProfile.route (p : SelectedProfile) : String × Value :=
  ("profile:" ++ p.id,
    (((p.declared.insert "commands" (.strings (p.requiredCommands ++ p.optionalCommands))).insert
      "source_kind" (.string "config-proof-profile")).insert "source_ref" (.string p.sourceRef)).insert
        "source_revision" (.string p.sourceRevision))

structure Obligation where
  profileId : String
  requiredCommands : List String
  sourceRef : String
  sourceRevision : String
  status : String

def SelectedProfile.obligation (p : SelectedProfile) : Option Obligation :=
  if p.requiredCommands = [] then none
  else some ⟨p.id, p.requiredCommands, p.sourceRef, p.sourceRevision, "current-proof-evidence-required"⟩

/-- What one selected id adds. -/
structure Selection where
  gaps : List String
  invalid : Bool
  profile : Option SelectedProfile

def PROFILE_FIELDS : List String :=
  ["required_commands", "optional_commands", "disallowed_commands", "review_aids"]

def unavailable (id : String) : String := "selected-proof-profile-unavailable:" ++ id

section View

-- `digest`.
variable (digest : Value → String)

def selectProfile (policy : Value) (planningRequired required : List String) (id : String) :
    Result Selection :=
  match (policy.field "profiles").get? id with
  | none => .ok ⟨[unavailable id], true, none⟩
  | some profile => do
    let unknown := (membersOf profile).any fun member => member.1 ∉ PROFILE_FIELDS
    let requiredCommands := strings (profile.field "required_commands")
    let optional := strings (profile.field "optional_commands")
    let denied := strings (profile.field "disallowed_commands")
    let conflict := !decide (requiredCommands ++ optional ++ denied).Nodup
    let source ← okOr (policy.field "profile_source").asStr PANIC
    -- `route["commands"] = …` on a profile that has no members.
    check (profile.isObject ∨ profile = .null) "cannot access key in JSON value"
    pure {
      gaps := (if unknown then ["selected-proof-profile-unknown-fields:" ++ id] else []) ++
        (if conflict then ["proof-profile-command-role-conflict:" ++ id] else [])
      invalid := unknown || conflict
      profile := some {
        id, requiredCommands, optionalCommands := optional, disallowedCommands := denied
        sourceRef := source ++ "#assurance.proof_profiles." ++ id
        sourceRevision := digest profile
        selectedBy := if id ∈ planningRequired then "planning-owner"
          else if id ∈ required then "binding-requirement" else "agent-assessment"
        declared := profile } }

/-- The strategy control of `view`. -/
structure Control where
  configured : Value
  sourceRevision : Value
  baselineLevel : String
  requiredLevel : String
  effectiveLevel : String
  levelStatus : String
  assessment : Option Value
  /-- Ids and revisions. -/
  availableProfiles : List (String × String)
  omittedProfileCount : Nat
  selectedProfiles : List SelectedProfile
  recommendedProfiles : List String
  obligations : List Obligation
  disallowedCommands : List String
  routes : List (String × Value)
  executionBlocked : Bool
  gaps : List String

def disallowedGaps (disallowed : List String) (obligations : List Obligation) : List String :=
  (obligations.filter fun o => o.requiredCommands.any fun c => decide (c ∈ disallowed)).map fun o =>
    "selected-profile-required-command-disallowed:" ++ o.profileId

def view (policy assurance : Value) (planning assessment : Option Value) (detail : Bool) :
    Result Control := do
  let baseline ← okOr (policy.field "baseline").asStr PANIC
  let requiredLevel := requiredLevel assurance
  let sourceLevel := if rank baseline < rank requiredLevel then requiredLevel else baseline
  check (∀ a ∈ assessment, admittedAssessment a = true) "invalid Verification strategy assessment"
  let assessed := (assessment.map fun a => asStrOr (a.field "level")).getD sourceLevel
  let assessedGaps := if assessment.isSome then
    levelGaps policy baseline requiredLevel sourceLevel assessed else []
  let assessedProfiles := (assessment.map fun a => strings (a.field "profile_ids")).getD []
  let required := sortDedup (bindingProfiles assurance ++ planningProfiles planning)
  let selections ← (sortDedup (assessedProfiles ++ required)).mapM
    (selectProfile digest policy (planningProfiles planning) required)
  let profiles := selections.filterMap (·.profile)
  let obligations := profiles.filterMap (·.obligation)
  let disallowed := sortDedup (profiles.flatMap (·.disallowedCommands))
  let denied := disallowedGaps disallowed obligations
  let gaps := assessedGaps ++ requirementGaps assurance ++ planningGap policy planning ++
    selections.flatMap (·.gaps) ++ denied
  let invalid := selections.any (·.invalid) || !denied.isEmpty
  let deniedLevel := gaps.any (startsWith "assurance-")
  let declared := membersOf (policy.field "profiles")
  pure {
    configured := policy.field "configured"
    sourceRevision := policy.field "revision"
    baselineLevel := baseline
    requiredLevel := requiredLevel
    effectiveLevel := if deniedLevel then sourceLevel else assessed
    levelStatus := if deniedLevel then "rejected" else if assessment.isSome then "agent-assessed"
      else if rank baseline < rank requiredLevel then "source-required-level"
      else "source-default-guidance"
    assessment := assessment
    availableProfiles := if detail then
      (declared.take 32).map fun member => (member.1, digest member.2) else []
    omittedProfileCount := if detail then declared.length - 32 else declared.length
    selectedProfiles := profiles
    recommendedProfiles := recommendedProfiles assurance
    obligations := obligations
    disallowedCommands := disallowed
    routes := profiles.map (·.route)
    executionBlocked := invalid || deniedLevel
    gaps := gaps }

end View

/-! ## Verification (`view_with_applicability`) -/

/-- `covers_profile`. -/
def coversProfile (evidence strategy : Value) (id : String) (command : Value) : Bool :=
  match currentCoverage evidence strategy with
  | none => false
  | some (route, observed) =>
    decide (observed = command) &&
      ((strategy.field "proof_routes").field ("profile:" ++ id)).isObject &&
      (decide (route = "profile:" ++ id) ||
        (strings (((strategy.field "proof_routes").field route).field "protocol_refs")).any
          fun protocol => coversProtocol evidence strategy protocol &&
            match (((strategy.field "protocols").field protocol).field "proof_profiles").asArray with
            | none => false
            | some refs => decide (.string id ∈ refs))

def insertRoute (routes : List (String × Value)) (entry : String × Value) :
    Result (List (String × Value)) := do
  check ((routes.lookup entry.1).isNone) "profile proof route collides with source route"
  pure (Value.insertMember entry.1 entry.2 routes)

def MANIFEST : String := ".agentic-workspace/verification/manifest.toml"

/-- What `view_with_applicability` has gathered when it asks for the strategy control. -/
structure Sources where
  policy : Value
  assurance : Value
  planning : Option Value
  detail : Bool
  /-- The protocols and the routes of the manifest, the instruction checks, the domain lanes and
      the measurements. -/
  protocols : Value
  proofRoutes : List (String × Value)
  scenarios : Value
  execution : Option Value
  assuranceSourceRevision : Value
  assuranceRequest : Value
  proofScope : Value

def Sources.withControl (s : Sources) (assessment : Option Value) (control : Control) :
    Result Value := do
  let routes ← control.routes.foldlM insertRoute s.proofRoutes
  pure (.record [
    ("assessment", some (.orNull assessment)), ("assurance_request", some s.assuranceRequest),
    ("assurance_source_revision", some s.assuranceSourceRevision),
    ("disallowed_commands", some (.strings control.disallowedCommands)), ("execution", s.execution),
    ("proof_routes", some (.object routes)), ("proof_scope", some s.proofScope),
    ("protocols", some s.protocols), ("scenarios", some s.scenarios),
    ("selected_profile_identity", some (.array (control.selectedProfiles.map (·.toValue)))),
    ("selection_blocked", some (.bool control.executionBlocked)), ("source", some (.string MANIFEST))])

/-- An obligation with the evidence for it. -/
structure Settled where
  obligation : Obligation
  missingCommands : List String
  evidenceRefs : List String
  status : String

def settle (evidence : List Value) (strategy : Value) (o : Obligation) : Result Settled := do
  let supporting (command : String) : Option Value :=
    evidence.find? fun row => coversProfile row strategy o.profileId (.string command)
  let missing := o.requiredCommands.filter fun command => (supporting command).isNone
  let references ← (o.requiredCommands.filterMap supporting).mapM fun row =>
    okOr (row.field "reference").asStr PANIC
  pure ⟨o, missing, sortDedup references,
    if missing = [] then "current-command-evidence-satisfied" else o.status⟩

structure Blocker where
  code : String
  message : String
  affects : List String

def COMPLETION_CLAIMS : List String :=
  ["claim:complete", "claim:claim-work-complete", "claim:claim-slice-complete"]

def gapBlocker (gap : String) : Blocker where
  code := gap
  message :=
    "Current Verification strategy control remains unresolved; no profile or evidence waiver is inferred."
  affects := COMPLETION_CLAIMS

def obligationBlocker (s : Settled) : Option Blocker :=
  if s.missingCommands = [] then none
  else some ⟨"profile-proof-required:" ++ s.obligation.profileId,
    "Selected proof profile requires current admitted command evidence; selection is not proof.",
    COMPLETION_CLAIMS⟩

/-- What the rest of the view contributes to the blockers and to their removal. -/
structure Surroundings where
  before : List Blocker
  between : List Blocker
  after : List Blocker
  /-- The claim review is current, and the evidence gaps are settled by it. -/
  reviewCurrent : Bool
  gapsSettled : Bool
  /-- The assurance requirements whose evidence is current. -/
  satisfied : List String

/-- The blockers that the current review and the current assurance evidence leave. -/
def Surroundings.leaves (s : Surroundings) (b : Blocker) : Bool :=
  (!s.reviewCurrent || (decide (b.code ≠ "strict-closeout-judgment-required") &&
    (decide (b.code ≠ "verification-evidence-unresolved") || !s.gapsSettled))) &&
  s.satisfied.all fun id => decide (b.code ≠ "assurance:" ++ id ++ ":applicable")

structure Verification where
  control : Control
  strategy : Value
  evidence : List Value
  settled : List Settled
  blockers : List Blocker

/-- `evidence` reads the receipts under the strategy. -/
def Sources.verify (digest : Value → String) (s : Sources) (assessment : Option Value)
    (evidence : Value → List Value) (others : Surroundings) : Result Verification := do
  let control ← view digest s.policy s.assurance s.planning assessment s.detail
  let strategy ← s.withControl assessment control
  let settled ← control.obligations.mapM (settle (evidence strategy) strategy)
  pure {
    control, strategy, settled
    evidence := evidence strategy
    blockers := (others.before ++ control.gaps.map gapBlocker ++ others.between ++
      settled.filterMap obligationBlocker ++ others.after).filter others.leaves }

/-! ## Selection (`native_proof::select_mode`) -/

/-- The candidates that are listed, and how many of either kind are. -/
structure Available where
  choices : List Value
  domainCount : Nat
  profileCount : Nat
  omittedDomain : Nat
  omittedProfile : Nat

def choiceOf (route command : String) : Value :=
  .object [("command", .string command), ("route_id", .string route)]

def Available.add (a : Available) (id : String) (route : Value) (command : String) : Available :=
  if route.field "source_kind" = .string "config-domain-lane" then
    if 16 ≤ a.domainCount ∨ 4096 < (text (choiceOf id command)).utf8ByteSize then
      { a with omittedDomain := a.omittedDomain + 1 }
    else { a with choices := a.choices ++ [choiceOf id command], domainCount := a.domainCount + 1 }
  else if route.field "source_kind" = .string "config-proof-profile" then
    if 16 ≤ a.profileCount ∨ 4096 < command.utf8ByteSize then
      { a with omittedProfile := a.omittedProfile + 1 }
    else { a with choices := a.choices ++ [choiceOf id command], profileCount := a.profileCount + 1 }
  else { a with choices := a.choices ++ [choiceOf id command] }

def available (strategy : Value) (alternatives : Bool) : Available :=
  if alternatives then
    (membersOf (strategy.field "proof_routes")).foldl (fun a entry =>
      (strings (entry.2.field "commands")).foldl (fun a command => a.add entry.1 entry.2 command) a)
        ⟨[], 0, 0, 0, 0⟩
  else ⟨[], 0, 0, 0, 0⟩

def blocked (reason : Value) (choices : List Value) : Value :=
  .object [("choices", .array choices), ("reason", reason), ("status", .string "blocked")]

/-- `prepare` is what follows for a command that is admitted: its dependencies, its runtime and
    its subject. -/
def selectMode (strategy : Value) (choice report : Option Value) (alternatives : Bool)
    (prepare : Value → Result Value) : Result Value :=
  if ∃ r ∈ report, 262144 < (text r).utf8ByteSize then
    pure (blocked (.string "interoperability-report-exceeds-native-bound") [])
  else
    let listed := available strategy alternatives
    match choice with
    | none => pure (.object [
        ("candidate_boundary", .string "Bounded candidates; other commands remain at source. Agent selection grants no proof sufficiency."),
        ("choices", .array listed.choices),
        ("omitted_domain_command_count", .ofNat listed.omittedDomain),
        ("omitted_profile_command_count", .ofNat listed.omittedProfile),
        ("status", .string "selection-required")])
    | some choice => do
      let route := (strategy.field "proof_routes").field (asStrOr (choice.field "route_id"))
      let sourceSelected := match (route.field "commands").asArray with
        | none => false
        | some commands => decide (choice.field "command" ∈ commands)
      check (sourceSelected = true ∨ report.isSome)
        "proof selection is not a current source-declared command"
      let command ← okOr (choice.field "command").asStr PANIC
      if strategy.field "selection_blocked" = .bool true then
        pure (blocked (.string "current-strategy-assessment-unresolved") listed.choices)
      else if .string command ∈ itemsOf (strategy.field "disallowed_commands") then
        pure (blocked (.string "selected-proof-profile-disallows-command") listed.choices)
      else
        let admission := ProofReceipt.command (.string command)
        if admission.field "admitted" ≠ .bool true then
          pure (blocked (admission.field "reason") listed.choices)
        else prepare choice

/-! ## The one required choice -/

/-- An admitted observation of this command on this route. -/
def observes (route command : String) (row : Value) : Bool :=
  passed row && decide (commandCoverage row = choiceOf route command)

/-- The commands of an instruction check that are still to be observed. -/
def checkCommands (strategy : Value) (evidence : List Value) (check : Value) :
    Option (List (String × String)) := do
  let route ← (check.field "route_id").asStr
  let commands ← (((strategy.field "proof_routes").field route).field "commands").asArray
  pure (((commands.filterMap Value.asStr).filter fun command =>
    !evidence.any (observes route command)).map fun command => (route, command))

/-- The profile `id` is among the selected ones. -/
def Control.selects (control : Control) (id : String) : Bool :=
  control.selectedProfiles.any fun p => p.id = id

/-- `unresolved` covers the assurance decisions and the evidence gaps that remain. -/
def soleRequiredChoice (v : Verification) (policy : Value) (checks : List Value)
    (unresolved : Bool) : Option (String × String) := do
  guard (unresolved = false ∧ v.control.executionBlocked = false ∧ v.control.gaps = [] ∧
    ∀ check ∈ checks, check.field "status" = .string "current" ∨
      check.field "status" = .string "evidence-required")
  guard (∀ entry ∈ membersOf (policy.field "profiles"), v.control.selects entry.1 = true)
  let fromProfiles := v.settled.flatMap fun s =>
    s.missingCommands.map fun command => ("profile:" ++ s.obligation.profileId, command)
  let fromChecks ← (checks.filter fun check =>
    check.field "status" = .string "evidence-required").mapM (checkCommands v.strategy v.evidence)
  match (fromProfiles ++ fromChecks.flatten).dedup with
  | [(route, command)] => do
    let routes ← (v.strategy.field "proof_routes").asObject
    guard (∀ entry ∈ routes, ∀ c ∈ itemsOf (entry.2.field "commands"),
      entry.1 = route ∧ c = .string command)
    pure (route, command)
  | _ => none

end AgenticCore.VerificationStrategy
