import AgenticCore.Basic
import AgenticCore.JsonText
import AgenticCore.JsonSchema

/-!
# Package facts composed with a host's ownership ledger

The ownership ledger of a repository is composed with the facts of the package: facts the package
has dropped are retired, facts it has added or changed replace what an earlier package wrote, and
what the host declared itself stays.

* `ledgerSchema`, `parse`        : which documents are ledgers.
* `baseline`                     : the package facts.
* `retireValue`, `composeValue`  : the three-way merge.
* `compose`                      : the ledger text that is written.

TOML and the messages of the schema validator lie outside the source and are `Host`'s.
-/

set_option autoImplicit false

namespace AgenticCore

open Json

namespace NativeOwnership

/-- TOML as the JSON library sees it, the schema validator's message, and the shipped text. -/
structure Host where
  fromToml : String → Result Value
  toToml : Value → Result String
  schemaError : Value → CoreError
  baselineText : String

/-! ## The ledger -/

/-- A row with these required and optional strings, and whatever else `additional` allows. -/
def rowSchema (required optional : List String) (more : List (String × Schema))
    (additional : Option Schema) : Schema :=
  .object required ((required ++ optional).map (·, .string) ++ more) additional

def moduleRootSchema : Schema :=
  rowSchema ["module", "path", "ownership"] ["uninstall_policy"] [] (some .any)

def managedSurfaceSchema : Schema :=
  rowSchema ["module", "path", "ownership"] ["kind", "uninstall_policy"] [] (some .any)

def fenceSchema : Schema :=
  rowSchema ["name", "module", "file", "start", "end", "ownership"] ["uninstall_policy"] []
    (some .any)

def readSchema : Schema :=
  .object ["refs", "select", "unknown"]
    [("refs", .array .string 0), ("select", .string), ("unknown", .array .string 0)] none

def authoritySurfaceSchema : Schema :=
  rowSchema ["concern", "surface", "owner", "ownership", "authority"] ["summary"]
    [("read", readSchema)] (some .any)

def subsystemSchema : Schema :=
  .object ["id", "paths"]
    [("id", .string), ("paths", .array .string 1), ("summary", .string),
      ("owns", .array .string 0), ("does_not_own", .array .string 0),
      ("proof", .array .string 0), ("escalate_when", .array .string 0)] none

def enclaveSchema : Schema := rowSchema ["path", "owner", "scope", "class", "lifetime"] [] [] none

def ledgerProperties : List (String × Schema) :=
  [("schema_version", .integer),
    ("workspace", .object [] [] (some .any)),
    ("ownership_classes", .object [] [] (some (.object [] [] (some .any)))),
    ("module_roots", .array moduleRootSchema 0),
    ("managed_surfaces", .array managedSurfaceSchema 0),
    ("fences", .array fenceSchema 0),
    ("authority_surfaces", .array authoritySurfaceSchema 0),
    ("subsystems", .array subsystemSchema 0),
    ("notes", .object [] [] (some .any)),
    ("enclave", .array enclaveSchema 0)]

/-- `ownership_ledger.schema.json`. -/
def ledgerSchema : Schema := .object ["schema_version"] ledgerProperties (some .any)

def identitySections : List (String × String) :=
  [("module_roots", "module"), ("managed_surfaces", "path"), ("fences", "name"),
    ("authority_surfaces", "concern"), ("subsystems", "id")]

/-- The rows of a section have different identities. -/
def distinctRows (value : Value) (section' key : String) : Result Unit :=
  check (((value.field section').asArray.getD []).map fun row => row.field key).Nodup
    ("duplicate ownership identity in " ++ section' ++ "; preserve")

/-- What `parse` asks of a document once it is read. -/
def admitLedger (host : Host) (value : Value) : Result Unit := do
  require (validates ledgerSchema value = true) (host.schemaError value)
  check (value.field "schema_version" = .ofNat 1 ∧
      ∀ member ∈ value.asObject.getD [], (ledgerProperties.lookup member.1).isSome)
    "unknown ownership contract; preserve and reconcile its source"
  identitySections.forM fun (section', key) => distinctRows value section' key

def parse (host : Host) (text : String) : Result Value := do
  let value ← host.fromToml text
  admitLedger host value
  pure value

/-! ## The package -/

def moduleRoot (module path ownership uninstallPolicy : String) : Value :=
  .object [("module", .string module), ("ownership", .string ownership), ("path", .string path),
    ("uninstall_policy", .string uninstallPolicy)]

def managedSurface (module path kind ownership uninstallPolicy : String) : Value :=
  .object [("kind", .string kind), ("module", .string module), ("ownership", .string ownership),
    ("path", .string path), ("uninstall_policy", .string uninstallPolicy)]

def authoritySurface (concern : String) (refs : List String) (select : String)
    (unknowns : List String) (surface owner ownership authority summary : String) : Value :=
  .object [("authority", .string authority), ("concern", .string concern),
    ("owner", .string owner), ("ownership", .string ownership),
    ("read", .object [("refs", .strings refs), ("select", .string select),
      ("unknown", .strings unknowns)]),
    ("summary", .string summary), ("surface", .string surface)]

def moduleRoots : List Value :=
  [moduleRoot "workspace" ".agentic-workspace/" "module_managed"
      "remove-managed-files-only",
    moduleRoot "memory" ".agentic-workspace/memory/" "repo_owned"
      "preserve-current-owner-state",
    moduleRoot "planning" ".agentic-workspace/planning/" "repo_owned"
      "preserve-current-owner-state"]

def managedSurfaces : List Value :=
  [managedSurface "workspace" ".agentic-workspace/skills/workspace-startup/SKILL.md"
      "canonical-agent-procedure" "module_managed" "remove-if-owned",
    managedSurface "workspace" ".agentic-workspace/READING.json"
      "generated-read-profile" "module_managed" "remove-if-owned",
    managedSurface "workspace" ".agentic-workspace/OWNERSHIP.toml"
      "ownership-ledger" "module_managed" "remove-if-owned",
    managedSurface "memory" ".agentic-workspace/memory/**"
      "module-root" "repo_owned" "preserve-current-owner-state",
    managedSurface "planning" ".agentic-workspace/planning/**"
      "module-root" "repo_owned" "preserve-current-owner-state",
    managedSurface "workspace" ".agentic-workspace/local/instructions/"
      "structured-local-owner" "module_managed" "preserve-current-owner-state",
    managedSurface "workspace" ".agentic-workspace/local/configuration/"
      "structured-local-owner" "module_managed" "preserve-current-owner-state",
    managedSurface "workspace" ".agentic-workspace/configuration-assessment.json"
      "current-configuration-assessment" "repo_owned" "preserve-current-owner-state",
    managedSurface "workspace" ".agentic-workspace/local/configuration-assessment.json"
      "current-local-configuration-assessment" "module_managed" "preserve-current-owner-state",
    managedSurface "workspace" ".agentic-workspace/local/effects/"
      "structured-local-owner" "module_managed" "preserve-current-owner-state",
    managedSurface "planning" ".agentic-workspace/local/planning/"
      "structured-local-owner" "module_managed" "preserve-current-owner-state",
    managedSurface "memory" ".agentic-workspace/local/memory/"
      "structured-local-owner" "module_managed" "preserve-current-owner-state",
    managedSurface "verification" ".agentic-workspace/local/proof/"
      "structured-local-owner" "module_managed" "preserve-current-owner-state",
    managedSurface "verification" ".agentic-workspace/local/proof-receipts/"
      "structured-local-owner" "module_managed" "preserve-current-owner-state",
    managedSurface "workspace" ".agentic-workspace/local/decision-point-intent/"
      "structured-local-owner" "module_managed" "preserve-current-owner-state",
    managedSurface "workspace" ".agentic-workspace/local/current-task-routes.json"
      "structured-local-owner" "module_managed" "preserve-current-owner-state",
    managedSurface "workspace" ".agentic-workspace/local/delegation-runs/"
      "structured-local-owner" "module_managed" "preserve-current-owner-state",
    .object [("kind", .string "structured-local-owner"),
      ("lifetime", .string ("pending-or-needed-evidence; exact delegation retirement after " ++
                             "safe disposition")),
      ("module", .string "workspace"), ("ownership", .string "module_managed"),
      ("path", .string ".agentic-workspace/local/delegation-manual/"),
      ("uninstall_policy", .string "preserve-current-owner-state")],
    managedSurface "workspace" ".agentic-workspace/local/patch-integrations/"
      "structured-local-owner" "module_managed" "preserve-current-owner-state",
    managedSurface "planning" ".agentic-workspace/local/work-threads/"
      "structured-local-owner" "module_managed" "preserve-current-owner-state",
    managedSurface "verification" ".agentic-workspace/local/independent-review-host-results/"
      "structured-local-owner" "module_managed" "preserve-current-owner-state",
    managedSurface "workspace" ".agentic-workspace/local/logs/"
      "structured-local-owner" "module_managed" "preserve-current-owner-state",
    managedSurface "workspace" ".agentic-workspace/local/session-logging/"
      "structured-local-owner" "module_managed" "preserve-current-owner-state",
    managedSurface "workspace" ".agentic-workspace/local/scratch/"
      "task-scratch" "module_managed" "preserve-current-owner-state",
    managedSurface "verification" ".agentic-workspace/proof/current/"
      "current-source-reconciliation-state" "repo_owned" "preserve-current-owner-state",
    managedSurface "planning" ".agentic-workspace/planning/skills/**"
      "canonical-agent-procedure-bundle" "module_managed" "remove-if-owned"]

def fences : List Value :=
  [.object [("end", .string "<!-- agentic-workspace:workflow:end -->"),
    ("file", .string "AGENTS.md"),
    ("module", .string "workspace"),
    ("name", .string "workspace-workflow-pointer"),
    ("ownership", .string "managed_fence"),
    ("start", .string "<!-- agentic-workspace:workflow:start -->"),
    ("uninstall_policy", .string "remove-fence-only")]]

def authoritySurfaces : List Value :=
  [authoritySurface "startup-instructions"
      ["AGENTS.md", ".agentic-workspace/instructions/"]
      ("Read the repository bootstrap and only task-relevant scoped instruction files; their " ++
        "paths/routes and checks/protect/reconcile/governed_by metadata retain source " ++
        "authority. Local instructions are not repository-visible.")
      ["runtime applicability", "local instruction state", "publication admission"]
      "AGENTS.md" "repo" "repo_owned" "primary"
      ("Repo-level startup instructions and local operating constraints. The managed AW fence " ++
        "is only a bootstrap pointer to the canonical skill."),
    authoritySurface "workspace-policy"
      [".agentic-workspace/config.toml"]
      ("Follow system_intent.sources/preferred_source to repository intent and " ++
        "assurance.decision_record_target to settled decisions; absent intent configuration " ++
        "uses SYSTEM_INTENT.md and README.md. Policy bytes describe requirements, not observed " ++
        "runtime capabilities.")
      ["effective local overrides", "live provider capability", "current decision admission"]
      ".agentic-workspace/config.toml" "repo" "repo_owned" "primary"
      "Repo-owned workspace policy, workflow obligations, and structured operating settings.",
    authoritySurface "canonical-agent-procedure"
      [".agentic-workspace/skills/REGISTRY.json"]
      ("Choose a relevant semantic route with agent judgment; follow only its declared " ++
        "procedure path or registry_sources. An absent optional registry is not an unavailable " ++
        "runtime.")
      ["runtime route admission"]
      ".agentic-workspace/skills/workspace-startup/SKILL.md" "workspace" "module_managed" "primary"
      ("Canonical reusable procedure for agents using Agentic Workspace; it does not own repo " ++
        "policy, domain state/evidence, or effect authority."),
    authoritySurface "bounded-planning-continuity"
      [".agentic-workspace/planning/execplans/"]
      ("Prefer a task-supplied owner ref; otherwise enumerate only immediate *.plan.json " ++
        "names, excluding archive. Select the relevant owner by meaning. Legacy state.toml is " ++
        "migration input only: use native Planning to reconcile owner relations and retire the " ++
        "aggregate; it supplies no current continuation authority. Read " ++
        "intent.outcome/non_goals, scope, proof/relationships, blockers, next_action and " ++
        "continuation from that record; recorded status is not fresh proof or local active " ++
        "selection.")
      ["local selected owner", "current custody", "task completion"]
      ".agentic-workspace/planning/execplans/" "planning" "module_managed" "primary"
      ("Owner-scoped execution continuity owned by the planning package; repository-wide " ++
        "views are derived."),
    authoritySurface "memory-shared-support"
      [".agentic-workspace/memory/repo/manifest.toml"]
      ("Use notes metadata (routes_from, semantic_routes and task_relevance) to select " ++
        "relevant note paths; follow only those notes and their stated dependencies. Treat " ++
        "notes as advisory, even if historical metadata says canonical or decision. " ++
        "Stale/superseded/contradicted or changed dependencies require reconsideration.")
      ["factual freshness", "governing decision authority", "promotion admission"]
      ".agentic-workspace/memory/" "memory" "module_managed" "primary"
      "Memory-owned shared workflow, version, bootstrap, and skill support surfaces.",
    authoritySurface "verification-manifest"
      [".agentic-workspace/verification/manifest.toml"]
      ("Read relevant requirements, protocol/source refs and proof/claim limits. Follow exact " ++
        "evidence refs only when needed. An asserted check, receipt or accepted progress is " ++
        "repository-recorded evidence, not a new successful check or permission to " ++
        "approve/close.")
      ["current proof selection", "fresh check success", "claim/effect authority"]
      ".agentic-workspace/verification/manifest.toml" "verification" "repo_owned" "primary"
      ("Repo-owned Verification protocol manifest for reusable proof routes, scenarios, and " ++
        "known evidence gaps."),
    authoritySurface "verification-current-reconciliation"
      [".agentic-workspace/proof/current/"]
      ("Select only source-reconciliation-<relation>.json for the relevant relation; follow " ++
        "its exact receipt references when needed. Verification validates the bounded " ++
        "projection and receipt custody. Publication supersedes current groups; upgrades, " ++
        "adoption and uninstall preserve this durable owner state and its exact publication " ++
        "temporaries. Missing or corrupt material is unresolved coverage, never authority to " ++
        "reconstruct acceptance from history.")
      ["current coverage", "receipt custody", "semantic acceptance", "publication authority"]
      ".agentic-workspace/proof/current/" "verification" "repo_owned" "primary"
      ("Durable current source-reconciliation selection, owned and replaced only by " ++
        "Verification. Repository visibility does not transfer task/target-bound authority; " ++
        "generic cleanup must preserve it.")]

def ownershipClass (summary : String) : Value := .object [("summary", .string summary)]

def ownershipClasses : Value :=
  .object [
    ("managed_fence", ownershipClass
      "Product-managed content inside an explicit fence in a repo-owned file."),
    ("module_managed", ownershipClass
      ("Upgrade-replaceable content owned by one installed module under " ++
        ".agentic-workspace/.")),
    ("repo_owned", ownershipClass
      ("Repository-native state owned by the repo and not upgrade-replaceable by installed " ++
        "packages."))]

/-- `baseline()`: the package facts of the portable `OWNERSHIP.toml`. -/
def baseline : Value :=
  .object [
    ("authority_surfaces", .array authoritySurfaces),
    ("fences", .array fences),
    ("managed_surfaces", .array managedSurfaces),
    ("module_roots", .array moduleRoots),
    ("ownership_classes", ownershipClasses),
    ("schema_version", .number (.int 1)),
    ("workspace", .object [
      ("main_skill_path", .string ".agentic-workspace/skills/workspace-startup/SKILL.md"),
      ("managed_root", .string ".agentic-workspace/"),
      ("ownership_manifest_path", .string ".agentic-workspace/OWNERSHIP.toml"),
      ("read_profile_path", .string ".agentic-workspace/READING.json")])]

/-! ## Composition -/

/-- The member that names a row of the array at a path. -/
def rowIdentity (path : String) : Option String :=
  match path with
  | "/module_roots" => some "module"
  | "/managed_surfaces" => some "path"
  | "/fences" => some "name"
  | "/authority_surfaces" => some "concern"
  | "/subsystems" => some "id"
  | _ => none

/-- The path of a member. -/
def memberPath (path key : String) : String := path ++ "/" ++ key

/-- The path of a row: its identity is displayed as JSON. -/
def rowPath (path : String) (identity : Value) : String :=
  path ++ "/" ++ String.ofList (Json.print Json.escape identity)

mutual
/-- `retire_value`: what is left of a host value whose fact the package has dropped, or `none`
    where the caller removes it. -/
def retireValue (host prior : Value) (path : String) : Option Value :=
  if host = prior then none
  else
    match host with
    | .object members =>
      match prior with
      | .object old =>
        match retireMembers members old path with
        | [] => none
        | kept => some (.object kept)
      | _ => some host
    | .array rows =>
      match rowIdentity path with
      | some key =>
        match rows.filter fun row =>
            !(prior.asArray.getD []).any fun old => old.field key = row.field key ∧ old = row with
        | [] => none
        | kept => some (.array kept)
      | none => some host
    | _ => some host

def retireMembers (members old : List (String × Value)) (path : String) :
    List (String × Value) :=
  match members with
  | [] => []
  | (key, value) :: rest =>
    match old.lookup key with
    | none => (key, value) :: retireMembers rest old path
    | some prior =>
      match retireValue value prior (memberPath path key) with
      | none => retireMembers rest old path
      | some kept => (key, kept) :: retireMembers rest old path
end

/-- One prior fact of an object: it is retired where the package does not state it. -/
def retireFact (package members : List (String × Value)) (path key : String) (old : Value) :
    List (String × Value) :=
  if (package.lookup key).isSome then members
  else
    match members.lookup key with
    | none => members
    | some current =>
      match retireValue current old (memberPath path key) with
      | none => members.filter (·.1 ≠ key)
      | some kept => Value.insertMember key kept members

def retireDropped (package : List (String × Value)) (path : String)
    (old members : List (String × Value)) : List (String × Value) :=
  match old with
  | [] => members
  | (key, value) :: rest =>
    retireDropped package path rest (retireFact package members path key value)

/-- One prior row: it is removed where the package does not state it and the host has it as it
    was. -/
def removeRow (key : String) (package rows : List Value) (old : Value) : List Value :=
  if package.any fun row => row.field key = old.field key then rows
  else
    match rows.findIdx? fun row => row.field key = old.field key with
    | none => rows
    | some i => if rows[i]? = some old then rows.eraseIdx i else rows

def removeDropped (key : String) (package old rows : List Value) : List Value :=
  match old with
  | [] => rows
  | row :: rest => removeDropped key package rest (removeRow key package rows row)

/-- What is merged neither by member nor by row. At a section the package always has rows. -/
def composeWhole (host package prior : Value) (path : String) : Result Value :=
  match rowIdentity path with
  | some _ => .error ⟨"ownership rows must be an array"⟩
  | none =>
    if prior ≠ .null ∧ host = prior then .ok package
    else .error ⟨"conflicting package ownership fact at " ++ path ++
      "; preserve and reconcile its source"⟩

mutual
/-- `compose_value`, with the merged value as its result. -/
def composeValue (host package prior : Value) (path : String) : Result Value :=
  if host = .null then .ok package
  else if host = package then .ok host
  else
    match package with
    | .object facts =>
      match host with
      | .object members => do
        let kept := retireDropped facts path (prior.asObject.getD []) members
        let composed ← composeMembers facts kept prior path
        pure (.object composed)
      | _ => composeWhole host package prior path
    | .array rows =>
      match rowIdentity path with
      | some key =>
        match host with
        | .array own => do
          let kept := removeDropped key rows (prior.asArray.getD []) own
          let composed ← composeRows key rows kept prior path
          pure (.array composed)
        | _ => .error ⟨"ownership rows must be an array"⟩
      | none => composeWhole host package prior path
    | _ => composeWhole host package prior path

def composeMembers (facts members : List (String × Value)) (prior : Value) (path : String) :
    Result (List (String × Value)) :=
  match facts with
  | [] => .ok members
  | (key, value) :: rest => do
    let composed ← composeValue ((members.lookup key).getD .null) value (prior.field key)
      (memberPath path key)
    composeMembers rest (Value.insertMember key composed members) prior path

def composeRows (key : String) (facts rows : List Value) (prior : Value) (path : String) :
    Result (List Value) :=
  match facts with
  | [] => .ok rows
  | row :: rest =>
    match rows.findIdx? fun current => current.field key = row.field key with
    | some i => do
      let old := ((prior.asArray.bind fun rows => rows.find? fun old =>
        old.field key = row.field key)).getD .null
      let composed ← composeValue (rows[i]?.getD .null) row old (rowPath path (row.field key))
      composeRows key rest (rows.set i composed) prior path
    | none => composeRows key rest (rows ++ [row]) prior path
end

/-- `compose`: the text of the ledger that is written over the text before. -/
def compose (host : Host) (before : Option String) (prior : Value) : Result String :=
  match before with
  | none => .ok host.baselineText
  | some before => do
    let original ← parse host before
    let resulting ← composeValue original baseline prior ""
    if resulting = original then pure before
    else do
      let rendered ← host.toToml resulting
      let _ ← parse host rendered
      pure rendered

end NativeOwnership

end AgenticCore
