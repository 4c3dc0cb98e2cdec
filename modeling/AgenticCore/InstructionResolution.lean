import AgenticCore.InstructionWrite
import AgenticCore.InstructionView

/-!
# Governance that an edit does not withdraw (`instruction_source.rs`, `native_instructions.rs`)

* `Host.preserveGovernance` : the current documents, with admitted governance in the place of edits.
* `Host.admission`          : the admission of one source.
* `Host.resolveWithTargets` : the rows of the instructions and what blocks for them.
-/

set_option autoImplicit false

namespace AgenticCore.InstructionSource

open Json Text Repository
open InstructionApplicability (Applicability)

/-! ## Preserved governance -/

/-- `pin.len() == 40 && pin.bytes().all(|b| b.is_ascii_hexdigit())`. -/
def exactCommit (pin : String) : Bool :=
  pin.utf8ByteSize == 40 && pin.toList.all DecisionSource.asciiHexDigit

/-- The instructions of a commit in which `git grep -l -F governed_by` finds the field. -/
def grep (tree : List (String × ByteArray)) : List String :=
  (tree.filter fun (path, bytes) => startsWith (REPOSITORY ++ "/") path && endsWith ".md" path &&
    decide ("governed_by".toUTF8.toList <:+: bytes.toList)).map Prod.fst

variable (host : Host) (files : Files)

/-- The files of an exact commit that is available. -/
def Host.tree (pin : String) : Option (List (String × ByteArray)) :=
  if exactCommit pin then host.commit pin else none

/-- The instructions of the commit that may govern. -/
def Host.pinned (pin : String) : Result (List (String × ByteArray)) :=
  match host.tree pin with
  | none => .ok []
  | some tree => do
    let found := (grep tree).map host.printed
    check (found.length ≤ 64) "admitted instruction discovery exceeds 64 sources"
    pure ((found.filter (sourceScope · = some "repository")).filterMap fun path =>
      ((tree.lookup path).filter (·.size ≤ MAX_SOURCE_BYTES)).map (path, ·))

def isAt (path : String) (document : Value) : Bool :=
  (document.field "source").field "reference" = .string path

def revisionOf (document : Value) : String :=
  ((document.field "source").field "revision").asStr.getD ""

/-- Prior governance in the place of a source. -/
def retain (prior source : Value) : Value :=
  (prior.insert "source" source).insert "retained_governance" (.bool true)

/-- `current[index] = v` at the first document of a kind. -/
def replaceFirst (p : Value → Bool) (v : Value) : List Value → List Value
  | [] => []
  | document :: rest => if p document then v :: rest else document :: replaceFirst p v rest

/-- One candidate against the documents. -/
def Host.preserve (target : String) (current : List Value) (candidate : String × ByteArray) :
    Result (List Value) :=
  let (path, bytes) := candidate
  let prior := parsed bytes false
  if governing prior = false then .ok current
  else
    match current.find? (isAt path) with
    | some document =>
      if revisionOf document = host.revision bytes then .ok current
      else do
        let committed ← host.isAdmitted files target path (revisionOf document)
        if committed = true then pure current
        else pure (replaceFirst (isAt path) (retain prior (document.field "source")) current)
    | none => .ok (current ++
        [retain prior (sourceOf path (host.revision bytes) (sourceScope path))])

def Host.preserveGovernance (target pin : String) (current : List Value) : Result (List Value) := do
  let pinned ← host.pinned pin
  let published ← host.governanceSources files target
  (pinned ++ published).foldlM (host.preserve files target) current

/-! ## Admission of bindings -/

def items (metadata : Value) (field : String) : List Value := (metadata.field field).asArray.getD []

/-- A check that names a requirement runs nothing. -/
def isRequirement (v : Value) : Bool := v.asStr.any (startsWith "requirement:")

/-- A source that no admission covers yet. -/
def unadmitted (source : String) (status : String) : Value :=
  .object [("authority", .object [("effects", .array []), ("target_patterns", .array [])]),
    ("checks", .array []), ("governed_by", .array []), ("protect", .array []),
    ("reconcile", .array []), ("source", .object [("reference", .string source)]),
    ("status", .string status)]

def copyFields (row metadata : Value) : Value :=
  ["checks", "reconcile", "governed_by", "protect"].foldl
    (fun row field => row.insert field (metadata.field field)) row

/-- A row that binds as its committed snapshot declares. -/
def bound (row metadata : Value) : Value :=
  let hard := (items metadata "checks").any (fun c => !isRequirement c) ||
    items metadata "reconcile" ≠ [] || items metadata "governed_by" ≠ []
  let protect := items metadata "protect"
  let effects := (if hard then ["require"] else []) ++ if protect ≠ [] then ["restrict"] else []
  let targets := (if hard then ["claim:complete"] else []) ++
    protect.map fun p => "effect:write:" ++ p.asStr.getD ""
  ((copyFields row metadata).insert "status" (.string "current")).insert "authority"
    (.object [("effects", .strings effects), ("target_patterns", .strings targets)])

/-- The row of a source that the commit has, by what the file holds now. -/
def Host.snapshotRow (revision source observed : String) (row : Value) (snapshot : ByteArray) :
    Value :=
  let name := host.revision snapshot
  let row := (((row.insert "source" (.object [("owner", .string "repository"),
    ("reference", .string source), ("revision", .string name)])).insert
      "admitted_revision" (.string revision)).insert "status" (.string "stale"))
  let same := match read files source with
    | .ok bytes => host.revision bytes = name
    | .error _ => false
  if observed = name ∧ same = true then
    let document := parsed snapshot false
    if document.field "valid" = .bool true then bound row (document.field "metadata")
    else row.insert "status" (.string "invalid")
  else row

/-- The row of an observed source. -/
def Host.admission (target revision : String) (observed : String × String) : Result Value := do
  let (source, seen) := observed
  check (sha256Revision seen = true) "instruction source requires an observed sha256 revision"
  DecisionSource.relative source
  check ((sourceScope source).isSome = true)
    "instruction source must be a unique exact scoped Markdown path"
  let snapshot := host.commit revision
  let row := unadmitted source (if revision ≠ "" ∧ snapshot = none then "unavailable" else "unadmitted")
  let found := (snapshot.filter fun _ => sourceScope source = some "repository").bind fun tree =>
    (tree.lookup source).filter (·.size ≤ MAX_SOURCE_BYTES)
  let row : Value := match found with
    | some snapshot => host.snapshotRow files revision source seen row snapshot
    | none => row
  if row.field "status" = .string "current" then pure row
  else do
    let committed ← host.isAdmitted files target source seen
    if committed = false then pure row
    else do
      let document ← host.currentDocument files source false
      if document.field "valid" = .bool true ∧ revisionOf document = seen then
        pure (copyFields (((row.insert "status" (.string "current")).insert "source"
          (document.field "source")).insert "admission_basis"
            (.string "exact-owner-published-instruction")) (document.field "metadata"))
      else pure row

/-- `view`, which admits each source once. -/
def Host.view (target revision : String) (sources : List (String × String)) :
    Result (List Value) := do
  check (sources.length ≤ 64) "select at most 64 instruction sources"
  check (revision = "" ∨ exactCommit revision = true)
    "instruction admission requires an exact Git commit"
  check ((sources.map Prod.fst).Nodup)
    "instruction source must be a unique exact scoped Markdown path"
  sources.mapM (host.admission files target revision)

/-! ## Applicability -/

/-- The strings of an array. -/
def strings (v : Value) : List String := (v.asArray.getD []).filterMap Value.asStr

/-- The posture of a route fact. -/
def postureOf (route : Value) : String :=
  if route.field "status" = .string "current" then (route.field "posture").asStr.getD "unresolved"
  else "unresolved"

def scopeInput (metadata : Value) (changed : List String) (route : Value) (targets : List String) :
    InstructionApplicability.Input where
  paths := strings (metadata.field "paths")
  routes := strings (metadata.field "routes")
  changedPaths := changed
  selectedRoutes := strings (route.field "routes")
  targetPatterns := targets
  routePosture := postureOf route

/-- `native_instructions::applicability`: the schema of the input leaves three postures. -/
def applicability (metadata : Value) (changed : List String) (route : Value)
    (targets : List String) : Result Applicability := do
  check (postureOf route ∈ ["selected", "none", "unresolved"]) MALFORMED
  InstructionApplicability.applicability (scopeInput metadata changed route targets)

/-! ## Resolution -/

/-- Some check runs something. -/
def runsChecks (metadata : Value) : Bool := (items metadata "checks").any fun c => !isRequirement c

def hard (metadata : Value) : Bool :=
  strings (metadata.field "protect") ≠ [] || strings (metadata.field "reconcile") ≠ [] ||
    strings (metadata.field "governed_by") ≠ [] || runsChecks metadata

/-- A blocker for a source. -/
structure SourceBlocker where
  source : String
  code : String
  message : String
  affects : List String
  recovery : Option String

def SourceBlocker.toValue (b : SourceBlocker) : Value :=
  Value.record [("affects", some (.strings b.affects)),
    ("code", some (.string s!"instruction:{b.source}:{b.code}")),
    ("message", some (.string b.message)), ("recovery", b.recovery.map .string)]

def RECONCILE : String :=
  "Canonical sources require a current authorized updated or reviewed-current judgment against the resulting work."

/-- `native_source_reconciliation::REQUEST`. -/
def RECONCILIATION : String := "verification/reconcile-sources/v1"

def UNRESOLVED : String :=
  "Current instruction syntax/scope cannot be safely consumed; preserve the source and resolve its owner."

def blockerCode (unresolved current : Bool) : String :=
  if unresolved then "applicability-unresolved"
  else if current then "current-binding" else "binding-unadmitted"

def blockerMessage (unresolved current : Bool) : String :=
  if unresolved then
    "Current semantic route applicability remains unresolved for this affected consequence."
  else if current then
    "Current repository protection/check obligations remain binding; no proof success is inferred."
  else "Current hard instruction intent requires source admission before affected behavior."

/-- The changed paths that a pattern protects. -/
def protectedPaths (changed : List String) (pattern : String) : List String :=
  changed.filter (InstructionApplicability.matchesPattern pattern)

def protections (metadata : Value) (changed : List String) : List String :=
  (strings (metadata.field "protect")).flatMap fun pattern =>
    ("effect:write:" ++ pattern) :: (protectedPaths changed pattern).map ("effect:write:" ++ ·)

/-- The sources that a judgment must cover. -/
def upstream (metadata : Value) : List String := strings (metadata.field "governed_by")

def reconciles (metadata : Value) : Bool :=
  strings (metadata.field "reconcile") ≠ [] || upstream metadata ≠ []

/-- What an applicable or unresolved source restricts. -/
def affected (metadata : Value) (changed : List String) (unresolved : Bool) : List String :=
  sortDedup ((if unresolved && reconciles metadata then ["claim:complete"] else []) ++
    (if runsChecks metadata then ["claim:complete"] else []) ++ protections metadata changed)

def hardBlockers (reference : String) (metadata binding : Value) (changed : List String)
    (applicable unresolved : Bool) : List SourceBlocker :=
  let affects := affected metadata changed unresolved
  let current := decide (binding.field "status" = .string "current")
  (if applicable && reconciles metadata then
    [{ source := reference, code := "source-reconciliation-required", message := RECONCILE,
       affects := ["claim:complete"], recovery := some ("public-request:" ++ RECONCILIATION) }]
  else []) ++
  if affects = [] then []
  else [{ source := reference, code := blockerCode unresolved current,
          message := blockerMessage unresolved current, affects, recovery := none }]

structure Resolved where
  row : Value
  blockers : List SourceBlocker
  scopes : List String

/-- The scope of a source, which a change of a source that governs it also meets. -/
def scopeWith (metadata : Value) (changed : List String) (scope : Applicability) : Applicability :=
  if (upstream metadata).any (· ∈ changed) && scope.routeApplies then
    { scope with applies := true, status := "applicable",
                 reason := "explicit-governing-source-change" }
  else scope

def Host.binding (target pin reference : String) (document : Value) : Value :=
  let metadata := document.field "metadata"
  if document.field "valid" = .bool true ∧ hard metadata = true then
    match host.view files target pin [(reference, revisionOf document)] with
    | .ok rows => rows.headD .null
    | .error e => .object [("checks", .array []), ("diagnostic", .string e.message),
        ("protect", .array []), ("status", .string "unavailable")]
  else .object [("checks", .array []), ("protect", .array []), ("status", .string "not-required")]

def referenceOf (document : Value) : String :=
  ((document.field "source").field "reference").asStr.getD ""

/-- The blockers of one document. -/
def documentBlockers (document binding : Value) (changed : List String) (valid applicable unresolved : Bool) :
    List SourceBlocker :=
  let reference := referenceOf document
  let metadata := document.field "metadata"
  (if valid then [] else [⟨reference, "source-unresolved", UNRESOLVED, ["task"], none⟩]) ++
  if (applicable || unresolved) && hard metadata then
    hardBlockers reference metadata binding changed applicable unresolved
  else []

/-- What an applicable source shows: its document, and the procedures it suggests. -/
def Host.shown (document : Value) (applicable : Bool) : Result (Value × List Value) := do
  let current ← if applicable = true ∧ document.field "retained_governance" ≠ .bool true then
    host.currentDocument files (referenceOf document) true else pure .null
  let uses := strings ((document.field "metadata").field "use")
  let procedures ← if applicable then uses.mapM host.procedure else pure []
  pure (current, procedures)

/-- The row of one document. -/
def sourceRow (document binding current : Value) (procedures : List Value) (scope : Applicability)
    (valid applicable : Bool) : Value :=
  let metadata := document.field "metadata"
  let whenApplicable (v : Value) : Value := if applicable then v else .array []
  .object [
    ("applicability", scope.toValue), ("applicable", .bool applicable),
    ("binding_admission", binding), ("governed_by", whenApplicable (.strings (upstream metadata))),
    ("guidance", .string ((current.field "body").asStr.getD "")), ("metadata", metadata),
    ("preferred_procedures", whenApplicable (metadata.field "use")),
    ("procedure_resolution", .array procedures),
    ("read", whenApplicable (.strings (sortDedup (strings (metadata.field "read") ++
      upstream metadata)))),
    ("reconcile", whenApplicable (metadata.field "reconcile")),
    ("requirement_references", whenApplicable (.strings ((strings (metadata.field "checks")).filter
      (startsWith "requirement:")))),
    ("retained_governance", document.field "retained_governance"),
    ("source", document.field "source"), ("source_material", current.field "source_material"),
    ("valid", .bool valid)]

/-- One document of the loop. -/
def Host.resolveDocument (target : String) (changed : List String) (route : Value) (pin : String)
    (targets : List String) (document : Value) : Result Resolved := do
  let metadata := document.field "metadata"
  let valid := decide (document.field "valid" = .bool true)
  let scope ← applicability metadata changed route targets
  let scope := scopeWith metadata changed scope
  let applicable := valid && scope.applies
  let unresolved := valid && scope.status == "unresolved"
  let binding := host.binding files target pin (referenceOf document) document
  let (current, procedures) ← host.shown files document applicable
  pure {
    row := sourceRow document binding current procedures scope valid applicable
    blockers := documentBlockers document binding changed valid applicable unresolved
    scopes := protections metadata changed }

def SCOPES : List String :=
  ["task", "claim:complete", "effect:planning-state", "effect:proof-execution",
    "effect:memory-state", "effect:decision-source", "effect:configuration-source",
    "effect:system-intent-source"]

structure View where
  sources : List Value
  blockers : List SourceBlocker
  scopes : List String
  governanceDiscovery : Option String
  revision : String

/-- The documents of a resolution, and why admitted governance could not be discovered. -/
def Host.documents (target pin : String) (observed : List Value) : List Value × Option String :=
  match host.preserveGovernance files target pin observed with
  | .ok documents => (documents, none)
  | .error e => (observed, some e.message)

def Host.resolveWithTargets (target : String) (changed : List String) (route : Value) (pin : String)
    (targets : List String) : Result View := do
  let observed ← host.currentSources files
  let (documents, gap) := host.documents files target pin observed
  let resolved ← documents.mapM (host.resolveDocument files target changed route pin targets)
  let rows := resolved.map (·.row)
  pure {
    sources := rows
    blockers := gap.toList.map (fun reason =>
      ⟨"governance", "admitted-source-discovery-unavailable", reason, ["claim:complete"], none⟩) ++
        resolved.flatMap (·.blockers)
    scopes := sortDedup (SCOPES ++ resolved.flatMap (·.scopes))
    governanceDiscovery := gap
    revision := host.digest (.object [("changed", .strings changed), ("route", route),
      ("sources", .array rows)]) }

end AgenticCore.InstructionSource
