import AgenticCore.DecisionSource
import AgenticCore.InstructionApplicability
import AgenticCore.Interruption
import AgenticCore.JsonBytes

/-!
# Local observation candidates (`native_memory_candidates.rs`)

One bounded state file, one prepared recovery record and one temporary.

* `validate`       : the bounds and the row shape of a state.
* `viewAt`         : what a request may do to the current files, with the postimage it would write.
* `executeChecked` : the publication of a postimage, step by step.
* `exec`           : the steps on the files; a write takes one step for each byte.

Other owners answer through `Owners`. Links, directories and the lock's holders belong to the file
system: a program runs alone here.
-/

set_option autoImplicit false

namespace AgenticCore.MemoryCandidates

open Json Text Interleaving

def REQUEST : String := "memory/consider-observation/v1"

def OP : String := "memory.update-candidates"

def HOME : String := ".agentic-workspace/local/memory-candidates"

def STATE_KIND : String := "agentic-memory/local-candidates/v1"

def PREPARED_KIND : String := "agentic-memory/candidate-prepared/v1"

def BYTES : Nat := 65536

def RESIDUE : Nat := BYTES + 4096

def COUNT : Nat := 16

def AGE : Nat := 14 * 24 * 60 * 60

def MAX_SOURCE_BYTES : Nat := 262144

/-- `digest` and `hash` are SHA-256 of a serialised value and of bytes. -/
structure Host where
  digest : Value → String
  hash : ByteArray → String
  digest_text : ∀ v, sha256Revision (digest v) = true
  hash_text : ∀ bytes, sha256Revision (hash bytes) = true

/-- What other owners answer to one request. -/
structure Owners where
  /-- `prepare_request_value` on a request, the current work and the contract. -/
  prepareRequest : Value → Value → Value → Result Unit
  /-- The dependency's source has the recorded revision. -/
  dependencyCurrent : Value → Bool
  /-- The advisory publisher's own request for a scope. -/
  advisoryRequest : List String → Result Value
  confirmedPublication : String → Value → Result Value
  checkedReceivingConsequence : Value → Value → Result Value

variable (host : Host)

/-! ## States -/

def empty : Value := .object [("candidates", .array []), ("kind", .string STATE_KIND)]

/-- `state["candidates"]`, once it is known to be an array. -/
def rows (state : Value) : List Value := (state.field "candidates").asArray.getD []

/-- The state with other rows in place. -/
def withRows (state : Value) (rows : List Value) : Value :=
  match state with
  | .object members =>
    .object (members.map fun (k, v) => if k = "candidates" then (k, .array rows) else (k, v))
  | other => other

def Host.event (material : Value) : String :=
  host.digest (.array [material.field "id", material.field "source"])

def nonEmptyText (v : Value) : Prop := ∃ s ∈ v.asStr, s ≠ ""

instance (v : Value) : Decidable (nonEmptyText v) := inferInstanceAs (Decidable (∃ s ∈ v.asStr, _))

structure Host.RowValid (row : Value) : Prop where
  id : (row.field "id").asStr.isSome = true
  captured : (row.field "captured_at").asU64.isSome = true
  kind : (row.field "material").field "kind" = .string "observation"
  work : (row.field "material").get? "work" = none
  uncertainty : nonEmptyText (row.field "uncertainty")
  paths : (row.field "paths").asArray.isSome = true
  routes : (row.field "semantic_routes").asArray.isSome = true
  event : row.field "event" = .string (host.event (row.field "material"))

instance (row : Value) : Decidable (host.RowValid row) :=
  decidable_of_iff (_ ∧ _ ∧ _ ∧ _ ∧ _ ∧ _ ∧ _ ∧ _)
    ⟨fun ⟨a, b, c, d, e, f, g, h⟩ => ⟨a, b, c, d, e, f, g, h⟩,
      fun ⟨a, b, c, d, e, f, g, h⟩ => ⟨a, b, c, d, e, f, g, h⟩⟩

def Host.validate (state : Value) : Result Unit := do
  let rows ← okOr ((state.field "candidates").asArray.filter (·.length ≤ COUNT))
    "Invalid bounded candidate state"
  check (state.field "kind" = .string STATE_KIND ∧ (∃ members ∈ state.asObject, members.length = 2) ∧
      (toVec state).size ≤ BYTES) "Unknown candidate state preserved"
  check ((∀ row ∈ rows, host.RowValid row) ∧ (rows.map (·.field "id")).Nodup)
    "Unknown candidate row preserved"

def current (row : Value) (clock : Nat) : Bool :=
  match (row.field "captured_at").asU64 with
  | some t => t ≤ clock && clock - t < AGE
  | none => false

/-! ## Files -/

inductive Path where
  | state
  | prepared
  | temp
  | lock
  deriving DecidableEq, Repr

def Path.name : Path → String
  | .state => HOME ++ "/state.json"
  | .prepared => HOME ++ "/prepared.json"
  | .temp => HOME ++ "/state.tmp"
  | .lock => HOME ++ "/owner.lock"

abbrev Files := Path → Option ByteArray

def noFiles : Files := fun _ => none

def Files.set (files : Files) (path : Path) (content : Option ByteArray) : Files :=
  fun p => if p = path then content else files p

inductive Op where
  | read (path : Path)
  /-- Open for writing, created when absent. -/
  | ensure (path : Path)
  | createNew (path : Path)
  | append (path : Path) (byte : UInt8)
  | rename (source destination : Path)
  | remove (path : Path)

abbrev Answer : Op → Type
  | .read _ => Option ByteArray
  | .ensure _ => Unit
  | .append _ _ => Unit
  | .createNew _ => Bool
  | .rename _ _ => Bool
  | .remove _ => Bool

def exec : Exec Files Op Answer
  | _, files, .read path => (files, files path)
  | _, files, .ensure path => (files.set path (some ((files path).getD .empty)), ())
  | _, files, .createNew path =>
    if (files path).isSome then (files, false) else (files.set path (some .empty), true)
  | _, files, .append path byte => (files.set path ((files path).map (·.push byte)), ())
  | _, files, .rename source destination =>
    if (files source).isSome then ((files.set destination (files source)).set source none, true)
    else (files, false)
  | _, files, .remove path =>
    if (files path).isSome then (files.set path none, true) else (files, false)

abbrev StoreM (α : Type) := Prog Answer CoreError α

/-- The confined reader: bounded UTF-8 text or no file. -/
def admitted (limit : Nat) (found : Option ByteArray) : Result (Option ByteArray) :=
  match found with
  | none => .ok none
  | some bytes => do
    check (bytes.size ≤ MAX_SOURCE_BYTES) "decision source exceeds bounded read"
    check ((String.fromUTF8? bytes).isSome = true) "invalid utf-8"
    check (bytes.size ≤ limit)
      "Candidate source exceeds its fixed byte bound; preserve unknown source"
    pure (some bytes)

def parsedState (bytes : Option ByteArray) : Result Value :=
  match bytes with
  | none => .ok empty
  | some bytes => okOr (fromSlice bytes) MALFORMED

/-- The state and its revision, from the content of its file. -/
def Host.snapshot (found : Option ByteArray) : Result (Value × Value) := do
  let bytes ← admitted BYTES found
  let state ← parsedState bytes
  host.validate state
  pure (state, .orNull (bytes.map fun b => .string (host.hash b)))

/-- The prepared record, from the content of its file. -/
def Host.pending (found : Option ByteArray) : Result (Option Value) := do
  let bytes ← admitted RESIDUE found
  match bytes with
  | none => pure none
  | some bytes => do
    let value ← okOr (fromSlice bytes)
      "Incomplete candidate temporary preserved; inspect exact residue before repair"
    host.validate (value.field "postimage")
    check (value.field "kind" = .string PREPARED_KIND ∧
        (∃ members ∈ value.asObject, members.length = 4) ∧
        value.field "post_revision" = .string (host.digest (value.field "postimage")))
      "Unknown candidate recovery preserved"
    pure (some value)

/-! ## Views -/

structure Input where
  target : String
  work : Value
  material : Value
  changed : List String
  routes : Value
  config : Value
  contract : Value
  verification : Value
  request : Option Value
  clock : Nat
  owners : Owners

structure View where
  status : String := "available"
  revision : String
  requests : List Value
  selected : List Value
  finding : Option Value := none
  candidate : Option Value := none
  publicationRequest : Option Value := none
  confirmation : Value := .null
  action : Option Value := none

/-- Stands for the source's `unwrap` on a value of another shape. -/
def PANIC : String := "unwrap"

def memoryOwner (contract : Value) : Option Value := do
  let owners ← (contract.field "owners").asArray
  owners.find? fun o => o.field "owner" = .string "memory"

def findings (material : Value) : List Value :=
  ((material.field "items").asArray.getD []).filter fun r =>
    (r.field "material").field "kind" = .string "observation"

def operation (args : Value) : Option String := (args.field "operation").asStr

def texts (v : Value) : List String := (v.asArray.getD []).filterMap Value.asStr

def selectors (row : Value) (changed : List String) (routes : Value) : Bool :=
  (texts (row.field "paths")).any
      (fun p => changed.any fun c => InstructionApplicability.patternsOverlap p c) ||
    (routes.field "status" = .string "current" &&
      ((row.field "semantic_routes").asArray.getD []).any
        (· ∈ (routes.field "routes").asArray.getD []))

def evidence (owners : Owners) (row : Value) : Value :=
  let drift := (((row.field "material").field "dependencies").asArray.getD []).filter
    fun d => !owners.dependencyCurrent d
  .object [("changed_dependencies", .array drift),
    ("currentness", .string
      (if drift.isEmpty then "historical-observation" else "dependency-review-required")),
    ("live_state", .string
      "unknown; check current environment before depending on earlier availability"),
    ("observation", row),
    ("trust", .string "unconfirmed caller-asserted historical observation; no inherited work authority")]

def Host.template (input : Input) (owner : Value) (revision : String) (args : Value) : Value :=
  .object [("arguments", args), ("capability_revision", input.contract.field "revision"),
    ("id", .string (if operation args = some "read" then REQUEST
      else REQUEST ++ ":" ++ host.digest args)),
    ("kind", .string "agentic-workspace/public-request/v1"), ("owner", .string "memory"),
    ("owner_revision", owner.field "revision"), ("request_kind", .string REQUEST),
    ("source_revision", .string revision), ("task_identity", input.work)]

/-- A carried first consideration keeps its original observation age. -/
def consideration (input : Input) (finding : Value) : Value :=
  let carried := input.request.filter fun r =>
    (r.field "arguments").field "material_revision" = finding.field "revision"
  let capturedAt :=
    (carried.bind fun r => ((r.field "arguments").field "captured_at").asU64).getD input.clock
  .object [("captured_at", .ofNat capturedAt), ("material_revision", finding.field "revision"),
    ("operation", .string "consider")]

def operationOnly (name : String) : Value := .object [("operation", .string name)]

/-- The rows a view presents. -/
def selected (input : Input) (args state : Value) : List Value :=
  ((rows state).filter (current · input.clock)).filter fun row =>
    match (args.field "candidate_ids").asArray with
    | some ids => row.field "id" ∈ ids
    | none => selectors row input.changed input.routes || operation args = some "read"

def Host.revision (input : Input) (before : Value) (prepared : Option Value) : String :=
  host.digest (.array [before, .orNull prepared, input.config.field "revision", input.work,
    input.material])

/-- The view before the request is considered. -/
def Host.available (input : Input) (owner args state before : Value) (prepared : Option Value) :
    View :=
  let revision := host.revision input before prepared
  let template := host.template input owner revision
  let presented := selected input args state
  let ids := Value.array (presented.map (·.field "id"))
  { revision
    requests :=
      (findings input.material).map (template ∘ consideration input) ++
        [template (operationOnly "read")] ++
        (if prepared.isSome then [template (operationOnly "recover")] else []) ++
        (if presented.isEmpty then [] else
          [template (.object [("candidate_ids", ids), ("operation", .string "discard"),
              ("reason", .string "<deliberate disposition>")]),
            template (.object [("candidate_ids", ids), ("operation", .string "consolidate")])])
    selected := presented.map (evidence input.owners) }

/-- The advisory publication that a consolidation proposes. -/
def publicationRequest (input : Input) (args state : Value) (ids : List Value) : Result Value := do
  let publication ← input.owners.advisoryRequest (input.changed.map ("path:" ++ ·))
  let material := args.field "advisory_material"
  let own := ((rows state).filter (·.field "id" ∈ ids)).map
    fun r => (r.field "material").field "source"
  let supplied := (material.field "origins").asArray.getD []
  let origins := supplied.foldl
    (fun origins origin => if origin ∈ origins then origins else origins ++ [origin]) own
  check (origins.length ≤ 16)
    "Narrow the consolidation provenance to its relevant bounded opportunity"
  let arguments := ((publication.field "arguments").insert "candidate_ids" (.array ids)).insert
    "material" (material.insert "origins" (.array origins))
  let arguments := ["revise_source", "source_revision", "validity_review"].foldl
    (fun arguments key =>
      match args.get? key with
      | some value => arguments.insert key value
      | none => arguments) arguments
  pure (publication.insert "arguments" arguments)

/-- What a request computes: an answer without a write, or a postimage. -/
inductive Computed where
  | answered (view : View)
  | post (postimage : Value) (view : View)

def exactIds (args : Value) (message : String) : Result (List Value) :=
  okOr ((args.field "candidate_ids").asArray.filter (· ≠ [])) message

/-- `consolidate` and `defer`, and the first part of `complete`. -/
def considered (input : Input) (args state : Value) (view : View) : Result (Option View) := do
  let ids ← exactIds args "Consolidation requires exact candidate identities"
  if ¬ ∀ id ∈ ids, ∃ r ∈ rows state, r.field "id" = id ∧ current r input.clock = true then
    pure (some { view with status := "optional-evidence-unavailable" })
  else if operation args = some "defer" then
    pure (some { view with status := "deferred" })
  else if operation args = some "consolidate" then
    if (args.field "advisory_material").isObject then do
      let publication ← publicationRequest input args state ids
      pure (some { view with
        status := "semantic-judgment-required", publicationRequest := some publication })
    else pure (some { view with status := "semantic-judgment-required" })
  else pure none

def judged (input : Input) (args state : Value) (view : View) : Result (Option View) :=
  if operation args ∈ [some "consolidate", some "complete", some "defer"] then
    considered input args state view
  else pure none

/-- Oldest rows leave until the state fits; a single row that does not fit is declined. -/
def evict (state : Value) : List Value → Option (List Value)
  | [] => none
  | row :: rest =>
    if COUNT < (row :: rest).length ∨ BYTES < (toVec (withRows state (row :: rest))).size then
      if rest = [] then none else evict state rest
    else some (row :: rest)

/-- The row a capture adds. -/
def Host.capturedRow (input : Input) (args finding : Value) : Result Value := do
  let observation := (finding.field "material").remove "work"
  let id := host.event observation
  let captured ← okOr ((args.field "captured_at").asU64.filter fun t =>
      t ≤ input.clock ∧ input.clock - t < AGE)
    "Observation age is unknown or expired; nominate a new current observation"
  let paths := (args.field "paths").asArray.getD []
  let semanticRoutes := (args.field "semantic_routes").asArray.getD []
  paths.forM fun p => do
    let path ← okOr p.asStr PANIC
    DecisionSource.relative path
  check (paths ≠ [] ∨ semanticRoutes ≠ [])
    "Provide a deliberately scoped path or existing activity cue for later consideration"
  let summary ← okOr ((finding.field "material").field "summary").asStr PANIC
  pure (.object [("captured_at", .ofNat captured),
    ("consequence", .string ((args.field "consequence").asStr.getD summary)),
    ("event", .string id), ("id", .string id), ("material", observation),
    ("paths", .array paths), ("semantic_routes", .array semanticRoutes),
    ("uncertainty", args.field "uncertainty")])

def Host.capture (input : Input) (args state : Value) (view : View) : Result Computed := do
  check (args.field "optional" = .bool true ∧
      ∃ s ∈ (args.field "uncertainty").asStr, trim s ≠ "")
    "Provisional capture needs optional material and its uncertainty; explicit commitments/effects belong to their durable owner"
  let finding ← okOr ((findings input.material).find? fun f =>
      f.field "revision" = args.field "material_revision")
    "Capture requires the exact ordinary observation"
  let id := host.event ((finding.field "material").remove "work")
  match (rows state).find? fun r => r.field "event" = .string id with
  | some old =>
    pure (.answered { view with status := "already-considered", candidate := some old })
  | none => do
    let row ← host.capturedRow input args finding
    match evict state ((rows state).filter (current · input.clock) ++ [row]) with
    | none => pure (.answered { view with status := "declined-capacity" })
    | some kept => pure (.post (withRows state kept) view)

def subtract (input : Input) (args state : Value) (view : View) : Result Computed := do
  let ids ← exactIds args "Discard requires exact candidate identities"
  let post := withRows state ((rows state).filter fun r => r.field "id" ∉ ids)
  if operation args = some "complete" then
    let publication := args.field "publication"
    if publication.isObject then do
      let source ← okOr (publication.field "source").asStr PANIC
      let confirmation ← input.owners.confirmedPublication source (publication.field "revision")
      pure (.post post { view with confirmation })
    else do
      let confirmation ← input.owners.checkedReceivingConsequence args input.verification
      pure (.post post { view with confirmation })
  else do
    check (∃ s ∈ (args.field "reason").asStr, trim s ≠ "")
      "Discard requires a deliberate disposition"
    pure (.post post view)

def Host.recover (state before : Value) (prepared : Option Value) (view : View) :
    Result Computed := do
  let p ← okOr prepared "No candidate effect to recover"
  check (before = p.field "before" ∨ p.field "post_revision" = .string (host.digest state))
    "Candidate recovery conflicts with current source; preserve both"
  pure (.post (p.field "postimage") view)

/-- The operations that write. -/
def Host.mutate (input : Input) (args state before : Value) (prepared : Option Value)
    (view : View) : Result Computed :=
  if operation args = some "recover" then host.recover state before prepared view
  else if prepared.isSome then pure (.answered { view with status := "pending-local-effect" })
  else if operation args = some "capture" then host.capture input args state view
  else if operation args = some "discard" ∨ operation args = some "complete" then
    subtract input args state view
  else if operation args = some "maintain" then
    pure (.post (withRows state ((rows state).filter (current · input.clock))) view)
  else pure (.post state view)

def Host.computed (input : Input) (args state before : Value) (prepared : Option Value)
    (view : View) : Result Computed := do
  let answer ← judged input args state view
  match answer with
  | some view => pure (.answered view)
  | none =>
    if operation args = some "read" then pure (.answered view)
    else if operation args = some "consider" then do
      let finding ← okOr ((findings input.material).find? fun f =>
          f.field "revision" = args.field "material_revision")
        "Select an exact supplied observation"
      pure (.answered { view with finding := some finding })
    else host.mutate input args state before prepared view

/-- What `execute_checked` is bound to. -/
def Host.binding (before postimage : Value) (prepared : Option Value) (confirmation : Value) :
    Value :=
  .object [("before", before), ("confirmation", confirmation),
    ("post_revision", .string (host.digest postimage)), ("postimage", postimage),
    ("prepared", .orNull prepared)]

def Host.action (input : Input) (request binding : Value) : Value :=
  .object [("arguments", .object [("binding", binding), ("request", request),
      ("target", .string input.target)]),
    ("dependency_revision", .string (host.digest (.array [binding, request]))),
    ("effects", .strings ["memory-state"]), ("operation_id", .string OP),
    ("source_requests", .array [request])]

/-- The request is current: the owner's contract admits it, and no source has changed. -/
def currentRequest (input : Input) (request : Value) (revision : String) : Result Unit := do
  input.owners.prepareRequest request input.work input.contract
  check (request.field "source_revision" = .string revision)
    "Candidate proposal changed; resolve current observation request"

def Host.ready (input : Input) (request state before : Value) (prepared : Option Value)
    (postimage : Value) (view : View) : Result View := do
  host.validate postimage
  if postimage = state ∧ operation (request.field "arguments") ≠ some "recover" then
    pure { view with status := "unchanged" }
  else
    let binding := host.binding before postimage prepared view.confirmation
    pure { view with status := "write-ready", action := some (host.action input request binding) }

def Host.viewAt (files : Files) (input : Input) : Result (Option View) := do
  let owner ← okOr (memoryOwner input.contract) PANIC
  if input.request = none ∧ findings input.material = [] ∧ input.changed = [] ∧
      input.routes.field "status" ≠ .string "current" then
    pure none
  else do
    let (state, before) ← host.snapshot (files .state)
    let prepared ← host.pending (files .prepared)
    match input.request with
    | none => pure (some (host.available input owner .null state before prepared))
    | some request => do
      currentRequest input request (host.revision input before prepared)
      let args := request.field "arguments"
      let view := host.available input owner args state before prepared
      let computed ← host.computed input args state before prepared view
      match computed with
      | .answered view => pure (some view)
      | .post postimage view => do
        let view ← host.ready input request state before prepared postimage view
        pure (some view)

/-! ## Publication -/

def readFile (path : Path) (limit : Nat) : StoreM (Option ByteArray) := do
  let found ← Prog.step (Op.read path)
  admitted limit found

/-- `write_all`, of a new file. -/
def appendAll (path : Path) : List UInt8 → StoreM Unit
  | [] => pure ()
  | byte :: rest => do
    Prog.step (Op.append path byte)
    appendAll path rest

def writeNew (path : Path) (bytes : ByteArray) : StoreM Unit := do
  let created ← Prog.step (Op.createNew path)
  check (created = true) "file exists"
  appendAll path bytes.data.toList

def preparedRecord (before postimage postRevision : Value) : Value :=
  .object [("before", before), ("kind", .string PREPARED_KIND), ("post_revision", postRevision),
    ("postimage", postimage)]

def openLock : StoreM Unit := do
  let _ ← readFile .lock 0
  let _ ← readFile .lock 0
  Prog.step (Op.ensure .lock)

/-- The state and the prepared record that the binding was made for. -/
def Host.bound (binding : Value) (stateBytes preparedBytes : Option ByteArray) :
    Result (Value × Value × Option Value) := do
  let (state, before) ← host.snapshot stateBytes
  let prepared ← host.pending preparedBytes
  check (before = binding.field "before" ∧ .orNull prepared = binding.field "prepared")
    "Candidate preimage drift; preserve concurrent work"
  host.validate (binding.field "postimage")
  check (binding.field "post_revision" = .string (host.digest (binding.field "postimage")))
    "Candidate postimage changed"
  pure (state, before, prepared)

def prepare (before binding : Value) : StoreM Unit := do
  let bytes := toVec
    (preparedRecord before (binding.field "postimage") (binding.field "post_revision"))
  check (bytes.size ≤ RESIDUE) "Candidate recovery exceeds fixed bound"
  writeNew .prepared bytes

/-- The temporary holds the postimage, and nothing else is taken for it. -/
def prepareTemp (postimage : Value) : StoreM Unit := do
  let _ ← readFile .temp BYTES
  let old ← readFile .temp BYTES
  match old with
  | some old =>
    check (fromSlice old = some postimage) "Unknown candidate state temporary preserved"
  | none => writeNew .temp (toVec postimage)

def publish (state postimage : Value) : StoreM Unit := do
  let moved ←
    (if state ≠ postimage then Prog.step (Op.rename .temp .state)
      else Prog.step (Op.remove .temp) : StoreM Bool)
  check (moved = true) "no such file"

def outcome (binding : Value) : Value :=
  .object [("outcome", .object [("effects", .strings ["memory-state"]),
      ("status", .string "applied"),
      ("value", .object [("authority", .string "none"),
        ("kind", .string "agentic-memory/candidate-effect/v1"),
        ("post_revision", binding.field "post_revision"),
        ("remaining", .ofNat (rows (binding.field "postimage")).length)])]),
    ("post_effect_changed_paths",
      .strings ([Path.state, .prepared, .lock, .temp].map Path.name))]

/-- Replace the state, and keep the recovery record until the replacement is in place. -/
def finish (state binding : Value) : StoreM Value := do
  prepareTemp (binding.field "postimage")
  publish state (binding.field "postimage")
  let removed ← Prog.step (Op.remove .prepared)
  check (removed = true) "no such file"
  pure (outcome binding)

/-- `revalidate` asks the current owners again, under the lock. -/
def Host.executeChecked (revalidate : Result Unit) (binding : Value) : StoreM Value := do
  openLock
  revalidate
  let stateBytes ← Prog.step (Op.read .state)
  let preparedBytes ← Prog.step (Op.read .prepared)
  let (state, before, prepared) ← host.bound binding stateBytes preparedBytes
  if prepared = none then prepare before binding else pure ()
  finish state binding

end AgenticCore.MemoryCandidates
