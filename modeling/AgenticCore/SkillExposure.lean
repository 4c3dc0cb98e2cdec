import AgenticCore.EffectEvidence
import AgenticCore.EvidencePath

/-!
# Discovery links of skills (`native_skill_exposure.rs`)

One effect exposes a product skill to a host through a link, or removes the link again.

* `World`    : the files of the repository, its links, and the history of their changes.
* `retained` : the marker that says who changed the link last.
* `state`    : what is at the link's path, and whether it counts as the product's own.
* `view`     : the answer to an edit request.
* `execute`  : the effect.

The history of a path is there for statements only: no program reads it. The link and directory
checks of the file system are a parameter of each call.
-/

set_option autoImplicit false

namespace AgenticCore.SkillExposure

open Json Text Interleaving Attempt
open AttemptStore hiding StoreM Op Answer exec readFile

def EDIT : String := "configuration/skill-exposure/v1"

def OP : String := "configuration.skill-exposure"

def REGISTRY : String := ".agentic-workspace/skills/REGISTRY.json"

def LOCK : String := ".agentic-workspace/local/effects/configuration.lock"

def path (name : String) : String := ".agents/skills/" ++ name

def destination (name : String) : String := "../../.agentic-workspace/skills/" ++ name

def marker (name : String) : String :=
  ".agentic-workspace/local/effects/skill-exposure-" ++ name ++ ".json"

def canonical (name : String) : String := ".agentic-workspace/skills/" ++ name

/-! ## The world -/

/-- What can be at the path of a link. -/
inductive Entry where
  | link (text : String)
  | file
  | directory
  deriving DecidableEq, Repr

/-- How the entry of a path came to change. -/
inductive Change where
  /-- An execution created the link. -/
  | exposed
  /-- An execution removed the entry. -/
  | unlinked
  /-- The user put an entry in the place of what was there. -/
  | put (entry : Entry)
  /-- The user deleted the entry. -/
  | deleted
  deriving DecidableEq, Repr

structure World where
  files : Repository.Files
  entries : BTreeMap String Entry
  /-- The changes, the last one first. -/
  changes : List (String × Change)

def World.history (w : World) (path : String) : List Change :=
  (w.changes.filter (·.1 = path)).map Prod.snd

/-- What the user does at the path of a link. -/
inductive UserChange where
  | put (entry : Entry)
  | delete

def World.changed (w : World) (path : String) : UserChange → World
  | .put entry => { w with
      entries := w.entries.insert path entry, changes := (path, .put entry) :: w.changes }
  | .delete => { w with entries := w.entries.erase path, changes := (path, .deleted) :: w.changes }

inductive Op where
  | file (o : Repository.Op)
  /-- `symlink_metadata`, and the text of a link. -/
  | look (path : String)
  | symlink (text path : String)
  | unlink (path : String)

abbrev Answer : Op → Type
  | .file o => Repository.Answer o
  | .look _ => Option Entry
  | .symlink _ _ => Bool
  | .unlink _ => Bool

def exec : Exec World Op Answer
  | id, w, .file o => ({ w with files := (Repository.exec id w.files o).1 },
      (Repository.exec id w.files o).2)
  | _, w, .look path => (w, w.entries[path]?)
  | _, w, .symlink text path =>
    if path ∈ w.entries then (w, false)
    else ({ w with
      entries := w.entries.insert path (.link text)
      changes := (path, .exposed) :: w.changes }, true)
  | _, w, .unlink path =>
    match w.entries[path]? with
    | some (.link _) | some .file => ({ w with
        entries := w.entries.erase path
        changes := (path, .unlinked) :: w.changes }, true)
    | some .directory | none => (w, false)

abbrev StoreM (α : Type) := Prog Answer CoreError α

/-- A program on the files. -/
def onFiles {α : Type} : Repository.StoreM α → StoreM α
  | .done r => .done r
  | .act o next => .act (.file o) fun a => onFiles (next a)

/-! ## The registry -/

def validName (name : String) : Bool :=
  name != "" && name.utf8ByteSize ≤ 64 &&
    name.toList.all fun c => ('a' ≤ c && c ≤ 'z') || ('0' ≤ c && c ≤ '9') || c == '-'

/-- A row that the product offers for exposure. -/
def offered (row : Value) : Bool :=
  match (row.field "scope").asStr, (row.field "visibility").asStr with
  | some scope, some visibility =>
    (scope == "main-operating-skill" && visibility == "ordinary-default") ||
      (scope == "specialized-subskill" && visibility == "routed-on-demand")
  | _, _ => false

def addName (names : List String) (row : Value) : Result (List String) :=
  if offered row = false then pure names
  else do
    let name ← okOr (row.field "id").asStr "skill identity missing"
    check (validName name = true ∧ row.field "path" = .string (name ++ "/SKILL.md") ∧ name ∉ names)
      "noncanonical or duplicate skill identity"
    pure (names ++ [name])

/-- The names the product offers. -/
def names : Repository.StoreM (List String) := do
  let found ← Repository.source REGISTRY
  match found with
  | none => pure []
  | some raw => do
    let registry ← okOr (fromSlice raw) MALFORMED
    let rows ← okOr (registry.field "skills").asArray "skill registry malformed"
    (rows.foldlM addName [] : Result (List String))

/-! ## The marker -/

/-- The arguments of the request that an invocation carries. -/
def argumentsOf (invocation : Value) : Value :=
  ((invocation.field "arguments").field "request").field "arguments"

variable (host : AttemptStore.Host)

/-- `attempt_store::read_source`. -/
def readSource (target : String) (reference : Evidence) : Repository.StoreM Value := do
  host.openRoot target
  check (host.canonical reference.target = some host.root)
    "source custody belongs to a different target"
  check (¬ (reference.path = "" ∨ '\\' ∈ reference.path.toList ∨
      (EvidencePath.components reference.path).any (!·.isNormal) = true))
    "evidence path must be relative and confined"
  let found ← Prog.step (Repository.Op.read reference.path)
  let bytes ← okOr found "No such file or directory (os error 2)"
  check (host.hash bytes = reference.revision)
    "former source changed; Planning reconciliation must reopen"
  okOr (fromSlice bytes) MALFORMED

/-- A marker's record, whose attempt is the one it claims. -/
def ownRecord (target name : String) (raw : ByteArray) : Repository.StoreM Value := do
  let record ← okOr (fromSlice raw) MALFORMED
  let reference ← Repository.readEvidence ((record.field "custody").field "attempt")
  let attempt ← readSource host target reference
  let invocation := record.field "invocation"
  check (attempt.field "invocation" = invocation ∧
      invocation.field "operation_id" = .string OP ∧
      (invocation.field "arguments").field "target" = .string target ∧
      (argumentsOf invocation).field "name" = .string name ∧
      (argumentsOf invocation).field "mode" ∈ [Value.string "expose", .string "remove"])
    "skill exposure ownership evidence invalid; preserve it"
  pure record

/-- The record of the last publication of the skill's link. -/
def retained (target name : String) : Repository.StoreM (Option Value) := do
  let found ← Repository.source (marker name)
  match found with
  | none => pure none
  | some raw => do
    let record ← ownRecord host target name raw
    pure (some record)

/-! ## The state of a link -/

inductive Observed where
  | absent
  | owned
  | collision
  deriving DecidableEq, Repr

def Observed.toValue (name : String) : Observed → Value
  | .absent => .object [("status", .string "absent")]
  | .owned => .object [("destination", .string (destination name)), ("status", .string "owned")]
  | .collision => .object [
      ("recovery", .string ("Preserve this path. Move or reconcile the conflicting host skill " ++
        "explicitly, then request fresh exposure. Never overwrite or adopt an unowned link.")),
      ("status", .string "collision")]

structure State where
  name : String
  bodyRevision : Option String
  ownershipRevision : Option String
  observed : Observed
  deriving DecidableEq, Repr

def State.toValue (s : State) : Value :=
  .object [("body_revision", .orNull (s.bodyRevision.map .string)),
    ("canonical", .string (canonical s.name)), ("name", .string s.name),
    ("observed", s.observed.toValue s.name),
    ("ownership_revision", .orNull (s.ownershipRevision.map .string))]

/-- The entry is a link to the canonical skill. Paths are compared by their components. -/
def observedLink (name : String) : Entry → Bool
  | .link text => EvidencePath.components text == EvidencePath.components (destination name)
  | .file | .directory => false

def observe (name : String) (owned : Bool) : Option Entry → Observed
  | none => .absent
  | some entry => if observedLink name entry = true ∧ owned = true then .owned else .collision

/-- What a call depends on besides the world. `directory` is `no_link_directory`; `resolution` is
    what the rest of the fresh resolution of a revalidation says, for the first and the second. -/
structure Call where
  target : String
  decision : Value
  invocation : Value
  binding : Value
  directory : String → Result Unit
  resolution : Bool → Result Unit

variable (call : Call)

def state (name : String) : StoreM State := do
  call.directory ".agents/skills"
  call.directory (canonical name)
  let raw ← onFiles (Repository.source (canonical name ++ "/SKILL.md"))
  let record ← onFiles (retained host call.target name)
  let entry ← Prog.step (Op.look (path name))
  pure {
    name
    bodyRevision := raw.map host.hash
    ownershipRevision := record.map fun r => host.digest (r.field "invocation")
    observed := observe name record.isSome entry }

def outcome (invocation : Value) : Value :=
  let name := ((argumentsOf invocation).field "name").asStr.getD ""
  .object [("effects", .strings ["configuration-source"]), ("status", .string "applied"),
    ("value", .object [("authority_effect", .string "discovery-only"),
      ("canonical", .string (canonical name)), ("completion_authority", .bool false),
      ("kind", .string "agentic-workspace/skill-exposure-result/v1"),
      ("mode", (argumentsOf invocation).field "mode"), ("name", .string name),
      ("source", .string (path name))])]

/-- A publication that took effect and was not committed. -/
def recoverable (target name : String) (s : State) : Repository.StoreM (Option Value) := do
  let record ← retained host target name
  match record with
  | none => pure none
  | some record =>
    let exposes := (argumentsOf (record.field "invocation")).field "mode" = .string "expose"
    if s.observed = .collision ∨ ¬ (s.observed = .owned ↔ exposes) then pure none
    else do
      let custody ← Repository.readCustody (record.field "custody")
      let (planned, prepared) ← Repository.evidence
        (host.prepareCommit ⟨target, custody, outcome (record.field "invocation")⟩)
      let committed ← okOr prepared.committed MALFORMED
      let found ← Repository.source committed.path
      match found with
      | none => pure (some record)
      | some raw => do
        let actual ← okOr (fromSlice raw) MALFORMED
        check (actual = planned.toValue) "exposure result evidence differs; preserve it"
        pure none

/-! ## The view of an edit request -/

/-- The answer to an edit request, without the decision it asks for. -/
inductive Viewed where
  | collisionPreserved (s : State)
  | unchanged
  | authorizationRequired (answer : Value)
  | writeReady (action : Value)

def withoutAnswer (request : Value) : Value :=
  request.insert "arguments" ((request.field "arguments").remove "answer")

/-- The one action of a request that is ready. -/
def readyAction (name : String) (request : Value) (s : State) : Value :=
  let mode := (request.field "arguments").field "mode"
  .object [
    ("arguments", .object [("binding", call.binding),
      ("post_revision", .string (host.digest (.array [.string name, mode,
        .string (destination name)]))),
      ("request", request), ("target", .string call.target)]),
    ("dependency_revision", .string (host.digest (.array [call.binding, request, s.toValue]))),
    ("effects", .strings ["configuration-source"]), ("operation_id", .string OP),
    ("source_requests", .array [request])]

/-- A skill the product offers, or one whose link is to be removed or recovered. -/
def discoverable (target : String) (selected : List String) (mode : Value) (name : String) :
    Repository.StoreM Unit :=
  if name ∈ selected then pure ()
  else do
    check (mode ≠ .string "expose")
      "skill is not a discoverable product procedure or owned exposure"
    let record ← retained host target name
    check (record.isSome = true) "skill is not a discoverable product procedure or owned exposure"

/-- The answer where there is no collision. -/
def viewFree (name : String) (request : Value) (s : State) : StoreM Viewed := do
  let arguments := request.field "arguments"
  check (¬ (arguments.field "mode" = .string "expose" ∧ s.bodyRevision = none))
    "canonical skill body missing; restore it through the payload owner"
  if arguments.field "mode" = .string "recover" then do
    let record ← onFiles (recoverable host call.target name s)
    check (record.isSome = true) "no exact published exposure effect to recover"
    pure (.writeReady (readyAction host call name request s))
  else if s.observed = .owned ↔ arguments.field "mode" = .string "expose" then pure .unchanged
  else if arguments.field "answer" ≠ .string "authorize-write" then
    pure (.authorizationRequired (withoutAnswer request))
  else pure (.writeReady (readyAction host call name request s))

def view (request : Value) : StoreM Viewed := do
  let selected ← onFiles names
  let arguments := request.field "arguments"
  let name ← okOr (arguments.field "name").asStr "skill identity missing"
  check (validName name = true) "invalid skill identity"
  onFiles (discoverable host call.target selected (arguments.field "mode") name)
  -- The name is checked once more.
  check (validName name = true) "invalid skill identity"
  let s ← state host call name
  check (arguments.field "expected_revision" = .string (host.digest s.toValue))
    "skill exposure changed; request fresh material"
  if s.observed = .collision then pure (.collisionPreserved s)
  else viewFree host call name request s

/-- A fresh decision returns the invocation when the view of the request it carries makes its
    action, and the rest of the resolution lets it stand. -/
def revalidate (again : Bool) : StoreM Unit := do
  let viewed ← view host call ((call.invocation.field "arguments").field "request")
  match viewed with
  | .writeReady action => do
    check (action.field "operation_id" = call.invocation.field "operation_id" ∧
        action.field "arguments" = call.invocation.field "arguments")
      "invocation is stale or differs from the exact returned action"
    call.resolution again
  | .collisionPreserved _ | .unchanged | .authorizationRequired _ =>
    fail "invocation is stale or differs from the exact returned action"

/-! ## The effect -/

structure Executed where
  outcome : Value
  custody : Custody

def recordValue (invocation : Value) (custody : Custody) : Value :=
  .object [("custody", Repository.custodyValue custody), ("invocation", invocation)]

def temporary (name : String) (invocation : Value) : String :=
  marker name ++ "." ++ dropChars 7 (host.digest invocation) ++ ".tmp"

/-- The temporary, written or recognised. -/
def stage (name : String) (bytes : ByteArray) : Repository.StoreM Unit := do
  let found ← Repository.source (temporary host name call.invocation)
  match found with
  | some existing => check (existing = bytes) "unowned exposure temporary preserved"
  | none => Repository.createNew (temporary host name call.invocation) bytes

def hardLink (old new : String) : Repository.StoreM Unit := do
  let linked ← Prog.step (Repository.Op.hardLink old new)
  check (linked = true) "File exists"

/-- The marker, from its temporary. -/
def mark (name : String) (previous : Option Value) : Repository.StoreM Unit :=
  match previous with
  | some _ => Repository.rename (temporary host name call.invocation) (marker name)
  | none => do
    hardLink (temporary host name call.invocation) (marker name)
    Repository.removeFile (temporary host name call.invocation)

/-- The effect up to its marker: the custody that the marker carries. -/
def own (name : String) (before : State) (previous : Option Value) (custody : Custody) :
    StoreM Unit := do
  onFiles (stage host call name (toVec (recordValue call.invocation custody)))
  revalidate host call true
  let current ← state host call name
  check (current = before) "skill exposure changed before ownership publication"
  onFiles (mark host call name previous)

/-- The link itself. -/
def publish (name : String) (before : State) : StoreM Unit := do
  if (argumentsOf call.invocation).field "mode" = .string "expose" then
    call.directory ".agents/skills"
    let created ← Prog.step (Op.symlink (destination name) (path name))
    check (created = true) "File exists"
  else
    check (before.observed = .owned) "unowned exposure preserved"
    let removed ← Prog.step (Op.unlink (path name))
    check (removed = true) "No such file or directory"

/-- The commit of a publication that an earlier effect made. -/
def recover (name : String) (before : State) (custody : Custody) : StoreM Executed := do
  let record ← onFiles (recoverable host call.target name before)
  let prior ← okOr record "published exposure changed before recovery"
  let out := outcome (prior.field "invocation")
  let priorCustody ← Repository.readCustody (prior.field "custody")
  let _ ← onFiles (Repository.evidence (host.commit ⟨call.target, priorCustody, out⟩))
  let recovery : Value := .object [("effects", .strings ["configuration-source"]),
    ("status", .string "applied"),
    ("value", .object [("completion_authority", .bool false),
      ("kind", .string "agentic-workspace/skill-exposure-result/v1"),
      ("material_written", .bool false), ("mode", .string "recover"), ("name", .string name),
      ("recovered_effect", out), ("source", .string (path name))])]
  let (_, committed) ← onFiles (Repository.evidence (host.commit ⟨call.target, custody, recovery⟩))
  pure ⟨recovery, committed⟩

/-- The lock, the checks and the admission: the skill's name, its state, the marker that is there
    and the custody of the attempt. -/
def admitted : StoreM (String × State × Option Value × Custody) := do
  call.directory ".agentic-workspace/local/effects"
  let _ ← onFiles (Repository.source LOCK)
  onFiles (Repository.openLock LOCK "unrecognized configuration lock preserved")
  revalidate host call false
  let name ← okOr ((argumentsOf call.invocation).field "name").asStr "skill identity missing"
  let before ← state host call name
  check ((argumentsOf call.invocation).field "expected_revision" =
    .string (host.digest before.toValue)) "skill exposure changed before publication"
  let previous ← onFiles (retained host call.target name)
  let same := previous.filter fun r => r.field "invocation" = call.invocation
  let held ← transposeM (fun r => Repository.readCustody (r.field "custody")) same
  let (_, custody) ← onFiles (Repository.evidence
    (host.admitAttempt ⟨call.target, call.decision, call.invocation, held⟩))
  pure (name, before, previous, custody)

def execute : StoreM Executed := do
  let (name, before, previous, custody) ← admitted host call
  if (argumentsOf call.invocation).field "mode" = .string "recover" then
    recover host call name before custody
  else do
    own host call name before previous custody
    publish call name before
    let out := outcome call.invocation
    let (_, committed) ← onFiles (Repository.evidence (host.commit ⟨call.target, custody, out⟩))
    pure ⟨out, committed⟩

end AgenticCore.SkillExposure
