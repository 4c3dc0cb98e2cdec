import AgenticCore.DecisionReport

/-!
# Selection from an admitted archive (`decision_source.rs`)

* `load` : the records of an archive that a request matches, what they supersede, and the context
           `project` reads.

Git and the working tree are inputs: `archive` are the admitted blobs with their parsed records,
`working` is the hash of a working source, or the error of reading it.
-/

set_option autoImplicit false

namespace AgenticCore.DecisionSource

open Json Text Continuity

/-- An admitted source. The adapter supplies the record's `source` and `rationale_reference`. -/
structure Blob where
  path : String
  revision : String
  body : Record
  deriving DecidableEq, Repr

/-- A supersession ancestor that a published record is bound to. -/
structure Required where
  id : String
  materialRevision : String
  source : Reference
  deriving DecidableEq, Repr

structure Input where
  owner : String
  archivePath : String
  admittedRevision : String
  applicableScope : List String
  /-- The `semantic_task_routes` of the decision for this request. -/
  routes : Option Value
  required : List Required
  archive : List Blob
  working : String → Result String
  /-- What inspecting the configured destination without an admitted revision finds. -/
  destination : Result Unit

def relative (path : String) : Result Unit :=
  check (path ≠ "" ∧ path.toList.all (· ∉ ['\\', ':', Char.ofNat 0, '\n']) = true ∧
      ∀ part ∈ split '/' path, part ∉ ["", ".", "..", ".git"])
    "decision source requires an exact repository-relative path"

/-- Directory-valued archive inputs accept one optional trailing separator. -/
def archiveRelative (path field : String) : Result String :=
  let canonical :=
    if path.toList.getLast? = some '/' then String.ofList path.toList.dropLast else path
  match relative canonical with
  | .ok _ => .ok canonical
  | .error _ =>
    fail s!"{field} requires a confined repository-relative archive directory with at most one trailing slash"

def asciiHexDigit (c : Char) : Bool :=
  ('0' ≤ c && c ≤ '9') || ('a' ≤ c && c ≤ 'f') || ('A' ≤ c && c ≤ 'F')

def archiveField (owner : String) : String :=
  if owner = "repository" then "assurance.decision_record_target (decision source archive)"
  else "assurance.decision_record_fallback.archive (decision source fallback.archive)"

def revisionField (owner : String) : String :=
  if owner = "repository" then "assurance.decision_record_revision"
  else "assurance.decision_record_fallback.admitted_revision"

def emptyContext (scope : List String) : Context := ⟨[], [], [], scope, none⟩

def Blob.source (owner : String) (blob : Blob) : Reference := ⟨owner, blob.path, blob.revision⟩

def Blob.record (owner : String) (blob : Blob) : Record :=
  { blob.body with source := blob.source owner, rationaleReference := blob.path }

/-- The routes the decision has selected, whatever their standing. -/
def Input.selectedRoutes (input : Input) : List Value :=
  match input.routes with
  | none => []
  | some fact => (fact.field "routes").asArray.getD []

def Input.matchesRequest (input : Input) (record : Record) : Bool :=
  record.scope.any (· ∈ input.applicableScope) ||
    record.semanticRoutes.any fun id => Value.string id ∈ input.selectedRoutes

/-- `hash(read_repository_source(path))`. -/
def Input.sourceHash (input : Input) (path : String) : Result String := do
  relative path
  input.working path

abbrev Available := BTreeMap String (Record × Blob)

variable (digest : Value → String)

def normalBlob (owner : String) (blob : Blob) : Result (Record × Blob) := do
  let normal ← normalized digest (blob.record owner)
  pure (normal, blob)

def available (owner : String) (archive : List Blob) : Result Available :=
  archive.foldlM (insertFresh (normalBlob digest owner) (·.1.id)
    "duplicate decision identity in admitted archive") ∅

def checkRequired (available : Available) (ancestor : Required) : Result Unit := do
  let (record, _) ← okOr available[ancestor.id]?
    "Required supersession ancestor is absent from the admitted archive"
  check (record.materialRevision = some ancestor.materialRevision ∧ record.source = ancestor.source)
    "Required supersession ancestor differs from its bound source admission"

/-- What a selected record supersedes is selected too. -/
def priors (available : Available) (id : String) : List String :=
  match available[id]? with
  | some (record, _) => record.supersedes.map (·.id)
  | none => []

def selectPriors (available : Available) (id : String) (_ : Unit) :
    Result (Unit × List String) := do
  let _ ← okOr available[id]? "supersession closure is incomplete in admitted archive"
  pure ((), priors available id)

/-- `pending`, its last element on top. -/
def Input.pending (input : Input) (available : Available) : List String :=
  (((available.toList.filter fun entry => input.matchesRequest entry.2.1).map (·.1)) ++
    input.required.map (·.id)).reverse

/-- The bound on the walk: each pop that selects is of an available record or fails. -/
def Input.selected (input : Input) (available : Available) : Result (List String) :=
  match Worklist.walk (selectPriors available) (available.size + 2) (input.pending available) [] ()
  with
  | some (.ok (_, visited)) => .ok (sortDedup visited)
  | some (.error e) => .error e
  | none => fail "selection exceeded its archive"

/-- The key of an admitted record's own source among the observed dependencies. -/
def sourceKey (owner path : String) : String := owner ++ ":" ++ path

structure Selection where
  records : List Record
  admissions : List Admission
  dependencies : BTreeMap String Reference

/-- This adapter observes repository bytes only, and an unreadable dependency is left out. -/
def Input.observe (input : Input) (dependencies : BTreeMap String Reference) (d : Reference) :
    BTreeMap String Reference :=
  if d.owner ≠ "repository" then dependencies
  else
    match input.sourceHash d.reference with
    | .ok revision => dependencies.insert d.reference ⟨"repository", d.reference, revision⟩
    | .error _ => dependencies

def Input.selectRecord (input : Input) (available : Available) (selection : Selection)
    (id : String) : Result Selection :=
  match available[id]? with
  | none => .ok selection
  | some (normal, blob) => do
    let path := blob.path
    let field := revisionField input.owner
    let revision ← input.sourceHash path
    check (revision = blob.revision)
      s!"stale decision source {path}; the repository/source owner must reconcile exact provenance and {field} before contribution"
    let dependencies := normal.restsOn.foldl input.observe selection.dependencies
    pure {
      records := selection.records ++ [normal]
      admissions := selection.admissions ++
        [⟨path, normal.id, normal.materialRevision.getD "", normal.source⟩]
      dependencies := dependencies.insert (sourceKey input.owner path) normal.source }

def loadArchive (input : Input) : Result Context := do
  check (input.archive.length ≤ 64)
    "admitted archive exceeds 64 sources; select a bounded source archive"
  input.archive.forM fun blob => relative blob.path
  let available ← available digest input.owner input.archive
  input.required.forM (checkRequired available)
  let selected ← input.selected available
  let selection ← selected.foldlM (input.selectRecord available) ⟨[], [], ∅⟩
  pure {
    records := selection.records, admissions := selection.admissions
    currentDependencies := valuesOf selection.dependencies
    applicableScope := input.applicableScope, reconciliation := none }

def load (input : Input) : Result Context := do
  let archive ← archiveRelative input.archivePath (archiveField input.owner)
  if input.owner = "repository" ∧ input.admittedRevision = "" then
    let _ ← input.destination
    pure (emptyContext input.applicableScope)
  else
    let field := revisionField input.owner
    check (input.admittedRevision.utf8ByteSize = 40 ∧
        input.admittedRevision.toList.all asciiHexDigit = true)
      s!"repository decision provenance for {archive} requires an independently admitted exact Git commit in {field}; only the source owner can admit it"
    -- Without a typed record in the archive `git grep` exits with status 1.
    if input.archive = [] then pure (emptyContext input.applicableScope)
    else loadArchive digest input

end AgenticCore.DecisionSource
